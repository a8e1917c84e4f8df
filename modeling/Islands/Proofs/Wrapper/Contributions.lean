import Islands.Wrapper.Slot

/-!
# What attributes contribute

The attributes of a slot are read one after the other into its prop data. `ofAttributes_eq` says
what comes out for a whole list: the fault of the first attribute that has one (`fault?`), and
otherwise the props of all attributes, the last spread and the last repetition (`collected`). The
name of the slot is given by the first attribute that names it (`SlotName.Given`), its repetition by
the last `v-for` (`Repetition.Given`).
-/

namespace Islands

open Markup

/-! ## One attribute -/

theorem Role.name_of_ofName (name : String) :
    (Role.ofName name = .spread → name = "v-bind") ∧
      (Role.ofName name = .repetition → name = "v-for") := by
  unfold Role.ofName
  split
  · exact ⟨nofun, nofun⟩
  · split
    · exact ⟨nofun, fun _ => ‹_›⟩
    · split
      · exact ⟨fun _ => ‹_›, nofun⟩
      · split
        · exact ⟨nofun, nofun⟩
        · split <;> exact ⟨nofun, nofun⟩

/-- Why an attribute cannot contribute: it is a repetition without its parts, or bound without an
expression. -/
def fault? (a : Attribute) : Option WrapError :=
  match Role.ofName a.name with
  | .nothing | .static => none
  | .repetition =>
    if (Repetition.ofDirective? a.valueOrEmpty).isSome then none
    else some (.invalidRepetition a.valueOrEmpty)
  | .spread | .bound _ =>
    if (trim a.valueOrEmpty).isEmpty then some (.emptyBinding a.name) else none

/-- The prop that an attribute gives. -/
def prop? (a : Attribute) : Option PropEntry :=
  match Role.ofName a.name with
  | .bound key => some ⟨key, .expression (trim a.valueOrEmpty)⟩
  | .static => some ⟨.named a.name, .literal a.valueOrEmpty⟩
  | _ => none

/-- The spread that an attribute gives. -/
def spread? (a : Attribute) : Option String :=
  match Role.ofName a.name with
  | .spread => some (trim a.valueOrEmpty)
  | _ => none

/-- The repetition that an attribute gives. -/
def repetition? (a : Attribute) : Option Repetition :=
  match Role.ofName a.name with
  | .repetition => Repetition.ofDirective? a.valueOrEmpty
  | _ => none

theorem getLast?_toList {β : Type} (o : Option β) : o.toList.getLast? = o := by
  cases o <;> rfl

namespace PropData

/-! ## Lists of attributes -/

/-- Prop data with more behind it: props are added, a later spread or repetition counts. -/
def followedBy (d e : PropData) : PropData :=
  ⟨d.props ++ e.props, e.spread.or d.spread, e.repetition.or d.repetition⟩

/-- What attributes contribute that have no fault. -/
def collected (as : List Attribute) : PropData :=
  ⟨as.filterMap prop?, (as.filterMap spread?).getLast?, (as.filterMap repetition?).getLast?⟩

theorem collected_append (as bs : List Attribute) :
    collected (as ++ bs) = (collected as).followedBy (collected bs) := by
  simp only [collected, followedBy, List.filterMap_append, List.getLast?_append]

theorem followedBy_assoc (d e f : PropData) :
    (d.followedBy e).followedBy f = d.followedBy (e.followedBy f) := by
  simp only [followedBy, List.append_assoc, Option.or_assoc]

theorem empty_followedBy (d : PropData) : followedBy {} d = d := by
  simp only [followedBy, List.nil_append, Option.or_none]

theorem collected_singleton (a : Attribute) :
    collected [a] = ⟨(prop? a).toList, spread? a, repetition? a⟩ := by
  have hone : ∀ {β : Type} (f : Attribute → Option β), [a].filterMap f = (f a).toList := by
    intro β f
    cases hf : f a <;> simp [hf]
  simp only [collected, hone, getLast?_toList]

theorem add_eq (d : PropData) (a : Attribute) :
    d.add a =
      match fault? a with
      | some cause => .error cause
      | none => .ok (d.followedBy (collected [a])) := by
  rw [collected_singleton]
  unfold add followedBy fault? prop? spread? repetition?
  cases Role.ofName a.name with
  | nothing => simp
  | repetition => cases Repetition.ofDirective? a.valueOrEmpty <;> simp
  | spread | bound key =>
    simp only [expressionOf]
    by_cases hempty : (trim a.valueOrEmpty).isEmpty = true <;> simp [hempty, Except.map]
  | static => simp

section
variable {a : Attribute}

theorem contribution_of_nothing (h : Role.ofName a.name = .nothing) :
    fault? a = none ∧ collected [a] = {} := by
  rw [collected_singleton]
  simp only [fault?, prop?, spread?, repetition?, h]
  exact ⟨trivial, rfl⟩

theorem contribution_of_bound {key : EntryKey} (h : Role.ofName a.name = .bound key) :
    fault? a = (if (trim a.valueOrEmpty).isEmpty then some (.emptyBinding a.name) else none) ∧
      collected [a] = { props := [⟨key, .expression (trim a.valueOrEmpty)⟩] } := by
  rw [collected_singleton]
  simp only [fault?, prop?, spread?, repetition?, h]
  exact ⟨trivial, rfl⟩

theorem contribution_of_static (h : Role.ofName a.name = .static) :
    fault? a = none ∧ collected [a] = { props := [⟨.named a.name, .literal a.valueOrEmpty⟩] } := by
  rw [collected_singleton]
  simp only [fault?, prop?, spread?, repetition?, h]
  exact ⟨trivial, rfl⟩

end

theorem foldlM_add_eq (d : PropData) (as : List Attribute) :
    as.foldlM add d =
      match as.findSome? fault? with
      | some cause => .error cause
      | none => .ok (d.followedBy (collected as)) := by
  induction as generalizing d with
  | nil => simp [collected, followedBy, pure, Except.pure]
  | cons a as ih =>
    rw [List.foldlM_cons, add_eq, List.findSome?_cons]
    cases fault? a with
    | some cause => rfl
    | none =>
      show as.foldlM add _ = _
      rw [ih, followedBy_assoc, ← collected_append, List.singleton_append]

/-- **What a list of attributes contributes**: the first fault, or all that they give. -/
theorem ofAttributes_eq (as : List Attribute) :
    ofAttributes as =
      match as.findSome? fault? with
      | some cause => .error cause
      | none => .ok (collected as) := by
  rw [ofAttributes, foldlM_add_eq, empty_followedBy]

theorem ofAttributes_eq_ok_iff {as : List Attribute} {d : PropData} :
    ofAttributes as = .ok d ↔ (∀ a ∈ as, fault? a = none) ∧ d = collected as := by
  rw [ofAttributes_eq, ← List.findSome?_eq_none_iff]
  cases as.findSome? fault? <;> simp [eq_comm]

theorem ofAttributes_eq_error_iff {as : List Attribute} {cause : WrapError} :
    ofAttributes as = .error cause ↔ as.findSome? fault? = some cause := by
  rw [ofAttributes_eq]
  cases as.findSome? fault? <;> simp

end PropData

/-! ## Slots -/

/-- The name that the attributes of a slot give to it. -/
inductive SlotName.Given : List Attribute → SlotName → Prop
  | default {as : List Attribute} (h : ∀ a ∈ as, isSlotName a.name = false) :
    Given as (static "default")
  | static {before after : List Attribute} {a : Attribute}
    (h : ∀ b ∈ before, isSlotName b.name = false) (ha : a.name = "name") :
    Given (before ++ a :: after) (static a.valueOrEmpty)
  | dynamic {before after : List Attribute} {a : Attribute}
    (h : ∀ b ∈ before, isSlotName b.name = false) (ha : a.name = ":name" ∨ a.name = "v-bind:name") :
    Given (before ++ a :: after) (dynamic (trim a.valueOrEmpty))

theorem SlotName.given_ofShell (s : Shell) : Given s.attributes (ofShell s) := by
  unfold ofShell
  split
  · rename_i hnone
    exact .default fun a ha => by simpa using List.find?_eq_none.1 hnone a ha
  · rename_i a hsome
    obtain ⟨hname, before, after, hsplit, hbefore⟩ := List.find?_eq_some_iff_append.1 hsome
    have hbefore : ∀ b ∈ before, isSlotName b.name = false := fun b hb => by
      simpa using hbefore b hb
    rw [hsplit]
    split
    · exact .static hbefore ‹_›
    · rename_i hne
      simp only [isSlotName, Bool.or_eq_true, beq_iff_eq, or_assoc] at hname
      exact .dynamic hbefore (hname.resolve_left hne)

/-- A slot with these attributes is called by a text: the name that they give to it, or the
expression that gives the name. -/
def SlotName.Calls (as : List Attribute) (text : String) : Prop :=
  Given as (static text) ∨ Given as (dynamic text)

theorem SlotName.calls_ofShell (s : Shell) : Calls s.attributes (ofShell s).text := by
  have hgiven := given_ofShell s
  cases hname : ofShell s with
  | static name => exact .inl (hname ▸ hgiven)
  | dynamic expression => exact .inr (hname ▸ hgiven)

/-- The repetition that the attributes of a slot give to it: the last `v-for` counts, and its value
is the directive. -/
inductive Repetition.Given : List Attribute → Option Repetition → Prop
  | none {as : List Attribute} (h : ∀ a ∈ as, a.name ≠ "v-for") : Given as .none
  | some {before after : List Attribute} {a : Attribute} {r : Repetition} (ha : a.name = "v-for")
    (h : ∀ b ∈ after, b.name ≠ "v-for") (hdirective : r.directive = a.valueOrEmpty)
    (hr : ofDirective? a.valueOrEmpty = .some r) : Given (before ++ a :: after) (.some r)

theorem directive_of_ofDirective? {directive : String} {r : Repetition}
    (h : Repetition.ofDirective? directive = some r) : r.directive = directive := by
  unfold Repetition.ofDirective? at h
  split at h
  · cases h
  · simp only at h
    split at h
    · cases h
    · obtain rfl := Option.some.inj h
      rfl

theorem role_of_eq {a : Attribute} (ha : a.name = "v-for") :
    Role.ofName a.name = .repetition := by
  rw [ha]
  decide

theorem repetition?_of_ne {a : Attribute} (ha : a.name ≠ "v-for") : repetition? a = none := by
  unfold repetition?
  split
  · exact absurd ((Role.name_of_ofName a.name).2 ‹_›) ha
  · rfl

theorem repetition?_of_eq {a : Attribute} (ha : a.name = "v-for") :
    repetition? a = Repetition.ofDirective? a.valueOrEmpty := by
  rw [repetition?, role_of_eq ha]

/-- The last repetition that some attributes give, if each `v-for` among them gives one. -/
theorem Repetition.given_getLast? {as : List Attribute}
    (h : ∀ a ∈ as, a.name = "v-for" → ofDirective? a.valueOrEmpty ≠ .none) :
    Given as (as.filterMap repetition?).getLast? := by
  have hname : ∀ a ∈ as, repetition? a = .none → a.name ≠ "v-for" := by
    intro a hmem hnone ha
    rw [repetition?_of_eq ha] at hnone
    exact h a hmem ha hnone
  rw [List.getLast?_filterMap]
  cases hlast : as.reverse.findSome? repetition? with
  | none =>
    exact .none fun a ha => hname a ha (List.findSome?_eq_none_iff.1 hlast a (List.mem_reverse.2 ha))
  | some r =>
    obtain ⟨after, a, before, hsplit, hr, hafter⟩ := List.findSome?_eq_some_iff.1 hlast
    have hsplit : as = before.reverse ++ a :: after.reverse := by
      rw [← List.reverse_reverse as, hsplit]
      simp
    have ha : a.name = "v-for" := by
      refine Classical.byContradiction fun hne => ?_
      rw [repetition?_of_ne hne] at hr
      cases hr
    rw [repetition?_of_eq ha] at hr
    rw [hsplit] at hname ⊢
    refine .some ha (fun b hb => ?_) (directive_of_ofDirective? hr) hr
    exact hname b (List.mem_append_right _ (List.mem_cons_of_mem _ hb))
      (hafter b (List.mem_reverse.1 hb))

/-- **The repetition of a slot** is that of its last `v-for`. -/
theorem Repetition.given_of_slotData {s : Shell} {data : PropData} (h : slotData s = .ok data) :
    Given s.attributes data.repetition := by
  obtain ⟨hfault, rfl⟩ := PropData.ofAttributes_eq_ok_iff.1 h
  have hkept : ∀ a : Attribute, a.name = "v-for" →
      (!isSlotName a.name && !isCondition a.name) = true := by
    intro a ha
    rw [ha]
    decide
  have hall : (s.attributes.filter fun a => !isSlotName a.name && !isCondition a.name).filterMap
      repetition? = s.attributes.filterMap repetition? := by
    rw [List.filterMap_filter]
    refine congrArg (s.attributes.filterMap ·) (funext fun a => ?_)
    split
    · rfl
    · exact (repetition?_of_ne fun ha => absurd (hkept a ha) ‹_›).symm
  rw [PropData.collected, hall]
  refine given_getLast? fun a hmem ha hnone => ?_
  have hnofault := hfault a (List.mem_filter.2 ⟨hmem, hkept a ha⟩)
  simp [fault?, role_of_eq ha, hnone] at hnofault

end Islands
