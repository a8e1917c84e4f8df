import Mathlib.Data.List.Basic
import Islands.Proofs.Wrapper.Contributions
import Islands.Proofs.Wrapper.WrapperText

/-!
# Repeated attributes

A list of attributes may name one twice. Where only the first attribute of each name counts, the
others can be left out (`firstOnly`), and that is so for the name of a slot. But a wrapper takes all
conditions and all props, and the last spread and the last repetition.

* `filterMap_firstOnly_iff`: what does not change without the repeated attributes.
* `collected_firstOnly_iff`: when the prop data are the same.
* `wrapSlot_distinct`: what becomes of the wrapper of a slot.
-/

namespace Islands

open Markup

/-! ## The first of each name -/

/-- Attributes without those whose name an earlier one has. -/
def firstOnly : List Attribute → List Attribute
  | [] => []
  | a :: as => a :: (firstOnly as).filter fun b => !(b.name == a.name)

/-- The attributes that `firstOnly` leaves out: the one among the others that would be the first of
its name but for the attribute in front, and those that are repeated among the others. -/
def repeats : List Attribute → List Attribute
  | [] => []
  | a :: as => (firstOnly as).filter (fun b => b.name == a.name) ++ repeats as

/-- An attribute stands behind one of the same name. -/
def IsRepeat (as : List Attribute) (a : Attribute) : Prop :=
  ∃ before after, as = before ++ a :: after ∧ ∃ b ∈ before, b.name = a.name

theorem firstOnly_sublist (as : List Attribute) : (firstOnly as).Sublist as := by
  induction as with
  | nil => exact .slnil
  | cons a as ih => exact (List.filter_sublist.trans ih).cons_cons a

theorem firstOnly_append_repeats (as : List Attribute) : (firstOnly as ++ repeats as).Perm as := by
  induction as with
  | nil => exact .nil
  | cons a as ih =>
    have hparts : ((firstOnly as).filter (fun b => !(b.name == a.name)) ++
        (firstOnly as).filter (fun b => b.name == a.name)).Perm (firstOnly as) :=
      List.perm_append_comm.trans (List.filter_append_perm _ _)
    show (a :: (_ ++ ((firstOnly as).filter (fun b => b.name == a.name) ++ repeats as))).Perm _
    rw [← List.append_assoc]
    exact ((hparts.append_right _).trans ih).cons a

theorem isRepeat_cons {c a : Attribute} {as : List Attribute} :
    IsRepeat (c :: as) a ↔ (a ∈ as ∧ a.name = c.name) ∨ IsRepeat as a := by
  constructor
  · rintro ⟨before, after, has, b, hb, hname⟩
    cases before with
    | nil => cases hb
    | cons d before =>
      obtain ⟨rfl, rfl⟩ := List.cons.inj has
      rcases List.mem_cons.1 hb with rfl | hb
      · exact .inl ⟨by simp, hname.symm⟩
      · exact .inr ⟨before, after, rfl, b, hb, hname⟩
  · rintro (⟨ha, hname⟩ | ⟨before, after, rfl, b, hb, hname⟩)
    · obtain ⟨before, after, rfl⟩ := List.append_of_mem ha
      exact ⟨c :: before, after, rfl, c, List.mem_cons_self, hname.symm⟩
    · exact ⟨c :: before, after, rfl, b, List.mem_cons_of_mem _ hb, hname⟩

theorem mem_repeats_iff {as : List Attribute} {a : Attribute} :
    a ∈ repeats as ↔ IsRepeat as a := by
  induction as with
  | nil => simp [repeats, IsRepeat]
  | cons c as ih =>
    have hmem : a ∈ as ↔ a ∈ firstOnly as ∨ IsRepeat as a := by
      rw [← (firstOnly_append_repeats as).mem_iff, List.mem_append, ih]
    rw [repeats, List.mem_append, List.mem_filter, beq_iff_eq, ih, isRepeat_cons, hmem]
    constructor
    · rintro (⟨ha, hname⟩ | ha)
      · exact .inl ⟨.inl ha, hname⟩
      · exact .inr ha
    · rintro (⟨ha | ha, hname⟩ | ha)
      · exact .inl ⟨ha, hname⟩
      · exact .inr ha
      · exact .inr ha

section
variable (p : String → Bool)

theorem firstOnly_filter (as : List Attribute) :
    firstOnly (as.filter (p ·.name)) = (firstOnly as).filter (p ·.name) := by
  induction as with
  | nil => rfl
  | cons a as ih =>
    by_cases ha : p a.name = true
    · simp only [List.filter_cons, if_pos ha, firstOnly, ih]
      rw [List.filter_comm]
    · simp only [List.filter_cons, if_neg ha, firstOnly, ih, List.filter_filter]
      refine List.filter_congr fun b _ => ?_
      cases hb : p b.name with
      | false => rfl
      | true =>
        have hne : b.name ≠ a.name := fun h => ha (h ▸ hb)
        simp [hne]

theorem repeats_filter (as : List Attribute) :
    repeats (as.filter (p ·.name)) = (repeats as).filter (p ·.name) := by
  induction as with
  | nil => rfl
  | cons a as ih =>
    by_cases ha : p a.name = true
    · simp only [List.filter_cons, if_pos ha, repeats, firstOnly_filter, ih, List.filter_append]
      rw [List.filter_comm]
    · have hnone : ((firstOnly as).filter fun b => b.name == a.name).filter (p ·.name) = [] := by
        refine List.filter_eq_nil_iff.2 fun b hb => ?_
        rw [beq_iff_eq.1 (List.mem_filter.1 hb).2]
        exact ha
      simp only [List.filter_cons, if_neg ha, repeats, ih, List.filter_append, hnone,
        List.nil_append]

end

/-- **What attributes give** is the same without the repeated ones exactly if these give nothing. -/
theorem filterMap_firstOnly_iff {β : Type} (f : Attribute → Option β) (as : List Attribute) :
    (firstOnly as).filterMap f = as.filterMap f ↔ ∀ a ∈ repeats as, f a = none := by
  have hlength := ((firstOnly_append_repeats as).filterMap f).length_eq
  rw [List.filterMap_append, List.length_append] at hlength
  rw [← List.filterMap_eq_nil_iff, ← List.length_eq_zero_iff]
  constructor
  · intro h
    rw [h] at hlength
    omega
  · intro h
    exact ((firstOnly_sublist as).filterMap f).eq_of_length (by omega)

/-- Of what attributes of one name give, the first is left. -/
theorem filterMap_firstOnly_of_name {β : Type} {f : Attribute → Option β} {name : String}
    {as : List Attribute} (hname : ∀ a, a.name ≠ name → f a = none)
    (hall : ∀ a ∈ as, a.name = name → (f a).isSome = true) :
    (firstOnly as).filterMap f = (as.filterMap f).head?.toList := by
  induction as with
  | nil => rfl
  | cons a as ih =>
    obtain ⟨ha, has⟩ := List.forall_mem_cons.1 hall
    rw [firstOnly]
    by_cases hfirst : a.name = name
    · -- the others of this name are left out, and further ones give nothing
      obtain ⟨x, hx⟩ := Option.isSome_iff_exists.1 (ha hfirst)
      have hnone : ((firstOnly as).filter fun b => !(b.name == a.name)).filterMap f = [] :=
        List.filterMap_eq_nil_iff.2 fun b hb => hname b fun hb' => by
          simp [hb', hfirst] at hb
      rw [List.filterMap_cons_some hx, hnone, List.filterMap_cons_some hx]
      rfl
    · have hsame : ((firstOnly as).filter fun b => !(b.name == a.name)).filterMap f =
          (firstOnly as).filterMap f := by
        rw [List.filterMap_filter]
        refine List.filterMap_congr fun b _ => ?_
        split
        · rfl
        · rename_i hb
          have hb : b.name = a.name := by simpa using hb
          exact (hname b fun hb' => hfirst (hb.symm.trans hb')).symm
      rw [List.filterMap_cons_none (hname a hfirst), hsame, ih has,
        List.filterMap_cons_none (hname a hfirst)]

/-! ## Prop data -/

section
variable {a : Attribute}

theorem spread?_of_name_ne (h : a.name ≠ "v-bind") : spread? a = none := by
  unfold spread?
  split
  · rename_i hrole
    exact absurd ((Role.name_of_ofName a.name).1 hrole) h
  · rfl

theorem repetition?_of_name_ne (h : a.name ≠ "v-for") : repetition? a = none := by
  unfold repetition?
  split
  · rename_i hrole
    exact absurd ((Role.name_of_ofName a.name).2 hrole) h
  · rfl

theorem isSome_spread? (h : a.name = "v-bind") : (spread? a).isSome = true := by
  rw [spread?, h]
  rfl

theorem isSome_repetition? (h : a.name = "v-for") (hfault : fault? a = none) :
    (repetition? a).isSome = true := by
  have hrole : Role.ofName a.name = .repetition := by
    rw [h]
    rfl
  simp only [fault?, hrole] at hfault
  simp only [repetition?, hrole]
  split at hfault
  · assumption
  · cases hfault

end

namespace PropData

/-- **The prop data** of attributes without faults are the same without the repeated ones exactly if
these give no props, and the last spread and the last repetition are the first ones, too. -/
theorem collected_firstOnly_iff (as : List Attribute) (h : ∀ a ∈ as, fault? a = none) :
    collected (firstOnly as) = collected as ↔
      (∀ a ∈ repeats as, prop? a = none) ∧
        (as.filterMap spread?).head? = (as.filterMap spread?).getLast? ∧
        (as.filterMap repetition?).head? = (as.filterMap repetition?).getLast? := by
  have hspread : ((firstOnly as).filterMap spread?).getLast? = (as.filterMap spread?).head? := by
    rw [filterMap_firstOnly_of_name (fun _ => spread?_of_name_ne) fun _ _ => isSome_spread?,
      getLast?_toList]
  have hrepetition : ((firstOnly as).filterMap repetition?).getLast? =
      (as.filterMap repetition?).head? := by
    rw [filterMap_firstOnly_of_name (fun _ => repetition?_of_name_ne) fun a ha hname =>
      isSome_repetition? hname (h a ha), getLast?_toList]
  rw [collected, collected, PropData.mk.injEq, filterMap_firstOnly_iff, hspread, hrepetition]

/-- Attributes without the repeated ones have the same first fault, if those have none. -/
theorem findSome?_fault?_firstOnly {as : List Attribute} (h : ∀ a ∈ repeats as, fault? a = none) :
    (firstOnly as).findSome? fault? = as.findSome? fault? := by
  rw [← List.head?_filterMap, ← List.head?_filterMap, (filterMap_firstOnly_iff fault? as).2 h]

end PropData

/-! ## Slots -/

/-- A slot without its repeated attributes. -/
def Markup.Element.distinct (e : Element) : Element :=
  { e with attributes := firstOnly e.attributes }

/-- The attributes of an element that are conditions. -/
def Markup.Shell.conditionals (s : Shell) : List Attribute :=
  s.attributes.filter (isCondition ·.name)

/-- **The repeated attributes have no say** in the wrapper of a slot: none of them is a condition or
a prop, and the last spread and the last repetition are the first ones, too. -/
structure Markup.Shell.RepeatsIdly (s : Shell) : Prop where
  condition : ∀ a, IsRepeat s.attributes a → isCondition a.name = false
  prop : ∀ a, IsRepeat s.attributes a → isSlotName a.name = false → prop? a = none
  spread : (s.attributes.filterMap spread?).head? = (s.attributes.filterMap spread?).getLast?
  repetition :
    (s.attributes.filterMap repetition?).head? = (s.attributes.filterMap repetition?).getLast?

/-- Whether an attribute of this name counts for the prop data of a slot. -/
def isData (name : String) : Bool := !isSlotName name && !isCondition name

theorem head?_firstOnly (as : List Attribute) : (firstOnly as).head? = as.head? := by
  cases as <;> rfl

section
variable {e : Element}

theorem ofShell_distinct : SlotName.ofShell e.distinct.toShell = SlotName.ofShell e.toShell := by
  have hfirst : (firstOnly e.attributes).find? (isSlotName ·.name) =
      e.attributes.find? (isSlotName ·.name) := by
    rw [← List.head?_filter, ← List.head?_filter, ← firstOnly_filter isSlotName, head?_firstOnly]
  unfold SlotName.ofShell
  rw [show e.distinct.attributes = firstOnly e.attributes from rfl, hfirst]

theorem conditionals_distinct_iff :
    e.distinct.conditionals = e.conditionals ↔
      ∀ a, IsRepeat e.attributes a → isCondition a.name = false := by
  show (firstOnly e.attributes).filter (isCondition ·.name) =
    e.attributes.filter (isCondition ·.name) ↔ _
  rw [← List.filterMap_eq_filter, filterMap_firstOnly_iff]
  simp only [Option.guard_eq_none_iff, mem_repeats_iff]

theorem slotData_distinct :
    slotData e.distinct.toShell =
      PropData.ofAttributes (firstOnly (e.attributes.filter (isData ·.name))) := by
  rw [firstOnly_filter]
  rfl

theorem filterMap_isData {β : Type} {f : Attribute → Option β} (name : String)
    (hdata : isData name = true) (hname : ∀ a, a.name ≠ name → f a = none) (as : List Attribute) :
    (as.filter (isData ·.name)).filterMap f = as.filterMap f := by
  rw [List.filterMap_filter]
  refine List.filterMap_congr fun a _ => ?_
  split
  · rfl
  · rename_i hnot
    refine (hname a ?_).symm
    rintro rfl
    exact hnot hdata

/-- **The prop data** of a slot without its repeated attributes. -/
theorem slotData_distinct_iff {data : PropData} (h : slotData e.toShell = .ok data) :
    slotData e.distinct.toShell = .ok data ↔
      (∀ a, IsRepeat e.attributes a → isData a.name = true → prop? a = none) ∧
        (e.attributes.filterMap spread?).head? = (e.attributes.filterMap spread?).getLast? ∧
        (e.attributes.filterMap repetition?).head? =
          (e.attributes.filterMap repetition?).getLast? := by
  obtain ⟨hfaults, rfl⟩ := PropData.ofAttributes_eq_ok_iff.1 h
  have hrest : ∀ a ∈ firstOnly (e.attributes.filter (isData ·.name)), fault? a = none :=
    fun a ha => hfaults a ((firstOnly_sublist _).mem ha)
  have hdata := PropData.collected_firstOnly_iff (e.attributes.filter (isData ·.name)) hfaults
  rw [filterMap_isData "v-bind" rfl fun _ => spread?_of_name_ne,
    filterMap_isData "v-for" rfl fun _ => repetition?_of_name_ne] at hdata
  rw [slotData_distinct, PropData.ofAttributes_eq_ok_iff, and_iff_right hrest, eq_comm]
  refine hdata.trans (and_congr_left fun _ => ?_)
  simp only [repeats_filter, List.mem_filter, mem_repeats_iff, and_imp]

/-- **Its parts** are the same exactly if the repeated attributes have no say. -/
theorem repeatsIdly_iff {data : PropData} (h : slotData e.toShell = .ok data) :
    (e.distinct.conditionals = e.conditionals ∧ slotData e.distinct.toShell = .ok data) ↔
      e.RepeatsIdly := by
  rw [conditionals_distinct_iff, slotData_distinct_iff h]
  constructor
  · rintro ⟨hcondition, hprop, hspread, hrepetition⟩
    refine ⟨hcondition, fun a ha hname => hprop a ha ?_, hspread, hrepetition⟩
    rw [isData, hname, hcondition a ha]
    rfl
  · rintro ⟨hcondition, hprop, hspread, hrepetition⟩
    refine ⟨hcondition, fun a ha hdata => hprop a ha ?_, hspread, hrepetition⟩
    simp only [isData, Bool.and_eq_true, Bool.not_eq_true'] at hdata
    exact hdata.1

end

/-! ## Wrappers -/

/-- The wrapper of a slot with given prop data. -/
def wrapperText (template : List Char) (e : Element) (data : PropData) : String :=
  slotOpening template e.toShell data ++ fallbackSection template e data.repetition ++
    closing slotComponent

theorem wrapSlot_eq_map (template : List Char) (e : Element) :
    wrapSlot template e =
      if SlotName.ofShell e.toShell = .dynamic "" then .error (.emptyBinding ":name")
      else (slotData e.toShell).map fun data =>
        (wrapperText template e data, SlotName.ofShell e.toShell) := by
  unfold wrapSlot
  cases slotData e.toShell with
  | error cause => rfl
  | ok data => simp only [Except.map, wrapperText, slotOpening, closing, String.append_assoc]

theorem wrapperText_distinct {template : List Char} {e : Element}
    (h : e.distinct.conditionals = e.conditionals) (data : PropData) :
    wrapperText template e.distinct data = wrapperText template e data := by
  have hlifted : liftedConditions template e.distinct.toShell =
      liftedConditions template e.toShell := by
    show String.join (e.distinct.conditionals.map _) = String.join (e.conditionals.map _)
    rw [h]
  unfold wrapperText slotOpening
  rw [hlifted, ofShell_distinct]
  rfl

/-- Without repeated attributes a slot has the same fault, if these have none. -/
theorem slotData_distinct_of_error {e : Element} {cause : WrapError}
    (h : slotData e.toShell = .error cause)
    (hrepeats : ∀ a, IsRepeat e.attributes a → isSlotName a.name = false → fault? a = none) :
    slotData e.distinct.toShell = .error cause := by
  rw [slotData_distinct, PropData.ofAttributes_eq_error_iff,
    PropData.findSome?_fault?_firstOnly fun a ha => ?_]
  · exact PropData.ofAttributes_eq_error_iff.1 h
  · rw [repeats_filter, List.mem_filter, mem_repeats_iff] at ha
    simp only [isData, Bool.and_eq_true, Bool.not_eq_true'] at ha
    exact hrepeats a ha.1 ha.2.1

theorem exists_slotData_distinct {e : Element} {data : PropData}
    (h : slotData e.toShell = .ok data) : ∃ data', slotData e.distinct.toShell = .ok data' := by
  refine ⟨_, slotData_distinct.trans (PropData.ofAttributes_eq_ok_iff.2 ⟨fun a ha => ?_, rfl⟩)⟩
  exact (PropData.ofAttributes_eq_ok_iff.1 h).1 a ((firstOnly_sublist _).mem ha)

/-- **Repeated attributes of a slot** do not count for its name, and let it fail only by faults of
their own. The wrapper has the same parts without them exactly if they have no say in it, and then
its text is the same. -/
theorem wrapSlot_distinct (template : List Char) (e : Element) :
    (∀ text name, wrapSlot template e = .ok (text, name) →
      ∃ text', wrapSlot template e.distinct = .ok (text', name) ∧
        ((e.distinct.conditionals = e.conditionals ∧
          slotData e.distinct.toShell = slotData e.toShell) ↔ e.RepeatsIdly) ∧
        (e.RepeatsIdly → text' = text)) ∧
    ∀ cause, wrapSlot template e = .error cause →
      (∀ a, IsRepeat e.attributes a → isSlotName a.name = false → fault? a = none) →
      wrapSlot template e.distinct = .error cause := by
  rw [wrapSlot_eq_map, wrapSlot_eq_map, ofShell_distinct]
  split
  · exact ⟨fun _ _ h => (nomatch h), fun _ h _ => h⟩
  · cases hdata : slotData e.toShell with
    | error fault =>
      refine ⟨fun _ _ h => (nomatch h), fun cause hcause hrepeats => ?_⟩
      rw [slotData_distinct_of_error hdata hrepeats]
      exact hcause
    | ok data =>
      refine ⟨fun text name h => ?_, fun _ h => (nomatch h)⟩
      obtain ⟨rfl, rfl⟩ := Prod.mk.inj (Except.ok.inj h)
      obtain ⟨data', hdata'⟩ := exists_slotData_distinct hdata
      refine ⟨wrapperText template e.distinct data', by rw [hdata']; rfl, repeatsIdly_iff hdata,
        fun hidly => ?_⟩
      obtain ⟨hconditionals, hsame⟩ := (repeatsIdly_iff hdata).2 hidly
      rw [hdata'] at hsame
      rw [Except.ok.inj hsame, wrapperText_distinct hconditionals]

/-- A template with a slot that has repeated attributes. -/
def idleTemplate : List Char :=
  "<slot v-bind=\"p\" key=\"1\" @x=\"f\" v-bind=\" p \" key=\"2\" @x=\"g\"/>".toList

/-- The slot in the template: its key and its listener say nothing, and its spreads the same. -/
def idleSlot : Element where
  name := "slot"
  attributes := [⟨"v-bind", some "p", ⟨6, 16⟩⟩, ⟨"key", some "1", ⟨17, 24⟩⟩,
    ⟨"@x", some "f", ⟨25, 31⟩⟩, ⟨"v-bind", some " p ", ⟨32, 44⟩⟩, ⟨"key", some "2", ⟨45, 52⟩⟩,
    ⟨"@x", some "g", ⟨53, 59⟩⟩]
  openTag := ⟨0, 61⟩
  closeTag := none
  children := []

/-- The wrapper of the slot is the same with half of its attributes. -/
theorem wrapSlot_distinct_idle :
    parse idleTemplate = .ok [.element idleSlot.toShell idleSlot.children] ∧
      idleSlot.distinct.attributes = idleSlot.attributes.take 3 ∧ idleSlot.RepeatsIdly ∧
      ∃ text, wrapSlot idleTemplate idleSlot = .ok (text, .static "default") ∧
        wrapSlot idleTemplate idleSlot.distinct = .ok (text, .static "default") := by
  have hwrap : wrapSlot idleTemplate idleSlot =
      .ok ("<IslandSlot name=\"default\" :props=\"[__mergeProps(p, \x7b\x7d)]\"></IslandSlot>",
        .static "default") := by decide +kernel
  obtain ⟨text', hdistinct, hidly, htext⟩ :=
    (wrapSlot_distinct idleTemplate idleSlot).1 _ _ hwrap
  have hidle : idleSlot.RepeatsIdly := hidly.1 (by decide +kernel)
  exact ⟨by decide +kernel, by decide +kernel, hidle, _, hwrap, htext hidle ▸ hdistinct⟩

/-- A template with a slot that has two props of one name. -/
def twiceTemplate : List Char := "<slot a=\"1\" a=\"2\"/>".toList

/-- The slot in the template. -/
def twiceSlot : Element where
  name := "slot"
  attributes := [⟨"a", some "1", ⟨6, 11⟩⟩, ⟨"a", some "2", ⟨12, 17⟩⟩]
  openTag := ⟨0, 19⟩
  closeTag := none
  children := []

/-- Both props of one name get into the wrapper. -/
theorem not_wrapSlot_distinct :
    parse twiceTemplate = .ok [.element twiceSlot.toShell twiceSlot.children] ∧
      wrapSlot twiceTemplate twiceSlot =
        .ok ("<IslandSlot name=\"default\" " ++
          ":props='[\x7b a: \"1\", a: \"2\" \x7d]'></IslandSlot>", .static "default") ∧
      wrapSlot twiceTemplate twiceSlot.distinct =
        .ok ("<IslandSlot name=\"default\" :props='[\x7b a: \"1\" \x7d]'></IslandSlot>",
          .static "default") := by
  refine ⟨?_, ?_, ?_⟩ <;> decide +kernel

end Islands
