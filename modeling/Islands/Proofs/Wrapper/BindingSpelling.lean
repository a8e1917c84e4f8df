import Islands.Proofs.Wrapper.Contributions

/-!
# The two spellings of a binding

An attribute is bound by `:` or by `v-bind:` in front of its argument. Where the argument stands for
a key, the two spellings say the same, and only the fault of a bound attribute without an expression
tells them apart, since it quotes the name. An argument that stands for no key, like `[open` or one
that begins with a dot, is taken for a prop in the short spelling and passed over in the long one.

* `role_short`, `role_long`: what the attributes contribute.
* `respelled_ofAttributes_iff`: where one stands for the other in a list of attributes.
-/

namespace Islands

open Markup

/-! ## Roles -/

/-- What a binding contributes: the two spellings differ where the argument stands for no key. -/
theorem role_of_bindingArgument? {name : String} (argument : String)
    (hargument : bindingArgument? name = some argument.toList)
    (hkey : isItemKey name = (argument == "key")) (hfor : name ≠ "v-for")
    (hbind : name ≠ "v-bind") :
    Role.ofName name =
      if argument = "key" then .nothing
      else
        match argumentKey? argument.toList with
        | some key => .bound key
        | none => if isInstruction name then .nothing else .static := by
  have hprop : propKey? name = argumentKey? argument.toList := by
    rw [propKey?, hargument, Option.bind_some]
  cases hstands : argumentKey? argument.toList <;>
    simp [Role.ofName, hkey, hfor, hbind, hprop, hstands]

section
variable {argument : String}

theorem role_short : Role.ofName (":" ++ argument) =
    if argument = "key" then .nothing
    else
      match argumentKey? argument.toList with
      | some key => .bound key
      | none => .static := by
  have hinstruction : isInstruction (":" ++ argument) = false := by simp [isInstruction]
  rw [role_of_bindingArgument? argument, hinstruction]
  · rfl
  · simp [bindingArgument?, dropWord?]
  · rw [Bool.eq_iff_iff]
    simp [isItemKey, ← String.toList_inj]
  · simp [← String.toList_inj]
  · simp [← String.toList_inj]

theorem role_long : Role.ofName ("v-bind:" ++ argument) =
    if argument = "key" then .nothing
    else
      match argumentKey? argument.toList with
      | some key => .bound key
      | none => .nothing := by
  have hinstruction : isInstruction ("v-bind:" ++ argument) = true := by simp [isInstruction]
  rw [role_of_bindingArgument? argument, hinstruction]
  · rfl
  · simp [bindingArgument?, dropWord?]
  · rw [Bool.eq_iff_iff]
    simp [isItemKey, ← String.toList_inj]
  · simp [← String.toList_inj]
  · simp [← String.toList_inj]

theorem role_of_argumentKey? {key : EntryKey} (h : argumentKey? argument.toList = some key) :
    (Role.ofName (":" ++ argument) = .nothing ∧ Role.ofName ("v-bind:" ++ argument) = .nothing) ∨
      Role.ofName (":" ++ argument) = .bound key ∧
        Role.ofName ("v-bind:" ++ argument) = .bound key := by
  rw [role_short, role_long, h]
  by_cases hkey : argument = "key"
  · rw [if_pos hkey]
    exact .inl ⟨rfl, rfl⟩
  · rw [if_neg hkey]
    exact .inr ⟨rfl, rfl⟩

theorem role_of_argumentKey?_eq_none (h : argumentKey? argument.toList = none) :
    Role.ofName (":" ++ argument) = .static ∧ Role.ofName ("v-bind:" ++ argument) = .nothing := by
  have hne : argument ≠ "key" := by
    rintro rfl
    exact absurd h (by decide)
  rw [role_short, role_long, h, if_neg hne, if_neg hne]
  exact ⟨rfl, rfl⟩

end

/-! ## One attribute -/

/-- An attribute bound in the short spelling. -/
def shortBinding (argument : String) (value : Option String) (span : Span) : Attribute :=
  ⟨":" ++ argument, value, span⟩

/-- An attribute bound in the long spelling. -/
def longBinding (argument : String) (value : Option String) (span : Span) : Attribute :=
  ⟨"v-bind:" ++ argument, value, span⟩

/-- Two results are the same, but for the name that the fault of one attribute quotes. -/
inductive Respelled {α : Type} (name name' : String) :
    Except WrapError α → Except WrapError α → Prop
  | same (r : Except WrapError α) : Respelled name name' r r
  | quoted : Respelled name name' (.error (.emptyBinding name)) (.error (.emptyBinding name'))

theorem Respelled.map {α β : Type} {name name' : String} {r r' : Except WrapError α}
    (h : Respelled name name' r r') (f : α → β) : Respelled name name' (r.map f) (r'.map f) := by
  cases h with
  | same => exact .same _
  | quoted => exact .quoted

theorem Respelled.eq_of_ok {α : Type} {name name' : String} {x y : α}
    (h : Respelled name name' (.ok x) (.ok y)) : x = y := by
  cases h
  rfl

namespace PropData

/-- **The two spellings** contribute the same, and have a fault together. -/
theorem short_eq_long {argument : String} {key : EntryKey}
    (h : argumentKey? argument.toList = some key) (value : Option String) (span span' : Span) :
    collected [shortBinding argument value span] = collected [longBinding argument value span'] ∧
      (fault? (shortBinding argument value span) = fault? (longBinding argument value span') ∨
        fault? (shortBinding argument value span) = some (.emptyBinding (":" ++ argument)) ∧
          fault? (longBinding argument value span') =
            some (.emptyBinding ("v-bind:" ++ argument))) := by
  rcases role_of_argumentKey? h with ⟨hshort, hlong⟩ | ⟨hshort, hlong⟩
  · obtain ⟨hfault, hgiven⟩ :=
      contribution_of_nothing (a := shortBinding argument value span) hshort
    obtain ⟨hfault', hgiven'⟩ :=
      contribution_of_nothing (a := longBinding argument value span') hlong
    exact ⟨hgiven.trans hgiven'.symm, .inl (hfault.trans hfault'.symm)⟩
  · obtain ⟨hfault, hgiven⟩ := contribution_of_bound (a := shortBinding argument value span) hshort
    obtain ⟨hfault', hgiven'⟩ := contribution_of_bound (a := longBinding argument value span') hlong
    refine ⟨hgiven.trans hgiven'.symm, ?_⟩
    rw [hfault, hfault']
    show (ite ((trim (value.getD "")).isEmpty = true) _ _ =
      ite ((trim (value.getD "")).isEmpty = true) _ _) ∨ _
    by_cases hempty : (trim (value.getD "")).isEmpty = true
    · exact .inr ⟨if_pos hempty, if_pos hempty⟩
    · exact .inl ((if_neg hempty).trans (if_neg hempty).symm)

/-! ## Lists of attributes -/

section
variable {before after : List Attribute} {a b : Attribute}

theorem findSome?_fault?_middle :
    (before ++ a :: after).findSome? fault? =
      (before.findSome? fault?).or ((fault? a).or (after.findSome? fault?)) := by
  rw [List.findSome?_append, List.findSome?_cons]
  cases fault? a <;> rfl

/-- An attribute without a fault leaves those of the others. -/
theorem ofAttributes_middle (h : fault? a = none) :
    ofAttributes (before ++ a :: after) =
      match (before ++ after).findSome? fault? with
      | some cause => .error cause
      | none => .ok ((collected before).followedBy
          ((collected [a]).followedBy (collected after))) := by
  rw [ofAttributes_eq, findSome?_fault?_middle, h, Option.none_or, ← List.findSome?_append,
    ← collected_append, ← collected_append]
  rfl

theorem ofAttributes_congr (hfault : fault? a = fault? b) (h : collected [a] = collected [b]) :
    ofAttributes (before ++ a :: after) = ofAttributes (before ++ b :: after) := by
  have hsplit : ∀ c, before ++ c :: after = before ++ ([c] ++ after) := fun _ => rfl
  rw [ofAttributes_eq, ofAttributes_eq, findSome?_fault?_middle, findSome?_fault?_middle, hfault,
    hsplit, hsplit]
  simp only [collected_append, h]

theorem ofAttributes_of_fault? {cause : WrapError} (h : fault? a = some cause) :
    ofAttributes (before ++ a :: after) =
      match before.findSome? fault? with
      | some cause => .error cause
      | none => .error cause := by
  rw [ofAttributes_eq, findSome?_fault?_middle, h]
  cases before.findSome? fault? <;> rfl

end

/-- **The two spellings of a binding** give the same prop data and the same expression in any list
of attributes, but for the name in the fault, exactly if the argument stands for a key or another
attribute has a fault. -/
theorem respelled_ofAttributes_iff (argument : String) (value : Option String) (span span' : Span)
    (before after : List Attribute) :
    (Respelled (":" ++ argument) ("v-bind:" ++ argument)
        (ofAttributes (before ++ shortBinding argument value span :: after))
        (ofAttributes (before ++ longBinding argument value span' :: after)) ∧
      Respelled (":" ++ argument) ("v-bind:" ++ argument)
        ((ofAttributes (before ++ shortBinding argument value span :: after)).map expression)
        ((ofAttributes (before ++ longBinding argument value span' :: after)).map expression)) ↔
      (argumentKey? argument.toList).isSome = true ∨
        ∃ cause, ofAttributes (before ++ after) = .error cause := by
  rw [and_iff_left_of_imp (Respelled.map · expression)]
  cases hkey : argumentKey? argument.toList with
  | some key =>
    refine iff_of_true ?_ (.inl rfl)
    obtain ⟨hcollected, hfault | ⟨hshort, hlong⟩⟩ := short_eq_long hkey value span span'
    · rw [ofAttributes_congr hfault hcollected]
      exact .same _
    · rw [ofAttributes_of_fault? hshort, ofAttributes_of_fault? hlong]
      split
      · exact .same _
      · exact .quoted
  | none =>
    obtain ⟨hstatic, hnothing⟩ := role_of_argumentKey?_eq_none hkey
    obtain ⟨hshort, hprop⟩ := contribution_of_static (a := shortBinding argument value span) hstatic
    obtain ⟨hlong, hempty⟩ :=
      contribution_of_nothing (a := longBinding argument value span') hnothing
    rw [ofAttributes_middle hshort, ofAttributes_middle hlong, ofAttributes_eq (before ++ after)]
    cases (before ++ after).findSome? fault? with
    | some cause => exact iff_of_true (.same _) (.inr ⟨cause, rfl⟩)
    | none =>
      refine iff_of_false (fun h => ?_) (by simp)
      -- only the short spelling gives a prop
      have hlength := congrArg (fun d => d.props.length) h.eq_of_ok
      rw [hprop, hempty, empty_followedBy] at hlength
      simp only [followedBy, List.length_append, List.length_cons, List.length_nil] at hlength
      omega

/-- A bracket that is not closed stands for no key: the short spelling is taken for a prop whose
name begins with a colon, and the long one is passed over. -/
theorem not_respelled_unclosed :
    (ofAttributes [shortBinding "[open" (some "x") ⟨0, 9⟩]).map expression =
        .ok "[\x7b \":[open\": \"x\" \x7d]" ∧
      (ofAttributes [longBinding "[open" (some "x") ⟨0, 15⟩]).map expression = .ok "undefined" ∧
      ¬Respelled ":[open" "v-bind:[open" (ofAttributes [shortBinding "[open" (some "x") ⟨0, 9⟩])
        (ofAttributes [longBinding "[open" (some "x") ⟨0, 15⟩]) := by
  have hdata : ofAttributes [shortBinding "[open" (some "x") ⟨0, 9⟩] =
      .ok { props := [⟨.named ":[open", .literal "x"⟩] } := by rfl
  have hshort : (ofAttributes [shortBinding "[open" (some "x") ⟨0, 9⟩]).map expression =
      .ok "[\x7b \":[open\": \"x\" \x7d]" := by
    rw [hdata]
    exact congrArg Except.ok (by decide +kernel)
  have hlong : (ofAttributes [longBinding "[open" (some "x") ⟨0, 15⟩]).map expression =
      .ok "undefined" := by rfl
  refine ⟨hshort, hlong, fun h => ?_⟩
  have hexpression := h.map expression
  rw [hshort, hlong] at hexpression
  exact absurd hexpression.eq_of_ok (by decide)

end PropData

end Islands
