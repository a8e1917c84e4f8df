import Islands.Proofs.Wrapper.Stripping

/-!
# Wrappers as text

A wrapper is an opening tag, what stands between the tags, and a closing tag. For a boundary this is
`boundaryOpening` in front of the element's body (`wrapBoundary_eq_ok`), for a slot `slotOpening` in
front of a section with the slot's content (`wrapSlot_eq_opening`, `fallbackSection_of_children`).
-/

namespace Islands

open Markup

/-- The tag that closes a component. -/
def closing (name : String) : String := "</" ++ name ++ ">"

/-! ## Boundaries -/

/-- The tag that opens a boundary. -/
def boundaryOpening (template : List Char) (id : String) (base : Nat) (root : Option String)
    (marker : String) (s : Shell) : String :=
  "<" ++ boundaryComponent ++ liftedConditions template s ++ " to=" ++
    quoteAttribute (boundaryTarget id base s) ++ rootAttribute root ++ " :island-client=" ++
    quoteAttribute marker ++ ">"

theorem wrapBoundary_eq_ok {template : List Char} {id : String} {base : Nat} {root : Option String}
    {e : Element} {text target : String}
    (h : wrapBoundary template id base root e = .ok (text, target)) :
    target = boundaryTarget id base e.toShell ∧ ∃ marker,
      markerExpression e.toShell = .ok marker ∧
      text = boundaryOpening template id base root marker e.toShell ++ boundaryBody template e ++
        closing boundaryComponent := by
  unfold wrapBoundary at h
  split at h
  · cases h
  · rename_i marker hmarker
    obtain ⟨rfl, rfl⟩ := Prod.mk.inj (Except.ok.inj h)
    refine ⟨rfl, marker, hmarker, ?_⟩
    simp only [boundaryOpening, boundaryBody, closing, String.append_assoc]

/-! ## Slots -/

/-- The tag that opens the wrapper of a slot. -/
def slotOpening (template : List Char) (s : Shell) (data : PropData) : String :=
  "<" ++ slotComponent ++ liftedConditions template s ++ " " ++
    (SlotName.ofShell s).attributeText ++ " :props=" ++ quoteAttribute data.expression ++ ">"

theorem wrapSlot_eq_opening {template : List Char} {e : Element} {text : String} {name : SlotName}
    (h : wrapSlot template e = .ok (text, name)) :
    name = SlotName.ofShell e.toShell ∧ ∃ data, slotData e.toShell = .ok data ∧
      text = slotOpening template e.toShell data ++ fallbackSection template e data.repetition ++
        closing slotComponent := by
  obtain ⟨rfl, data, hdata, rfl⟩ := wrapSlot_eq_ok h
  refine ⟨rfl, data, hdata, ?_⟩
  simp only [slotOpening, closing, String.append_assoc]

/-- A text in a section that repeats as a slot did. -/
def repeated (repetition : Option Repetition) (body : String) : String :=
  match repetition with
  | none => body
  | some r => "<template v-for=" ++ quoteAttribute r.directive ++ ">" ++ body ++ closing "template"

theorem fallbackSection_of_children {template : List Char} {e : Element} {inner : Span}
    (hinner : e.inner? = some inner) (hchildren : e.children ≠ [])
    (repetition : Option Repetition) :
    fallbackSection template e repetition =
      "<template #fallback>" ++ repeated repetition (fallbackText template e inner) ++
        closing "template" := by
  have hempty : e.children.isEmpty = false := by
    simpa [List.isEmpty_iff] using hchildren
  simp only [fallbackSection, hinner, hempty, Bool.false_eq_true, if_false]
  cases repetition <;> rfl

end Islands
