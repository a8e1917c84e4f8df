import Islands.Wrapper.PropData
import Islands.Wrapper.Strip

/-!
# Slots

A slot becomes a wrapper that can be filled from elsewhere when the component is rendered. Its
attributes become the wrapper's prop data, its content the wrapper's fallback.

* `SlotName.ofShell`: the name of a slot.
* `wrapSlot`: what takes the place of a slot.
-/

namespace Islands

open Markup

/-! ## Names -/

/-- The name of a slot: given as it is, or as an expression. -/
inductive SlotName
  | static (name : String)
  | dynamic (expression : String)
deriving DecidableEq, Repr

/-- Whether an attribute names a slot, in any spelling. -/
def isSlotName (name : String) : Bool := name == "name" || name == ":name" || name == "v-bind:name"

namespace SlotName

/-- The name of a slot: the first attribute that names it counts, and without one it is called
`default`. -/
def ofShell (s : Shell) : SlotName :=
  match s.attributes.find? (isSlotName ·.name) with
  | none => static "default"
  | some a => if a.name = "name" then static a.valueOrEmpty else dynamic (trim a.valueOrEmpty)

/-- The name or the expression that gives it. -/
def text : SlotName → String
  | static name => name
  | dynamic expression => expression

/-- The attribute that gives the name to the wrapper. -/
def attributeText : SlotName → String
  | static name => "name=" ++ quoteAttribute name
  | dynamic expression => ":name=" ++ quoteAttribute expression

end SlotName

/-! ## Wrappers -/

/-- The component that takes the place of a slot. -/
def slotComponent : String := "IslandSlot"

/-- The content of a slot as written, without the list keys inside it. -/
def fallbackText (template : List Char) (e : Element) (inner : Span) : String :=
  partWithout template inner
    ((e.descendants.flatMap fun d => d.attributes.filter (isItemKey ·.name)).map
      (Attribute.removal template))

/-- The section that holds a slot's content; it repeats as the slot does. -/
def fallbackSection (template : List Char) (e : Element) (repetition : Option Repetition) :
    String :=
  match e.inner? with
  | none => ""
  | some inner =>
    if e.children.isEmpty then ""
    else
      let body := fallbackText template e inner
      "<template #fallback>" ++
        (match repetition with
        | none => body
        | some r =>
          "<template v-for=" ++ quoteAttribute r.directive ++ ">" ++ body ++ "</template>") ++
        "</template>"

/-- The prop data of a slot: of its attributes other than its name and its conditions. -/
def slotData (s : Shell) : Except WrapError PropData :=
  PropData.ofAttributes (s.attributes.filter fun a => !isSlotName a.name && !isCondition a.name)

/-- What takes the place of a slot, and the slot's name. -/
def wrapSlot (template : List Char) (e : Element) : Except WrapError (String × SlotName) :=
  let name := SlotName.ofShell e.toShell
  if name = .dynamic "" then .error (.emptyBinding ":name")
  else
    match slotData e.toShell with
    | .error cause => .error cause
    | .ok data =>
      .ok ("<" ++ slotComponent ++ liftedConditions template e.toShell ++ " " ++
        name.attributeText ++ " :props=" ++ quoteAttribute data.expression ++ ">" ++
        fallbackSection template e data.repetition ++ "</" ++ slotComponent ++ ">", name)

theorem wrapSlot_eq_ok {template : List Char} {e : Element} {text : String} {name : SlotName}
    (h : wrapSlot template e = .ok (text, name)) :
    name = SlotName.ofShell e.toShell ∧ ∃ data, slotData e.toShell = .ok data ∧
      text = "<" ++ slotComponent ++ liftedConditions template e.toShell ++ " " ++
        name.attributeText ++ " :props=" ++ quoteAttribute data.expression ++ ">" ++
        fallbackSection template e data.repetition ++ "</" ++ slotComponent ++ ">" := by
  unfold wrapSlot at h
  simp only at h
  split at h
  · cases h
  · split at h
    · cases h
    · rename_i data hdata
      obtain ⟨rfl, rfl⟩ := Prod.mk.inj (Except.ok.inj h)
      exact ⟨rfl, data, hdata, rfl⟩

end Islands
