import Islands.Markup.Tree
import Islands.Wrapper.Error
import Islands.Wrapper.Literal
import Islands.Wrapper.Repetition

/-!
# Prop data

The attributes of a slot become an expression whose value, when the component is rendered, is an
array of objects: one object, or one for each round of a repetition.

* `Role.ofName`: what an attribute contributes, by its name.
* `PropData.ofAttributes`: the contributions of a list of attributes.
* `PropData.expression`: the expression.
-/

namespace Islands

open Markup

/-! ## Keys -/

/-- The key of a prop: a name, or an expression that gives the name when rendered. -/
inductive EntryKey
  | named (name : String)
  | computed (expression : String)
deriving DecidableEq, Repr

/-- The value of a prop: an expression, or the text itself. -/
inductive EntryValue
  | expression (text : String)
  | literal (text : String)
deriving DecidableEq, Repr

/-- A prop. -/
structure PropEntry where
  key : EntryKey
  value : EntryValue
deriving DecidableEq, Repr

/-- Whether an attribute is the key of a list element, in any spelling. -/
def isItemKey (name : String) : Bool := name == "key" || name == ":key" || name == "v-bind:key"

/-- The argument of a binding: what follows `:` or `v-bind:` in an attribute's name. -/
def bindingArgument? (name : String) : Option (List Char) :=
  (dropWord? [':'] name.toList).or (dropWord? "v-bind:".toList name.toList)

/-- The key that the argument of a binding stands for: an expression in brackets, or a name up to
its modifiers. Neither may be empty. -/
def argumentKey? (argument : List Char) : Option EntryKey :=
  match argument with
  | '[' :: cs =>
    match splitOnFirst [']'] cs with
    | none => none
    | some (inside, _) =>
      let expression := trimBy isWhite inside
      if expression.isEmpty then none else some (.computed (String.ofList expression))
  | cs =>
    let name := cs.takeWhile (· != '.')
    if name.isEmpty then none else some (.named (String.ofList name))

/-- The key of a bound attribute. -/
def propKey? (name : String) : Option EntryKey := (bindingArgument? name).bind argumentKey?

/-- Whether an attribute is a directive: an instruction, a listener or a slot. -/
def isInstruction (name : String) : Bool :=
  match name.toList with
  | 'v' :: '-' :: _ | '@' :: _ | '#' :: _ => true
  | _ => false

/-! ## Roles -/

/-- What an attribute contributes to the prop data. -/
inductive Role
  | nothing
  | repetition
  | spread
  | bound (key : EntryKey)
  | static
deriving DecidableEq, Repr

/-- What an attribute of this name contributes. -/
def Role.ofName (name : String) : Role :=
  if isItemKey name then .nothing
  else if name = "v-for" then .repetition
  else if name = "v-bind" then .spread
  else
    match propKey? name with
    | some key => .bound key
    | none => if isInstruction name then .nothing else .static

/-- The expression of a bound attribute. -/
def expressionOf (a : Attribute) : Except WrapError String :=
  let expression := trim a.valueOrEmpty
  if expression.isEmpty then .error (.emptyBinding a.name) else .ok expression

/-! ## The data -/

/-- The props of an element, an expression whose members are added to them, and a repetition. -/
structure PropData where
  props : List PropEntry := []
  spread : Option String := none
  repetition : Option Repetition := none
deriving DecidableEq, Repr

namespace PropData

/-- Adds what an attribute contributes; a later spread or repetition replaces an earlier one. -/
def add (d : PropData) (a : Attribute) : Except WrapError PropData :=
  match Role.ofName a.name with
  | .nothing => .ok d
  | .repetition =>
    match Repetition.ofDirective? a.valueOrEmpty with
    | some r => .ok { d with repetition := some r }
    | none => .error (.invalidRepetition a.valueOrEmpty)
  | .spread => (expressionOf a).map fun e => { d with spread := some e }
  | .bound key =>
    (expressionOf a).map fun e => { d with props := d.props ++ [⟨key, .expression e⟩] }
  | .static =>
    .ok { d with props := d.props ++ [⟨.named a.name, .literal a.valueOrEmpty⟩] }

/-- What a list of attributes contributes. -/
def ofAttributes (as : List Attribute) : Except WrapError PropData := as.foldlM add {}

end PropData

/-! ## The expression -/

/-- The function that adds the members of a spread to an object. -/
def mergeFunction : String := "__mergeProps"

/-- The function that gives the rounds of a repetition as an array. -/
def roundsFunction : String := "__iterToArray"

/-- A key in an object. -/
def EntryKey.text : EntryKey → String
  | named name => objectKey name
  | computed expression => "[" ++ expression ++ "]"

/-- A value in an object. -/
def EntryValue.text : EntryValue → String
  | expression text => text
  | literal text => stringLiteral text

/-- A member of an object. -/
def PropEntry.text (p : PropEntry) : String := p.key.text ++ ": " ++ p.value.text

namespace PropData

/-- The props as an object. -/
def objectText (d : PropData) : String :=
  if d.props.isEmpty then "\x7b\x7d"
  else "\x7b " ++ ", ".intercalate (d.props.map PropEntry.text) ++ " \x7d"

/-- The object of one round. -/
def roundText (d : PropData) : String :=
  match d.spread with
  | some e => mergeFunction ++ "(" ++ e ++ ", " ++ d.objectText ++ ")"
  | none => d.objectText

/-- The expression for the array of objects. -/
def expression (d : PropData) : String :=
  if d.props.isEmpty && d.spread.isNone && d.repetition.isNone then "undefined"
  else
    match d.repetition with
    | none => "[" ++ d.roundText ++ "]"
    | some r =>
      roundsFunction ++ "(" ++ r.iterable ++ ").map(" ++ r.parameters ++ " => (" ++ d.roundText ++
        "))"

end PropData

end Islands
