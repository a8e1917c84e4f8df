import Islands.Wrapper.Error
import Islands.Wrapper.Literal
import Islands.Wrapper.Address
import Islands.Wrapper.Strip
import Islands.Targets

/-!
# Client boundaries

An element with the client marker is wrapped into a boundary, so that it can be brought to life on
its own. The boundary carries the address of the element and the value of the marker.

* `markerExpression`: the value of the marker.
* `wrapBoundary`: what takes the place of a marked element.
-/

namespace Islands

open Markup

/-- The component that takes the place of a marked element. -/
def boundaryComponent : String := "IslandBoundary"

/-- Whether an attribute is bound to an expression, by the look of its name. -/
def isBound (name : String) : Bool :=
  (dropWord? [':'] name.toList).isSome || (dropWord? "v-bind:".toList name.toList).isSome

/-- The expression that an element's marker gives: its value, or `true` for a plain marker without
one. -/
def markerExpression (s : Shell) : Except WrapError String :=
  match marker? s with
  | none => .ok "true"
  | some marker =>
    let value := trim marker.valueOrEmpty
    if !value.isEmpty then .ok value
    else if isBound marker.name then .error (.emptyBinding marker.name)
    else .ok "true"

/-- The address of an element of the file `id` whose template starts at `base`. -/
def boundaryTarget (id : String) (base : Nat) (s : Shell) : String :=
  s.name ++ "-" ++ address id (s.openTag.shift base)

/-- The ranges that a marked element loses: all markers on it and inside it, and its own
conditions. -/
def boundaryRemovals (template : List Char) (e : Element) : List Span :=
  (((e :: e.descendants).flatMap fun d =>
    d.attributes.filter (isMarker ·.name)) ++
      e.attributes.filter (isCondition ·.name)).map (Attribute.removal template)

/-- The attribute that tells the root directory to a boundary. -/
def rootAttribute : Option String → String
  | none => ""
  | some root => " root-dir=" ++ quoteAttribute root

/-- What takes the place of a marked element, and the element's address. -/
def wrapBoundary (template : List Char) (id : String) (base : Nat) (root : Option String)
    (e : Element) : Except WrapError (String × String) :=
  match markerExpression e.toShell with
  | .error cause => .error cause
  | .ok marker =>
    let target := boundaryTarget id base e.toShell
    .ok ("<" ++ boundaryComponent ++ liftedConditions template e.toShell ++ " to=" ++
      quoteAttribute target ++ rootAttribute root ++ " :island-client=" ++ quoteAttribute marker ++
      ">" ++ partWithout template e.span (boundaryRemovals template e) ++ "</" ++
      boundaryComponent ++ ">", target)

end Islands
