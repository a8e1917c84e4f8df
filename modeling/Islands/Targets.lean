import Islands.Options
import Islands.Text.Search
import Islands.Text.Blank
import Islands.Markup.Tree

/-!
# What is to be wrapped

Slots and, if boundaries are wanted, elements with the client marker are replaced as a whole by
wrappers; what is inside one is carried over with it. So the outermost of them are the targets.

* `kindOf`: the part an element plays.
* `Policy`: what becomes of marked elements.
* `findTargets`: the targets of a template, in document order, and the first marked element that
  has to stay because boundaries cannot be addressed.
* `mayContainTargets`: a look at the text that is enough to leave most files alone.
-/

namespace Islands

open Markup

/-! ## Elements -/

/-- The attribute that marks an element for the client. -/
def markerName : String := "island-client"

/-- The client marker in its plain and its bound spellings. -/
def isMarker (name : String) : Bool :=
  name == markerName || name == ":island-client" || name == "v-bind:island-client"

/-- The part an element plays. -/
inductive ElementKind
  | slot
  | clientBoundary
  | plain
deriving DecidableEq, Repr

/-- The first client marker of an element. -/
def marker? (s : Shell) : Option Attribute := s.attributes.find? (isMarker ·.name)

/-- The part an element plays: a slot is one by its name, whatever marks it has. -/
def kindOf (s : Shell) : ElementKind :=
  if s.name = "slot" then .slot else if (marker? s).isSome then .clientBoundary else .plain

/-! ## Policies -/

/-- What becomes of marked elements. -/
inductive Policy
  /-- They become boundaries. -/
  | wrap
  /-- They stay, with a warning, since boundaries cannot be addressed. -/
  | unsupported
  /-- They stay; the marker means nothing. -/
  | disabled
deriving DecidableEq, Repr

/-- The policy that the options ask for. -/
def Options.policy (o : Options) : Policy :=
  if !o.clientBoundaries then .disabled
  else if o.bundler.canAddressBoundaries then .wrap
  else .unsupported

/-- Whether an element of this kind is replaced. -/
def Policy.replaces (p : Policy) : ElementKind → Bool
  | .slot => true
  | .clientBoundary => p = .wrap
  | .plain => false

/-- Whether an element of this kind stays although it was to become a boundary. -/
def Policy.refuses (p : Policy) (k : ElementKind) : Bool :=
  p = .unsupported && k = .clientBoundary

/-! ## Targets -/

/-- The elements to replace, in document order, and the opening tag of the first one refused. -/
structure Findings where
  targets : List Element
  refused : Option Span
deriving DecidableEq, Repr

namespace Findings

/-- Nothing to do. -/
def empty : Findings := ⟨[], none⟩

/-- One part of a template after another. -/
def append (a b : Findings) : Findings := ⟨a.targets ++ b.targets, a.refused.or b.refused⟩

end Findings

mutual

/-- What is found in a node: an element that is replaced hides what is inside it. -/
def findTargetsIn (p : Policy) : Node → Findings
  | .text _ => .empty
  | .comment _ => .empty
  | .element shell children =>
    if p.replaces (kindOf shell) then ⟨[⟨shell, children⟩], none⟩
    else
      Findings.append ⟨[], if p.refuses (kindOf shell) then some shell.openTag else none⟩
        (findTargets p children)

/-- What is found in a list of nodes. -/
def findTargets (p : Policy) : List Node → Findings
  | [] => .empty
  | n :: ns => (findTargetsIn p n).append (findTargets p ns)

end

/-! ## A look at the text -/

/-- Whether a text holds `word`, followed by a character of class `p` or the end. -/
def holdsWord (p : Char → Bool) (word : List Char) : List Char → Bool
  | [] => word.isEmpty
  | c :: cs =>
    (match dropWord? word (c :: cs) with
      | some (d :: _) => p d
      | some [] => true
      | none => false) || holdsWord p word cs

/-- Whether a template can hold a target: it names the client marker or the tag of a slot. -/
def mayContainTargets (template : List Char) : Bool :=
  holdsWord (fun _ => true) markerName.toList template ||
    holdsWord (fun c => isBlank c || c == '>' || c == '/') "<slot".toList template

end Islands
