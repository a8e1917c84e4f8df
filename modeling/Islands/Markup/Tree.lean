import Islands.Text.Span

/-!
# The tree of a template

Nodes know their place in the template as a span of byte offsets. The span of an element follows
from its tags, so an element without a closing tag is its opening tag and nothing more.

* `Attribute`, `Shell`, `Node`, `Element`: the tree; a shell is an element without its children.
* `Element.descendants`: the elements inside an element, in document order.
-/

namespace Islands.Markup

/-! ## Attributes -/

/-- An attribute; `value` is decoded, and missing where none is assigned. -/
structure Attribute where
  name : String
  value : Option String
  span : Span
deriving DecidableEq, Repr

/-- The value, or the empty text where none is assigned. -/
def Attribute.valueOrEmpty (a : Attribute) : String := a.value.getD ""

/-! ## Elements -/

/-- An element without its children. -/
structure Shell where
  name : String
  attributes : List Attribute
  openTag : Span
  closeTag : Option Span
deriving DecidableEq, Repr

namespace Shell

/-- The whole element, from its opening tag through its closing tag. -/
def span (s : Shell) : Span := ⟨s.openTag.start, (s.closeTag.getD s.openTag).stop⟩

/-- What stands between the two tags. -/
def inner? (s : Shell) : Option Span := s.closeTag.map fun c => ⟨s.openTag.stop, c.start⟩

/-- The first attribute of the given name; later ones do not count. -/
def attribute? (s : Shell) (name : String) : Option Attribute :=
  s.attributes.find? (·.name == name)

end Shell

/-- A node: text with its interpolations, a comment or declaration, or an element. -/
inductive Node
  | text (span : Span)
  | comment (span : Span)
  | element (shell : Shell) (children : List Node)
deriving Repr

mutual

/-- Whether two nodes are the same. -/
def Node.decEq : (a b : Node) → Decidable (a = b)
  | .text s, .text t => decidable_of_iff (s = t) (by simp)
  | .comment s, .comment t => decidable_of_iff (s = t) (by simp)
  | .element s as, .element t bs =>
    match (inferInstance : Decidable (s = t)), decEqNodes as bs with
    | isTrue h, isTrue h' => isTrue (by rw [h, h'])
    | isFalse h, _ => isFalse fun e => h (Node.element.inj e).1
    | _, isFalse h => isFalse fun e => h (Node.element.inj e).2
  | .text _, .comment _ | .text _, .element _ _ | .comment _, .text _ | .comment _, .element _ _
  | .element _ _, .text _ | .element _ _, .comment _ => isFalse (by simp)

/-- Whether two lists of nodes are the same. -/
def decEqNodes : (as bs : List Node) → Decidable (as = bs)
  | [], [] => isTrue rfl
  | a :: as, b :: bs =>
    match a.decEq b, decEqNodes as bs with
    | isTrue h, isTrue h' => isTrue (by rw [h, h'])
    | isFalse h, _ => isFalse fun e => h (List.cons.inj e).1
    | _, isFalse h => isFalse fun e => h (List.cons.inj e).2
  | [], _ :: _ | _ :: _, [] => isFalse (by simp)

end

instance : DecidableEq Node := Node.decEq

/-- An element with its children. -/
structure Element extends Shell where
  children : List Node
deriving DecidableEq, Repr

namespace Node

/-- The place of a node. -/
def span : Node → Span
  | text span => span
  | comment span => span
  | element shell _ => shell.span

/-- The node as an element, if it is one. -/
def element? : Node → Option Element
  | element shell children => some ⟨shell, children⟩
  | _ => none

end Node

/-- The elements among some nodes. -/
def elementsOf (nodes : List Node) : List Element := nodes.filterMap Node.element?

/-! ## Descendants -/

mutual

/-- The number of elements in a node. -/
def Node.elementCount : Node → Nat
  | .text _ => 0
  | .comment _ => 0
  | .element _ children => 1 + elementCount children

/-- The number of elements in a list of nodes. -/
def elementCount : List Node → Nat
  | [] => 0
  | n :: ns => n.elementCount + elementCount ns

end

/-- The number of elements in a list of elements, themselves included. -/
def pendingCount : List Element → Nat
  | [] => 0
  | e :: es => 1 + elementCount e.children + pendingCount es

theorem pendingCount_append (a b : List Element) :
    pendingCount (a ++ b) = pendingCount a + pendingCount b := by
  induction a with
  | nil => simp [pendingCount]
  | cons e a ih => simp [pendingCount, ih, Nat.add_assoc]

theorem pendingCount_elementsOf (nodes : List Node) :
    pendingCount (elementsOf nodes) = elementCount nodes := by
  induction nodes with
  | nil => rfl
  | cons n ns ih =>
    cases n <;>
      simp_all [elementsOf, List.filterMap_cons, Node.element?, elementCount, Node.elementCount,
        pendingCount]

/-- The elements of a list of pending ones and all that are inside them: each is followed by the
elements inside it before the next pending one is taken. -/
def visit (pending : List Element) : List Element :=
  match pending with
  | [] => []
  | e :: pending => e :: visit (elementsOf e.children ++ pending)
termination_by pendingCount pending
decreasing_by
  rw [pendingCount_append, pendingCount_elementsOf]
  simp only [pendingCount]
  omega

/-- The elements inside an element at any depth, in document order. -/
def Element.descendants (e : Element) : List Element := visit (elementsOf e.children)

/-- All elements of a list of nodes, in document order. -/
def allElements (nodes : List Node) : List Element :=
  (elementsOf nodes).flatMap fun e => e :: e.descendants

end Islands.Markup
