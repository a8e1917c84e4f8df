import Islands.Markup.Tree

/-!
# The elements of a tree in document order

The elements of a tree are listed by taking pending elements one after the other (`visit`). Here
they are listed by recursion on the tree, each before what is inside it, and the two lists are the
same: `descendants_eq`, `allElements_eq`. So a property of all elements is proved by induction on
the tree.
-/

namespace Islands.Markup

mutual

/-- The elements of a node, each before those inside it. -/
def Node.elements : Node → List Element
  | .text _ => []
  | .comment _ => []
  | .element shell children => ⟨shell, children⟩ :: elementsIn children

/-- The elements of a list of nodes, each before those inside it. -/
def elementsIn : List Node → List Element
  | [] => []
  | n :: ns => n.elements ++ elementsIn ns

end

@[simp] theorem elementsIn_nil : elementsIn [] = [] := rfl

@[simp] theorem elementsIn_cons (n : Node) (ns : List Node) :
    elementsIn (n :: ns) = n.elements ++ elementsIn ns := rfl

@[simp] theorem Node.elements_element (shell : Shell) (children : List Node) :
    (Node.element shell children).elements = ⟨shell, children⟩ :: elementsIn children := rfl

@[simp] theorem elementsOf_nil : elementsOf [] = [] := rfl

theorem elementsOf_element (shell : Shell) (children ns : List Node) :
    elementsOf (.element shell children :: ns) = ⟨shell, children⟩ :: elementsOf ns := rfl

mutual

/-- Taking the elements of a node first and then the pending ones lists the elements of the node,
and after them what the pending ones give. -/
theorem visit_elements (pending : List Element) :
    ∀ n : Node, visit (elementsOf [n] ++ pending) = n.elements ++ visit pending
  | .text _ => rfl
  | .comment _ => rfl
  | .element shell children => by
    rw [elementsOf_element, List.cons_append, visit, Node.elements_element, List.cons_append]
    exact congrArg _ (visit_elementsIn pending children)

theorem visit_elementsIn (pending : List Element) :
    ∀ ns : List Node, visit (elementsOf ns ++ pending) = elementsIn ns ++ visit pending
  | [] => rfl
  | n :: ns => by
    have hsplit : elementsOf (n :: ns) = elementsOf [n] ++ elementsOf ns := by
      cases n <;> rfl
    rw [hsplit, List.append_assoc, visit_elements, visit_elementsIn pending ns, elementsIn_cons,
      List.append_assoc]

end

theorem descendants_eq (e : Element) : e.descendants = elementsIn e.children := by
  have h := visit_elementsIn [] e.children
  rwa [List.append_nil, visit, List.append_nil] at h

/-- **The elements of a tree**, each before those inside it. -/
theorem allElements_eq (nodes : List Node) : allElements nodes = elementsIn nodes := by
  induction nodes with
  | nil => rfl
  | cons n ns ih =>
    cases n with
    | text => exact ih
    | comment => exact ih
    | element shell children =>
      unfold allElements at ih ⊢
      rw [elementsOf_element, List.flatMap_cons, ih, descendants_eq]
      rfl

end Islands.Markup
