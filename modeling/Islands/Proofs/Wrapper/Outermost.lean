import Islands.Targets
import Islands.Proofs.Markup.Preorder

/-!
# The outermost of the elements that are replaced

Each element of a tree is inside some others, which are listed with it (`Nested`, `nestedIn`). What
is found in a template can be read off that list: the targets are the elements that are replaced
and are inside no other such element, and the first refused one is found in the same way
(`findTargets_eq`).

* `map_element_nestedIn`: all elements are listed, in document order.
* `mem_around`: what is listed with an element are the elements that it is inside of.
-/

namespace Islands

open Markup

/-! ## Elements and what they are inside of -/

namespace Markup

/-- An element of a tree, and the tags of the elements that it is inside of, the innermost first. -/
structure Nested where
  around : List Shell
  element : Element
deriving DecidableEq, Repr

mutual

/-- The elements of a node that is inside the elements `outer`. -/
def Node.nested (outer : List Shell) : Node → List Nested
  | .text _ => []
  | .comment _ => []
  | .element shell children => ⟨outer, ⟨shell, children⟩⟩ :: nestedIn (shell :: outer) children

/-- The elements of nodes that are inside the elements `outer`, each before those inside it. -/
def nestedIn (outer : List Shell) : List Node → List Nested
  | [] => []
  | n :: ns => n.nested outer ++ nestedIn outer ns

end

mutual

theorem map_element_nested (outer : List Shell) :
    ∀ n : Node, (n.nested outer).map (·.element) = n.elements
  | .text _ => rfl
  | .comment _ => rfl
  | .element shell children => by
    rw [Node.nested, List.map_cons, map_element_nestedIn (shell :: outer) children,
      Node.elements_element]

/-- **All elements are listed**, in document order. -/
theorem map_element_nestedIn (outer : List Shell) :
    ∀ ns : List Node, (nestedIn outer ns).map (·.element) = elementsIn ns
  | [] => rfl
  | n :: ns => by
    rw [nestedIn, List.map_append, map_element_nested outer n, map_element_nestedIn outer ns,
      elementsIn_cons]

end

mutual

theorem mem_around_nested (outer : List Shell) :
    ∀ n : Node, ∀ d ∈ n.nested outer, outer ⊆ d.around ∧
      ∀ s ∈ d.around, s ∈ outer ∨ ∃ e ∈ n.elements, e.toShell = s ∧ d.element ∈ e.descendants
  | .text _, _, hd => nomatch hd
  | .comment _, _, hd => nomatch hd
  | .element shell children, d, hd => by
    rcases List.mem_cons.1 hd with rfl | hd
    · exact ⟨List.Subset.refl _, fun s hs => .inl hs⟩
    · obtain ⟨houter, hinner⟩ := mem_around (shell :: outer) children d hd
      refine ⟨fun s hs => houter (List.mem_cons_of_mem _ hs), fun s hs => ?_⟩
      rcases hinner s hs with hs | ⟨e, he, hshell, hd⟩
      · rcases List.mem_cons.1 hs with rfl | hs
        · have hmem := List.mem_map_of_mem (f := (·.element)) hd
          rw [map_element_nestedIn] at hmem
          exact .inr ⟨_, List.mem_cons_self .., rfl, by rw [descendants_eq]; exact hmem⟩
        · exact .inl hs
      · exact .inr ⟨e, List.mem_cons_of_mem _ he, hshell, hd⟩

/-- **What is listed with an element** are the elements `outer` and those among the nodes that the
element is inside of. -/
theorem mem_around (outer : List Shell) :
    ∀ ns : List Node, ∀ d ∈ nestedIn outer ns, outer ⊆ d.around ∧
      ∀ s ∈ d.around, s ∈ outer ∨ ∃ e ∈ elementsIn ns, e.toShell = s ∧ d.element ∈ e.descendants
  | [], _, hd => nomatch hd
  | n :: ns, d, hd => by
    rcases List.mem_append.1 hd with hd | hd
    · obtain ⟨houter, hinner⟩ := mem_around_nested outer n d hd
      exact ⟨houter, fun s hs => (hinner s hs).imp_right fun ⟨e, he, h⟩ =>
        ⟨e, List.mem_append_left _ he, h⟩⟩
    · obtain ⟨houter, hinner⟩ := mem_around outer ns d hd
      exact ⟨houter, fun s hs => (hinner s hs).imp_right fun ⟨e, he, h⟩ =>
        ⟨e, List.mem_append_right _ he, h⟩⟩

end

end Markup

/-! ## Kinds -/

theorem kindOf_eq_slot_iff {s : Shell} : kindOf s = .slot ↔ s.name = "slot" := by
  unfold kindOf
  split
  · simp_all
  · split <;> simp_all

theorem kindOf_eq_clientBoundary_iff {s : Shell} :
    kindOf s = .clientBoundary ↔ s.name ≠ "slot" ∧ ∃ a ∈ s.attributes, isMarker a.name = true := by
  unfold kindOf marker?
  split
  · simp_all
  · split <;> simp_all [List.find?_isSome]

/-! ## Targets -/

/-- Whether none of the elements that an element is inside of is replaced. -/
def Policy.reaches (p : Policy) (d : Nested) : Bool := d.around.all fun s => !p.replaces (kindOf s)

/-- The findings that a list of elements gives: those that are reached and replaced, and the first
that is reached and refused. -/
def Policy.findings (p : Policy) (ds : List Nested) : Findings where
  targets := (ds.filter fun d => p.reaches d && p.replaces (kindOf d.element.toShell)).map
    (·.element)
  refused := (ds.find? fun d => p.reaches d && p.refuses (kindOf d.element.toShell)).map
    (·.element.openTag)

section
variable {p : Policy}

theorem findings_append (as bs : List Nested) :
    p.findings (as ++ bs) = (p.findings as).append (p.findings bs) := by
  unfold Policy.findings Findings.append
  rw [List.filter_append, List.map_append, List.find?_append, Option.map_or]

theorem findings_cons (d : Nested) (ds : List Nested) :
    p.findings (d :: ds) = (p.findings [d]).append (p.findings ds) := findings_append [d] ds

theorem findings_of_unreached {ds : List Nested} (h : ∀ d ∈ ds, p.reaches d = false) :
    p.findings ds = .empty := by
  have hfilter : (ds.filter fun d => p.reaches d && p.replaces (kindOf d.element.toShell)) = [] :=
    List.filter_eq_nil_iff.2 fun d hd => by simp [h d hd]
  have hfind : (ds.find? fun d => p.reaches d && p.refuses (kindOf d.element.toShell)) = none :=
    List.find?_eq_none.2 fun d hd => by simp [h d hd]
  rw [Policy.findings, hfilter, hfind]
  rfl

/-- Inside an element that is replaced nothing is reached. -/
theorem unreached_of_replaces (outer : List Shell) {shell : Shell} (h : p.replaces (kindOf shell) = true)
    (children : List Node) : ∀ d ∈ nestedIn (shell :: outer) children, p.reaches d = false := by
  intro d hd
  have hmem := (mem_around (shell :: outer) children d hd).1 (List.mem_cons_self ..)
  exact List.all_eq_false.2 ⟨shell, hmem, by simp [h]⟩

theorem refuses_of_replaces {k : ElementKind} (h : p.replaces k = true) : p.refuses k = false := by
  cases p <;> cases k <;> first | rfl | cases h

mutual

theorem findTargetsIn_eq :
    ∀ (n : Node) {outer : List Shell}, (outer.all fun s => !p.replaces (kindOf s)) = true →
      findTargetsIn p n = p.findings (n.nested outer)
  | .text _, _, _ => rfl
  | .comment _, _, _ => rfl
  | .element shell children, outer, houter => by
    have hreach : p.reaches ⟨outer, ⟨shell, children⟩⟩ = true := houter
    rw [findTargetsIn, Node.nested]
    cases hrep : p.replaces (kindOf shell) with
    | true =>
      have hinside := findings_of_unreached (unreached_of_replaces outer hrep children)
      rw [if_pos rfl, findings_cons, hinside]
      simp [Policy.findings, Findings.append, Findings.empty, hreach, hrep,
        refuses_of_replaces hrep]
    | false =>
      have hinner : ((shell :: outer).all fun s => !p.replaces (kindOf s)) = true := by
        rw [List.all_cons, hrep, houter]
        rfl
      rw [if_neg Bool.false_ne_true, findings_cons, findTargets_eq_findings children hinner]
      cases hrefuse : p.refuses (kindOf shell) <;>
        simp [Policy.findings, Findings.append, hreach, hrep, hrefuse]

theorem findTargets_eq_findings :
    ∀ (ns : List Node) {outer : List Shell}, (outer.all fun s => !p.replaces (kindOf s)) = true →
      findTargets p ns = p.findings (nestedIn outer ns)
  | [], _, _ => rfl
  | n :: ns, _, houter => by
    rw [findTargets, nestedIn, findings_append, findTargetsIn_eq n houter,
      findTargets_eq_findings ns houter]

end

end

/-- **What is found in a template**: of the elements that are inside none that is replaced, those
that are replaced themselves, in document order, and the first one that is refused. -/
theorem findTargets_eq (p : Policy) (nodes : List Node) :
    findTargets p nodes = p.findings (nestedIn [] nodes) :=
  findTargets_eq_findings nodes rfl

end Islands
