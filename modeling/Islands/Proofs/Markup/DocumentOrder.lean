import Islands.Proofs.Markup.ElementOrder

/-!
# Document order

An element inside another one has a path: the numbers of the children that lead to it. The elements
inside an element are listed once for each path that leads to one, and the paths ascend as words in
a dictionary do (`Element.ListsInside`): an element is in front of what is inside it, and that is in
front of what comes after the element.

* `Element.at?`: the element that a path leads to.
* `mem_placedFrom_iff`, `ascending_placedFrom`: the elements with their paths, by induction on the
  tree.
* `descendants_preorder`: the elements inside an element, of any tree and of a template.
-/

namespace Islands.Markup

/-! ## Paths -/

/-- The element that a path leads to: each number is that of a child. -/
def Element.at? : Element → List Nat → Option Element
  | e, [] => some e
  | e, i :: path => (e.children[i]?.bind Node.element?).bind (·.at? path)

/-- The elements inside `e`: each one that a path leads to, in the order of the paths. -/
def Element.ListsInside (e : Element) (ds : List Element) : Prop :=
  ∃ placed : List (List Nat × Element), placed.map Prod.snd = ds ∧
    (∀ path d, (path, d) ∈ placed ↔ path ≠ [] ∧ e.at? path = some d) ∧
    (placed.map Prod.fst).Pairwise (· < ·)

mutual

/-- The elements of the child number `i`, each with its path. -/
def Node.placed : Nat → Node → List (List Nat × Element)
  | _, .text _ => []
  | _, .comment _ => []
  | i, .element shell children =>
    ([i], ⟨shell, children⟩) :: (placedFrom 0 children).map (Prod.map (i :: ·) id)

/-- The elements of some children, the first of them number `i`, each with its path. -/
def placedFrom : Nat → List Node → List (List Nat × Element)
  | _, [] => []
  | i, n :: ns => n.placed i ++ placedFrom (i + 1) ns

end

mutual

theorem map_snd_placed (i : Nat) : ∀ n : Node, (n.placed i).map Prod.snd = n.elements
  | .text _ => rfl
  | .comment _ => rfl
  | .element shell children => by
    rw [Node.placed, List.map_cons, List.map_map, Node.elements_element,
      ← map_snd_placedFrom 0 children]
    rfl

theorem map_snd_placedFrom (i : Nat) :
    ∀ ns : List Node, (placedFrom i ns).map Prod.snd = elementsIn ns
  | [] => rfl
  | n :: ns => by
    rw [placedFrom, List.map_append, map_snd_placed, map_snd_placedFrom, elementsIn_cons]

end

/-- A path that leads to another element begins with the number of a child. -/
theorem exists_cons_iff_at? (e : Element) {d : Element} {path : List Nat} :
    (∃ j rest, path = (0 + j) :: rest ∧
      (e.children[j]?.bind Node.element?).bind (·.at? rest) = some d) ↔
      path ≠ [] ∧ e.at? path = some d := by
  constructor
  · rintro ⟨j, rest, rfl, hat⟩
    rw [Nat.zero_add]
    exact ⟨List.cons_ne_nil j rest, hat⟩
  · rintro ⟨hne, hat⟩
    obtain ⟨j, rest, rfl⟩ := List.exists_cons_of_ne_nil hne
    exact ⟨j, rest, by rw [Nat.zero_add], hat⟩

mutual

theorem mem_placed_iff (i : Nat) (path : List Nat) (d : Element) :
    ∀ n : Node, (path, d) ∈ n.placed i ↔
      ∃ rest, path = i :: rest ∧ n.element?.bind (·.at? rest) = some d
  | .text _ => by simp [Node.placed, Node.element?]
  | .comment _ => by simp [Node.placed, Node.element?]
  | .element shell children => by
    have hinside : ∀ rest, (rest, d) ∈ placedFrom 0 children ↔
        rest ≠ [] ∧ (Element.mk shell children).at? rest = some d := fun rest =>
      (mem_placedFrom_iff 0 rest d children).trans (exists_cons_iff_at? ⟨shell, children⟩)
    simp only [Node.placed, List.mem_cons, Prod.mk.injEq, List.mem_map, Prod.map, Prod.exists,
      Node.element?, Option.bind_some, id_eq]
    constructor
    · rintro (⟨rfl, rfl⟩ | ⟨rest, d', hmem, rfl, rfl⟩)
      · exact ⟨[], rfl, rfl⟩
      · exact ⟨rest, rfl, ((hinside rest).1 hmem).2⟩
    · rintro ⟨rest, rfl, hat⟩
      by_cases hrest : rest = []
      · subst hrest
        exact .inl ⟨rfl, (Option.some.inj hat).symm⟩
      · exact .inr ⟨rest, d, (hinside rest).2 ⟨hrest, hat⟩, rfl, rfl⟩

/-- **The elements with their paths** are those that a path leads to. -/
theorem mem_placedFrom_iff (i : Nat) (path : List Nat) (d : Element) :
    ∀ ns : List Node, (path, d) ∈ placedFrom i ns ↔
      ∃ j rest, path = (i + j) :: rest ∧
        (ns[j]?.bind Node.element?).bind (·.at? rest) = some d
  | [] => by simp [placedFrom]
  | n :: ns => by
    rw [placedFrom, List.mem_append, mem_placed_iff i path d n,
      mem_placedFrom_iff (i + 1) path d ns]
    constructor
    · rintro (⟨rest, rfl, hat⟩ | ⟨j, rest, rfl, hat⟩)
      · exact ⟨0, rest, rfl, hat⟩
      · exact ⟨j + 1, rest, by rw [Nat.add_assoc, Nat.add_comm 1 j], hat⟩
    · rintro ⟨j, rest, rfl, hat⟩
      cases j with
      | zero => exact .inl ⟨rest, rfl, hat⟩
      | succ j => exact .inr ⟨j, rest, by rw [Nat.add_assoc, Nat.add_comm 1 j], hat⟩

end

theorem pairwise_cons_paths (i : Nat) {qs : List (List Nat × Element)}
    (h : (qs.map Prod.fst).Pairwise (· < ·)) :
    ((qs.map (Prod.map (i :: ·) id)).map Prod.fst).Pairwise (· < ·) := by
  rw [List.map_map, List.pairwise_map] at *
  exact h.imp fun hlt => List.cons_lt_cons_iff.2 (.inr ⟨rfl, hlt⟩)

mutual

theorem ascending_placed (i : Nat) :
    ∀ n : Node, ((n.placed i).map Prod.fst).Pairwise (· < ·)
  | .text _ => .nil
  | .comment _ => .nil
  | .element shell children => by
    rw [Node.placed, List.map_cons, List.pairwise_cons]
    refine ⟨fun path hpath => ?_, pairwise_cons_paths i (ascending_placedFrom 0 children)⟩
    obtain ⟨⟨path', d⟩, hmem, rfl⟩ := List.mem_map.1 hpath
    obtain ⟨⟨rest, d'⟩, hmem', e⟩ := List.mem_map.1 hmem
    obtain ⟨rfl, -⟩ := Prod.mk.inj e
    obtain ⟨j, rest', rfl, -⟩ := (mem_placedFrom_iff 0 rest d' children).1 hmem'
    exact List.cons_lt_cons_iff.2 (.inr ⟨rfl, List.nil_lt_cons _ _⟩)

/-- **The paths ascend**: those of one child, and from one child to the next. -/
theorem ascending_placedFrom (i : Nat) :
    ∀ ns : List Node, ((placedFrom i ns).map Prod.fst).Pairwise (· < ·)
  | [] => .nil
  | n :: ns => by
    rw [placedFrom, List.map_append, List.pairwise_append]
    refine ⟨ascending_placed i n, ascending_placedFrom (i + 1) ns, ?_⟩
    intro path hpath path' hpath'
    obtain ⟨⟨_, d⟩, hmem, rfl⟩ := List.mem_map.1 hpath
    obtain ⟨⟨_, d'⟩, hmem', rfl⟩ := List.mem_map.1 hpath'
    obtain ⟨rest, rfl, -⟩ := (mem_placed_iff i _ d n).1 hmem
    obtain ⟨j, rest', rfl, -⟩ := (mem_placedFrom_iff (i + 1) _ d' ns).1 hmem'
    apply List.cons_lt_cons_iff.2
    left
    omega

end

/-- **The recursive listing** has each element inside another one once, in the order of paths. -/
theorem listsInside_elementsIn (e : Element) : e.ListsInside (elementsIn e.children) := by
  refine ⟨placedFrom 0 e.children, map_snd_placedFrom 0 _, fun path d => ?_,
    ascending_placedFrom 0 _⟩
  rw [mem_placedFrom_iff, exists_cons_iff_at?]

/-! ## The elements inside an element -/

/-- **The elements inside an element**, which are taken from a list of pending ones, are those of
the recursion that lists each element before what is inside it: every element that a path leads to,
once for its path and in the order of the paths. In a template this is the order in which they
start. -/
theorem descendants_preorder :
    (∀ e : Element, e.descendants = elementsIn e.children ∧ e.ListsInside e.descendants) ∧
    ∀ (cs : List Char) (nodes : List Node), parse cs = .ok nodes → ∀ a ∈ allElements nodes,
      a.descendants.Pairwise fun d d' => d.span.start < d'.span.start := by
  refine ⟨fun e => ⟨descendants_eq e, ?_⟩, fun cs nodes h a ha => ?_⟩
  · rw [descendants_eq]
    exact listsInside_elementsIn e
  · exact (List.pairwise_cons.1 ((tiling_of_parse h).ascending_inside ha).2).2

/-- A template with an element inside another one that is not the last child. -/
theorem descendants_preorder_nested :
    ∃ e : Element, parse "<a>x<b><c/></b><d/></a>".toList = .ok [.element e.toShell e.children] ∧
      e.descendants.map (·.name) = ["b", "c", "d"] ∧ (e.at? [1, 0]).map (·.name) = some "c" ∧
      e.descendants.Pairwise fun d d' => d.span.start < d'.span.start := by
  let e : Element := ⟨⟨"a", [], ⟨0, 3⟩, some ⟨19, 23⟩⟩, [.text ⟨3, 4⟩,
    .element ⟨"b", [], ⟨4, 7⟩, some ⟨11, 15⟩⟩ [.element ⟨"c", [], ⟨7, 11⟩, none⟩ []],
    .element ⟨"d", [], ⟨15, 19⟩, none⟩ []]⟩
  have hparse : parse "<a>x<b><c/></b><d/></a>".toList = .ok [.element e.toShell e.children] := by
    decide +kernel
  refine ⟨e, hparse, ?_, rfl, descendants_preorder.2 _ _ hparse e ?_⟩
  · rw [(descendants_preorder.1 e).1]
    rfl
  · rw [allElements_eq]
    exact List.mem_cons_self ..

end Islands.Markup
