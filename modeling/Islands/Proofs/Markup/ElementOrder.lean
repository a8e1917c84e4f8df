import Islands.Draft.Basic
import Islands.Proofs.Markup.Tiling

/-!
# Elements in the order of their places

The elements of a template are listed in the order in which they start, so that none is listed
twice (`Tiling.ascending`, `Tiling.nodup_allElements`). What is inside an element starts behind its
start and is within its place (`Tiling.of_mem_descendants`). All of this follows from the tiling of
the template, by induction on the tree.
-/

namespace Islands

namespace Markup

/-! ## Ascending elements -/

/-- Elements from `lo` to `hi`: none is empty, and each starts behind the start of the one before
it. -/
def ElementsAscend (lo hi : Nat) (es : List Element) : Prop :=
  (∀ e ∈ es, lo ≤ e.span.start ∧ e.span.start < e.span.stop ∧ e.span.stop ≤ hi) ∧
    es.Pairwise fun a b => a.span.start < b.span.start

theorem elementsAscend_nil (lo hi : Nat) : ElementsAscend lo hi [] :=
  ⟨List.forall_mem_nil _, List.Pairwise.nil⟩

theorem ElementsAscend.widen {lo lo' hi hi' : Nat} {es : List Element}
    (h : ElementsAscend lo hi es) (hlo : lo' ≤ lo) (hhi : hi ≤ hi') :
    ElementsAscend lo' hi' es := by
  refine ⟨fun e he => ?_, h.2⟩
  obtain ⟨hstart, hlt, hstop⟩ := h.1 e he
  exact ⟨Nat.le_trans hlo hstart, hlt, Nat.le_trans hstop hhi⟩

theorem ElementsAscend.append {lo mid hi : Nat} {es es' : List Element}
    (h : ElementsAscend lo mid es) (h' : ElementsAscend mid hi es') (hlo : lo ≤ mid)
    (hhi : mid ≤ hi) : ElementsAscend lo hi (es ++ es') := by
  refine ⟨List.forall_mem_append.2 ⟨(h.widen (Nat.le_refl lo) hhi).1,
    (h'.widen hlo (Nat.le_refl hi)).1⟩, List.pairwise_append.2 ⟨h.2, h'.2, ?_⟩⟩
  intro a ha b hb
  obtain ⟨-, halt, hastop⟩ := h.1 a ha
  obtain ⟨hbstart, -, -⟩ := h'.1 b hb
  omega

theorem ElementsAscend.cons {lo hi : Nat} {e : Element} {es : List Element}
    (hlt : e.span.start < e.span.stop) (hlo : e.span.start < lo) (hhi : hi ≤ e.span.stop)
    (h : ElementsAscend lo hi es) : ElementsAscend e.span.start e.span.stop (e :: es) := by
  have hwide := h.widen (Nat.le_of_lt hlo) hhi
  refine ⟨List.forall_mem_cons.2 ⟨⟨Nat.le_refl _, hlt, Nat.le_refl _⟩, hwide.1⟩,
    List.pairwise_cons.2 ⟨fun b hb => ?_, h.2⟩⟩
  have hb := (h.1 b hb).1
  omega

theorem Consecutive.le {start stop : Nat} {spans : List Span} (h : Consecutive start stop spans) :
    start ≤ stop := by
  induction spans generalizing start with
  | nil => exact Nat.le_of_eq h
  | cons s spans ih =>
    obtain ⟨-, hlt, hrest⟩ := h
    exact Nat.le_trans (Nat.le_of_lt hlt) (ih hrest)

section
variable {cs : List Char}

mutual

theorem ascending_elements :
    ∀ n : Node, (∀ e ∈ n.elements, e.Tiles cs) →
      ElementsAscend n.span.start n.span.stop n.elements
  | .text _, _ => elementsAscend_nil _ _
  | .comment _, _ => elementsAscend_nil _ _
  | .element shell children, htiles => by
    have ht := htiles ⟨shell, children⟩ (List.mem_cons_self ..)
    obtain ⟨hstart, hopen⟩ := ht.opens
    rw [Node.elements_element]
    cases hc : shell.closeTag with
    | none =>
      obtain ⟨hnil, hspan⟩ := ht.alone hc
      obtain rfl : children = [] := hnil
      have hlt : (Element.mk shell []).span.start < (Element.mk shell []).span.stop := by
        rw [hspan]
        exact hopen
      exact .cons hlt (Nat.lt_succ_self _) (Nat.le_refl _) (elementsAscend_nil _ _)
    | some c =>
      obtain ⟨hclt, hcstop, -, hcover⟩ := ht.closes c hc
      have hle := hcover.le
      have hinside := ascending_elementsIn children hcover fun e he =>
        htiles e (List.mem_cons_of_mem _ he)
      refine .cons ?_ ?_ ?_ hinside <;> omega

theorem ascending_elementsIn {lo hi : Nat} :
    ∀ ns : List Node, Consecutive lo hi (ns.map Node.span) →
      (∀ e ∈ elementsIn ns, e.Tiles cs) → ElementsAscend lo hi (elementsIn ns)
  | [], _, _ => elementsAscend_nil _ _
  | n :: ns, hcover, htiles => by
    obtain ⟨hstart, hlt, hrest⟩ := hcover
    have hn := ascending_elements n fun e he => htiles e (List.mem_append_left _ he)
    rw [hstart] at hn
    exact hn.append
      (ascending_elementsIn ns hrest fun e he => htiles e (List.mem_append_right _ he))
      (Nat.le_of_lt hlt) hrest.le

end

/-! ## The elements inside an element -/

mutual

theorem descendants_subset_elements :
    ∀ n : Node, ∀ a ∈ n.elements, a.descendants ⊆ n.elements
  | .text _, _, ha => (List.not_mem_nil ha).elim
  | .comment _, _, ha => (List.not_mem_nil ha).elim
  | .element shell children, a, ha => by
    rcases List.mem_cons.1 ha with rfl | ha
    · rw [descendants_eq]
      exact List.subset_cons_self _ _
    · exact List.Subset.trans (descendants_subset children a ha) (List.subset_cons_self _ _)

theorem descendants_subset :
    ∀ ns : List Node, ∀ a ∈ elementsIn ns, a.descendants ⊆ elementsIn ns
  | [], _, ha => (List.not_mem_nil ha).elim
  | n :: ns, a, ha => by
    rcases List.mem_append.1 ha with ha | ha
    · exact List.Subset.trans (descendants_subset_elements n a ha) (List.subset_append_left _ _)
    · exact List.Subset.trans (descendants_subset ns a ha) (List.subset_append_right _ _)

end

theorem Tiling.ascending_inside {nodes : List Node} (h : Tiling cs nodes) {a : Element}
    (ha : a ∈ allElements nodes) :
    ElementsAscend a.span.start a.span.stop (a :: a.descendants) := by
  have htiles : ∀ d ∈ (Node.element a.toShell a.children).elements, d.Tiles cs := by
    intro d hd
    rcases List.mem_cons.1 hd with rfl | hd
    · exact h.elements _ ha
    · rw [allElements_eq] at ha
      apply h.elements
      rw [allElements_eq]
      exact descendants_subset nodes a ha (by rw [descendants_eq]; exact hd)
  rw [descendants_eq]
  exact ascending_elements _ htiles

/-- **What is inside an element** starts behind its start and is within its place. -/
theorem Tiling.of_mem_descendants {nodes : List Node} (h : Tiling cs nodes) {a e : Element}
    (ha : a ∈ allElements nodes) (he : e ∈ a.descendants) :
    a.span.start < e.span.start ∧ e.span.isWithin a.span = true := by
  obtain ⟨hbounds, hpair⟩ := h.ascending_inside ha
  have hstart := (List.pairwise_cons.1 hpair).1 e he
  obtain ⟨hle, -, hstop⟩ := hbounds e (List.mem_cons_of_mem _ he)
  exact ⟨hstart, Span.isWithin_iff.2 ⟨hle, hstop⟩⟩

/-- **The elements of a template** are listed in the order of their places. -/
theorem Tiling.ascending {nodes : List Node} (h : Tiling cs nodes) :
    ElementsAscend 0 (byteLength cs) (allElements nodes) := by
  have htiles := h.elements
  rw [allElements_eq] at htiles ⊢
  exact ascending_elementsIn nodes h.covers htiles

theorem Tiling.nodup_allElements {nodes : List Node} (h : Tiling cs nodes) :
    (allElements nodes).Nodup :=
  h.ascending.2.imp fun hlt heq => absurd hlt (by rw [heq]; exact Nat.lt_irrefl _)

end

end Markup

end Islands
