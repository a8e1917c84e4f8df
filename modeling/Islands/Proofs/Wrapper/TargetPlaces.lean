import Islands.Targets
import Islands.Proofs.Markup.Tiling

/-!
# Where the targets of a template are

The targets of a template are elements of its tree of which none is inside another, in document
order. As the tree tiles the template, their places are not empty and stand one behind the other
(`ascending_targets`).
-/

namespace Islands

open Markup

/-- Ranges that are not empty, one behind the other, from `lo` to `hi`. -/
def Ascending (lo hi : Nat) : List Span → Prop
  | [] => lo ≤ hi
  | s :: rest => lo ≤ s.start ∧ s.start < s.stop ∧ Ascending s.stop hi rest

theorem Ascending.le {lo hi : Nat} {spans : List Span} (h : Ascending lo hi spans) : lo ≤ hi := by
  induction spans generalizing lo with
  | nil => exact h
  | cons s spans ih =>
    obtain ⟨hlo, hs, hrest⟩ := h
    have := ih hrest
    omega

theorem Ascending.append {lo mid hi : Nat} {spans spans' : List Span}
    (h : Ascending lo mid spans) (h' : Ascending mid hi spans') :
    Ascending lo hi (spans ++ spans') := by
  induction spans generalizing lo with
  | nil =>
    have hlo : lo ≤ mid := h
    cases spans' with
    | nil => exact Nat.le_trans hlo h'
    | cons s spans' => exact ⟨Nat.le_trans hlo h'.1, h'.2⟩
  | cons s spans ih => exact ⟨h.1, h.2.1, ih h.2.2⟩

theorem Ascending.widen {lo lo' hi hi' : Nat} {spans : List Span} (h : Ascending lo hi spans)
    (hlo : lo' ≤ lo) (hhi : hi ≤ hi') : Ascending lo' hi' spans := by
  have hfront : Ascending lo' lo [] := hlo
  have hback : Ascending hi hi' [] := hhi
  have := (hfront.append h).append hback
  rwa [List.nil_append, List.append_nil] at this

theorem Ascending.bounds {lo hi : Nat} {spans : List Span} (h : Ascending lo hi spans) {s : Span}
    (hs : s ∈ spans) : lo ≤ s.start ∧ s.start < s.stop ∧ s.stop ≤ hi := by
  induction spans generalizing lo with
  | nil => cases hs
  | cons t spans ih =>
    obtain ⟨hlo, ht, hrest⟩ := h
    rcases List.mem_cons.1 hs with rfl | hs
    · exact ⟨hlo, ht, hrest.le⟩
    · have := ih hrest hs
      omega

theorem Ascending.pairwise {lo hi : Nat} {spans : List Span} (h : Ascending lo hi spans) :
    spans.Pairwise fun s t => s.stop ≤ t.start := by
  induction spans generalizing lo with
  | nil => exact List.Pairwise.nil
  | cons s spans ih =>
    exact List.pairwise_cons.2 ⟨fun t ht => (h.2.2.bounds ht).1, ih h.2.2⟩

/-- The places of some elements. -/
def spansOf (es : List Element) : List Span := es.map fun e => e.span

section
variable {cs : List Char} (p : Policy)

mutual

theorem ascending_targetsIn :
    ∀ n : Node, n.span.start < n.span.stop → n.span.OnBoundaries cs →
      (∀ e ∈ n.elements, e.Tiles cs) →
      Ascending n.span.start n.span.stop (spansOf (findTargetsIn p n).targets) ∧
        ∀ e ∈ (findTargetsIn p n).targets, e.span.OnBoundaries cs
  | .text _, hlt, _, _ => ⟨Nat.le_of_lt hlt, fun _ he => nomatch he⟩
  | .comment _, hlt, _, _ => ⟨Nat.le_of_lt hlt, fun _ he => nomatch he⟩
  | .element shell children, hlt, hb, htiles => by
    have ht := htiles ⟨shell, children⟩ (List.mem_cons_self ..)
    have hchildren : ∀ e ∈ elementsIn children, e.Tiles cs := fun e he =>
      htiles e (List.mem_cons_of_mem _ he)
    unfold findTargetsIn
    split
    · -- the element itself is the only target
      refine ⟨⟨Nat.le_refl _, hlt, Nat.le_refl _⟩, fun e he => ?_⟩
      obtain rfl := List.mem_singleton.1 he
      exact hb
    · show Ascending _ _ (spansOf ([] ++ (findTargets p children).targets)) ∧
        ∀ e ∈ [] ++ (findTargets p children).targets, _
      rw [List.nil_append]
      cases hc : shell.closeTag with
      | none =>
        have hnil : children = [] := (ht.alone hc).1
        subst hnil
        exact ⟨Nat.le_of_lt hlt, fun _ he => nomatch he⟩
      | some c =>
        obtain ⟨hclt, hcstop, -, hcover⟩ := ht.closes c hc
        obtain ⟨hasc, hbound⟩ :=
          ascending_targets children hcover ht.boundaries.2.2.2 hchildren
        have hopen := ht.opens
        simp only at hopen hcstop hasc
        refine ⟨hasc.widen ?_ ?_, hbound⟩
        · show shell.span.start ≤ _
          omega
        · show _ ≤ shell.span.stop
          omega

/-- **The targets of a template** stand one behind the other. -/
theorem ascending_targets {lo hi : Nat} :
    ∀ ns : List Node, Consecutive lo hi (ns.map Node.span) →
      (∀ n ∈ ns, n.span.OnBoundaries cs) → (∀ e ∈ elementsIn ns, e.Tiles cs) →
      Ascending lo hi (spansOf (findTargets p ns).targets) ∧
        ∀ e ∈ (findTargets p ns).targets, e.span.OnBoundaries cs
  | [], hcover, _, _ => ⟨Nat.le_of_eq hcover, fun _ he => nomatch he⟩
  | n :: ns, hcover, hb, htiles => by
    obtain ⟨hstart, hlt, hrest⟩ := hcover
    obtain ⟨hasc, hbound⟩ := ascending_targetsIn n (by omega) (hb n (List.mem_cons_self ..))
      fun e he => htiles e (List.mem_append_left _ he)
    obtain ⟨hascs, hbounds⟩ := ascending_targets ns hrest
      (fun m hm => hb m (List.mem_cons_of_mem _ hm))
      fun e he => htiles e (List.mem_append_right _ he)
    rw [hstart] at hasc
    show Ascending _ _ (spansOf ((findTargetsIn p n).targets ++ (findTargets p ns).targets)) ∧
      ∀ e ∈ (findTargetsIn p n).targets ++ (findTargets p ns).targets, _
    rw [spansOf, List.map_append]
    refine ⟨hasc.append hascs, fun e he => ?_⟩
    rcases List.mem_append.1 he with he | he
    · exact hbound e he
    · exact hbounds e he

end

end

end Islands
