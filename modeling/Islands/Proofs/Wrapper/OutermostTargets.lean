import Mathlib.Data.List.Nodup
import Mathlib.Data.List.Pairwise
import Islands.Proofs.Markup.ElementOrder
import Islands.Proofs.Wrapper.Refusal
import Islands.Proofs.Wrapper.TargetPlaces

/-!
# Which elements are the targets

An element of a template is a target exactly if the policy replaces it and none that it is inside
of. So the targets stand one behind the other, each element that is replaced is in the place of one
of them, and under a policy that cannot address boundaries the first marked element outside of all
slots is refused (`targetsOf_findTargets`).

* `mem_around_iff`: the elements that an element is inside of.
* `exists_outermost`: each element that is replaced is within an outermost one.
-/

namespace Islands

open Markup

/-! ## Statements about elements -/

/-- Whether elements with these tags are replaced: slots always are, and elements with a client
marker if boundaries are wanted and can be addressed. -/
def Policy.Wraps (p : Policy) (s : Shell) : Prop :=
  s.name = "slot" ∨ p = .wrap ∧ ∃ a ∈ s.attributes, isMarker a.name = true

/-- An element of a template that is replaced, and is inside none that is. -/
structure Policy.Outermost (p : Policy) (nodes : List Node) (e : Element) : Prop where
  mem : e ∈ allElements nodes
  wraps : p.Wraps e.toShell
  alone : ∀ a ∈ allElements nodes, e ∈ a.descendants → ¬p.Wraps a.toShell

/-- A marked element of a template that is neither a slot nor inside one. -/
structure IsRefusable (nodes : List Node) (e : Element) : Prop where
  mem : e ∈ allElements nodes
  marked : ∃ a ∈ e.attributes, isMarker a.name = true
  noSlot : e.name ≠ "slot"
  outside : ∀ a ∈ allElements nodes, e ∈ a.descendants → a.name ≠ "slot"

/-- What is found in a template. -/
structure TargetsOf (p : Policy) (nodes : List Node) (found : Findings) : Prop where
  outermost : ∀ e, e ∈ found.targets ↔ p.Outermost nodes e
  inOrder : found.targets.Sublist (allElements nodes)
  once : found.targets.Nodup
  apart : found.targets.Pairwise fun a b => a.span.stop ≤ b.span.start
  /-- Each element that is replaced is within one target, and within no other. -/
  covers : ∀ e ∈ allElements nodes, p.Wraps e.toShell →
    ∃ t ∈ found.targets, e.span.isWithin t.span = true ∧
      ∀ t' ∈ found.targets, e.span.isWithin t'.span = true → t' = t
  refuses : found.refused.isSome = true ↔ p = .unsupported ∧ ∃ e, IsRefusable nodes e
  /-- The opening tag that is refused is that of the first such element. -/
  first : ∀ s, found.refused = some s →
    ∃ before e after, allElements nodes = before ++ e :: after ∧ IsRefusable nodes e ∧
      (∀ b ∈ before, ¬IsRefusable nodes b) ∧ s = e.openTag

theorem replaces_iff_wraps {p : Policy} {s : Shell} :
    p.replaces (kindOf s) = true ↔ p.Wraps s := by
  cases hk : kindOf s with
  | slot => simp [Policy.replaces, Policy.Wraps, kindOf_eq_slot_iff.1 hk]
  | clientBoundary =>
    obtain ⟨hname, hmarked⟩ := kindOf_eq_clientBoundary_iff.1 hk
    simp [Policy.replaces, Policy.Wraps, hname, hmarked]
  | plain =>
    have hname : s.name ≠ "slot" := fun h => by
      rw [kindOf_eq_slot_iff.2 h] at hk
      cases hk
    have hmarked : ¬∃ a ∈ s.attributes, isMarker a.name = true := fun h => by
      rw [kindOf_eq_clientBoundary_iff.2 ⟨hname, h⟩] at hk
      cases hk
    simp [Policy.replaces, Policy.Wraps, hname, hmarked]

/-! ## The elements that an element is inside of -/

mutual

theorem exists_nested_of_mem_descendants_node (outer : List Shell) :
    ∀ n : Node, ∀ a ∈ n.elements, ∀ e ∈ a.descendants,
      ∃ d ∈ n.nested outer, d.element = e ∧ a.toShell ∈ d.around
  | .text _, _, ha => nomatch ha
  | .comment _, _, ha => nomatch ha
  | .element shell children, a, ha => by
    intro e he
    rcases List.mem_cons.1 ha with rfl | ha
    · rw [descendants_eq, ← map_element_nestedIn (shell :: outer)] at he
      obtain ⟨d, hd, rfl⟩ := List.mem_map.1 he
      exact ⟨d, List.mem_cons_of_mem _ hd, rfl,
        (mem_around (shell :: outer) children d hd).1 (List.mem_cons_self ..)⟩
    · obtain ⟨d, hd, hde, had⟩ :=
        exists_nested_of_mem_descendants (shell :: outer) children a ha e he
      exact ⟨d, List.mem_cons_of_mem _ hd, hde, had⟩

theorem exists_nested_of_mem_descendants (outer : List Shell) :
    ∀ ns : List Node, ∀ a ∈ elementsIn ns, ∀ e ∈ a.descendants,
      ∃ d ∈ nestedIn outer ns, d.element = e ∧ a.toShell ∈ d.around
  | [], _, ha => nomatch ha
  | n :: ns, a, ha => by
    intro e he
    rcases List.mem_append.1 ha with ha | ha
    · obtain ⟨d, hd, h⟩ := exists_nested_of_mem_descendants_node outer n a ha e he
      exact ⟨d, List.mem_append_left _ hd, h⟩
    · obtain ⟨d, hd, h⟩ := exists_nested_of_mem_descendants outer ns a ha e he
      exact ⟨d, List.mem_append_right _ hd, h⟩

end

section
variable {cs : List Char} {nodes : List Node} {p : Policy}

theorem map_element_nested_template (nodes : List Node) :
    (nestedIn [] nodes).map (·.element) = allElements nodes := by
  rw [map_element_nestedIn, allElements_eq]

theorem element_mem {d : Nested} (hd : d ∈ nestedIn [] nodes) :
    d.element ∈ allElements nodes := by
  rw [← map_element_nested_template]
  exact List.mem_map_of_mem hd

/-- **What is listed with an element** of a template are the elements that it is inside of. -/
theorem mem_around_iff (h : Tiling cs nodes) {d : Nested} (hd : d ∈ nestedIn [] nodes)
    {s : Shell} :
    s ∈ d.around ↔ ∃ a ∈ allElements nodes, a.toShell = s ∧ d.element ∈ a.descendants := by
  rw [allElements_eq]
  constructor
  · intro hs
    exact ((mem_around [] nodes d hd).2 s hs).resolve_left List.not_mem_nil
  · rintro ⟨a, ha, rfl, hdesc⟩
    obtain ⟨d', hd', helement, haround⟩ := exists_nested_of_mem_descendants [] nodes a ha _ hdesc
    -- an element is listed once, so it is listed with the same ones around it
    have hnodup := h.nodup_allElements
    rw [← map_element_nested_template] at hnodup
    rwa [← List.inj_on_of_nodup_map hnodup hd' hd helement]

theorem reached_iff_outermost (h : Tiling cs nodes) {d : Nested} (hd : d ∈ nestedIn [] nodes) :
    (p.reaches d && p.replaces (kindOf d.element.toShell)) = true ↔
      p.Outermost nodes d.element := by
  have hreach : p.reaches d = true ↔
      ∀ a ∈ allElements nodes, d.element ∈ a.descendants → ¬p.Wraps a.toShell := by
    simp only [Policy.reaches, List.all_eq_true, Bool.not_eq_true', ← Bool.not_eq_true,
      replaces_iff_wraps, mem_around_iff h hd]
    constructor
    · intro hall a ha hdesc
      exact hall _ ⟨a, ha, rfl, hdesc⟩
    · rintro hall s ⟨a, ha, rfl, hdesc⟩
      exact hall a ha hdesc
  rw [Bool.and_eq_true, hreach, replaces_iff_wraps]
  constructor
  · intro hboth
    obtain ⟨halone, hwraps⟩ := hboth
    exact ⟨element_mem hd, hwraps, halone⟩
  · intro houtermost
    exact ⟨houtermost.alone, houtermost.wraps⟩

theorem isOpenMarked_iff (h : Tiling cs nodes) {d : Nested} (hd : d ∈ nestedIn [] nodes) :
    d.IsOpenMarked ↔ IsRefusable nodes d.element := by
  constructor
  · intro hopen
    refine ⟨element_mem hd, hopen.marked, hopen.noSlot, fun a ha hdesc => ?_⟩
    exact hopen.outside _ ((mem_around_iff h hd).2 ⟨a, ha, rfl, hdesc⟩)
  · intro hrefusable
    refine ⟨hrefusable.marked, hrefusable.noSlot, fun s hs => ?_⟩
    obtain ⟨a, ha, rfl, hdesc⟩ := (mem_around_iff h hd).1 hs
    exact hrefusable.outside a ha hdesc

/-! ## The targets -/

theorem mem_targets_iff (h : Tiling cs nodes) {e : Element} :
    e ∈ (findTargets p nodes).targets ↔ p.Outermost nodes e := by
  rw [findTargets_eq, Policy.findings, List.mem_map]
  constructor
  · rintro ⟨d, hd, rfl⟩
    obtain ⟨hd, hreached⟩ := List.mem_filter.1 hd
    exact (reached_iff_outermost h hd).1 hreached
  · intro he
    have hmem := he.mem
    rw [← map_element_nested_template] at hmem
    obtain ⟨d, hd, rfl⟩ := List.mem_map.1 hmem
    exact ⟨d, List.mem_filter.2 ⟨hd, (reached_iff_outermost h hd).2 he⟩, rfl⟩

theorem targets_sublist (p : Policy) (nodes : List Node) :
    (findTargets p nodes).targets.Sublist (allElements nodes) := by
  rw [findTargets_eq, Policy.findings, ← map_element_nested_template]
  exact List.filter_sublist.map _

theorem targets_apart (h : Tiling cs nodes) (p : Policy) :
    (findTargets p nodes).targets.Pairwise fun a b => a.span.stop ≤ b.span.start := by
  have htiles := h.elements
  rw [allElements_eq] at htiles
  exact List.pairwise_map.1 (ascending_targets p nodes h.covers h.boundaries htiles).1.pairwise

/-- **Each element that is replaced** is within an outermost one. -/
theorem exists_outermost (h : Tiling cs nodes) (e : Element) (he : e ∈ allElements nodes)
    (hwraps : p.Wraps e.toShell) :
    ∃ t, p.Outermost nodes t ∧ e.span.isWithin t.span = true := by
  by_cases halone : ∀ a ∈ allElements nodes, e ∈ a.descendants → ¬p.Wraps a.toShell
  · exact ⟨e, ⟨he, hwraps, halone⟩, Span.isWithin_refl _⟩
  · -- the element that `e` is inside of starts in front of it
    simp only [not_forall, not_not] at halone
    obtain ⟨a, ha, hdesc, hawraps⟩ := halone
    obtain ⟨hlt, hwithin⟩ := h.of_mem_descendants ha hdesc
    obtain ⟨t, ht, hat⟩ := exists_outermost h a ha hawraps
    refine ⟨t, ht, Span.isWithin_iff.2 ?_⟩
    have hinner := Span.isWithin_iff.1 hwithin
    have houter := Span.isWithin_iff.1 hat
    omega
termination_by e.span.start

theorem eq_of_isWithin (h : Tiling cs nodes) {e t t' : Element} (he : e ∈ allElements nodes)
    (ht : t ∈ (findTargets p nodes).targets) (ht' : t' ∈ (findTargets p nodes).targets)
    (hwithin : e.span.isWithin t.span = true) (hwithin' : e.span.isWithin t'.span = true) :
    t' = t := by
  have hlt := (h.ascending.1 e he).2.1
  rw [Span.isWithin_iff] at hwithin hwithin'
  have hapart : (findTargets p nodes).targets.Pairwise fun a b =>
      a.span.stop ≤ b.span.start ∨ b.span.stop ≤ a.span.start :=
    (targets_apart h p).imp Or.inl
  have hsymm : Std.Symm fun a b : Element =>
      a.span.stop ≤ b.span.start ∨ b.span.stop ≤ a.span.start := ⟨fun _ _ => Or.symm⟩
  refine Classical.byContradiction fun hne => ?_
  rcases hapart.forall ht' ht hne with hle | hle <;> omega

/-! ## What is refused -/

theorem refused_eq (p : Policy) (nodes : List Node) :
    (findTargets p nodes).refused =
      ((nestedIn [] nodes).find? fun d =>
        p.reaches d && p.refuses (kindOf d.element.toShell)).map (·.element.openTag) := by
  rw [findTargets_eq, Policy.findings]

theorem refused_isSome_iff (h : Tiling cs nodes) :
    (findTargets p nodes).refused.isSome = true ↔
      p = .unsupported ∧ ∃ e, IsRefusable nodes e := by
  rw [refused_eq, Option.isSome_map, List.find?_isSome]
  constructor
  · rintro ⟨d, hd, hrefused⟩
    have hp : p = .unsupported := by
      rw [Policy.refuses, Bool.and_eq_true, Bool.and_eq_true, decide_eq_true_eq] at hrefused
      exact hrefused.2.1
    subst hp
    exact ⟨rfl, d.element, (isOpenMarked_iff h hd).1 (refused_iff_isOpenMarked.1 hrefused)⟩
  · rintro ⟨rfl, e, he⟩
    have hmem := he.mem
    rw [← map_element_nested_template] at hmem
    obtain ⟨d, hd, rfl⟩ := List.mem_map.1 hmem
    exact ⟨d, hd, refused_iff_isOpenMarked.2 ((isOpenMarked_iff h hd).2 he)⟩

theorem exists_first_of_refused (h : Tiling cs nodes) {s : Span}
    (hs : (findTargets p nodes).refused = some s) :
    ∃ before e after, allElements nodes = before ++ e :: after ∧ IsRefusable nodes e ∧
      (∀ b ∈ before, ¬IsRefusable nodes b) ∧ s = e.openTag := by
  have hp : p = .unsupported := ((refused_isSome_iff h).1 (by rw [hs]; rfl)).1
  subst hp
  rw [refused_eq] at hs
  obtain ⟨d, hfind, rfl⟩ := Option.map_eq_some_iff.1 hs
  obtain ⟨hrefused, before, after, hsplit, hbefore⟩ := List.find?_eq_some_iff_append.1 hfind
  have hd : d ∈ nestedIn [] nodes := by
    rw [hsplit]
    exact List.mem_append_right _ (List.mem_cons_self ..)
  refine ⟨before.map (·.element), d.element, after.map (·.element), ?_, ?_, ?_, rfl⟩
  · rw [← map_element_nested_template, hsplit, List.map_append, List.map_cons]
  · exact (isOpenMarked_iff h hd).1 (refused_iff_isOpenMarked.1 hrefused)
  · intro b hb hrefusable
    obtain ⟨c, hc, rfl⟩ := List.mem_map.1 hb
    have hcmem : c ∈ nestedIn [] nodes := by
      rw [hsplit]
      exact List.mem_append_left _ hc
    have hnot := hbefore c hc
    rw [refused_iff_isOpenMarked.2 ((isOpenMarked_iff h hcmem).2 hrefusable)] at hnot
    cases hnot

end

/-- **The outermost elements win**: the targets of a template are the elements that are replaced and
inside none that is, in document order; they stand one behind the other, and each element that is
replaced is within exactly one of them. An element is refused exactly if boundaries cannot be
addressed and a marked one is outside of all slots, and then the first such is. -/
theorem targetsOf_findTargets {cs : List Char} {nodes : List Node} (h : parse cs = .ok nodes)
    (p : Policy) : TargetsOf p nodes (findTargets p nodes) := by
  have htiling := tiling_of_parse h
  exact
    { outermost := fun e => mem_targets_iff htiling
      inOrder := targets_sublist p nodes
      once := (targets_sublist p nodes).nodup htiling.nodup_allElements
      apart := targets_apart htiling p
      covers := by
        intro e he hwraps
        obtain ⟨t, ht, hwithin⟩ := exists_outermost htiling e he hwraps
        have ht := (mem_targets_iff htiling).2 ht
        exact ⟨t, ht, hwithin, fun t' ht' hwithin' =>
          eq_of_isWithin htiling he ht ht' hwithin hwithin'⟩
      refuses := refused_isSome_iff htiling
      first := fun s hs => exists_first_of_refused htiling hs }

/-- A slot in a marked element, with a marked element in it and another one behind both. -/
def nestedTargets : List Char :=
  "<p island-client><slot><i island-client/></slot></p><b :island-client='x'/>".toList

/-- The marked elements are replaced where they can be addressed; elsewhere the slot is, and the
first of them is refused. -/
theorem targetsOf_findTargets_nested :
    ∃ nodes, parse nestedTargets = .ok nodes ∧
      (findTargets .wrap nodes).targets.map (·.name) = ["p", "b"] ∧
      TargetsOf .wrap nodes (findTargets .wrap nodes) ∧
      (findTargets .unsupported nodes).targets.map (·.name) = ["slot"] ∧
      (findTargets .unsupported nodes).refused = some ⟨0, 17⟩ ∧
      TargetsOf .unsupported nodes (findTargets .unsupported nodes) := by
  have hparse : parse nestedTargets = .ok
      [.element ⟨"p", [⟨"island-client", none, ⟨3, 16⟩⟩], ⟨0, 17⟩, some ⟨48, 52⟩⟩
        [.element ⟨"slot", [], ⟨17, 23⟩, some ⟨41, 48⟩⟩
          [.element ⟨"i", [⟨"island-client", none, ⟨26, 39⟩⟩], ⟨23, 41⟩, none⟩ []]],
      .element ⟨"b", [⟨":island-client", some "x", ⟨55, 73⟩⟩], ⟨52, 75⟩, none⟩ []] := by
    decide +kernel
  refine ⟨_, hparse, ?_, targetsOf_findTargets hparse .wrap, ?_, ?_,
    targetsOf_findTargets hparse .unsupported⟩ <;> decide +kernel

end Islands
