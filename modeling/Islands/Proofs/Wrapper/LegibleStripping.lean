import Islands.Proofs.ComponentFile.LegibleTags
import Islands.Proofs.Wrapper.Stripping

/-!
# What is left of an element in a template block

The body of a boundary and the fallback of a slot are what is left of legible markup without some
attributes. The reading of blocks takes this for the content of a template, too, if each tag that
loses attributes stays legible (`Node.StaysLegible`).

* `legible_strip`, `legibleParts_stripAll`: what is left is legible.
* `standsFor_strip`, `standsFor_stripAll`: it can stand in a template block.
-/

namespace Islands

open Markup ComponentFile

/-! ## Tags -/

namespace Markup

theorem OpenTag.keeps_of_staysLegible {p : String → Bool} {t : OpenTag} (ht : t.Sound)
    (hjoins : t.joins = true) (hends : t.endsAsSaid = true) (h : t.staysLegible p = true)
    (closed : Bool) : t.keeps p closed = true := by
  rw [OpenTag.staysLegible, Bool.or_eq_true, Bool.not_eq_true'] at h
  rcases h with hnone | husual
  · rw [OpenTag.keeps, OpenTag.without_eq_self hnone, hjoins, hends]
    simp
  · simp only [Bool.and_eq_true] at husual
    exact OpenTag.keeps_of_spaced ht hends husual.1.1 closed

/-- Whether the reading of blocks takes the opening tag of an element for what it is without the
attributes whose names are among `p`. -/
def Element.staysLegible (template : List Char) (p : String → Bool) (e : Element) : Bool :=
  match readOpenTag ((e.openTag.cut template).drop 1) with
  | .ok (tag, _) => tag.staysLegible p
  | .error _ => false

/-- The tags in a node stay legible: its own without the attributes among `own`, those inside it
without the ones among `inner`. -/
def Node.StaysLegible (template : List Char) (inner own : String → Bool) : Node → Prop
  | .text _ => True
  | .comment _ => True
  | .element shell children =>
    Element.staysLegible template own ⟨shell, children⟩ = true ∧
      ∀ d ∈ elementsIn children, d.staysLegible template inner = true

end Markup

section
variable {template : List Char} {p inner own : String → Bool}

theorem keepsTag_of_staysLegible {e : Element} (h : e.staysLegible template p = true) :
    e.keepsTag template p = true := by
  unfold Element.staysLegible at h
  unfold Element.keepsTag
  cases hread : readOpenTag (List.drop 1 (e.openTag.cut template)) with
  | error => simp only [hread, Bool.false_eq_true] at h
  | ok r =>
    obtain ⟨tag, rest⟩ := r
    obtain ⟨-, hsound, hjoins, hends⟩ := readOpenTag_eq_ok_iff.1 hread
    simp only [hread] at h ⊢
    exact OpenTag.keeps_of_staysLegible hsound hjoins hends h _

theorem keepsTags_of_staysLegible {n : Node} (h : n.StaysLegible template inner own) :
    n.KeepsTags template inner own := by
  cases n with
  | text | comment => trivial
  | element shell children =>
    exact ⟨keepsTag_of_staysLegible h.1, fun d hd => keepsTag_of_staysLegible (h.2 d hd)⟩

theorem staysLegible_iff_elements {n : Node} :
    n.StaysLegible template p p ↔ ∀ d ∈ n.elements, d.staysLegible template p = true := by
  cases n with
  | text => exact ⟨fun _ _ hd => (nomatch hd), fun _ => trivial⟩
  | comment => exact ⟨fun _ _ hd => (nomatch hd), fun _ => trivial⟩
  | element shell children => rw [Node.elements_element, List.forall_mem_cons, Node.StaysLegible]

theorem staysLegible_shellAt {tag : OpenTag} (ht : tag.Formed) {pre post : List Char}
    (htemplate : template = pre ++ (tag.written ++ post)) (closeTag : Option Span)
    (children : List Node) :
    Element.staysLegible template p ⟨tag.shellAt (byteLength pre) closeTag, children⟩ =
      tag.staysLegible p := by
  unfold Element.staysLegible
  simp only [OpenTag.shellAt, readOpenTag_cut ht htemplate]

/-! ## Parts -/

mutual

/-- **What is left of a legible part** is legible in a template. -/
theorem legible_strip (inner : String → Bool) :
    ∀ (q : Part) (own : String → Bool) {pre post : List Char}, TagsSound q.tokens →
      template = pre ++ (q.written ++ post) →
      (q.nodeAt (byteLength pre)).StaysLegible template inner own →
      Part.legible true q = true → Part.legible true (q.strip inner own) = true
  | .text body, _, _, _, _, _, _, hlegible => hlegible
  | .comment body, _, _, _, _, _, _, hlegible => hlegible
  | .single tag, own, pre, post, hs, htemplate, hstays, hlegible => by
    have ht : tag.Formed := hs.openTag
    rw [Part.written_single] at htemplate
    rw [Part.nodeAt, Node.StaysLegible, staysLegible_shellAt ht htemplate] at hstays
    rw [Part.legible] at hlegible
    rw [Part.strip, Part.legible, OpenTag.settled_name, OpenTag.written_settled]
    exact isLegible_without ht hstays.1 hlegible rfl
  | .raw tag body close, own, pre, post, hs, htemplate, hstays, hlegible => by
    have ht := (hs (.raw tag body close) (List.mem_singleton.2 rfl) rfl).1
    rw [Part.written_raw, List.append_assoc] at htemplate
    rw [Part.nodeAt, Node.StaysLegible, staysLegible_shellAt ht htemplate] at hstays
    rw [Part.legible] at hlegible
    rw [Part.strip, Part.legible]
    exact isLegible_without ht hstays.1 hlegible (children_of_isLegible hlegible)
  | .element tag children close, own, pre, post, hs, htemplate, hstays, hlegible => by
    have ht : tag.Formed := hs.openTag
    rw [Part.written_element, List.append_assoc, List.append_assoc] at htemplate
    have htemplate' : template = (pre ++ tag.written) ++
        (writtenOf children ++ (close.written ++ post)) := by
      rw [htemplate, List.append_assoc]
    rw [Part.nodeAt, Node.StaysLegible, staysLegible_shellAt ht htemplate] at hstays
    have hinner := hstays.2
    rw [← byteLength_append] at hinner
    rw [Part.legible] at hlegible
    have hinside := legibleParts_stripAll inner children hs.children htemplate' hinner
      (children_of_isLegible hlegible)
    rw [Part.strip, Part.legible]
    exact isLegible_without ht hstays.1 hlegible hinside

theorem legibleParts_stripAll (inner : String → Bool) :
    ∀ (qs : List Part) {pre post : List Char}, TagsSound (tokensOf qs) →
      template = pre ++ (writtenOf qs ++ post) →
      (∀ d ∈ elementsIn (nodesAt (byteLength pre) qs), d.staysLegible template inner = true) →
      legibleParts true qs = true → legibleParts true (stripAll inner qs) = true
  | [], _, _, _, _, _, _ => rfl
  | q :: qs, pre, post, hs, htemplate, hstays, hlegible => by
    rw [writtenOf_cons, List.append_assoc] at htemplate
    have htemplate' : template = (pre ++ q.written) ++ (writtenOf qs ++ post) := by
      rw [htemplate, List.append_assoc]
    rw [nodesAt_cons, elementsIn_cons, List.forall_mem_append, ← byteLength_append] at hstays
    rw [legibleParts, Bool.and_eq_true] at hlegible
    rw [stripAll, legibleParts,
      legible_strip inner q inner hs.left htemplate (staysLegible_iff_elements.2 hstays.1) hlegible.1,
      legibleParts_stripAll inner qs hs.right htemplate' hstays.2 hlegible.2]
    rfl

end

/-! ## In a template block -/

/-- **What is left of a part** can stand in a template block. -/
theorem standsFor_strip {q : Part} {pre post : List Char} (hp : q.Paired) (hr : Readable q.tokens)
    (htemplate : template = pre ++ (q.written ++ post))
    (hstays : (q.nodeAt (byteLength pre)).StaysLegible template inner own)
    (hlegible : Part.legible true q = true) :
    StandsFor (q.strip inner own).written (q.strip inner own).written := by
  have hkeeps : q.Keeps inner own :=
    (keeps_iff inner q own hr.tagsSound htemplate).2 (keepsTags_of_staysLegible hstays)
  have hread := (retagged_strip inner own q hp hkeeps hr.tagsSound).readable hr
  exact standsFor_part _ (paired_strip inner own q hp) hread
    (legible_strip inner q own hr.tagsSound htemplate hstays hlegible)

theorem standsFor_stripAll {qs : List Part} {pre post : List Char} (hp : PairedAll qs)
    (hr : Readable (tokensOf qs)) (htemplate : template = pre ++ (writtenOf qs ++ post))
    (hstays : ∀ d ∈ elementsIn (nodesAt (byteLength pre) qs), d.staysLegible template inner = true)
    (hlegible : legibleParts true qs = true) :
    StandsFor (writtenOf (stripAll inner qs)) (writtenOf (stripAll inner qs)) := by
  have hkeeps : KeepsAll inner qs := (keepsAll_iff inner qs hr.tagsSound htemplate).2
    fun d hd => keepsTag_of_staysLegible (hstays d hd)
  have hread := (retagged_stripAll inner qs hp hkeeps hr.tagsSound).readable hr
  exact standsFor_parts _ (pairedAll_stripAll inner qs hp) hread
    (legibleParts_stripAll inner qs hr.tagsSound htemplate hstays hlegible)

end

end Islands
