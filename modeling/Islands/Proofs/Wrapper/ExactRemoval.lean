import Mathlib.Data.List.Pairwise
import Islands.Proofs.Markup.ElementOrder
import Islands.Proofs.Wrapper.Cutting
import Islands.Proofs.Wrapper.SlotWrapper
import Islands.Proofs.Wrapper.WrapperText

/-!
# Stripping to the byte

What goes with an attribute is its place and the blanks in front of it (`Span.WithBlanks`). What
goes with the attributes that an element loses is apart from each other and from everything that
stays: the texts, the comments, and the other attributes (`Separate`). So none of it is passed over,
and what is left of the element is its text without exactly that (`takenOut_of_parse`).

* `separate_tag`, `separate_part`, `separate_parts`: by induction on the parts.
* `takenOut_of_separate`: from there to the text that is left.
-/

namespace Islands

open Markup

/-! ## What goes with an attribute -/

/-- The range `r` is the range `s` and all the blanks in front of it. -/
def Span.WithBlanks (cs : List Char) (s r : Span) : Prop :=
  ∃ before blanks covered after, cs = before ++ (blanks ++ (covered ++ after)) ∧
    EndsSolid before ∧ (∀ c ∈ blanks, isBlank c = true) ∧
    s = spanAt (byteLength (before ++ blanks)) covered ∧
    r = spanAt (byteLength before) (blanks ++ covered)

theorem endsSolid_stem (cs : List Char) : EndsSolid (stem cs) := by
  intro c hc
  rw [stem, List.getLast?_reverse] at hc
  have hhead := List.head?_dropWhile_not isBlank cs.reverse
  rw [hc] at hhead
  simpa using hhead

theorem isBlank_of_mem_blankEnd {cs : List Char} {c : Char} (h : c ∈ blankEnd cs) :
    isBlank c = true :=
  List.all_eq_true.1 List.all_takeWhile c (List.mem_reverse.1 h)

section
variable {template : List Char}

/-- **What goes with an attribute** is its place and the blanks in front of it. -/
theorem withBlanks_removal {a : Attribute} (hle : a.span.start ≤ a.span.stop)
    (h : a.span.OnBoundaries template) : a.span.WithBlanks template (a.removal template) := by
  obtain ⟨x, covered, after, rfl, hspan⟩ := exists_eq_spanAt h hle
  have hlength := congrArg byteLength (stem_append_blankEnd x)
  have hblanks : byteLength (x.reverse.takeWhile isBlank) = byteLength (blankEnd x) := by
    rw [blankEnd, byteLength_reverse]
  refine ⟨stem x, blankEnd x, covered, after, ?_, endsSolid_stem x,
    fun c hc => isBlank_of_mem_blankEnd hc, ?_, ?_⟩
  · rw [← List.append_assoc (stem x), stem_append_blankEnd]
  · rw [stem_append_blankEnd, hspan]
  · rw [byteLength_append] at hlength
    rw [Attribute.removal]
    simp only [hspan, spanAt, takeBytes_append, hblanks, byteLength_append, Span.mk.injEq]
    omega

theorem Span.WithBlanks.start_le {s r : Span} (h : s.WithBlanks template r) :
    r.start ≤ s.start := by
  obtain ⟨before, blanks, covered, after, -, -, -, rfl, rfl⟩ := h
  simp [spanAt]

theorem Span.WithBlanks.onBoundaries {s r : Span} (h : s.WithBlanks template r) :
    r.OnBoundaries template := by
  obtain ⟨before, blanks, covered, after, rfl, -, -, -, rfl⟩ := h
  rw [← List.append_assoc blanks]
  exact onBoundaries_spanAt before (blanks ++ covered) after

/-! ## Disjoint ranges -/

theorem disjoint_of_apart {ds : List Span} (h : ds.Pairwise fun a b => a.stop ≤ b.start) :
    ds.Pairwise fun a b => a.isDisjoint b = true :=
  h.imp fun hab => Span.isDisjoint_iff.2 (.inl hab)

/-! ## What stays -/

mutual

/-- The places in a node that stay when it loses its own attributes with names among `own` and those
inside it with names among `inner`: texts, comments, and the other attributes. -/
def Markup.Node.staying (inner own : String → Bool) : Node → List Span
  | .text s => [s]
  | .comment s => [s]
  | .element shell children =>
    (shell.attributes.filter (!own ·.name)).map (·.span) ++ stayingIn inner children

/-- The places in some nodes that stay. -/
def stayingIn (inner : String → Bool) : List Node → List Span
  | [] => []
  | n :: ns => n.staying inner inner ++ stayingIn inner ns

end

/-- Between `lo` and `hi` are places that stay and ranges that are taken out, apart from them. -/
structure Separate (template : List Char) (lo hi : Nat) (kept taken : List Span) : Prop where
  stays : ∀ s ∈ kept, lo ≤ s.start ∧ s.start ≤ s.stop ∧ s.stop ≤ hi ∧ s.OnBoundaries template
  goes : ∀ r ∈ taken, lo ≤ r.start ∧ r.stop ≤ hi
  apart : ∀ s ∈ kept, ∀ r ∈ taken, s.isDisjoint r = true

namespace Separate

variable {lo mid hi : Nat} {kept kept' taken taken' : List Span}

theorem nil (lo hi : Nat) : Separate template lo hi [] [] :=
  ⟨List.forall_mem_nil _, List.forall_mem_nil _, List.forall_mem_nil _⟩

theorem single {s : Span} (hlo : lo ≤ s.start) (hle : s.start ≤ s.stop) (hhi : s.stop ≤ hi)
    (hb : s.OnBoundaries template) : Separate template lo hi [s] [] :=
  ⟨List.forall_mem_singleton.2 ⟨hlo, hle, hhi, hb⟩, List.forall_mem_nil _,
    fun _ _ => List.forall_mem_nil _⟩

theorem append (h : Separate template lo mid kept taken)
    (h' : Separate template mid hi kept' taken') (hlo : lo ≤ mid) (hhi : mid ≤ hi) :
    Separate template lo hi (kept ++ kept') (taken ++ taken') := by
  constructor
  · rw [List.forall_mem_append]
    refine ⟨fun s hs => ?_, fun s hs => ?_⟩
    · obtain ⟨hstart, hle, hstop, hb⟩ := h.stays s hs
      exact ⟨hstart, hle, Nat.le_trans hstop hhi, hb⟩
    · obtain ⟨hstart, hle, hstop, hb⟩ := h'.stays s hs
      exact ⟨Nat.le_trans hlo hstart, hle, hstop, hb⟩
  · rw [List.forall_mem_append]
    refine ⟨fun r hr => ?_, fun r hr => ?_⟩
    · exact ⟨(h.goes r hr).1, Nat.le_trans (h.goes r hr).2 hhi⟩
    · exact ⟨Nat.le_trans hlo (h'.goes r hr).1, (h'.goes r hr).2⟩
  · -- on different sides of `mid` nothing meets
    intro s hs r hr
    rcases List.mem_append.1 hs with hs | hs <;> rcases List.mem_append.1 hr with hr | hr
    · exact h.apart s hs r hr
    · have := (h.stays s hs).2.2.1
      have := (h'.goes r hr).1
      exact Span.isDisjoint_iff.2 (by omega)
    · have := (h'.stays s hs).1
      have := (h.goes r hr).2
      exact Span.isDisjoint_iff.2 (by omega)
    · exact h'.apart s hs r hr

theorem widen (h : Separate template lo mid kept taken) (hlo : lo ≤ mid) (hhi : mid ≤ hi) :
    Separate template lo hi kept taken := by
  have := h.append (.nil mid hi) hlo hhi
  rwa [List.append_nil, List.append_nil] at this

end Separate

/-! ## Tags -/

theorem span_le_of_mem_locateAttributes {offset : Nat} {as : List WrittenAttribute} :
    ∀ a ∈ locateAttributes offset as, a.span.start ≤ a.span.stop := by
  induction as generalizing offset with
  | nil => exact List.forall_mem_nil _
  | cons w as ih =>
    rw [locateAttributes_cons, List.forall_mem_cons]
    exact ⟨Nat.le_add_right .., ih⟩

/-- What goes with the attributes of a tag, with each of them, is within the tag and apart. -/
theorem erased_all {t : OpenTag} {pre post : List Char} (ht : t.Formed)
    (htemplate : template = pre ++ (t.written ++ post)) :
    ∃ out, Erased (byteLength pre) t.written
      ((t.attributesAt (byteLength pre)).map (Attribute.removal template)) out := by
  have herased := erased_tag (p := fun _ => true) ht htemplate (.nil _ [])
  rw [List.append_nil, List.append_nil, List.append_nil, List.filter_true] at herased
  exact ⟨_, herased⟩

/-- **A tag**: the attributes that stay are apart from what goes with the others. -/
theorem separate_tag {t : OpenTag} {pre post : List Char} (own : String → Bool) (ht : t.Formed)
    (htemplate : template = pre ++ (t.written ++ post)) :
    Separate template (byteLength pre) (byteLength pre + byteLength t.written)
      (((t.attributesAt (byteLength pre)).filter (!own ·.name)).map (·.span))
      (((t.attributesAt (byteLength pre)).filter (own ·.name)).map
        (Attribute.removal template)) := by
  obtain ⟨out, herased⟩ := erased_all ht htemplate
  have hbounds : ∀ a ∈ t.attributesAt (byteLength pre),
      byteLength pre ≤ (a.removal template).start ∧
        (a.removal template).stop ≤ byteLength pre + byteLength t.written := by
    intro a ha
    have := herased.spliced.bounds (List.mem_map_of_mem (List.mem_map_of_mem ha))
    exact ⟨this.1, this.2.2⟩
  have hon : ∀ a ∈ t.attributesAt (byteLength pre), a.span.OnBoundaries template := by
    rw [htemplate]
    exact onBoundaries_attributesAt pre post t
  constructor
  · rw [List.forall_mem_map]
    intro a ha
    have ha := (List.mem_filter.1 ha).1
    have hle := span_le_of_mem_locateAttributes a ha
    exact ⟨Nat.le_trans (hbounds a ha).1 (withBlanks_removal hle (hon a ha)).start_le, hle,
      (hbounds a ha).2, hon a ha⟩
  · rw [List.forall_mem_map]
    exact fun a ha => hbounds a (List.mem_filter.1 ha).1
  · rw [List.forall_mem_map]
    intro a ha
    rw [List.forall_mem_map]
    intro b hb
    obtain ⟨ha, hstays⟩ := List.mem_filter.1 ha
    obtain ⟨hb, hgoes⟩ := List.mem_filter.1 hb
    -- two attributes, one that stays and one that goes, are not the same
    have hne : a ≠ b := by
      rintro rfl
      rw [hgoes] at hstays
      cases hstays
    have hpair := List.pairwise_map.1 (disjoint_of_apart herased.apart.2)
    have : Std.Symm fun a b : Attribute =>
        (a.removal template).isDisjoint (b.removal template) = true :=
      ⟨fun _ _ => Span.isDisjoint_symm⟩
    have hdisjoint := Span.isDisjoint_iff.1 (hpair.forall ha hb hne)
    have hle := span_le_of_mem_locateAttributes a ha
    have := (withBlanks_removal hle (hon a ha)).start_le
    have hstop : (a.removal template).stop = a.span.stop := rfl
    exact Span.isDisjoint_iff.2 (by omega)

/-! ## Parts -/

theorem separate_rawContent (inner : String → Bool) (pre body post : List Char) :
    Separate (pre ++ (body ++ post)) (byteLength pre) (byteLength pre + byteLength body)
      (stayingIn inner (Assembly.rawContent (byteLength pre) body)) [] := by
  unfold Assembly.rawContent
  split
  · exact .nil _ _
  · exact .single (Nat.le_refl _) (Nat.le_add_right ..) (Nat.le_refl _)
      (onBoundaries_spanAt pre body post)

mutual

/-- **A part**: what stays in it is apart from what goes with the attributes it loses. -/
theorem separate_part (inner : String → Bool) :
    ∀ (q : Part) (own : String → Bool) {pre post : List Char}, TagsSound q.tokens →
      template = pre ++ (q.written ++ post) →
      Separate template (byteLength pre) (byteLength pre + byteLength q.written)
        ((q.nodeAt (byteLength pre)).staying inner own)
        (((q.nodeAt (byteLength pre)).named inner own).map (Attribute.removal template))
  | .text body, own, pre, post, _, htemplate => by
    rw [Part.written_text] at htemplate ⊢
    subst htemplate
    exact .single (Nat.le_refl _) (Nat.le_add_right ..) (Nat.le_refl _)
      (onBoundaries_spanAt pre body post)
  | .comment body, own, pre, post, _, htemplate => by
    rw [Part.written_comment] at htemplate ⊢
    subst htemplate
    exact .single (Nat.le_refl _) (Nat.le_add_right ..) (Nat.le_refl _)
      (onBoundaries_spanAt pre body post)
  | .single tag, own, pre, post, hs, htemplate => by
    rw [Part.written_single] at htemplate ⊢
    have htag := separate_tag own hs.openTag htemplate
    rw [Part.nodeAt, Node.staying, Node.named]
    simpa [stayingIn, namedInside, OpenTag.shellAt] using htag
  | .raw tag body close, own, pre, post, hs, htemplate => by
    have ht := (hs (.raw tag body close) (List.mem_singleton.2 rfl) rfl).1
    rw [Part.written_raw, List.append_assoc] at htemplate
    have htag := separate_tag own ht htemplate
    have hbody := separate_rawContent inner (pre ++ tag.written) body (close.written ++ post)
    rw [byteLength_append, List.append_assoc, ← List.append_assoc body, ← htemplate] at hbody
    have hinside := htag.append hbody (Nat.le_add_right ..) (Nat.le_add_right ..)
    rw [Part.nodeAt, Node.staying, Node.named, namedInside_rawContent, List.map_append,
      Part.written_raw, byteLength_append, byteLength_append]
    exact hinside.widen (by omega) (by omega)
  | .element tag children close, own, pre, post, hs, htemplate => by
    rw [Part.written_element, List.append_assoc, List.append_assoc] at htemplate
    have htemplate' : template = (pre ++ tag.written) ++
        (writtenOf children ++ (close.written ++ post)) := by
      rw [htemplate, List.append_assoc]
    have htag := separate_tag own hs.openTag htemplate
    have hchildren := separate_parts inner children hs.children htemplate'
    rw [byteLength_append] at hchildren
    have hinside := htag.append hchildren (Nat.le_add_right ..) (Nat.le_add_right ..)
    rw [Part.nodeAt, Node.staying, Node.named, List.map_append, Part.written_element,
      byteLength_append, byteLength_append]
    exact hinside.widen (by omega) (by omega)

theorem separate_parts (inner : String → Bool) :
    ∀ (qs : List Part) {pre post : List Char}, TagsSound (tokensOf qs) →
      template = pre ++ (writtenOf qs ++ post) →
      Separate template (byteLength pre) (byteLength pre + byteLength (writtenOf qs))
        (stayingIn inner (nodesAt (byteLength pre) qs))
        ((namedInside inner (nodesAt (byteLength pre) qs)).map (Attribute.removal template))
  | [], pre, post, _, _ => .nil _ _
  | q :: qs, pre, post, hs, htemplate => by
    rw [writtenOf_cons, List.append_assoc] at htemplate
    have htemplate' : template = (pre ++ q.written) ++ (writtenOf qs ++ post) := by
      rw [htemplate, List.append_assoc]
    have hfirst := separate_part inner q inner hs.left htemplate
    have hbehind := separate_parts inner qs hs.right htemplate'
    rw [byteLength_append] at hbehind
    rw [nodesAt_cons, stayingIn, namedInside_cons, List.map_append, writtenOf_cons,
      byteLength_append, ← Nat.add_assoc]
    exact hfirst.append hbehind (Nat.le_add_right ..) (Nat.le_add_right ..)

end

/-! ## What is left -/

/-- Some attributes are taken out of a part of a template to the byte: `out` is left of the part,
and with it all that is in the places `kept`. -/
structure TakenOut (template : List Char) (part : Span) (lost : List Attribute) (kept : List Span)
    (out : String) : Prop where
  /-- What goes with an attribute is its place and the blanks in front of it. -/
  blanks : ∀ a ∈ lost, a.span.WithBlanks template (a.removal template)
  /-- No two attributes have a byte in common with what goes with them. -/
  apart : (lost.map (Attribute.removal template)).Pairwise fun r s => r.isDisjoint s = true
  within : ∀ r ∈ lost.map (Attribute.removal template), r.start < r.stop ∧ r.isWithin part = true
  /-- Nothing is passed over. -/
  all : (leftOut part (lost.map (Attribute.removal template))).Perm
    (lost.map (Attribute.removal template))
  /-- What is left are the characters of the part outside of these ranges. -/
  text : out = String.ofList (charsOutside template part (lost.map (Attribute.removal template)))
  /-- What stays is copied, between what is left in front of it and what is left behind it. -/
  keeps : ∀ s ∈ kept, s.isWithin part = true ∧
    out = String.ofList
      (charsOutside template ⟨part.start, s.start⟩ (lost.map (Attribute.removal template)) ++
        (s.cut template ++
          charsOutside template ⟨s.stop, part.stop⟩ (lost.map (Attribute.removal template))))

/-- **Attributes taken out**, whatever the order in which they are given: what goes with them is
erased, and what stays is apart from it. -/
theorem takenOut_of_separate {pre cs post out : List Char} {lost : List Attribute}
    {kept ds : List Span} (htemplate : template = pre ++ (cs ++ post))
    (hblanks : ∀ a ∈ lost, a.span.WithBlanks template (a.removal template))
    (hperm : (lost.map (Attribute.removal template)).Perm ds)
    (herased : Erased (byteLength pre) cs ds out)
    (hseparate : Separate template (byteLength pre) (byteLength pre + byteLength cs) kept ds) :
    TakenOut template (spanAt (byteLength pre) cs) lost kept
      (partWithout template (spanAt (byteLength pre) cs)
        (lost.map (Attribute.removal template))) := by
  have hpart : (spanAt (byteLength pre) cs).OnBoundaries template := by
    rw [htemplate]
    exact onBoundaries_spanAt pre cs post
  have hne : ∀ r ∈ lost.map (Attribute.removal template), r.start < r.stop := fun r hr =>
    herased.nonempty r (hperm.mem_iff.1 hr)
  have hranges : ∀ r ∈ lost.map (Attribute.removal template), r.OnBoundaries template :=
    List.forall_mem_map.2 fun a ha => (hblanks a ha).onBoundaries
  have hall : leftOut (spanAt (byteLength pre) cs) (lost.map (Attribute.removal template)) = ds :=
    leftOut_eq hperm herased.apart.2 herased.nonempty hseparate.goes
  have htext : partWithout template (spanAt (byteLength pre) cs)
      (lost.map (Attribute.removal template)) = String.ofList (charsOutside template
        (spanAt (byteLength pre) cs) (lost.map (Attribute.removal template))) := by
    rw [partWithout_eq (Nat.le_add_right ..) hpart (fun r hr => Nat.le_of_lt (hne r hr)) hranges,
      hall, charsOutside_perm hperm]
  refine ⟨hblanks, ?_, fun r hr => ⟨hne r hr, ?_⟩, hall ▸ hperm.symm, htext, fun s hs => ?_⟩
  · exact (disjoint_of_apart herased.apart.2).perm hperm.symm Span.isDisjoint_symm
  · exact Span.isWithin_iff.2 (hseparate.goes r (hperm.mem_iff.1 hr))
  · obtain ⟨hlo, hle, hhi, hb⟩ := hseparate.stays s hs
    have hclear : charsOutside template s (lost.map (Attribute.removal template)) =
        s.cut template := by
      refine charsOutside_of_clear hb hle fun r hr => ?_
      exact (Span.isDisjoint_iff.1 (hseparate.apart s hs r (hperm.mem_iff.1 hr))).symm
    rw [htext, charsOutside_around hlo hle hhi, hclear]
    exact ⟨Span.isWithin_iff.2 ⟨hlo, hhi⟩, rfl⟩

/-! ## Boundaries and slots -/

/-- The attributes that an element loses in its boundary: all markers on it and inside it, and its
own conditions. -/
def lostInBoundary (e : Element) : List Attribute :=
  ((e :: e.descendants).flatMap fun d => d.attributes.filter (isMarker ·.name)) ++
    e.attributes.filter (isCondition ·.name)

/-- The attributes that the fallback of a slot loses: the list keys inside the slot. -/
def lostInFallback (e : Element) : List Attribute :=
  e.descendants.flatMap fun d => d.attributes.filter (isItemKey ·.name)

theorem exists_of_mem_lostInBoundary {e : Element} {a : Attribute} (h : a ∈ lostInBoundary e) :
    ∃ d ∈ e :: e.descendants, a ∈ d.attributes := by
  rcases List.mem_append.1 h with h | h
  · obtain ⟨d, hd, ha⟩ := List.mem_flatMap.1 h
    exact ⟨d, hd, (List.mem_filter.1 ha).1⟩
  · exact ⟨e, List.mem_cons_self .., (List.mem_filter.1 h).1⟩

theorem withBlanks_of_parse {nodes : List Node} (h : parse template = .ok nodes) {e : Element}
    (he : e ∈ allElements nodes) {d : Element} (hd : d ∈ e :: e.descendants) {a : Attribute}
    (ha : a ∈ d.attributes) : a.span.WithBlanks template (a.removal template) := by
  have hmem : d ∈ allElements nodes := by
    rcases List.mem_cons.1 hd with rfl | hd
    · exact he
    · rw [allElements_eq] at he ⊢
      exact descendants_subset nodes e he hd
  obtain ⟨pre, q, post, hpart⟩ := exists_part_of_mem h hmem
  obtain ⟨tag, closeTag, rest, -, htemplate, hshell⟩ := hpart.exists_tag
  rw [hshell] at ha
  refine withBlanks_removal (span_le_of_mem_locateAttributes a ha) ?_
  rw [htemplate]
  exact onBoundaries_attributesAt pre rest tag a ha

/-- **The body of a boundary** is the element's text without what goes with the attributes that the
element loses. -/
theorem takenOut_boundaryBody {nodes : List Node} (h : parse template = .ok nodes) {e : Element}
    (he : e ∈ allElements nodes) :
    TakenOut template e.span (lostInBoundary e)
      ((Node.element e.toShell e.children).staying isMarker leavesElement)
      (boundaryBody template e) := by
  obtain ⟨pre, q, post, hpart⟩ := exists_part_of_mem h he
  have hs := hpart.readable.tagsSound
  have herased := erased_strip isMarker q leavesElement hs hpart.text (.nil _ [])
  have hseparate := separate_part isMarker q leavesElement hs hpart.text
  rw [List.append_nil, List.append_nil, List.append_nil, hpart.node] at herased
  rw [hpart.node] at hseparate
  have hblanks : ∀ a ∈ lostInBoundary e, a.span.WithBlanks template (a.removal template) := by
    intro a ha
    obtain ⟨d, hd, ha⟩ := exists_of_mem_lostInBoundary ha
    exact withBlanks_of_parse h he hd ha
  rw [boundaryBody, hpart.span_eq]
  exact takenOut_of_separate hpart.text hblanks (boundaryRemovals_perm template e) herased hseparate

/-- **The fallback of a slot** is the text between the slot's tags without what goes with the list
keys. -/
theorem takenOut_fallbackText {nodes : List Node} (h : parse template = .ok nodes) {e : Element}
    (he : e ∈ allElements nodes) (hslot : kindOf e.toShell = .slot) {inner : Span}
    (hinner : e.inner? = some inner) :
    TakenOut template inner (lostInFallback e) (stayingIn isItemKey e.children)
      (fallbackText template e inner) := by
  obtain ⟨pre, q, post, hpart⟩ := exists_part_of_mem h he
  obtain ⟨tag, children, close, rfl, htext, rfl, hchildren⟩ :=
    exists_children_of_slot hpart (kindOf_eq_slot_iff.1 hslot) hinner
  have hs : TagsSound (tokensOf children) := hpart.readable.tagsSound.children
  have herased := erased_stripAll isItemKey children hs htext (.nil _ [])
  have hseparate := separate_parts isItemKey children hs htext
  rw [List.append_nil, List.append_nil, List.append_nil, hchildren] at herased
  rw [hchildren] at hseparate
  have hblanks : ∀ a ∈ lostInFallback e, a.span.WithBlanks template (a.removal template) := by
    intro a ha
    obtain ⟨d, hd, ha⟩ := List.mem_flatMap.1 ha
    exact withBlanks_of_parse h he (List.mem_cons_of_mem _ hd) (List.mem_filter.1 ha).1
  have hlost : lostInFallback e = namedInside isItemKey e.children := by
    rw [lostInFallback, descendants_eq]
    rfl
  refine takenOut_of_separate htext hblanks ?_ herased hseparate
  rw [hlost]

/-- **Stripping is exact to the byte**, in every template that can be read. The body of an element's
boundary and the fallback of a slot with children are copied around the attributes that are lost and
the blanks in front of these; none of them is passed over, and nothing else is missing. -/
theorem takenOut_of_parse {nodes : List Node} (h : parse template = .ok nodes) :
    (∀ e ∈ allElements nodes,
      TakenOut template e.span (lostInBoundary e)
        ((Node.element e.toShell e.children).staying isMarker leavesElement)
        (boundaryBody template e) ∧
      ∀ id base root text target, wrapBoundary template id base root e = .ok (text, target) →
        ∃ marker, markerExpression e.toShell = .ok marker ∧
          text = boundaryOpening template id base root marker e.toShell ++
            boundaryBody template e ++ closing boundaryComponent) ∧
    (∀ e ∈ allElements nodes, kindOf e.toShell = .slot → e.children ≠ [] →
      ∃ inner, e.inner? = some inner ∧
        TakenOut template inner (lostInFallback e) (stayingIn isItemKey e.children)
          (fallbackText template e inner) ∧
        ∀ text name, wrapSlot template e = .ok (text, name) →
          ∃ data, slotData e.toShell = .ok data ∧
            text = slotOpening template e.toShell data ++ ("<template #fallback>" ++
              repeated data.repetition (fallbackText template e inner) ++ closing "template") ++
              closing slotComponent) := by
  refine ⟨fun e he => ⟨takenOut_boundaryBody h he, fun id base root text target hwrap => ?_⟩,
    fun e he hslot hchildren => ?_⟩
  · exact (wrapBoundary_eq_ok hwrap).2
  · have hinner : ∃ inner, e.inner? = some inner := by
      obtain ⟨pre, q, post, hpart⟩ := exists_part_of_mem h he
      rw [← Option.isSome_iff_exists, ← Option.ne_none_iff_isSome]
      exact fun hnone => hchildren (children_eq_nil_of_inner? hpart hnone)
    obtain ⟨inner, hinner⟩ := hinner
    refine ⟨inner, hinner, takenOut_fallbackText h he hslot hinner, fun text name hwrap => ?_⟩
    obtain ⟨-, data, hdata, htext⟩ := wrapSlot_eq_opening hwrap
    rw [fallbackSection_of_children hinner hchildren] at htext
    exact ⟨data, hdata, htext⟩

end

/-- A template in which the names of what is lost stand in texts and values too. -/
def wordsTemplate : List Char :=
  ("<p v-if=a\n island-client title='island-client'>island-client" ++
    "<slot><b :a=key key= >key</b></slot></p>").toList

/-- The slot in the template; the value of its list key is empty, without quotation marks. -/
def wordsSlot : Element where
  name := "slot"
  attributes := []
  openTag := ⟨60, 66⟩
  closeTag := some ⟨89, 96⟩
  children := [.element ⟨"b", [⟨":a", some "key", ⟨69, 75⟩⟩, ⟨"key", some "", ⟨76, 81⟩⟩], ⟨66, 82⟩,
    some ⟨85, 89⟩⟩ [.text ⟨82, 85⟩]]

/-- The marked element around it. -/
def wordsParagraph : Element where
  name := "p"
  attributes := [⟨"v-if", some "a", ⟨3, 9⟩⟩, ⟨"island-client", none, ⟨11, 24⟩⟩,
    ⟨"title", some "island-client", ⟨25, 46⟩⟩]
  openTag := ⟨0, 47⟩
  closeTag := some ⟨96, 100⟩
  children := [.text ⟨47, 60⟩, .element wordsSlot.toShell wordsSlot.children]

/-- The same words elsewhere are kept. -/
theorem takenOut_of_parse_words :
    ∃ nodes, parse wordsTemplate = .ok nodes ∧ wordsParagraph ∈ allElements nodes ∧
      wordsSlot ∈ allElements nodes ∧
      boundaryBody wordsTemplate wordsParagraph =
        "<p title='island-client'>island-client<slot><b :a=key key= >key</b></slot></p>" ∧
      ∃ inner, wordsSlot.inner? = some inner ∧
        fallbackText wordsTemplate wordsSlot inner = "<b :a=key>key</b>" := by
  have hparse : parse wordsTemplate =
      .ok [.element wordsParagraph.toShell wordsParagraph.children] := by decide +kernel
  have hall : allElements [.element wordsParagraph.toShell wordsParagraph.children] =
      [wordsParagraph, wordsSlot, ⟨⟨"b", [⟨":a", some "key", ⟨69, 75⟩⟩,
        ⟨"key", some "", ⟨76, 81⟩⟩], ⟨66, 82⟩, some ⟨85, 89⟩⟩, [.text ⟨82, 85⟩]⟩] := by
    rw [allElements_eq]
    rfl
  have hparagraph : wordsParagraph ∈
      allElements [.element wordsParagraph.toShell wordsParagraph.children] := by
    rw [hall]
    exact List.mem_cons_self ..
  have hslot : wordsSlot ∈
      allElements [.element wordsParagraph.toShell wordsParagraph.children] := by
    rw [hall]
    exact List.mem_cons_of_mem _ (List.mem_cons_self ..)
  obtain ⟨hboundaries, hslots⟩ := takenOut_of_parse hparse
  obtain ⟨inner, hinner, hfallback, -⟩ := hslots _ hslot (by decide) (List.cons_ne_nil _ _)
  refine ⟨_, hparse, hparagraph, hslot, ?_, inner, hinner, ?_⟩
  · rw [(hboundaries _ hparagraph).1.text, lostInBoundary, descendants_eq]
    decide +kernel
  · obtain rfl := Option.some.inj hinner
    rw [hfallback.text, lostInFallback, descendants_eq]
    decide +kernel

end Islands
