import Islands.Proofs.Markup.Preorder
import Islands.Proofs.Markup.TokenForm
import Islands.Proofs.Text.Offsets

/-!
# The tree tiles the template

The spans of the nodes at each level stand side by side and leave nothing out (`Consecutive`): those
at the top cover the template, those inside an element what stands between its tags
(`Element.Tiles`). Both follow from the parts that a template is written with, since a part that
stands behind `pre` is the node at the offset `byteLength pre`.

* `consecutive_nodesAt`, `textsApart_nodesAt`: one level of parts.
* `tiles_nodesAt`: all levels, by induction on the parts.
* `tiling_of_parse`: the tree of every template that can be read.
-/

namespace Islands.Markup

/-! ## Spans side by side -/

/-- Spans that are not empty, each of which starts where the one before it ends, from `start` to
`stop`. -/
def Consecutive (start stop : Nat) : List Span → Prop
  | [] => start = stop
  | s :: rest => s.start = start ∧ start < s.stop ∧ Consecutive s.stop stop rest

/-- No text is next to another. -/
def TextsApart : List Node → Prop
  | .text _ :: .text _ :: _ => False
  | _ :: rest => TextsApart rest
  | [] => True

/-- A closing tag of an element of the given name. -/
def IsClosingTag (name : String) (cs : List Char) : Prop :=
  ∃ close : CloseTag, cs = close.written ∧ close.Sound ∧ sameLetters close.name name.toList = true

/-- An element covers its part of the template: its tags stand at its ends, and its children
between them. -/
structure Element.Tiles (cs : List Char) (e : Element) : Prop where
  opens : e.openTag.start = e.span.start ∧ e.openTag.start < e.openTag.stop
  alone : e.closeTag = none → e.children = [] ∧ e.span = e.openTag
  closes : ∀ c, e.closeTag = some c → c.start < c.stop ∧ c.stop = e.span.stop ∧
    IsClosingTag e.name (c.cut cs) ∧
    Consecutive e.openTag.stop c.start (e.children.map Node.span)
  apart : TextsApart e.children
  boundaries : e.openTag.OnBoundaries cs ∧ (∀ c, e.closeTag = some c → c.OnBoundaries cs) ∧
    (∀ a ∈ e.attributes, a.span.OnBoundaries cs) ∧ ∀ n ∈ e.children, n.span.OnBoundaries cs

/-- A tree covers the template, at every depth. -/
structure Tiling (cs : List Char) (nodes : List Node) : Prop where
  covers : Consecutive 0 (byteLength cs) (nodes.map Node.span)
  apart : TextsApart nodes
  boundaries : ∀ n ∈ nodes, n.span.OnBoundaries cs
  elements : ∀ e ∈ allElements nodes, e.Tiles cs

/-! ## The place of a part -/

theorem onBoundaries_spanAt (pre w post : List Char) :
    (spanAt (byteLength pre) w).OnBoundaries (pre ++ (w ++ post)) :=
  Span.onBoundaries_append pre w post

/-- A span between characters covers a piece of the template. -/
theorem exists_eq_spanAt {cs : List Char} {s : Span} (hb : s.OnBoundaries cs)
    (hle : s.start ≤ s.stop) :
    ∃ pre w post, cs = pre ++ (w ++ post) ∧ s = spanAt (byteLength pre) w := by
  obtain ⟨pre, y, rfl, hpre⟩ := isBoundary_iff.1 hb.1
  obtain ⟨w, post, rfl, hw⟩ := exists_division hb.2 (by omega)
  refine ⟨pre, w, post, rfl, ?_⟩
  cases s
  simp only [spanAt, Span.mk.injEq]
  exact ⟨hpre.symm, hw.symm⟩

theorem lt_stop_spanAt (offset : Nat) {w : List Char} (h : w ≠ []) :
    (spanAt offset w).start < (spanAt offset w).stop :=
  Nat.lt_add_of_pos_right (byteLength_pos h)

theorem cut_spanAt (pre w post : List Char) :
    (spanAt (byteLength pre) w).cut (pre ++ (w ++ post)) = w :=
  Span.cut_append pre w post

theorem Part.span_nodeAt (offset : Nat) (p : Part) :
    (p.nodeAt offset).span = spanAt offset p.written := by
  cases p <;>
    simp [Part.nodeAt, Node.span, Shell.span, OpenTag.shellAt, spanAt, Nat.add_assoc]

theorem onBoundaries_locateAttributes (pre post : List Char) (as : List WrittenAttribute) :
    ∀ a ∈ locateAttributes (byteLength pre) as,
      a.span.OnBoundaries (pre ++ (writtenAttributes as ++ post)) := by
  induction as generalizing pre with
  | nil => intro a ha; cases ha
  | cons w as ih =>
    intro a ha
    rcases List.mem_cons.1 ha with rfl | ha
    · have := onBoundaries_spanAt (pre ++ w.lead) w.core (writtenAttributes as ++ post)
      simpa [spanAt, writtenAttributes_cons, WrittenAttribute.written] using this
    · have := ih (pre ++ w.written) a (by simpa [WrittenAttribute.written, Nat.add_assoc] using ha)
      simpa [writtenAttributes_cons, WrittenAttribute.written] using this

theorem onBoundaries_attributesAt (pre post : List Char) (t : OpenTag) :
    ∀ a ∈ t.attributesAt (byteLength pre),
      a.span.OnBoundaries (pre ++ (t.written ++ post)) := by
  intro a ha
  have := onBoundaries_locateAttributes (pre ++ '<' :: t.name)
    (tagTail t.trail t.selfClosing ++ post) t.attributes a
    (by simpa [OpenTag.attributesAt, Nat.add_assoc, show '<'.utf8Size = 1 from rfl] using ha)
  simpa [OpenTag.written_eq, OpenTag.inside] using this

/-! ## One level -/

theorem Readable.left {ts us : List Token} (h : Readable (ts ++ us)) : Readable ts := by
  induction ts with
  | nil => trivial
  | cons t ts ih =>
    cases ts with
    | nil =>
      cases us with
      | nil => exact h
      | cons u us => exact h.1.readable
    | cons u ts => exact ⟨h.1, h.2.1, ih h.2.2⟩

theorem Readable.right {ts us : List Token} (h : Readable (ts ++ us)) : Readable us := by
  induction ts with
  | nil => exact h
  | cons t ts ih => exact ih h.tail

theorem Part.written_ne_nil {p : Part} (h : Readable p.tokens) : p.written ≠ [] := by
  cases p with
  | text body =>
    rw [Part.written_text]
    exact h.written_ne_nil
  | comment body =>
    rw [Part.written_comment]
    exact h.written_ne_nil
  | single tag => simp [tag.written_ne_nil]
  | raw tag body close => simp [tag.written_ne_nil]
  | element tag children close => simp [tag.written_ne_nil]

/-- **One level of parts** has its spans side by side. -/
theorem consecutive_nodesAt {ps : List Part} (h : Readable (tokensOf ps)) (offset : Nat) :
    Consecutive offset (offset + byteLength (writtenOf ps))
      ((nodesAt offset ps).map Node.span) := by
  induction ps generalizing offset with
  | nil => simp [Consecutive]
  | cons p ps ih =>
    rw [tokensOf_cons] at h
    have hpos := byteLength_pos (Part.written_ne_nil h.left)
    have ih := ih h.right (offset + byteLength p.written)
    rw [nodesAt_cons, List.map_cons, Part.span_nodeAt, writtenOf_cons, byteLength_append,
      ← Nat.add_assoc]
    exact ⟨rfl, Nat.lt_add_of_pos_right hpos, ih⟩

theorem textsApart_nodesAt {ps : List Part} (h : Readable (tokensOf ps)) (offset : Nat) :
    TextsApart (nodesAt offset ps) := by
  induction ps generalizing offset with
  | nil => trivial
  | cons p ps ih =>
    have ih := ih (by rw [tokensOf_cons] at h; exact h.right) (offset + byteLength p.written)
    cases p with
    | text body =>
      cases ps with
      | nil => trivial
      | cons q ps =>
        cases q with
        | text body' => cases h.2.1 rfl
        | _ => exact ih
    | _ => exact ih

theorem onBoundaries_nodesAt (pre post : List Char) (ps : List Part) :
    ∀ n ∈ nodesAt (byteLength pre) ps, n.span.OnBoundaries (pre ++ (writtenOf ps ++ post)) := by
  induction ps generalizing pre with
  | nil => intro n hn; cases hn
  | cons p ps ih =>
    intro n hn
    rcases List.mem_cons.1 hn with rfl | hn
    · rw [Part.span_nodeAt, writtenOf_cons, List.append_assoc]
      exact onBoundaries_spanAt pre p.written _
    · have := ih (pre ++ p.written) n (by simpa using hn)
      simpa using this

/-! ## All levels -/

theorem consecutive_rawContent (offset : Nat) (body : List Char) :
    Consecutive offset (offset + byteLength body)
      ((Assembly.rawContent offset body).map Node.span) := by
  cases body with
  | nil => simp [Assembly.rawContent, Consecutive]
  | cons c body =>
    have := byteLength_pos (List.cons_ne_nil c body)
    simp only [Assembly.rawContent, List.isEmpty_cons, Bool.false_eq_true, if_false, List.map_cons,
      List.map_nil, Consecutive, Node.span, spanAt, and_true, true_and]
    omega

theorem textsApart_rawContent (offset : Nat) (body : List Char) :
    TextsApart (Assembly.rawContent offset body) := by
  unfold Assembly.rawContent
  split <;> trivial

theorem onBoundaries_rawContent (pre body post : List Char) :
    ∀ n ∈ Assembly.rawContent (byteLength pre) body,
      n.span.OnBoundaries (pre ++ (body ++ post)) := by
  intro n hn
  unfold Assembly.rawContent at hn
  split at hn
  · cases hn
  · obtain rfl := List.mem_singleton.1 hn
    exact onBoundaries_spanAt pre body post

theorem elementsIn_rawContent (offset : Nat) (body : List Char) :
    elementsIn (Assembly.rawContent offset body) = [] := by
  unfold Assembly.rawContent
  split <;> rfl

/-- **An element between its tags** tiles its part if its children cover what is between them. -/
theorem tiles_of_tags {pre post inner : List Char} {tag : OpenTag} {close : CloseTag}
    {children : List Node} (hclose : close.Sound)
    (hname : sameLetters close.name tag.name = true)
    (hcover : Consecutive (byteLength pre + byteLength tag.written)
      (byteLength pre + byteLength tag.written + byteLength inner) (children.map Node.span))
    (hapart : TextsApart children)
    (hbound : ∀ n ∈ children,
      n.span.OnBoundaries ((pre ++ tag.written) ++ (inner ++ (close.written ++ post)))) :
    Element.Tiles (pre ++ (tag.written ++ (inner ++ (close.written ++ post))))
      ⟨tag.shellAt (byteLength pre) (some (spanAt
        (byteLength pre + byteLength tag.written + byteLength inner) close.written)),
        children⟩ := by
  have hopen := onBoundaries_spanAt pre tag.written (inner ++ (close.written ++ post))
  have hattrs := onBoundaries_attributesAt pre (inner ++ (close.written ++ post)) tag
  have hcl := onBoundaries_spanAt (pre ++ (tag.written ++ inner)) close.written post
  have hcut := cut_spanAt (pre ++ (tag.written ++ inner)) close.written post
  simp only [byteLength_append, List.append_assoc, ← Nat.add_assoc] at hcl hcut hbound
  refine ⟨⟨rfl, lt_stop_spanAt _ tag.written_ne_nil⟩, fun h => (nomatch h), ?_, hapart, hopen, ?_,
    hattrs, hbound⟩
  · rintro c ⟨⟩
    refine ⟨lt_stop_spanAt _ close.written_ne_nil, rfl, ⟨close, hcut, hclose, ?_⟩, hcover⟩
    simpa [OpenTag.shellAt] using hname
  · rintro c ⟨⟩
    exact hcl

mutual

theorem tiles_nodeAt (pre post : List Char) :
    ∀ p : Part, p.Paired → Readable p.tokens →
      ∀ e ∈ (p.nodeAt (byteLength pre)).elements, e.Tiles (pre ++ (p.written ++ post))
  | .text _, _, _ => fun _ he => nomatch he
  | .comment _, _, _ => fun _ he => nomatch he
  | .single tag, _, _ => by
    intro e he
    obtain rfl := List.mem_singleton.1 he
    rw [Part.written_single]
    have hopen := onBoundaries_spanAt pre tag.written post
    have hattrs := onBoundaries_attributesAt pre post tag
    exact ⟨⟨rfl, lt_stop_spanAt _ tag.written_ne_nil⟩, fun _ => ⟨rfl, rfl⟩,
      fun c hc => (nomatch hc), trivial, hopen, fun c hc => (nomatch hc), hattrs,
      fun n hn => (nomatch hn)⟩
  | .raw tag body close, hp, hr => by
    intro e he
    have hraw := (hr.sound (List.mem_singleton.2 rfl) rfl)
    rw [Part.nodeAt, Node.elements_element, elementsIn_rawContent] at he
    obtain rfl := List.mem_singleton.1 he
    have hbound := onBoundaries_rawContent (pre ++ tag.written) body (close.written ++ post)
    rw [byteLength_append] at hbound
    rw [Part.written_raw, List.append_assoc, List.append_assoc]
    exact tiles_of_tags hraw.2.2.2.1 hp.2.2 (consecutive_rawContent _ body)
      (textsApart_rawContent _ body) hbound
  | .element tag children close, hp, hr => by
    intro e he
    -- the tokens between the two tags are those of the children
    have hr' : Readable (tokensOf children ++ [.closeTag close]) := hr.tail
    have hsound : (Token.closeTag close).Sound := hr'.right.sound (List.mem_singleton.2 rfl) rfl
    have hbound := onBoundaries_nodesAt (pre ++ tag.written) (close.written ++ post) children
    rw [byteLength_append] at hbound
    rw [Part.written_element, List.append_assoc, List.append_assoc]
    rw [Part.nodeAt, Node.elements_element] at he
    rcases List.mem_cons.1 he with rfl | he
    · exact tiles_of_tags hsound.sound (sameLetters_comm _ _ ▸ hp.2.1)
        (consecutive_nodesAt hr'.left _) (textsApart_nodesAt hr'.left _) hbound
    · have := tiles_nodesAt (pre ++ tag.written) (close.written ++ post) children hp.2.2 hr'.left e
        (by rw [byteLength_append]; exact he)
      rwa [List.append_assoc] at this

theorem tiles_nodesAt (pre post : List Char) :
    ∀ ps : List Part, PairedAll ps → Readable (tokensOf ps) →
      ∀ e ∈ elementsIn (nodesAt (byteLength pre) ps), e.Tiles (pre ++ (writtenOf ps ++ post))
  | [], _, _ => fun _ he => nomatch he
  | p :: ps, hp, hr => by
    intro e he
    rw [tokensOf_cons] at hr
    rw [nodesAt_cons, elementsIn_cons] at he
    rw [writtenOf_cons, List.append_assoc]
    rcases List.mem_append.1 he with he | he
    · exact tiles_nodeAt pre (writtenOf ps ++ post) p hp.1 hr.left e he
    · have := tiles_nodesAt (pre ++ p.written) post ps hp.2 hr.right e
        (by rw [byteLength_append]; exact he)
      rwa [List.append_assoc] at this

end

/-- Parts that can be read tile what they are written as. -/
theorem tiling_nodesAt {ps : List Part} (hpair : PairedAll ps) (hread : Readable (tokensOf ps)) :
    Tiling (writtenOf ps) (nodesAt 0 ps) := by
  have hbound := onBoundaries_nodesAt [] [] ps
  have htiles := tiles_nodesAt [] [] ps hpair hread
  simp only [byteLength_nil, List.nil_append, List.append_nil] at hbound htiles
  refine ⟨?_, textsApart_nodesAt hread 0, hbound, ?_⟩
  · have := consecutive_nodesAt hread 0
    rwa [Nat.zero_add] at this
  · rw [allElements_eq]
    exact htiles

/-- **The tree of a template tiles it**, whatever the template. -/
theorem tiling_of_parse {cs : List Char} {nodes : List Node} (h : parse cs = .ok nodes) :
    Tiling cs nodes := by
  obtain ⟨ps, hpair, hread, rfl, rfl⟩ := parse_eq_ok_iff.1 h
  exact tiling_nodesAt hpair hread

/-- A template with a stray `<` in an interpolation, a closing tag in another case, an element
without content and raw content. -/
theorem tiling_of_paragraph :
    Tiling "<P>é {{ a<b }}<br></p ><style>i</style>".toList
      [.element ⟨"P", [], ⟨0, 3⟩, some ⟨19, 24⟩⟩
        [.text ⟨3, 15⟩, .element ⟨"br", [], ⟨15, 19⟩, none⟩ []],
      .element ⟨"style", [], ⟨24, 31⟩, some ⟨32, 40⟩⟩ [.text ⟨31, 32⟩]] :=
  tiling_of_parse (by decide +kernel)

end Islands.Markup
