import Islands.Proofs.Markup.Tiling

/-!
# What markup means

The outline of a node is what the node means wherever it stands: texts and comments by their
characters, elements by their name, the names and values of their attributes, whether they have a
closing tag, and what is inside them (`Node.outline`). It can be read off the part that the node
was written as (`outline_nodeAt`).

* `exists_part_of_mem`: every element of a template is the node of a part of it.
* `Element.IsPart.exists_tag`: the tag that an element of a template is written with.
* `spans_of_parse`: the place of an element is that of the characters it was read from.
-/

namespace Islands.Markup

/-! ## Outlines -/

/-- What a node means, without the places. -/
inductive Outline
  | text (body : List Char)
  | comment (body : List Char)
  /-- An element; its attributes are names and values, `closed` tells a closing tag. -/
  | element (name : String) (attributes : List (String × Option String)) (closed : Bool)
      (children : List Outline)
deriving Repr

/-- The name and the value of an attribute. -/
def Attribute.meaning (a : Attribute) : String × Option String := (a.name, a.value)

mutual

/-- What a node of the text `cs` means. -/
def Node.outline (cs : List Char) : Node → Outline
  | .text span => .text (span.cut cs)
  | .comment span => .comment (span.cut cs)
  | .element shell children =>
    .element shell.name (shell.attributes.map Attribute.meaning) shell.closeTag.isSome
      (outlines cs children)

/-- What nodes of the text `cs` mean. -/
def outlines (cs : List Char) : List Node → List Outline
  | [] => []
  | n :: ns => n.outline cs :: outlines cs ns

end

/-- What an element of the text `cs` means. -/
def Element.outline (cs : List Char) (e : Element) : Outline :=
  (Node.element e.toShell e.children).outline cs

mutual

/-- The same meaning but for the attributes with certain names: `own` tells those that the
outermost element loses, `inner` those that the elements inside it lose. -/
def Outline.without (inner : String → Bool) (own : String → Bool) : Outline → Outline
  | .text body => .text body
  | .comment body => .comment body
  | .element name attributes closed children =>
    .element name (attributes.filter fun a => !own a.1) closed (withoutAll inner children)

/-- The same meanings but for the attributes whose names are among `inner`, at every depth. -/
def withoutAll (inner : String → Bool) : List Outline → List Outline
  | [] => []
  | o :: os => o.without inner inner :: withoutAll inner os

end

/-! ## Parts -/

/-- The name and the value of an attribute as written. -/
def WrittenAttribute.meaning (a : WrittenAttribute) : String × Option String :=
  (String.ofList a.name, a.assignment.map (·.value.decoded))

/-- The outline of an element with this tag. -/
def OpenTag.outline (t : OpenTag) (closed : Bool) (children : List Outline) : Outline :=
  .element (String.ofList t.name) (t.attributes.map WrittenAttribute.meaning) closed children

/-- The outlines of what raw content holds. -/
def rawOutlines (body : List Char) : List Outline := if body.isEmpty then [] else [.text body]

mutual

/-- What a part means. -/
def Part.outline : Part → Outline
  | .text body => .text body
  | .comment body => .comment body
  | .single tag => tag.outline false []
  | .raw tag body _ => tag.outline true (rawOutlines body)
  | .element tag children _ => tag.outline true (outlinesOf children)

/-- What parts mean. -/
def outlinesOf : List Part → List Outline
  | [] => []
  | p :: ps => p.outline :: outlinesOf ps

end

theorem meaning_locateAttributes (offset : Nat) (as : List WrittenAttribute) :
    (locateAttributes offset as).map Attribute.meaning = as.map WrittenAttribute.meaning := by
  induction as generalizing offset with
  | nil => rfl
  | cons a as ih =>
    rw [locateAttributes, List.map_cons, List.map_cons, ih]
    rfl

theorem outlines_rawContent (pre body post : List Char) :
    outlines (pre ++ (body ++ post)) (Assembly.rawContent (byteLength pre) body) =
      rawOutlines body := by
  unfold Assembly.rawContent rawOutlines
  split
  · rfl
  · rw [outlines, outlines, Node.outline, cut_spanAt]

theorem outline_shellAt (cs : List Char) (offset : Nat) (t : OpenTag) (closeTag : Option Span)
    (children : List Node) :
    (Node.element (t.shellAt offset closeTag) children).outline cs =
      t.outline closeTag.isSome (outlines cs children) := by
  rw [Node.outline, OpenTag.outline, OpenTag.shellAt, OpenTag.attributesAt,
    meaning_locateAttributes]

mutual

/-- **The node of a part** that stands behind `pre` means what the part means. -/
theorem outline_nodeAt (pre post : List Char) :
    ∀ p : Part, (p.nodeAt (byteLength pre)).outline (pre ++ (p.written ++ post)) = p.outline
  | .text body => by
    rw [Part.written_text, Part.nodeAt, Node.outline, cut_spanAt, Part.outline]
  | .comment body => by
    rw [Part.written_comment, Part.nodeAt, Node.outline, cut_spanAt, Part.outline]
  | .single tag => by
    rw [Part.nodeAt, outline_shellAt, Part.outline]
    rfl
  | .raw tag body close => by
    have h := outlines_rawContent (pre ++ tag.written) body (close.written ++ post)
    rw [byteLength_append, List.append_assoc] at h
    rw [Part.nodeAt, outline_shellAt, Part.outline, Part.written_raw, List.append_assoc,
      List.append_assoc, h]
    rfl
  | .element tag children close => by
    have h := outlines_nodesAt (pre ++ tag.written) (close.written ++ post) children
    rw [byteLength_append, List.append_assoc] at h
    rw [Part.nodeAt, outline_shellAt, Part.outline, Part.written_element, List.append_assoc,
      List.append_assoc, h]
    rfl

theorem outlines_nodesAt (pre post : List Char) :
    ∀ ps : List Part,
      outlines (pre ++ (writtenOf ps ++ post)) (nodesAt (byteLength pre) ps) = outlinesOf ps
  | [] => rfl
  | p :: ps => by
    have h := outlines_nodesAt (pre ++ p.written) post ps
    rw [byteLength_append, List.append_assoc] at h
    rw [nodesAt_cons, outlines, outlinesOf, writtenOf_cons, List.append_assoc,
      outline_nodeAt pre (writtenOf ps ++ post) p, h]

end

/-! ## The part of an element -/

/-- The element `e` of the text `cs` is the node of the part `p`, which stands behind `pre`. -/
structure Element.IsPart (cs pre : List Char) (p : Part) (post : List Char) (e : Element) :
    Prop where
  text : cs = pre ++ (p.written ++ post)
  node : p.nodeAt (byteLength pre) = .element e.toShell e.children
  paired : p.Paired
  readable : Readable p.tokens

mutual

/-- Each element in a part that stands behind `pre` is the node of a part in it. -/
theorem exists_part_of_mem_elements (pre post : List Char) :
    ∀ p : Part, p.Paired → Readable p.tokens → ∀ e ∈ (p.nodeAt (byteLength pre)).elements,
      ∃ pre' q post', e.IsPart (pre ++ (p.written ++ post)) pre' q post'
  | .text _, _, _ => fun _ he => nomatch he
  | .comment _, _, _ => fun _ he => nomatch he
  | .single tag, hp, hr => by
    intro e he
    obtain rfl := List.mem_singleton.1 he
    exact ⟨pre, .single tag, post, rfl, rfl, hp, hr⟩
  | .raw tag body close, hp, hr => by
    intro e he
    rw [Part.nodeAt, Node.elements_element, elementsIn_rawContent] at he
    obtain rfl := List.mem_singleton.1 he
    exact ⟨pre, .raw tag body close, post, rfl, rfl, hp, hr⟩
  | .element tag children close, hp, hr => by
    intro e he
    rw [Part.nodeAt, Node.elements_element] at he
    rcases List.mem_cons.1 he with rfl | he
    · exact ⟨pre, .element tag children close, post, rfl, rfl, hp, hr⟩
    · have hr' : Readable (tokensOf children ++ [.closeTag close]) := hr.tail
      have h := exists_part_of_mem_elementsIn (pre ++ tag.written) (close.written ++ post) children
        hp.2.2 hr'.left e (by rw [byteLength_append]; exact he)
      rw [List.append_assoc] at h
      rw [Part.written_element, List.append_assoc, List.append_assoc]
      exact h

theorem exists_part_of_mem_elementsIn (pre post : List Char) :
    ∀ ps : List Part, PairedAll ps → Readable (tokensOf ps) →
      ∀ e ∈ elementsIn (nodesAt (byteLength pre) ps),
        ∃ pre' q post', e.IsPart (pre ++ (writtenOf ps ++ post)) pre' q post'
  | [], _, _ => fun _ he => nomatch he
  | p :: ps, hp, hr => by
    intro e he
    rw [tokensOf_cons] at hr
    rw [nodesAt_cons, elementsIn_cons] at he
    rw [writtenOf_cons, List.append_assoc]
    rcases List.mem_append.1 he with he | he
    · exact exists_part_of_mem_elements pre (writtenOf ps ++ post) p hp.1 hr.left e he
    · have h := exists_part_of_mem_elementsIn (pre ++ p.written) post ps hp.2 hr.right e
        (by rw [byteLength_append]; exact he)
      rwa [List.append_assoc] at h

end

/-- **Elements are parts**: each element of a template is the node of a part of it. -/
theorem exists_part_of_mem {cs : List Char} {nodes : List Node} (h : parse cs = .ok nodes)
    {e : Element} (he : e ∈ allElements nodes) : ∃ pre p post, e.IsPart cs pre p post := by
  obtain ⟨ps, hpair, hread, rfl, rfl⟩ := parse_eq_ok_iff.1 h
  rw [allElements_eq] at he
  have h := exists_part_of_mem_elementsIn [] [] ps hpair hread e he
  rwa [List.nil_append, List.append_nil] at h

/-- **The tag of a part** that is an element is what the part begins with. It closes itself only if
nothing else is in the part. -/
theorem Part.exists_tag {p : Part} {offset : Nat} {shell : Shell} {children : List Node}
    (hnode : p.nodeAt offset = .element shell children) (hpaired : p.Paired)
    (hread : Readable p.tokens) :
    ∃ (tag : OpenTag) (closeTag : Option Span) (rest : List Char), tag.Formed ∧
      p.written = tag.written ++ rest ∧ shell = tag.shellAt offset closeTag ∧
      (rest ≠ [] → tag.selfClosing = false) := by
  cases p with
  | text body => cases hnode
  | comment body => cases hnode
  | single tag =>
    obtain ⟨hs, -⟩ := Node.element.inj hnode
    have hsound := hread.sound (t := .openTag tag) (List.mem_singleton.2 rfl) rfl
    exact ⟨tag, none, [], hsound.1, by rw [Part.written_single, List.append_nil], hs.symm,
      fun h => absurd rfl h⟩
  | raw tag body close =>
    obtain ⟨hs, -⟩ := Node.element.inj hnode
    have hsound := hread.sound (t := .raw tag body close) (List.mem_singleton.2 rfl) rfl
    exact ⟨tag, _, _, hsound.1, Part.written_raw .., hs.symm, fun _ => hpaired.1⟩
  | element tag children close =>
    obtain ⟨hs, -⟩ := Node.element.inj hnode
    have hsound := hread.sound (t := .openTag tag) (List.mem_cons_self ..) rfl
    exact ⟨tag, _, _, hsound.1, Part.written_element .., hs.symm, fun _ => hpaired.1.1⟩

/-- **The tag of an element** stands in the template, and the element is what the tag says. -/
theorem Element.IsPart.exists_tag {cs pre post : List Char} {p : Part} {e : Element}
    (h : e.IsPart cs pre p post) :
    ∃ (tag : OpenTag) (closeTag : Option Span) (rest : List Char), tag.Formed ∧
      cs = pre ++ (tag.written ++ rest) ∧
      e.toShell = tag.shellAt (byteLength pre) closeTag := by
  obtain ⟨tag, closeTag, rest, htag, hwritten, hshell, -⟩ :=
    Part.exists_tag h.node h.paired h.readable
  refine ⟨tag, closeTag, rest ++ post, htag, ?_, hshell⟩
  rw [h.text, hwritten, List.append_assoc]

theorem Element.IsPart.span_eq {cs pre post : List Char} {p : Part} {e : Element}
    (h : e.IsPart cs pre p post) : e.span = spanAt (byteLength pre) p.written := by
  have hspan := p.span_nodeAt (byteLength pre)
  rw [h.node] at hspan
  exact hspan

/-- **The place of an element** is that of the characters it was read from: its opening tag or, if it
has a closing tag, all from the one tag through the other. -/
theorem spans_of_parse {cs : List Char} {nodes : List Node} (h : parse cs = .ok nodes) {e : Element}
    (he : e ∈ allElements nodes) :
    ∃ (pre : List Char) (tag : OpenTag) (post : List Char),
      e.openTag = spanAt (byteLength pre) tag.written ∧
      ((cs = pre ++ (tag.written ++ post) ∧ e.closeTag = none ∧
          e.span = spanAt (byteLength pre) tag.written) ∨
        ∃ (inside : List Char) (close : CloseTag),
          cs = pre ++ (tag.written ++ (inside ++ (close.written ++ post))) ∧
          e.closeTag = some (spanAt (byteLength (pre ++ (tag.written ++ inside))) close.written) ∧
          e.span = spanAt (byteLength pre) (tag.written ++ (inside ++ close.written))) := by
  obtain ⟨pre, q, post, hpart⟩ := exists_part_of_mem h he
  have htext := hpart.text
  have hspan := hpart.span_eq
  have hnode := hpart.node
  cases q with
  | text body => cases hnode
  | comment body => cases hnode
  | single tag =>
    obtain ⟨hshell, -⟩ := Node.element.inj hnode
    rw [Part.written_single] at htext hspan
    exact ⟨pre, tag, post, by rw [← hshell]; rfl, .inl ⟨htext, by rw [← hshell]; rfl, hspan⟩⟩
  | raw tag body close =>
    obtain ⟨hshell, -⟩ := Node.element.inj hnode
    rw [Part.written_raw] at htext hspan
    refine ⟨pre, tag, post, by rw [← hshell]; rfl, .inr ⟨body, close, ?_, ?_, hspan⟩⟩
    · rw [htext]
      simp
    · rw [← hshell, byteLength_append, byteLength_append, ← Nat.add_assoc]
      rfl
  | element tag children close =>
    obtain ⟨hshell, -⟩ := Node.element.inj hnode
    rw [Part.written_element] at htext hspan
    refine ⟨pre, tag, post, by rw [← hshell]; rfl, .inr ⟨writtenOf children, close, ?_, ?_, hspan⟩⟩
    · rw [htext]
      simp
    · rw [← hshell, byteLength_append, byteLength_append, ← Nat.add_assoc]
      rfl

end Islands.Markup
