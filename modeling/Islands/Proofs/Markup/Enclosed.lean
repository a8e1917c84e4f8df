import Islands.Proofs.Markup.Shift
import Islands.Proofs.Markup.Tiling

/-!
# Markup between two tags

Markup that can be read can be put between the tags of an element: it is read as it is by itself,
further behind. Two things are in the way. The name may be one of those that stand for an element
without content or with raw content, in any case of the letters, and an interpolation that is left
open at the end of the markup takes the closing tag for a part of it.

* `Readable.append`: readable tokens one after the other.
* `parse_enclosed`: the markup between the tags of an element.
* `not_parse_enclosed`: names that begin with a capital letter, and do not keep their content.
-/

namespace Islands.Markup

/-! ## Open interpolations -/

/-- Whether an interpolation is open at the end of a text; `inside` says whether one is open at its
start. -/
def leavesOpen : Bool → List Char → Bool
  | inside, [] => inside
  | true, '}' :: '}' :: rest => leavesOpen false rest
  | true, _ :: rest => leavesOpen true rest
  | false, '{' :: '{' :: rest => leavesOpen true rest
  | false, _ :: rest => leavesOpen false rest

theorem closedFrom_of_leavesOpen {inside : Bool} {body : List Char}
    (hread : readText inside body = (body, [])) (hopen : leavesOpen inside body = false) :
    ClosedFrom inside body := by
  fun_induction leavesOpen inside body with
  | case1 inside =>
    subst hopen
    exact closedFrom_nil
  | case2 rest ih =>
    rw [readText] at hread
    exact (ih (by simpa [prepend, Prod.ext_iff] using hread) hopen).closing
  | case3 c rest hno ih =>
    rw [readText_inside_cons fun tail hc hrest => hno tail hc hrest] at hread
    exact (ih (by simpa [prepend, Prod.ext_iff] using hread) hopen).inside_cons
      fun tail hc hrest => hno tail hc hrest
  | case4 rest ih =>
    rw [readText] at hread
    exact (ih (by simpa [prepend, Prod.ext_iff] using hread) hopen).opening
  | case5 c rest hno ih =>
    have hstart : Start.of (c :: rest) = .text := by
      refine Classical.byContradiction fun hne => ?_
      rw [readText, if_neg hne] at hread
      · cases (Prod.mk.inj hread).1
      · exact fun tail hc hrest => hno tail hc hrest
    rw [readText_outside_cons (fun tail hc hrest => hno tail hc hrest) hstart] at hread
    exact (ih (by simpa [prepend, Prod.ext_iff] using hread) hopen).outside_cons
      (fun tail hc hrest => hno tail hc hrest) hstart

/-! ## Tokens side by side -/

/-- **Readable tokens one after the other** are readable, if the last of the first ones is sound and
no text comes next to another. -/
theorem Readable.append {ts us : List Token} (h : Readable ts) (h' : Readable us)
    (hsound : ∀ t, ts.getLast? = some t → t.Sound)
    (hapart : ∀ t u, ts.getLast? = some t → us.head? = some u → t.isText = true →
      u.isText = false) : Readable (ts ++ us) := by
  induction ts with
  | nil => exact h'
  | cons t ts ih =>
    cases ts with
    | nil =>
      cases us with
      | nil => exact h
      | cons u us => exact ⟨hsound t rfl, hapart t u rfl rfl, h'⟩
    | cons v ts =>
      rw [List.getLast?_cons_cons] at hsound hapart
      exact ⟨h.1, h.2.1, ih h.tail hsound hapart⟩

/-- Parts whose last token is a text end with that text. -/
theorem exists_text_of_getLast?_tokensOf {ps : List Part} {body : List Char}
    (h : (tokensOf ps).getLast? = some (.text body)) : ∃ qs, ps = qs ++ [.text body] := by
  rcases List.eq_nil_or_concat ps with rfl | ⟨qs, p, rfl⟩
  · cases h
  · refine ⟨qs, ?_⟩
    rw [List.concat_eq_append, tokensOf_append, tokensOf_cons, tokensOf_nil, List.append_nil] at h
    cases p with
    | text body' => simpa [Part.tokens] using h
    | comment _ => simp [Part.tokens] at h
    | single _ => simp [Part.tokens] at h
    | raw _ _ _ => simp [Part.tokens] at h
    | element _ _ _ => simp [Part.tokens, List.getLast?_cons, List.getLast?_append] at h

/-- The last token of some parts is sound if no text among their nodes leaves an interpolation
open. -/
theorem sound_getLast?_tokensOf {ps : List Part} (hr : Readable (tokensOf ps))
    (hopen : ∀ span, Node.text span ∈ nodesAt 0 ps →
      leavesOpen false (span.cut (writtenOf ps)) = false)
    {t : Token} (ht : (tokensOf ps).getLast? = some t) : t.Sound := by
  cases htext : t.isText with
  | false => exact hr.sound (List.mem_of_getLast? ht) htext
  | true =>
    cases t with
    | text body =>
      obtain ⟨qs, rfl⟩ := exists_text_of_getLast?_tokensOf ht
      rw [tokensOf_append] at hr
      obtain ⟨hne, hread⟩ : Readable [Token.text body] := hr.right
      have hstart := (isText_of_readToken hread).1 rfl
      rw [readToken_of_text hstart] at hread
      obtain ⟨htoken, hrest⟩ := Prod.mk.inj (Except.ok.inj hread)
      refine ⟨hne, closedFrom_of_leavesOpen (Prod.ext (Token.text.inj htoken) hrest) ?_⟩
      have hcut := cut_spanAt (writtenOf qs) body []
      rw [List.append_nil] at hcut
      have hwritten : writtenOf (qs ++ [.text body]) = writtenOf qs ++ body := by simp
      have hnode : Node.text (spanAt (byteLength (writtenOf qs)) body) ∈
          nodesAt 0 (qs ++ [.text body]) := by
        rw [nodesAt_append, Nat.zero_add]
        exact List.mem_append_right _ List.mem_cons_self
      have := hopen _ hnode
      rwa [hwritten, hcut] at this
    | _ => cases htext

/-! ## Elements around markup -/

/-- The opening tag of a name, without attributes. -/
def bareTag (name : List Char) : OpenTag := ⟨name, [], [], false⟩

/-- Markup between the tags of an element without attributes. -/
def enclosed (name cs : List Char) : List Char :=
  "<".toList ++ name ++ ">".toList ++ cs ++ "</".toList ++ name ++ ">".toList

theorem formed_bareTag {name : List Char} (hletter : startsLetter name = true)
    (hname : ∀ c ∈ name, isNameChar c = true) : (bareTag name).Formed where
  letter := hletter
  sound := ⟨hname, nofun, nofun⟩
  joins := rfl
  endsAsSaid := rfl

theorem enclosed_eq (name cs : List Char) :
    enclosed name cs = (bareTag name).written ++ (cs ++ CloseTag.written ⟨name, []⟩) := by
  simp [enclosed, bareTag, OpenTag.written, tagEnd, CloseTag.written]

/-- The element that encloses markup of some nodes, `length` bytes long. -/
def enclosingNode (name : List Char) (length : Nat) (nodes : List Node) : Node :=
  let inside := byteLength name + 2
  .element
    ⟨String.ofList name, [], ⟨0, inside⟩,
      some ⟨inside + length, inside + length + (byteLength name + 3)⟩⟩
    (shiftAll inside nodes)

theorem nodesAt_enclosed (name : List Char) (ps : List Part) :
    nodesAt 0 [.element (bareTag name) ps ⟨name, []⟩] =
      [enclosingNode name (byteLength (writtenOf ps)) (nodesAt 0 ps)] := by
  have hopen : byteLength (bareTag name).written = byteLength name + 2 := by
    simp [bareTag, OpenTag.written, tagEnd, show '<'.utf8Size = 1 from rfl,
      show '>'.utf8Size = 1 from rfl]
    omega
  have hclose : byteLength (CloseTag.written ⟨name, []⟩) = byteLength name + 3 := by
    simp [CloseTag.written, show '<'.utf8Size = 1 from rfl, show '/'.utf8Size = 1 from rfl,
      show '>'.utf8Size = 1 from rfl]
    omega
  have hinside : 0 + (byteLength name + 2) = byteLength name + 2 + 0 := by omega
  simp only [nodesAt_cons, nodesAt_nil, Part.nodeAt, enclosingNode, OpenTag.shellAt, spanAt, hopen,
    hclose, hinside, nodesAt_shift]
  rfl

/-- **Markup between the tags of an element** is read as it is by itself. The name may be any that
an element with content can have, a component's as well as another, and no text of the markup may
leave an interpolation open. -/
theorem parse_enclosed {name cs : List Char} {nodes : List Node}
    (hletter : startsLetter name = true) (hname : ∀ c ∈ name, isNameChar c = true)
    (hvoid : isVoidName name = false) (hraw : isRawName name = false)
    (hparse : parse cs = .ok nodes)
    (hopen : ∀ span, Node.text span ∈ nodes → leavesOpen false (span.cut cs) = false) :
    parse (enclosed name cs) = .ok [enclosingNode name (byteLength cs) nodes] := by
  obtain ⟨ps, hp, hr, rfl, rfl⟩ := parse_eq_ok_iff.1 hparse
  let tag := bareTag name
  let close : CloseTag := ⟨name, []⟩
  have htag : (Token.openTag tag).Sound := ⟨formed_bareTag hletter hname, .inr hraw⟩
  have hclose : (Token.closeTag close).Sound := ⟨hletter, hname, nofun⟩
  have hinner : Readable (tokensOf ps ++ [.closeTag close]) := by
    refine hr.append hclose.readable (fun t ht => sound_getLast?_tokensOf hr hopen ht) ?_
    intro t u _ hu _
    obtain rfl := Option.some.inj hu
    rfl
  have hread : Readable ([.openTag tag] ++ (tokensOf ps ++ [.closeTag close])) := by
    refine htag.readable.append hinner (fun t ht => ?_) (fun t u ht _ htext => ?_)
    · obtain rfl := Option.some.inj ht
      exact htag
    · obtain rfl := Option.some.inj ht
      cases htext
  refine parse_eq_ok_iff.2 ⟨[.element tag ps close], ⟨⟨⟨rfl, hvoid, hraw⟩, ?_, hp⟩, trivial⟩, ?_, ?_,
    (nodesAt_enclosed name ps).symm⟩
  · simp [sameLetters, tag, close, bareTag]
  · simpa [Part.tokens] using hread
  · simp [enclosed_eq, tag, close]

/-- A component around an element and text with an interpolation. -/
theorem parse_enclosed_card :
    parse "<b/>{{ x }}".toList =
        .ok [.element ⟨"b", [], ⟨0, 4⟩, none⟩ [], .text ⟨4, 11⟩] ∧
      parse (enclosed "My-Card".toList "<b/>{{ x }}".toList) =
        .ok [.element ⟨"My-Card", [], ⟨0, 9⟩, some ⟨20, 30⟩⟩
          [.element ⟨"b", [], ⟨9, 13⟩, none⟩ [], .text ⟨13, 20⟩]] := by
  have hparse : parse "<b/>{{ x }}".toList =
      .ok [.element ⟨"b", [], ⟨0, 4⟩, none⟩ [], .text ⟨4, 11⟩] := by decide +kernel
  refine ⟨hparse, ?_⟩
  have hopen : ∀ span, Node.text span ∈
      [Node.element ⟨"b", [], ⟨0, 4⟩, none⟩ [], .text ⟨4, 11⟩] →
        leavesOpen false (span.cut "<b/>{{ x }}".toList) = false := by
    intro span hspan
    obtain rfl : span = ⟨4, 11⟩ := by simpa using hspan
    decide +kernel
  have hname : ∀ c ∈ "My-Card".toList, isNameChar c = true := List.all_eq_true.1 (by decide)
  exact parse_enclosed (by decide) hname (by decide) (by decide) hparse hopen

/-- Names that begin with a capital letter do not keep their content if, in lower case, they stand
for an element that has none or has raw content: markup that is read by itself is not read, or not as
markup, between their tags. -/
theorem not_parse_enclosed :
    (parse "x".toList = .ok [.text ⟨0, 1⟩] ∧ leavesOpen false "x".toList = false ∧
      parse (enclosed "Link".toList "x".toList) = .error (.unexpectedClosingTag "Link" ⟨7, 14⟩) ∧
      parse (enclosed "Link".toList "x".toList) ≠
        .ok [enclosingNode "Link".toList 1 [.text ⟨0, 1⟩]]) ∧
    (parse "<b/>".toList = .ok [.element ⟨"b", [], ⟨0, 4⟩, none⟩ []] ∧
      parse (enclosed "Style".toList "<b/>".toList) =
        .ok [.element ⟨"Style", [], ⟨0, 7⟩, some ⟨11, 19⟩⟩ [.text ⟨7, 11⟩]] ∧
      parse (enclosed "Style".toList "<b/>".toList) ≠
        .ok [enclosingNode "Style".toList 4 [.element ⟨"b", [], ⟨0, 4⟩, none⟩ []]]) := by
  refine ⟨⟨?_, ?_, ?_, ?_⟩, ?_, ?_, ?_⟩ <;> decide +kernel

end Islands.Markup
