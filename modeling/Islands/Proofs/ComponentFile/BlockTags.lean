import Islands.Proofs.ComponentFile.Legibility

/-!
# Tags of blocks in markup

The tags that markup is written with, as the reading of blocks sees them. An opening tag is that of
a block exactly if its name is (`blockName?_of_formed`), and is read as a whole if it is plain
(`opensBlock_of_isPlainTag`, `readPiece_of_isPlainTag`). A closing tag ends a template block
(`closesTemplate_written`) or the content of a script or style block (`readEmbedded_of_hidesClose`).

* `joint_openTag`, `joint_closeTag`, `joint_comment`, `joint_text`: what a token begins does not go
  on behind it.
-/

namespace Islands.ComponentFile

open Markup

/-! ## Names and tags -/

theorem isEnd_of_isNameChar_eq_false {d : Char} (h : isNameChar d = false) :
    (isBlank d || d == '>' || d == '/') = true := by
  simpa only [isNameChar, Bool.not_eq_false'] using h

theorem dropLetters?_name {word name : List Char} {d : Char}
    (hname : ∀ c ∈ name, isNameChar c = true) (hd : isNameChar d = false)
    (hword : ∀ w ∈ word, w.toLower ≠ d.toLower) (rest : List Char) :
    (match dropLetters? word (name ++ d :: rest) with
      | some (c :: _) => isBlank c || c == '>' || c == '/'
      | _ => false) = sameLetters name word := by
  induction word generalizing name with
  | nil =>
    cases name with
    | nil =>
      rw [List.nil_append, dropLetters?]
      exact isEnd_of_isNameChar_eq_false hd
    | cons c name =>
      have hc := hname c (List.mem_cons_self ..)
      simpa [dropLetters?, sameLetters, isNameChar] using hc
  | cons w word ih =>
    cases name with
    | nil =>
      have hne : (w.toLower == d.toLower) = false :=
        beq_false_of_ne (hword w (List.mem_cons_self ..))
      simp [dropLetters?, hne, sameLetters]
    | cons c name =>
      have ih := ih (fun c hc => hname c (List.mem_cons_of_mem _ hc))
        fun w hw => hword w (List.mem_cons_of_mem _ hw)
      rw [List.cons_append, dropLetters?]
      by_cases hc : w.toLower = c.toLower
      · rw [if_pos (beq_iff_eq.2 hc), ih]
        simp [sameLetters, hc]
      · rw [if_neg (by simpa using hc)]
        simp [sameLetters, Ne.symm hc]

theorem ne_of_isNameChar_eq_false {d : Char} (hd : isNameChar d = false) (name : BlockName) :
    ∀ w ∈ name.letters, w.toLower ≠ d.toLower := by
  have hall : [' ', '\t', '\n', '\x0c', '\r', '>', '/'].all
      (fun d => name.letters.all (fun w => w.toLower != d.toLower)) = true := by
    cases name <;> decide
  have hmem : d ∈ [' ', '\t', '\n', '\x0c', '\r', '>', '/'] := by
    simpa [isBlank, or_assoc] using isEnd_of_isNameChar_eq_false hd
  intro w hw
  exact bne_iff_ne.1 (List.all_eq_true.1 (List.all_eq_true.1 hall d hmem) w hw)

/-- Whether the name of an opening tag is that of a block. -/
theorem startsName_of_formed {t : OpenTag} (h : t.Formed) (b : BlockName) (rest : List Char) :
    startsName b (t.name ++ (t.inside ++ rest)) = sameLetters t.name b.letters := by
  have hjoins := h.joins
  simp only [OpenTag.joins, Bool.and_eq_true, Option.any_eq_true, Bool.not_eq_true'] at hjoins
  obtain ⟨⟨d, hhead, hd⟩, -⟩ := hjoins
  obtain ⟨tail, htail⟩ := List.head?_eq_some_iff.1 hhead
  rw [htail]
  exact dropLetters?_name h.sound.name hd (ne_of_isNameChar_eq_false hd b) (tail ++ rest)

theorem blockName?_of_formed {t : OpenTag} (h : t.Formed) (rest : List Char) :
    blockName? (t.name ++ (t.inside ++ rest)) = blockNamed? t.name := by
  have hnames : (startsName · (t.name ++ (t.inside ++ rest))) =
      fun b : BlockName => sameLetters t.name b.letters :=
    funext fun b => startsName_of_formed h b rest
  rw [blockName?, hnames, blockNamed?]

theorem blockNamed?_eq_some_iff {name : List Char} {b : BlockName} :
    blockNamed? name = some b ↔ sameLetters name b.letters = true := by
  constructor
  · exact List.find?_some
  · intro h
    have hname : name.map Char.toLower = b.letters.map Char.toLower := beq_iff_eq.1 h
    unfold blockNamed? sameLetters
    rw [hname]
    cases b <;> decide

theorem blockNamed?_congr {a b : List Char} (h : sameLetters a b = true) :
    blockNamed? a = blockNamed? b := by
  unfold blockNamed? sameLetters
  rw [beq_iff_eq.1 h]

theorem blockNamed?_of_isRawName {name : List Char} (h : isRawName name = true) :
    blockNamed? name = some .script ∨ blockNamed? name = some .style := by
  have hname : ∀ {s : String}, String.ofList (name.map Char.toLower) = s →
      name.map Char.toLower = s.toList := fun hs => by rw [← hs, String.toList_ofList]
  simp only [isRawName, List.contains_cons, List.contains_nil, Bool.or_false, Bool.or_eq_true,
    beq_iff_eq] at h
  rcases h with h | h
  · exact .inl (blockNamed?_eq_some_iff.2 (by rw [sameLetters, hname h]; decide))
  · exact .inr (blockNamed?_eq_some_iff.2 (by rw [sameLetters, hname h]; decide))

theorem isRawName_of_blockNamed? {name : List Char} {b : BlockName} (h : blockNamed? name = some b)
    (hb : b ≠ .template) : isRawName name = true := by
  have hname : name.map Char.toLower = b.letters.map Char.toLower :=
    beq_iff_eq.1 (blockNamed?_eq_some_iff.1 h)
  rw [isRawName, hname]
  cases b with
  | template => exact absurd rfl hb
  | script | style => decide

section
variable {t : OpenTag} {b : BlockName} {closed : Bool}

theorem not_comment_of_formed (h : t.Formed) (rest : List Char) :
    readComment? (t.name ++ (t.inside ++ rest)) = none ∧
      closesTemplate (t.name ++ (t.inside ++ rest)) = false := by
  have hletter := h.letter
  cases hname : t.name with
  | nil => rw [hname] at hletter; cases hletter
  | cons c name =>
    rw [hname] at hletter
    have hc : c.isAlpha = true := hletter
    have hbang : c ≠ '!' := fun e => by rw [e] at hc; cases hc
    have hslash : c ≠ '/' := fun e => by rw [e] at hc; cases hc
    refine ⟨readComment?_eq_none_iff.2 ?_, ?_⟩
    · rw [List.cons_append, dropWord?, if_neg (by simpa using Ne.symm hbang)]
    · rw [List.cons_append, closesTemplate]
      simpa using hslash

theorem readTag_of_isPlainTag (h : isPlainTag t.written closed = true) (rest : List Char) :
    readTag none (t.name ++ (t.inside ++ rest)) = some (t.name ++ t.inside, rest) ∧
      isSelfClosing t.written = !closed := by
  rw [isPlainTag, Bool.and_eq_true, beq_iff_eq, beq_iff_eq, OpenTag.written_eq] at h
  obtain ⟨htag, hself⟩ := h
  rw [OpenTag.written_eq]
  refine ⟨?_, hself⟩
  rw [readTag, if_neg (by decide), if_neg (by decide)] at htag
  obtain ⟨p, hp, e⟩ := Option.map_eq_some_iff.1 htag
  obtain ⟨he, hnil⟩ := Prod.mk.inj e
  have hfst : p.1 = t.name ++ t.inside := by simpa [prepend] using he
  have hread : readTag none (t.name ++ t.inside) = some (t.name ++ t.inside, []) := by
    rw [hp, ← hfst, ← hnil]
  obtain ⟨-, -, hany⟩ := readTag_append hread
  rw [← List.append_assoc]
  exact hany rest

theorem opensBlock_of_isPlainTag (h : t.Formed) (hplain : isPlainTag t.written closed = true)
    (hname : blockNamed? t.name = some b) : OpensBlock b t.written := by
  refine ⟨t.name ++ t.inside, OpenTag.written_eq t, fun rest => ?_⟩
  rw [List.append_assoc]
  exact ⟨(not_comment_of_formed h rest).1, (blockName?_of_formed h rest).trans hname,
    (readTag_of_isPlainTag hplain rest).1⟩

theorem readPiece_of_isPlainTag (h : t.Formed) (hplain : isPlainTag t.written closed = true)
    (hname : blockNamed? t.name = some .template) (rest : List Char) :
    readPieceAfterAngle (t.name ++ (t.inside ++ rest)) =
      some (if closed then .opened t.written else .plain t.written, rest) := by
  obtain ⟨hcomment, hcloses⟩ := not_comment_of_formed h rest
  obtain ⟨htag, hself⟩ := readTag_of_isPlainTag hplain rest
  have hopens : startsName .template (t.name ++ (t.inside ++ rest)) = true := by
    rw [startsName_of_formed h, blockNamed?_eq_some_iff.1 hname]
  rw [OpenTag.written_eq] at hself ⊢
  rw [readPieceAfterAngle_eq, hcomment, hcloses, hopens, htag]
  cases closed <;> simp [hself]

end

/-! ## Closing tags -/

theorem readThroughAngle_of_not_mem {u : List Char} (h : '>' ∉ u) (rest : List Char) :
    readThroughAngle (u ++ '>' :: rest) = some (u ++ ['>'], rest) := by
  have hsplit : splitOnFirst ['>'] (u ++ '>' :: rest) = some (u, rest) := by
    induction u with
    | nil => simp [splitOnFirst, dropWord?]
    | cons c u ih =>
      rw [List.mem_cons, not_or] at h
      have hne : ('>' == c) = false := beq_false_of_ne h.1
      simp [splitOnFirst, dropWord?, hne, ih h.2, prepend]
  rw [readThroughAngle, hsplit]
  rfl

section
variable {close : CloseTag}

theorem written_closeTag (close : CloseTag) :
    close.written = '<' :: ('/' :: (close.name ++ close.gap)) ++ ['>'] := by
  simp [CloseTag.written]

theorem angle_not_mem (h : close.Sound) : '>' ∉ '/' :: (close.name ++ close.gap) := by
  intro hmem
  rcases List.mem_cons.1 hmem with hmem | hmem
  · cases hmem
  · rcases List.mem_append.1 hmem with hmem | hmem
    · cases h.name '>' hmem
    · cases h.gap '>' hmem

theorem closesTemplate_written (h : close.Sound)
    (hname : sameLetters close.name BlockName.template.letters = true) :
    ClosesTemplate close.written := by
  refine ⟨'/' :: (close.name ++ close.gap) ++ ['>'], written_closeTag close, fun rest => ?_⟩
  have hread := readThroughAngle_of_not_mem (angle_not_mem h) rest
  have hcloses : closesTemplate ('/' :: (close.name ++ close.gap) ++ '>' :: rest) = true := by
    cases hg : close.gap ++ '>' :: rest with
    | nil => simp at hg
    | cons d tail =>
      have hd : isNameChar d = false := CloseTag.head?_gap h rest d (by rw [hg]; rfl)
      rw [List.cons_append, closesTemplate, List.append_assoc, hg, ← hname]
      exact dropLetters?_name h.name hd (ne_of_isNameChar_eq_false hd .template) tail
  rw [List.append_assoc, List.singleton_append, readPieceAfterAngle_eq, hcloses, hread]
  simp [CloseTag.written, readComment?, dropWord?]

theorem dropLetters?_of_sameLetters {word name : List Char} (h : sameLetters name word = true)
    (rest : List Char) : dropLetters? word (name ++ rest) = some rest := by
  induction word generalizing name with
  | nil =>
    cases name with
    | nil => rfl
    | cons => simp [sameLetters] at h
  | cons w word ih =>
    cases name with
    | nil => simp [sameLetters] at h
    | cons c name =>
      simp only [sameLetters, List.map_cons, List.cons_beq_cons, Bool.and_eq_true, beq_iff_eq] at h
      rw [List.cons_append, dropLetters?, if_pos (beq_iff_eq.2 h.1.symm)]
      exact ih (by rw [sameLetters, beq_iff_eq, h.2])

theorem splitBeforeLetters_of_eq_none {word body x : List Char}
    (hword : ∀ w ∈ word, w.toLower ≠ '<'.toLower)
    (h : splitBeforeLetters ('<' :: word) body = none)
    (hx : (dropLetters? word x).isSome = true) :
    splitBeforeLetters ('<' :: word) (body ++ '<' :: x) = some (body, '<' :: x) := by
  induction body with
  | nil => rw [List.nil_append, splitBeforeLetters, dropLetters?,
      if_pos (beq_self_eq_true _), if_pos hx]
  | cons c body ih =>
    rw [splitBeforeLetters] at h
    split at h
    · cases h
    · rename_i hhere
      have hhere' : ¬(dropLetters? ('<' :: word) (c :: (body ++ '<' :: x))).isSome = true := by
        rw [dropLetters?] at hhere ⊢
        split
        · rename_i hc
          rw [if_pos hc] at hhere
          rwa [dropLetters?_append_cons hword, Option.isSome_map]
        · simp
      rw [List.cons_append, splitBeforeLetters, if_neg hhere', ih (Option.map_eq_none_iff.1 h)]
      rfl

/-- The content of a script or style block, through its closing tag. -/
theorem readEmbedded_of_hidesClose {b : BlockName} {body : List Char} (h : close.Sound)
    (hhides : hidesClose b body = true) (hname : sameLetters close.name b.letters = true)
    (rest : List Char) :
    readEmbedded b (body ++ (close.written ++ rest)) = (body ++ close.written, rest) := by
  have hword : ∀ w ∈ '/' :: b.letters, w.toLower ≠ '<'.toLower :=
    List.forall_mem_cons.2 ⟨by decide, ne_angle_of_mem_letters (.inl rfl) b⟩
  have hsplit := splitBeforeLetters_of_eq_none
    (x := '/' :: (close.name ++ (close.gap ++ '>' :: rest))) hword
    (Option.isNone_iff_eq_none.1 hhides)
    (by rw [dropLetters?, if_pos (beq_self_eq_true _), dropLetters?_of_sameLetters hname]; rfl)
  have hangle := readThroughAngle_of_not_mem (u := '<' :: ('/' :: (close.name ++ close.gap)))
    (by rw [List.mem_cons, not_or]; exact ⟨by decide, angle_not_mem h⟩) rest
  rw [written_closeTag]
  simp only [List.cons_append, List.append_assoc, List.nil_append] at hsplit hangle ⊢
  rw [readEmbedded]
  simp only [hsplit, hangle]
  rfl

end

/-! ## Joints -/

theorem joint_openTag (t : OpenTag) (rest : List Char) : Joint t.written rest := by
  have hwritten : ∃ u, t.written = u ++ ['>'] := by
    cases hself : t.selfClosing with
    | false =>
      exact ⟨'<' :: (t.name ++ (writtenAttributes t.attributes ++ t.trail)), by
        simp [OpenTag.written_eq, OpenTag.inside, tagTail, tagEnd, hself]⟩
    | true =>
      exact ⟨'<' :: (t.name ++ (writtenAttributes t.attributes ++ (t.trail ++ ['/']))), by
        simp [OpenTag.written_eq, OpenTag.inside, tagTail, tagEnd, hself]⟩
  obtain ⟨u, hu⟩ := hwritten
  rw [hu]
  exact joint_of_angle u rest

theorem joint_closeTag (close : CloseTag) (rest : List Char) : Joint close.written rest := by
  rw [written_closeTag]
  exact joint_of_angle _ rest

theorem joint_of_markup (w : List Char) {rest : List Char} (h : rest.head? = some '<') :
    Joint w rest :=
  fun _ _ => .inr (.inr (List.head?_eq_some_iff.1 h))

theorem exists_of_readComment {cs rest : List Char} {t : Token}
    (h : readComment cs = .ok (t, rest)) : ∃ u, t = .comment (u ++ ['>']) := by
  unfold readComment at h
  split at h
  · rename_i inside tail _
    obtain ⟨rfl, -⟩ := Prod.mk.inj (Except.ok.inj h)
    exact ⟨'<' :: '!' :: '-' :: '-' :: (inside ++ ['-', '-']), by simp⟩
  · cases h

theorem exists_of_readDeclaration {mark : Char} {cs rest : List Char} {t : Token}
    (h : readDeclaration mark cs = .ok (t, rest)) : ∃ u, t = .comment (u ++ ['>']) := by
  unfold readDeclaration at h
  split at h
  · rename_i inside tail _
    obtain ⟨rfl, -⟩ := Prod.mk.inj (Except.ok.inj h)
    exact ⟨'<' :: mark :: inside, by simp⟩
  · cases h

theorem joint_comment {body : List Char} (h : (Token.comment body).Sound) (rest : List Char) :
    Joint body rest := by
  have hread := h []
  obtain ⟨u, hu⟩ : ∃ u, Token.comment body = .comment (u ++ ['>']) := by
    unfold readToken at hread
    split at hread
    · exact exists_of_readComment hread
    · exact exists_of_readDeclaration hread
    · rename_i tail _
      cases hclose : readCloseTag tail with
      | error _ => rw [hclose] at hread; cases hread
      | ok p => rw [hclose] at hread; cases hread
    · rename_i tail _
      cases hopen : readOpenTag tail with
      | error _ => rw [hopen] at hread; cases hread
      | ok p =>
        rw [hopen] at hread
        rcases readContent_eq_ok_iff.1 hread with ⟨e, -⟩ | ⟨_, _, e, -⟩ <;> cases e
    · cases hread
  obtain rfl := Token.comment.inj hu
  exact joint_of_angle u rest

theorem joint_text {body : List Char} {ts : List Token} (h : Readable (.text body :: ts)) :
    Joint body (writtenTokens ts) := by
  intro c _
  cases ts with
  | nil => exact .inr (.inl rfl)
  | cons u ts =>
    have hnot : u.isText = false := h.2.1 rfl
    have hread := h.tail.readToken
    refine .inr (.inr (Start.exists_of_ne_text fun hstart => ?_))
    rw [writtenTokens_cons] at hstart
    rw [(isText_of_readToken hread).2 hstart] at hnot
    cases hnot

end Islands.ComponentFile
