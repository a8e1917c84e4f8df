import Islands.Proofs.Markup.Parts
import Islands.Proofs.Text.Offsets

/-!
# Where a fault in markup is shown

A fault is explained by places in the text. Each reader counts them from where it started, and the
assembly of the tokens moves them behind what has been read before. Whatever the fault is, each of
its places is a part of the text that is not empty (`pointsInto_of_parse`).

* `Span.Marks`: a span is the place of some characters of a text.
* `pointsInto_of_readToken`, `exists_of_tokenize`: faults in a token.
* `Assembly.Reached`: what has been assembled, with what has been read; `reached_of_read` and
  `pointsInto_of_read` are the steps, `read_all` a whole run.
-/

namespace Islands

/-- The span is the place of some characters of a text. -/
def Span.Marks (cs : List Char) (s : Span) : Prop :=
  ∃ a m b, cs = a ++ (m ++ b) ∧ m ≠ [] ∧ s = ⟨byteLength a, byteLength a + byteLength m⟩

namespace Span.Marks

variable {cs : List Char} {s : Span}

theorem front {m : List Char} (hm : m ≠ []) (b : List Char) :
    Marks (m ++ b) ⟨0, byteLength m⟩ := ⟨[], m, b, rfl, hm, by rw [byteLength_nil, Nat.zero_add]⟩

theorem shift (h : s.Marks cs) (pre post : List Char) :
    (s.shift (byteLength pre)).Marks (pre ++ (cs ++ post)) := by
  obtain ⟨a, m, b, rfl, hm, rfl⟩ := h
  refine ⟨pre ++ a, m, b ++ post, by simp only [List.append_assoc], hm, ?_⟩
  rw [byteLength_append, Span.shift, Nat.add_assoc]

theorem append (h : s.Marks cs) (post : List Char) : s.Marks (cs ++ post) := by
  have := h.shift [] post
  rwa [byteLength_nil, shift_zero] at this

theorem behind (h : s.Marks cs) (pre : List Char) :
    (s.shift (byteLength pre)).Marks (pre ++ cs) := by
  have := h.shift pre []
  rwa [List.append_nil] at this

theorem lt (h : s.Marks cs) : s.start < s.stop := by
  obtain ⟨a, m, b, -, hm, rfl⟩ := h
  have := byteLength_pos hm
  show byteLength a < byteLength a + byteLength m
  omega

theorem le (h : s.Marks cs) : s.stop ≤ byteLength cs := by
  obtain ⟨a, m, b, rfl, -, rfl⟩ := h
  simp only [byteLength_append]
  omega

theorem onBoundaries (h : s.Marks cs) : s.OnBoundaries cs := by
  obtain ⟨a, m, b, rfl, -, rfl⟩ := h
  exact Span.onBoundaries_append a m b

end Span.Marks

namespace Markup

/-- Each place that explains a fault is in the text. -/
def ParseError.PointsInto (cs : List Char) (e : ParseError) : Prop :=
  ∀ l ∈ e.labels, l.span.Marks cs

namespace ParseError.PointsInto

variable {cs : List Char} {e : ParseError}

theorem shift (h : e.PointsInto cs) (pre : List Char) :
    (e.shift (byteLength pre)).PointsInto (pre ++ cs) := by
  intro l hl
  rw [labels_shift] at hl
  obtain ⟨l', hl', rfl⟩ := List.mem_map.1 hl
  exact (h l' hl').behind pre

theorem append (h : e.PointsInto cs) (post : List Char) : e.PointsInto (cs ++ post) :=
  fun l hl => (h l hl).append post

theorem of_label {l : Label} (he : e.labels = [l]) (h : l.span.Marks cs) : e.PointsInto cs := by
  intro l' hl'
  rw [he, List.mem_singleton] at hl'
  rwa [hl']

end ParseError.PointsInto

theorem ParseError.labels_ne_nil (e : ParseError) : e.labels ≠ [] := by
  cases e <;> exact List.cons_ne_nil _ _

/-! ## Faults in a tag -/

/-- A quotation mark without its partner is in the text. -/
def TagFault.PointsInto (cs : List Char) : TagFault → Prop
  | .unterminated => True
  | .unterminatedValue _ start =>
    ∃ a q b, cs = a ++ q :: b ∧ byteLength a = start ∧ (q = '"' ∨ q = '\'')

theorem TagFault.PointsInto.shift {cs : List Char} {fault : TagFault} (h : fault.PointsInto cs)
    (pre : List Char) : (fault.shift (byteLength pre)).PointsInto (pre ++ cs) := by
  cases fault with
  | unterminated => trivial
  | unterminatedValue owner start =>
    obtain ⟨a, q, b, rfl, rfl, hq⟩ := h
    exact ⟨pre ++ a, q, b, (List.append_assoc ..).symm, byteLength_append .., hq⟩

/-- Only a quoted value can be without its end. -/
theorem exists_mark_of_readValue {cs : List Char} (h : readValue cs = none) :
    ∃ q rest, cs = q :: rest ∧ (q = '"' ∨ q = '\'') := by
  unfold readValue at h
  split at h
  · exact ⟨_, _, rfl, .inl rfl⟩
  · exact ⟨_, _, rfl, .inr rfl⟩
  · cases h

theorem pointsInto_of_readAssignment {owner cs : List Char} {fault : TagFault}
    (h : readAssignment owner cs = .error fault) : fault.PointsInto cs := by
  unfold readAssignment at h
  simp only at h
  split at h
  · rename_i rest heq
    split at h
    · cases h
    · rename_i hvalue
      obtain rfl := Except.error.inj h
      obtain ⟨q, tail, hrest, hq⟩ := exists_mark_of_readValue hvalue
      have hcs := List.takeWhile_append_dropWhile (p := isBlank) (l := cs)
      have hafter := List.takeWhile_append_dropWhile (p := isBlank) (l := rest)
      rw [heq] at hcs
      rw [hrest] at hafter
      refine ⟨cs.takeWhile isBlank ++ '=' :: rest.takeWhile isBlank, q, tail, ?_, ?_, hq⟩
      · rw [List.append_assoc, List.cons_append, hafter, hcs]
      · rw [byteLength_append, byteLength_cons, show '='.utf8Size = 1 from rfl, Nat.add_assoc]
  · cases h

theorem pointsInto_of_readAttribute {lead cs : List Char} {c : Char} {fault : TagFault}
    (h : readAttribute lead c cs = .error fault) : fault.PointsInto (lead ++ c :: cs) := by
  unfold readAttribute at h
  simp only at h
  split at h
  · cases h
  · rename_i inner hassign
    obtain rfl := Except.error.inj h
    have hshift := (pointsInto_of_readAssignment hassign).shift
      (lead ++ c :: (readNameTail cs).1)
    rwa [byteLength_append, List.append_assoc, List.cons_append, readNameTail_append] at hshift

/-- **A fault in the inside of a tag** is in the text. -/
theorem pointsInto_of_readTagBody {cs : List Char} {fault : TagFault}
    (h : readTagBody cs = .error fault) : fault.PointsInto cs := by
  fun_induction readTagBody cs generalizing fault with
  | case1 =>
    obtain rfl := Except.error.inj h
    trivial
  | case2 => cases h
  | case3 => cases h
  | case4 cs gap c tail _ _ hgap inner hattribute =>
    obtain rfl := Except.error.inj h
    have hcs := readGap_append cs
    rw [hgap] at hcs
    rw [← hcs]
    exact pointsInto_of_readAttribute hattribute
  | case5 cs gap c tail _ _ hgap a rest hattribute inner hinner ih =>
    obtain rfl := Except.error.inj h
    obtain ⟨hlead, hcore⟩ := eq_of_readAttribute hattribute
    have hcs := readGap_append cs
    rw [hgap] at hcs
    have hwritten : a.written ++ rest = cs := by
      rw [WrittenAttribute.written, List.append_assoc, ← hcore, hlead, hcs]
    rw [← hwritten]
    exact (ih hinner).shift a.written
  | case6 => cases h

/-! ## Faults in a token -/

theorem pointsInto_of_readOpenTag {cs : List Char} {e : ParseError}
    (h : readOpenTag cs = .error e) : e.PointsInto ('<' :: cs) := by
  have hcs := List.takeWhile_append_dropWhile (p := isNameChar) (l := cs)
  unfold readOpenTag at h
  simp only at h
  split at h
  · cases h
  · obtain rfl := Except.error.inj h
    refine .of_label rfl ?_
    have hmarks := Span.Marks.front (List.cons_ne_nil '<' (cs.takeWhile isNameChar))
      (cs.dropWhile isNameChar)
    rw [List.cons_append, hcs, byteLength_cons] at hmarks
    rwa [Nat.zero_add, String.toList_ofList]
  · rename_i owner start hfault
    obtain rfl := Except.error.inj h
    obtain ⟨a, q, b, hrest, rfl, hq⟩ := pointsInto_of_readTagBody hfault
    have hsize : byteLength [q] = 1 := by rcases hq with rfl | rfl <;> rfl
    refine .of_label rfl ⟨'<' :: (cs.takeWhile isNameChar ++ a), [q], b, ?_, by simp, ?_⟩
    · rw [List.cons_append, List.append_assoc, List.singleton_append, ← hrest, hcs]
    · rw [hsize, byteLength_cons, byteLength_append, show '<'.utf8Size = 1 from rfl,
        Nat.add_assoc]

theorem pointsInto_of_readCloseTag {cs : List Char} {e : ParseError}
    (h : readCloseTag cs = .error e) : e.PointsInto ('<' :: '/' :: cs) := by
  have hname := List.takeWhile_append_dropWhile (p := isNameChar) (l := cs)
  have hgap := List.takeWhile_append_dropWhile (p := isBlank) (l := cs.dropWhile isNameChar)
  unfold readCloseTag at h
  simp only at h
  split at h
  · cases h
  · obtain rfl := Except.error.inj h
    refine .of_label rfl ?_
    have hmarks := Span.Marks.front (List.cons_ne_nil '<' ('/' :: (cs.takeWhile isNameChar ++
      (cs.dropWhile isNameChar).takeWhile isBlank))) ((cs.dropWhile isNameChar).dropWhile isBlank)
    rw [List.cons_append, List.cons_append, List.append_assoc, hgap, hname, byteLength_cons,
      byteLength_cons, byteLength_append, ← Nat.add_assoc, ← Nat.add_assoc] at hmarks
    exact hmarks

theorem pointsInto_of_readContent {tag : OpenTag} {cs : List Char} {e : ParseError}
    (h : readContent tag cs = .error e) : e.PointsInto (tag.written ++ cs) := by
  unfold readContent at h
  split at h
  · cases h
  · simp only at h
    split at h
    · obtain rfl := Except.error.inj h
      exact .of_label rfl (.front tag.written_ne_nil cs)
    · rename_i body rest hbody
      split at h
      · cases h
      · rename_i inner hclose
        obtain rfl := Except.error.inj h
        have hshift := (pointsInto_of_readCloseTag hclose).shift (tag.written ++ body)
        rwa [byteLength_append, List.append_assoc, ← eq_of_readRawContent hbody] at hshift

theorem Start.mark_of_declaration {cs rest : List Char} {mark : Char}
    (h : Start.of cs = .declaration mark rest) :
    cs = '<' :: mark :: rest ∧ (mark = '!' ∨ mark = '?') := by
  have hcs := Start.eq_shown_append_rest cs
  rw [h] at hcs
  refine ⟨hcs, ?_⟩
  unfold Start.of at h
  split at h
  · unfold Start.afterAngle at h
    split at h
    · cases h
    · exact .inl (Start.declaration.inj h).1.symm
    · exact .inr (Start.declaration.inj h).1.symm
    · split at h <;> cases h
    · split at h <;> cases h
  · cases h

theorem pointsInto_of_readComment {cs : List Char} {e : ParseError}
    (h : readComment cs = .error e) : e.PointsInto ('<' :: '!' :: '-' :: '-' :: cs) := by
  unfold readComment at h
  split at h
  · cases h
  · obtain rfl := Except.error.inj h
    exact .of_label rfl (.front (m := ['<', '!', '-', '-']) (by simp) cs)

theorem pointsInto_of_readDeclaration {cs : List Char} {mark : Char} {e : ParseError}
    (hmark : mark = '!' ∨ mark = '?') (h : readDeclaration mark cs = .error e) :
    e.PointsInto ('<' :: mark :: cs) := by
  unfold readDeclaration at h
  split at h
  · cases h
  · obtain rfl := Except.error.inj h
    have hmarks := Span.Marks.front (m := ['<', mark]) (by simp) cs
    have hsize : byteLength ['<', mark] = 2 := by rcases hmark with rfl | rfl <;> rfl
    rw [hsize] at hmarks
    exact .of_label rfl hmarks

/-- A fault in an element that begins with `<`: in its opening tag, or in its raw content. -/
theorem pointsInto_of_readElement {cs : List Char} {e : ParseError}
    (h : ((readOpenTag cs).bind fun p => readContent p.1 p.2) = .error e) :
    e.PointsInto ('<' :: cs) := by
  cases hopen : readOpenTag cs with
  | error inner =>
    rw [hopen] at h
    obtain rfl := Except.error.inj h
    exact pointsInto_of_readOpenTag hopen
  | ok p =>
    rw [hopen] at h
    have hpoints := pointsInto_of_readContent h
    rwa [← eq_of_readOpenTag hopen] at hpoints

/-- **A fault in a token** is in the text from the token's start on. -/
theorem pointsInto_of_readToken {cs : List Char} {e : ParseError}
    (h : readToken cs = .error e) : e.PointsInto cs := by
  have hcs := Start.eq_shown_append_rest cs
  unfold readToken at h
  split at h
  · rename_i rest hstart
    rw [hstart] at hcs
    rw [hcs]
    exact pointsInto_of_readComment h
  · rename_i mark rest hstart
    obtain ⟨rfl, hmark⟩ := Start.mark_of_declaration hstart
    exact pointsInto_of_readDeclaration hmark h
  · rename_i rest hstart
    rw [hstart] at hcs
    rw [hcs]
    cases hclose : readCloseTag rest with
    | ok p => simp [hclose, Except.map] at h
    | error inner =>
      rw [hclose] at h
      obtain rfl := Except.error.inj h
      exact pointsInto_of_readCloseTag hclose
  · rename_i rest hstart
    rw [hstart] at hcs
    rw [hcs]
    exact pointsInto_of_readElement h
  · cases h

/-- The tokens of a text are its beginning, and a fault is in the rest. -/
theorem exists_of_tokenize (cs : List Char) :
    ∃ rest, cs = writtenTokens (tokenize cs).1 ++ rest ∧
      ∀ e, (tokenize cs).2 = some e → e.PointsInto rest := by
  fun_induction tokenize cs with
  | case1 => exact ⟨[], rfl, fun e he => by cases he⟩
  | case2 c cs fault hfault =>
    refine ⟨c :: cs, rfl, fun e he => ?_⟩
    obtain rfl := Option.some.inj he
    exact pointsInto_of_readToken hfault
  | case3 c cs t rest ht ih =>
    obtain ⟨tail, hrest, hfault⟩ := ih
    refine ⟨tail, ?_, hfault⟩
    rw [writtenTokens_cons, List.append_assoc, ← hrest, ← eq_of_readToken ht]

/-! ## Faults in the assembly -/

namespace Assembly

/-- After `read` has been read: the offset is its end, and the open elements were opened in it. -/
structure Reached (read : List Char) (a : Assembly) : Prop where
  offset : a.offset = byteLength read
  opened : ∀ o ∈ a.enclosing, o.shell.openTag.Marks read

theorem reached_start : Reached [] start := ⟨rfl, fun _ ho => nomatch ho⟩

section
variable {a : Assembly} {done : List Char}

theorem Reached.marks_spanAt (h : a.Reached done) {written : List Char} (hne : written ≠ []) :
    (spanAt a.offset written).Marks (done ++ written) := by
  refine ⟨done, written, [], by rw [List.append_nil], hne, ?_⟩
  rw [spanAt, h.offset]

/-- After a token that leaves some of the open elements open. -/
theorem Reached.advance (h : a.Reached done) (written : List Char) (level : List Node)
    {enclosing : List OpenElement} (hsub : ∀ o ∈ enclosing, o ∈ a.enclosing) :
    Reached (done ++ written) ⟨(spanAt a.offset written).stop, level, enclosing⟩ where
  offset := by rw [byteLength_append, ← h.offset]; rfl
  opened := fun o ho => (h.opened o (hsub o ho)).append written

/-- **One token**: what has been read grows by it. -/
theorem reached_of_read {t : Token} {a' : Assembly} (h : a.Reached done)
    (hread : a.read t = .ok a') : a'.Reached (done ++ t.written) := by
  have hkeep : ∀ o ∈ a.enclosing, o ∈ a.enclosing := fun _ ho => ho
  cases t with
  | text | comment | raw =>
    obtain rfl := Except.ok.inj hread
    exact h.advance _ _ hkeep
  | openTag tag =>
    simp only [read] at hread
    split at hread
    · obtain rfl := Except.ok.inj hread
      exact h.advance _ _ hkeep
    · obtain rfl := Except.ok.inj hread
      have hadvance := h.advance (Token.openTag tag).written [] hkeep
      refine ⟨hadvance.offset, fun o ho => ?_⟩
      rcases List.mem_cons.1 ho with rfl | ho
      · exact h.marks_spanAt tag.written_ne_nil
      · exact hadvance.opened o ho
  | closeTag tag =>
    simp only [read, close] at hread
    split at hread
    · cases hread
    · rename_i o outer henclosing
      split at hread
      · obtain rfl := Except.ok.inj hread
        exact h.advance _ _ fun o ho => by rw [henclosing]; exact List.mem_cons_of_mem _ ho
      · cases hread

/-- **A closing tag out of place** is shown where it is, with the element that is open. -/
theorem pointsInto_of_read {t : Token} {e : ParseError} (h : a.Reached done)
    (hread : a.read t = .error e) : e.PointsInto (done ++ t.written) := by
  cases t with
  | text | comment | raw => cases hread
  | openTag tag =>
    simp only [read] at hread
    split at hread <;> cases hread
  | closeTag tag =>
    have hplace : (spanAt a.offset tag.written).Marks (done ++ tag.written) :=
      h.marks_spanAt tag.written_ne_nil
    simp only [read, close] at hread
    split at hread
    · obtain rfl := Except.error.inj hread
      exact .of_label rfl hplace
    · rename_i o outer henclosing
      split at hread
      · cases hread
      · obtain rfl := Except.error.inj hread
        intro l hl
        simp only [ParseError.labels, List.mem_cons, List.not_mem_nil, or_false] at hl
        rcases hl with rfl | rfl
        · exact hplace
        · exact (h.opened o (by rw [henclosing]; exact List.mem_cons_self ..)).append _

/-- **All tokens**: they are assembled, or the first one out of place is the fault. -/
theorem read_all (ts : List Token) (h : a.Reached done) :
    (∃ a', ts.foldlM read a = .ok a' ∧ a'.Reached (done ++ writtenTokens ts)) ∨
      ∃ e, ts.foldlM read a = .error e ∧ e.PointsInto (done ++ writtenTokens ts) := by
  induction ts generalizing a done with
  | nil => exact .inl ⟨a, rfl, by rwa [writtenTokens_nil, List.append_nil]⟩
  | cons t ts ih =>
    rw [List.foldlM_cons, writtenTokens_cons, ← List.append_assoc]
    cases hread : a.read t with
    | error e => exact .inr ⟨e, rfl, (pointsInto_of_read h hread).append _⟩
    | ok a' => exact ih (reached_of_read h hread)

end

end Assembly

/-- **The places of a fault**: whatever the fault of a text is, each place that explains it is in
the text. -/
theorem pointsInto_of_parse {cs : List Char} {e : ParseError} (h : parse cs = .error e) :
    e.PointsInto cs := by
  obtain ⟨rest, hcs, hfault⟩ := exists_of_tokenize cs
  have hparse : parse cs = assemble (tokenize cs).1 (tokenize cs).2 := rfl
  rw [hparse, assemble] at h
  rcases Assembly.read_all (tokenize cs).1 Assembly.reached_start with
    ⟨a, ha, hreached⟩ | ⟨e', he', hpoints⟩
  · rw [List.nil_append] at hreached
    simp only [ha] at h
    cases hf : (tokenize cs).2 with
    | some inner =>
      rw [hf] at h
      obtain rfl := Except.error.inj h
      have hshift := (hfault inner hf).shift (writtenTokens (tokenize cs).1)
      rwa [← hreached.offset, ← hcs] at hshift
    | none =>
      rw [hf] at h
      simp only [Assembly.finish] at h
      split at h
      · cases h
      · rename_i o outer henclosing
        obtain rfl := Except.error.inj h
        rw [hcs]
        exact .of_label rfl ((hreached.opened o (by rw [henclosing]; simp)).append rest)
  · rw [List.nil_append] at hpoints
    simp only [he'] at h
    obtain rfl := Except.error.inj h
    rw [hcs]
    exact hpoints.append rest

end Markup

end Islands
