import Islands.Proofs.Markup.Enclosed

/-!
# Templates one behind the other

A template that does not end in text can be put in front of another one: both are read as they are
by themselves, the second one further behind, and a fault of the second one is the fault of both.
Nothing that is read in the first template depends on what follows it, since its last token is
sound, and what has been assembled of it stays at the bottom while the second one is assembled on
top (`Assembly.behind`).

* `tokenize_append`: the tokens of the two.
* `read_behind`, `foldlM_read_behind`: a token, and a run of tokens, on top of what is complete.
* `parse_append`: the nodes or the fault of the two.
-/

namespace Islands.Markup

/-! ## Tokens -/

/-- The last of some tokens is no text. -/
def EndsOutsideText (ts : List Token) : Prop := ∀ t, ts.getLast? = some t → t.isText = false

theorem EndsOutsideText.tail {t u : Token} {ts : List Token} (h : EndsOutsideText (t :: u :: ts)) :
    EndsOutsideText (u :: ts) := fun v hv => h v (by rwa [List.getLast?_cons_cons])

/-- The first of some readable tokens is what is read first, whatever follows the last of them. -/
theorem readToken_append {t : Token} {ts : List Token} (h : Readable (t :: ts))
    (hlast : EndsOutsideText (t :: ts)) (b : List Char) :
    readToken (t.written ++ (writtenTokens ts ++ b)) = .ok (t, writtenTokens ts ++ b) := by
  induction ts generalizing t with
  | nil =>
    have ht : t.isText = false := hlast t rfl
    exact readToken_of_sound (h.sound List.mem_cons_self ht) fun htext => by
      rw [ht] at htext
      cases htext
  | cons u ts ih =>
    refine readToken_of_sound h.1 fun ht => .inr fun hs => ?_
    -- the next token is markup, and it is read as such
    rw [writtenTokens_cons, List.append_assoc] at hs
    have hu := (isText_of_readToken (ih h.2.2 hlast.tail)).2 hs
    rw [h.2.1 ht] at hu
    cases hu

/-- **The tokens of two texts**, the first of which does not end in text. -/
theorem tokenize_append {ts : List Token} (h : Readable ts) (hlast : EndsOutsideText ts)
    (b : List Char) :
    tokenize (writtenTokens ts ++ b) = (ts ++ (tokenize b).1, (tokenize b).2) := by
  induction ts with
  | nil => rfl
  | cons t ts ih =>
    have hread := readToken_append h hlast b
    have hne : t.written ++ (writtenTokens ts ++ b) ≠ [] := by simp [h.written_ne_nil]
    have hrest : EndsOutsideText ts := by
      cases ts with
      | nil => exact fun u hu => (nomatch hu)
      | cons u ts => exact hlast.tail
    rw [writtenTokens_cons, List.append_assoc, tokenize_of_readToken hne hread, ih h.tail hrest]
    rfl

/-! ## Assembly on top of complete nodes -/

theorem shiftAll_eq_map (n : Nat) (nodes : List Node) :
    shiftAll n nodes = nodes.map (Node.shift n) := by
  induction nodes with
  | nil => rfl
  | cons node nodes ih => rw [shiftAll, ih, List.map_cons]

/-- Nodes of one level further behind, the last one first. At the outermost level the complete nodes
`done` are in front of them. -/
def levelBehind (n : Nat) (done : List Node) (outermost : Bool) (level : List Node) : List Node :=
  shiftAll n level ++ if outermost then done else []

/-- Open elements further behind, with complete nodes in front of the outermost one. -/
def openBehind (n : Nat) (done : List Node) : List OpenElement → List OpenElement
  | [] => []
  | e :: outer =>
    ⟨e.shell.shift n, levelBehind n done outer.isEmpty e.before⟩ :: openBehind n done outer

/-- What has been assembled, further behind, with complete nodes in front of it. -/
def Assembly.behind (n : Nat) (done : List Node) (a : Assembly) : Assembly :=
  ⟨n + a.offset, levelBehind n done a.enclosing.isEmpty a.level, openBehind n done a.enclosing⟩

/-- The same result in a text with `n` more bytes in front. -/
def shiftResult {α : Type} (n : Nat) (f : α → α) : Except ParseError α → Except ParseError α
  | .ok x => .ok (f x)
  | .error e => .error (e.shift n)

section
variable (n : Nat) (done : List Node)

theorem levelBehind_cons (outermost : Bool) (node : Node) (level : List Node) :
    levelBehind n done outermost (node :: level) =
      node.shift n :: levelBehind n done outermost level := rfl

theorem add_behind (a : Assembly) (stop : Nat) (node : Node) :
    (a.behind n done).add (n + stop) (node.shift n) = (a.add stop node).behind n done := by
  simp only [Assembly.add, Assembly.behind, levelBehind_cons]

theorem close_behind (a : Assembly) (tag : CloseTag) (place : Span) :
    (a.behind n done).close tag (place.shift n) =
      shiftResult n (Assembly.behind n done) (a.close tag place) := by
  obtain ⟨offset, level, enclosing⟩ := a
  cases enclosing with
  | nil => rfl
  | cons e outer =>
    -- the element that it ends is not at the outermost level
    have hinner : (levelBehind n done false level).reverse = shiftAll n level.reverse := by
      rw [levelBehind, if_neg Bool.false_ne_true, List.append_nil, shiftAll_eq_map, shiftAll_eq_map,
        List.map_reverse]
    have hname : (e.shell.shift n).name = e.shell.name := rfl
    simp only [Assembly.behind, Assembly.close, openBehind, List.isEmpty_cons, hname, hinner]
    split
    · rfl
    · rfl

/-- **One token** has the same effect on top of complete nodes, further behind. -/
theorem read_behind (a : Assembly) (t : Token) :
    (a.behind n done).read t = shiftResult n (Assembly.behind n done) (a.read t) := by
  have hplace : spanAt (a.behind n done).offset t.written = (spanAt a.offset t.written).shift n :=
    spanAt_shift n a.offset t.written
  cases t with
  | text body =>
    simp only [Assembly.read, hplace, shiftResult, ← add_behind]
    rfl
  | comment body =>
    simp only [Assembly.read, hplace, shiftResult, ← add_behind]
    rfl
  | openTag tag =>
    have hshell : tag.shellAt (a.behind n done).offset none = (tag.shellAt a.offset none).shift n :=
      tag.shellAt_shift n a.offset none
    simp only [Assembly.read, hplace, hshell]
    split
    · simp only [shiftResult, ← add_behind]
      rfl
    · rfl
  | closeTag tag =>
    simp only [Assembly.read, hplace]
    exact close_behind n done a tag _
  | raw tag body close =>
    let inside := a.offset + byteLength tag.written
    let closing := spanAt (inside + byteLength body) close.written
    have hinside : (a.behind n done).offset + byteLength tag.written = n + inside :=
      Nat.add_assoc ..
    have hshell : tag.shellAt (a.behind n done).offset (some (closing.shift n)) =
        (tag.shellAt a.offset (some closing)).shift n :=
      tag.shellAt_shift n a.offset (some closing)
    have hclosing : spanAt (n + inside + byteLength body) close.written = closing.shift n := by
      rw [Nat.add_assoc, spanAt_shift]
    let node : Node :=
      .element (tag.shellAt a.offset (some closing)) (Assembly.rawContent inside body)
    simp only [Assembly.read, hplace, hinside, hclosing, hshell, rawContent_shift n inside]
    exact congrArg Except.ok (add_behind n done a _ node)

theorem foldlM_read_behind (ts : List Token) (a : Assembly) :
    ts.foldlM Assembly.read (a.behind n done) =
      shiftResult n (Assembly.behind n done) (ts.foldlM Assembly.read a) := by
  induction ts generalizing a with
  | nil => rfl
  | cons t ts ih =>
    rw [List.foldlM_cons, List.foldlM_cons, read_behind]
    cases a.read t with
    | error e => rfl
    | ok a' => exact ih a'

theorem finish_behind (a : Assembly) :
    (a.behind n done).finish = shiftResult n (done.reverse ++ shiftAll n ·) a.finish := by
  obtain ⟨offset, level, enclosing⟩ := a
  cases enclosing with
  | nil =>
    have hlevel : (levelBehind n done true level).reverse =
        done.reverse ++ shiftAll n level.reverse := by
      rw [levelBehind, if_pos rfl, List.reverse_append, shiftAll_eq_map, shiftAll_eq_map,
        List.map_reverse]
    exact congrArg Except.ok hlevel
  | cons e outer => rfl

end

theorem assemble_append {ps : List Part} (hp : PairedAll ps) (ts : List Token)
    (fault : Option ParseError) :
    assemble (tokensOf ps ++ ts) fault =
      shiftResult (byteLength (writtenOf ps))
        (nodesAt 0 ps ++ shiftAll (byteLength (writtenOf ps)) ·) (assemble ts fault) := by
  let n := byteLength (writtenOf ps)
  let done := (nodesAt 0 ps).reverse
  have hstart : Assembly.start.extend ps = Assembly.start.behind n done := by
    simp [Assembly.start, Assembly.extend, Assembly.behind, levelBehind, openBehind, shiftAll, n,
      done]
  have hfold : (tokensOf ps ++ ts).foldlM Assembly.read Assembly.start =
      shiftResult n (Assembly.behind n done) (ts.foldlM Assembly.read Assembly.start) := by
    rw [List.foldlM_append, foldlM_read_tokensOf _ ps hp, ← foldlM_read_behind, ← hstart]
    rfl
  rw [assemble, hfold, assemble]
  cases ts.foldlM Assembly.read Assembly.start with
  | error e => rfl
  | ok a =>
    cases fault with
    | some e =>
      show Except.error (e.shift (n + a.offset)) = .error ((e.shift a.offset).shift n)
      rw [ParseError.shift_shift]
    | none =>
      have hfinish := finish_behind n done a
      rwa [List.reverse_reverse] at hfinish

/-! ## Templates -/

/-- **Templates one behind the other**: if the first one is read, and its last node is no text, then
the nodes of both are its nodes and those of the second one, moved. If the second one is not read,
then both are not for the same reason, told in the same words about places that are moved. -/
theorem parse_append {a b : List Char} {nodes : List Node} (h : parse a = .ok nodes)
    (hlast : ∀ span, nodes.getLast? ≠ some (.text span)) :
    (∀ more, parse b = .ok more → parse (a ++ b) = .ok (nodes ++ shiftAll (byteLength a) more)) ∧
      ∀ e, parse b = .error e → ∃ e', parse (a ++ b) = .error e' ∧ e'.message = e.message ∧
        e'.help? = e.help? ∧ e'.labels = e.labels.map (Label.shift (byteLength a)) := by
  obtain ⟨ps, hp, hr, rfl, rfl⟩ := parse_eq_ok_iff.1 h
  have houtside : EndsOutsideText (tokensOf ps) := by
    intro t ht
    cases t with
    | text body =>
      obtain ⟨qs, rfl⟩ := exists_text_of_getLast?_tokensOf ht
      refine absurd ?_ (hlast (spanAt (0 + byteLength (writtenOf qs)) body))
      rw [nodesAt_append]
      exact List.getLast?_concat
    | _ => rfl
  have hparse : parse (writtenOf ps ++ b) = shiftResult (byteLength (writtenOf ps))
      (nodesAt 0 ps ++ shiftAll (byteLength (writtenOf ps)) ·) (parse b) := by
    show assemble _ _ = _
    rw [writtenOf, tokenize_append hr houtside]
    exact assemble_append hp _ _
  refine ⟨fun more hmore => ?_, fun e he => ⟨e.shift (byteLength (writtenOf ps)), ?_, ?_⟩⟩
  · rw [hparse, hmore]
    rfl
  · rw [hparse, he]
    rfl
  · exact ⟨ParseError.message_shift _ e, ParseError.help?_shift _ e, ParseError.labels_shift _ e⟩

/-- Two elements with text between them; behind them an element with an attribute, and one that is
not closed. -/
theorem parse_append_elements :
    parse ("<b/>é<i></i>".toList ++ "x<p a=1></p>".toList) =
        .ok [.element ⟨"b", [], ⟨0, 4⟩, none⟩ [], .text ⟨4, 6⟩,
          .element ⟨"i", [], ⟨6, 9⟩, some ⟨9, 13⟩⟩ [], .text ⟨13, 14⟩,
          .element ⟨"p", [⟨"a", some "1", ⟨17, 20⟩⟩], ⟨14, 21⟩, some ⟨21, 25⟩⟩ []] ∧
      ∃ e', parse ("<b/>é<i></i>".toList ++ "\x7b\x7b x <p></p>\x7d\x7d<q>".toList) = .error e' ∧
        e'.message = "Element `<q>` is missing its end tag" ∧
        e'.help? = some "Add `</q>` or make the element self-closing" ∧
        e'.labels = [⟨"opened here", ⟨27, 30⟩⟩] := by
  have hparse : parse "<b/>é<i></i>".toList = .ok [.element ⟨"b", [], ⟨0, 4⟩, none⟩ [],
      .text ⟨4, 6⟩, .element ⟨"i", [], ⟨6, 9⟩, some ⟨9, 13⟩⟩ []] := by decide +kernel
  have hmore : parse "x<p a=1></p>".toList = .ok [.text ⟨0, 1⟩,
      .element ⟨"p", [⟨"a", some "1", ⟨4, 7⟩⟩], ⟨1, 8⟩, some ⟨8, 12⟩⟩ []] := by decide +kernel
  have hfault : parse "\x7b\x7b x <p></p>\x7d\x7d<q>".toList =
      .error (.unclosedElement "q" ⟨14, 17⟩) := by decide +kernel
  have happend := parse_append (b := "x<p a=1></p>".toList) hparse (by simp)
  have happend' := parse_append (b := "\x7b\x7b x <p></p>\x7d\x7d<q>".toList) hparse (by simp)
  exact ⟨happend.1 _ hmore, happend'.2 _ hfault⟩

end Islands.Markup
