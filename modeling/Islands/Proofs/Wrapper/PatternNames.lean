import Islands.Proofs.Script.Brackets
import Islands.Proofs.Wrapper.RepetitionParts

/-!
# Patterns as names of the items

The name of the items may be a pattern with default values, and so hold brackets and string
literals. The search for the word `in` or `of` follows the brackets and the quotation marks, but
takes a backslash for any other character. It is where an expression is read to be (`Matches`), as
long as no literal holds its own quotation mark.

* `Matches.behind`, `Matches.through`: one character, and a whole text.
* `standsBetween_iff_wordStands`: the places of the word.
* `ofDirective?_pattern_iff`: such a name is found again exactly if the word does not stand in it.
-/

namespace Islands

open Script

/-! ## Two readings -/

theorem bracketStep_of_closingBracket? {c closing : Char} (h : closingBracket? c = some closing) :
    bracketStep c = 1 := by
  unfold closingBracket? at h
  split at h
  · rfl
  · rfl
  · rfl
  · cases h

theorem bracketStep_of_isClosingBracket {c : Char} (h : isClosingBracket c = true) :
    bracketStep c = -1 := by
  simp only [isClosingBracket, Bool.or_eq_true, beq_iff_eq] at h
  rcases h with (rfl | rfl) | rfl <;> rfl

theorem bracketStep_of_none {c : Char} (hopening : closingBracket? c = none)
    (hclosing : isClosingBracket c = false) : bracketStep c = 0 := by
  unfold closingBracket? at hopening
  simp only [isClosingBracket, Bool.or_eq_false_iff, beq_eq_false_iff_ne] at hclosing
  split at hopening
  · cases hopening
  · cases hopening
  · cases hopening
  · rename_i hparen hsquare hbrace
    unfold bracketStep
    rw [if_neg (by simp_all), if_neg (by simp_all)]

/-- The search for the word and the reading of an expression are at the same place: as many brackets
are open, and the same quotation mark. -/
structure Matches (s : ClauseState) (r : Reading) : Prop where
  depth : s.depth = r.awaited.length
  mark : s.mark = r.literal.mark?

namespace Matches

variable {s : ClauseState} {r r' : Reading}

theorem outside : Matches .outside .outside := ⟨rfl, rfl⟩

theorem eq_outside_iff (h : Matches s r) : s = .outside ↔ r = .outside := by
  obtain ⟨depth, mark⟩ := s
  obtain ⟨awaited, literal⟩ := r
  obtain ⟨hdepth, hmark⟩ := h
  simp only at hdepth hmark
  subst hdepth hmark
  simp only [ClauseState.outside, Reading.outside, ClauseState.mk.injEq, Reading.mk.injEq,
    Int.natCast_eq_zero, List.length_eq_zero_iff]
  refine and_congr_right fun _ => ?_
  cases literal <;> simp [LiteralState.mark?]

theorem behind_outside {awaited : List Char} {c : Char}
    (hread : Reading.behind ⟨awaited, .outside⟩ c = some r') :
    Matches (ClauseState.behind ⟨awaited.length, none⟩ c) r' := by
  simp only [Reading.behind] at hread
  simp only [ClauseState.behind]
  split at hread
  · rename_i hquote
    obtain rfl := Option.some.inj hread
    rw [if_pos hquote]
    exact ⟨rfl, rfl⟩
  · rename_i hquote
    rw [if_neg hquote]
    split at hread
    · rename_i closing hopening
      obtain rfl := Option.some.inj hread
      rw [bracketStep_of_closingBracket? hopening]
      exact ⟨rfl, rfl⟩
    · rename_i hopening
      split at hread
      · rename_i hclosing
        rw [bracketStep_of_isClosingBracket hclosing]
        split at hread
        · split at hread
          · obtain rfl := Option.some.inj hread
            refine ⟨?_, rfl⟩
            simp only [List.length_cons]
            omega
          · cases hread
        · cases hread
      · rename_i hclosing
        obtain rfl := Option.some.inj hread
        rw [bracketStep_of_none hopening (Bool.eq_false_iff.2 hclosing)]
        exact ⟨Int.add_zero _, rfl⟩

/-- **One character**: the two stay at the same place, unless the quotation mark of a literal stands
behind a backslash. -/
theorem behind {c : Char} (h : Matches s r) (hread : r.behind c = some r')
    (hmark : r.literal ≠ .escaped c) : Matches (s.behind c) r' := by
  obtain ⟨depth, mark⟩ := s
  obtain ⟨awaited, literal⟩ := r
  obtain ⟨rfl, rfl⟩ := h
  cases literal with
  | outside => exact behind_outside hread
  | inside q =>
    obtain rfl := Option.some.inj hread
    simp only [ClauseState.behind, LiteralState.mark?, beq_iff_eq]
    refine ⟨rfl, ?_⟩
    split
    · rfl
    · split <;> rfl
  | escaped q =>
    obtain rfl := Option.some.inj hread
    have hne : ¬c = q := fun hcq => hmark (by rw [hcq])
    simp only [ClauseState.behind, LiteralState.mark?, beq_iff_eq, if_neg hne]
    exact ⟨rfl, rfl⟩

theorem through {cs : List Char} (h : Matches s r) (hread : r.through cs = some r')
    (hmarks : escapesMark r cs = false) : Matches (s.through cs) r' := by
  induction cs generalizing s r with
  | nil =>
    obtain rfl := Option.some.inj hread
    exact h
  | cons c cs ih =>
    obtain ⟨next, hnext, hread⟩ := Option.bind_eq_some_iff.1 (List.foldlM_cons.symm.trans hread)
    simp only [escapesMark, hnext, Bool.or_eq_false_iff, beq_eq_false_iff_ne] at hmarks
    exact ih (h.behind hnext hmarks.1) hread hmarks.2

end Matches

/-! ## Places of the word -/

/-- The word `in` or `of` stands in a text between blanks, behind `before`, outside the brackets and
the literals of the expression. -/
def WordStands (cs before : List Char) : Prop :=
  ∃ blank word next rest, cs = before ++ blank :: (word ++ next :: rest) ∧
    isBlank blank = true ∧ isBlank next = true ∧ (word = ['i', 'n'] ∨ word = ['o', 'f']) ∧
    IsBalanced before

theorem escapesMark_of_append {r : Reading} {a b : List Char}
    (h : escapesMark r (a ++ b) = false) : escapesMark r a = false := by
  induction a generalizing r with
  | nil => rfl
  | cons c a ih =>
    simp only [List.cons_append, escapesMark, Bool.or_eq_false_iff] at h ⊢
    refine ⟨h.1, ?_⟩
    cases hnext : r.behind c with
    | none => rfl
    | some next =>
      rw [hnext] at h
      exact ih h.2

section
variable {item : List Char} (hbalanced : IsBalanced item)
  (hmarks : escapesMark .outside item = false)
include hbalanced hmarks

/-- The search is outside brackets and quotation marks where the expression is. -/
theorem through_eq_outside_iff {before : List Char} (h : before <+: item) :
    ClauseState.outside.through before = .outside ↔ IsBalanced before := by
  obtain ⟨rest, rfl⟩ := h
  obtain ⟨r, hread, -⟩ := Option.bind_eq_some_iff.1 ((Reading.through_append _ _ _).symm.trans
    hbalanced)
  rw [(Matches.outside.through hread (escapesMark_of_append hmarks)).eq_outside_iff, IsBalanced,
    hread, Option.some.injEq]

theorem through_eq_outside : ClauseState.outside.through item = .outside :=
  (through_eq_outside_iff hbalanced hmarks List.prefix_rfl).2 hbalanced

/-- **The places of the word** in a name and the blank behind it are those in the expression. -/
theorem standsBetween_iff_wordStands {before : List Char} :
    (∃ after, StandsBetween .outside (item ++ [' ']) before after) ↔
      WordStands (item ++ [' ']) before := by
  -- the word ends behind `before`, so `before` is a part of the name
  have hbefore : ∀ {blank word next rest}, (word = ['i', 'n'] ∨ word = ['o', 'f']) →
      item ++ [' '] = before ++ blank :: (word ++ next :: rest) → before <+: item := by
    intro blank word next rest hword hcs
    have hlen := congrArg List.length hcs
    have : word.length = 2 := by rcases hword with rfl | rfl <;> rfl
    simp only [List.length_append, List.length_cons, List.length_nil] at hlen
    exact List.prefix_of_prefix_length_le ⟨_, hcs.symm⟩ (List.prefix_append item [' ']) (by omega)
  constructor
  · rintro ⟨after, blank, word, next, rest, hcs, rfl, hblank, hnext, hword, hstate⟩
    exact ⟨blank, word, next, rest, hcs, hblank, hnext, hword,
      (through_eq_outside_iff hbalanced hmarks (hbefore hword hcs)).1 hstate⟩
  · rintro ⟨blank, word, next, rest, hcs, hblank, hnext, hword, hread⟩
    exact ⟨_, blank, word, next, rest, hcs, rfl, hblank, hnext, hword,
      (through_eq_outside_iff hbalanced hmarks (hbefore hword hcs)).2 hread⟩

end

/-! ## Repetitions -/

theorem length_trimBy_le (p : Char → Bool) (cs : List Char) :
    (trimBy p cs).length ≤ cs.length := by
  have hback := (List.dropWhile_sublist (l := (cs.dropWhile p).reverse) p).length_le
  have hfront := (List.dropWhile_sublist (l := cs) p).length_le
  rw [List.length_reverse] at hback
  rw [trimBy, List.length_reverse]
  exact Nat.le_trans hback hfront

namespace Repetition

/-- A word in the name or right behind it would be taken for the one that joins the two. -/
theorem not_standsBetween_of_joined {directive item iterable : String} {after : List Char}
    (hdirective : directive.toList = item.toList ++ ' ' :: after)
    (h : ofDirective? directive = some ⟨directive, item, iterable⟩) (before after' : List Char) :
    ¬StandsBetween .outside (item.toList ++ [' ']) before after' := by
  rintro ⟨blank, word, next, rest, hcs, rfl, hblank, hnext, hword, hstate⟩
  obtain ⟨before', after', ⟨-, hleast⟩, -, -, hparts⟩ := ofDirective?_eq_some_iff.1 h
  obtain ⟨-, hitem, -⟩ := Repetition.mk.inj hparts
  have hstands : StandsBetween .outside directive.toList before (next :: rest ++ after) := by
    refine ⟨blank, word, next, rest ++ after, ?_, rfl, hblank, hnext, hword, hstate⟩
    rw [hdirective, ← List.singleton_append, ← List.append_assoc, hcs]
    simp
  have hle := hleast _ _ hstands
  have htrim := length_trimBy_le isWhite before'
  have hlen := congrArg List.length hcs
  rw [hitem, String.toList_ofList] at hlen
  simp only [List.length_append, List.length_cons, List.length_nil] at hlen
  omega

/-- **A pattern as the name of the items**: the brackets match, the literals are closed, and none
of them holds its own quotation mark. Joined with an expression by `in` or `of`, it is found again
exactly if neither word stands in it outside brackets and literals; a word at its end has the blank
behind it. -/
theorem ofDirective?_pattern_iff {item iterable word : String} (hword : word = "in" ∨ word = "of")
    (htrim : trim item = item) (hitem : item ≠ "") (htrim' : trim iterable = iterable)
    (hiterable : iterable ≠ "") (hbalanced : IsBalanced item.toList)
    (hmarks : escapesMark .outside item.toList = false) :
    ofDirective? (item ++ " " ++ word ++ " " ++ iterable) =
        some ⟨item ++ " " ++ word ++ " " ++ iterable, item, iterable⟩ ↔
      ∀ before, ¬WordStands (item ++ " ").toList before := by
  have hdirective : (item ++ " " ++ word ++ " " ++ iterable).toList =
      item.toList ++ ' ' :: (word.toList ++ ' ' :: iterable.toList) := by simp
  have hchars : word.toList = ['i', 'n'] ∨ word.toList = ['o', 'f'] := by
    rcases hword with rfl | rfl
    · exact .inl rfl
    · exact .inr rfl
  have hplaces : ∀ before, WordStands (item ++ " ").toList before ↔
      ∃ after, StandsBetween .outside (item ++ " ").toList before after := by
    rw [String.toList_append]
    exact fun before => (standsBetween_iff_wordStands hbalanced hmarks).symm
  simp only [hplaces, not_exists]
  constructor
  · rw [String.toList_append]
    exact not_standsBetween_of_joined hdirective
  · exact ofDirective?_joined hchars hdirective htrim hitem htrim' hiterable
      (through_eq_outside hbalanced hmarks)

/-- A pattern with default values that hold a word, a bracket and escapes. -/
def defaultsPattern : String := "\x7b a = ' in ', b = [`\\(`, '\\n\"'] \x7d"

/-- The pattern is found again. -/
theorem ofDirective?_pattern_iff_defaults :
    IsBalanced defaultsPattern.toList ∧ escapesMark .outside defaultsPattern.toList = false ∧
      ofDirective? (defaultsPattern ++ " " ++ "in" ++ " " ++ "a of b") =
        some ⟨defaultsPattern ++ " " ++ "in" ++ " " ++ "a of b", defaultsPattern, "a of b"⟩ ∧
      ∀ before, ¬WordStands (defaultsPattern ++ " ").toList before := by
  have hbalanced : IsBalanced defaultsPattern.toList := by decide
  have hmarks : escapesMark .outside defaultsPattern.toList = false := by decide
  have hfound : ofDirective? (defaultsPattern ++ " " ++ "in" ++ " " ++ "a of b") =
      some ⟨defaultsPattern ++ " " ++ "in" ++ " " ++ "a of b", defaultsPattern, "a of b"⟩ := by
    decide
  exact ⟨hbalanced, hmarks, hfound, (ofDirective?_pattern_iff (.inl rfl) (by decide) (by decide)
    (by decide) (by decide) hbalanced hmarks).1 hfound⟩

/-- A pattern in which a literal holds its own quotation mark. -/
def apostrophePattern : String := "\x7b a = '\\'' \x7d"

/-- The search takes the mark behind the backslash for the end of the literal, and the next one for
the start of another, which is not closed: the word that joins the pattern and the expression is not
found. -/
theorem not_ofDirective?_pattern :
    IsBalanced apostrophePattern.toList ∧ trim apostrophePattern = apostrophePattern ∧
      (∀ before, ¬WordStands (apostrophePattern ++ " ").toList before) ∧
      ofDirective? (apostrophePattern ++ " in " ++ "b") = none := by
  refine ⟨by decide, by decide, fun before => ?_, by decide⟩
  rintro ⟨blank, word, next, rest, hcs, -, -, hword, -⟩
  -- the pattern has neither of the last letters of the two words
  have hletter : 'n' ∈ (apostrophePattern ++ " ").toList ∨
      'f' ∈ (apostrophePattern ++ " ").toList := by
    rw [hcs]
    rcases hword with rfl | rfl <;> simp
  exact absurd hletter (by decide)

end Repetition

end Islands
