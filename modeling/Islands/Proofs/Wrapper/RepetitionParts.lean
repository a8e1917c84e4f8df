import Islands.Wrapper.Repetition

/-!
# The parts of a repetition

The value of `v-for` is read from left to right. What has been read so far leaves a depth of
brackets and maybe an open quotation mark (`ClauseState`), and the word `in` or `of` counts where it
stands between blanks and neither is left (`StandsBetween`). The first such place divides the value.

* `splitClause_eq_some_iff`, `splitClause_eq_none_iff`: the division, by induction on the value; the
  state of the reading is general, since the rest is read from wherever the first character leads.
* `firstBetween_joined`: a name and an expression joined by the word are divided between the two.
* `parts_ofDirective`: the repetition that a value describes.
-/

namespace Islands

/-! ## Places of the word -/

/-- How many brackets are open at a place, and the quotation mark that is open there. -/
structure ClauseState where
  depth : Int
  mark : Option Char
deriving DecidableEq

namespace ClauseState

/-- Outside brackets and quotation marks. -/
def outside : ClauseState := ⟨0, none⟩

/-- The state behind one more character. In quotation marks only the same mark counts. -/
def behind (s : ClauseState) (c : Char) : ClauseState :=
  match s.mark with
  | some q => ⟨s.depth, if c == q then none else some q⟩
  | none => if isQuoteMark c then ⟨s.depth, some c⟩ else ⟨s.depth + bracketStep c, none⟩

/-- The state behind a text. -/
def through (s : ClauseState) (cs : List Char) : ClauseState := cs.foldl behind s

end ClauseState

/-- The word `in` or `of` stands in a text, read from the state `s`, behind `before` and a blank. It
is outside brackets and quotation marks, and `after`, which follows it, begins with a blank. -/
def StandsBetween (s : ClauseState) (cs before after : List Char) : Prop :=
  ∃ blank word next rest, cs = before ++ blank :: (word ++ after) ∧ after = next :: rest ∧
    isBlank blank = true ∧ isBlank next = true ∧ (word = ['i', 'n'] ∨ word = ['o', 'f']) ∧
    s.through before = .outside

/-- The first place where the word stands. -/
def FirstBetween (s : ClauseState) (cs before after : List Char) : Prop :=
  StandsBetween s cs before after ∧
    ∀ before' after', StandsBetween s cs before' after' → before.length ≤ before'.length

theorem dropClauseWord?_eq_some_iff {cs after : List Char} :
    dropClauseWord? cs = some after ↔
      ∃ word next rest, cs = word ++ after ∧ after = next :: rest ∧ isBlank next = true ∧
        (word = ['i', 'n'] ∨ word = ['o', 'f']) := by
  have hor : ∀ rest, (dropWord? ['i', 'n'] cs).or (dropWord? ['o', 'f'] cs) = some rest ↔
      ∃ word, cs = word ++ rest ∧ (word = ['i', 'n'] ∨ word = ['o', 'f']) := by
    intro rest
    rw [Option.or_eq_some_iff, dropWord?_eq_some_iff, dropWord?_eq_some_iff]
    constructor
    · rintro (h | ⟨-, h⟩)
      · exact ⟨_, h, .inl rfl⟩
      · exact ⟨_, h, .inr rfl⟩
    · rintro ⟨word, h, rfl | rfl⟩
      · exact .inl h
      · -- a text cannot begin with both words
        exact .inr ⟨by rw [h]; rfl, h⟩
  unfold dropClauseWord?
  constructor
  · intro h
    split at h
    · rename_i c rest hword
      obtain ⟨word, hcs, hword⟩ := (hor _).1 hword
      split at h
      · rename_i hblank
        obtain rfl := Option.some.inj h
        exact ⟨word, c, rest, hcs, rfl, hblank, hword⟩
      · cases h
    · cases h
  · rintro ⟨word, next, rest, hcs, rfl, hblank, hword⟩
    rw [(hor _).2 ⟨word, hcs, hword⟩]
    exact if_pos hblank

/-- **One character**: the word stands behind it, or further on in the rest. -/
theorem standsBetween_cons {s : ClauseState} {c : Char} {cs before after : List Char} :
    StandsBetween s (c :: cs) before after ↔
      (before = [] ∧ s = .outside ∧ isBlank c = true ∧ dropClauseWord? cs = some after) ∨
      ∃ before', before = c :: before' ∧ StandsBetween (s.behind c) cs before' after := by
  cases before with
  | nil =>
    rw [dropClauseWord?_eq_some_iff]
    constructor
    · rintro ⟨blank, word, next, rest, hcs, hafter, hblank, hnext, hword, hstate⟩
      obtain ⟨rfl, rfl⟩ := List.cons.inj hcs
      exact .inl ⟨rfl, hstate, hblank, word, next, rest, rfl, hafter, hnext, hword⟩
    · rintro (⟨-, hstate, hblank, word, next, rest, rfl, hafter, hnext, hword⟩ | ⟨_, h, -⟩)
      · exact ⟨c, word, next, rest, rfl, hafter, hblank, hnext, hword, hstate⟩
      · cases h
  | cons d before =>
    constructor
    · rintro ⟨blank, word, next, rest, hcs, h⟩
      obtain ⟨rfl, rfl⟩ := List.cons.inj hcs
      exact .inr ⟨before, rfl, blank, word, next, rest, rfl, h⟩
    · rintro (⟨h, -⟩ | ⟨before', hbefore, blank, word, next, rest, rfl, h⟩)
      · cases h
      · obtain ⟨rfl, rfl⟩ := List.cons.inj hbefore
        exact ⟨blank, word, next, rest, rfl, h⟩

/-! ## The division -/

/-- What follows the word, if a text outside brackets and quotation marks begins with a blank and
the word. -/
def wordHere? (s : ClauseState) (c : Char) (cs : List Char) : Option (List Char) :=
  if s = .outside ∧ isBlank c = true then dropClauseWord? cs else none

theorem wordHere?_eq_some_iff {s : ClauseState} {c : Char} {cs after : List Char} :
    wordHere? s c cs = some after ↔
      s = .outside ∧ isBlank c = true ∧ dropClauseWord? cs = some after := by
  unfold wordHere?
  by_cases h : s = .outside ∧ isBlank c = true
  · rw [if_pos h]
    exact ⟨fun hdrop => ⟨h.1, h.2, hdrop⟩, fun hdrop => hdrop.2.2⟩
  · rw [if_neg h]
    exact ⟨fun hnone => (nomatch hnone), fun hdrop => absurd ⟨hdrop.1, hdrop.2.1⟩ h⟩

theorem isBlank_eq_false_of_isQuoteMark {c : Char} (h : isQuoteMark c = true) :
    isBlank c = false := by
  simp only [isQuoteMark, Bool.or_eq_true, beq_iff_eq] at h
  rcases h with (rfl | rfl) | rfl <;> rfl

theorem splitClause_cons (s : ClauseState) (c : Char) (cs : List Char) :
    splitClause s.depth s.mark (c :: cs) =
      match wordHere? s c cs with
      | some after => some ([], after)
      | none => (splitClause (s.behind c).depth (s.behind c).mark cs).map (prepend [c]) := by
  obtain ⟨depth, mark⟩ := s
  cases mark with
  | some q =>
    have hhere : wordHere? ⟨depth, some q⟩ c cs = none := if_neg fun h => by cases h.1
    rw [hhere]
    rfl
  | none =>
    by_cases hquote : isQuoteMark c = true
    · have hhere : wordHere? ⟨depth, none⟩ c cs = none := if_neg fun h => by
        rw [isBlank_eq_false_of_isQuoteMark hquote] at h
        cases h.2
      simp only [hhere, splitClause, ClauseState.behind, if_pos hquote]
    · have hhere : wordHere? ⟨depth, none⟩ c cs =
          if depth = 0 ∧ isBlank c = true then dropClauseWord? cs else none := by
        simp only [wordHere?, ClauseState.outside, ClauseState.mk.injEq, and_true]
      cases hword : if depth = 0 ∧ isBlank c = true then dropClauseWord? cs else none with
      | none => simp only [hhere, splitClause, ClauseState.behind, if_neg hquote, hword]
      | some rest => simp only [hhere, splitClause, if_neg hquote, hword]

/-- **The division** is at the first place of the word. -/
theorem splitClause_eq_some_iff {s : ClauseState} {cs before after : List Char} :
    splitClause s.depth s.mark cs = some (before, after) ↔ FirstBetween s cs before after := by
  induction cs generalizing s before with
  | nil =>
    refine ⟨fun h => (nomatch h), ?_⟩
    rintro ⟨⟨blank, word, next, rest, hcs, -⟩, -⟩
    exact absurd hcs (by simp)
  | cons c cs ih =>
    rw [splitClause_cons]
    cases hhere : wordHere? s c cs with
    | some rest =>
      obtain hrest := wordHere?_eq_some_iff.1 hhere
      have hfirst : StandsBetween s (c :: cs) [] rest := standsBetween_cons.2 (.inl ⟨rfl, hrest⟩)
      constructor
      · intro h
        obtain ⟨rfl, rfl⟩ := Prod.mk.inj (Option.some.inj h)
        exact ⟨hfirst, fun _ _ _ => Nat.zero_le _⟩
      · rintro ⟨hstands, hleast⟩
        obtain rfl := List.eq_nil_of_length_eq_zero (Nat.le_zero.1 (hleast _ _ hfirst))
        rcases standsBetween_cons.1 hstands with ⟨-, -, -, hdrop⟩ | ⟨_, h, -⟩
        · rw [hrest.2.2] at hdrop
          rw [Option.some.inj hdrop]
        · cases h
    | none =>
      -- so the word stands further on
      have hcons : ∀ {before' after'}, StandsBetween s (c :: cs) before' after' →
          ∃ tail, before' = c :: tail ∧ StandsBetween (s.behind c) cs tail after' := by
        intro before' after' h
        refine (standsBetween_cons.1 h).resolve_left fun h' => ?_
        rw [wordHere?_eq_some_iff.2 h'.2] at hhere
        cases hhere
      show Option.map _ _ = _ ↔ _
      rw [Option.map_eq_some_iff]
      constructor
      · rintro ⟨⟨tail, after'⟩, hsplit, h⟩
        obtain ⟨rfl, rfl⟩ := Prod.mk.inj h
        obtain ⟨hstands, hleast⟩ := ih.1 hsplit
        refine ⟨standsBetween_cons.2 (.inr ⟨tail, rfl, hstands⟩), fun before' after' h' => ?_⟩
        obtain ⟨tail', rfl, htail'⟩ := hcons h'
        exact Nat.succ_le_succ (hleast _ _ htail')
      · rintro ⟨hstands, hleast⟩
        obtain ⟨tail, rfl, htail⟩ := hcons hstands
        refine ⟨(tail, after), ih.2 ⟨htail, fun before' after' h' => ?_⟩, rfl⟩
        exact Nat.le_of_succ_le_succ (hleast _ _ (standsBetween_cons.2 (.inr ⟨before', rfl, h'⟩)))

theorem splitClause_eq_none_iff {s : ClauseState} {cs : List Char} :
    splitClause s.depth s.mark cs = none ↔ ∀ before after, ¬StandsBetween s cs before after := by
  induction cs generalizing s with
  | nil =>
    refine ⟨fun _ before after => ?_, fun _ => rfl⟩
    rintro ⟨blank, word, next, rest, hcs, -⟩
    exact absurd hcs (by simp)
  | cons c cs ih =>
    rw [splitClause_cons]
    cases hhere : wordHere? s c cs with
    | some rest =>
      refine ⟨fun h => (nomatch h), fun h => absurd ?_ (h [] rest)⟩
      exact standsBetween_cons.2 (.inl ⟨rfl, wordHere?_eq_some_iff.1 hhere⟩)
    | none =>
      show Option.map _ _ = _ ↔ _
      rw [Option.map_eq_none_iff, ih]
      constructor
      · intro h before after hstands
        rcases standsBetween_cons.1 hstands with ⟨-, h'⟩ | ⟨tail, -, h'⟩
        · rw [wordHere?_eq_some_iff.2 h'] at hhere
          cases hhere
        · exact h _ _ h'
      · exact fun h before after h' => h _ _ (standsBetween_cons.2 (.inr ⟨before, rfl, h'⟩))

/-! ## Joined parts -/

/-- A text that has nothing at its ends to be trimmed does not end with a character of the class. -/
theorem not_of_getLast?_of_trimBy {p : Char → Bool} {cs : List Char} (h : trimBy p cs = cs)
    {c : Char} (hc : cs.getLast? = some c) : p c = false := by
  rw [← h, trimBy, List.getLast?_reverse] at hc
  have hnot := List.head?_dropWhile_not p (cs.dropWhile p).reverse
  rw [hc] at hnot
  simpa using hnot

theorem trimBy_cons {p : Char → Bool} {c : Char} (h : p c = true) (cs : List Char) :
    trimBy p (c :: cs) = trimBy p cs := by
  rw [trimBy, List.dropWhile_cons_of_pos h, trimBy]

/-- **A name and an expression**, joined by the word: the first place of the word is between the
two, if it stands nowhere in the name and the blank behind it. -/
theorem firstBetween_joined {item word after : List Char} {next : Char} {rest : List Char}
    (hword : word = ['i', 'n'] ∨ word = ['o', 'f']) (hafter : after = next :: rest)
    (hnext : isBlank next = true) (htrim : trimBy isWhite item = item)
    (hstate : ClauseState.outside.through item = .outside)
    (hno : ∀ before' after', ¬StandsBetween .outside (item ++ [' ']) before' after') :
    FirstBetween .outside (item ++ ' ' :: (word ++ after)) item after := by
  refine ⟨⟨' ', word, next, rest, rfl, hafter, rfl, hnext, hword, hstate⟩, ?_⟩
  rintro before' after' ⟨blank, word', next', rest', hcs, rfl, hblank, hnext', hword', hstate'⟩
  refine Nat.le_of_not_lt fun hlt => ?_
  -- an earlier place ends in the name and the blank, or goes on behind them
  have hsplit : (item ++ [' ']) ++ (word ++ after) =
      (before' ++ blank :: (word' ++ [next'])) ++ rest' := by simpa using hcs
  have hinside : ∀ m, item ++ [' '] = before' ++ blank :: (word' ++ [next']) ++ m → False := by
    intro m hm
    refine hno before' (next' :: m)
      ⟨blank, word', next', m, ?_, rfl, hblank, hnext', hword', hstate'⟩
    rw [hm]
    simp
  rcases List.append_eq_append_iff.1 hsplit with ⟨m, hm, -⟩ | ⟨m, hm, -⟩
  · obtain ⟨x, y, rfl, hy⟩ : ∃ x y, word' = [x, y] ∧ y ≠ ' ' := by
      rcases hword' with rfl | rfl
      · exact ⟨_, _, rfl, by decide⟩
      · exact ⟨_, _, rfl, by decide⟩
    have hlen := congrArg List.length hm
    simp only [List.length_append, List.length_cons, List.length_nil] at hlen
    have hm : (before' ++ [blank, x]) ++ [y, next'] = item ++ ([' '] ++ m) := by simpa using hm
    match m with
    | [] => exact hinside [] (by simpa using hm.symm)
    | [_] =>
      -- the blank would be the last letter of the word
      have hcut := (List.append_inj' hm rfl).2
      exact hy (List.cons.inj hcut).1
    | [d, e] =>
      -- the name would end with a blank
      have hm' : before' ++ [blank] ++ [x, y, next'] = item ++ [' ', d, e] := by simpa using hm
      have hitem := (List.append_inj' hm' rfl).1
      have hlast := not_of_getLast?_of_trimBy htrim (c := blank) (by simp [← hitem])
      rw [isWhite_of_isBlank hblank] at hlast
      cases hlast
    | _ :: _ :: _ :: m =>
      simp only [List.length_cons] at hlen
      omega
  · exact hinside m hm

/-! ## Repetitions -/

namespace Repetition

theorem ofDirective?_eq (directive : String) :
    ofDirective? directive =
      match splitClause 0 none directive.toList with
      | none => none
      | some (before, after) =>
        if trimBy isWhite before = [] ∨ trimBy isWhite after = [] then none
        else some ⟨directive, String.ofList (trimBy isWhite before),
          String.ofList (trimBy isWhite after)⟩ := by
  unfold ofDirective?
  cases splitClause 0 none directive.toList with
  | none => rfl
  | some p => simp [List.isEmpty_iff]

theorem splitClause_eq_iff {cs before after : List Char} :
    splitClause 0 none cs = some (before, after) ↔ FirstBetween .outside cs before after :=
  splitClause_eq_some_iff (s := .outside)

theorem ofDirective?_eq_some_iff {directive : String} {r : Repetition} :
    ofDirective? directive = some r ↔
      ∃ before after, FirstBetween .outside directive.toList before after ∧
        trimBy isWhite before ≠ [] ∧ trimBy isWhite after ≠ [] ∧
        r = ⟨directive, String.ofList (trimBy isWhite before),
          String.ofList (trimBy isWhite after)⟩ := by
  rw [ofDirective?_eq]
  constructor
  · intro h
    cases hsplit : splitClause 0 none directive.toList with
    | none => simp [hsplit] at h
    | some p =>
      obtain ⟨before, after⟩ := p
      simp only [hsplit] at h
      split at h
      · cases h
      · rename_i hne
        rw [not_or] at hne
        exact ⟨before, after, splitClause_eq_iff.1 hsplit, hne.1, hne.2, (Option.some.inj h).symm⟩
  · rintro ⟨before, after, hfirst, hbefore, hafter, rfl⟩
    simp only [splitClause_eq_iff.2 hfirst]
    rw [if_neg (not_or.2 ⟨hbefore, hafter⟩)]

theorem ofDirective?_eq_none_iff {directive : String} :
    ofDirective? directive = none ↔
      (∀ before after, ¬StandsBetween .outside directive.toList before after) ∨
      ∃ before after, FirstBetween .outside directive.toList before after ∧
        (trimBy isWhite before = [] ∨ trimBy isWhite after = []) := by
  have hnone : splitClause 0 none directive.toList = none ↔
      ∀ before after, ¬StandsBetween .outside directive.toList before after :=
    splitClause_eq_none_iff (s := .outside)
  rw [ofDirective?_eq, ← hnone]
  cases hsplit : splitClause 0 none directive.toList with
  | none => simp
  | some p =>
    obtain ⟨before, after⟩ := p
    have hfirst := splitClause_eq_iff.1 hsplit
    constructor
    · intro h
      refine .inr ⟨before, after, hfirst, ?_⟩
      refine Classical.byContradiction fun hne => ?_
      simp only at h
      rw [if_neg hne] at h
      cases h
    · rintro (h | ⟨before', after', hfirst', hempty⟩)
      · cases h
      · -- the first place is determined
        have hsplit' := splitClause_eq_iff.2 hfirst'
        rw [hsplit] at hsplit'
        obtain ⟨rfl, rfl⟩ := Prod.mk.inj (Option.some.inj hsplit')
        exact if_pos hempty

/-- A name and an expression around one of the words are found again. -/
theorem ofDirective?_joined {directive item iterable : String} {word : List Char}
    (hword : word = ['i', 'n'] ∨ word = ['o', 'f'])
    (hdirective : directive.toList = item.toList ++ ' ' :: (word ++ ' ' :: iterable.toList))
    (htrim : trim item = item) (hitem : item ≠ "") (htrim' : trim iterable = iterable)
    (hiterable : iterable ≠ "") (hstate : ClauseState.outside.through item.toList = .outside)
    (hno : ∀ before after, ¬StandsBetween .outside (item ++ " ").toList before after) :
    ofDirective? directive = some ⟨directive, item, iterable⟩ := by
  have htrimmed : ∀ {s : String}, trim s = s → trimBy isWhite s.toList = s.toList := by
    intro s hs
    have := congrArg String.toList hs
    rwa [trim, String.toList_ofList] at this
  have hne : ∀ {s : String}, s ≠ "" → s.toList ≠ [] := by
    intro s hs hnil
    exact hs (String.toList_inj.1 hnil)
  have hafter : trimBy isWhite (' ' :: iterable.toList) = iterable.toList := by
    rw [trimBy_cons rfl, htrimmed htrim']
  rw [String.toList_append] at hno
  have hfirst := firstBetween_joined hword (rfl : ' ' :: iterable.toList = _) rfl
    (htrimmed htrim) hstate hno
  rw [← hdirective] at hfirst
  refine ofDirective?_eq_some_iff.2 ⟨_, _, hfirst, ?_, ?_, ?_⟩
  · rw [htrimmed htrim]
    exact hne hitem
  · rw [hafter]
    exact hne hiterable
  · rw [hafter, htrimmed htrim, String.ofList_toList, String.ofList_toList]

/-- **The repetition that a value describes**: the parts of the value around the first `in` or `of`
that stands between blanks, outside brackets and quotation marks, without the white space at their
ends. There is none exactly if there is no such word or one of the two parts is blank. So a name and
an expression that are joined by the word are found again, if the brackets and quotation marks of
the name are closed and the word does not stand in it. -/
theorem parts_ofDirective :
    (∀ directive r, ofDirective? directive = some r ↔
      ∃ before after, FirstBetween .outside directive.toList before after ∧
        trimBy isWhite before ≠ [] ∧ trimBy isWhite after ≠ [] ∧
        r = ⟨directive, String.ofList (trimBy isWhite before),
          String.ofList (trimBy isWhite after)⟩) ∧
    (∀ directive, ofDirective? directive = none ↔
      (∀ before after, ¬StandsBetween .outside directive.toList before after) ∨
      ∃ before after, FirstBetween .outside directive.toList before after ∧
        (trimBy isWhite before = [] ∨ trimBy isWhite after = [])) ∧
    ∀ item iterable, trim item = item → item ≠ "" → trim iterable = iterable → iterable ≠ "" →
      ClauseState.outside.through item.toList = .outside →
      (∀ before after, ¬StandsBetween .outside (item ++ " ").toList before after) →
      ofDirective? (item ++ " in " ++ iterable) =
          some ⟨item ++ " in " ++ iterable, item, iterable⟩ ∧
        ofDirective? (item ++ " of " ++ iterable) =
          some ⟨item ++ " of " ++ iterable, item, iterable⟩ := by
  refine ⟨fun _ _ => ofDirective?_eq_some_iff, fun _ => ofDirective?_eq_none_iff, ?_⟩
  intro item iterable htrim hitem htrim' hiterable hstate hno
  exact ⟨ofDirective?_joined (.inl rfl) (by simp) htrim hitem htrim' hiterable hstate hno,
    ofDirective?_joined (.inr rfl) (by simp) htrim hitem htrim' hiterable hstate hno⟩

/-- A pattern with a default value in which the word is quoted, and an expression with the word. -/
theorem parts_ofDirective_quoted :
    ofDirective? ("[a = ' in ']" ++ " in " ++ "b of c") =
        some ⟨"[a = ' in '] in b of c", "[a = ' in ']", "b of c"⟩ ∧
      ofDirective? ("[a = ' in ']" ++ " of " ++ "b of c") =
        some ⟨"[a = ' in '] of b of c", "[a = ' in ']", "b of c"⟩ :=
  parts_ofDirective.2.2 "[a = ' in ']" "b of c" (by decide) (by decide) (by decide) (by decide)
    (by decide) (splitClause_eq_none_iff (s := .outside).1 (by decide))

end Repetition

end Islands
