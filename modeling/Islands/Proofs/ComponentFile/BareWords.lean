import Islands.ComponentFile.Blocks
import Islands.Proofs.Markup.AttributeLayout

/-!
# Bare words

The search for a bare word divides a text at its blanks and leaves out what stands between quotation
marks; it knows no attributes. In attributes that have quotation marks around their values only it
finds a name if a blank or the end follows it and a blank is in front of it, quoted values aside,
and a value without quotation marks that blanks separate from its `=` (`WrittenAttribute.Shows`).

* `findsWord_append_gap`, `findsWord_append_run`, `findsWord_quoted`: what one piece adds.
* `findsWord_attributes`: attributes side by side, by induction on them.
* `separated_of_joins`: in a tag that can be read, blanks separate attributes unless a quotation
  mark does.
-/

namespace Islands.ComponentFile

open Markup

/-! ## Words of a text -/

/-- Whether a character is a quotation mark. -/
def isMark (c : Char) : Bool := c == '"' || c == '\''

/-- Whether a character outside quotation marks belongs to a word. -/
def isWordChar (c : Char) : Bool := !(isMark c || isBlank c)

theorem isMark_of_isBlank {c : Char} (h : isBlank c = true) : isMark c = false := by
  simp only [isBlank, Bool.or_eq_true, beq_iff_eq] at h
  rcases h with (((rfl | rfl) | rfl) | rfl) | rfl <;> rfl

theorem isMark_of_isWordChar {c : Char} (h : isWordChar c = true) : isMark c = false := by
  simp only [isWordChar, Bool.not_eq_true', Bool.or_eq_false_iff] at h
  exact h.1

theorem bareWords_none_cons (c : Char) (cs : List Char) :
    bareWords none (c :: cs) =
      if isMark c then bareWords (some c) cs
      else if isBlank c then [] :: bareWords none cs
      else consFirst c (bareWords none cs) := rfl

theorem bareWords_blank {c : Char} (hc : isBlank c = true) (cs : List Char) :
    bareWords none (c :: cs) = [] :: bareWords none cs := by
  rw [bareWords_none_cons, if_neg (by simp [isMark_of_isBlank hc]), if_pos hc]

theorem bareWords_cons {c : Char} {cs w : List Char} {ws : List (List Char)}
    (hc : isWordChar c = true) (h : bareWords none cs = w :: ws) :
    bareWords none (c :: cs) = (c :: w) :: ws := by
  have hblank : ¬isBlank c = true := by
    intro hblank
    simp [isWordChar, hblank] at hc
  rw [bareWords_none_cons, if_neg (by simp [isMark_of_isWordChar hc]), if_neg hblank, h]
  rfl

theorem exists_bareWords (mark : Option Char) (cs : List Char) :
    ∃ w ws, bareWords mark cs = w :: ws := by
  induction cs generalizing mark with
  | nil => exact ⟨[], [], rfl⟩
  | cons c cs ih =>
    unfold bareWords
    split
    · exact ih _
    · split
      · exact ih _
      · split
        · exact ⟨[], _, rfl⟩
        · obtain ⟨w, ws, h⟩ := ih none
          exact ⟨c :: w, ws, by rw [h]; rfl⟩

theorem bareWords_append {x cs w : List Char} {ws : List (List Char)}
    (hx : ∀ c ∈ x, isWordChar c = true) (h : bareWords none cs = w :: ws) :
    bareWords none (x ++ cs) = (x ++ w) :: ws := by
  induction x with
  | nil => exact h
  | cons c x ih =>
    rw [List.forall_mem_cons] at hx
    exact bareWords_cons hx.1 (ih hx.2)

theorem bareWords_quoted {q : Char} {body : List Char} (hq : isMark q = true) (hbody : q ∉ body)
    (cs : List Char) : bareWords none (q :: (body ++ q :: cs)) = bareWords none cs := by
  have hinside : bareWords (some q) (body ++ q :: cs) = bareWords none cs := by
    induction body with
    | nil => rw [List.nil_append, bareWords, if_pos (beq_self_eq_true q)]
    | cons c body ih =>
      rw [List.mem_cons, not_or] at hbody
      rw [List.cons_append, bareWords, if_neg (by simpa using Ne.symm hbody.1), ih hbody.2]
  rw [bareWords_none_cons, if_pos hq, hinside]

theorem bareWords_of_head?_all {cs : List Char} (h : cs.head?.all isBlank = true) :
    ∃ ws, bareWords none cs = [] :: ws := by
  cases cs with
  | nil => exact ⟨[], rfl⟩
  | cons c cs => exact ⟨_, bareWords_blank h cs⟩

/-! ## Finding a word -/

/-- Whether a word is among those of a text; the first one counts if a blank is in front of the
text. -/
def FindsWord (word : List Char) (apart : Bool) (cs : List Char) : Prop :=
  ∃ w ws, bareWords none cs = w :: ws ∧ (apart = true ∧ w = word ∨ word ∈ ws)

theorem findsWord_iff {word cs w : List Char} {ws : List (List Char)} {apart : Bool}
    (h : bareWords none cs = w :: ws) :
    FindsWord word apart cs ↔ apart = true ∧ w = word ∨ word ∈ ws := by
  constructor
  · intro hfinds
    obtain ⟨w', ws', h', hfinds⟩ := hfinds
    obtain ⟨rfl, rfl⟩ := List.cons.inj (h.symm.trans h')
    exact hfinds
  · intro hfinds
    exact ⟨w, ws, h, hfinds⟩

theorem hasBareWord_iff_findsWord {word tag : List Char} :
    hasBareWord word tag = true ↔ FindsWord word false (tagInside tag) := by
  obtain ⟨w, ws, h⟩ := exists_bareWords none (tagInside tag)
  rw [findsWord_iff h, hasBareWord, h]
  simp

/-- A word that has no part in the punctuation of tags. -/
structure IsPlainWord (word : List Char) : Prop where
  ne_nil : word ≠ []
  slash : '/' ∉ word
  equals : '=' ∉ word

/-- Whether a blank is in front of what follows `gap`, where `apart` says so of the gap. -/
def apartBehind (apart : Bool) (gap : List Char) : Bool := (gap.getLast?.map isBlank).getD apart

theorem getD_map_getLast?_cons {α β : Type} (f : α → β) (a : α) (as : List α) (d : β) :
    ((a :: as).getLast?.map f).getD d = (as.getLast?.map f).getD (f a) := by
  rw [List.getLast?_cons]
  cases as.getLast? <;> rfl

section
variable {word cs : List Char} {apart : Bool}

theorem not_findsWord_nil (hword : IsPlainWord word) : ¬FindsWord word apart [] := by
  have hempty : bareWords none [] = [[]] := rfl
  rw [findsWord_iff hempty]
  simp [hword.ne_nil.symm]

theorem findsWord_blank (hword : IsPlainWord word) {c : Char} (hc : isBlank c = true) :
    FindsWord word apart (c :: cs) ↔ FindsWord word true cs := by
  obtain ⟨w, ws, h⟩ := exists_bareWords none cs
  have hblank := bareWords_blank hc cs
  rw [h] at hblank
  rw [findsWord_iff hblank, findsWord_iff h, List.mem_cons]
  simp [hword.ne_nil.symm, eq_comm]

theorem findsWord_append_cons {x : List Char} {c : Char} (hx : ∀ d ∈ x, isWordChar d = true)
    (hc : isWordChar c = true) (hne : c ∉ word) :
    FindsWord word apart (x ++ c :: cs) ↔ FindsWord word false cs := by
  obtain ⟨w, ws, h⟩ := exists_bareWords none cs
  have hrun := bareWords_append hx (bareWords_cons hc h)
  rw [findsWord_iff hrun, findsWord_iff h]
  have hword : x ++ c :: w ≠ word := by
    rintro rfl
    exact hne (by simp)
  simp [hword]

/-- Characters of a word that is not in front of a blank are part of the word that was begun. -/
theorem findsWord_false_append {x : List Char} (hx : ∀ d ∈ x, isWordChar d = true) :
    FindsWord word false (x ++ cs) ↔ FindsWord word false cs := by
  obtain ⟨w, ws, h⟩ := exists_bareWords none cs
  rw [findsWord_iff (bareWords_append hx h), findsWord_iff h]
  simp

/-- **A run of characters** in front of a blank or of the end is a word. -/
theorem findsWord_append_run {x : List Char} (hx : ∀ d ∈ x, isWordChar d = true)
    (hcs : cs.head?.all isBlank = true) :
    FindsWord word apart (x ++ cs) ↔ apart = true ∧ x = word ∨ FindsWord word false cs := by
  obtain ⟨ws, h⟩ := bareWords_of_head?_all hcs
  have hrun := bareWords_append hx h
  rw [List.append_nil] at hrun
  rw [findsWord_iff hrun, findsWord_iff h]
  simp

theorem findsWord_append_gap (hword : IsPlainWord word) {gap : List Char}
    (hgap : ∀ c ∈ gap, isGapChar c = true) :
    FindsWord word apart (gap ++ cs) ↔ FindsWord word (apartBehind apart gap) cs := by
  induction gap generalizing apart with
  | nil => rfl
  | cons c gap ih =>
    rw [List.forall_mem_cons] at hgap
    rw [apartBehind, getD_map_getLast?_cons, ← apartBehind, ← ih hgap.2, List.cons_append]
    by_cases hc : isBlank c = true
    · rw [hc]
      exact findsWord_blank hword hc
    · obtain rfl : c = '/' := by simpa [isGapChar, hc] using hgap.1
      exact findsWord_append_cons (x := []) (List.forall_mem_nil _) rfl hword.slash

/-- **A value between quotation marks** is passed over. -/
theorem findsWord_quoted {q : Char} {body : List Char} (hq : isMark q = true) (hbody : q ∉ body) :
    FindsWord word apart (q :: (body ++ q :: cs)) ↔ FindsWord word apart cs := by
  rw [FindsWord, bareWords_quoted hq hbody, FindsWord]

end

end Islands.ComponentFile

namespace Islands.Markup

open ComponentFile

/-! ## Words of attributes -/

namespace WrittenAttribute

/-- The value, if it is written without quotation marks. -/
def bareValue? (a : WrittenAttribute) : Option (List Char) :=
  a.assignment.bind fun s =>
    match s.value with
    | .bare body => some body
    | .quoted _ _ => none

/-- Whether there are no quotation marks in an attribute but those around its value. -/
def marksAroundValue (a : WrittenAttribute) : Bool :=
  a.name.all (!isMark ·) && (a.bareValue?.getD []).all (!isMark ·)

/-- Whether the value of an attribute is between quotation marks. -/
def isQuoted (a : WrittenAttribute) : Bool := a.assignment.any (·.value matches .quoted _ _)

/-- Whether an attribute ends in a blank, the value between quotation marks aside. -/
def leavesBlank (a : WrittenAttribute) : Bool := a.isQuoted && a.assignment.any (!·.after.isEmpty)

/-- Whether a blank is in front of the name of an attribute that stands behind others, values
between quotation marks aside; `apart` says whether one is in front of them all. -/
def isApart (apart : Bool) (front : List WrittenAttribute) (a : WrittenAttribute) : Bool :=
  apartBehind ((front.getLast?.map leavesBlank).getD apart) a.lead

/-- A word is found in an attribute: as a name with a blank in front of it and no `=` right behind
it, or as a value without quotation marks that blanks separate from the `=`. -/
def Shows (word : List Char) (apart : Bool) (a : WrittenAttribute) : Prop :=
  (apart = true ∧ a.name = word ∧ ∀ s, a.assignment = some s → s.before ≠ []) ∨
    ∃ s, a.assignment = some s ∧ s.after ≠ [] ∧ s.value = .bare word

end WrittenAttribute

section
variable {word cs : List Char} {apart : Bool} {a : WrittenAttribute}

theorem isWordChar_of_mem_name (ha : a.Sound) (hmarks : a.marksAroundValue = true) :
    ∀ c ∈ a.name, isWordChar c = true := by
  intro c hc
  have hmark := List.all_eq_true.1 (Bool.and_eq_true_iff.1 hmarks).1 c hc
  have hblank := ha.not_blank_of_mem_name c hc
  simp_all [isWordChar]

theorem isWordChar_of_mem_bareValue (ha : a.Sound) (hmarks : a.marksAroundValue = true)
    {s : Assignment} {body : List Char} (hs : a.assignment = some s)
    (hvalue : s.value = .bare body) : ∀ c ∈ body, isWordChar c = true := by
  intro c hc
  have hbare : a.bareValue?.getD [] = body := by
    rw [WrittenAttribute.bareValue?, hs, Option.bind_some, hvalue]
    rfl
  have hmark := (Bool.and_eq_true_iff.1 hmarks).2
  rw [hbare] at hmark
  have hmark := List.all_eq_true.1 hmark c hc
  have hsound := (ha.assignment s hs).value
  rw [hvalue] at hsound
  have hblank := not_blank_of_isBareChar (hsound.1 c hc)
  simp_all [isWordChar]

theorem apartBehind_blanks {blanks : List Char} (h : ∀ c ∈ blanks, isBlank c = true) :
    apartBehind false blanks = !blanks.isEmpty := by
  unfold apartBehind
  cases hlast : blanks.getLast? with
  | none => simp [List.getLast?_eq_none_iff.1 hlast]
  | some c =>
    have hmem := List.mem_of_getLast? hlast
    simp [h c hmem, List.ne_nil_of_mem hmem]

theorem isGapChar_of_isBlank {c : Char} (h : isBlank c = true) : isGapChar c = true := by
  simp [isGapChar, h]

theorem findsWord_name (hword : IsPlainWord word) {name before : List Char}
    (hname : ∀ c ∈ name, isWordChar c = true) (hbefore : ∀ c ∈ before, isBlank c = true) :
    FindsWord word apart (name ++ (before ++ '=' :: cs)) ↔
      (apart = true ∧ name = word ∧ before ≠ []) ∨ FindsWord word false cs := by
  have hequals : FindsWord word (apartBehind false before) ([] ++ '=' :: cs) ↔
      FindsWord word false cs :=
    findsWord_append_cons (List.forall_mem_nil _) rfl hword.equals
  cases before with
  | nil =>
    rw [List.nil_append, findsWord_append_cons hname rfl hword.equals]
    simp
  | cons c before =>
    have hhead : (c :: before ++ '=' :: cs).head?.all isBlank = true :=
      hbefore c (List.mem_cons_self ..)
    have hgap : ∀ d ∈ c :: before, isGapChar d = true :=
      fun d hd => isGapChar_of_isBlank (hbefore d hd)
    rw [findsWord_append_run hname hhead,
      findsWord_append_gap hword hgap, ← List.nil_append ('=' :: cs), hequals]
    simp

theorem findsWord_value (hword : IsPlainWord word) (ha : a.Sound)
    (hmarks : a.marksAroundValue = true) {s : Assignment} (hs : a.assignment = some s)
    (hcs : a.isQuoted = true ∨ cs.head?.all isBlank = true) :
    FindsWord word false (s.after ++ (s.value.written ++ cs)) ↔
      (s.after ≠ [] ∧ s.value = .bare word) ∨ FindsWord word a.leavesBlank cs := by
  have hsound := ha.assignment s hs
  rw [findsWord_append_gap hword fun c hc => isGapChar_of_isBlank (hsound.after c hc),
    apartBehind_blanks hsound.after]
  cases hvalue : s.value with
  | quoted q body =>
    have hq := hsound.value
    rw [hvalue] at hq
    have hmark : isMark q = true := by
      rcases hq.1 with rfl | rfl <;> rfl
    have hleaves : a.leavesBlank = !s.after.isEmpty := by
      simp [WrittenAttribute.leavesBlank, WrittenAttribute.isQuoted, hs, hvalue]
    rw [WrittenValue.written, List.cons_append, List.append_assoc, List.singleton_append,
      findsWord_quoted hmark hq.2, hleaves]
    simp
  | bare body =>
    have hquoted : a.isQuoted = false := by simp [WrittenAttribute.isQuoted, hs, hvalue]
    have hleaves : a.leavesBlank = false := by simp [WrittenAttribute.leavesBlank, hquoted]
    have hhead := hcs.resolve_left (by simp [hquoted])
    rw [WrittenValue.written, hleaves,
      findsWord_append_run (isWordChar_of_mem_bareValue ha hmarks hs hvalue) hhead]
    simp

/-- **An attribute**: what is found in it, and what it leaves to those behind it. -/
theorem findsWord_attribute (hword : IsPlainWord word) (ha : a.Sound)
    (hmarks : a.marksAroundValue = true) (hcs : a.isQuoted = true ∨ cs.head?.all isBlank = true) :
    FindsWord word apart (a.lead ++ (a.core ++ cs)) ↔
      a.Shows word (apartBehind apart a.lead) ∨ FindsWord word a.leavesBlank cs := by
  have hname := isWordChar_of_mem_name ha hmarks
  rw [findsWord_append_gap hword ha.lead, WrittenAttribute.core, WrittenAttribute.Shows]
  cases hs : a.assignment with
  | none =>
    have hquoted : a.isQuoted = false := by simp [WrittenAttribute.isQuoted, hs]
    have hleaves : a.leavesBlank = false := by simp [WrittenAttribute.leavesBlank, hquoted]
    have hhead := hcs.resolve_left (by simp [hquoted])
    rw [Option.map_none, Option.getD_none, List.append_nil, findsWord_append_run hname hhead,
      hleaves]
    simp
  | some s =>
    have hsound := ha.assignment s hs
    rw [Option.map_some, Option.getD_some, List.append_assoc, Assignment.written_append,
      findsWord_name hword hname hsound.before, findsWord_value hword ha hmarks hs hcs, ← or_assoc]
    simp

/-- Whether what stands behind each attribute without a quoted value is a blank, or nothing. -/
def separated (trail : List Char) : List WrittenAttribute → Bool
  | [] => true
  | a :: as =>
    (a.isQuoted || (writtenAttributes as ++ trail).head?.all isBlank) && separated trail as

theorem isApart_cons (b : WrittenAttribute) (front : List WrittenAttribute) :
    a.isApart apart (b :: front) = a.isApart b.leavesBlank front := by
  rw [WrittenAttribute.isApart, getD_map_getLast?_cons, ← WrittenAttribute.isApart]

/-- **Attributes side by side**: a word is found in them if it is in one of them. -/
theorem findsWord_attributes (hword : IsPlainWord word) {trail : List Char}
    (htrail : ∀ c ∈ trail, isGapChar c = true) {as : List WrittenAttribute}
    (hs : ∀ a ∈ as, a.Sound) (hmarks : ∀ a ∈ as, a.marksAroundValue = true)
    (hsep : separated trail as = true) :
    FindsWord word apart (writtenAttributes as ++ trail) ↔
      ∃ front a behind, as = front ++ a :: behind ∧ a.Shows word (a.isApart apart front) := by
  induction as generalizing apart with
  | nil =>
    have hnone : ¬FindsWord word apart trail := by
      have hgap : FindsWord word apart (trail ++ []) ↔
          FindsWord word (apartBehind apart trail) [] := findsWord_append_gap hword htrail
      rw [List.append_nil] at hgap
      exact mt hgap.1 (not_findsWord_nil hword)
    simp [hnone]
  | cons a as ih =>
    rw [List.forall_mem_cons] at hs hmarks
    rw [separated, Bool.and_eq_true, Bool.or_eq_true] at hsep
    rw [writtenAttributes_cons, List.append_assoc, List.append_assoc,
      findsWord_attribute hword hs.1 hmarks.1 hsep.1, ih hs.2 hmarks.2 hsep.2]
    constructor
    · rintro (h | ⟨front, a', behind, rfl, h⟩)
      · exact ⟨[], a, as, rfl, h⟩
      · exact ⟨a :: front, a', behind, rfl, by rwa [isApart_cons]⟩
    · rintro ⟨front, a', behind, hsplit, h⟩
      cases front with
      | nil =>
        obtain ⟨rfl, rfl⟩ := List.cons.inj hsplit
        exact .inl h
      | cons b front =>
        obtain ⟨rfl, rfl⟩ := List.cons.inj hsplit
        rw [isApart_cons] at h
        exact .inr ⟨front, a', behind, rfl, h⟩

end

/-! ## Attributes in their tag -/

section
variable {as : List WrittenAttribute} {trail : List Char}

theorem head?_behind_ne (hs : ∀ a ∈ as, a.Sound) (htrail : ∀ c ∈ trail, isGapChar c = true) :
    (writtenAttributes as ++ trail).head? ≠ some '>' := by
  intro h
  obtain ⟨rest, h⟩ := List.head?_eq_some_iff.1 h
  cases as with
  | cons a as =>
    exact writtenAttributes_ne_end (List.cons_ne_nil a as) hs (List.forall_mem_nil _) _ rest h
  | nil =>
    have hmem : '>' ∈ trail := by
      rw [show trail = '>' :: rest from h]
      exact List.mem_cons_self ..
    cases htrail '>' hmem

/-- What stands behind an attribute of a tag that is said to end with `>` does not end it with
`/>`. -/
theorem behind_ne_slash (hs : ∀ a ∈ as, a.Sound) (htrail : ∀ c ∈ trail, isGapChar c = true)
    (hend : endsAsSaid trail false = true) (rest : List Char) :
    writtenAttributes as ++ trail ++ ['>'] ≠ '/' :: '>' :: rest := by
  intro h
  rw [List.append_assoc] at h
  cases as with
  | cons a as =>
    have hgap : ∀ c ∈ ['/'], isGapChar c = true := List.forall_mem_singleton.2 rfl
    exact writtenAttributes_ne_end (List.cons_ne_nil a as) hs hgap _ rest h
  | nil =>
    rw [writtenAttributes_nil, List.nil_append] at h
    cases trail with
    | nil => cases h
    | cons c trail =>
      obtain ⟨rfl, hrest⟩ := List.cons.inj h
      cases trail with
      | nil => cases hend
      | cons d trail =>
        have hd : d = '>' := (List.cons.inj hrest).1
        cases htrail '>' (by simp [hd])

theorem head?_all_of_ends {a : WrittenAttribute} (hs : ∀ b ∈ as, b.Sound)
    (htrail : ∀ c ∈ trail, isGapChar c = true) (hend : endsAsSaid trail false = true)
    (hends : a.ends (writtenAttributes as ++ tagTail trail false) = true) :
    a.isQuoted = true ∨ (writtenAttributes as ++ trail).head?.all isBlank = true := by
  have htext : writtenAttributes as ++ tagTail trail false =
      writtenAttributes as ++ trail ++ ['>'] := by
    simp [tagTail, tagEnd]
  have hslash := behind_ne_slash hs htrail hend
  have hangle := head?_behind_ne hs htrail
  rw [htext] at hends
  generalize writtenAttributes as ++ trail = behind at hslash hangle hends ⊢
  cases behind with
  | nil => exact .inr rfl
  | cons c behind =>
    have hne : c ≠ '>' := fun h => hangle (congrArg some h)
    cases hassigned : a.assignment with
    | none =>
      right
      simp only [WrittenAttribute.ends, hassigned, Bool.and_eq_true, bne_iff_ne] at hends
      rcases runEnds_iff.1 hends.1 with h | ⟨rest, h⟩ | ⟨d, rest, h, hd, -⟩
      · cases h
      · exact absurd h (hslash rest)
      · -- the name ends in front of a blank, since no `=` comes next
        obtain ⟨rfl, -⟩ := List.cons.inj h
        have hequals : c ≠ '=' := by
          rintro rfl
          exact hends.2 rfl
        simpa [isTailChar, hne, hequals] using hd
    | some s =>
      rw [WrittenAttribute.ends, hassigned] at hends
      cases hvalue : s.value with
      | quoted q body => exact .inl (by simp [WrittenAttribute.isQuoted, hassigned, hvalue])
      | bare body =>
        right
        simp only [hvalue, List.cons_append, WrittenValue.ends, Bool.or_eq_true, beq_iff_eq,
          Bool.and_eq_true] at hends
        exact (hends.resolve_left hne).1

theorem separated_of_joins (hs : ∀ a ∈ as, a.Sound) (htrail : ∀ c ∈ trail, isGapChar c = true)
    (hend : endsAsSaid trail false = true)
    (hjoin : attributesJoin as (tagTail trail false) = true) : separated trail as = true := by
  induction as with
  | nil => rfl
  | cons a as ih =>
    rw [List.forall_mem_cons] at hs
    rw [attributesJoin, Bool.and_eq_true] at hjoin
    rw [separated, Bool.and_eq_true, Bool.or_eq_true]
    exact ⟨head?_all_of_ends hs.2 htrail hend hjoin.1, ih hs.2 hjoin.2⟩

end

end Islands.Markup
