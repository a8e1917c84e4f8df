import Islands.Markup.Lexer

/-!
# The form of an attribute

An attribute is read back from its written form exactly if its characters are in place
(`WrittenAttribute.Sound`) and it ends where it is said to (`WrittenAttribute.ends`): a name or a
bare value is read on to the first character that cannot belong to it, so what stands behind it
matters.

* `readRun_eq_iff`: gaps and names are runs of one class of characters, except that a slash in
  front of a `>` is left alone.
* `readValue_eq_some_iff`, `readAssignment_eq_some_iff`, `readAttribute_eq_ok_iff`: the conditions
  for the parts of an attribute and for the whole.
-/

namespace Islands.Markup

/-! ## Runs -/

/-- Whether a character may stand in front of an attribute. -/
def isGapChar (c : Char) : Bool := isBlank c || c == '/'

/-- Whether a character may stand in an attribute's name behind its first character. -/
def isTailChar (c : Char) : Bool := !(isBlank c || c == '>' || c == '=')

/-- Whether a character may stand in a value without quotation marks. -/
def isBareChar (c : Char) : Bool := !(isBlank c || c == '>')

/-- A longest run of characters of class `p`; a slash in front of a `>` does not belong to it. -/
def readRun (p : Char → Bool) : List Char → List Char × List Char
  | '/' :: '>' :: rest => ([], '/' :: '>' :: rest)
  | c :: rest => if p c then prepend [c] (readRun p rest) else ([], c :: rest)
  | [] => ([], [])

/-- Whether a run of characters of class `p` ends in front of `after`. -/
def runEnds (p : Char → Bool) (run : List Char) : List Char → Bool
  | '/' :: '>' :: _ => true
  | c :: _ => !p c && (c != '>' || run.getLast? != some '/')
  | [] => true

theorem readGap_eq_readRun (cs : List Char) : readGap cs = readRun isGapChar cs := by
  fun_induction readGap cs with
  | case1 rest => rfl
  | case2 c rest hne h ih => rw [readRun.eq_2 _ _ _ hne, if_pos (by exact h), ih]
  | case3 c rest hne h => rw [readRun.eq_2 _ _ _ hne, if_neg (by exact h)]
  | case4 => rfl

theorem readNameTail_eq_readRun (cs : List Char) : readNameTail cs = readRun isTailChar cs := by
  fun_induction readNameTail cs with
  | case1 rest => rfl
  | case2 c rest hne h => rw [readRun.eq_2 _ _ _ hne, if_neg (by simp [isTailChar, h])]
  | case3 c rest hne h ih =>
    rw [readRun.eq_2 _ _ _ hne, if_pos (by simpa [isTailChar] using h), ih]
  | case4 => rfl

/-- A run ends at the end of the text, in front of a `/>`, and in front of a character that is not
of its class; where that is a `>`, the run must not end in a slash. -/
theorem runEnds_iff {p : Char → Bool} {run after : List Char} :
    runEnds p run after = true ↔
      after = [] ∨ (∃ rest, after = '/' :: '>' :: rest) ∨
        ∃ c rest, after = c :: rest ∧ p c = false ∧ (c = '>' → run.getLast? ≠ some '/') := by
  constructor
  · intro h
    unfold runEnds at h
    split at h
    · exact .inr (.inl ⟨_, rfl⟩)
    · rename_i c rest _
      simp only [Bool.and_eq_true, Bool.not_eq_true', Bool.or_eq_true, bne_iff_ne] at h
      exact .inr (.inr ⟨c, rest, rfl, h.1, fun hc => h.2.resolve_left fun hne => hne hc⟩)
    · exact .inl rfl
  · rintro (rfl | ⟨rest, rfl⟩ | ⟨c, rest, rfl, hc, hlast⟩)
    · rfl
    · rfl
    · unfold runEnds
      split
      · rfl
      · rename_i d _ _ e
        obtain ⟨rfl, -⟩ := List.cons.inj e
        simp only [hc, Bool.not_false, Bool.true_and, Bool.or_eq_true, bne_iff_ne]
        by_cases hd : c = '>'
        · exact .inr (hlast hd)
        · exact .inl hd
      · rfl

/-- A run of one character at least ends where it would end without its first one, unless it is
a single slash in front of a `>`. -/
theorem runEnds_cons {p : Char → Bool} {c : Char} {run after : List Char} :
    runEnds p (c :: run) after = true ↔
      runEnds p run after = true ∧ (run = [] → c = '/' → after.head? ≠ some '>') := by
  simp only [runEnds_iff]
  cases run with
  | cons d run => simp [List.getLast?_cons_cons]
  | nil =>
    constructor
    · rintro (rfl | ⟨rest, rfl⟩ | ⟨d, rest, rfl, hd, hlast⟩)
      · simp
      · simp
      · exact ⟨.inr (.inr ⟨d, rest, rfl, hd, by simp⟩), fun _ hc hh => by simp_all⟩
    · rintro ⟨rfl | ⟨rest, rfl⟩ | ⟨d, rest, rfl, hd, -⟩, hlast⟩
      · simp
      · simp
      · exact .inr (.inr ⟨d, rest, rfl, hd, fun hg => by simp_all⟩)

/-- **Runs**: a run is read exactly if its characters are of the class and it ends there. -/
theorem readRun_eq_iff {p : Char → Bool} (hp : p '>' = false) {cs run rest : List Char} :
    readRun p cs = (run, rest) ↔
      cs = run ++ rest ∧ (∀ c ∈ run, p c = true) ∧ runEnds p run rest = true := by
  constructor
  · intro h
    fun_induction readRun p cs generalizing run with
    | case1 tail =>
      obtain ⟨rfl, rfl⟩ := Prod.mk.inj h
      exact ⟨rfl, by simp, rfl⟩
    | case2 c tail hne hc ih =>
      obtain ⟨rfl, rfl⟩ := Prod.mk.inj h
      obtain ⟨h₁, h₂, h₃⟩ := ih rfl
      refine ⟨by simp [← h₁], by simpa [hc] using h₂, runEnds_cons.2 ⟨h₃, fun hrun hslash hh => ?_⟩⟩
      obtain ⟨rest', hrest⟩ := List.head?_eq_some_iff.1 hh
      have hrun : (readRun p tail).1 = [] := hrun
      exact hne rest' hslash (by rw [h₁, hrun, hrest]; rfl)
    | case3 c tail hne hc =>
      obtain ⟨rfl, rfl⟩ := Prod.mk.inj h
      exact ⟨rfl, by simp, runEnds_iff.2 (.inr (.inr ⟨c, tail, rfl, by simpa using hc, by simp⟩))⟩
    | case4 =>
      obtain ⟨rfl, rfl⟩ := Prod.mk.inj h
      exact ⟨rfl, by simp, rfl⟩
  · intro h
    obtain ⟨rfl, hrun, hends⟩ := h
    induction run with
    | nil =>
      rcases runEnds_iff.1 hends with rfl | ⟨rest, rfl⟩ | ⟨c, rest, rfl, hc, -⟩
      · rfl
      · rfl
      · unfold readRun
        split <;> simp_all
    | cons c run ih =>
      have hc := hrun c (List.mem_cons_self ..)
      obtain ⟨hends, hslash⟩ := runEnds_cons.1 hends
      have hne : ∀ tail, c = '/' → run ++ rest = '>' :: tail → False := by
        intro tail hc' htail
        cases run with
        | nil => exact hslash rfl hc' (by rw [show rest = '>' :: tail from htail]; rfl)
        | cons d run =>
          obtain ⟨rfl, -⟩ := List.cons.inj htail
          rw [hrun '>' (by simp)] at hp
          cases hp
      rw [List.cons_append, readRun.eq_2 _ _ _ hne, if_pos hc,
        ih (fun d hd => hrun d (List.mem_cons_of_mem _ hd)) hends]
      rfl

/-! ## Attributes -/

/-- The characters of a value are such as its quotation marks allow. -/
def WrittenValue.Sound : WrittenValue → Prop
  | .quoted mark body => (mark = '"' ∨ mark = '\'') ∧ mark ∉ body
  | .bare body =>
    (∀ c ∈ body, isBareChar c = true) ∧ body.head? ≠ some '"' ∧ body.head? ≠ some '\''

/-- Whether a value ends in front of `after`. One that is empty is followed by the end of the tag,
since blanks in front of a value are passed over. -/
def WrittenValue.ends (v : WrittenValue) (after : List Char) : Bool :=
  match v with
  | .quoted _ _ => true
  | .bare body =>
    match after with
    | c :: _ => c == '>' || (isBlank c && !body.isEmpty)
    | [] => true

/-- The characters around an `=` and of the value behind it are in place. -/
structure Assignment.Sound (s : Assignment) : Prop where
  before : ∀ c ∈ s.before, isBlank c = true
  after : ∀ c ∈ s.after, isBlank c = true
  value : s.value.Sound

/-- The characters of an attribute's name are such as may stand there. -/
def IsAttributeName (name : List Char) : Prop :=
  ∃ c tail, name = c :: tail ∧ isGapChar c = false ∧ c ≠ '>' ∧ ∀ d ∈ tail, isTailChar d = true

/-- The characters of an attribute, of what stands in front of it included, are in place. -/
structure WrittenAttribute.Sound (a : WrittenAttribute) : Prop where
  lead : ∀ c ∈ a.lead, isGapChar c = true
  name : IsAttributeName a.name
  assignment : ∀ s, a.assignment = some s → s.Sound

/-- Whether an attribute ends in front of `after`. -/
def WrittenAttribute.ends (a : WrittenAttribute) (after : List Char) : Bool :=
  match a.assignment with
  | none => runEnds isTailChar a.name.tail after && (after.dropWhile isBlank).head? != some '='
  | some s => s.value.ends after

/-! ### Reading a part up to a character of another class -/

theorem not_of_head?_cons {p : Char → Bool} {d : Char} (hd : p d = false) {cs : List Char}
    (c : Char) (h : (d :: cs).head? = some c) : p c = false := by
  obtain rfl : d = c := by simpa using h
  exact hd

theorem takeWhile_dropWhile_eq_iff {p : Char → Bool} {cs run rest : List Char} :
    cs.takeWhile p = run ∧ cs.dropWhile p = rest ↔
      cs = run ++ rest ∧ (∀ c ∈ run, p c = true) ∧ ∀ c, rest.head? = some c → p c = false := by
  constructor
  · intro h
    obtain ⟨rfl, rfl⟩ := h
    refine ⟨List.takeWhile_append_dropWhile.symm, List.all_eq_true.1 List.all_takeWhile, ?_⟩
    intro c hc
    have h := List.head?_dropWhile_not p cs
    rw [hc] at h
    simpa using h
  · intro h
    obtain ⟨rfl, hrun, hrest⟩ := h
    rw [List.takeWhile_append_of_pos hrun, List.dropWhile_append_of_pos hrun]
    cases rest with
    | nil => simp
    | cons c rest => simp [hrest c rfl]

theorem splitOnFirst_singleton_iff {q : Char} {cs a b : List Char} :
    splitOnFirst [q] cs = some (a, b) ↔ cs = a ++ q :: b ∧ q ∉ a := by
  induction cs generalizing a b with
  | nil => simp [splitOnFirst]
  | cons c cs ih =>
    by_cases hc : q = c
    · subst hc
      simp only [splitOnFirst, dropWord?, beq_self_eq_true, if_true, Option.some.injEq,
        Prod.mk.injEq]
      constructor
      · intro h
        obtain ⟨rfl, rfl⟩ := h
        simp
      · intro h
        obtain ⟨h, hq⟩ := h
        cases a with
        | nil => simpa using h
        | cons d a => simp_all
    · have hb : (q == c) = false := by simpa using hc
      simp only [splitOnFirst, dropWord?, hb, Bool.false_eq_true, if_false, Option.map_eq_some_iff,
        Prod.exists, ih]
      constructor
      · intro h
        obtain ⟨a', b', ⟨rfl, ha'⟩, e⟩ := h
        obtain ⟨rfl, rfl⟩ := Prod.mk.inj e
        exact ⟨rfl, by simpa [hc] using ha'⟩
      · intro h
        obtain ⟨h, ha⟩ := h
        cases a with
        | nil => exact absurd (List.cons.inj h).1.symm hc
        | cons d a =>
          obtain ⟨rfl, rfl⟩ := List.cons.inj h
          exact ⟨a, b, ⟨rfl, fun hm => ha (List.mem_cons_of_mem _ hm)⟩, rfl⟩

theorem readQuoted_eq_some_iff {q : Char} {tail rest : List Char} {v : WrittenValue}
    (hq : q = '"' ∨ q = '\'') :
    ((splitOnFirst [q] tail).map fun p => (WrittenValue.quoted q p.1, p.2)) = some (v, rest) ↔
      q :: tail = v.written ++ rest ∧ v.Sound ∧ v.ends rest = true := by
  simp only [Option.map_eq_some_iff, Prod.exists, splitOnFirst_singleton_iff]
  constructor
  · intro h
    obtain ⟨a, b, ⟨rfl, ha⟩, e⟩ := h
    obtain ⟨rfl, rfl⟩ := Prod.mk.inj e
    exact ⟨by simp [WrittenValue.written], ⟨hq, ha⟩, rfl⟩
  · intro h
    obtain ⟨h, hs, hends⟩ := h
    cases v with
    | quoted mark body =>
      obtain ⟨rfl, htail⟩ := List.cons.inj h
      exact ⟨body, rest, ⟨by simpa using htail, hs.2⟩, rfl⟩
    | bare body =>
      cases body with
      | nil =>
        -- an empty value is followed by a `>`, not by a quotation mark
        obtain rfl : q :: tail = rest := h
        rcases hq with rfl | rfl <;> simp [WrittenValue.ends] at hends
      | cons c body =>
        obtain ⟨rfl, -⟩ := List.cons.inj h
        obtain ⟨-, h₁, h₂⟩ := hs
        rcases hq with rfl | rfl
        · exact absurd rfl h₁
        · exact absurd rfl h₂

/-- A value without quotation marks ends exactly in front of what begins with no character of
one. -/
theorem bare_ends_iff {body rest : List Char}
    (hblank : ∀ c, (body ++ rest).head? = some c → isBlank c = false) :
    (WrittenValue.bare body).ends rest = true ↔
      ∀ c, rest.head? = some c → isBareChar c = false := by
  cases rest with
  | nil => exact ⟨fun _ _ h => (nomatch h), fun _ => rfl⟩
  | cons c rest =>
    simp only [WrittenValue.ends, Bool.or_eq_true, beq_iff_eq, Bool.and_eq_true]
    constructor
    · intro h
      rcases h with rfl | ⟨hb, -⟩
      · exact not_of_head?_cons rfl
      · exact not_of_head?_cons (by simp [isBareChar, hb])
    · intro h
      have hc := h c rfl
      simp only [isBareChar, Bool.not_eq_false', Bool.or_eq_true, beq_iff_eq] at hc
      rcases hc with hc | hc
      · refine .inr ⟨hc, ?_⟩
        cases body with
        | nil => rw [hblank c rfl] at hc; cases hc
        | cons d body => rfl
      · exact .inl hc

theorem readBare_iff {cs body rest : List Char}
    (hcs : ∀ c, cs.head? = some c → isBlank c = false)
    (h₁ : cs.head? ≠ some '"') (h₂ : cs.head? ≠ some '\'') :
    cs.takeWhile isBareChar = body ∧ cs.dropWhile isBareChar = rest ↔
      cs = body ++ rest ∧ (WrittenValue.bare body).Sound ∧
        (WrittenValue.bare body).ends rest = true := by
  rw [takeWhile_dropWhile_eq_iff]
  constructor
  · intro h
    obtain ⟨rfl, hbody, hrest⟩ := h
    refine ⟨rfl, ⟨hbody, fun h => h₁ ?_, fun h => h₂ ?_⟩, (bare_ends_iff hcs).2 hrest⟩
    · rw [List.head?_append, h]
      rfl
    · rw [List.head?_append, h]
      rfl
  · intro h
    obtain ⟨rfl, ⟨hbody, -, -⟩, hends⟩ := h
    exact ⟨rfl, hbody, (bare_ends_iff hcs).1 hends⟩

/-- **Values**: from its first character on, a value is read exactly if it is sound and ends. -/
theorem readValue_eq_some_iff {cs rest : List Char} {v : WrittenValue}
    (hcs : ∀ c, cs.head? = some c → isBlank c = false) :
    readValue cs = some (v, rest) ↔ cs = v.written ++ rest ∧ v.Sound ∧ v.ends rest = true := by
  unfold readValue
  split
  · exact readQuoted_eq_some_iff (.inl rfl)
  · exact readQuoted_eq_some_iff (.inr rfl)
  · rename_i h₁ h₂
    have h₁ : cs.head? ≠ some '"' := by
      intro h
      obtain ⟨_, rfl⟩ := List.head?_eq_some_iff.1 h
      exact h₁ _ rfl
    have h₂ : cs.head? ≠ some '\'' := by
      intro h
      obtain ⟨_, rfl⟩ := List.head?_eq_some_iff.1 h
      exact h₂ _ rfl
    cases v with
    | bare body =>
      simp only [Option.some.injEq, Prod.mk.injEq, WrittenValue.bare.injEq]
      exact readBare_iff hcs h₁ h₂
    | quoted mark body =>
      simp only [Option.some.injEq, Prod.mk.injEq, reduceCtorEq, false_and, false_iff, not_and]
      rintro rfl ⟨rfl | rfl, -⟩ _
      · exact h₁ rfl
      · exact h₂ rfl

theorem Assignment.written_append (s : Assignment) (rest : List Char) :
    s.written ++ rest = s.before ++ '=' :: (s.after ++ (s.value.written ++ rest)) := by
  simp [Assignment.written]

/-- A sound value does not begin with a blank, nor does what it stands in front of if it is empty
and no blank follows it. -/
theorem WrittenValue.head?_not_blank {v : WrittenValue} {rest : List Char} (hs : v.Sound)
    (hrest : v.written = [] → ∀ c, rest.head? = some c → isBlank c = false) (c : Char)
    (hc : (v.written ++ rest).head? = some c) : isBlank c = false := by
  cases v with
  | quoted mark body =>
    obtain rfl : mark = c := by simpa [written] using hc
    rcases hs.1 with rfl | rfl <;> rfl
  | bare body =>
    cases body with
    | nil => exact hrest rfl c hc
    | cons d body =>
      obtain rfl : d = c := by simpa [written] using hc
      have := hs.1 d (List.mem_cons_self ..)
      simp only [isBareChar, Bool.not_eq_true', Bool.or_eq_false_iff] at this
      exact this.1

theorem WrittenValue.not_blank_of_ends {v : WrittenValue} {rest : List Char}
    (hends : v.ends rest = true) (hnil : v.written = []) (c : Char) (hc : rest.head? = some c) :
    isBlank c = false := by
  cases v with
  | quoted mark body => cases hnil
  | bare body =>
    obtain rfl : body = [] := hnil
    obtain ⟨rest, rfl⟩ := List.head?_eq_some_iff.1 hc
    obtain rfl : c = '>' := by simpa [ends] using hends
    rfl

/-- **Assignments**: one is read exactly if it is sound and its value ends. -/
theorem readAssignment_eq_some_iff {owner cs rest : List Char} {s : Assignment} :
    readAssignment owner cs = .ok (some s, rest) ↔
      cs = s.written ++ rest ∧ s.Sound ∧ s.value.ends rest = true := by
  constructor
  · intro h
    unfold readAssignment at h
    simp only at h
    split at h
    · rename_i tail e
      split at h
      · rename_i v rest' hv
        obtain ⟨hs, rfl⟩ := Prod.mk.inj (Except.ok.inj h)
        obtain rfl := Option.some.inj hs
        obtain ⟨hcs, hb, -⟩ := takeWhile_dropWhile_eq_iff.1 ⟨rfl, e⟩
        obtain ⟨htail, ha, hhead⟩ :=
          takeWhile_dropWhile_eq_iff.1 ⟨(rfl : tail.takeWhile isBlank = _), rfl⟩
        obtain ⟨hv₁, hv₂, hv₃⟩ := (readValue_eq_some_iff hhead).1 hv
        refine ⟨?_, ⟨hb, ha, hv₂⟩, hv₃⟩
        rw [Assignment.written_append, ← hv₁, ← htail, ← hcs]
      · cases h
    · cases h
  · intro h
    obtain ⟨rfl, hs, hends⟩ := h
    have hhead := WrittenValue.head?_not_blank hs.value (WrittenValue.not_blank_of_ends hends)
    have hbefore := takeWhile_dropWhile_eq_iff.2
      ⟨Assignment.written_append s rest, hs.before, not_of_head?_cons rfl⟩
    have hafter := takeWhile_dropWhile_eq_iff.2
      ⟨(rfl : s.after ++ (s.value.written ++ rest) = _), hs.after, hhead⟩
    unfold readAssignment
    simp only [hbefore.1, hbefore.2, hafter.1, hafter.2]
    rw [(readValue_eq_some_iff hhead).2 ⟨rfl, hs.value, hends⟩]

theorem readAssignment_eq_none_iff {owner cs rest : List Char} :
    readAssignment owner cs = .ok (none, rest) ↔
      rest = cs ∧ (cs.dropWhile isBlank).head? ≠ some '=' := by
  unfold readAssignment
  simp only
  split
  · rename_i tail e
    rw [e]
    constructor
    · intro h
      split at h
      · cases (Prod.mk.inj (Except.ok.inj h)).1
      · cases h
    · intro h
      obtain ⟨-, h⟩ := h
      exact absurd rfl h
  · rename_i hne
    refine ⟨fun h => ⟨(Prod.mk.inj (Except.ok.inj h)).2.symm, fun hh => ?_⟩, fun h => by rw [h.1]⟩
    obtain ⟨tail, e⟩ := List.head?_eq_some_iff.1 hh
    exact hne tail e

theorem readNameTail_assignment {tail rest : List Char} {s : Assignment}
    (htail : ∀ d ∈ tail, isTailChar d = true) (hs : s.Sound) :
    readNameTail (tail ++ (s.written ++ rest)) = (tail, s.written ++ rest) := by
  rw [readNameTail_eq_readRun, readRun_eq_iff rfl]
  refine ⟨rfl, htail, runEnds_iff.2 (.inr (.inr ?_))⟩
  rw [Assignment.written_append]
  cases hb : s.before with
  | nil => exact ⟨'=', _, rfl, rfl, fun h => by cases h⟩
  | cons c before =>
    have hc : isBlank c = true := hs.before c (by rw [hb]; exact List.mem_cons_self ..)
    refine ⟨c, _, rfl, by simp [isTailChar, hc], ?_⟩
    rintro rfl
    cases hc

/-- **Attributes**: one is read exactly if it is sound and ends there. -/
theorem readAttribute_eq_ok_iff {lead cs rest : List Char} {c : Char} {a : WrittenAttribute}
    (hlead : ∀ d ∈ lead, isGapChar d = true) (hc : isGapChar c = false) (hgt : c ≠ '>') :
    readAttribute lead c cs = .ok (a, rest) ↔
      a.lead = lead ∧ c :: cs = a.core ++ rest ∧ a.Sound ∧ a.ends rest = true := by
  constructor
  · intro h
    unfold readAttribute at h
    simp only at h
    obtain ⟨hcs, htail, hends⟩ := (readRun_eq_iff (by rfl)).1 (readNameTail_eq_readRun cs).symm
    have hname : IsAttributeName (c :: (readNameTail cs).1) := ⟨c, _, rfl, hc, hgt, htail⟩
    split at h
    · rename_i assignment rest' e
      obtain ⟨rfl, rfl⟩ := Prod.mk.inj (Except.ok.inj h)
      cases assignment with
      | none =>
        obtain ⟨rfl, hne⟩ := readAssignment_eq_none_iff.1 e
        refine ⟨rfl, by simpa [WrittenAttribute.core] using hcs, ⟨hlead, hname, ?_⟩, ?_⟩
        · intro s hs
          cases hs
        · simpa [WrittenAttribute.ends, hends] using hne
      | some s =>
        obtain ⟨hs₁, hs₂, hs₃⟩ := readAssignment_eq_some_iff.1 e
        refine ⟨rfl, ?_, ⟨hlead, hname, ?_⟩, hs₃⟩
        · conv => lhs; rw [hcs, hs₁]
          simp [WrittenAttribute.core]
        · intro s' hs'
          obtain rfl := Option.some.inj hs'
          exact hs₂
    · cases h
  · intro h
    obtain ⟨rfl, hcs, hs, hends⟩ := h
    obtain ⟨lead, name, assignment⟩ := a
    obtain ⟨c', tail, rfl, -, -, htail⟩ := hs.name
    cases assignment with
    | none =>
      obtain ⟨rfl, rfl⟩ : c = c' ∧ cs = tail ++ rest := by
        simpa [WrittenAttribute.core] using hcs
      simp only [WrittenAttribute.ends, List.tail_cons, Bool.and_eq_true, bne_iff_ne] at hends
      have hrun : readNameTail (tail ++ rest) = (tail, rest) := by
        rw [readNameTail_eq_readRun, readRun_eq_iff rfl]
        exact ⟨rfl, htail, hends.1⟩
      unfold readAttribute
      simp only [hrun]
      rw [readAssignment_eq_none_iff.2 ⟨rfl, hends.2⟩]
    | some s =>
      obtain ⟨rfl, rfl⟩ : c = c' ∧ cs = tail ++ (s.written ++ rest) := by
        simpa [WrittenAttribute.core] using hcs
      have hs' := hs.assignment s rfl
      unfold readAttribute
      simp only [readNameTail_assignment htail hs']
      rw [readAssignment_eq_some_iff.2 ⟨rfl, hs', hends⟩]

end Islands.Markup
