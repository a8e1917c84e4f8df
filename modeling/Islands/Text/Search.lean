/-!
# Finding a word in a text

* `dropWord?`: what follows a word at the start of a text.
* `splitOnFirst`: a text divided around the first place where a word stands; `eq_of_splitOnFirst`
  says that nothing is lost.
* `sameLetters`, `dropLetters?`: words and beginnings compared without regard to ASCII case.
* `splitBeforeLetters`: a text divided in front of the first place where a word stands in any case.
-/

namespace Islands

/-- Puts `pre` in front of the first of two parts. -/
def prepend {β : Type} (pre : List Char) (p : List Char × β) : List Char × β := (pre ++ p.1, p.2)

@[simp] theorem prepend_fst {β : Type} (pre : List Char) (p : List Char × β) :
    (prepend pre p).1 = pre ++ p.1 := rfl

@[simp] theorem prepend_snd {β : Type} (pre : List Char) (p : List Char × β) :
    (prepend pre p).2 = p.2 := rfl

/-! ## Exact words -/

/-- What follows `word` at the start of a text. -/
def dropWord? : List Char → List Char → Option (List Char)
  | [], cs => some cs
  | _ :: _, [] => none
  | w :: word, c :: cs => if w == c then dropWord? word cs else none

theorem dropWord?_eq_some_iff {word cs rest : List Char} :
    dropWord? word cs = some rest ↔ cs = word ++ rest := by
  induction word generalizing cs with
  | nil => simp [dropWord?, eq_comm]
  | cons w word ih =>
    cases cs with
    | nil => simp [dropWord?]
    | cons c cs =>
      simp only [dropWord?, beq_iff_eq, List.cons_append, List.cons.injEq]
      by_cases h : w = c
      · simp [h, ih]
      · simp [h, Ne.symm h]

/-- The parts of a text before and after the first place where `word` stands. -/
def splitOnFirst (word : List Char) : List Char → Option (List Char × List Char)
  | [] => if word.isEmpty then some ([], []) else none
  | c :: cs =>
    match dropWord? word (c :: cs) with
    | some rest => some ([], rest)
    | none => (splitOnFirst word cs).map (prepend [c])

theorem eq_of_splitOnFirst {word cs a b : List Char} (h : splitOnFirst word cs = some (a, b)) :
    cs = a ++ (word ++ b) := by
  induction cs generalizing a with
  | nil =>
    simp only [splitOnFirst] at h
    split at h <;> simp_all
  | cons c cs ih =>
    simp only [splitOnFirst] at h
    split at h
    · rename_i rest hrest
      obtain ⟨rfl, rfl⟩ : [] = a ∧ rest = b := by simpa using h
      simpa using dropWord?_eq_some_iff.1 hrest
    · obtain ⟨⟨a', b'⟩, h', e⟩ := Option.map_eq_some_iff.1 h
      obtain ⟨rfl, rfl⟩ : c :: a' = a ∧ b' = b := by simpa [prepend] using e
      simp [ih h']

/-! ## Words in any case -/

/-- Whether two words are the same up to the case of ASCII letters. -/
def sameLetters (a b : List Char) : Bool := a.map Char.toLower == b.map Char.toLower

/-- What follows `word`, in any case, at the start of a text. -/
def dropLetters? : List Char → List Char → Option (List Char)
  | [], cs => some cs
  | _ :: _, [] => none
  | w :: word, c :: cs => if w.toLower == c.toLower then dropLetters? word cs else none

/-- The parts of a text before and from the first place where `word` stands in any case. -/
def splitBeforeLetters (word : List Char) : List Char → Option (List Char × List Char)
  | [] => if word.isEmpty then some ([], []) else none
  | c :: cs =>
    if (dropLetters? word (c :: cs)).isSome then some ([], c :: cs)
    else (splitBeforeLetters word cs).map (prepend [c])

theorem eq_of_splitBeforeLetters {word cs a b : List Char}
    (h : splitBeforeLetters word cs = some (a, b)) : cs = a ++ b := by
  induction cs generalizing a with
  | nil =>
    simp only [splitBeforeLetters] at h
    split at h <;> simp_all
  | cons c cs ih =>
    simp only [splitBeforeLetters] at h
    split at h
    · obtain ⟨rfl, rfl⟩ : [] = a ∧ c :: cs = b := by simpa using h
      rfl
    · obtain ⟨⟨a', b'⟩, h', e⟩ := Option.map_eq_some_iff.1 h
      obtain ⟨rfl, rfl⟩ : c :: a' = a ∧ b' = b := by simpa [prepend] using e
      simp [ih h']

end Islands
