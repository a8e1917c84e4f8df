import Islands.Proofs.Script.Literal
import Islands.Proofs.Script.Names

/-!
# Data in expressions

An expression that is data is `undefined`, or an array around one object whose keys are names or
string literals and whose values are string literals. It is read in two steps, as expressions are:
first its tokens, between which white space may stand, then what they make up.

* `tokens`: the tokens of an expression.
* `readData`: the data that an expression is.
-/

namespace Islands.Script

/-! ## Tokens -/

/-- The characters that may stand between tokens. -/
def spaces : List Char :=
  ['\t', '\n', '\x0b', '\x0c', '\r', ' ', '\u00a0', '\u1680', '\u2000', '\u2001', '\u2002',
    '\u2003', '\u2004', '\u2005', '\u2006', '\u2007', '\u2008', '\u2009', '\u200a', '\u2028',
    '\u2029', '\u202f', '\u205f', '\u3000', '\ufeff']

/-- The characters that are tokens. -/
def marks : List Char := ['[', ']', '\x7b', '\x7d', ':', ',']

/-- A token of an expression; a string literal is given by the text that it means. -/
inductive Token
  | mark (c : Char)
  | name (name : String)
  | text (text : String)
deriving DecidableEq, Repr

/-- The tokens of an expression, if it has no others. -/
def tokens (cs : List Char) : Option (List Token) :=
  match cs with
  | [] => some []
  | '"' :: cs =>
    match _h : readLiteral cs with
    | some (value, rest) => (tokens rest).map (.text (String.ofList value) :: ·)
    | none => none
  | c :: cs =>
    if spaces.contains c then tokens cs
    else if marks.contains c then (tokens cs).map (.mark c :: ·)
    else if isNameStart c then
      (tokens (cs.dropWhile isNamePart)).map
        (.name (String.ofList (c :: cs.takeWhile isNamePart)) :: ·)
    else none
termination_by cs.length
decreasing_by
  · have := length_lt_of_readLiteral _h
    simp only [List.length_cons]
    omega
  · exact Nat.lt_succ_self _
  · exact Nat.lt_succ_self _
  · have := (List.dropWhile_sublist (p := isNamePart) (l := cs)).length_le
    simp only [List.length_cons]
    omega

/-! ## Data -/

/-- The data that an expression can be. -/
inductive Data
  | undefined
  /-- An array around an object with these members. -/
  | object (members : List (String × String))
deriving DecidableEq, Repr

/-- The key that a token is in an object. -/
def Token.key? : Token → Option String
  | .mark _ => none
  | .name n => some n
  | .text s => some s

/-- The members of an object up to its end, and what follows it. A comma may stand behind the last
member. -/
def readMembers : List Token → Option (List (String × String) × List Token)
  | .mark '\x7d' :: rest => some ([], rest)
  | key :: .mark ':' :: .text value :: .mark ',' :: rest =>
    key.key?.bind fun key => (readMembers rest).map fun p => ((key, value) :: p.1, p.2)
  | key :: .mark ':' :: .text value :: .mark '\x7d' :: rest =>
    key.key?.map fun key => ([(key, value)], rest)
  | _ => none

theorem readMembers_comma {key : Token} {k : String} (hkey : key.key? = some k) (value : String)
    (rest : List Token) :
    readMembers (key :: .mark ':' :: .text value :: .mark ',' :: rest) =
      (readMembers rest).map fun p => ((k, value) :: p.1, p.2) := by
  rw [readMembers, hkey]
  · rfl
  · rintro rfl
    cases hkey

theorem readMembers_last {key : Token} {k : String} (hkey : key.key? = some k) (value : String)
    (rest : List Token) :
    readMembers (key :: .mark ':' :: .text value :: .mark '\x7d' :: rest) =
      some ([(k, value)], rest) := by
  rw [readMembers, hkey]
  · rfl
  · rintro rfl
    cases hkey

/-- The data of an object, given its members and what follows it: the end of the array. -/
def Data.ofObject? (p : List (String × String) × List Token) : Option Data :=
  if p.2 = [.mark ']'] then some (.object p.1) else none

/-- The data that an expression is. -/
def readData (cs : List Char) : Option Data :=
  match tokens cs with
  | some [.name "undefined"] => some .undefined
  | some (.mark '[' :: .mark '\x7b' :: ts) => (readMembers ts).bind Data.ofObject?
  | _ => none

/-! ## The tokens of pieces -/

/-- A piece of an expression has these tokens, whatever follows it. -/
def ReadsAs (piece : List Char) (ts : List Token) : Prop :=
  ∀ rest, tokens (piece ++ rest) = (tokens rest).map (ts ++ ·)

/-- A piece of an expression has no tokens, whatever follows it. -/
def Unreadable (piece : List Char) : Prop := ∀ rest, tokens (piece ++ rest) = none

section
variable {a b : List Char} {ts us : List Token}

theorem readsAs_nil : ReadsAs [] [] := fun rest => by simp

theorem ReadsAs.append (ha : ReadsAs a ts) (hb : ReadsAs b us) : ReadsAs (a ++ b) (ts ++ us) := by
  intro rest
  rw [List.append_assoc, ha, hb, Option.map_map]
  simp only [Function.comp_def, List.append_assoc]

theorem ReadsAs.tokens_eq (h : ReadsAs a ts) : tokens a = some ts := by
  have h := h []
  rw [List.append_nil, tokens] at h
  simpa using h

theorem Unreadable.append (h : Unreadable a) (b : List Char) : Unreadable (a ++ b) := by
  intro rest
  rw [List.append_assoc]
  exact h _

theorem Unreadable.behind (h : Unreadable b) (ha : ReadsAs a ts) : Unreadable (a ++ b) := by
  intro rest
  rw [List.append_assoc, ha, h]
  rfl

theorem Unreadable.tokens_eq (h : Unreadable a) : tokens a = none := by
  rw [← List.append_nil a]
  exact h []

end

theorem tokens_cons {c : Char} (hc : c ≠ '"') (cs : List Char) :
    tokens (c :: cs) =
      if spaces.contains c then tokens cs
      else if marks.contains c then (tokens cs).map (.mark c :: ·)
      else if isNameStart c then
        (tokens (cs.dropWhile isNamePart)).map
          (.name (String.ofList (c :: cs.takeWhile isNamePart)) :: ·)
      else none := by
  rw [tokens]
  exact hc

theorem readsAs_space {c : Char} (h : c ∈ spaces) : ReadsAs [c] [] := by
  intro rest
  have hc : c ≠ '"' := by
    rintro rfl
    exact absurd h (by decide)
  rw [List.singleton_append, tokens_cons hc, if_pos (by simpa using h)]
  simp

theorem readsAs_mark {c : Char} (h : c ∈ marks) : ReadsAs [c] [.mark c] := by
  intro rest
  have hmarks : (marks.all fun d => d != '"' && !spaces.contains d) = true := by decide
  have hc := List.all_eq_true.1 hmarks c h
  simp only [Bool.and_eq_true, bne_iff_ne, Bool.not_eq_true'] at hc
  rw [List.singleton_append, tokens_cons hc.1, hc.2, if_neg Bool.false_ne_true,
    if_pos (by simpa using h)]
  rfl

/-- **A generated literal** is one token. -/
theorem readsAs_stringLiteral (s : String) : ReadsAs (stringLiteral s).toList [.text s] := by
  intro rest
  have hwritten : (stringLiteral s).toList ++ rest =
      '"' :: (s.toList.flatMap literalChar ++ '"' :: rest) := by
    rw [toList_stringLiteral]
    simp
  rw [hwritten, tokens]
  split
  · rename_i h
    rw [readLiteral_flatMap] at h
    obtain ⟨rfl, rfl⟩ := Prod.mk.inj (Option.some.inj h)
    rw [String.ofList_toList]
    rfl
  · rename_i h
    rw [readLiteral_flatMap] at h
    cases h

/-! ## Identifiers -/

theorem not_isIdentifierChar :
    ('"' :: (spaces ++ marks)).all (fun c => !isIdentifierChar c) = true := by decide +kernel

theorem isIdentifierChar_of_start {c : Char} (h : isIdentifierStart c = true) :
    isIdentifierChar c = true := by
  simp only [isIdentifierStart, isIdentifierChar, Bool.or_eq_true] at h ⊢
  rcases h with (h | h) | h
  · exact .inl (.inl (.inl h))
  · exact .inl (.inr h)
  · exact .inr h

theorem tokens_identifier_cons {c : Char} (h : isIdentifierChar c = true) (cs : List Char) :
    tokens (c :: cs) =
      if isNameStart c then
        (tokens (cs.dropWhile isNamePart)).map
          (.name (String.ofList (c :: cs.takeWhile isNamePart)) :: ·)
      else none := by
  have hnot : c ∉ '"' :: (spaces ++ marks) := fun hmem => by
    have := List.all_eq_true.1 not_isIdentifierChar c hmem
    rw [h] at this
    cases this
  simp only [List.mem_cons, List.mem_append, not_or] at hnot
  obtain ⟨hquote, hspace, hmark⟩ := hnot
  rw [tokens_cons hquote, if_neg (by simpa using hspace), if_neg (by simpa using hmark)]

theorem exists_cons_of_isIdentifier {n : String} (h : isIdentifier n = true) :
    ∃ c cs, n.toList = c :: cs ∧ isIdentifierChar c = true ∧
      ∀ d ∈ cs, isIdentifierChar d = true := by
  unfold isIdentifier at h
  cases hn : n.toList with
  | nil => rw [hn] at h; cases h
  | cons c cs =>
    rw [hn] at h
    simp only [Bool.and_eq_true, List.all_eq_true] at h
    exact ⟨c, cs, rfl, isIdentifierChar_of_start h.1, h.2⟩

theorem tokens_identifier {n : String} (hid : isIdentifier n = true)
    (hname : isName n.toList = true) {c : Char} (hc : isNamePart c = false) (rest : List Char) :
    tokens (n.toList ++ c :: rest) = (tokens (c :: rest)).map (.name n :: ·) := by
  obtain ⟨d, ds, hn, hd, -⟩ := exists_cons_of_isIdentifier hid
  rw [hn] at hname
  simp only [isName, Bool.and_eq_true, List.all_eq_true] at hname
  obtain ⟨hstart, hds⟩ := hname
  rw [hn, List.cons_append, tokens_identifier_cons hd, if_pos hstart,
    List.dropWhile_append_of_pos hds, List.takeWhile_append_of_pos hds]
  simp only [List.dropWhile_cons, List.takeWhile_cons, hc, Bool.false_eq_true, if_false,
    List.append_nil, ← hn, String.ofList_toList]

theorem exists_dropWhile_of_not_all {p : Char → Bool} {cs : List Char} (h : cs.all p = false) :
    ∃ c tail, c ∈ cs ∧ p c = false ∧
      ∀ rest, (cs ++ rest).dropWhile p = c :: (tail ++ rest) := by
  induction cs with
  | nil => cases h
  | cons d cs ih =>
    cases hd : p d with
    | false => exact ⟨d, cs, List.mem_cons_self, hd, fun rest => by simp [hd]⟩
    | true =>
      rw [List.all_cons, hd, Bool.true_and] at h
      obtain ⟨c, tail, hmem, hc, hrest⟩ := ih h
      exact ⟨c, tail, List.mem_cons_of_mem _ hmem, hc, fun rest => by simp [hd, hrest]⟩

/-- An identifier that is no name is not read at all: the name ends too early, in front of a
character that begins no token. -/
theorem unreadable_identifier {n : String} (hid : isIdentifier n = true)
    (hname : isName n.toList = false) : Unreadable n.toList := by
  intro rest
  obtain ⟨d, ds, hn, hd, hds⟩ := exists_cons_of_isIdentifier hid
  rw [hn, List.cons_append, tokens_identifier_cons hd]
  split
  · rename_i hstart
    rw [hn, isName, hstart, Bool.true_and] at hname
    obtain ⟨c, tail, hmem, hc, hrest⟩ := exists_dropWhile_of_not_all hname
    have hbegins : isNameStart c = false := by
      rw [← Bool.not_eq_true]
      intro h
      rw [isNamePart_of_isNameStart h] at hc
      cases hc
    rw [hrest, tokens_identifier_cons (hds c hmem), hbegins]
    rfl
  · rfl

end Islands.Script
