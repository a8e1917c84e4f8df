import Islands.Markup.Reference
import Islands.Wrapper.Literal

/-!
# String literals of expressions

A string literal stands between double quotes, on one line; a backslash in it begins an escape.
`readLiteral` reads one as it is read in an expression, with all the escapes there are. The literals
that are generated use few of them, and each character is written so that it is read as itself.

* `readEscape`, `readLiteral`: reading.
* `readLiteral_flatMap`: a literal is read as the text that was written.
-/

namespace Islands.Script

open Markup

/-! ## Reading -/

/-- Whether a character ends a line of an expression. -/
def isLineEnd (c : Char) : Bool := c == '\n' || c == '\r' || c == '\u2028' || c == '\u2029'

/-- The character that a letter stands for behind a backslash. -/
def escaped (c : Char) : Char :=
  match c with
  | 'b' => '\x08'
  | 'f' => '\x0c'
  | 'n' => '\n'
  | 'r' => '\r'
  | 't' => '\t'
  | 'v' => '\x0b'
  | c => c

/-- The character with a code point that is given in digits, in front of `rest`. -/
def readCode (digits rest : List Char) : Option (List Char × List Char) :=
  ((number? 16 digits).bind charOfCode?).map fun c => ([c], rest)

/-- What stands behind a backslash: the characters that it means, and the text after it. The end of a
line means nothing, and half of a surrogate pair is no character. -/
def readEscape (cs : List Char) : Option (List Char × List Char) :=
  match cs with
  | [] => none
  | '\r' :: '\n' :: rest => some ([], rest)
  | 'u' :: '{' :: rest =>
    match splitOnFirst ['}'] rest with
    | some (digits, rest) => readCode digits rest
    | none => none
  | 'u' :: a :: b :: c :: d :: rest => readCode [a, b, c, d] rest
  | 'u' :: _ => none
  | 'x' :: a :: b :: rest => readCode [a, b] rest
  | 'x' :: _ => none
  | '0' :: rest => if rest.head?.any Char.isDigit then none else some (['\x00'], rest)
  | c :: rest =>
    if isLineEnd c then some ([], rest) else if c.isDigit then none else some ([escaped c], rest)

theorem eq_of_readCode {digits rest rest' value : List Char}
    (h : readCode digits rest = some (value, rest')) : rest' = rest := by
  obtain ⟨_, -, e⟩ := Option.map_eq_some_iff.1 h
  exact (Prod.mk.inj e).2.symm

theorem length_lt_of_readEscape {cs value rest : List Char}
    (h : readEscape cs = some (value, rest)) : rest.length < cs.length := by
  unfold readEscape at h
  split at h
  · cases h
  · obtain ⟨-, rfl⟩ := Prod.mk.inj (Option.some.inj h)
    simp only [List.length_cons]
    omega
  · split at h
    · rename_i hsplit
      have hlength := congrArg List.length (eq_of_splitOnFirst hsplit)
      simp only [List.length_append, List.length_cons] at hlength
      rw [eq_of_readCode h]
      simp only [List.length_cons]
      omega
    · cases h
  · rw [eq_of_readCode h]
    simp only [List.length_cons]
    omega
  · cases h
  · rw [eq_of_readCode h]
    simp only [List.length_cons]
    omega
  · cases h
  · split at h
    · cases h
    · obtain ⟨-, rfl⟩ := Prod.mk.inj (Option.some.inj h)
      exact Nat.lt_succ_self _
  · split at h
    · obtain ⟨-, rfl⟩ := Prod.mk.inj (Option.some.inj h)
      exact Nat.lt_succ_self _
    · split at h
      · cases h
      · obtain ⟨-, rfl⟩ := Prod.mk.inj (Option.some.inj h)
        exact Nat.lt_succ_self _

/-- What stands up to the closing quote: the text that it means, and what follows the quote. -/
def readLiteral (cs : List Char) : Option (List Char × List Char) :=
  match cs with
  | [] => none
  | '"' :: rest => some ([], rest)
  | '\\' :: cs =>
    match _h : readEscape cs with
    | some (value, rest) => (readLiteral rest).map (prepend value)
    | none => none
  | c :: cs => if isLineEnd c then none else (readLiteral cs).map (prepend [c])
termination_by cs.length
decreasing_by
  · have := length_lt_of_readEscape _h
    simp only [List.length_cons]
    omega
  · simp only [List.length_cons]
    omega

theorem readLiteral_escape {cs value rest : List Char} (h : readEscape cs = some (value, rest)) :
    readLiteral ('\\' :: cs) = (readLiteral rest).map (prepend value) := by
  rw [readLiteral]
  split
  · rename_i h'
    rw [h] at h'
    obtain ⟨rfl, rfl⟩ := Prod.mk.inj (Option.some.inj h')
    rfl
  · rename_i h'
    rw [h] at h'
    cases h'

theorem length_lt_of_readLiteral {cs value rest : List Char}
    (h : readLiteral cs = some (value, rest)) : rest.length < cs.length := by
  fun_induction readLiteral cs generalizing value with
  | case1 => cases h
  | case2 rest' =>
    obtain ⟨-, rfl⟩ := Prod.mk.inj (Option.some.inj h)
    exact Nat.lt_succ_self _
  | case3 cs value' rest' hescape ih =>
    obtain ⟨p, hp, e⟩ := Option.map_eq_some_iff.1 h
    obtain ⟨-, rfl⟩ := Prod.mk.inj e
    have hlength := length_lt_of_readEscape hescape
    have := ih hp
    simp only [List.length_cons]
    omega
  | case4 => cases h
  | case5 => cases h
  | case6 c cs _ _ _ ih =>
    obtain ⟨p, hp, e⟩ := Option.map_eq_some_iff.1 h
    obtain ⟨-, rfl⟩ := Prod.mk.inj e
    have := ih hp
    simp only [List.length_cons]
    omega

/-! ## Reading what was written -/

theorem toList_stringLiteral (s : String) :
    (stringLiteral s).toList = '"' :: (s.toList.flatMap literalChar ++ ['"']) := by
  rw [stringLiteral, String.toList_ofList, List.cons_append]

/-- **One character** of a generated literal is read as itself. -/
theorem readLiteral_literalChar (c : Char) (rest : List Char) :
    readLiteral (literalChar c ++ rest) = (readLiteral rest).map (prepend [c]) := by
  unfold literalChar
  split
  · exact readLiteral_escape rfl
  · exact readLiteral_escape rfl
  · exact readLiteral_escape rfl
  · exact readLiteral_escape rfl
  · exact readLiteral_escape rfl
  · exact readLiteral_escape rfl
  · rename_i hslash hquote hfeed hreturn hline hparagraph
    have hend : isLineEnd c = false := by
      simp only [isLineEnd, Bool.or_eq_false_iff, beq_eq_false_iff_ne]
      exact ⟨⟨⟨hfeed, hreturn⟩, hline⟩, hparagraph⟩
    rw [List.singleton_append, readLiteral]
    · rw [if_neg (by simp [hend])]
    · exact hquote
    · exact hslash

/-- **A generated literal** is read as the text that it was written for. -/
theorem readLiteral_flatMap (cs rest : List Char) :
    readLiteral (cs.flatMap literalChar ++ '"' :: rest) = some (cs, rest) := by
  induction cs with
  | nil => rw [List.flatMap_nil, List.nil_append, readLiteral]
  | cons c cs ih =>
    rw [List.flatMap_cons, List.append_assoc, readLiteral_literalChar, ih]
    rfl

end Islands.Script
