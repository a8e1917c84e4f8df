import Islands.Proofs.Script.Literal
import Islands.Proofs.Text.Replacements

/-!
# Escapes in generated literals

The characters that cannot stand in a string literal as they are can be escaped in turn, each with
one pass over the whole text: backslashes first, then quotes, then the line ends. No pass touches
what an earlier one wrote, so a literal is escaped by one pass that looks at each character once
(`replaceInTurn_literalEscapes`).

* `IsLiteral`: a text on one line between quotes, of which only the last one is not escaped.
* `isEscaped_literalBody`: a quote inside of a generated literal is escaped, the last one is not.
* `literalValue?_stringLiteral`: what a generated literal is written as and what it means.
-/

namespace Islands.Script

open Markup

/-! ## Passes over a literal -/

/-- The characters that are escaped in a literal, in the order of the passes. -/
def literalEscapes : List (Char × List Char) :=
  [('\\', ['\\', '\\']), ('"', ['\\', '"']), ('\n', ['\\', 'n']), ('\r', ['\\', 'r']),
    ('\u2028', "\\u2028".toList), ('\u2029', "\\u2029".toList)]

/-- A character is written as a word of its own if it is one of those that are escaped, and as
itself otherwise. -/
theorem literalChar_cases (c : Char) :
    (c, literalChar c) ∈ literalEscapes ∨
      (∀ p ∈ literalEscapes, c ≠ p.1) ∧ literalChar c = [c] := by
  unfold literalChar
  split
  · exact .inl (by decide)
  · exact .inl (by decide)
  · exact .inl (by decide)
  · exact .inl (by decide)
  · exact .inl (by decide)
  · exact .inl (by decide)
  · rename_i h₁ h₂ h₃ h₄ h₅ h₆
    refine .inr ⟨?_, rfl⟩
    simp only [literalEscapes, List.forall_mem_cons]
    exact ⟨h₁, h₂, h₃, h₄, h₅, h₆, List.forall_mem_nil _⟩

theorem replaceInTurn_literalEscapes (cs : List Char) :
    replaceInTurn literalEscapes cs = cs.flatMap literalChar := by
  rw [replaceInTurn_eq_flatMap (by decide)]
  apply List.flatMap_congr
  intro c _
  rcases literalChar_cases c with h | ⟨hne, h⟩
  · have hlookup : ∀ p ∈ literalEscapes, literalEscapes.lookup p.1 = some p.2 := by decide
    rw [replacement, hlookup _ h, Option.getD_some]
  · have hlookup : literalEscapes.lookup c = none :=
      List.lookup_eq_none_iff.2 fun p hp => bne_iff_ne.2 (hne p hp)
    rw [replacement, hlookup, h, Option.getD_none]

/-! ## Quotes inside a literal -/

/-- Whether a character behind some text is escaped: the number of backslashes in front of it is
odd. -/
def isEscaped (before : List Char) : Bool :=
  (before.reverse.takeWhile (· == '\\')).length % 2 == 1

/-- A string literal: a text on one line between quotes, of which only the last one is not
escaped. -/
structure IsLiteral (cs : List Char) : Prop where
  quoted : ∃ body, cs = '"' :: (body ++ ['"'])
  line : ∀ c ∈ cs, isLineEnd c = false
  escapes : ∀ before after, cs = '"' :: (before ++ '"' :: after) →
    (isEscaped before = false ↔ after = [])

/-- Behind a text that leaves no escape open, only what follows decides. -/
theorem isEscaped_append {x : List Char} (hx : isEscaped x = false) (y : List Char) :
    isEscaped (x ++ y) = isEscaped y := by
  simp only [isEscaped, List.reverse_append, List.takeWhile_append] at hx ⊢
  split
  · rename_i hall
    rw [beq_eq_false_iff_ne] at hx
    rw [List.length_append, Bool.eq_iff_iff, beq_iff_eq, beq_iff_eq, hall]
    omega
  · rfl

theorem isEscaped_literalChar (c : Char) : isEscaped (literalChar c) = false := by
  rcases literalChar_cases c with h | ⟨hne, h⟩
  · have hwords : ∀ p ∈ literalEscapes, isEscaped p.2 = false := by decide
    exact hwords _ h
  · have hslash : c ≠ '\\' := hne _ (List.mem_cons_self ..)
    simp [h, isEscaped, hslash]

/-- The only quote in what a character is written as stands behind a backslash. -/
theorem eq_of_literalChar_eq {c : Char} {before after : List Char}
    (h : literalChar c = before ++ '"' :: after) : before = ['\\'] := by
  have hmem : '"' ∈ literalChar c := by
    rw [h]
    exact List.mem_append_right _ (List.mem_cons_self ..)
  have hc : c = '"' := by
    rcases literalChar_cases c with hc | ⟨-, hc⟩
    · have hwords : ∀ p ∈ literalEscapes, '"' ∈ p.2 → p.1 = '"' := by decide
      exact hwords _ hc hmem
    · rw [hc, List.mem_singleton] at hmem
      exact hmem.symm
  subst hc
  have h : ['\\', '"'] = before ++ '"' :: after := h
  match before, h with
  | [], h => cases h
  | [d], h => exact congrArg (fun cs => [cs.headD d]) h.symm
  | _ :: _ :: _, h => simp at h

/-- **A quote inside of a literal** is escaped, and the one behind it is not. -/
theorem isEscaped_literalBody {cs before after : List Char}
    (h : cs.flatMap literalChar ++ ['"'] = before ++ '"' :: after) :
    isEscaped before = false ↔ after = [] := by
  induction cs generalizing before with
  | nil =>
    match before, h with
    | [], h =>
      obtain rfl : after = [] := by simpa using h.symm
      exact iff_of_true rfl rfl
    | _ :: _, h => simp at h
  | cons c cs ih =>
    rw [List.flatMap_cons, List.append_assoc] at h
    rcases List.append_eq_append_iff.1 h with ⟨rest, rfl, hrest⟩ | ⟨inside, hc, hrest⟩
    · rw [isEscaped_append (isEscaped_literalChar c)]
      exact ih hrest
    · cases inside with
      | nil =>
        -- the quote is the first character behind what `c` is written as
        rw [List.append_nil] at hc
        have hescaped : isEscaped before = isEscaped [] := by
          rw [← hc, isEscaped_literalChar]
          rfl
        rw [hescaped]
        exact ih hrest.symm
      | cons d inside =>
        obtain ⟨rfl, rfl⟩ := List.cons.inj hrest
        rw [eq_of_literalChar_eq hc]
        refine iff_of_false (by decide) ?_
        simp

/-! ## Generated literals -/

theorem isLineEnd_of_mem_literalChar {c d : Char} (h : d ∈ literalChar c) :
    isLineEnd d = false := by
  rcases literalChar_cases c with hc | ⟨hne, hc⟩
  · have hwords : ∀ p ∈ literalEscapes, p.2.all (!isLineEnd ·) = true := by decide
    simpa using List.all_eq_true.1 (hwords _ hc) d h
  · rw [hc, List.mem_singleton] at h
    subst h
    simp only [literalEscapes, List.forall_mem_cons] at hne
    obtain ⟨-, -, hfeed, hreturn, hline, hparagraph, -⟩ := hne
    simp [isLineEnd, hfeed, hreturn, hline, hparagraph]

/-- **A generated literal** is well formed. -/
theorem isLiteral_stringLiteral (s : String) : IsLiteral (stringLiteral s).toList := by
  rw [toList_stringLiteral]
  refine ⟨⟨_, rfl⟩, fun c hc => ?_, fun before after h => ?_⟩
  · rcases List.mem_cons.1 hc with rfl | hc
    · rfl
    · rcases List.mem_append.1 hc with hc | hc
      · obtain ⟨d, -, hd⟩ := List.mem_flatMap.1 hc
        exact isLineEnd_of_mem_literalChar hd
      · obtain rfl := List.mem_singleton.1 hc
        rfl
  · exact isEscaped_literalBody (List.cons.inj h).2

/-- What a literal means, if the whole text is one. -/
def literalValue? : List Char → Option (List Char)
  | '"' :: cs =>
    match readLiteral cs with
    | some (value, []) => some value
    | _ => none
  | _ => none

/-- **A generated literal** is the text with its special characters escaped in turn, between quotes;
it is well formed, and it means exactly the text. -/
theorem literalValue?_stringLiteral (s : String) :
    (stringLiteral s).toList = '"' :: (replaceInTurn literalEscapes s.toList ++ ['"']) ∧
      IsLiteral (stringLiteral s).toList ∧
      literalValue? (stringLiteral s).toList = some s.toList := by
  refine ⟨?_, isLiteral_stringLiteral s, ?_⟩
  · rw [toList_stringLiteral, replaceInTurn_literalEscapes]
  · rw [toList_stringLiteral, literalValue?, readLiteral_flatMap]

end Islands.Script
