import Mathlib.Data.List.Basic

/-!
# Replacements in turn

Characters of a text can be replaced in turn, each with one pass over the whole text. Where no pass
touches what an earlier one wrote, the passes are one substitution (`replaceInTurn_eq_flatMap`).
-/

namespace Islands

/-- A text with a word in the place of each `c`. -/
def replaceEach (c : Char) (word cs : List Char) : List Char :=
  cs.flatMap fun d => if d = c then word else [d]

/-- A text after some replacements, each of the whole text, one after the other. -/
def replaceInTurn (ps : List (Char × List Char)) (cs : List Char) : List Char :=
  ps.foldl (fun cs p => replaceEach p.1 p.2 cs) cs

/-- What stands in the place of a character if only the first replacement meant for it is made. -/
def replacement (ps : List (Char × List Char)) (c : Char) : List Char := (ps.lookup c).getD [c]

theorem flatMap_replacement_of_not_mem {ps : List (Char × List Char)} {word : List Char}
    (h : ∀ p ∈ ps, p.1 ∉ word) : word.flatMap (replacement ps) = word := by
  induction word with
  | nil => rfl
  | cons c word ih =>
    have hc : ps.lookup c = none := by
      rw [List.lookup_eq_none_iff]
      intro p hp
      rw [bne_iff_ne]
      rintro rfl
      exact h p hp (List.mem_cons_self ..)
    rw [List.flatMap_cons, ih fun p hp hmem => h p hp (List.mem_cons_of_mem c hmem), replacement,
      hc]
    rfl

/-- **Replacements in turn** are one substitution if no later one touches what an earlier one
wrote. -/
theorem replaceInTurn_eq_flatMap {ps : List (Char × List Char)}
    (h : ps.Pairwise fun p q => q.1 ∉ p.2) (cs : List Char) :
    replaceInTurn ps cs = cs.flatMap (replacement ps) := by
  induction ps generalizing cs with
  | nil => exact (List.flatMap_singleton' cs).symm
  | cons p ps ih =>
    obtain ⟨d, word⟩ := p
    obtain ⟨hp, hps⟩ := List.pairwise_cons.1 h
    show replaceInTurn ps (replaceEach d word cs) = _
    rw [ih hps, replaceEach, List.flatMap_assoc]
    apply List.flatMap_congr
    intro c _
    rw [replacement, List.lookup_cons]
    by_cases hc : c = d
    · rw [if_pos hc, flatMap_replacement_of_not_mem hp]
      simp [hc]
    · have hne : (c == d) = false := beq_false_of_ne hc
      simp [hc, hne, replacement]

end Islands
