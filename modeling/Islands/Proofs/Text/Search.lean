import Islands.Text.Search

/-!
# Words are found whatever follows them

Whether a word stands at the start of a text is decided by as many characters as the word has
(`dropWord?_eq_none_append`), or by those up to one that is not in the word
(`dropWord?_append_cons`, `dropLetters?_append_cons`). So the place where a text is divided in front
of a word or around it does not depend on what is behind the word (`splitOnFirst_append`,
`splitBeforeLetters_append`).
-/

namespace Islands

/-! ## Exact words -/

/-- Whether a word stands at the start of a text does not depend on what is behind as many
characters. -/
theorem dropWord?_eq_none_append {word x : List Char} (hlen : word.length ≤ x.length)
    {y : List Char} (h : dropWord? word (x ++ y) = none) (y' : List Char) :
    dropWord? word (x ++ y') = none := by
  cases hd : dropWord? word (x ++ y') with
  | none => rfl
  | some r =>
    have hpre : word <+: x :=
      List.prefix_of_prefix_length_le ⟨r, (dropWord?_eq_some_iff.1 hd).symm⟩
        (List.prefix_append x y') hlen
    obtain ⟨s, rfl⟩ := hpre
    rw [List.append_assoc, dropWord?_eq_some_iff.2 rfl] at h
    cases h

theorem splitOnFirst_append {word cs a b : List Char} (h : splitOnFirst word cs = some (a, b))
    (b' : List Char) : splitOnFirst word (a ++ (word ++ b')) = some (a, b') := by
  induction cs generalizing a with
  | nil =>
    simp only [splitOnFirst] at h
    split at h
    · rename_i he
      obtain ⟨rfl, rfl⟩ := Prod.mk.inj (Option.some.inj h)
      obtain rfl := List.isEmpty_iff.1 he
      cases b' <;> rfl
    · cases h
  | cons c cs ih =>
    simp only [splitOnFirst] at h
    split at h
    · rename_i rest hrest
      obtain ⟨rfl, rfl⟩ := Prod.mk.inj (Option.some.inj h)
      rw [List.nil_append]
      cases hw : word ++ b' with
      | nil =>
        obtain ⟨rfl, rfl⟩ := List.append_eq_nil_iff.1 hw
        rfl
      | cons d tail => rw [splitOnFirst, ← hw, dropWord?_eq_some_iff.2 rfl]
    · rename_i hnone
      obtain ⟨⟨a', b''⟩, h', e⟩ := Option.map_eq_some_iff.1 h
      obtain ⟨rfl, rfl⟩ := Prod.mk.inj e
      have hcs := eq_of_splitOnFirst h'
      have hnone' : dropWord? word (c :: (a' ++ (word ++ b'))) = none := by
        have hlen : word.length ≤ (c :: (a' ++ word)).length := by simp; omega
        have hnone' : dropWord? word ((c :: (a' ++ word)) ++ b'') = none := by
          rw [← hnone, hcs]
          simp
        simpa using dropWord?_eq_none_append hlen hnone' b'
      show splitOnFirst word (c :: (a' ++ (word ++ b'))) = _
      rw [splitOnFirst, hnone', ih h']
      rfl

/-- A character that is not in a word ends every try to find the word. -/
theorem dropWord?_append_cons {word : List Char} {c : Char} (hc : c ∉ word) (u x : List Char) :
    dropWord? word (u ++ c :: x) = (dropWord? word u).map (· ++ c :: x) := by
  induction word generalizing u with
  | nil => rfl
  | cons w word ih =>
    rw [List.mem_cons, not_or] at hc
    cases u with
    | nil =>
      have hne : (w == c) = false := beq_eq_false_iff_ne.2 (Ne.symm hc.1)
      simp only [List.nil_append, dropWord?, hne]
      rfl
    | cons d u =>
      rw [List.cons_append, dropWord?, dropWord?, ih hc.2]
      split <;> rfl

/-! ## Words in any case -/

theorem exists_of_dropLetters? {word cs rest : List Char} (h : dropLetters? word cs = some rest) :
    ∃ found, cs = found ++ rest ∧ sameLetters found word = true := by
  induction word generalizing cs with
  | nil => exact ⟨[], Option.some.inj h, rfl⟩
  | cons w word ih =>
    cases cs with
    | nil => cases h
    | cons c cs =>
      rw [dropLetters?] at h
      split at h
      · rename_i hc
        obtain ⟨found, rfl, hfound⟩ := ih h
        refine ⟨c :: found, rfl, ?_⟩
        rw [sameLetters, List.map_cons, List.map_cons, ← beq_iff_eq.1 hc, List.cons_beq_cons,
          beq_self_eq_true, Bool.true_and]
        exact hfound
      · cases h

theorem dropLetters?_append_cons {word : List Char} {c : Char}
    (hc : ∀ w ∈ word, w.toLower ≠ c.toLower) (u x : List Char) :
    dropLetters? word (u ++ c :: x) = (dropLetters? word u).map (· ++ c :: x) := by
  induction word generalizing u with
  | nil => rfl
  | cons w word ih =>
    rw [List.forall_mem_cons] at hc
    cases u with
    | nil =>
      have hne : (w.toLower == c.toLower) = false := beq_eq_false_iff_ne.2 hc.1
      simp only [List.nil_append, dropLetters?, hne]
      rfl
    | cons d u =>
      rw [List.cons_append, dropLetters?, dropLetters?, ih hc.2]
      split <;> rfl

theorem splitBeforeLetters_append {word a b x : List Char} {c : Char}
    (hc : ∀ w ∈ word, w.toLower ≠ c.toLower)
    (h : splitBeforeLetters word (a ++ (b ++ c :: x)) = some (a, b ++ c :: x)) (y : List Char) :
    splitBeforeLetters word (a ++ (b ++ c :: y)) = some (a, b ++ c :: y) := by
  -- at each place the word is found or not, whatever is behind the character
  have hstable : ∀ u, (dropLetters? word (u ++ c :: y)).isSome =
      (dropLetters? word (u ++ c :: x)).isSome := by
    intro u
    rw [dropLetters?_append_cons hc, dropLetters?_append_cons hc, Option.isSome_map,
      Option.isSome_map]
  induction a with
  | nil =>
    have hfound : (dropLetters? word (b ++ c :: x)).isSome = true := by
      cases hcs : b ++ c :: x with
      | nil => simp at hcs
      | cons d cs =>
        rw [List.nil_append, hcs, splitBeforeLetters] at h
        split at h
        · assumption
        · obtain ⟨⟨a', b'⟩, -, e⟩ := Option.map_eq_some_iff.1 h
          exact absurd (congrArg Prod.fst e) (List.cons_ne_nil d a')
    rw [← hstable] at hfound
    rw [List.nil_append]
    cases hcs : b ++ c :: y with
    | nil => simp at hcs
    | cons d cs =>
      rw [hcs] at hfound
      rw [splitBeforeLetters, if_pos hfound]
  | cons d a ih =>
    rw [List.cons_append, splitBeforeLetters] at h ⊢
    have hd := hstable (d :: (a ++ b))
    rw [List.cons_append, List.cons_append, List.append_assoc, List.append_assoc] at hd
    rw [hd]
    split at h
    · exact absurd (congrArg Prod.fst (Option.some.inj h)).symm (List.cons_ne_nil d a)
    · rename_i hnone
      rw [if_neg hnone]
      obtain ⟨⟨a', b'⟩, h', e⟩ := Option.map_eq_some_iff.1 h
      obtain ⟨ha, rfl⟩ := Prod.mk.inj e
      obtain rfl := (List.cons.inj ha).2
      rw [ih h']
      rfl

end Islands
