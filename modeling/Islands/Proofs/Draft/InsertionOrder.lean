import Islands.Draft.Runs

/-!
# The order of insertions

Insertions are rendered by offset, those of the left before those of the right, and equals in the
order they were made. `filter_sortedInsertions` says so for one offset; that later offsets come
later is `pairwise_sortedInsertions`, from which a beginning or an end of the sorted insertions is
what an offset selects (`takeWhile_eq_filter`, `dropWhile_eq_filter`).
-/

namespace Islands

/-! ## Beginnings of ordered lists -/

section
variable {α : Type} {R : α → α → Prop} {p : α → Bool}

theorem takeWhile_eq_filter {l : List α} (hp : ∀ a b, R a b → p b = true → p a = true)
    (h : l.Pairwise R) : l.takeWhile p = l.filter p := by
  induction l with
  | nil => rfl
  | cons a l ih =>
    obtain ⟨ha, hl⟩ := List.pairwise_cons.1 h
    by_cases hpa : p a = true
    · rw [List.takeWhile_cons_of_pos hpa, List.filter_cons_of_pos hpa, ih hl]
    · rw [List.takeWhile_cons_of_neg hpa, List.filter_cons_of_neg hpa]
      have hnone : ∀ b ∈ l, ¬p b = true := fun b hb hpb => hpa (hp a b (ha b hb) hpb)
      exact (List.filter_eq_nil_iff.2 hnone).symm

theorem dropWhile_eq_filter {l : List α} (hp : ∀ a b, R a b → p b = true → p a = true)
    (h : l.Pairwise R) : l.dropWhile p = l.filter (!p ·) := by
  induction l with
  | nil => rfl
  | cons a l ih =>
    obtain ⟨ha, hl⟩ := List.pairwise_cons.1 h
    by_cases hpa : p a = true
    · rw [List.dropWhile_cons_of_pos hpa, List.filter_cons_of_neg (by simp [hpa]), ih hl]
    · rw [List.dropWhile_cons_of_neg hpa]
      refine (List.filter_eq_self.2 fun b hb => ?_).symm
      rcases List.mem_cons.1 hb with rfl | hb
      · simpa using hpa
      · have hpb : ¬p b = true := fun hpb => hpa (hp a b (ha b hb) hpb)
        simpa using hpb

end

/-! ## Insertions -/

namespace Insertion

theorem before_iff {a b : Insertion} :
    a.before b = true ↔
      a.offset < b.offset ∨ (a.offset = b.offset ∧ (a.side = .left ∨ b.side = .right)) := by
  simp [before]

theorem before_trans (a b c : Insertion) (hab : a.before b = true) (hbc : b.before c = true) :
    a.before c = true := by
  rw [before_iff] at hab hbc ⊢
  rcases hab with hab | ⟨hab, hs⟩
  · left
    rcases hbc with hbc | ⟨hbc, -⟩ <;> omega
  · rcases hbc with hbc | ⟨hbc, ht⟩
    · left
      omega
    · refine .inr ⟨hab.trans hbc, ?_⟩
      rcases hs with hs | hs
      · exact .inl hs
      · rcases ht with ht | ht
        · rw [hs] at ht
          cases ht
        · exact .inr ht

theorem before_total (a b : Insertion) : (a.before b || b.before a) = true := by
  rw [Bool.or_eq_true, before_iff, before_iff]
  rcases Nat.lt_trichotomy a.offset b.offset with h | h | h
  · exact .inl (.inl h)
  · cases hs : a.side with
    | left => exact .inl (.inr ⟨h, .inl rfl⟩)
    | right => exact .inr (.inr ⟨h.symm, .inr rfl⟩)
  · exact .inr (.inl h)

end Insertion

theorem takeWhile_offset_le {is : List Insertion} (lo k : Nat)
    (h : is.Pairwise fun a b => a.offset ≤ b.offset) :
    (is.filter (lo ≤ ·.offset)).takeWhile (·.offset ≤ k) =
      (is.filter (lo ≤ ·.offset)).filter (·.offset ≤ k) := by
  refine takeWhile_eq_filter (fun a b hab hb => ?_) (h.filter _)
  simp only [decide_eq_true_eq] at hb ⊢
  omega

/-- Of ordered insertions from `lo` on, those from `stop` on are left when those up to `k` and then
those before `stop` are dropped. -/
theorem dropWhile_offset_lt {is : List Insertion} {lo k stop : Nat} (hlo : lo ≤ k) (hk : k < stop)
    (h : is.Pairwise fun a b => a.offset ≤ b.offset) :
    ((is.filter (lo ≤ ·.offset)).dropWhile (·.offset ≤ k)).dropWhile (·.offset < stop) =
      is.filter (stop ≤ ·.offset) := by
  have hfirst : (is.filter (lo ≤ ·.offset)).dropWhile (·.offset ≤ k) =
      (is.filter (lo ≤ ·.offset)).filter (fun i => !decide (i.offset ≤ k)) := by
    refine dropWhile_eq_filter (fun a b hab hb => ?_) (h.filter _)
    simp only [decide_eq_true_eq] at hb ⊢
    omega
  rw [hfirst, dropWhile_eq_filter (fun a b hab hb => ?_) ((h.filter _).filter _),
    List.filter_filter, List.filter_filter]
  · apply List.filter_congr
    intro i _
    rw [Bool.eq_iff_iff]
    simp only [Bool.and_eq_true, Bool.not_eq_true', decide_eq_false_iff_not, decide_eq_true_eq]
    omega
  · simp only [decide_eq_true_eq] at hb ⊢
    omega

theorem filter_offset_split {is : List Insertion} {lo n : Nat} (hlo : lo ≤ n)
    (h : is.Pairwise fun a b => a.offset ≤ b.offset) :
    is.filter (lo ≤ ·.offset) =
      (is.filter (lo ≤ ·.offset)).filter (·.offset < n) ++ is.filter (n ≤ ·.offset) := by
  have hbefore : ∀ a b : Insertion, a.offset ≤ b.offset → decide (b.offset < n) = true →
      decide (a.offset < n) = true := fun a b hab hb => by
    rw [decide_eq_true_eq] at hb ⊢
    omega
  have hbehind : is.filter (n ≤ ·.offset) =
      (is.filter (lo ≤ ·.offset)).filter fun i => !decide (i.offset < n) := by
    rw [List.filter_filter]
    refine List.filter_congr fun i _ => ?_
    rw [Bool.eq_iff_iff]
    simp only [Bool.and_eq_true, Bool.not_eq_true', decide_eq_false_iff_not, decide_eq_true_eq]
    omega
  rw [hbehind, ← takeWhile_eq_filter hbefore (h.filter _),
    ← dropWhile_eq_filter hbefore (h.filter _), List.takeWhile_append_dropWhile]

/-- The insertions at an offset on one side, in the order they were made. -/
def insertionsAt (is : List Insertion) (n : Nat) (side : Side) : List Insertion :=
  is.filter fun i => i.offset == n && i.side == side

theorem insertionsAt_mergeSort (is : List Insertion) (n : Nat) (side : Side) :
    insertionsAt (is.mergeSort Insertion.before) n side = insertionsAt is n side := by
  have hpair : (insertionsAt is n side).Pairwise fun a b => a.before b = true := by
    rw [List.pairwise_iff_forall_sublist]
    intro a b hab
    have hmem : ∀ i ∈ [a, b], i.offset = n ∧ i.side = side := fun i hi => by
      simpa using (List.mem_filter.1 (hab.subset hi)).2
    have ha := hmem a (by simp)
    have hb := hmem b (by simp)
    rw [Insertion.before_iff, ha.1, ha.2, hb.1, hb.2]
    refine .inr ⟨rfl, ?_⟩
    cases side <;> simp
  have hsub := List.sublist_mergeSort Insertion.before_trans Insertion.before_total hpair
    List.filter_sublist
  have hfilter := hsub.filter fun i => i.offset == n && i.side == side
  rw [insertionsAt, List.filter_filter] at hfilter
  simp only [Bool.and_self] at hfilter
  have hlen := ((List.mergeSort_perm is Insertion.before).filter
    fun i => i.offset == n && i.side == side).length_eq
  exact (hfilter.eq_of_length hlen.symm).symm

/-- Insertions that come in front of each other are at one offset and on one side. -/
theorem Insertion.eq_of_before {a b : Insertion} (hab : a.before b = true)
    (hba : b.before a = true) : a.offset = b.offset ∧ a.side = b.side := by
  rw [before_iff] at hab hba
  have hoffset : a.offset = b.offset := by omega
  refine ⟨hoffset, ?_⟩
  have hab := (hab.resolve_left (by omega)).2
  have hba := (hba.resolve_left (by omega)).2
  cases ha : a.side <;> cases hb : b.side <;> simp_all

theorem mem_insertionsAt {is : List Insertion} {i : Insertion} :
    i ∈ insertionsAt is i.offset i.side ↔ i ∈ is := by
  simp [insertionsAt]

/-- In order, insertions are determined by those at each offset and on each side. -/
theorem eq_of_insertionsAt {is js : List Insertion} (his : is.Pairwise fun a b => a.before b = true)
    (hjs : js.Pairwise fun a b => a.before b = true)
    (h : ∀ n side, insertionsAt is n side = insertionsAt js n side) : is = js := by
  induction is generalizing js with
  | nil =>
    refine (List.eq_nil_iff_forall_not_mem.2 fun j hj => ?_).symm
    rw [← mem_insertionsAt, ← h] at hj
    cases hj
  | cons i is ih =>
    have hmem : ∀ k, k ∈ i :: is ↔ k ∈ js := fun k => by
      rw [← mem_insertionsAt, h, mem_insertionsAt]
    cases js with
    | nil => exact nomatch (hmem i).1 (List.mem_cons_self ..)
    | cons j js =>
      obtain ⟨hi, his⟩ := List.pairwise_cons.1 his
      obtain ⟨hj, hbehind⟩ := List.pairwise_cons.1 hjs
      -- each of the two first ones is in the other list, so they are at one place
      have hplace : i.offset = j.offset ∧ i.side = j.side := by
        rcases List.mem_cons.1 ((hmem i).1 (List.mem_cons_self ..)) with rfl | hij
        · exact ⟨rfl, rfl⟩
        · rcases List.mem_cons.1 ((hmem j).2 (List.mem_cons_self ..)) with rfl | hji
          · exact ⟨rfl, rfl⟩
          · exact Insertion.eq_of_before (hi j hji) (hj i hij)
      have hfirst := h i.offset i.side
      simp only [insertionsAt, List.filter_cons, hplace.1, hplace.2, beq_self_eq_true,
        Bool.and_self, if_true] at hfirst
      obtain ⟨rfl, -⟩ := List.cons.inj hfirst
      refine congrArg (i :: ·) (ih his hbehind fun n side => ?_)
      have hns := h n side
      simp only [insertionsAt, List.filter_cons] at hns ⊢
      split at hns
      · exact (List.cons.inj hns).2
      · exact hns

/-- The order in which two insertions at different places were made does not matter. -/
theorem mergeSort_append_swap (is : List Insertion) {i j : Insertion}
    (h : (i.offset, i.side) ≠ (j.offset, j.side)) :
    (is ++ [i] ++ [j]).mergeSort Insertion.before =
      (is ++ [j] ++ [i]).mergeSort Insertion.before := by
  have hsorted := List.pairwise_mergeSort Insertion.before_trans Insertion.before_total
  refine eq_of_insertionsAt (hsorted _) (hsorted _) fun n side => ?_
  rw [insertionsAt_mergeSort, insertionsAt_mergeSort]
  simp only [insertionsAt, List.filter_append, List.append_assoc]
  congr 1
  by_cases hi : i.offset = n ∧ i.side = side
  · have hj : ¬(j.offset = n ∧ j.side = side) := fun hj =>
      h (by rw [hi.1, hi.2, hj.1, hj.2])
    simp [hi, hj]
  · simp [hi]

theorem filter_eq_append {is : List Insertion} (n : Nat)
    (h : is.Pairwise fun a b => a.before b = true) :
    is.filter (·.offset == n) = insertionsAt is n .left ++ insertionsAt is n .right := by
  induction is with
  | nil => rfl
  | cons i is ih =>
    obtain ⟨hi, his⟩ := List.pairwise_cons.1 h
    have ih := ih his
    unfold insertionsAt at ih ⊢
    by_cases hn : i.offset = n
    · cases hs : i.side with
      | left => simp [hn, hs, ih]
      | right =>
        -- nothing of the left comes after it
        have hnone : is.filter (fun j => j.offset == n && j.side == .left) = [] := by
          apply List.filter_eq_nil_iff.2
          intro j hj hjn
          have hjn : j.offset = n ∧ j.side = .left := by simpa using hjn
          rcases Insertion.before_iff.1 (hi j hj) with hlt | ⟨-, hl | hr⟩
          · omega
          · rw [hs] at hl
            cases hl
          · rw [hjn.2] at hr
            cases hr
        simp [hn, hs, ih, hnone]
    · simp [hn, ih]

namespace Draft

theorem pairwise_sortedInsertions (d : Draft) :
    d.sortedInsertions.Pairwise fun a b => a.offset ≤ b.offset := by
  have h := List.pairwise_mergeSort Insertion.before_trans Insertion.before_total d.insertions
  refine h.imp fun hab => ?_
  rcases Insertion.before_iff.1 hab with hlt | ⟨heq, -⟩ <;> omega

theorem mem_sortedInsertions {d : Draft} {i : Insertion} :
    i ∈ d.sortedInsertions ↔ i ∈ d.insertions :=
  (List.mergeSort_perm d.insertions Insertion.before).mem_iff

/-- **The insertions at one offset**: those of the left in the order they were made, then those of
the right. -/
theorem filter_sortedInsertions (d : Draft) (n : Nat) :
    d.sortedInsertions.filter (·.offset == n) =
      insertionsAt d.insertions n .left ++ insertionsAt d.insertions n .right := by
  have h := List.pairwise_mergeSort Insertion.before_trans Insertion.before_total d.insertions
  rw [sortedInsertions, filter_eq_append n h, insertionsAt_mergeSort, insertionsAt_mergeSort]

end Draft

end Islands
