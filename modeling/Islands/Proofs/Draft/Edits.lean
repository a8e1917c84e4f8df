import Islands.Draft.Basic
import Islands.Proofs.Text.Offsets

/-!
# Sequences of edits

A draft that edits were made to is in order (`Draft.InOrder`): its insertions and patches are at
boundaries of the source, and its patches stand one behind the other. An edit that is refused leaves
the draft as it was, so after a sequence of edits the draft records those that were not refused
(`Draft.accepted`): all texts in front, all insertions, and the patches that no later one contains
(`survivors`).

* `check_eq_ok_iff`, `replaceRange_eq_ok_iff`: when an edit is not refused, and what it gives.
* `inOrder_make`: one edit keeps a draft in order.
* `records_after`: what a draft holds after a sequence of edits.
-/

namespace Islands

/-! ## Edits -/

/-- An edit of a draft. -/
inductive Edit
  | front (text : String)
  | insertion (i : Insertion)
  | patch (p : Patch)
deriving DecidableEq, Repr

namespace Draft

/-- Makes an edit. -/
def make (d : Draft) : Edit → Except EditFault Draft
  | .front text => .ok (d.addInFront text)
  | .insertion i => d.insertAt i.offset i.side i.text
  | .patch p => d.replaceRange p.range p.text

/-- The draft after a sequence of edits; those that are refused have no effect. -/
def after (d : Draft) : List Edit → Draft
  | [] => d
  | e :: es =>
    match d.make e with
    | .ok d' => d'.after es
    | .error _ => d.after es

/-- The edits of a sequence that are not refused. -/
def accepted (d : Draft) : List Edit → List Edit
  | [] => []
  | e :: es =>
    match d.make e with
    | .ok d' => e :: d'.accepted es
    | .error _ => d.accepted es

end Draft

/-- The texts put in front. -/
def frontsOf (es : List Edit) : List String :=
  es.filterMap fun | .front text => some text | _ => none

/-- The insertions among some edits. -/
def insertionsOf (es : List Edit) : List Insertion :=
  es.filterMap fun | .insertion i => some i | _ => none

/-- The patches among some edits. -/
def patchesOf (es : List Edit) : List Patch :=
  es.filterMap fun | .patch p => some p | _ => none

/-- The patches that no later one contains. -/
def survivors : List Patch → List Patch
  | [] => []
  | p :: ps => if ps.any (p.range.isWithin ·.range) then survivors ps else p :: survivors ps

/-- A patch leaves the earlier ones that it does not contain. -/
theorem survivors_append (ps : List Patch) (q : Patch) :
    survivors (ps ++ [q]) = (survivors ps).filter (!·.range.isWithin q.range) ++ [q] := by
  induction ps with
  | nil => rfl
  | cons p ps ih =>
    simp only [List.cons_append, survivors, List.any_append, List.any_cons, List.any_nil,
      Bool.or_false, Bool.or_eq_true]
    by_cases hps : ps.any (p.range.isWithin ·.range) = true
    · rw [if_pos (.inl hps), if_pos hps, ih]
    · rw [if_neg hps]
      by_cases hq : p.range.isWithin q.range = true
      · rw [if_pos (.inr hq), ih, List.filter_cons_of_neg (by simp [hq])]
      · rw [if_neg fun h => h.elim hps hq, ih,
          List.filter_cons_of_pos (by simp [hq])]
        rfl

/-! ## Order -/

namespace Draft

/-- A draft that edits were made to. -/
structure InOrder (d : Draft) : Prop where
  insertions : ∀ i ∈ d.insertions, isBoundary i.offset d.source = true
  patches : ∀ p ∈ d.patches, p.range.OnBoundaries d.source ∧ p.range.start < p.range.stop
  apart : d.patches.Pairwise fun p q => p.range.stop ≤ q.range.start

theorem inOrder_ofSource (source : List Char) : (ofSource source).InOrder :=
  ⟨fun _ hi => (nomatch hi), fun _ hp => (nomatch hp), List.Pairwise.nil⟩

theorem check_eq_ok_iff {d : Draft} {range : Span} :
    d.check range = .ok () ↔ range.start ≤ range.stop ∧ range.OnBoundaries d.source := by
  unfold check
  constructor
  · intro h
    split at h
    · cases h
    · rename_i hrange
      split at h
      · cases h
      · rename_i hstart
        split at h
        · cases h
        · rename_i hstop
          exact ⟨by omega, by simpa using hstart, by simpa using hstop⟩
  · intro ⟨hle, hstart, hstop⟩
    have hlen : range.stop ≤ d.length := le_of_isBoundary hstop
    rw [if_neg (by omega), hstart, hstop]
    rfl

theorem insertAt_eq_ok_iff {d d' : Draft} {offset : Nat} {side : Side} {text : String} :
    d.insertAt offset side text = .ok d' ↔
      isBoundary offset d.source = true ∧
        d' = { d with insertions := d.insertions ++ [⟨offset, side, text⟩] } := by
  unfold insertAt
  constructor
  · intro h
    split at h
    · cases h
    · rename_i hcheck
      exact ⟨(check_eq_ok_iff.1 hcheck).2.1, (Except.ok.inj h).symm⟩
  · intro ⟨hb, hd⟩
    have hcheck : d.check ⟨offset, offset⟩ = .ok () := check_eq_ok_iff.2 ⟨Nat.le_refl _, hb, hb⟩
    rw [hcheck, hd]

/-- **When a range is replaced**: it is between boundaries and not empty, and every patch that has a
byte in common with it is within it. -/
theorem replaceRange_eq_ok_iff {d d' : Draft} {range : Span} {text : String} :
    d.replaceRange range text = .ok d' ↔
      range.OnBoundaries d.source ∧ range.start < range.stop ∧
        (∀ o ∈ d.patches, o.range.isDisjoint range = true ∨ o.range.isWithin range = true) ∧
        d' = ⟨d.source, d.fronts, d.insertions,
          addPatch ⟨range, text⟩ (d.patches.filter fun o => !o.range.isWithin range)⟩ := by
  unfold replaceRange
  constructor
  · intro h
    split at h
    · cases h
    · rename_i hcheck
      obtain ⟨hle, hb⟩ := check_eq_ok_iff.1 hcheck
      split at h
      · cases h
      · rename_i hne
        split at h
        · cases h
        · rename_i hnone
          refine ⟨hb, by omega, fun o ho => ?_, (Except.ok.inj h).symm⟩
          have ho := List.find?_eq_none.1 hnone o ho
          rw [Bool.not_eq_true, Bool.not_eq_false', Bool.or_eq_true] at ho
          exact ho
  · intro ⟨hb, hlt, hpatches, hd⟩
    have hcheck : d.check range = .ok () := check_eq_ok_iff.2 ⟨Nat.le_of_lt hlt, hb⟩
    have hnone : d.patches.find?
        (fun o => !(o.range.isDisjoint range || o.range.isWithin range)) = none :=
      List.find?_eq_none.2 fun o ho => by
        rw [Bool.not_eq_true, Bool.not_eq_false', Bool.or_eq_true]
        exact hpatches o ho
    rw [hcheck, hd]
    simp only [hnone]
    rw [if_neg (by omega)]

/-- **The place of a new patch** among others, those that start in front of it first, is behind as
many as these are: the partition point of the list. -/
theorem addPatch_eq_insertIdx {o : Patch} {ps : List Patch}
    (h : ps.Pairwise fun p q => q.range.start < o.range.start → p.range.start < o.range.start) :
    addPatch o ps = ps.insertIdx (ps.countP fun p => p.range.start < o.range.start) o := by
  induction ps with
  | nil => rfl
  | cons p ps ih =>
    obtain ⟨hp, hrest⟩ := List.pairwise_cons.1 h
    unfold addPatch
    split
    · rename_i hlt
      rw [List.countP_cons_of_pos (by simpa using hlt), List.insertIdx_succ_cons, ih hrest]
    · rename_i hge
      have hnone : (p :: ps).countP (fun p => p.range.start < o.range.start) = 0 := by
        rw [List.countP_eq_zero]
        intro q hq hlt
        rcases List.mem_cons.1 hq with rfl | hq
        · exact hge (by simpa using hlt)
        · exact hge (hp q hq (by simpa using hlt))
      rw [hnone, List.insertIdx_zero]

theorem InOrder.addPatch_eq {d : Draft} (hd : d.InOrder) (range : Span) (text : String) :
    let kept := d.patches.filter fun o => !o.range.isWithin range
    addPatch ⟨range, text⟩ kept =
      kept.insertIdx (kept.countP fun o => o.range.start < range.start) ⟨range, text⟩ := by
  intro kept
  have hapart : d.patches.Pairwise fun p q =>
      q.range.start < range.start → p.range.start < range.start := by
    refine hd.apart.imp_of_mem fun hp _ hle hlt => ?_
    have := (hd.patches _ hp).2
    omega
  exact addPatch_eq_insertIdx (hapart.filter _)

theorem mem_addPatch {o q : Patch} {ps : List Patch} : q ∈ addPatch o ps ↔ q = o ∨ q ∈ ps := by
  induction ps with
  | nil => simp [addPatch]
  | cons p ps ih =>
    unfold addPatch
    split
    · rw [List.mem_cons, ih, List.mem_cons, or_left_comm]
    · exact List.mem_cons

/-- A patch that has no byte in common with the others is put where it belongs. -/
theorem pairwise_addPatch {o : Patch} {ps : List Patch} (ho : o.range.start < o.range.stop)
    (hps : ∀ p ∈ ps, p.range.start < p.range.stop ∧ p.range.isDisjoint o.range = true)
    (h : ps.Pairwise fun p q => p.range.stop ≤ q.range.start) :
    (addPatch o ps).Pairwise fun p q => p.range.stop ≤ q.range.start := by
  induction ps with
  | nil => exact List.pairwise_singleton _ _
  | cons p ps ih =>
    obtain ⟨hp, hrest⟩ := List.pairwise_cons.1 h
    obtain ⟨hlt, hdis⟩ := hps p (List.mem_cons_self ..)
    have hdis := Span.isDisjoint_iff.1 hdis
    unfold addPatch
    split
    · refine List.pairwise_cons.2
        ⟨fun q hq => ?_, ih (fun q hq => hps q (List.mem_cons_of_mem _ hq)) hrest⟩
      rcases mem_addPatch.1 hq with rfl | hq
      · omega
      · exact hp q hq
    · refine List.pairwise_cons.2 ⟨fun q hq => ?_, h⟩
      rcases List.mem_cons.1 hq with rfl | hq
      · omega
      · have := hp q hq
        omega

/-- **One edit** keeps a draft in order. -/
theorem inOrder_make {d d' : Draft} {e : Edit} (hd : d.InOrder) (h : d.make e = .ok d') :
    d'.InOrder := by
  cases e with
  | front text =>
    obtain rfl : d.addInFront text = d' := Except.ok.inj h
    exact ⟨hd.insertions, hd.patches, hd.apart⟩
  | insertion i =>
    obtain ⟨hb, rfl⟩ := insertAt_eq_ok_iff.1 h
    refine ⟨fun j hj => ?_, hd.patches, hd.apart⟩
    rcases List.mem_append.1 hj with hj | hj
    · exact hd.insertions j hj
    · obtain rfl := List.mem_singleton.1 hj
      exact hb
  | patch p =>
    obtain ⟨hb, hlt, hpatches, rfl⟩ := replaceRange_eq_ok_iff.1 h
    refine ⟨hd.insertions, fun q hq => ?_, pairwise_addPatch hlt (fun q hq => ?_) ?_⟩
    · rcases mem_addPatch.1 hq with rfl | hq
      · exact ⟨hb, hlt⟩
      · exact hd.patches q (List.mem_filter.1 hq).1
    · obtain ⟨hq, hout⟩ := List.mem_filter.1 hq
      refine ⟨(hd.patches q hq).2, (hpatches q hq).resolve_right fun hin => ?_⟩
      rw [hin] at hout
      cases hout
    · exact hd.apart.filter _

/-! ## Records -/

/-- A draft holds exactly the given edits of the given source. -/
structure Records (d : Draft) (source : List Char) (es : List Edit) : Prop where
  source : d.source = source
  fronts : d.fronts = frontsOf es
  insertions : d.insertions = insertionsOf es
  patches : ∀ p, p ∈ d.patches ↔ p ∈ survivors (patchesOf es)
  inOrder : d.InOrder

theorem records_make {d d' : Draft} {source : List Char} {es : List Edit} {e : Edit}
    (hd : d.Records source es) (h : d.make e = .ok d') : d'.Records source (es ++ [e]) := by
  have horder := inOrder_make hd.inOrder h
  cases e with
  | front text =>
    obtain rfl : d.addInFront text = d' := Except.ok.inj h
    refine ⟨hd.source, ?_, ?_, fun p => ?_, horder⟩
    · simp [addInFront, hd.fronts, frontsOf]
    · simp [addInFront, hd.insertions, insertionsOf]
    · simpa [addInFront, patchesOf] using hd.patches p
  | insertion i =>
    obtain ⟨-, rfl⟩ := insertAt_eq_ok_iff.1 h
    refine ⟨hd.source, ?_, ?_, fun p => ?_, horder⟩
    · simp [hd.fronts, frontsOf]
    · simp [hd.insertions, insertionsOf]
    · simpa [patchesOf] using hd.patches p
  | patch q =>
    obtain ⟨-, -, -, rfl⟩ := replaceRange_eq_ok_iff.1 h
    refine ⟨hd.source, ?_, ?_, fun p => ?_, horder⟩
    · simp [hd.fronts, frontsOf]
    · simp [hd.insertions, insertionsOf]
    · have hsplit : patchesOf (es ++ [.patch q]) = patchesOf es ++ [q] := by simp [patchesOf]
      rw [hsplit, survivors_append, mem_addPatch, List.mem_filter, hd.patches, List.mem_append,
        List.mem_filter, List.mem_singleton, or_comm]

/-- **A sequence of edits**: the draft records those that are not refused. -/
theorem records_after {d : Draft} {source : List Char} {done : List Edit}
    (hd : d.Records source done) (es : List Edit) :
    (d.after es).Records source (done ++ d.accepted es) := by
  induction es generalizing d done with
  | nil => simpa [after, accepted] using hd
  | cons e es ih =>
    unfold after accepted
    split
    · rename_i d' h
      have := ih (records_make hd h)
      simpa [h] using this
    · rename_i h
      simpa [h] using ih hd

theorem records_ofSource (source : List Char) : (ofSource source).Records source [] :=
  ⟨rfl, rfl, rfl, fun _ => Iff.rfl, inOrder_ofSource source⟩

end Draft

end Islands
