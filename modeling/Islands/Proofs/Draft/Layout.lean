import Islands.Proofs.Draft.Rendering
import Islands.Proofs.Draft.Splice

/-!
# The runs of a spliced text

The runs of a draft follow its edits (`Laid`): the lines of the source in front of an edit, the run
of the edit, and so on with the source behind it. So the text of the runs is the source, spliced
with the edits (`Laid.spliced`).

* `laid_editsFrom`: any insertions and patches.
* `laid_patchedRuns`: patches alone.
* `laid_patchedRuns_insertion`: patches and an insertion that none of them takes the place of.
* `flatMap_shownAt_front`: what is written in front of a place, against what each offset shows.
-/

namespace Islands

/-- The run of an edit: a text that is put in comes from no place of the source. -/
def Patch.laidRun (p : Patch) : Run :=
  ⟨if p.range.start = p.range.stop then none else some p.range.start, p.text.toList⟩

/-- The runs of the text `cs`, which starts at an offset, with each patch in place of its range. -/
inductive Laid : Nat → List Char → List Patch → List Run → Prop
  | rest (start : Nat) (cs : List Char) : Laid start cs [] (keptRuns start (linesOf cs))
  | patch {start : Nat} {p : Patch} {ps : List Patch} {rs : List Run}
    (before covered after : List Char)
    (hstart : start + byteLength before = p.range.start)
    (hstop : p.range.start + byteLength covered = p.range.stop)
    (h : Laid p.range.stop after ps rs) :
    Laid start (before ++ (covered ++ after)) (p :: ps)
      (keptRuns start (linesOf before) ++ p.laidRun :: rs)

theorem Laid.append_patch {start : Nat} {a m b : List Char} {p : Patch} {ps qs : List Patch}
    {rs ts : List Run} (h : Laid start a ps rs) (ha : start + byteLength a = p.range.start)
    (hm : p.range.start + byteLength m = p.range.stop) (hb : Laid p.range.stop b qs ts) :
    Laid start (a ++ (m ++ b)) (ps ++ p :: qs) (rs ++ p.laidRun :: ts) := by
  induction h with
  | rest start a => exact .patch a m b ha hm hb
  | patch before covered after hstart hstop _ ih =>
    rw [byteLength_append, byteLength_append] at ha
    have h := Laid.patch before covered _ hstart hstop (ih (by omega))
    simpa only [List.append_assoc, List.cons_append] using h

theorem Laid.spliced {start : Nat} {cs : List Char} {ps : List Patch} {rs : List Run}
    (h : Laid start cs ps rs) : Spliced start cs ps (textOf rs) := by
  induction h with
  | rest start cs =>
    rw [textOf_kept]
    exact .rest start cs
  | patch before covered after hstart hstop _ ih =>
    rw [textOf_append, textOf_kept, textOf_cons]
    exact .patch before covered after hstart hstop ih

/-! ## Runs of drafts -/

/-- The patch that stands for an insertion. -/
def Insertion.patch (i : Insertion) : Patch := insertionPatch i.offset i.text

/-- The edits from an offset on in the order of their places: the patches, and among them the
insertions that none of them takes the place of. The insertions are given in order. -/
def editsFrom (lo : Nat) (is : List Insertion) : List Patch → List Patch
  | [] => (is.filter (lo ≤ ·.offset)).map Insertion.patch
  | p :: ps =>
    ((is.filter (lo ≤ ·.offset)).filter (·.offset ≤ p.range.start)).map Insertion.patch ++
      p :: editsFrom p.range.stop is ps

section
variable {source pre cs : List Char} {is : List Insertion} {ps : List Patch}

theorem laidRun_patch (i : Insertion) : i.patch.laidRun = i.run := by
  simp [Patch.laidRun, Insertion.patch, insertionPatch, Insertion.run]

theorem laidRun_of_lt {p : Patch} (h : p.range.start < p.range.stop) : p.laidRun = p.run := by
  rw [Patch.laidRun, if_neg (Nat.ne_of_lt h), Patch.run]

theorem mem_editsFrom {lo : Nat} {e : Patch} (h : e ∈ editsFrom lo is ps) :
    e ∈ ps ∨ ∃ i ∈ is, e = i.patch := by
  have hinsertions : ∀ {js : List Insertion}, js ⊆ is → e ∈ js.map Insertion.patch →
      ∃ i ∈ is, e = i.patch := fun hjs h => by
    obtain ⟨i, hi, rfl⟩ := List.mem_map.1 h
    exact ⟨i, hjs hi, rfl⟩
  induction ps generalizing lo with
  | nil => exact .inr (hinsertions (List.filter_subset_self _) h)
  | cons p ps ih =>
    rcases List.mem_append.1 h with h | h
    · exact .inr (hinsertions
        (fun i hi => (List.mem_filter.1 (List.mem_filter.1 hi).1).1) h)
    · rcases List.mem_cons.1 h with rfl | h
      · exact .inl (List.mem_cons_self ..)
      · exact (ih h).imp_left (List.mem_cons_of_mem _)

theorem mem_editsFrom_of_mem {lo : Nat} {p : Patch} (h : p ∈ ps) : p ∈ editsFrom lo is ps := by
  induction ps generalizing lo with
  | nil => cases h
  | cons q ps ih =>
    refine List.mem_append_right _ ?_
    rcases List.mem_cons.1 h with rfl | h
    · exact List.mem_cons_self
    · exact List.mem_cons_of_mem _ (ih h)

theorem editsFrom_of_lt {lo : Nat} (his : ∀ i ∈ is, i.offset < lo)
    (hlt : ∀ p ∈ ps, p.range.start < p.range.stop)
    (hapart : ps.Pairwise fun p q => p.range.stop ≤ q.range.start)
    (hle : ∀ p ∈ ps, lo ≤ p.range.start) : editsFrom lo is ps = ps := by
  have hnone : is.filter (lo ≤ ·.offset) = [] := List.filter_eq_nil_iff.2 fun i hi => by
    have := his i hi
    rw [decide_eq_true_eq]
    omega
  induction ps generalizing lo with
  | nil => rw [editsFrom, hnone, List.map_nil]
  | cons p ps ih =>
    obtain ⟨hp, hrest⟩ := List.pairwise_cons.1 hapart
    have hplt := hlt p (List.mem_cons_self ..)
    have hplo := hle p (List.mem_cons_self ..)
    have his' : ∀ i ∈ is, i.offset < p.range.stop := fun i hi => by
      have := his i hi
      omega
    have hnone' : is.filter (p.range.stop ≤ ·.offset) = [] :=
      List.filter_eq_nil_iff.2 fun i hi => by
        have := his' i hi
        rw [decide_eq_true_eq]
        omega
    rw [editsFrom, hnone, ih his' (fun q hq => hlt q (List.mem_cons_of_mem _ hq)) hrest hp hnone']
    rfl

/-- An insertion that no patch takes the place of is in front of the patches behind it. -/
theorem exists_editsFrom_singleton {lo : Nat} {i : Insertion} (hlo : lo ≤ i.offset)
    (hlt : ∀ p ∈ ps, p.range.start < p.range.stop)
    (hapart : ps.Pairwise fun p q => p.range.stop ≤ q.range.start)
    (hout : ∀ p ∈ ps, i.offset ≤ p.range.start ∨ p.range.stop ≤ i.offset) :
    ∃ before after, ps = before ++ after ∧
      editsFrom lo [i] ps = before ++ i.patch :: after := by
  have hfrom : [i].filter (lo ≤ ·.offset) = [i] := List.filter_eq_self.2 fun j hj => by
    rw [List.mem_singleton.1 hj, decide_eq_true_eq]
    exact hlo
  induction ps generalizing lo with
  | nil => exact ⟨[], [], rfl, by rw [editsFrom, hfrom]; rfl⟩
  | cons p ps ih =>
    obtain ⟨hp, hrest⟩ := List.pairwise_cons.1 hapart
    have hplt := hlt p (List.mem_cons_self ..)
    have hlt' : ∀ q ∈ ps, q.range.start < q.range.stop := fun q hq =>
      hlt q (List.mem_cons_of_mem _ hq)
    rw [editsFrom, hfrom]
    by_cases hfront : i.offset ≤ p.range.start
    · have hbehind : ∀ j ∈ [i], j.offset < p.range.stop := fun j hj => by
        rw [List.mem_singleton.1 hj]
        omega
      have hupTo : [i].filter (·.offset ≤ p.range.start) = [i] :=
        List.filter_cons_of_pos (decide_eq_true hfront)
      rw [hupTo, editsFrom_of_lt hbehind hlt' hrest hp]
      exact ⟨[], p :: ps, rfl, rfl⟩
    · have hbehind : p.range.stop ≤ i.offset :=
        (hout p (List.mem_cons_self ..)).resolve_left hfront
      have hupTo : [i].filter (·.offset ≤ p.range.start) = [] :=
        List.filter_cons_of_neg fun h => hfront (of_decide_eq_true h)
      obtain ⟨before, after, rfl, hedits⟩ := ih hbehind hlt' hrest
        (fun q hq => hout q (List.mem_cons_of_mem _ hq))
        (List.filter_cons_of_pos (decide_eq_true hbehind))
      rw [hupTo, hedits]
      exact ⟨p :: before, after, rfl, rfl⟩

/-- The edits from a place on that is not inside a patch are the last ones. -/
theorem exists_editsFrom {lo n : Nat} {front : List Patch}
    (hsorted : is.Pairwise fun a b => a.offset ≤ b.offset) (hlo : lo ≤ n)
    (hfront : ∀ p ∈ front, p.range.start ≤ p.range.stop ∧ p.range.stop ≤ n)
    (hps : ∀ p ∈ ps, n ≤ p.range.start) :
    ∃ es, editsFrom lo is (front ++ ps) = es ++ editsFrom n is ps ∧
      ∀ e ∈ es, e.range.stop ≤ n := by
  induction front generalizing lo with
  | nil =>
    have hsplit := filter_offset_split hlo hsorted
    refine ⟨((is.filter (lo ≤ ·.offset)).filter (·.offset < n)).map Insertion.patch, ?_, ?_⟩
    · cases ps with
      | nil =>
        rw [List.nil_append, editsFrom, editsFrom, ← List.map_append, ← hsplit]
      | cons p ps =>
        have hle := hps p (List.mem_cons_self ..)
        have hupTo : (is.filter (lo ≤ ·.offset)).filter (·.offset ≤ p.range.start) =
            (is.filter (lo ≤ ·.offset)).filter (·.offset < n) ++
              (is.filter (n ≤ ·.offset)).filter (·.offset ≤ p.range.start) := by
          have hbefore : ∀ i ∈ (is.filter (lo ≤ ·.offset)).filter (·.offset < n),
              decide (i.offset ≤ p.range.start) = true := fun i hi => by
            have := (List.mem_filter.1 hi).2
            rw [decide_eq_true_eq] at this ⊢
            omega
          rw [hsplit, List.filter_append, List.filter_eq_self.2 hbefore, ← hsplit]
        rw [List.nil_append, editsFrom, editsFrom, hupTo, List.map_append, List.append_assoc]
    · intro e he
      obtain ⟨i, hi, rfl⟩ := List.mem_map.1 he
      have hi : i.offset < n := by simpa using (List.mem_filter.1 hi).2
      exact Nat.le_of_lt hi
  | cons p front ih =>
    obtain ⟨hle, hstop⟩ := hfront p (List.mem_cons_self ..)
    obtain ⟨es, hes, hbound⟩ := ih hstop fun q hq => hfront q (List.mem_cons_of_mem _ hq)
    refine ⟨((is.filter (lo ≤ ·.offset)).filter (·.offset ≤ p.range.start)).map Insertion.patch ++
      p :: es, ?_, fun e he => ?_⟩
    · rw [List.cons_append, editsFrom, hes, List.append_assoc, List.cons_append]
    · rcases List.mem_append.1 he with he | he
      · obtain ⟨i, hi, rfl⟩ := List.mem_map.1 he
        have hi : i.offset ≤ p.range.start := by simpa using (List.mem_filter.1 hi).2
        exact Nat.le_trans hi (Nat.le_trans hle hstop)
      · rcases List.mem_cons.1 he with rfl | he
        · exact hstop
        · exact hbound e he

theorem laid_stretchRuns (hsorted : is.Pairwise fun a b => a.offset ≤ b.offset)
    (hle : ∀ i ∈ is, byteLength pre ≤ i.offset)
    (hb : ∀ i ∈ is, isBoundary i.offset (pre ++ cs) = true) :
    Laid (byteLength pre) cs (is.map Insertion.patch) (stretchRuns (byteLength pre) cs is) := by
  induction is generalizing pre cs with
  | nil => exact .rest _ cs
  | cons i is ih =>
    obtain ⟨hi, his⟩ := List.pairwise_cons.1 hsorted
    obtain ⟨a, b, rfl, ha⟩ :=
      exists_division (hb i (List.mem_cons_self ..)) (hle i (List.mem_cons_self ..))
    have hoff : i.offset - byteLength pre = byteLength a := by omega
    have hpre : byteLength (pre ++ a) = i.offset := by rw [byteLength_append, ha]
    have ih := ih his (fun j hj => by rw [hpre]; exact hi j hj)
      (fun j hj => by rw [List.append_assoc]; exact hb j (List.mem_cons_of_mem _ hj) :
        ∀ j ∈ is, isBoundary j.offset ((pre ++ a) ++ b) = true)
    rw [hpre] at ih
    rw [stretchRuns, hoff, takeBytes_append, dropBytes_append, ← laidRun_patch]
    exact .patch a [] b ha rfl ih

/-- **Every draft**: the source from a place on is laid out with the edits from there on. -/
theorem laid_editsFrom (hsource : source = pre ++ cs)
    (hsorted : is.Pairwise fun a b => a.offset ≤ b.offset)
    (hb : ∀ i ∈ is, isBoundary i.offset source = true)
    (hps : ∀ p ∈ ps, p.range.OnBoundaries source ∧ p.range.start < p.range.stop)
    (hapart : ps.Pairwise fun p q => p.range.stop ≤ q.range.start)
    (hle : ∀ p ∈ ps, byteLength pre ≤ p.range.start) :
    Laid (byteLength pre) cs (editsFrom (byteLength pre) is ps)
      (patchedRuns (byteLength pre) cs (is.filter (byteLength pre ≤ ·.offset)) ps) := by
  have hfrom : ∀ i ∈ is.filter (byteLength pre ≤ ·.offset), byteLength pre ≤ i.offset :=
    fun i hi => by simpa using (List.mem_filter.1 hi).2
  induction ps generalizing pre cs with
  | nil =>
    refine laid_stretchRuns (hsorted.filter _) hfrom fun i hi => ?_
    rw [← hsource]
    exact hb i (List.mem_filter.1 hi).1
  | cons p ps ih =>
    obtain ⟨hp, hrest⟩ := List.pairwise_cons.1 hapart
    obtain ⟨hpb, hplt⟩ := hps p (List.mem_cons_self ..)
    have hplo := hle p (List.mem_cons_self ..)
    obtain ⟨a, m, b, rfl, hsource', ha, hm, hpre⟩ := hpb.exists_around hsource hplo hplt
    have ih := ih hsource' (fun q hq => hps q (List.mem_cons_of_mem _ hq)) hrest
      (fun q hq => by rw [hpre]; exact hp q hq)
      (fun i hi => by simpa using (List.mem_filter.1 hi).2)
    rw [hpre] at ih
    rw [patchedRuns_cons b ps ha hm, takeWhile_offset_le _ _ hsorted,
      dropWhile_offset_lt hplo hplt hsorted, ← laidRun_of_lt hplt]
    refine (laid_stretchRuns ((hsorted.filter _).filter _)
      (fun i hi => hfrom i (List.mem_filter.1 hi).1) fun i hi => ?_).append_patch ha hm ih
    obtain ⟨hi, hile⟩ := List.mem_filter.1 hi
    have hbi := hb i (List.mem_filter.1 hi).1
    rw [hsource, ← List.append_assoc] at hbi
    exact isBoundary_left hbi (by rw [byteLength_append, ha]; simpa using hile)

/-- **Patches alone**: the source from a place on is laid out with them. -/
theorem laid_patchedRuns (hsource : source = pre ++ cs)
    (hps : ∀ p ∈ ps, p.range.OnBoundaries source ∧ p.range.start < p.range.stop)
    (hapart : ps.Pairwise fun p q => p.range.stop ≤ q.range.start)
    (hle : ∀ p ∈ ps, byteLength pre ≤ p.range.start) :
    Laid (byteLength pre) cs ps (patchedRuns (byteLength pre) cs [] ps) := by
  have h := laid_editsFrom hsource .nil (fun i hi => (nomatch hi)) hps hapart hle
  have hnone : ∀ i ∈ ([] : List Insertion), i.offset < byteLength pre := fun i hi => (nomatch hi)
  rwa [editsFrom_of_lt hnone (fun p hp => (hps p hp).2) hapart hle] at h

/-- **Patches and an insertion** that none of them takes the place of. -/
theorem laid_patchedRuns_insertion {i : Insertion} (hsource : source = pre ++ cs)
    (hi : isBoundary i.offset source = true) (hile : byteLength pre ≤ i.offset)
    (hps : ∀ p ∈ ps, p.range.OnBoundaries source ∧ p.range.start < p.range.stop)
    (hapart : ps.Pairwise fun p q => p.range.stop ≤ q.range.start)
    (hle : ∀ p ∈ ps, byteLength pre ≤ p.range.start)
    (hout : ∀ p ∈ ps, i.offset ≤ p.range.start ∨ p.range.stop ≤ i.offset) :
    ∃ before after, ps = before ++ after ∧
      Laid (byteLength pre) cs (before ++ insertionPatch i.offset i.text :: after)
        (patchedRuns (byteLength pre) cs [i] ps) := by
  have hboundary : ∀ j ∈ [i], isBoundary j.offset source = true := fun j hj => by
    rwa [List.mem_singleton.1 hj]
  have h := laid_editsFrom hsource (List.pairwise_singleton _ i) hboundary hps hapart hle
  have hfrom : [i].filter (byteLength pre ≤ ·.offset) = [i] :=
    List.filter_cons_of_pos (decide_eq_true hile)
  obtain ⟨before, after, hsplit, hedits⟩ :=
    exists_editsFrom_singleton hile (fun p hp => (hps p hp).2) hapart hout
  rw [hedits, hfrom] at h
  exact ⟨before, after, hsplit, h⟩

/-! ## What stands in front of a place -/

/-- Patches one behind the other, none of which a place is inside, are divided by it. -/
theorem exists_division_of_patches {n : Nat} (hlt : ∀ p ∈ ps, p.range.start < p.range.stop)
    (hapart : ps.Pairwise fun p q => p.range.stop ≤ q.range.start)
    (hout : ∀ p ∈ ps, p.range.stop ≤ n ∨ n ≤ p.range.start) :
    ∃ front behind, ps = front ++ behind ∧ (∀ p ∈ front, p.range.stop ≤ n) ∧
      ∀ p ∈ behind, n ≤ p.range.start := by
  induction ps with
  | nil => exact ⟨[], [], rfl, fun _ hp => (nomatch hp), fun _ hp => (nomatch hp)⟩
  | cons p ps ih =>
    obtain ⟨hp, hrest⟩ := List.pairwise_cons.1 hapart
    have hplt := hlt p List.mem_cons_self
    rcases hout p List.mem_cons_self with hfront | hbehind
    · obtain ⟨front, behind, rfl, hstop, hstart⟩ := ih
        (fun q hq => hlt q (List.mem_cons_of_mem _ hq)) hrest
        fun q hq => hout q (List.mem_cons_of_mem _ hq)
      exact ⟨p :: front, behind, rfl, List.forall_mem_cons.2 ⟨hfront, hstop⟩, hstart⟩
    · refine ⟨[], p :: ps, rfl, fun _ hq => (nomatch hq), List.forall_mem_cons.2 ⟨hbehind, ?_⟩⟩
      intro q hq
      have := hp q hq
      omega

/-- Where the edits are divided at a place, those behind it are the edits from there on. -/
theorem editsFrom_eq_of_append {n : Nat} {front behind qs ts : List Patch}
    (hsorted : is.Pairwise fun a b => a.offset ≤ b.offset)
    (hfront : ∀ p ∈ front, p.range.start ≤ p.range.stop ∧ p.range.stop ≤ n)
    (hbehind : ∀ p ∈ behind, n ≤ p.range.start)
    (hfrom : ∀ e ∈ editsFrom n is behind, n ≤ e.range.start)
    (hedits : editsFrom 0 is (front ++ behind) = qs ++ ts)
    (hqs : ∀ q ∈ qs, q.range.start < n ∧ q.range.stop ≤ n) (hts : ∀ q ∈ ts, n < q.range.stop) :
    editsFrom n is behind = ts := by
  obtain ⟨es, hes, hstop⟩ := exists_editsFrom hsorted (Nat.zero_le n) hfront hbehind
  have hlater : ∀ e ∈ editsFrom n is behind, n < e.range.stop := by
    intro e he
    have hmem : e ∈ qs ++ ts := by
      rw [← hedits, hes]
      exact List.mem_append_right _ he
    refine hts e ((List.mem_append.1 hmem).resolve_left fun hq => ?_)
    exact Nat.not_lt.2 (hfrom e he) (hqs e hq).1
  have hselect : ∀ us vs : List Patch, (∀ e ∈ us, e.range.stop ≤ n) →
      (∀ e ∈ vs, n < e.range.stop) → (us ++ vs).filter (n < ·.range.stop) = vs := by
    intro us vs hus hvs
    rw [List.filter_append, List.filter_eq_self.2 fun e he => decide_eq_true (hvs e he),
      List.filter_eq_nil_iff.2 fun e he h => Nat.not_lt.2 (hus e he) (of_decide_eq_true h)]
    rfl
  rw [← hselect es _ hstop hlater, ← hes, hedits, hselect qs ts (fun q hq => (hqs q hq).2) hts]

/-- **What the source in front of a place becomes** is what shows at the offsets up to it. -/
theorem flatMap_shownAt_front {a b x y : List Char} {qs ts : List Patch}
    (hsource : source = a ++ b) (hsorted : is.Pairwise fun a b => a.offset ≤ b.offset)
    (hb : ∀ i ∈ is, isBoundary i.offset source = true)
    (hps : ∀ p ∈ ps, p.range.OnBoundaries source ∧ p.range.start < p.range.stop)
    (hapart : ps.Pairwise fun p q => p.range.stop ≤ q.range.start)
    (hedits : editsFrom 0 is ps = qs ++ ts) (hx : Spliced 0 a qs x)
    (hy : Spliced (byteLength a) b ts y) (hqs : ∀ q ∈ qs, q.range.start < byteLength a)
    (hts : ∀ q ∈ ts, byteLength a < q.range.stop) :
    (List.range' 0 (byteLength a)).flatMap (shownAt source is ps) = x := by
  have hqs : ∀ q ∈ qs, q.range.start < byteLength a ∧ q.range.stop ≤ byteLength a := fun q hq => by
    have := hqs q hq
    have := hx.bounds hq
    omega
  obtain ⟨front, behind, rfl, hfront, hbehind⟩ := exists_division_of_patches
    (fun p hp => (hps p hp).2) hapart fun p hp => by
      have hp : p ∈ editsFrom 0 is ps := mem_editsFrom_of_mem hp
      rw [hedits] at hp
      rcases List.mem_append.1 hp with hp | hp
      · exact .inl (hqs p hp).2
      · exact .inr (hy.bounds hp).1
  have hfrontps := fun p hp => hps p (List.mem_append_left behind hp)
  have hbackps := fun p hp => hps p (List.mem_append_right front hp)
  obtain ⟨-, hback, -⟩ := List.pairwise_append.1 hapart
  -- what shows from the place on
  have hlaid := laid_editsFrom hsource hsorted hb hbackps hback hbehind
  have hshown := text_patchedRuns hsource hsorted hb hbackps hback hbehind
  rw [editsFrom_eq_of_append hsorted
    (fun p hp => ⟨Nat.le_of_lt (hfrontps p hp).2, hfront p hp⟩) hbehind
    (fun e he => (hlaid.spliced.bounds he).1) hedits hqs hts] at hlaid
  rw [hlaid.spliced.unique hy] at hshown
  have hlater : (List.range' (byteLength a) (byteLength b + 1)).flatMap
      (shownAt source is (front ++ behind)) = y := by
    rw [hshown]
    refine List.flatMap_congr fun n hn => shownAt_append_of_le behind fun p hp => ?_
    exact ⟨(hfrontps p hp).2, Nat.le_trans (hfront p hp) (List.mem_range'_1.1 hn).1⟩
  -- all that shows, in front of the place and from there on
  have hwhole : source = [] ++ source := rfl
  have hzero : ∀ p ∈ front ++ behind, byteLength [] ≤ p.range.start := fun _ _ => Nat.zero_le _
  have hspliced := (laid_editsFrom hwhole hsorted hb hps hapart hzero).spliced
  have hall := text_patchedRuns hwhole hsorted hb hps hapart hzero
  have hlength : byteLength source + 1 = byteLength a + (byteLength b + 1) := by
    rw [hsource, byteLength_append, Nat.add_assoc]
  have hxy : Spliced 0 source (qs ++ ts) (x ++ y) := by
    rw [hsource]
    exact hx.append (by rwa [Nat.zero_add])
  rw [byteLength_nil, hedits] at hspliced
  rw [byteLength_nil, hspliced.unique hxy, hlength, ← List.range'_append_1, List.flatMap_append,
    Nat.zero_add, hlater] at hall
  exact (List.append_cancel_right hall).symm

end

end Islands
