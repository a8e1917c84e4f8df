import Islands.Proofs.Draft.Layout
import Islands.Proofs.SourceMap.Tracing

/-!
# The runs of a laid out text and their mappings

The runs of a laid out text are its lines, as far as they are kept, and the texts of the edits. They
come from ever later places of the source (`Laid.origins`), which are its start, places behind line
feeds and the ends of edits (`Laid.exists_origin`), and none of them begins inside a line end
(`Laid.keepsLineEnds`), so each has its own mapping. A copied character is in the run of a line,
with no line feed in front of it there (`Laid.exists_run`). So its position in the output leads back
to its position in the source, if each carriage return of the source is part of a line end with two
characters (`Laid.traced`).
-/

namespace Islands

/-! ## Lines -/

/-- The lines of a text: each but the last one has a line feed, at its end. -/
inductive Lines : List Char → List (List Char) → Prop
  | nil : Lines [] []
  | last {u : List Char} (hne : u ≠ []) (hu : '\n' ∉ u) : Lines u [u]
  | line {u rest : List Char} {ls : List (List Char)} (hu : '\n' ∉ u) (h : Lines rest ls) :
    Lines (u ++ '\n' :: rest) ((u ++ ['\n']) :: ls)

theorem lines_linesOf (cs : List Char) : Lines cs (linesOf cs) := by
  induction cs with
  | nil => exact .nil
  | cons c cs ih =>
    rw [linesOf]
    by_cases hc : c = '\n'
    · subst hc
      rw [if_pos rfl]
      exact .line (u := []) List.not_mem_nil ih
    · rw [if_neg hc]
      have hcons : ∀ {u : List Char}, '\n' ∉ u → '\n' ∉ c :: u := fun hu =>
        List.not_mem_cons_of_ne_of_not_mem (Ne.symm hc) hu
      generalize linesOf cs = ls at ih
      cases ih with
      | nil => exact .last (List.cons_ne_nil c []) (hcons List.not_mem_nil)
      | last _ hu => exact .last (List.cons_ne_nil c cs) (hcons hu)
      | line hu h => exact .line (u := c :: _) (hcons hu) h

/-- A character of a text is in one of its lines, and no line feed is in front of it there. -/
theorem Lines.exists_line {cs a b : List Char} {c : Char} {ls : List (List Char)} (h : Lines cs ls)
    (hcs : cs = a ++ c :: b) :
    ∃ before u v behind, ls = before ++ (u ++ c :: v) :: behind ∧ a = before.flatten ++ u ∧
      '\n' ∉ u := by
  induction h generalizing a with
  | nil => exact absurd hcs (by simp)
  | last _ hu =>
    subst hcs
    exact ⟨[], a, b, [], rfl, rfl, fun hmem => hu (List.mem_append_left _ hmem)⟩
  | @line u rest ls hu h ih =>
    rcases List.append_eq_append_iff.1 hcs with ⟨m, rfl, hrest⟩ | ⟨m, rfl, hrest⟩
    · cases m with
      | nil =>
        obtain ⟨rfl, rfl⟩ := List.cons.inj hrest
        exact ⟨[], u, [], ls, rfl, by simp, hu⟩
      | cons d m =>
        rw [List.cons_append] at hrest
        obtain ⟨rfl, htail⟩ := List.cons.inj hrest
        obtain ⟨before, u', v, behind, rfl, rfl, hu'⟩ := ih htail
        exact ⟨(u ++ ['\n']) :: before, u', v, behind, rfl, by simp, hu'⟩
    · cases m with
      | nil =>
        obtain ⟨rfl, rfl⟩ := List.cons.inj hrest
        exact ⟨[], a, [], ls, by simp, rfl, fun hmem => hu (List.mem_append_left _ hmem)⟩
      | cons d m =>
        rw [List.cons_append] at hrest
        obtain ⟨rfl, -⟩ := List.cons.inj hrest
        exact ⟨[], a, m ++ ['\n'], ls, by simp, rfl, fun hmem => hu (List.mem_append_left _ hmem)⟩

theorem Lines.ne_nil {cs : List Char} {ls : List (List Char)} (h : Lines cs ls) {l : List Char}
    (hl : l ∈ ls) : l ≠ [] := by
  induction h with
  | nil => cases hl
  | last hne _ =>
    obtain rfl := List.mem_singleton.1 hl
    exact hne
  | line _ _ ih =>
    rcases List.mem_cons.1 hl with rfl | hl
    · simp
    · exact ih hl

/-! ## Kept lines -/

theorem keptRuns_append (start : Nat) (ls ks : List (List Char)) :
    keptRuns start (ls ++ ks) =
      keptRuns start ls ++ keptRuns (start + byteLength ls.flatten) ks := by
  induction ls generalizing start with
  | nil => rfl
  | cons l ls ih =>
    rw [List.cons_append, keptRuns, keptRuns, ih, List.flatten_cons, byteLength_append,
      Nat.add_assoc, List.cons_append]

/-- Runs come from ever later places, all of them between two offsets. -/
def OriginsWithin (lo hi : Nat) (rs : List Run) : Prop :=
  (rs.filterMap Run.origin).Pairwise (· < ·) ∧
    ∀ offset ∈ rs.filterMap Run.origin, lo ≤ offset ∧ offset < hi

theorem OriginsWithin.append {lo mid hi : Nat} {rs ts : List Run} (hrs : OriginsWithin lo mid rs)
    (hts : OriginsWithin mid hi ts) (hle : lo ≤ mid) (hle' : mid ≤ hi) :
    OriginsWithin lo hi (rs ++ ts) := by
  unfold OriginsWithin
  rw [List.filterMap_append]
  refine ⟨List.pairwise_append.2 ⟨hrs.1, hts.1, fun m hm n hn => ?_⟩, fun n hn => ?_⟩
  · have := hrs.2 m hm
    have := hts.2 n hn
    omega
  · rcases List.mem_append.1 hn with hn | hn
    · have := hrs.2 n hn
      omega
    · have := hts.2 n hn
      omega

theorem originsWithin_keptRuns (start : Nat) {ls : List (List Char)} (h : ∀ l ∈ ls, l ≠ []) :
    OriginsWithin start (start + byteLength ls.flatten) (keptRuns start ls) := by
  induction ls generalizing start with
  | nil => exact ⟨.nil, fun _ hn => (nomatch hn)⟩
  | cons l ls ih =>
    have hl := byteLength_pos (h l List.mem_cons_self)
    have hfirst : OriginsWithin start (start + byteLength l) [⟨some start, l⟩] := by
      refine ⟨List.pairwise_singleton _ _, fun n hn => ?_⟩
      obtain rfl := List.mem_singleton.1 hn
      omega
    have hrest := ih (start + byteLength l) fun k hk => h k (List.mem_cons_of_mem _ hk)
    rw [List.flatten_cons, byteLength_append, ← Nat.add_assoc]
    exact hfirst.append hrest (Nat.le_add_right _ _) (Nat.le_add_right _ _)

/-! ## Origins -/

/-- **Runs come from ever later places** of the text that is laid out. -/
theorem Laid.origins {start : Nat} {cs : List Char} {ps : List Patch} {rs : List Run}
    (h : Laid start cs ps rs) : OriginsWithin start (start + byteLength cs) rs := by
  have hkept : ∀ start cs,
      OriginsWithin start (start + byteLength cs) (keptRuns start (linesOf cs)) := by
    intro start cs
    have h := originsWithin_keptRuns start fun l hl => (lines_linesOf cs).ne_nil hl
    rwa [flatten_linesOf] at h
  induction h with
  | rest start cs => exact hkept start cs
  | @patch start p ps rs before covered after hstart hstop _ ih =>
    have hp : OriginsWithin p.range.start p.range.stop [p.laidRun] := by
      by_cases heq : p.range.start = p.range.stop
      · rw [Patch.laidRun, if_pos heq]
        exact ⟨.nil, List.forall_mem_nil _⟩
      · rw [Patch.laidRun, if_neg heq]
        refine ⟨List.pairwise_singleton _ _, fun n hn => ?_⟩
        obtain rfl := List.mem_singleton.1 hn
        omega
    have hend : start + byteLength (before ++ (covered ++ after)) =
        p.range.stop + byteLength after := by
      rw [byteLength_append, byteLength_append]
      omega
    rw [hend]
    have hrest := hp.append ih (by omega) (Nat.le_add_right _ _)
    have hall := hkept start before
    rw [hstart] at hall
    exact hall.append hrest (by omega) (by omega)

/-- The run of a kept line comes from the start of the text or from behind a line feed. -/
theorem Lines.exists_origin {cs : List Char} {ls : List (List Char)} (h : Lines cs ls)
    {start n : Nat} (hn : n ∈ (keptRuns start ls).filterMap Run.origin) :
    ∃ a b, cs = a ++ b ∧ start + byteLength a = n ∧ (a = [] ∨ a.getLast? = some '\n') := by
  induction h generalizing start with
  | nil => cases hn
  | last _ _ =>
    obtain rfl := List.mem_singleton.1 hn
    exact ⟨[], _, rfl, rfl, .inl rfl⟩
  | @line u rest ls _ _ ih =>
    rcases List.mem_cons.1 hn with rfl | hn
    · exact ⟨[], _, rfl, rfl, .inl rfl⟩
    · obtain ⟨a, b, rfl, hplace, ha⟩ := ih hn
      refine ⟨(u ++ ['\n']) ++ a, b, by simp, ?_, .inr ?_⟩
      · rw [byteLength_append]
        omega
      · rcases ha with rfl | ha
        · rw [List.append_nil, List.getLast?_concat]
        · rw [List.getLast?_append, ha]
          rfl

/-- **Where runs come from**: the start of the text that is laid out, a place behind a line feed, or
an end of an edit. -/
theorem Laid.exists_origin {start n : Nat} {cs : List Char} {ps : List Patch} {rs : List Run}
    (h : Laid start cs ps rs) (hn : n ∈ rs.filterMap Run.origin) :
    ∃ a b, cs = a ++ b ∧ start + byteLength a = n ∧
      (a = [] ∨ a.getLast? = some '\n' ∨ ∃ p ∈ ps, n = p.range.start ∨ n = p.range.stop) := by
  induction h with
  | rest start cs =>
    obtain ⟨a, b, hab, hplace, ha⟩ := (lines_linesOf cs).exists_origin hn
    exact ⟨a, b, hab, hplace, ha.imp_right .inl⟩
  | @patch start p ps rs before covered after hstart hstop _ ih =>
    rw [List.filterMap_append, List.mem_append] at hn
    rcases hn with hn | hn
    · obtain ⟨a, b, rfl, hplace, ha⟩ := (lines_linesOf before).exists_origin hn
      exact ⟨a, b ++ (covered ++ after), by simp, hplace, ha.imp_right .inl⟩
    · have hlater : n = p.range.start ∨ n ∈ rs.filterMap Run.origin := by
        by_cases heq : p.range.start = p.range.stop
        · rw [Patch.laidRun, if_pos heq] at hn
          exact .inr hn
        · rw [Patch.laidRun, if_neg heq] at hn
          exact List.mem_cons.1 hn
      rcases hlater with rfl | hn
      · exact ⟨before, covered ++ after, rfl, hstart,
          .inr (.inr ⟨p, List.mem_cons_self, .inl rfl⟩)⟩
      · obtain ⟨a, b, rfl, hplace, ha⟩ := ih hn
        refine ⟨before ++ (covered ++ a), b, by simp, ?_, .inr ?_⟩
        · rw [byteLength_append, byteLength_append]
          omega
        · rcases ha with rfl | ha | ⟨q, hq, hends⟩
          · exact .inr ⟨p, List.mem_cons_self, .inr hplace.symm⟩
          · rw [← List.append_assoc, List.getLast?_append, ha]
            exact .inl rfl
          · exact .inr ⟨q, List.mem_cons_of_mem _ hq, hends⟩

/-! ## Line ends -/

/-- A patch whose text makes no line end together with what stands around it; an insertion may begin
with a line feed. -/
structure Patch.Separates (p : Patch) : Prop where
  ne_nil : p.text.toList ≠ []
  last : p.text.toList.getLast? ≠ some '\r'
  first : p.range.start < p.range.stop → p.text.toList.head? ≠ some '\n'

theorem Lines.keepsLineEnds {cs : List Char} {ls : List (List Char)} (h : Lines cs ls) (start : Nat)
    {x : List Char} {ts : List Run} (hx : x.getLast? ≠ some '\r')
    (hts : KeepsLineEnds (x ++ cs) ts) : KeepsLineEnds x (keptRuns start ls ++ ts) := by
  induction h generalizing start x with
  | nil => rwa [List.append_nil] at hts
  | last _ _ => exact ⟨fun _ hlast => absurd hlast hx, hts⟩
  | @line u rest ls _ _ ih =>
    refine ⟨fun _ hlast => absurd hlast hx, ih (start + byteLength (u ++ ['\n'])) ?_ ?_⟩
    · show (x ++ (u ++ ['\n'])).getLast? ≠ some '\r'
      rw [← List.append_assoc, List.getLast?_concat]
      decide
    · show KeepsLineEnds (x ++ (u ++ ['\n']) ++ rest) ts
      simpa using hts

/-- **No run begins inside a line end**, if no edit makes one with what stands around it. -/
theorem Laid.keepsLineEnds {start : Nat} {cs x : List Char} {ps : List Patch} {rs : List Run}
    (h : Laid start cs ps rs) (hx : x.getLast? ≠ some '\r') (hps : ∀ p ∈ ps, p.Separates) :
    KeepsLineEnds x rs := by
  induction h generalizing x with
  | rest start cs =>
    have h : KeepsLineEnds x (keptRuns start (linesOf cs) ++ []) :=
      (lines_linesOf cs).keepsLineEnds start hx trivial
    rwa [List.append_nil] at h
  | @patch start p ps rs before covered after hstart hstop _ ih =>
    have hp := hps p List.mem_cons_self
    refine (lines_linesOf before).keepsLineEnds start hx ⟨fun hsome _ => ?_, ?_⟩
    · have hlt : p.range.start < p.range.stop := by
        refine Nat.lt_of_le_of_ne (by omega) fun heq => ?_
        rw [Patch.laidRun, if_pos heq] at hsome
        cases hsome
      rw [textOf_cons]
      show (p.text.toList ++ textOf rs).head? ≠ some '\n'
      rw [List.head?_append_of_ne_nil _ hp.ne_nil]
      exact hp.first hlt
    · refine ih ?_ fun q hq => hps q (List.mem_cons_of_mem _ hq)
      show ((x ++ before) ++ p.text.toList).getLast? ≠ some '\r'
      rw [List.getLast?_append_of_ne_nil _ hp.ne_nil]
      exact hp.last

/-! ## Where the runs are -/

/-- A character of a stretch of the source that is kept is in the run of its line. -/
theorem exists_keptRun (start : Nat) (a b : List Char) (c : Char) (rest : List Run) :
    ∃ before front u v behind, keptRuns start (linesOf (a ++ c :: b)) ++ rest =
        before ++ ⟨some (start + byteLength front), u ++ c :: v⟩ :: behind ∧
      a = front ++ u ∧ a = textOf before ++ u ∧ '\n' ∉ u := by
  obtain ⟨before, u, v, behind, hlines, rfl, hu⟩ := (lines_linesOf (a ++ c :: b)).exists_line rfl
  refine ⟨keptRuns start before, before.flatten, u, v,
    keptRuns (start + byteLength before.flatten + byteLength (u ++ c :: v)) behind ++ rest, ?_, rfl,
    by rw [textOf_keptRuns], hu⟩
  rw [hlines, keptRuns_append, List.append_assoc]
  rfl

/-- **A copied character** is in the run of a line that is kept, and no line feed is in front of it
there. -/
theorem Laid.exists_run {start : Nat} {cs a b x y : List Char} {c : Char} {ps qs ts : List Patch}
    {rs : List Run} (h : Laid start cs ps rs) (hcs : cs = a ++ c :: b) (hps : ps = qs ++ ts)
    (hx : Spliced start a qs x) (hy : Spliced (start + byteLength a + c.utf8Size) b ts y) :
    ∃ before front u v behind,
      rs = before ++ ⟨some (start + byteLength front), u ++ c :: v⟩ :: behind ∧
      a = front ++ u ∧ x = textOf before ++ u ∧ '\n' ∉ u := by
  induction h generalizing a qs x with
  | rest start cs =>
    obtain ⟨rfl, rfl⟩ := List.nil_eq_append_iff.1 hps
    obtain rfl := hx.unique (.rest start a)
    obtain ⟨before, front, u, v, behind, hrs, hfront, htext, hu⟩ := exists_keptRun start x b c []
    subst hcs
    rw [List.append_nil] at hrs
    exact ⟨before, front, u, v, behind, hrs, hfront, htext, hu⟩
  | @patch start p ps rs before covered after hstart hstop h ih =>
    cases qs with
    | nil =>
      -- the character is in front of the first edit
      obtain rfl := hx.unique (.rest start a)
      rw [List.nil_append] at hps
      subst hps
      have hle := (hy.bounds List.mem_cons_self).1
      have hsplit : (x ++ [c]) ++ b = before ++ (covered ++ after) := by simp [hcs]
      obtain ⟨m, rfl, -⟩ := exists_between hsplit (by
        rw [byteLength_append, byteLength_cons, byteLength_nil]
        omega)
      rw [List.append_assoc, List.singleton_append]
      exact exists_keptRun start x m c _
    | cons q qs =>
      rw [List.cons_append] at hps
      obtain ⟨rfl, hrest⟩ := List.cons.inj hps
      obtain ⟨before', covered', rest, x', rfl, rfl, hbefore, hcovered, hx'⟩ := hx.exists_of_cons
      rw [List.append_assoc, List.append_assoc] at hcs
      obtain ⟨rfl, hmiddle⟩ := append_inj_of_byteLength hcs (by omega)
      obtain ⟨rfl, hafter⟩ := append_inj_of_byteLength hmiddle (by omega)
      have hplace : start + byteLength (before ++ (covered ++ rest)) =
          p.range.stop + byteLength rest := by
        rw [byteLength_append, byteLength_append]
        omega
      rw [hplace] at hy
      obtain ⟨bs, front, u, v, behind, rfl, rfl, rfl, hu⟩ := ih hafter hrest hx' hy
      refine ⟨keptRuns start (linesOf before) ++ p.laidRun :: bs, before ++ (covered ++ front), u,
        v, behind, ?_, by simp, ?_, hu⟩
      · have hoffset : start + byteLength (before ++ (covered ++ front)) =
            p.range.stop + byteLength front := by
          rw [byteLength_append, byteLength_append]
          omega
        rw [hoffset, List.append_assoc, List.cons_append]
      · rw [textOf_append, textOf_kept, textOf_cons]
        show before ++ (p.text.toList ++ (textOf bs ++ u)) =
          before ++ (p.text.toList ++ textOf bs) ++ u
        simp

/-- **The run of an edit**, between what the text in front of it and behind it has become. -/
theorem Laid.exists_laidRun {start : Nat} {cs : List Char} {p : Patch} {qs ts : List Patch}
    {rs : List Run} (h : Laid start cs (qs ++ p :: ts) rs) :
    ∃ before behind a m b, rs = before ++ p.laidRun :: behind ∧ cs = a ++ (m ++ b) ∧
      start + byteLength a = p.range.start ∧ p.range.start + byteLength m = p.range.stop ∧
      Spliced start a qs (textOf before) ∧ Spliced p.range.stop b ts (textOf behind) := by
  induction qs generalizing start cs rs with
  | nil =>
    cases h with
    | patch a m b hstart hstop h =>
      exact ⟨keptRuns start (linesOf a), _, a, m, b, rfl, rfl, hstart, hstop,
        by rw [textOf_kept]; exact .rest start a, h.spliced⟩
  | cons q qs ih =>
    cases h with
    | patch before covered after hstart hstop h =>
      obtain ⟨bs, behind, a, m, b, rfl, rfl, ha, hm, hqs, hts⟩ := ih h
      refine ⟨keptRuns start (linesOf before) ++ q.laidRun :: bs, behind,
        before ++ (covered ++ a), m, b, by simp, by simp, ?_, hm, ?_, hts⟩
      · rw [byteLength_append, byteLength_append]
        omega
      · rw [textOf_append, textOf_kept, textOf_cons]
        exact .patch before covered a hstart hstop hqs

/-! ## Tracing -/

/-- A line feed follows each carriage return of a text. -/
def FeedsFollowReturns : List Char → Prop
  | [] => True
  | c :: cs => (c = '\r' → cs.head? = some '\n') ∧ FeedsFollowReturns cs

instance decidableFeedsFollowReturns : ∀ cs, Decidable (FeedsFollowReturns cs)
  | [] => inferInstanceAs (Decidable True)
  | c :: cs =>
    have := decidableFeedsFollowReturns cs
    inferInstanceAs (Decidable ((c = '\r' → cs.head? = some '\n') ∧ _))

theorem FeedsFollowReturns.head? {a b : List Char} (h : FeedsFollowReturns (a ++ '\r' :: b)) :
    b.head? = some '\n' := by
  induction a with
  | nil => exact h.1 rfl
  | cons c a ih => exact ih h.2

/-- In a text that a line feed follows each carriage return of, a part without line feeds is on one
line. -/
theorem FeedsFollowReturns.onOneLine {a u b : List Char} {c : Char}
    (h : FeedsFollowReturns (a ++ (u ++ c :: b))) (hu : '\n' ∉ u) : OnOneLine u c := by
  refine onOneLine_of_not_mem hu fun w z hsplit => ?_
  have htext : a ++ (u ++ c :: b) = (a ++ w) ++ '\r' :: (z ++ c :: b) := by
    rw [hsplit]
    simp
  rw [htext] at h
  have hhead := h.head?
  cases z with
  | nil => exact hhead
  | cons d z => exact hhead

/-- **A map leads back** from an output to its source: the output is the text `front` and behind it
`out`, the source spliced with some edits. Every character that is copied leads back to its own
position, and every patch has a mapping from the start of its text to the start of what it takes the
place of. -/
structure Traced (m : SourceMap) (front source out : List Char) (ps edits : List Patch) : Prop where
  copied : ∀ {a b x y : List Char} {c : Char}, source = a ++ c :: b → Copied edits a [c] b x y →
    out = x ++ c :: y ∧ m.trace? (positionIn (front ++ x) (c :: y)) = some (positionIn a (c :: b))
  replaced : ∀ {qs ts : List Patch} {p : Patch}, edits = qs ++ p :: ts → p ∈ ps →
    ∃ a b x y, source = a ++ b ∧ byteLength a = p.range.start ∧ Spliced 0 a qs x ∧
      out = x ++ (p.text.toList ++ y) ∧
      ⟨positionIn (front ++ x) (p.text.toList ++ y), positionIn a b⟩ ∈ m.mappings

/-- **The map of the runs of a laid out text** leads back. -/
theorem Laid.traced {m : SourceMap} {source : List Char} {front rs : List Run}
    {ps edits : List Patch} (h : Laid 0 source edits rs)
    (hm : m.mappings = runMappings source [] (front ++ rs)) (hfeeds : FeedsFollowReturns source)
    (hps : ∀ p ∈ ps, p.range.start < p.range.stop) :
    Traced m (textOf front) source (textOf rs) ps edits := by
  constructor
  · intro a b x y c hsource hcopied
    have hspliced := h.spliced
    rw [hsource] at hspliced
    have hout : textOf rs = x ++ c :: y := hcopied.eq hspliced
    refine ⟨hout, ?_⟩
    obtain ⟨qs, ts, hedits, hx, hy⟩ := hcopied
    rw [byteLength_cons, byteLength_nil, Nat.add_zero, ← Nat.zero_add (byteLength a)] at hy
    obtain ⟨before, start, u, v, behind, rfl, rfl, rfl, hu⟩ := h.exists_run hsource hedits hx hy
    -- what is behind the character in its run and in the other runs
    have hrest : y = v ++ textOf behind := by
      rw [textOf_append, textOf_cons, List.append_assoc, List.append_assoc] at hout
      exact (List.cons.inj (List.append_cancel_left (List.append_cancel_left hout))).2.symm
    have hline : OnOneLine u c := by
      rw [hsource, List.append_assoc] at hfeeds
      exact hfeeds.onOneLine hu
    have hplace : (LineIndex.ofText source).position (0 + byteLength start) =
        positionIn start (u ++ c :: b) := by
      rw [Nat.zero_add, hsource, List.append_assoc, LineIndex.position_ofText]
    rw [← List.append_assoc] at hm
    have htrace := trace?_of_run hm hline
    rw [hplace, Position.through_eq_of_line _ hline, ← Position.through_eq_of_line _ hline b,
      ← positionIn_append, textOf_append, List.append_assoc, ← hrest] at htrace
    exact htrace
  · intro qs ts p hedits hp
    subst hedits
    obtain ⟨before, behind, a, n, b, rfl, hsource, ha, -, hx, -⟩ := h.exists_laidRun
    rw [laidRun_of_lt (hps p hp)] at hm ⊢
    rw [Nat.zero_add] at ha
    refine ⟨a, n ++ b, textOf before, textOf behind, hsource, ha, hx, ?_, ?_⟩
    · rw [textOf_append, textOf_cons]
      rfl
    · rw [← List.append_assoc] at hm
      have hmem := mem_mappings_of_run rfl hm
      rw [textOf_append, textOf_cons, ← ha, hsource, LineIndex.position_ofText] at hmem
      exact hmem

end Islands
