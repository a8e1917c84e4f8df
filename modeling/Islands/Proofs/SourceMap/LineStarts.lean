import Mathlib.Data.List.Nodup
import Islands.Proofs.SourceMap.LaidRuns

/-!
# The mappings of line starts

A line of the source that is copied has a mapping of its own if a line feed is in front of it: the
copier divides what it copies at line feeds alone. The table of lines divides at carriage returns
too, so a line behind a carriage return alone has no mapping (`Draft.mappings_of_lineStart`).

* `Draft.Keeps`: a range of the source that no edit touches.
* `renderedBefore`: what the edited text begins with, up to an offset of the source.
* `Draft.Records.exists_run`: the run that a kept character is in.
* `Draft.Records.mem_mappings_iff`: the mappings of a draft, one for each report.
* `Draft.Records.exists_report_iff`: which kept places have a report.
-/

namespace Islands

/-! ## Kept ranges -/

/-- A range of the source that no edit touches: nothing is put in between its ends, and no patch has
a byte in common with it. -/
structure Draft.Keeps (d : Draft) (s : Span) : Prop where
  insertions : ∀ i ∈ d.insertions, s.hasInside i.offset = false
  patches : ∀ p ∈ d.patches, p.range.isDisjoint s = true

/-- What a source is rendered to up to an offset: the texts in front, and then what is rendered at
each offset before it. -/
def renderedBefore (source : List Char) (es : List Edit) (n : Nat) : List Char :=
  (frontsOf es).reverse.flatMap String.toList ++
    (List.range n).flatMap (renderedAt source (insertionsOf es) (survivors (patchesOf es)))

namespace Draft

variable {d : Draft} {source a b : List Char} {c e : Char} {es : List Edit}

/-- The edits of a draft in the order of their places. -/
def edits (d : Draft) : List Patch := editsFrom 0 d.sortedInsertions d.patches

/-- Around a place within a kept range, the edits keep clear of the two characters there. -/
theorem Keeps.clear {s : Span} (h : d.Keeps s) (hd : d.InOrder)
    (hsource : d.source = a ++ e :: c :: b) (hstart : s.start < byteLength (a ++ [e]))
    (hstop : byteLength (a ++ [e]) < s.stop) {p : Patch} (hp : p ∈ d.edits) :
    p.range.stop ≤ byteLength a ∨ byteLength a + byteLength [e, c] ≤ p.range.start := by
  have hplaces : byteLength (a ++ [e] ++ [c]) = byteLength a + byteLength [e, c] := by
    rw [List.append_assoc, byteLength_append]
    rfl
  have hfront : ∀ {n}, isBoundary n d.source = true → n ≤ s.start → n ≤ byteLength a :=
    fun hn hle => by
      rw [hsource] at hn
      have := le_or_le_of_isBoundary hn
      omega
  have hbehind : ∀ {n}, isBoundary n d.source = true → s.stop ≤ n →
      byteLength a + byteLength [e, c] ≤ n := fun hn hle => by
    rw [hsource, ← List.singleton_append, ← List.append_assoc] at hn
    have := le_or_le_of_isBoundary hn
    omega
  rcases mem_editsFrom hp with hp | ⟨i, hi, rfl⟩
  · obtain ⟨⟨hpstart, hpstop⟩, -⟩ := hd.patches p hp
    exact (Span.isDisjoint_iff.1 (h.patches p hp)).imp (hfront hpstop) (hbehind hpstart)
  · have hi := mem_sortedInsertions.1 hi
    have hboundary := hd.insertions i hi
    have hout := h.insertions i hi
    rw [Bool.eq_false_iff, Ne, Span.hasInside_iff] at hout
    show i.offset ≤ byteLength a ∨ _ ≤ i.offset
    by_cases hle : i.offset ≤ s.start
    · exact .inl (hfront hboundary hle)
    · exact .inr (hbehind hboundary (by omega))

theorem Records.laid (h : d.Records source es) :
    Laid 0 source d.edits (patchedRuns 0 source d.sortedInsertions d.patches) := by
  have hsource : source = [] ++ source := rfl
  have hlaid := laid_editsFrom hsource d.pairwise_sortedInsertions h.isBoundary_of_mem
    h.onBoundaries_of_mem h.inOrder.apart (fun p _ => Nat.zero_le _)
  rwa [byteLength_nil, d.filter_sortedInsertions_zero] at hlaid

/-- The runs of the texts in front of everything. -/
def leadingRuns (d : Draft) : List Run := d.fronts.reverse.map fun p => ⟨none, p.toList⟩

theorem Records.runs_eq (h : d.Records source es) :
    d.runs = d.leadingRuns ++ patchedRuns 0 source d.sortedInsertions d.patches := by
  rw [runs, h.source]
  rfl

/-- **What is written before a kept character**, of which the one in front is kept too, is what the
edits say at the offsets up to it. -/
theorem Records.exists_copied (h : d.Records source es) (hsource : source = a ++ e :: c :: b)
    (hclear : ∀ p ∈ d.edits,
      p.range.stop ≤ byteLength a ∨ byteLength a + byteLength [e, c] ≤ p.range.start) :
    ∃ qs ts x y, d.edits = qs ++ ts ∧ Spliced 0 (a ++ [e]) qs (x ++ [e]) ∧
      Spliced (byteLength (a ++ [e]) + c.utf8Size) b ts y ∧
      renderedBefore source es (byteLength (a ++ [e])) = textOf d.leadingRuns ++ (x ++ [e]) := by
  have hspliced := h.laid.spliced
  rw [hsource] at hspliced
  obtain ⟨x, y, qs, ts, hedits, hx, hy⟩ :=
    Islands.exists_copied (m := [e, c]) hspliced (List.cons_ne_nil _ _) hclear
  have hplace : byteLength (a ++ [e]) = byteLength a + e.utf8Size := by
    rw [byteLength_append, byteLength_cons, byteLength_nil, Nat.add_zero]
  have hpair : byteLength a + byteLength [e, c] = byteLength (a ++ [e]) + c.utf8Size := by
    rw [hplace, byteLength_cons, byteLength_cons, byteLength_nil, Nat.add_zero, Nat.add_assoc]
  have he := Char.utf8Size_pos e
  have hc := Char.utf8Size_pos c
  rw [hpair] at hy
  have hfront : Spliced 0 (a ++ [e]) qs (x ++ [e]) := by
    have := hx.append (.rest _ [e])
    rwa [List.append_nil] at this
  have hqs : ∀ q ∈ qs, q.range.start < byteLength (a ++ [e]) := fun q hq => by
    have := hx.bounds hq
    omega
  have hts : ∀ q ∈ ts, byteLength (a ++ [e]) < q.range.stop := fun q hq => by
    have := hy.bounds hq
    omega
  have hshown := flatMap_shownAt_front (hsource.trans (by simp)) d.pairwise_sortedInsertions
    h.isBoundary_of_mem h.onBoundaries_of_mem h.inOrder.apart hedits hfront (hy.prepend [c]) hqs hts
  refine ⟨qs, ts, x, y, hedits, hfront, hy, ?_⟩
  rw [renderedBefore, List.range_eq_range', ← hshown, leadingRuns, h.textOf_fronts]
  exact congrArg _ (List.flatMap_congr fun n _ => (h.shownAt_eq n).symm)

/-- **The run of a kept character**: no line feed is in front of it there. -/
theorem Records.exists_run (h : d.Records source es) (hsource : source = a ++ e :: c :: b)
    (hclear : ∀ p ∈ d.edits,
      p.range.stop ≤ byteLength a ∨ byteLength a + byteLength [e, c] ≤ p.range.start) :
    ∃ before front u v behind x,
      d.runs = before ++ ⟨some (byteLength front), u ++ c :: v⟩ :: behind ∧
      a ++ [e] = front ++ u ∧ '\n' ∉ u ∧
      renderedBefore source es (byteLength (a ++ [e])) = textOf before ++ u ∧
      textOf before ++ u = x ++ [e] := by
  obtain ⟨qs, ts, x, y, hedits, hx, hy, hbefore⟩ := h.exists_copied hsource hclear
  rw [← Nat.zero_add (byteLength (a ++ [e]))] at hy
  obtain ⟨before, front, u, v, behind, hrs, hfront, hxu, hu⟩ :=
    h.laid.exists_run (hsource.trans (by simp)) hedits hx hy
  rw [Nat.zero_add] at hrs
  refine ⟨d.leadingRuns ++ before, front, u, v, behind, textOf d.leadingRuns ++ x, ?_, hfront, hu,
    ?_, ?_⟩
  · rw [h.runs_eq, hrs, List.append_assoc]
  · rw [hbefore, hxu, textOf_append, List.append_assoc]
  · rw [textOf_append, List.append_assoc, ← hxu, List.append_assoc]

end Draft

/-! ## The mappings of ascending reports -/

/-- The reports up to one of them, where they are of ever later offsets. -/
theorem filter_offset_le {before behind : List OutputReport} {r : OutputReport}
    (horder : (before ++ r :: behind).Pairwise (·.offset < ·.offset)) :
    (before ++ r :: behind).filter (·.offset ≤ r.offset) = before ++ [r] := by
  obtain ⟨-, hbehind, hbefore⟩ := List.pairwise_append.1 horder
  obtain ⟨hbehind, -⟩ := List.pairwise_cons.1 hbehind
  rw [List.filter_append, List.filter_eq_self.2 fun s hs => ?_, List.filter_cons_of_pos (by simp),
    List.filter_eq_nil_iff.2 fun s hs => ?_]
  · have := hbehind s hs
    rw [decide_eq_true_eq]
    omega
  · have := hbefore s hs r List.mem_cons_self
    rw [decide_eq_true_eq]
    omega

theorem mem_reportMappings_iff_of_ascending {source : List Char} {rs : List OutputReport}
    {t : Mapping} (horder : rs.Pairwise (·.offset < ·.offset)) :
    t ∈ reportMappings source [] 0 rs ↔ ∃ r ∈ rs, t = r.mapping source
      (dividedEnds [] ((rs.filter (·.offset ≤ r.offset)).map OutputReport.output)) := by
  rw [mem_reportMappings_iff]
  constructor
  · rintro ⟨before, r, behind, rfl, rfl⟩
    rw [Nat.zero_add, ← filter_offset_le horder]
    exact ⟨r, List.mem_append_right _ List.mem_cons_self, rfl⟩
  · rintro ⟨r, hr, rfl⟩
    obtain ⟨before, behind, rfl⟩ := List.append_of_mem hr
    rw [filter_offset_le horder]
    exact ⟨before, r, behind, rfl, by rw [Nat.zero_add]⟩

namespace Draft

variable {d : Draft} {source a b : List Char} {c e : Char} {es : List Edit}

theorem Records.filterMap_origin (h : d.Records source es) : d.runs.filterMap Run.origin =
    (patchedRuns 0 source d.sortedInsertions d.patches).filterMap Run.origin := by
  have hleading : d.leadingRuns.filterMap Run.origin = [] := by
    refine List.filterMap_eq_nil_iff.2 fun r hr => ?_
    obtain ⟨text, -, rfl⟩ := List.mem_map.1 hr
    rfl
  rw [h.runs_eq, List.filterMap_append, hleading, List.nil_append]

theorem Records.ascending (h : d.Records source es) :
    d.reports.Pairwise (·.offset < ·.offset) := by
  have horigins := h.laid.origins.1
  rw [← h.filterMap_origin, ← map_offset_reportsOf [], List.pairwise_map] at horigins
  exact horigins

/-- Every report is of the start of the source, of a place behind a line feed, or of an end of an
edit. -/
theorem Records.exists_place (h : d.Records source es) {r : OutputReport} (hr : r ∈ d.reports) :
    ∃ a b, source = a ++ b ∧ byteLength a = r.offset ∧ (a = [] ∨ a.getLast? = some '\n' ∨
      ∃ p ∈ d.edits, r.offset = p.range.start ∨ r.offset = p.range.stop) := by
  have hoffset : r.offset ∈ (patchedRuns 0 source d.sortedInsertions d.patches).filterMap
      Run.origin := by
    rw [← h.filterMap_origin, ← map_offset_reportsOf []]
    exact List.mem_map_of_mem hr
  obtain ⟨a, b, hab, hplace, ha⟩ := h.laid.exists_origin hoffset
  exact ⟨a, b, hab, by rwa [Nat.zero_add] at hplace, ha⟩

/-- **The mappings of a draft**: one for each report. -/
theorem Records.mem_mappings_iff (h : d.Records source es) (path : String) {t : Mapping} :
    t ∈ (d.sourceMap path).mappings ↔ ∃ r ∈ d.reports, t = r.mapping source
      (dividedEnds [] ((d.reports.filter (·.offset ≤ r.offset)).map OutputReport.output)) := by
  obtain ⟨horder, hbound⟩ := h.laid.origins
  rw [← h.filterMap_origin] at horder hbound
  have hmappings := mappings_eq_reportMappings path horder fun n hn => by
    have := (hbound n hn).2
    rw [h.source]
    omega
  rw [hmappings, h.source, mem_reportMappings_iff_of_ascending h.ascending]

/-- A report that leads to the position of a place is of that place. -/
theorem Records.offset_eq_of_position (h : d.Records source es) (hsource : source = a ++ b)
    {r : OutputReport} (hr : r ∈ d.reports)
    (hposition : (LineIndex.ofText source).position (min r.offset (byteLength source)) =
      positionIn a b) : r.offset = byteLength a := by
  obtain ⟨x, y, hxy, hplace, -⟩ := h.exists_place hr
  have hmin : min r.offset (byteLength source) = byteLength x := by
    rw [hxy, byteLength_append]
    omega
  rw [hmin, hxy, LineIndex.position_ofText] at hposition
  rw [← hplace]
  exact byteLength_eq_of_positionIn (hxy.symm.trans hsource) hposition

/-- A kept place with a line feed in front of it has a report: it starts a run. -/
theorem Records.report_mem_of_lineFeed (h : d.Records source es)
    (hsource : source = a ++ '\n' :: c :: b) (hclear : ∀ p ∈ d.edits,
      p.range.stop ≤ byteLength a ∨ byteLength a + byteLength ['\n', c] ≤ p.range.start) :
    ⟨renderedBefore source es (byteLength (a ++ ['\n'])), byteLength (a ++ ['\n'])⟩ ∈
      d.reports := by
  obtain ⟨before, front, u, v, behind, x, hruns, hfront, hu, hbefore, -⟩ :=
    h.exists_run hsource hclear
  -- the run holds no line feed in front of the kept character, so nothing is in front of it
  have hnil : u = [] := by
    rcases List.eq_nil_or_concat u with hnil | ⟨w, z, rfl⟩
    · exact hnil
    · rw [List.concat_eq_append, ← List.append_assoc] at hfront
      obtain rfl := List.singleton_inj.1 (List.append_inj_right' hfront rfl)
      exact absurd (by simp) hu
  subst hnil
  rw [List.append_nil] at hfront hbefore
  rw [Draft.reports, hruns, reportsOf_append, hbefore, hfront]
  exact List.mem_append_right _ List.mem_cons_self

theorem Records.eq_lineFeed_of_report (h : d.Records source es)
    (hsource : source = a ++ e :: c :: b)
    (hclear : ∀ p ∈ d.edits,
      p.range.stop ≤ byteLength a ∨ byteLength a + byteLength [e, c] ≤ p.range.start)
    {r : OutputReport} (hr : r ∈ d.reports) (hoffset : r.offset = byteLength (a ++ [e])) :
    e = '\n' := by
  obtain ⟨x, y, hxy, hplace, hx⟩ := h.exists_place hr
  rw [hsource, ← List.singleton_append, ← List.append_assoc] at hxy
  obtain ⟨rfl, -⟩ := append_inj_of_byteLength hxy (hoffset.symm.trans hplace.symm)
  rcases hx with hx | hx | ⟨p, hp, hends⟩
  · exact absurd hx (by simp)
  · exact Option.some.inj (List.getLast?_concat.symm.trans hx)
  · have hclear := hclear p hp
    have hle := (h.laid.spliced.bounds hp).2.1
    have he := Char.utf8Size_pos e
    have hc := Char.utf8Size_pos c
    rw [hoffset, byteLength_append] at hends
    rw [byteLength_cons, byteLength_cons, byteLength_nil] at hclear
    rw [byteLength_cons, byteLength_nil] at hends
    omega

/-- **When a kept place has a report**: where a line feed is in front of it. -/
theorem Records.exists_report_iff (h : d.Records source es) (hsource : source = a ++ e :: c :: b)
    (hclear : ∀ p ∈ d.edits,
      p.range.stop ≤ byteLength a ∨ byteLength a + byteLength [e, c] ≤ p.range.start)
    {r : OutputReport} :
    r ∈ d.reports ∧ r.offset = byteLength (a ++ [e]) ↔ e = '\n' ∧
      r = ⟨renderedBefore source es (byteLength (a ++ [e])), byteLength (a ++ [e])⟩ := by
  constructor
  · rintro ⟨hr, hoffset⟩
    obtain rfl := h.eq_lineFeed_of_report hsource hclear hr hoffset
    have hfeed := h.report_mem_of_lineFeed hsource hclear
    have hnodup : (d.reports.map OutputReport.offset).Nodup :=
      List.pairwise_map.2 (h.ascending.imp Nat.ne_of_lt)
    exact ⟨rfl, List.inj_on_of_nodup_map hnodup hr hfeed hoffset⟩
  · rintro ⟨rfl, rfl⟩
    exact ⟨h.report_mem_of_lineFeed hsource hclear, rfl⟩

/-- **The mappings of a kept place**: there is one where a line feed is in front of it, and it is as
many lines too far down as line ends were divided up to it. -/
theorem Records.exists_mappings (h : d.Records source es) (path : String)
    (hsource : source = a ++ e :: c :: b) (hclear : ∀ p ∈ d.edits,
      p.range.stop ≤ byteLength a ∨ byteLength a + byteLength [e, c] ≤ p.range.start) :
    let n := byteLength (a ++ [e])
    let x := renderedBefore source es n
    let divided := dividedEnds [] ((d.reports.filter (·.offset ≤ n)).map OutputReport.output)
    ∃ y, d.text = String.ofList (x ++ c :: y) ∧
      ∀ t, t ∈ (d.sourceMap path).mappings ∧ t.source = positionIn (a ++ [e]) (c :: b) ↔
        e = '\n' ∧
          t = ⟨(positionIn x (c :: y)).down divided, positionIn (a ++ [e]) (c :: b)⟩ := by
  intro n x divided
  obtain ⟨before, front, u, v, behind, w, hruns, -, -, hbefore, hlast⟩ :=
    h.exists_run hsource hclear
  have hdivision : source = (a ++ [e]) ++ c :: b := by rw [hsource]; simp
  let y := v ++ textOf behind
  have htext : d.text = String.ofList (x ++ c :: y) := by
    show String.ofList (textOf d.runs) = _
    rw [hruns, textOf_append, textOf_cons, show x = _ from hbefore]
    simp only [y, List.append_assoc, List.cons_append]
  have hmapping : e = '\n' → (⟨x, n⟩ : OutputReport).mapping source divided =
      ⟨(positionIn x (c :: y)).down divided, positionIn (a ++ [e]) (c :: b)⟩ := by
    rintro rfl
    have hbehind : positionIn x [] = positionIn x (c :: y) := by
      refine Position.through_nil _ fun hreturn => ?_
      rw [show x = w ++ ['\n'] from hbefore.trans hlast, List.getLast?_concat] at hreturn
      exact absurd hreturn (by decide)
    have hmin : min n (byteLength source) = n := by
      rw [hdivision, byteLength_append (a ++ ['\n'])]
      exact Nat.min_eq_left (Nat.le_add_right _ _)
    rw [OutputReport.mapping, hmin, hbehind, hdivision, LineIndex.position_ofText]
  refine ⟨y, htext, fun t => ⟨?_, ?_⟩⟩
  · rintro ⟨ht, hplace⟩
    obtain ⟨r, hr, rfl⟩ := (h.mem_mappings_iff path).1 ht
    have hoffset := h.offset_eq_of_position hdivision hr hplace
    obtain ⟨he, rfl⟩ := (h.exists_report_iff hsource hclear).1 ⟨hr, hoffset⟩
    exact ⟨he, hmapping he⟩
  · rintro ⟨he, rfl⟩
    obtain ⟨hr, -⟩ := (h.exists_report_iff hsource hclear).2 ⟨he, rfl⟩
    exact ⟨(h.mem_mappings_iff path).2 ⟨_, hr, (hmapping he).symm⟩, rfl⟩

/-! ## Line starts -/

/-- **The mappings of a line start** that stands within a range that no edit touches: it has one
just if a line feed is in front of it, and the position of this one in the output is right just if
no line end was divided up to it. -/
theorem mappings_of_lineStart (path : String) {source a b : List Char} {c : Char} {s : Span}
    (es : List Edit) (hsource : source = a ++ c :: b)
    (hline : ∃ l ∈ (LineIndex.ofText source).lines.toList, l.offset = byteLength a)
    (hkeeps : ((ofSource source).after es).Keeps s) (hstart : s.start < byteLength a)
    (hstop : byteLength a < s.stop) :
    let d := (ofSource source).after es
    let x := renderedBefore source ((ofSource source).accepted es) (byteLength a)
    let place : Position := ⟨(LineIndex.ofText source).line (byteLength a), 0⟩
    let divided :=
      dividedEnds [] ((d.reports.filter (·.offset ≤ byteLength a)).map OutputReport.output)
    ∃ y, d.text = String.ofList (x ++ c :: y) ∧
      (∀ t, t ∈ (d.sourceMap path).mappings ∧ t.source = place ↔
        a.getLast? = some '\n' ∧ t = ⟨(positionIn x (c :: y)).down divided, place⟩) ∧
      (⟨positionIn x (c :: y), place⟩ ∈ (d.sourceMap path).mappings ↔
        a.getLast? = some '\n' ∧ divided = 0) := by
  intro d x place divided
  have h : d.Records source ((ofSource source).accepted es) :=
    records_after (records_ofSource source) es
  obtain ⟨f, e, rfl, hends⟩ := LineIndex.exists_endsLine_of_mem hsource hline (by omega)
  have hsplit : source = f ++ e :: c :: b := by rw [hsource]; simp
  have hplace : positionIn (f ++ [e]) (c :: b) = place := by
    show _ = (⟨(LineIndex.ofText source).line _, 0⟩ : Position)
    rw [hsource]
    exact LineIndex.positionIn_of_endsLine hends
  obtain ⟨y, htext, hmappings⟩ := h.exists_mappings path hsplit fun p hp =>
    hkeeps.clear h.inOrder (h.source.trans hsplit) hstart hstop hp
  rw [hplace] at hmappings
  rw [List.getLast?_concat, Option.some.injEq]
  refine ⟨y, htext, hmappings, ?_⟩
  have hright := hmappings ⟨positionIn x (c :: y), place⟩
  rw [Mapping.mk.injEq, eq_comm (a := positionIn x (c :: y)), Position.down_eq_self_iff] at hright
  simpa only [and_true] using hright

/-- The second line of a source, behind a text in front, an insertion and in front of a patch. -/
theorem mappings_of_lineStart_second :
    let source := ['a', 'b', '\n', 'c', 'd']
    let es : List Edit := [.front "\n", .insertion ⟨1, .left, "é"⟩, .patch ⟨⟨4, 5⟩, "X"⟩]
    let d := (ofSource source).after es
    (∃ l ∈ (LineIndex.ofText source).lines.toList, l.offset = 3) ∧ d.Keeps ⟨1, 4⟩ ∧
      ∃ y, d.text = String.ofList (['\n', 'a', 'é', 'b', '\n'] ++ 'c' :: y) ∧
        ⟨positionIn ['\n', 'a', 'é', 'b', '\n'] ('c' :: y), ⟨1, 0⟩⟩ ∈
          (d.sourceMap "a.vue").mappings := by
  intro source es d
  have hline : ∃ l ∈ (LineIndex.ofText source).lines.toList, l.offset = 3 :=
    ⟨⟨3, ['c', 'd']⟩, by decide, rfl⟩
  have hkeeps : d.Keeps ⟨1, 4⟩ := ⟨by decide, by decide⟩
  have hsource : source = ['a', 'b', '\n'] ++ 'c' :: ['d'] := rfl
  obtain ⟨y, htext, -, hright⟩ :=
    mappings_of_lineStart "a.vue" es hsource hline hkeeps (by decide) (by decide)
  have hx : renderedBefore source ((ofSource source).accepted es) (byteLength ['a', 'b', '\n']) =
      ['\n', 'a', 'é', 'b', '\n'] := by decide +kernel
  have hplace : (LineIndex.ofText source).line (byteLength ['a', 'b', '\n']) = 1 :=
    congrArg Position.line (LineIndex.position_ofText ['a', 'b', '\n'] ['c', 'd'])
  rw [hx] at htext hright
  rw [hplace] at hright
  exact ⟨hline, hkeeps, y, htext, hright.2 ⟨rfl, by decide +kernel⟩⟩

/-- The second line of a source whose lines end with a carriage return has no mapping. -/
theorem not_mapping_of_lineStart :
    ¬∀ (path : String) (source a b : List Char) (c : Char) (s : Span) (es : List Edit),
      source = a ++ c :: b →
      (∃ l ∈ (LineIndex.ofText source).lines.toList, l.offset = byteLength a) →
      ((ofSource source).after es).Keeps s → s.start < byteLength a → byteLength a < s.stop →
      ∃ t ∈ (((ofSource source).after es).sourceMap path).mappings,
        t.source = ⟨(LineIndex.ofText source).line (byteLength a), 0⟩ := by
  intro h
  obtain ⟨t, ht, hplace⟩ := h "a.vue" ['a', '\r', 'b'] ['a', '\r'] [] 'b' ⟨0, 3⟩ [] rfl
    ⟨⟨2, ['b']⟩, by decide, rfl⟩ ⟨by decide, by decide⟩ (by decide) (by decide)
  have hrecords : ((ofSource ['a', '\r', 'b']).after []).Records ['a', '\r', 'b'] [] :=
    records_ofSource _
  have hreports : ((ofSource ['a', '\r', 'b']).after []).reports = [⟨[], 0⟩] := by
    decide +kernel
  obtain ⟨r, hr, rfl⟩ := (hrecords.mem_mappings_iff "a.vue").1 ht
  rw [hreports] at hr
  obtain rfl := List.mem_singleton.1 hr
  have hposition : (LineIndex.ofText ['a', '\r', 'b']).position 0 = ⟨0, 0⟩ :=
    LineIndex.position_ofText [] ['a', '\r', 'b']
  have hline : (LineIndex.ofText ['a', '\r', 'b']).line (byteLength ['a', '\r']) = 1 :=
    congrArg Position.line (LineIndex.position_ofText ['a', '\r'] ['b'])
  rw [hline] at hplace
  exact absurd (hposition.symm.trans hplace) (by decide)

end Draft

end Islands
