import Mathlib.Data.List.Chain
import Islands.Proofs.Draft.Rendering
import Islands.Proofs.SourceMap.OutputPosition

/-!
# Reports of a growing output

While an output is written, the builder of its map is told again and again how far it has come: the
whole output so far, and the offset of the source that its end comes from (`OutputReport`). The
builder reads only what was put behind the output of the last mapping. So a carriage return at the
end of one output and a line feed that the next one puts behind it count as two line ends
(`DividesLineEnd`), and everything behind them is a line too far down.

* `through_positionIn`: one step of the count, against the position in the whole output.
* `mappings_reportAll`: the mappings that any reports give.
* `Draft.mappings_eq_reportMappings`: those of a draft.
* `MapBuilder.generated_reportAll`: each mapping is further down by the line ends that were divided
  so far, and all positions are right just if no line end was divided.
-/

namespace Islands

/-! ## Reports -/

/-- What a builder is told: the whole output so far, and the offset of the source that its end comes
from. -/
structure OutputReport where
  output : List Char
  offset : Nat
deriving DecidableEq, Repr

/-- Each output is the one before it, with more text behind it or none. -/
def Growing (rs : List OutputReport) : Prop := (rs.map OutputReport.output).IsChain (· <+: ·)

instance (rs : List OutputReport) : Decidable (Growing rs) :=
  inferInstanceAs (Decidable (List.IsChain ..))

theorem growing_cons_iff {r : OutputReport} {rs : List OutputReport} :
    Growing (r :: rs) ↔ (∀ s ∈ rs, r.output <+: s.output) ∧ Growing rs := by
  have : Trans (α := List Char) (· <+: ·) (· <+: ·) (· <+: ·) := ⟨List.IsPrefix.trans⟩
  unfold Growing
  rw [List.isChain_iff_pairwise, List.isChain_iff_pairwise, List.map_cons, List.pairwise_cons,
    List.forall_mem_map]

namespace MapBuilder

/-- Tells the builder how far the output has come. -/
def report (b : MapBuilder) (r : OutputReport) : MapBuilder :=
  b.add (utf8Bytes r.output).toArray r.offset

/-- Tells the builder about one output after the other. -/
def reportAll (b : MapBuilder) (rs : List OutputReport) : MapBuilder := rs.foldl report b

end MapBuilder

/-- The reports that give a mapping, when the last one led to the offset `last`: all but those of
the same offset again. An offset behind the source, which has `length` bytes, leads to its end. -/
def mappedReports (length : Nat) (last : Option Nat) : List OutputReport → List OutputReport
  | [] => []
  | r :: rs =>
    if last = some r.offset then mappedReports length last rs
    else r :: mappedReports length (some (min r.offset length)) rs

/-! ## Divided line ends -/

/-- The later output `y` has a line feed behind the output `x`, which ends in a carriage return. -/
def DividesLineEnd (x y : List Char) : Prop := x.getLast? = some '\r' ∧ x ++ ['\n'] <+: y

instance (x y : List Char) : Decidable (DividesLineEnd x y) := inferInstanceAs (Decidable (_ ∧ _))

/-- The number of line ends between two outputs. -/
def dividedEnd (x y : List Char) : Nat := if DividesLineEnd x y then 1 else 0

/-- The number of line ends between one output and the next, for outputs that follow `x`. -/
def dividedEnds (x : List Char) : List (List Char) → Nat
  | [] => 0
  | y :: ys => dividedEnd x y + dividedEnds y ys

theorem dividesLineEnd_append_iff {x y : List Char} :
    DividesLineEnd x (x ++ y) ↔ x.getLast? = some '\r' ∧ y.head? = some '\n' := by
  have hfeed : ['\n'] <+: y ↔ y.head? = some '\n' := by
    rw [List.head?_eq_some_iff]
    exact ⟨fun ⟨rest, h⟩ => ⟨rest, h.symm⟩, fun ⟨rest, h⟩ => ⟨rest, h.symm⟩⟩
  rw [DividesLineEnd, List.prefix_append_right_inj, hfeed]

namespace Position

/-- The position so many lines further down. -/
def down (p : Position) (n : Nat) : Position := ⟨p.line + n, p.column⟩

@[simp] theorem down_zero (p : Position) : p.down 0 = p := rfl

theorem down_down (p : Position) (m n : Nat) : (p.down m).down n = p.down (m + n) := by
  simp only [down, Nat.add_assoc]

theorem down_eq_self_iff {p : Position} {n : Nat} : p.down n = p ↔ n = 0 := by
  cases p
  simp [down]

theorem through_down (p : Position) (n : Nat) (a rest : List Char) :
    (p.down n).through a rest = (p.through a rest).down n := by
  induction a generalizing p with
  | nil => rfl
  | cons c a ih =>
    have hbehind : (p.down n).behind c (a ++ rest) = (p.behind c (a ++ rest)).down n := by
      by_cases hends : EndsLine c (a ++ rest)
      · simp only [behind_of_endsLine _ hends, down, Nat.add_right_comm]
      · simp only [behind_of_not_endsLine _ hends, down]
    rw [through, through, hbehind, ih]

end Position

/-- **One step of the count**: from the end of an output on to the end of a longer one. A line end
between the two is counted twice. -/
theorem through_positionIn (x y : List Char) :
    (positionIn x []).through y [] = (positionIn (x ++ y) []).down (dividedEnd x (x ++ y)) := by
  rw [positionIn_append]
  by_cases hdivides : DividesLineEnd x (x ++ y)
  · obtain ⟨hlast, hhead⟩ := dividesLineEnd_append_iff.1 hdivides
    obtain ⟨u, rfl⟩ := List.getLast?_eq_some_iff.1 hlast
    obtain ⟨y, rfl⟩ := List.head?_eq_some_iff.1 hhead
    have hreturn : ∀ rest, positionIn (u ++ ['\r']) rest = (positionIn u []).behind '\r' rest := by
      intro rest
      have hu : positionIn u [] = positionIn u ('\r' :: rest) :=
        Position.through_nil _ fun _ => by simp
      rw [positionIn_append, hu]
      rfl
    have hfeed : ∀ p : Position,
        p.through ('\n' :: y) [] = (⟨p.line + 1, 0⟩ : Position).through y [] := fun p => by
      rw [Position.through, p.behind_of_endsLine (.inl rfl)]
    -- the carriage return ends the line only where the line feed is not yet known
    rw [dividedEnd, if_pos hdivides, hfeed, hfeed, hreturn, hreturn,
      Position.behind_of_endsLine _ (.inr ⟨rfl, by simp⟩),
      Position.behind_of_not_endsLine _ (by simp [EndsLine]), ← Position.through_down]
    rfl
  · have hsame : positionIn x [] = positionIn x (y ++ []) := by
      rw [List.append_nil]
      exact Position.through_nil _ fun hlast hhead =>
        hdivides (dividesLineEnd_append_iff.2 ⟨hlast, hhead⟩)
    rw [dividedEnd, if_neg hdivides, hsame, Position.down_zero]

/-! ## The mappings -/

/-- The mapping of a report when `k` line ends have been divided. -/
def OutputReport.mapping (source : List Char) (k : Nat) (r : OutputReport) : Mapping :=
  ⟨(positionIn r.output []).down k,
    (LineIndex.ofText source).position (min r.offset (byteLength source))⟩

/-- The mappings of reports that follow the output `x`, up to which `k` line ends were divided. -/
def reportMappings (source x : List Char) (k : Nat) : List OutputReport → List Mapping
  | [] => []
  | r :: rs =>
    r.mapping source (k + dividedEnd x r.output) ::
      reportMappings source r.output (k + dividedEnd x r.output) rs

section
variable {source x : List Char} {k : Nat} {b : MapBuilder} {r : OutputReport}
  {rs : List OutputReport}

/-- A builder has counted the output `x`, and `k` line ends of it twice. -/
structure MapBuilder.Follows (b : MapBuilder) (source x : List Char) (k : Nat) : Prop where
  lines : b.lines = LineIndex.ofText source
  consumed : b.consumed = byteLength x
  generated : b.generated = (positionIn x []).down k

theorem MapBuilder.follows_ofSource (path : String) (source : List Char) :
    (ofSource path (String.ofList source)).Follows source [] 0 := by
  refine ⟨?_, rfl, rfl⟩
  rw [ofSource, String.toList_ofList]

/-- **One more report** of another offset. -/
theorem MapBuilder.Follows.report (h : b.Follows source x k) (hlast : b.lastOffset ≠ some r.offset)
    (hgrow : x <+: r.output) :
    (b.report r).Follows source r.output (k + dividedEnd x r.output) ∧
      (b.report r).lastOffset = some (min r.offset (byteLength source)) ∧
      (b.report r).mappings.toList =
        b.mappings.toList ++ [r.mapping source (k + dividedEnd x r.output)] := by
  obtain ⟨y, hy⟩ := hgrow
  have hlength : b.lines.length = byteLength source := by rw [h.lines]; rfl
  have hgenerated : b.generated.advance ((utf8Bytes r.output).toArray.extract b.consumed
      (utf8Bytes r.output).toArray.size).toList =
      (positionIn r.output []).down (k + dividedEnd x r.output) := by
    rw [h.consumed, ← hy, extract_utf8Bytes, h.generated, Position.advance_utf8Bytes,
      Position.through_down, through_positionIn, Position.down_down, Nat.add_comm k]
  rw [MapBuilder.report, MapBuilder.add, if_neg hlast, hgenerated, hlength, h.lines]
  refine ⟨⟨rfl, ?_, rfl⟩, rfl, Array.toList_push⟩
  rw [List.size_toArray, length_utf8Bytes]

/-- **The mappings of any reports**, one after the other. -/
theorem mappings_reportAll (h : b.Follows source x k)
    (hgrow : ∀ r ∈ rs, x <+: r.output) (hrs : Growing rs) :
    (b.reportAll rs).mappings.toList = b.mappings.toList ++
      reportMappings source x k (mappedReports (byteLength source) b.lastOffset rs) := by
  induction rs generalizing b x k with
  | nil => exact (List.append_nil _).symm
  | cons r rs ih =>
    obtain ⟨hr, hrest⟩ := List.forall_mem_cons.1 hgrow
    obtain ⟨hnext, hrs'⟩ := growing_cons_iff.1 hrs
    by_cases hlast : b.lastOffset = some r.offset
    · have hskip : b.report r = b := if_pos hlast
      rw [mappedReports, if_pos hlast]
      show ((b.report r).reportAll rs).mappings.toList = _
      rw [hskip]
      exact ih h hrest hrs'
    · obtain ⟨hfollows, hoffset, hmappings⟩ := h.report hlast hr
      rw [mappedReports, if_neg hlast, reportMappings]
      show ((b.report r).reportAll rs).mappings.toList = _
      rw [ih hfollows hnext hrs', hoffset, hmappings, List.append_assoc]
      rfl

theorem exists_reportMappings (source x : List Char) (k : Nat) (before : List OutputReport)
    (r : OutputReport) (behind : List OutputReport) :
    ∃ front back, reportMappings source x k (before ++ r :: behind) = front ++
        r.mapping source (k + dividedEnds x ((before ++ [r]).map OutputReport.output)) :: back ∧
      front.length = before.length := by
  induction before generalizing x k with
  | nil => exact ⟨[], _, rfl, rfl⟩
  | cons s before ih =>
    obtain ⟨front, back, hmappings, hlength⟩ := ih s.output (k + dividedEnd x s.output)
    refine ⟨s.mapping source (k + dividedEnd x s.output) :: front, back, ?_, ?_⟩
    · rw [List.cons_append, reportMappings, hmappings, Nat.add_assoc]
      rfl
    · rw [List.length_cons, List.length_cons, hlength]

theorem mem_reportMappings_iff {t : Mapping} : t ∈ reportMappings source x k rs ↔
    ∃ before r behind, rs = before ++ r :: behind ∧
      t = r.mapping source (k + dividedEnds x ((before ++ [r]).map OutputReport.output)) := by
  constructor
  · intro h
    induction rs generalizing x k with
    | nil => cases h
    | cons s rs ih =>
      rcases List.mem_cons.1 h with rfl | h
      · exact ⟨[], s, rs, rfl, rfl⟩
      · obtain ⟨before, r, behind, rfl, rfl⟩ := ih h
        exact ⟨s :: before, r, behind, rfl, by rw [Nat.add_assoc]; rfl⟩
  · rintro ⟨before, r, behind, rfl, rfl⟩
    obtain ⟨front, back, hmappings, -⟩ := exists_reportMappings source x k before r behind
    rw [hmappings]
    exact List.mem_append_right _ List.mem_cons_self

theorem length_reportMappings (source x : List Char) (k : Nat) (rs : List OutputReport) :
    (reportMappings source x k rs).length = rs.length := by
  induction rs generalizing x k with
  | nil => rfl
  | cons r rs ih => rw [reportMappings, List.length_cons, ih, List.length_cons]

theorem map_generated_eq_iff :
    (reportMappings source x 0 rs).map Mapping.generated =
        rs.map (fun r => positionIn r.output []) ↔
      (x :: rs.map OutputReport.output).IsChain fun x y => ¬DividesLineEnd x y := by
  induction rs generalizing x with
  | nil => simp [reportMappings]
  | cons r rs ih =>
    rw [reportMappings, List.map_cons, List.map_cons, List.cons.injEq, List.map_cons,
      List.isChain_cons_cons]
    show ((positionIn r.output []).down _ = _ ∧ _) ↔ _
    rw [Position.down_eq_self_iff, Nat.zero_add]
    by_cases hdivides : DividesLineEnd x r.output
    · simp [dividedEnd, hdivides]
    · have hzero : dividedEnd x r.output = 0 := if_neg hdivides
      rw [hzero, ih]
      simp [hdivides]

end

namespace MapBuilder

/-- **What a builder makes of reports**: each report that is not skipped has a mapping from the
position at the end of its output, as many lines too far down as line ends have been divided up to
it. All positions are right just if none was. -/
theorem generated_reportAll (path : String) (source : List Char) {rs : List OutputReport}
    (h : Growing rs) :
    let mapped := mappedReports (byteLength source) none rs
    let ms := ((ofSource path (String.ofList source)).reportAll rs).mappings.toList
    ms.length = mapped.length ∧
      (∀ before r behind, mapped = before ++ r :: behind →
        ms[before.length]? = some ⟨(positionIn r.output []).down
          (dividedEnds [] ((before ++ [r]).map OutputReport.output)),
          (LineIndex.ofText source).position (min r.offset (byteLength source))⟩) ∧
      (ms.map Mapping.generated = mapped.map (fun r => positionIn r.output []) ↔
        (mapped.map OutputReport.output).IsChain fun x y => ¬DividesLineEnd x y) := by
  intro mapped ms
  have hms : ms = reportMappings source [] 0 mapped :=
    mappings_reportAll (follows_ofSource path source) (fun r _ => List.nil_prefix) h
  refine ⟨?_, fun before r behind hsplit => ?_, ?_⟩
  · rw [hms, length_reportMappings]
  · obtain ⟨front, back, hmappings, hlength⟩ := exists_reportMappings source [] 0 before r behind
    rw [hms, hsplit, hmappings, ← hlength, List.getElem?_append_right (Nat.le_refl _),
      Nat.sub_self, List.getElem?_cons_zero, Nat.zero_add]
    rfl
  · rw [hms, map_generated_eq_iff, List.isChain_cons]
    exact and_iff_right fun y _ hdivides => nomatch hdivides.1

/-- Outputs that end in front of a line end, within one and behind one; one report is skipped. -/
theorem generated_reportAll_lines :
    let source := ['é', '\n', 'b']
    let rs : List OutputReport := [⟨['é'], 0⟩, ⟨['é', '\r'], 2⟩, ⟨['é', '\r', '\n', 'b'], 2⟩,
      ⟨['é', '\r', '\n', 'b', '\r', '\n'], 4⟩]
    let ms := ((ofSource "a.vue" (String.ofList source)).reportAll rs).mappings.toList
    Growing rs ∧ ms.length = 3 ∧ ms[1]?.map Mapping.generated = some ⟨1, 0⟩ ∧
      ms[2]?.map Mapping.generated = some ⟨3, 0⟩ ∧
      ms.map Mapping.generated ≠ [⟨0, 1⟩, ⟨1, 0⟩, ⟨2, 0⟩] := by
  intro source rs ms
  have hgrow : Growing rs := by decide
  obtain ⟨hlength, hget, hall⟩ := generated_reportAll "a.vue" source hgrow
  have hsecond := hget [⟨['é'], 0⟩] ⟨['é', '\r'], 2⟩
    [⟨['é', '\r', '\n', 'b', '\r', '\n'], 4⟩] (by decide)
  have hthird := hget [⟨['é'], 0⟩, ⟨['é', '\r'], 2⟩] ⟨['é', '\r', '\n', 'b', '\r', '\n'], 4⟩ []
    (by decide)
  refine ⟨hgrow, hlength, ?_, ?_, fun heq => absurd (hall.1 heq) (by decide)⟩
  · exact (congrArg (Option.map Mapping.generated) hsecond).trans (by decide)
  · exact (congrArg (Option.map Mapping.generated) hthird).trans (by decide)

/-- A carriage return at the end of one output and the line feed behind it in the next one, in front
of which the builder already is on the second line. -/
theorem not_generated_eq_positionIn :
    ¬∀ (path : String) (source : List Char) (rs : List OutputReport), Growing rs →
      ((ofSource path (String.ofList source)).reportAll rs).mappings.toList.map Mapping.generated =
        (mappedReports (byteLength source) none rs).map fun r => positionIn r.output [] := by
  intro h
  have hgrow : Growing [⟨['\r'], 0⟩, ⟨['\r', '\n'], 1⟩] := by decide
  have hreturn := h "a.vue" ['a', 'b'] [⟨['\r'], 0⟩, ⟨['\r', '\n'], 1⟩] hgrow
  rw [mappings_reportAll (follows_ofSource "a.vue" ['a', 'b']) (fun r _ => List.nil_prefix) hgrow]
    at hreturn
  revert hreturn
  decide

end MapBuilder

/-! ## The reports of a draft -/

/-- The reports of runs that stand behind the output `x`, one for each run that comes from the
source. -/
def reportsOf (x : List Char) : List Run → List OutputReport
  | [] => []
  | r :: rs => (r.origin.toList.map fun offset => ⟨x, offset⟩) ++ reportsOf (x ++ r.text) rs

/-- The reports that are made while the edited text is written. -/
def Draft.reports (d : Draft) : List OutputReport := reportsOf [] d.runs

section
variable {source x : List Char} {rs : List Run}

theorem reportsOf_append (x : List Char) (qs rs : List Run) :
    reportsOf x (qs ++ rs) = reportsOf x qs ++ reportsOf (x ++ textOf qs) rs := by
  induction qs generalizing x with
  | nil =>
    have hx : x ++ textOf [] = x := List.append_nil x
    rw [hx]
    rfl
  | cons q qs ih =>
    rw [List.cons_append, reportsOf, reportsOf, ih, textOf_cons, List.append_assoc,
      List.append_assoc]

theorem map_offset_reportsOf (x : List Char) (rs : List Run) :
    (reportsOf x rs).map OutputReport.offset = rs.filterMap Run.origin := by
  induction rs generalizing x with
  | nil => rfl
  | cons r rs ih =>
    rw [reportsOf, List.map_append, ih]
    cases horigin : r.origin with
    | none => rw [List.filterMap_cons_none horigin]; rfl
    | some offset => rw [List.filterMap_cons_some horigin]; rfl

theorem prefix_of_mem_reportsOf {r : OutputReport} (h : r ∈ reportsOf x rs) : x <+: r.output := by
  induction rs generalizing x with
  | nil => cases h
  | cons q rs ih =>
    rcases List.mem_append.1 h with h | h
    · obtain ⟨offset, -, rfl⟩ := List.mem_map.1 h
      exact List.prefix_rfl
    · exact (List.prefix_append x q.text).trans (ih h)

theorem growing_reportsOf (x : List Char) (rs : List Run) : Growing (reportsOf x rs) := by
  induction rs generalizing x with
  | nil => exact .nil
  | cons r rs ih =>
    rw [reportsOf]
    cases r.origin with
    | none => exact ih _
    | some offset =>
      refine growing_cons_iff.2 ⟨fun s hs => ?_, ih _⟩
      exact (List.prefix_append x r.text).trans (prefix_of_mem_reportsOf hs)

theorem addRuns_eq_reportAll (b : MapBuilder) (x : List Char) (rs : List Run) :
    b.addRuns (utf8Bytes x).toArray rs = b.reportAll (reportsOf x rs) := by
  induction rs generalizing b x with
  | nil => rfl
  | cons r rs ih =>
    have houtput : (utf8Bytes x).toArray ++ utf8Bytes r.text =
        (utf8Bytes (x ++ r.text)).toArray := by
      rw [utf8Bytes_append, List.toArray_appendList]
    rw [MapBuilder.addRuns, houtput, ih, reportsOf]
    cases r.origin with
    | none => rfl
    | some offset => rfl

/-- Reports of ever later offsets all give a mapping. -/
theorem mappedReports_of_ascending {length : Nat} {last : Option Nat} {rs : List OutputReport}
    (hlast : ∀ n ∈ last, ∀ r ∈ rs, n < r.offset) (horder : rs.Pairwise (·.offset < ·.offset))
    (hbound : ∀ r ∈ rs, r.offset ≤ length) : mappedReports length last rs = rs := by
  induction rs generalizing last with
  | nil => rfl
  | cons r rs ih =>
    obtain ⟨hr, hrs⟩ := List.pairwise_cons.1 horder
    have hne : last ≠ some r.offset := fun h =>
      Nat.lt_irrefl _ (hlast r.offset h r List.mem_cons_self)
    have hmin : min r.offset length = r.offset := Nat.min_eq_left (hbound r List.mem_cons_self)
    rw [mappedReports, if_neg hne, hmin, ih _ hrs fun s hs => hbound s (List.mem_cons_of_mem _ hs)]
    rintro n hn s hs
    obtain rfl := Option.some.inj hn
    exact hr s hs

/-- **The map of an edited text** has the mappings of its reports. -/
theorem mappings_eq_reportMappings {d : Draft} (path : String)
    (horder : (d.runs.filterMap Run.origin).Pairwise (· < ·))
    (hbound : ∀ offset ∈ d.runs.filterMap Run.origin, offset ≤ byteLength d.source) :
    (d.sourceMap path).mappings = reportMappings d.source [] 0 d.reports := by
  rw [← map_offset_reportsOf []] at horder hbound
  have hmapped : mappedReports (byteLength d.source) none d.reports = d.reports :=
    mappedReports_of_ascending nofun (List.pairwise_map.1 horder) fun r hr =>
      hbound r.offset (List.mem_map_of_mem hr)
  have hmappings := mappings_reportAll (MapBuilder.follows_ofSource path d.source)
    (fun r _ => List.nil_prefix) (growing_reportsOf [] d.runs)
  rw [← addRuns_eq_reportAll] at hmappings
  exact hmappings.trans (congrArg (reportMappings d.source [] 0) hmapped)

end

end Islands
