import Islands.Proofs.SourceMap.Reports

/-!
# From the output back to the source

A position of the output is looked up in a map: the last mapping on its line that is not behind it
counts, and the source is followed from there for as many columns (`SourceMap.trace?`). The map of
an edited text has one mapping for each run that comes from the source, at the position of the run
(`mappings_sourceMap`). So the characters of a run lead back to their own positions, as long as they
are on the line that the run starts on (`trace?_of_run`).
-/

namespace Islands

/-! ## Looking up -/

/-- Whether a mapping is on the line of a position of the output, and not behind it. -/
def Mapping.isUpTo (t : Mapping) (p : Position) : Bool :=
  t.generated.line == p.line && t.generated.column ≤ p.column

theorem Mapping.isUpTo_iff {t : Mapping} {p : Position} :
    t.isUpTo p = true ↔ t.generated.line = p.line ∧ t.generated.column ≤ p.column := by
  rw [isUpTo, Bool.and_eq_true, beq_iff_eq, decide_eq_true_eq]

namespace SourceMap

/-- The mapping that counts for a position of the output: the last one on the same line that is not
behind it. -/
def lookup? (m : SourceMap) (p : Position) : Option Mapping :=
  (m.mappings.filter (·.isUpTo p)).getLast?

/-- The position of the source that a position of the output leads back to: as many columns behind
the one that the mapping leads to as the position is behind the mapping. -/
def trace? (m : SourceMap) (p : Position) : Option Position :=
  (m.lookup? p).map fun t =>
    ⟨t.source.line, t.source.column + (p.column - t.generated.column)⟩

/-- A mapping counts for a position on its line if all later mappings are behind the position. -/
theorem lookup?_of_split {m : SourceMap} {before behind : List Mapping} {t : Mapping} {p : Position}
    (hm : m.mappings = before ++ t :: behind) (ht : t.isUpTo p = true)
    (hbehind : ∀ s ∈ behind, p.Before s.generated) : m.lookup? p = some t := by
  have hnone : behind.filter (·.isUpTo p) = [] := by
    refine List.filter_eq_nil_iff.2 fun s hs hup => ?_
    obtain ⟨hline, hcolumn⟩ := Mapping.isUpTo_iff.1 hup
    rcases hbehind s hs with hlt | ⟨-, hlt⟩ <;> omega
  rw [lookup?, hm, List.filter_append, List.filter_cons, if_pos ht, hnone, List.getLast?_concat]

end SourceMap

/-! ## The mappings of runs -/

/-- The mappings of runs that stand behind the text `x`, one for each run that comes from the
source. -/
def runMappings (source x : List Char) : List Run → List Mapping
  | [] => []
  | r :: rs =>
    (r.origin.toList.map fun offset =>
      ⟨positionIn x (textOf (r :: rs)), (LineIndex.ofText source).position offset⟩) ++
      runMappings source (x ++ r.text) rs

/-- No run that comes from the source begins between a carriage return and a line feed. -/
def KeepsLineEnds (x : List Char) : List Run → Prop
  | [] => True
  | r :: rs =>
    (r.origin.isSome → x.getLast? = some '\r' → (textOf (r :: rs)).head? ≠ some '\n') ∧
      KeepsLineEnds (x ++ r.text) rs

section
variable {source x : List Char} {rs : List Run}

theorem exists_runMappings (source x : List Char) (qs rs : List Run) :
    ∃ before, runMappings source x (qs ++ rs) =
      before ++ runMappings source (x ++ textOf qs) rs := by
  induction qs generalizing x with
  | nil =>
    have hx : x ++ textOf [] = x := List.append_nil x
    exact ⟨[], by rw [hx]; rfl⟩
  | cons q qs ih =>
    obtain ⟨before, hbefore⟩ := ih (x ++ q.text)
    rw [List.cons_append, runMappings, hbefore, textOf_cons, List.append_assoc, ← List.append_assoc]
    exact ⟨_, rfl⟩

theorem exists_of_mem_runMappings {t : Mapping} (h : t ∈ runMappings source x rs) :
    ∃ a b, textOf rs = a ++ b ∧ t.generated = positionIn (x ++ a) b := by
  induction rs generalizing x with
  | nil => cases h
  | cons r rs ih =>
    rcases List.mem_append.1 h with h | h
    · obtain ⟨offset, -, rfl⟩ := List.mem_map.1 h
      exact ⟨[], textOf (r :: rs), rfl, by rw [List.append_nil]⟩
    · obtain ⟨a, b, hab, ht⟩ := ih h
      exact ⟨r.text ++ a, b, by rw [textOf_cons, hab, List.append_assoc],
        by rw [ht, List.append_assoc]⟩

/-! ## The builder -/

/-- Where no run begins inside a line end, reports divide none. Between the output `x` of the last
report and the next run stands `y`. -/
theorem reportMappings_reportsOf {y : List Char}
    (hx : x.getLast? = some '\r' → (y ++ textOf rs).head? ≠ some '\n')
    (hbound : ∀ offset ∈ rs.filterMap Run.origin, offset ≤ byteLength source)
    (hends : KeepsLineEnds (x ++ y) rs) :
    reportMappings source x 0 (reportsOf (x ++ y) rs) = runMappings source (x ++ y) rs := by
  induction rs generalizing x y with
  | nil => rfl
  | cons r rs ih =>
    obtain ⟨hend, hends⟩ := hends
    rw [reportsOf, runMappings]
    cases horigin : r.origin with
    | none =>
      rw [List.filterMap_cons_none horigin] at hbound
      rw [textOf_cons, ← List.append_assoc] at hx
      rw [List.append_assoc] at hends ⊢
      exact ih hx hbound hends
    | some offset =>
      rw [List.filterMap_cons_some horigin] at hbound
      have hend := hend (by rw [horigin]; rfl)
      have hnone : dividedEnd x (x ++ y) = 0 := by
        refine if_neg fun hdivides => ?_
        obtain ⟨hlast, hhead⟩ := dividesLineEnd_append_iff.1 hdivides
        refine hx hlast ?_
        rw [List.head?_append, hhead]
        rfl
      have hplace : positionIn (x ++ y) [] = positionIn (x ++ y) (textOf (r :: rs)) :=
        Position.through_nil _ hend
      have hmapping : (⟨x ++ y, offset⟩ : OutputReport).mapping source 0 =
          ⟨positionIn (x ++ y) (textOf (r :: rs)), (LineIndex.ofText source).position offset⟩ := by
        rw [OutputReport.mapping, Nat.min_eq_left (hbound offset List.mem_cons_self),
          Position.down_zero, hplace]
      have hbehind := ih hend (fun n hn => hbound n (List.mem_cons_of_mem _ hn)) hends
      show (⟨x ++ y, offset⟩ : OutputReport).mapping source (0 + dividedEnd x (x ++ y)) ::
        reportMappings source (x ++ y) (0 + dividedEnd x (x ++ y))
          (reportsOf (x ++ y ++ r.text) rs) = _
      rw [hnone, Nat.zero_add, hmapping, hbehind]
      rfl

end

/-- **The map of an edited text** has the mappings of its runs. -/
theorem mappings_sourceMap {d : Draft} (path : String)
    (horder : (d.runs.filterMap Run.origin).Pairwise (· < ·))
    (hbound : ∀ offset ∈ d.runs.filterMap Run.origin, offset ≤ byteLength d.source)
    (hends : KeepsLineEnds [] d.runs) :
    (d.sourceMap path).mappings = runMappings d.source [] d.runs := by
  rw [mappings_eq_reportMappings path horder hbound]
  exact reportMappings_reportsOf (y := []) nofun hbound hends

/-! ## Tracing -/

/-- **A character of a run** that comes from the source leads back: as many columns behind the
origin of the run as it is behind the start of the run, if it is on the line that the run starts
on. -/
theorem trace?_of_run {m : SourceMap} {source u v : List Char} {c : Char} {offset : Nat}
    {before behind : List Run}
    (hm : m.mappings = runMappings source [] (before ++ ⟨some offset, u ++ c :: v⟩ :: behind))
    (hu : OnOneLine u c) :
    m.trace? (positionIn (textOf before ++ u) (c :: (v ++ textOf behind))) =
      some (((LineIndex.ofText source).position offset).through u (c :: v)) := by
  let r : Run := ⟨some offset, u ++ c :: v⟩
  let t : Mapping := ⟨positionIn (textOf before) (textOf (r :: behind)),
    (LineIndex.ofText source).position offset⟩
  let p := positionIn (textOf before ++ u) (c :: (v ++ textOf behind))
  have htext : textOf (r :: behind) = u ++ c :: (v ++ textOf behind) := by
    rw [textOf_cons, List.append_assoc, List.cons_append]
  have hp : p = ⟨t.generated.line, t.generated.column + units16 u⟩ := by
    show positionIn (textOf before ++ u) _ = _
    rw [positionIn_append, Position.through_eq_of_line _ hu, ← htext]
  obtain ⟨front, hfront⟩ := exists_runMappings source [] before (r :: behind)
  have hsplit : m.mappings = front ++ t :: runMappings source (textOf before ++ r.text) behind :=
    hm.trans hfront
  have ht : t.isUpTo p = true := by
    rw [Mapping.isUpTo_iff, hp]
    exact ⟨rfl, Nat.le_add_right _ _⟩
  have hbehind : ∀ s ∈ runMappings source (textOf before ++ r.text) behind,
      p.Before s.generated := by
    intro s hs
    obtain ⟨a, b, hab, hgenerated⟩ := exists_of_mem_runMappings hs
    have hlater : textOf before ++ r.text ++ a = (textOf before ++ u) ++ (c :: (v ++ a)) := by
      show textOf before ++ (u ++ c :: v) ++ a = _
      simp
    have hrest : c :: (v ++ textOf behind) = (c :: (v ++ a)) ++ b := by rw [hab]; simp
    have hbefore := (positionIn (textOf before ++ u) ((c :: (v ++ a)) ++ b)).before_through b
      (List.cons_ne_nil c (v ++ a))
    rw [← positionIn_append] at hbefore
    show (positionIn (textOf before ++ u) (c :: (v ++ textOf behind))).Before s.generated
    rw [hgenerated, hlater, hrest]
    exact hbefore
  show m.trace? p = _
  rw [SourceMap.trace?, SourceMap.lookup?_of_split hsplit ht hbehind, Option.map_some, hp,
    Nat.add_sub_cancel_left, Position.through_eq_of_line _ hu]

theorem mem_mappings_of_run {m : SourceMap} {source : List Char} {r : Run} {offset : Nat}
    {before behind : List Run} (hr : r.origin = some offset)
    (hm : m.mappings = runMappings source [] (before ++ r :: behind)) :
    ⟨positionIn (textOf before) (textOf (r :: behind)),
      (LineIndex.ofText source).position offset⟩ ∈ m.mappings := by
  obtain ⟨front, hfront⟩ := exists_runMappings source [] before (r :: behind)
  rw [hm, hfront, runMappings, hr]
  exact List.mem_append_right _ List.mem_cons_self

end Islands
