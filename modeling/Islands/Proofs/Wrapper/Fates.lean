import Mathlib.Data.List.Forall2
import Mathlib.Data.List.Pairwise
import Islands.Proofs.Wrapper.Contributions
import Islands.Proofs.Wrapper.Rewriting

/-!
# What becomes of each target

Whether a target can be replaced is said by its opening tag alone (`wrapFault?`). A target that can
be is replaced, whatever has been done before, and is reported once, a slot by the name that its
attributes give to it, a boundary by its address; one that cannot be is warned about and stays as it
is written (`Fates`).

* `replacement_eq_error_iff`, `record_of_replacement`: the replacement of one target.
* `replaces_of_mem_targets`: a target is a slot or a boundary.
* `fates_wrapTargets`, `fates_wrapFile`: all targets of a file.
-/

namespace Islands

open Markup ComponentFile

/-! ## One target -/

/-- Why an element cannot be replaced, if it cannot be. Only its name and its attributes count. -/
def wrapFault? (s : Shell) : Option WrapError :=
  match kindOf s with
  | .slot =>
    if SlotName.ofShell s = .dynamic "" then some (.emptyBinding ":name")
    else
      match slotData s with
      | .error cause => some cause
      | .ok _ => none
  | _ =>
    match markerExpression s with
    | .error cause => some cause
    | .ok _ => none

/-- What is reported about an element that is replaced. -/
def Site.recordOf (site : Site) (s : Shell) : Record :=
  match kindOf s with
  | .slot => .slot (SlotName.ofShell s).text
  | _ => .boundary (boundaryTarget site.id site.base s)

/-- What is to be reported about an element that is replaced: the name that its attributes give to a
slot, or the address that a boundary has in its attribute `to`. -/
inductive Site.Reports (site : Site) (e : Element) : Record → Prop
  | slot {name : String} (hkind : kindOf e.toShell = .slot)
    (h : SlotName.Calls e.attributes name) : Reports site e (.slot name)
  | boundary (hkind : kindOf e.toShell ≠ .slot) :
    Reports site e (.boundary (boundaryTarget site.id site.base e.toShell))

/-- The cause is in the opening tag: a repetition without its parts, or a bound attribute without an
expression. -/
def WrapError.IsOfTag (cause : WrapError) : Prop :=
  (∃ directive, cause = .invalidRepetition directive) ∨ ∃ name, cause = .emptyBinding name

section
variable {site : Site} {e : Element} {cause : WrapError}

/-- **What cannot be replaced** is what has a fault in its opening tag. -/
theorem replacement_eq_error_iff :
    site.replacement e = .error cause ↔ wrapFault? e.toShell = some cause := by
  unfold Site.replacement wrapFault?
  cases kindOf e.toShell with
  | slot =>
    unfold wrapSlot
    simp only
    split
    · simp [Except.map]
    · cases slotData e.toShell <;> simp [Except.map]
  | clientBoundary | plain =>
    unfold wrapBoundary
    cases markerExpression e.toShell <;> simp [Except.map]

theorem exists_replacement (site : Site) (h : wrapFault? e.toShell = none) :
    ∃ r, site.replacement e = .ok r := by
  cases hr : site.replacement e with
  | ok r => exact ⟨r, rfl⟩
  | error cause =>
    rw [replacement_eq_error_iff.1 hr] at h
    cases h

theorem record_of_replacement {r : Replacement} (h : site.replacement e = .ok r) :
    r.record = site.recordOf e.toShell := by
  unfold Site.recordOf
  rcases replacement_cases h with ⟨hkind, hrecord, -⟩ | ⟨hkind, hrecord, -⟩
  · rw [hrecord, hkind]
  · rw [hrecord]
    cases hk : kindOf e.toShell with
    | slot => exact absurd hk hkind
    | clientBoundary | plain => rfl

theorem reports_recordOf (site : Site) (e : Element) :
    site.Reports e (site.recordOf e.toShell) := by
  unfold Site.recordOf
  cases hkind : kindOf e.toShell with
  | slot => exact .slot hkind (SlotName.calls_ofShell e.toShell)
  | clientBoundary | plain => exact .boundary (by rw [hkind]; exact nofun)

/-- **A boundary's address** is the value of the attribute `to` of what replaces it. -/
theorem exists_to_of_replacement {r : Replacement} (h : site.replacement e = .ok r)
    (hkind : kindOf e.toShell = .clientBoundary) :
    ∃ rest, r.text = "<" ++ boundaryComponent ++ liftedConditions site.template e.toShell ++
      " to=" ++ quoteAttribute (boundaryTarget site.id site.base e.toShell) ++ rest := by
  rcases replacement_cases h with ⟨hslot, -⟩ | ⟨-, -, rest, htext⟩
  · rw [hkind] at hslot
    cases hslot
  · exact ⟨rest ++ ">", by rw [htext, String.append_assoc]⟩

theorem isOfTag_of_add {d : PropData} {a : Attribute} (h : d.add a = .error cause) :
    cause.IsOfTag := by
  unfold PropData.add at h
  split at h
  · cases h
  · split at h
    · cases h
    · obtain rfl := Except.error.inj h
      exact .inl ⟨_, rfl⟩
  · unfold expressionOf at h
    simp only at h
    split at h
    · obtain rfl := Except.error.inj h
      exact .inr ⟨_, rfl⟩
    · cases h
  · unfold expressionOf at h
    simp only at h
    split at h
    · obtain rfl := Except.error.inj h
      exact .inr ⟨_, rfl⟩
    · cases h
  · cases h

theorem isOfTag_of_ofAttributes {as : List Attribute} {d : PropData}
    (h : as.foldlM PropData.add d = .error cause) : cause.IsOfTag := by
  induction as generalizing d with
  | nil => cases h
  | cons a as ih =>
    rw [List.foldlM_cons] at h
    cases ha : d.add a with
    | error fault =>
      rw [ha] at h
      obtain rfl := Except.error.inj h
      exact isOfTag_of_add ha
    | ok d' =>
      rw [ha] at h
      exact ih h

/-- **The causes**: a repetition without its parts, or a bound attribute without an expression. -/
theorem isOfTag_of_wrapFault? {s : Shell} (h : wrapFault? s = some cause) : cause.IsOfTag := by
  unfold wrapFault? at h
  split at h
  · split at h
    · obtain rfl := Option.some.inj h
      exact .inr ⟨_, rfl⟩
    · split at h
      · rename_i fault hdata
        obtain rfl := Option.some.inj h
        exact isOfTag_of_ofAttributes hdata
      · cases h
  · split at h
    · rename_i fault hmarker
      obtain rfl := Option.some.inj h
      unfold markerExpression at hmarker
      split at hmarker
      · cases hmarker
      · simp only at hmarker
        split at hmarker
        · cases hmarker
        · split at hmarker
          · obtain rfl := Except.error.inj hmarker
            exact .inr ⟨_, rfl⟩
          · cases hmarker
    · cases h

end

/-! ## The targets of a template -/

mutual

theorem replaces_of_mem_targetsIn (p : Policy) :
    ∀ n : Node, ∀ e ∈ (findTargetsIn p n).targets, p.replaces (kindOf e.toShell) = true
  | .text _, _, he => nomatch he
  | .comment _, _, he => nomatch he
  | .element shell children, e, he => by
    unfold findTargetsIn at he
    split at he
    · rename_i hreplaces
      obtain rfl := List.mem_singleton.1 he
      exact hreplaces
    · have he : e ∈ [] ++ (findTargets p children).targets := he
      exact replaces_of_mem_targets p children e he

/-- **A target is of a kind that is replaced.** -/
theorem replaces_of_mem_targets (p : Policy) :
    ∀ ns : List Node, ∀ e ∈ (findTargets p ns).targets, p.replaces (kindOf e.toShell) = true
  | [], _, he => nomatch he
  | n :: ns, e, he => by
    have he : e ∈ (findTargetsIn p n).targets ++ (findTargets p ns).targets := he
    rcases List.mem_append.1 he with he | he
    · exact replaces_of_mem_targetsIn p n e he
    · exact replaces_of_mem_targets p ns e he

end

/-! ## All targets -/

/-- What becomes of the targets of a file, given its result. -/
structure Fates (site : Site) (blocks : Blocks) (found : Findings) (o : Outcome) : Prop where
  /-- The targets are in document order, one behind the other. -/
  order : Ascending 0 (byteLength site.template) (spansOf found.targets)
  /-- A target is a slot or a boundary. -/
  kinds : ∀ e ∈ found.targets, kindOf e.toShell ≠ .plain
  /-- A target without a fault is replaced, whatever has been done before. -/
  replaced : ∀ done e rest, found.targets = done ++ e :: rest → wrapFault? e.toShell = none →
    ∃ draft record, site.replace (site.after done).draft e = .ok (draft, record) ∧
      site.Reports e record
  /-- A target with a fault is not, and this is the only cause. -/
  refused : ∀ done e rest cause, found.targets = done ++ e :: rest →
    (site.replace (site.after done).draft e = .error cause ↔ wrapFault? e.toShell = some cause)
  /-- A fault is in a repetition or an empty expression. -/
  causes : ∀ s cause, wrapFault? s = some cause → cause.IsOfTag
  /-- The imports are put in. -/
  imports : ∃ draft, addImports blocks (importText site.options.runtimeUrlOrDefault)
    (site.after found.targets).draft = .ok draft
  /-- The slots that are replaced, by the names that their attributes give to them. -/
  slots : List.Forall₂ (fun e name => SlotName.Calls e.attributes name)
    (found.targets.filter fun e => (wrapFault? e.toShell).isNone && kindOf e.toShell == .slot)
    o.slots
  /-- The boundaries that are replaced, by address. -/
  boundaries : o.boundaries =
    (found.targets.filter fun e =>
      (wrapFault? e.toShell).isNone && kindOf e.toShell == .clientBoundary).map
      fun e => boundaryTarget site.id site.base e.toShell
  /-- The address of a boundary is what its replacement has in the attribute `to`. -/
  addresses : ∀ e ∈ found.targets, kindOf e.toShell = .clientBoundary →
    ∀ r, site.replacement e = .ok r → ∃ rest, r.text =
      "<" ++ boundaryComponent ++ liftedConditions site.template e.toShell ++
        " to=" ++ quoteAttribute (boundaryTarget site.id site.base e.toShell) ++ rest
  /-- One message about each target that is not replaced, and then one about the first boundary that
  is refused. -/
  diagnostics : o.diagnostics =
    (found.targets.filterMap fun e => (wrapFault? e.toShell).map (site.failure e)) ++
      (found.refused.map site.refusal).toList
  /-- A message about a target is a warning at the place of its opening tag in the file. -/
  warnings : ∀ e cause, (site.failure e cause).severity = .warning ∧
    (site.failure e cause).labels.map (·.span) = [e.openTag.shift site.base]
  /-- In the code a target that is not replaced stands as it is written. -/
  kept : ∀ code, o.code = some code →
    ∃ edits out back, ImportsAdded blocks (importText site.options.runtimeUrlOrDefault)
        (site.patches found.targets) edits ∧
      Spliced 0 site.source edits out ∧
      code.toList = textOf (frontRuns blocks (importText site.options.runtimeUrlOrDefault)) ++
        (out ++ back) ∧
      (site.options.sourceMap.isInline = false → back = []) ∧
      ∀ e ∈ found.targets, wrapFault? e.toShell ≠ none →
        ∃ a m b x y, site.source = a ++ (m ++ b) ∧
          site.place e.span = ⟨byteLength a, byteLength a + byteLength m⟩ ∧
          Copied edits a m b x y ∧ out = x ++ (m ++ y)
  /-- There is new code exactly if a target is replaced. -/
  changed : o.hasCode = true ↔ ∃ e ∈ found.targets, wrapFault? e.toShell = none
  /-- Without new code nothing is reported but messages. -/
  unchanged : o.hasCode = false → o.map = "" ∧ o.slots = [] ∧ o.boundaries = []

theorem filterMap_eq_map_filter {α β : Type} {f : α → Option β} {g : α → β} {p : α → Bool}
    {l : List α} (h : ∀ a ∈ l, f a = if p a then some (g a) else none) :
    l.filterMap f = (l.filter p).map g := by
  induction l with
  | nil => rfl
  | cons a l ih =>
    have ih := ih fun b hb => h b (List.mem_cons_of_mem _ hb)
    have ha := h a (List.mem_cons_self ..)
    cases hp : p a with
    | true =>
      rw [hp, if_pos rfl] at ha
      rw [List.filterMap_cons_some ha, List.filter_cons_of_pos hp, List.map_cons, ih]
    | false =>
      rw [hp, if_neg Bool.false_ne_true] at ha
      have hp' : ¬p a = true := by
        rw [hp]
        exact Bool.false_ne_true
      rw [List.filterMap_cons_none ha, List.filter_cons_of_neg hp', ih]

section
variable {site : Site} {blocks : Blocks} {found : Findings} {e : Element}

theorem failure?_eq (site : Site) (e : Element) :
    site.failure? e = (wrapFault? e.toShell).map (site.failure e) := by
  unfold Site.failure?
  cases hr : site.replacement e with
  | error cause => rw [replacement_eq_error_iff.1 hr, Option.map_some]
  | ok r =>
    cases hfault : wrapFault? e.toShell with
    | none => rfl
    | some cause =>
      rw [replacement_eq_error_iff.2 hfault] at hr
      cases hr

theorem record?_eq (site : Site) (e : Element) :
    site.record? e =
      if (wrapFault? e.toShell).isNone then some (site.recordOf e.toShell) else none := by
  unfold Site.record?
  cases hr : site.replacement e with
  | error cause =>
    rw [replacement_eq_error_iff.1 hr]
    rfl
  | ok r =>
    cases hfault : wrapFault? e.toShell with
    | none =>
      rw [← record_of_replacement hr]
      rfl
    | some cause =>
      rw [replacement_eq_error_iff.2 hfault] at hr
      cases hr

theorem patch?_eq_none_iff : site.patch? e = none ↔ wrapFault? e.toShell ≠ none := by
  unfold Site.patch?
  cases hfault : wrapFault? e.toShell with
  | none =>
    obtain ⟨r, hr⟩ := exists_replacement site hfault
    simp [hr]
  | some cause => simp [replacement_eq_error_iff.2 hfault]

theorem patches_ne_nil_iff (site : Site) (targets : List Element) :
    site.patches targets ≠ [] ↔ ∃ e ∈ targets, wrapFault? e.toShell = none := by
  rw [Ne, Site.patches, List.filterMap_eq_nil_iff]
  simp only [patch?_eq_none_iff, not_forall, not_not, exists_prop]

/-- A target without a fault is replaced, whatever has been done before. -/
theorem replace_of_fault_eq_none {done rest : List Element}
    (h : site.Placed blocks (done ++ e :: rest)) (hfault : wrapFault? e.toShell = none) :
    ∃ draft, site.replace (site.after done).draft e = .ok (draft, site.recordOf e.toShell) := by
  obtain ⟨r, hr⟩ := exists_replacement site hfault
  refine ⟨(site.progress (done ++ [e])).draft, ?_⟩
  unfold Site.replace
  simp only [hr, after_eq_progress h, replaceRange_progress h hr, record_of_replacement hr]

/-- A target is refused exactly for the fault that it has. -/
theorem replace_eq_error_iff {done rest : List Element} {cause : WrapError}
    (h : site.Placed blocks (done ++ e :: rest)) :
    site.replace (site.after done).draft e = .error cause ↔ wrapFault? e.toShell = some cause := by
  cases hfault : wrapFault? e.toShell with
  | none =>
    obtain ⟨draft, hdraft⟩ := replace_of_fault_eq_none h hfault
    simp [hdraft]
  | some fault => simp [Site.replace, replacement_eq_error_iff.2 hfault]

theorem slots_progress (site : Site) (targets : List Element) :
    (site.progress targets).slots =
      (targets.filter fun e => (wrapFault? e.toShell).isNone && kindOf e.toShell == .slot).map
        fun e => (SlotName.ofShell e.toShell).text := by
  show (targets.filterMap site.record?).filterMap Record.slot? = _
  rw [List.filterMap_filterMap]
  refine filterMap_eq_map_filter fun e _ => ?_
  rw [record?_eq, Site.recordOf]
  cases wrapFault? e.toShell <;> cases kindOf e.toShell <;> rfl

/-- The boundaries that are reported; no target is a plain element. -/
theorem boundaries_progress (site : Site) {targets : List Element}
    (hkinds : ∀ e ∈ targets, kindOf e.toShell ≠ .plain) :
    (site.progress targets).boundaries =
      (targets.filter fun e =>
        (wrapFault? e.toShell).isNone && kindOf e.toShell == .clientBoundary).map
        fun e => boundaryTarget site.id site.base e.toShell := by
  show (targets.filterMap site.record?).filterMap Record.boundary? = _
  rw [List.filterMap_filterMap]
  refine filterMap_eq_map_filter fun e he => ?_
  have hkind := hkinds e he
  rw [record?_eq, Site.recordOf]
  cases hk : kindOf e.toShell with
  | plain => exact absurd hk hkind
  | slot => cases wrapFault? e.toShell <;> rfl
  | clientBoundary => cases wrapFault? e.toShell <;> rfl

theorem messages_eq (site : Site) (found : Findings) :
    site.messages found =
      (found.targets.filterMap fun e => (wrapFault? e.toShell).map (site.failure e)) ++
        (found.refused.map site.refusal).toList := by
  rw [Site.messages, List.filterMap_congr fun e _ => failure?_eq site e]

/-! ## Targets that stay -/

/-- **A target that is not replaced** is copied. -/
theorem copied_of_fault {targets : List Element} {imports : String} {edits : List Patch}
    {out : List Char} (h : site.Placed blocks targets)
    (hedits : ImportsAdded blocks imports (site.patches targets) edits)
    (hout : Spliced 0 site.source edits out) (he : e ∈ targets)
    (hfault : wrapFault? e.toShell ≠ none) :
    ∃ a m b x y, site.source = a ++ (m ++ b) ∧
      site.place e.span = ⟨byteLength a, byteLength a + byteLength m⟩ ∧
      Copied edits a m b x y ∧ out = x ++ (m ++ y) := by
  have hlt : e.span.start < e.span.stop :=
    (h.ascending.bounds (List.mem_map_of_mem he)).2.1
  have hsource : site.source = [] ++ site.source := rfl
  obtain ⟨a, m, b, hsplit, -, ha, hm, -⟩ := (h.boundaries e he).exists_around hsource
    (Nat.zero_le _) (Nat.add_lt_add_left hlt site.base)
  rw [byteLength_nil, Nat.zero_add] at ha
  have hplace : site.place e.span = ⟨byteLength a, byteLength a + byteLength m⟩ := by
    rw [ha, hm]
  have hne : m ≠ [] := by
    rintro rfl
    rw [byteLength_nil, Nat.add_zero] at hm
    exact absurd hm (Nat.ne_of_lt (Nat.add_lt_add_left hlt site.base))
  have hordered : targets.Pairwise fun c d => c.span.stop ≤ d.span.start :=
    List.pairwise_map.1 h.ascending.pairwise
  have hapart : targets.Pairwise fun c d =>
      c.span.stop ≤ d.span.start ∨ d.span.stop ≤ c.span.start := hordered.imp Or.inl
  have hsymm : Std.Symm fun c d : Element =>
      c.span.stop ≤ d.span.start ∨ d.span.stop ≤ c.span.start := ⟨fun _ _ => Or.symm⟩
  have houtside : ∀ p ∈ edits,
      p.range.stop ≤ byteLength a ∨ byteLength a + byteLength m ≤ p.range.start := by
    intro p hp
    rw [ha, hm]
    rcases mem_of_importsAdded hedits hp with hp | ⟨s, hs, rfl⟩
    · -- the patch of another target
      obtain ⟨d, hd, hpatch⟩ := List.mem_filterMap.1 hp
      have hde : d ≠ e := by
        rintro rfl
        rw [patch?_eq_none_iff.2 hfault] at hpatch
        cases hpatch
      rw [range_of_patch? hpatch]
      rcases hapart.forall hd he hde with hle | hle
      · exact .inl (Nat.add_le_add_left hle site.base)
      · exact .inr (Nat.add_le_add_left hle site.base)
    · -- the imports
      obtain ⟨hstart, -, hstop⟩ := h.ascending.bounds (List.mem_map_of_mem he)
      rcases (h.script s hs).2 with hle | hle
      · exact .inl (Nat.le_trans hle (Nat.le_add_right _ _))
      · exact .inr (Nat.le_trans (Nat.add_le_add_left hstop site.base) hle)
  rw [hsplit] at hout
  obtain ⟨x, y, hcopied⟩ := exists_copied hout hne houtside
  exact ⟨a, m, b, x, y, hsplit, hplace, hcopied, hcopied.eq hout⟩

/-! ## Files -/

theorem reports_wrapTargets (hplaced : site.Placed blocks found.targets) :
    (wrapTargets site blocks found).diagnostics = site.messages found ∧
      (wrapTargets site blocks found).slots = (site.progress found.targets).slots ∧
      (wrapTargets site blocks found).boundaries = (site.progress found.targets).boundaries := by
  rcases wrapTargets_cases hplaced with ⟨hnil, hout⟩ | ⟨-, draft, -, hout⟩
  · have hnone : found.targets.filterMap site.record? = [] := by
      rw [List.filterMap_eq_nil_iff]
      intro e he
      have hfault := patch?_eq_none_iff.1 (List.filterMap_eq_nil_iff.1 hnil e he)
      rw [record?_eq, if_neg (by rwa [Option.isNone_iff_eq_none])]
    rw [hout]
    simp [Outcome.asIs, Site.progress, hnone]
  · rw [hout]
    exact ⟨rfl, rfl, rfl⟩

theorem hasCode_wrapTargets (hplaced : site.Placed blocks found.targets) :
    (wrapTargets site blocks found).hasCode = true ↔
      ∃ e ∈ found.targets, wrapFault? e.toShell = none := by
  rw [← patches_ne_nil_iff site]
  rcases wrapTargets_cases hplaced with ⟨hnil, hout⟩ | ⟨hne, draft, -, hout⟩
  · simp [hout, hnil, Outcome.hasCode, Outcome.asIs]
  · simp [hout, hne, Outcome.hasCode]

theorem kept_wrapTargets {code : String} (hplaced : site.Placed blocks found.targets)
    (hcode : (wrapTargets site blocks found).code = some code) :
    ∃ edits out back, ImportsAdded blocks (importText site.options.runtimeUrlOrDefault)
        (site.patches found.targets) edits ∧
      Spliced 0 site.source edits out ∧
      code.toList = textOf (frontRuns blocks (importText site.options.runtimeUrlOrDefault)) ++
        (out ++ back) ∧
      (site.options.sourceMap.isInline = false → back = []) ∧
      ∀ e ∈ found.targets, wrapFault? e.toShell ≠ none →
        ∃ a m b x y, site.source = a ++ (m ++ b) ∧
          site.place e.span = ⟨byteLength a, byteLength a + byteLength m⟩ ∧
          Copied edits a m b x y ∧ out = x ++ (m ++ y) := by
  obtain ⟨edits, rs, back, -, hedits, hlaid, -, -, hlist, hback, -⟩ :=
    exists_code_wrapTargets hplaced hcode
  exact ⟨edits, textOf rs, back, hedits, hlaid.spliced, hlist, hback,
    fun e he hfault => copied_of_fault hplaced hedits hlaid.spliced he hfault⟩

/-- **What becomes of targets** that are known. -/
theorem fates_wrapTargets (hplaced : site.Placed blocks found.targets)
    (hkinds : ∀ e ∈ found.targets, kindOf e.toShell ≠ .plain) :
    Fates site blocks found (wrapTargets site blocks found) := by
  have hall : site.Placed blocks (found.targets ++ []) := by rwa [List.append_nil]
  obtain ⟨hdiagnostics, hslots, hboundaries⟩ := reports_wrapTargets hplaced
  have hchanged := hasCode_wrapTargets hplaced
  refine
    { order := hplaced.ascending
      kinds := hkinds
      replaced := fun done e rest hsplit hfault => by
        obtain ⟨draft, hdraft⟩ := replace_of_fault_eq_none (hsplit ▸ hplaced) hfault
        exact ⟨draft, _, hdraft, reports_recordOf site e⟩
      refused := fun done e rest cause hsplit => replace_eq_error_iff (hsplit ▸ hplaced)
      causes := fun s cause hfault => isOfTag_of_wrapFault? hfault
      imports := ?_
      slots := by
        rw [hslots, slots_progress, List.forall₂_map_right_iff, List.forall₂_same]
        exact fun e _ => SlotName.calls_ofShell e.toShell
      boundaries := hboundaries.trans (boundaries_progress site hkinds)
      addresses := fun e _ hkind r hr => exists_to_of_replacement hr hkind
      diagnostics := hdiagnostics.trans (messages_eq site found)
      warnings := fun e cause => ⟨rfl, rfl⟩
      kept := fun code hcode => kept_wrapTargets hplaced hcode
      changed := hchanged
      unchanged := fun hnone => ?_ }
  · rw [after_eq_progress hall]
    exact exists_addImports _ hplaced
  · rcases wrapTargets_cases hplaced with ⟨-, hout⟩ | ⟨-, draft, -, hout⟩
    · rw [hout]
      exact ⟨rfl, rfl, rfl⟩
    · rw [hout] at hnone
      cases hnone

/-- **What becomes of the targets of a file** whose template can be read and is not passed over. -/
theorem fates_wrapFile {id source : String} {options : Options} {t : TemplateBlock}
    {nodes : List Node} (ht : (Blocks.ofSource source.toList).template = some t)
    (hparse : parse (t.content.cut source.toList) = .ok nodes)
    (hlook : mayContainTargets (t.content.cut source.toList) = true) :
    Fates (siteOf id source options t) (Blocks.ofSource source.toList)
      (findTargets options.policy nodes) (wrapFile id source options) := by
  rw [wrapFile_eq_wrapTargets ht hparse hlook]
  refine fates_wrapTargets (placed_targets ht hparse) fun e he hplain => ?_
  have hreplaces := replaces_of_mem_targets options.policy nodes e he
  rw [hplain] at hreplaces
  cases hreplaces

end

/-- A file with a boundary, a slot whose name is empty, and a slot. -/
def mixedTargets : String :=
  "<template><p island-client/><slot :name=''/><slot name=a /></template>"

/-- Of its targets the first and the last one are replaced. -/
theorem fates_wrapFile_mixed :
    ∃ t nodes, (Blocks.ofSource mixedTargets.toList).template = some t ∧
      parse (t.content.cut mixedTargets.toList) = .ok nodes ∧
      mayContainTargets (t.content.cut mixedTargets.toList) = true ∧
      Fates (siteOf "a.vue" mixedTargets { clientBoundaries := true } t)
        (Blocks.ofSource mixedTargets.toList)
        (findTargets (Options.policy { clientBoundaries := true }) nodes)
        (wrapFile "a.vue" mixedTargets { clientBoundaries := true }) ∧
      (findTargets (Options.policy { clientBoundaries := true }) nodes).targets.map
        (fun e => wrapFault? e.toShell) = [none, some (.emptyBinding ":name"), none] := by
  have ht : (Blocks.ofSource mixedTargets.toList).template = some ⟨⟨0, 70⟩, ⟨10, 59⟩⟩ := by
    decide +kernel
  have hparse : parse (Span.cut ⟨10, 59⟩ mixedTargets.toList) = .ok
      [.element ⟨"p", [⟨"island-client", none, ⟨3, 16⟩⟩], ⟨0, 18⟩, none⟩ [],
        .element ⟨"slot", [⟨":name", some "", ⟨24, 32⟩⟩], ⟨18, 34⟩, none⟩ [],
        .element ⟨"slot", [⟨"name", some "a", ⟨40, 46⟩⟩], ⟨34, 49⟩, none⟩ []] := by
    decide +kernel
  have hlook : mayContainTargets (Span.cut ⟨10, 59⟩ mixedTargets.toList) = true := by
    decide +kernel
  exact ⟨_, _, ht, hparse, hlook, fates_wrapFile ht hparse hlook, by decide +kernel⟩

end Islands
