import Islands.Registry.Path

/-!
# The normal form of a path

The segments of a path are taken one after the other, and what is left of them are names, below
which there are some `..` unless the path is absolute (`Stacked`). A path that is written with such
segments keeps all of them, so normal forms are exactly the paths that stay as they are.

* `stacked_step`, `stacked_foldl`: one segment, and a list of them.
* `isNormal_normalForm`, `normalForm_of_isNormal`: the normal form of a path, and that of a normal
  form.
* `normalForm_of_idle`: segments that change nothing may stand between two parts of a path.
* `normalForm_canonical`: what a normal form is, and the detours that it does not show.
-/

namespace Islands.Path

/-! ## Segments -/

/-- A segment that is the name of something in a directory. -/
structure IsName (s : List Char) : Prop where
  ne_nil : s ≠ []
  ne_here : s ≠ ['.']
  ne_up : s ≠ ['.', '.']
  slash : '/' ∉ s
  backslash : '\\' ∉ s

theorem segments_of_backslash_not_mem {cs : List Char} (h : '\\' ∉ cs) :
    segments cs = cs.splitOn '/' := by
  have hmap : (cs.map fun c => if c = '\\' then '/' else c) = cs.map id := by
    refine List.map_congr_left fun c hc => if_neg ?_
    rintro rfl
    exact h hc
  rw [segments, hmap, List.map_id]

theorem segments_of_not_mem {s : List Char} (hslash : '/' ∉ s) (hback : '\\' ∉ s) :
    segments s = [s] := by
  rw [segments_of_backslash_not_mem hback, List.splitOn_eq_singleton hslash]

theorem segments_append {c : Char} (hc : c = '/' ∨ c = '\\') (a b : List Char) :
    segments (a ++ c :: b) = segments a ++ segments b := by
  have hmap : (if c = '\\' then '/' else c) = '/' := by
    rcases hc with rfl | rfl <;> rfl
  rw [segments, List.map_append, List.map_cons, hmap, List.splitOn_append_cons_self]
  rfl

theorem segments_cons {c : Char} (hslash : c ≠ '/') (hback : c ≠ '\\') (cs : List Char) :
    segments (c :: cs) = (segments cs).modifyHead (c :: ·) := by
  rw [segments, List.map_cons, if_neg hback, List.splitOn_cons_eq_if_modifyHead,
    if_neg (by simpa using hslash)]
  rfl

theorem mem_of_mem_segments {cs s : List Char} (hs : s ∈ segments cs) {c : Char} (hc : c ∈ s) :
    c ∈ cs ∧ c ≠ '/' ∧ c ≠ '\\' := by
  induction cs generalizing s with
  | nil =>
    obtain rfl := List.mem_singleton.1 hs
    cases hc
  | cons d cs ih =>
    by_cases hd : d = '/' ∨ d = '\\'
    · have hsplit : segments (d :: cs) = [] :: segments cs := segments_append hd [] cs
      rw [hsplit] at hs
      rcases List.mem_cons.1 hs with rfl | hs
      · cases hc
      · obtain ⟨hmem, hsep⟩ := ih hs hc
        exact ⟨List.mem_cons_of_mem _ hmem, hsep⟩
    · rw [not_or] at hd
      rw [segments_cons hd.1 hd.2] at hs
      cases hrest : segments cs with
      | nil =>
        rw [hrest] at hs
        cases hs
      | cons t ts =>
        rw [hrest] at hs ih
        rcases List.mem_cons.1 hs with rfl | hs
        · rcases List.mem_cons.1 hc with rfl | hc
          · exact ⟨List.mem_cons_self, hd⟩
          · obtain ⟨hmem, hsep⟩ := ih List.mem_cons_self hc
            exact ⟨List.mem_cons_of_mem _ hmem, hsep⟩
        · obtain ⟨hmem, hsep⟩ := ih (List.mem_cons_of_mem _ hs) hc
          exact ⟨List.mem_cons_of_mem _ hmem, hsep⟩

/-! ## One segment after the other -/

/-- The segments so far, the last one first: names, and below them, unless the path is absolute,
some `..`. -/
def Stacked (absolute : Bool) (done : List (List Char)) : Prop :=
  ∃ names ups, done = names ++ List.replicate ups ['.', '.'] ∧ (∀ s ∈ names, IsName s) ∧
    (absolute = true → ups = 0)

section
variable {absolute : Bool} {done : List (List Char)} {s : List Char}

theorem step_name (h : IsName s) : step absolute done s = s :: done := by
  rw [step, if_neg (not_or.2 ⟨h.ne_nil, h.ne_here⟩), if_neg h.ne_up]

theorem step_up : step absolute done ['.', '.'] = goUp absolute done := by
  simp [step]

theorem goUp_name (h : IsName s) : goUp absolute (s :: done) = done :=
  if_neg h.ne_up

theorem stacked_nil (absolute : Bool) : Stacked absolute [] :=
  ⟨[], 0, rfl, fun _ hs => absurd hs List.not_mem_nil, fun _ => rfl⟩

theorem stacked_goUp (h : Stacked absolute done) : Stacked absolute (goUp absolute done) := by
  obtain ⟨names, ups, rfl, hnames, hups⟩ := h
  cases names with
  | cons name names =>
    rw [List.cons_append, goUp_name (hnames name List.mem_cons_self)]
    exact ⟨names, ups, rfl, fun s hs => hnames s (List.mem_cons_of_mem _ hs), hups⟩
  | nil =>
    -- there is no name to take back: `..` is kept, but not above the root
    cases absolute with
    | true =>
      obtain rfl := hups rfl
      exact ⟨[], 0, rfl, hnames, fun _ => rfl⟩
    | false =>
      refine ⟨[], ups + 1, ?_, hnames, fun h => nomatch h⟩
      cases ups <;> rfl

/-- **One segment** keeps the segments so far in order. -/
theorem stacked_step (h : Stacked absolute done) (hslash : '/' ∉ s) (hback : '\\' ∉ s) :
    Stacked absolute (step absolute done s) := by
  unfold step
  split
  · exact h
  · rename_i hidle
    rw [not_or] at hidle
    split
    · exact stacked_goUp h
    · rename_i hup
      obtain ⟨names, ups, rfl, hnames, hups⟩ := h
      refine ⟨s :: names, ups, rfl, ?_, hups⟩
      exact List.forall_mem_cons.2 ⟨⟨hidle.1, hidle.2, hup, hslash, hback⟩, hnames⟩

theorem stacked_foldl {ss : List (List Char)} (h : Stacked absolute done)
    (hss : ∀ s ∈ ss, '/' ∉ s ∧ '\\' ∉ s) : Stacked absolute (ss.foldl (step absolute) done) := by
  induction ss generalizing done with
  | nil => exact h
  | cons s ss ih =>
    rw [List.forall_mem_cons] at hss
    exact ih (stacked_step h hss.1.1 hss.1.2) hss.2

theorem foldl_step_names {names : List (List Char)} (h : ∀ s ∈ names, IsName s) :
    names.foldl (step absolute) done = names.reverse ++ done := by
  induction names generalizing done with
  | nil => rfl
  | cons s names ih =>
    rw [List.forall_mem_cons] at h
    rw [List.foldl_cons, step_name h.1, ih h.2, List.reverse_cons, List.append_assoc,
      List.singleton_append]

theorem foldl_step_ups (k : Nat) :
    (List.replicate k ['.', '.']).foldl (step false) [] = List.replicate k ['.', '.'] := by
  induction k with
  | zero => rfl
  | succ k ih =>
    rw [List.replicate_succ', List.foldl_append, ih, ← List.replicate_succ', List.foldl_cons,
      List.foldl_nil, step_up, List.replicate_succ]
    cases k <;> rfl

end

/-! ## What is left -/

/-- The segments of a normal form: names, and in front of them, unless the path is absolute, some
`..`. -/
def IsResolved (absolute : Bool) (ss : List (List Char)) : Prop :=
  ∃ ups names, ss = List.replicate ups ['.', '.'] ++ names ∧ (∀ s ∈ names, IsName s) ∧
    (absolute = true → ups = 0)

section
variable {absolute : Bool} {ss : List (List Char)}

theorem Stacked.reverse (h : Stacked absolute ss) : IsResolved absolute ss.reverse := by
  obtain ⟨names, ups, rfl, hnames, hups⟩ := h
  refine ⟨ups, names.reverse, ?_, fun s hs => hnames s (List.mem_reverse.1 hs), hups⟩
  rw [List.reverse_append, List.reverse_replicate]

theorem isResolved_resolve (hss : ∀ s ∈ ss, '/' ∉ s ∧ '\\' ∉ s) :
    IsResolved absolute (resolve absolute ss) :=
  (stacked_foldl (stacked_nil absolute) hss).reverse

/-- Segments of a normal form are all left. -/
theorem IsResolved.resolve (h : IsResolved absolute ss) : resolve absolute ss = ss := by
  obtain ⟨ups, names, rfl, hnames, hups⟩ := h
  rw [Path.resolve, List.foldl_append, foldl_step_names hnames, List.reverse_append,
    List.reverse_reverse]
  cases absolute with
  | true =>
    obtain rfl := hups rfl
    rfl
  | false => rw [foldl_step_ups, List.reverse_replicate]

theorem IsResolved.segment (h : IsResolved absolute ss) {s : List Char} (hs : s ∈ ss) :
    s ≠ [] ∧ '/' ∉ s ∧ '\\' ∉ s := by
  obtain ⟨ups, names, rfl, hnames, -⟩ := h
  rcases List.mem_append.1 hs with hs | hs
  · obtain rfl := List.eq_of_mem_replicate hs
    decide
  · exact ⟨(hnames s hs).ne_nil, (hnames s hs).slash, (hnames s hs).backslash⟩

end

/-! ## Paths -/

/-- The path with these segments. -/
def written (absolute : Bool) (ss : List (List Char)) : List Char :=
  if absolute then '/' :: ['/'].intercalate ss else ['/'].intercalate ss

/-- A path in normal form. -/
def IsNormal (absolute : Bool) (path : List Char) : Prop :=
  ∃ ss, IsResolved absolute ss ∧ path = written absolute ss

theorem toList_normalForm (p : String) :
    (normalForm p).toList =
      written (isAbsolute p.toList) (resolve (isAbsolute p.toList) (segments p.toList)) :=
  String.toList_ofList

section
variable {absolute : Bool} {ss : List (List Char)}

theorem mem_intercalate {c : Char} (h : c ∈ ['/'].intercalate ss) :
    c = '/' ∨ ∃ s ∈ ss, c ∈ s := by
  induction ss with
  | nil => exact absurd h List.not_mem_nil
  | cons s ss ih =>
    cases ss with
    | nil =>
      rw [List.intercalate_singleton] at h
      exact .inr ⟨s, List.mem_cons_self, h⟩
    | cons t ss =>
      rw [List.intercalate_cons_cons, List.append_assoc, List.singleton_append, List.mem_append,
        List.mem_cons] at h
      rcases h with h | h | h
      · exact .inr ⟨s, List.mem_cons_self, h⟩
      · exact .inl h
      · exact (ih h).imp_right fun ⟨t, ht, hc⟩ => ⟨t, List.mem_cons_of_mem _ ht, hc⟩

theorem segments_intercalate (hss : ∀ s ∈ ss, '/' ∉ s ∧ '\\' ∉ s) (hne : ss ≠ []) :
    segments (['/'].intercalate ss) = ss := by
  have hback : '\\' ∉ ['/'].intercalate ss := fun h =>
    (mem_intercalate h).elim (by decide) fun ⟨s, hs, hmem⟩ => (hss s hs).2 hmem
  rw [segments_of_backslash_not_mem hback,
    List.splitOn_intercalate '/' (fun s hs => (hss s hs).1) hne]

theorem resolve_segments_written (hss : ∀ s ∈ ss, '/' ∉ s ∧ '\\' ∉ s) (b : Bool) :
    resolve b (segments (written absolute ss)) = resolve b ss := by
  have hjoined : resolve b (segments (['/'].intercalate ss)) = resolve b ss := by
    cases ss with
    | nil => rfl
    | cons s ss => rw [segments_intercalate hss (List.cons_ne_nil s ss)]
  cases absolute with
  | false => exact hjoined
  | true =>
    have hroot : segments ('/' :: ['/'].intercalate ss) =
        [] :: segments (['/'].intercalate ss) := segments_append (.inl rfl) [] _
    rw [← hjoined, written, if_pos rfl, hroot]
    rfl

theorem isAbsolute_written (h : IsResolved absolute ss) :
    isAbsolute (written absolute ss) = absolute := by
  cases absolute with
  | true => rfl
  | false =>
    cases ss with
    | nil => rfl
    | cons s ss =>
      obtain ⟨hne, hslash, hback⟩ := h.segment List.mem_cons_self
      obtain ⟨c, s, rfl⟩ := List.exists_cons_of_ne_nil hne
      rw [List.mem_cons, not_or] at hslash hback
      have hfirst : ∃ rest, ['/'].intercalate ((c :: s) :: ss) = c :: rest := by
        cases ss with
        | nil => exact ⟨s, List.intercalate_singleton⟩
        | cons t ss => exact ⟨_, List.intercalate_cons_cons⟩
      obtain ⟨rest, hrest⟩ := hfirst
      rw [written, if_neg Bool.false_ne_true, hrest, isAbsolute, Bool.or_eq_false_iff]
      exact ⟨beq_false_of_ne (Ne.symm hslash.1), beq_false_of_ne (Ne.symm hback.1)⟩

end

/-- **The normal form** of a path is one, and is absolute if the path is. -/
theorem isNormal_normalForm (p : String) :
    IsNormal (isAbsolute p.toList) (normalForm p).toList := by
  refine ⟨_, isResolved_resolve fun s hs => ?_, toList_normalForm p⟩
  exact ⟨fun hmem => (mem_of_mem_segments hs hmem).2.1 rfl,
    fun hmem => (mem_of_mem_segments hs hmem).2.2 rfl⟩

/-- **A path in normal form** stays as it is. -/
theorem normalForm_of_isNormal {absolute : Bool} {p : String} (h : IsNormal absolute p.toList) :
    normalForm p = p := by
  obtain ⟨ss, hss, hp⟩ := h
  refine String.toList_inj.1 ?_
  rw [toList_normalForm, hp, isAbsolute_written hss,
    resolve_segments_written fun s hs => (hss.segment hs).2, hss.resolve]

@[simp] theorem normalForm_normalForm (p : String) : normalForm (normalForm p) = normalForm p :=
  normalForm_of_isNormal (isNormal_normalForm p)

theorem isAbsolute_iff {cs : List Char} :
    isAbsolute cs = true ↔ cs.head? = some '/' ∨ cs.head? = some '\\' := by
  cases cs with
  | nil => simp [isAbsolute]
  | cons c cs => simp [isAbsolute]

theorem IsNormal.head? {absolute : Bool} {path : List Char} (h : IsNormal absolute path) :
    path.head? = some '/' ↔ absolute = true := by
  obtain ⟨ss, hss, rfl⟩ := h
  constructor
  · intro hslash
    rw [← isAbsolute_written hss]
    exact isAbsolute_iff.2 (.inl hslash)
  · rintro rfl
    rfl

/-! ## What is kept of a path -/

section
variable {absolute : Bool} {ss done : List (List Char)} {s : List Char}

theorem mem_of_mem_goUp (h : s ∈ goUp absolute done) : s ∈ done ∨ s = ['.', '.'] := by
  unfold goUp at h
  split at h
  · split at h
    · cases h
    · exact .inr (List.mem_singleton.1 h)
  · split at h
    · split at h
      · exact .inl h
      · exact (List.mem_cons.1 h).symm
    · exact .inl (List.mem_cons_of_mem _ h)

theorem mem_of_mem_step {t : List Char} (h : s ∈ step absolute done t) : s ∈ done ∨ s = t := by
  unfold step at h
  split at h
  · exact .inl h
  · split at h
    · rename_i hup
      rw [hup]
      exact mem_of_mem_goUp h
    · exact (List.mem_cons.1 h).symm

theorem mem_of_mem_resolve (h : s ∈ resolve absolute ss) : s ∈ ss := by
  have hfold : ∀ done, s ∈ ss.foldl (step absolute) done → s ∈ done ∨ s ∈ ss := by
    clear h
    induction ss with
    | nil => exact fun _ h => .inl h
    | cons t ss ih =>
      intro done h
      rcases ih _ h with h | h
      · rcases mem_of_mem_step h with h | rfl
        · exact .inl h
        · exact .inr List.mem_cons_self
      · exact .inr (List.mem_cons_of_mem _ h)
  exact (hfold [] (List.mem_reverse.1 h)).resolve_left List.not_mem_nil

theorem mem_written {c : Char} (h : c ∈ written absolute ss) : c = '/' ∨ ∃ s ∈ ss, c ∈ s := by
  cases absolute with
  | false => exact mem_intercalate h
  | true => exact (List.mem_cons.1 h).elim .inl mem_intercalate

theorem suffix_written (ss : List (List Char)) (s : List Char) :
    s <:+ written absolute (ss ++ [s]) := by
  have hjoined : s <:+ ['/'].intercalate (ss ++ [s]) := by
    induction ss with
    | nil => simp
    | cons t ss ih =>
      rw [List.cons_append, List.intercalate_cons_of_ne_nil (by simp)]
      exact ih.trans (List.suffix_append _ _)
  cases absolute with
  | false => exact hjoined
  | true => exact hjoined.trans (List.suffix_cons _ _)

/-- The end of a path that has no separators is the end of its last segment. -/
theorem exists_segments_append {v : List Char} (hslash : '/' ∉ v) (hback : '\\' ∉ v)
    (u : List Char) : ∃ front w, segments (u ++ v) = front ++ [w ++ v] := by
  induction u with
  | nil => exact ⟨[], [], segments_of_not_mem hslash hback⟩
  | cons c u ih =>
    obtain ⟨front, w, ih⟩ := ih
    by_cases hc : c = '/' ∨ c = '\\'
    · refine ⟨[] :: front, w, ?_⟩
      rw [List.cons_append, List.cons_append, ← ih]
      exact segments_append hc [] _
    · rw [not_or] at hc
      rw [List.cons_append, segments_cons hc.1 hc.2, ih]
      cases front with
      | nil => exact ⟨[], c :: w, rfl⟩
      | cons t front => exact ⟨(c :: t) :: front, w, rfl⟩

end

theorem mem_of_mem_normalForm {p : String} {c : Char} (h : c ∈ (normalForm p).toList) :
    c = '/' ∨ c ∈ p.toList := by
  rw [toList_normalForm] at h
  refine (mem_written h).imp_right fun ⟨s, hs, hc⟩ => ?_
  exact (mem_of_mem_segments (mem_of_mem_resolve hs) hc).1

/-- **The end of a path** is that of its normal form, if it has no separators and is too long to be
a `.` or `..`. -/
theorem suffix_normalForm {p : String} {v : List Char} (hslash : '/' ∉ v) (hback : '\\' ∉ v)
    (hlong : 2 < v.length) (h : v <:+ p.toList) : v <:+ (normalForm p).toList := by
  obtain ⟨u, hu⟩ := h
  obtain ⟨front, w, hsegments⟩ := exists_segments_append hslash hback u
  have hname : IsName (w ++ v) := by
    have hlength : 2 < (w ++ v).length := by
      rw [List.length_append]
      omega
    have hmem : w ++ v ∈ segments (u ++ v) := by
      rw [hsegments]
      exact List.mem_append_right _ List.mem_cons_self
    refine ⟨?_, ?_, ?_, fun hc => (mem_of_mem_segments hmem hc).2.1 rfl,
      fun hc => (mem_of_mem_segments hmem hc).2.2 rfl⟩
    all_goals
      intro hshort
      rw [hshort] at hlength
      exact absurd hlength (by decide)
  rw [toList_normalForm, ← hu, hsegments, resolve, List.foldl_append, List.foldl_cons,
    List.foldl_nil, step_name hname, List.reverse_cons]
  exact (List.suffix_append w v).trans (suffix_written _ _)

/-! ## Detours -/

/-- Where a path starts is decided in front of its first separator. -/
theorem isAbsolute_append {c : Char} (hc : c = '/' ∨ c = '\\') (a b : List Char) :
    isAbsolute (a ++ c :: b) = (a.isEmpty || isAbsolute a) := by
  cases a with
  | nil => rcases hc with rfl | rfl <;> rfl
  | cons d a => rfl

/-- **Idle segments** between two parts of a path do not show in its normal form. -/
theorem normalForm_of_idle {p q path : String} {c : Char} (rest : List Char)
    (idle : List (List Char)) (hc : c = '/' ∨ c = '\\')
    (hpath : path.toList = p.toList ++ c :: rest)
    (hrest : segments rest = idle ++ segments q.toList)
    (hidle : ∀ absolute done, idle.foldl (step absolute) done = done) :
    normalForm path = normalForm (p ++ "/" ++ q) := by
  have hjoined : (p ++ "/" ++ q).toList = p.toList ++ '/' :: q.toList := by
    simp [String.toList_append]
  refine String.toList_inj.1 ?_
  rw [toList_normalForm, toList_normalForm, hpath, hjoined, isAbsolute_append hc,
    isAbsolute_append (.inl rfl), segments_append hc, segments_append (.inl rfl), hrest, resolve,
    resolve, List.foldl_append, List.foldl_append, hidle, List.foldl_append]

/-- **Canonical paths.** The normal form of a path begins with a slash if the path begins with a
separator, and idle segments do not show in it: a name with `..` behind it, a `.`, a second slash,
or a backslash for a slash, wherever it stands. The normal form of a normal form is the same. -/
theorem normalForm_canonical (p : String) :
    (∃ absolute, IsNormal absolute (normalForm p).toList) ∧
    ((normalForm p).toList.head? = some '/' ↔
      p.toList.head? = some '/' ∨ p.toList.head? = some '\\') ∧
    normalForm (normalForm p) = normalForm p ∧
    ∀ q s : String, IsName s.toList →
      normalForm (p ++ "/" ++ s ++ "/../" ++ q) = normalForm (p ++ "/" ++ q) ∧
      normalForm (p ++ "/./" ++ q) = normalForm (p ++ "/" ++ q) ∧
      normalForm (p ++ "//" ++ q) = normalForm (p ++ "/" ++ q) ∧
      normalForm (p ++ "\\" ++ q) = normalForm (p ++ "/" ++ q) := by
  have hnormal := isNormal_normalForm p
  refine ⟨⟨_, hnormal⟩, hnormal.head?.trans isAbsolute_iff, normalForm_normalForm p,
    fun q s hs => ⟨?_, ?_, ?_, ?_⟩⟩
  · refine normalForm_of_idle (s.toList ++ '/' :: (['.', '.'] ++ '/' :: q.toList))
      [s.toList, ['.', '.']] (.inl rfl) (by simp [String.toList_append]) ?_ fun absolute done => ?_
    · rw [segments_append (.inl rfl), segments_append (.inl rfl),
        segments_of_not_mem hs.slash hs.backslash]
      rfl
    · rw [List.foldl_cons, List.foldl_cons, List.foldl_nil, step_name hs, step_up, goUp_name hs]
  · exact normalForm_of_idle (['.'] ++ '/' :: q.toList) [['.']] (.inl rfl)
      (by simp [String.toList_append]) (segments_append (.inl rfl) ['.'] _) fun _ _ => rfl
  · exact normalForm_of_idle ('/' :: q.toList) [[]] (.inl rfl)
      (by simp [String.toList_append]) (segments_append (.inl rfl) [] _) fun _ _ => rfl
  · exact normalForm_of_idle q.toList [] (.inr rfl) (by simp [String.toList_append]) rfl
      fun _ _ => rfl

/-- A path that goes above its start, with a detour. -/
theorem normalForm_canonical_up :
    IsName "x".toList ∧
      normalForm "../a\\.//b/x/../c" = normalForm "../a\\.//b/c" ∧
      normalForm "../a\\.//b/c" = "../a/b/c" := by
  have hname : IsName "x".toList := by constructor <;> decide
  obtain ⟨-, -, -, h⟩ := normalForm_canonical "../a\\.//b"
  obtain ⟨hup, -⟩ := h "c" "x" hname
  exact ⟨hname, hup, by decide +kernel⟩

end Islands.Path
