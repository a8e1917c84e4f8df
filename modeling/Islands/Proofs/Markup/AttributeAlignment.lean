import Islands.Proofs.Markup.Decoding
import Islands.Proofs.Markup.Outline

/-!
# Reading the same attributes from the same text

Attributes that are read from a text are compared with pieces that make up the same text and mean
the same. The two divide the text at the same places (`attributes_alignment`): where the reader
first went on too far, in a bare value, it has passed over the beginning of the next attribute. From
then on it owes an attribute (`Behind`), and it never makes up for that (`Behind.step`), so it does
not give as many attributes as there should be.
-/

namespace Islands.Markup

/-! ## Runs -/

/-- Two divisions behind the longest beginning of one class are the same. -/
theorem append_inj_of_run {p : Char → Bool} {a b x y : List Char} (h : a ++ b = x ++ y)
    (ha : ∀ c ∈ a, p c = true) (hx : ∀ c ∈ x, p c = true)
    (hb : ∀ c, b.head? = some c → p c = false) (hy : ∀ c, y.head? = some c → p c = false) :
    a = x ∧ b = y := by
  have h₁ := takeWhile_dropWhile_eq_iff.2 ⟨(rfl : a ++ b = a ++ b), ha, hb⟩
  have h₂ := takeWhile_dropWhile_eq_iff.2 ⟨h, hx, hy⟩
  exact ⟨h₁.1.symm.trans h₂.1, h₁.2.symm.trans h₂.2⟩

/-- What is free of a character is a beginning of what stands before that character. -/
theorem exists_append_of_not_mem {d : Char} {x b gap rest : List Char}
    (h : x ++ b = gap ++ d :: rest) (hd : d ∉ x) : ∃ m, gap = x ++ m := by
  rcases List.append_eq_append_iff.1 h with ⟨m, hm, -⟩ | ⟨m, rfl, hm⟩
  · exact ⟨m, hm⟩
  · cases m with
    | nil => exact ⟨[], by simp⟩
    | cons e m =>
      obtain ⟨rfl, -⟩ := List.cons.inj hm
      exact absurd (List.mem_append_right _ (List.mem_cons_self ..)) hd

theorem eq_slash_of_isGapChar {c : Char} (hgap : isGapChar c = true) (htail : isTailChar c = true) :
    c = '/' := by
  simp only [isGapChar, Bool.or_eq_true, beq_iff_eq] at hgap
  rcases hgap with h | h
  · simp [isTailChar, h] at htail
  · exact h

/-! ## What attributes begin with -/

/-- What is written of an assignment, if there is one. -/
def WrittenAttribute.assigned (a : WrittenAttribute) : List Char :=
  (a.assignment.map Assignment.written).getD []

theorem writtenAttributes_cons_append (a : WrittenAttribute) (as : List WrittenAttribute)
    (rest : List Char) :
    writtenAttributes (a :: as) ++ rest =
      a.lead ++ (a.name ++ (a.assigned ++ (writtenAttributes as ++ rest))) := by
  simp [WrittenAttribute.core, WrittenAttribute.assigned]

theorem WrittenAttribute.Sound.head?_name {a : WrittenAttribute} (h : a.Sound) {rest : List Char}
    {c : Char} (hc : (a.name ++ rest).head? = some c) : isGapChar c = false := by
  obtain ⟨d, tail, hname, hd, -, -⟩ := h.name
  rw [hname] at hc
  exact not_of_head?_cons hd c hc

theorem WrittenAttribute.Sound.name_ne_nil {a : WrittenAttribute} (h : a.Sound) : a.name ≠ [] := by
  obtain ⟨c, tail, hname, -⟩ := h.name
  rw [hname]
  exact List.cons_ne_nil c tail

theorem WrittenAttribute.Sound.not_blank_of_mem_name {a : WrittenAttribute} (h : a.Sound) :
    ∀ c ∈ a.name, isBlank c = false := by
  obtain ⟨c, tail, hname, hc, -, htail⟩ := h.name
  rw [hname, List.forall_mem_cons]
  simp only [isGapChar, Bool.or_eq_false_iff] at hc
  refine ⟨hc.1, fun d hd => ?_⟩
  have hd := htail d hd
  simp only [isTailChar, Bool.not_eq_true', Bool.or_eq_false_iff] at hd
  exact hd.1.1

theorem not_blank_of_isBareChar {c : Char} (h : isBareChar c = true) : isBlank c = false := by
  simp only [isBareChar, Bool.not_eq_true', Bool.or_eq_false_iff] at h
  exact h.1

theorem WrittenAttribute.Sound.isTailChar_name {a : WrittenAttribute} (h : a.Sound)
    {x y : List Char} (hx : x ≠ []) (hname : a.name = x ++ y) : ∀ c ∈ y, isTailChar c = true := by
  obtain ⟨d, tail, hd, -, -, htail⟩ := h.name
  cases x with
  | nil => exact absurd rfl hx
  | cons e x =>
    obtain ⟨-, rfl⟩ := List.cons.inj (hd.symm.trans hname)
    exact fun c hc => htail c (List.mem_append_right _ hc)

theorem writtenAttributes_ne_end {as : List WrittenAttribute} (hne : as ≠ [])
    (hs : ∀ a ∈ as, a.Sound) {gap : List Char} (hgap : ∀ c ∈ gap, isGapChar c = true)
    (rest rest' : List Char) : writtenAttributes as ++ rest ≠ gap ++ '>' :: rest' := by
  intro h
  obtain ⟨a, as, rfl⟩ := List.exists_cons_of_ne_nil hne
  have ha := hs a (List.mem_cons_self ..)
  rw [writtenAttributes_cons_append] at h
  obtain ⟨-, h⟩ := append_inj_of_run h ha.lead hgap (fun c hc => ha.head?_name hc)
    (not_of_head?_cons rfl)
  obtain ⟨c, tail, hname, -, hgt, -⟩ := ha.name
  rw [hname] at h
  exact hgt (List.cons.inj h).1

theorem not_name_of_runEnds {as : List WrittenAttribute} (hne : as ≠ []) (hs : ∀ a ∈ as, a.Sound)
    {rest x y : List Char} (hends : runEnds isTailChar [] (writtenAttributes as ++ rest) = true)
    (hx : ∀ c ∈ x, isTailChar c = true) (h : writtenAttributes as ++ rest = x ++ y) : x = [] := by
  rcases runEnds_iff.1 hends with h' | ⟨rest', h'⟩ | ⟨c, rest', h', hc, -⟩
  · rw [h'] at h
    exact (List.nil_eq_append_iff.1 h).1
  · have hgap : ∀ c ∈ ['/'], isGapChar c = true := fun c hc => by
      obtain rfl := List.mem_singleton.1 hc
      rfl
    exact absurd h' (writtenAttributes_ne_end hne hs hgap rest rest')
  · cases x with
    | nil => rfl
    | cons d x =>
      obtain ⟨rfl, -⟩ := List.cons.inj (h'.symm.trans h)
      rw [hx c (List.mem_cons_self ..)] at hc
      cases hc

/-- An `=` behind blanks at the start of attributes is the beginning of a name. -/
theorem head?_name_of_equals {a : WrittenAttribute} (h : a.Sound) {rest : List Char}
    (heq : ((a.lead ++ (a.name ++ rest)).dropWhile isBlank).head? = some '=') :
    a.name.head? = some '=' := by
  rw [List.dropWhile_append] at heq
  split at heq
  · obtain ⟨c, tail, hname, hc, -, -⟩ := h.name
    have hblank : isBlank c = false := by
      simp only [isGapChar, Bool.or_eq_false_iff] at hc
      exact hc.1
    rw [hname, List.cons_append, List.dropWhile_cons_of_neg (by simp [hblank])] at heq
    rw [hname]
    exact heq
  · rename_i hne
    cases hlead : a.lead.dropWhile isBlank with
    | nil => simp [hlead] at hne
    | cons c tail =>
      rw [hlead] at heq
      obtain rfl : c = '=' := by simpa using heq
      have hmem : '=' ∈ a.lead.dropWhile isBlank := by
        rw [hlead]
        exact List.mem_cons_self ..
      have := h.lead '=' (List.dropWhile_subset _ hmem)
      cases this

theorem assignment_eq_none {t : WrittenAttribute} (ht : t.Sound) {x y rest : List Char}
    (hx : ∀ c ∈ x, isTailChar c = true) (h : t.assigned ++ rest = x ++ y)
    (hy : (y.dropWhile isBlank).head? ≠ some '=') : t.assignment = none := by
  cases hs : t.assignment with
  | none => rfl
  | some s =>
    have hb := (ht.assignment s hs).before
    rw [WrittenAttribute.assigned, hs, Option.map_some, Option.getD_some,
      Assignment.written_append] at h
    cases x with
    | nil =>
      rw [List.nil_append] at h
      rw [← h, List.dropWhile_append_of_pos hb] at hy
      exact absurd rfl hy
    | cons c x =>
      have hc := hx c (List.mem_cons_self ..)
      cases hbefore : s.before with
      | nil =>
        rw [hbefore] at h
        obtain ⟨rfl, -⟩ := List.cons.inj h
        cases hc
      | cons d before =>
        have hd := hb d (by rw [hbefore]; exact List.mem_cons_self ..)
        rw [hbefore] at h
        obtain ⟨rfl, -⟩ := List.cons.inj h
        simp [isTailChar, hd] at hc

/-! ## A reader that is behind -/

/-- A reader that goes on with the attributes `us` is inside the text of the attributes `ts`: it has
passed over the characters `passed` and owes the attributes `owed`, to which nothing is assigned. -/
structure Behind (after rest : List Char) (us ts : List WrittenAttribute) (passed : List Char)
    (owed : List (String × Option String)) : Prop where
  sound : ∀ a ∈ us, a.Sound
  joins : attributesJoin us rest = true
  text : passed ++ (writtenAttributes us ++ rest) = writtenAttributes ts ++ after
  meaning : us.map WrittenAttribute.meaning = owed ++ ts.map WrittenAttribute.meaning
  unvalued : ∀ m ∈ owed, m.2 = none
  late : owed ≠ [] ∨ passed ≠ []
  tail : ∀ c ∈ passed, isTailChar c = true
  stopped : passed ≠ [] → runEnds isTailChar [] (writtenAttributes us ++ rest) = true
  unassigned : passed ≠ [] → us ≠ [] →
    ((writtenAttributes us ++ rest).dropWhile isBlank).head? ≠ some '='
  unslashed : owed = [] → '/' ∉ passed

namespace Behind

variable {after rest passed : List Char} {us ts : List WrittenAttribute} {t : WrittenAttribute}
  {owed : List (String × Option String)}

theorem ne_nil (h : Behind after rest us (t :: ts) passed owed) : us ≠ [] := by
  rintro rfl
  have := h.meaning
  simp at this

/-- A reader that has read `n` where the name of an attribute stands, and stops behind it, owes that
attribute, which has no value then. -/
theorem of_read {n : List Char} (ht : t.Sound) (hus : ∀ a ∈ us, a.Sound)
    (hjoins : attributesJoin us rest = true) (hne : us ≠ [])
    (htext : t.name ++ (t.assigned ++ (writtenAttributes ts ++ after)) =
      n ++ (writtenAttributes us ++ rest))
    (hmeaning : us.map WrittenAttribute.meaning =
      owed ++ t.meaning :: ts.map WrittenAttribute.meaning)
    (howed : ∀ m ∈ owed, m.2 = none) (hn : n ≠ [])
    (htail : ∀ x, n = t.name ++ x → ∀ c ∈ x, isTailChar c = true)
    (hstop : runEnds isTailChar [] (writtenAttributes us ++ rest) = true)
    (hunassigned : ((writtenAttributes us ++ rest).dropWhile isBlank).head? ≠ some '=') :
    ∃ us' passed' owed', Behind after rest us' ts passed' owed' := by
  -- the reader has read at least the name that stands here, and maybe more
  obtain ⟨x, hname, hx⟩ : ∃ x, n = t.name ++ x ∧
      t.assigned ++ (writtenAttributes ts ++ after) = x ++ (writtenAttributes us ++ rest) := by
    rcases List.append_eq_append_iff.1 htext with ⟨x, hname, hx⟩ | ⟨x, hname, hx⟩
    · exact ⟨x, hname, hx⟩
    · obtain rfl := not_name_of_runEnds hne hus hstop (ht.isTailChar_name hn hname) hx
      rw [List.append_nil] at hname
      exact ⟨[], by simp [hname], by simpa using hx.symm⟩
  have hxtail := htail x hname
  have htnone := assignment_eq_none ht hxtail hx hunassigned
  rw [WrittenAttribute.assigned, htnone, Option.map_none, Option.getD_none, List.nil_append] at hx
  refine ⟨us, x, owed ++ [t.meaning], hus, hjoins, hx.symm, by simp [hmeaning], ?_,
    .inl (by simp), hxtail, fun _ => hstop, fun _ _ => hunassigned, fun h => by simp at h⟩
  intro m hm
  rcases List.mem_append.1 hm with hm | hm
  · exact howed m hm
  · obtain rfl := List.mem_singleton.1 hm
    simp [WrittenAttribute.meaning, htnone]

/-- The reader is in front of a name: it owes an attribute, which has to begin here. -/
theorem step_in_gap (h : Behind after rest us (t :: ts) passed owed) (ht : t.Sound)
    {lead : List Char} (hlead : t.lead = passed ++ lead)
    (htext : writtenAttributes us ++ rest =
      lead ++ (t.name ++ (t.assigned ++ (writtenAttributes ts ++ after)))) :
    ∃ us' passed' owed', Behind after rest us' ts passed' owed' := by
  obtain ⟨a, us, rfl⟩ := List.exists_cons_of_ne_nil h.ne_nil
  have ha := h.sound a (List.mem_cons_self ..)
  have hus : ∀ b ∈ us, b.Sound := fun b hb => h.sound b (List.mem_cons_of_mem _ hb)
  have hjoins := h.joins
  simp only [attributesJoin, Bool.and_eq_true] at hjoins
  rw [writtenAttributes_cons_append] at htext
  obtain ⟨-, htext⟩ := append_inj_of_run htext ha.lead
    (fun c hc => ht.lead c (by rw [hlead]; exact List.mem_append_right _ hc))
    (fun c hc => ha.head?_name hc) (fun c hc => ht.head?_name hc)
  cases howed : owed with
  | nil =>
    -- a gap that has been passed over is made up of slashes
    have hpassed := h.late.resolve_left fun hne => hne howed
    obtain ⟨c, tail, hc⟩ := List.exists_cons_of_ne_nil hpassed
    have hmem : c ∈ passed := by rw [hc]; exact List.mem_cons_self ..
    have hgap := ht.lead c (by rw [hlead]; exact List.mem_append_left _ hmem)
    obtain rfl := eq_slash_of_isGapChar hgap (h.tail c hmem)
    exact absurd hmem (h.unslashed howed)
  | cons m owed' =>
    have hmeaning := h.meaning
    rw [howed, List.map_cons, List.cons_append, List.map_cons] at hmeaning
    obtain ⟨hm, hmeaning⟩ := List.cons.inj hmeaning
    have hnone : a.assignment = none := by
      have := h.unvalued m (by rw [howed]; exact List.mem_cons_self ..)
      rw [← hm] at this
      exact Option.map_eq_none_iff.1 this
    have hends := hjoins.1
    rw [WrittenAttribute.ends, hnone] at hends
    simp only [Bool.and_eq_true, bne_iff_ne] at hends
    have hstop : runEnds isTailChar [] (writtenAttributes us ++ rest) = true := by
      refine runEnds_iff.2 ((runEnds_iff.1 hends.1).imp id (Or.imp id ?_))
      intro h
      obtain ⟨c, tail, e, hc, -⟩ := h
      exact ⟨c, tail, e, hc, fun _ => by simp⟩
    have hne : us ≠ [] := by
      rintro rfl
      simp at hmeaning
    rw [WrittenAttribute.assigned, hnone, Option.map_none, Option.getD_none,
      List.nil_append] at htext
    apply of_read ht hus hjoins.2 hne htext.symm hmeaning
    · intro m' hm'
      exact h.unvalued m' (by rw [howed]; exact List.mem_cons_of_mem _ hm')
    · exact ha.name_ne_nil
    · intro x hname
      exact ha.isTailChar_name ht.name_ne_nil hname
    · exact hstop
    · exact hends.2

theorem step_in_name (h : Behind after rest us (t :: ts) passed owed) (ht : t.Sound)
    {x : List Char} (hx : x ≠ []) (hpassed : passed = t.lead ++ x)
    (htext : t.name ++ (t.assigned ++ (writtenAttributes ts ++ after)) =
      x ++ (writtenAttributes us ++ rest)) :
    ∃ us' passed' owed', Behind after rest us' ts passed' owed' := by
  have hne : passed ≠ [] := by simp [hpassed, hx]
  apply of_read ht h.sound h.joins h.ne_nil htext h.meaning h.unvalued hx
  · intro y hy c hc
    have hmem : c ∈ t.name ++ y := List.mem_append_right _ hc
    rw [← hy] at hmem
    exact h.tail c (by rw [hpassed]; exact List.mem_append_right _ hmem)
  · exact h.stopped hne
  · exact h.unassigned hne h.ne_nil

/-- **One attribute further on** the reader is still behind. -/
theorem step (h : Behind after rest us (t :: ts) passed owed) (ht : t.Sound) :
    ∃ us' passed' owed', Behind after rest us' ts passed' owed' := by
  have htext := h.text
  rw [writtenAttributes_cons_append] at htext
  rcases List.append_eq_append_iff.1 htext with ⟨lead, hlead, htext⟩ | ⟨x, hpassed, htext⟩
  · exact h.step_in_gap ht hlead htext
  · by_cases hx : x = []
    · subst hx
      rw [List.append_nil] at hpassed
      have hlead : t.lead = passed ++ [] := by simp [hpassed]
      exact h.step_in_gap ht hlead (by simpa using htext.symm)
    · exact h.step_in_name ht hx hpassed htext

/-- At the end of the tag there is nothing left that a reader could give. -/
theorem not_at_end {gap rest' : List Char} (hgap : ∀ c ∈ gap, isGapChar c = true)
    (h : Behind (gap ++ '>' :: rest') rest us [] passed owed) : False := by
  have hgt : '>' ∉ passed := by
    intro hmem
    have := h.tail '>' hmem
    cases this
  have htext := h.text
  rw [writtenAttributes_nil, List.nil_append] at htext
  cases us with
  | nil =>
    have howed : owed = [] := by simpa using h.meaning.symm
    obtain ⟨c, tail, hc⟩ := List.exists_cons_of_ne_nil (h.late.resolve_left fun hne => hne howed)
    have hmem : c ∈ passed := by rw [hc]; exact List.mem_cons_self ..
    obtain ⟨m, rfl⟩ := exists_append_of_not_mem htext hgt
    obtain rfl := eq_slash_of_isGapChar (hgap c (List.mem_append_left _ hmem)) (h.tail c hmem)
    exact h.unslashed howed hmem
  | cons a us =>
    -- the first character of the next name would be in the gap
    have ha := h.sound a (List.mem_cons_self ..)
    obtain ⟨c, name, hname, hc, hcgt, -⟩ := ha.name
    rw [writtenAttributes_cons_append, hname] at htext
    have hmem : '>' ∉ passed ++ (a.lead ++ [c]) := by
      intro hmem
      rcases List.mem_append.1 hmem with hmem | hmem
      · exact hgt hmem
      · rcases List.mem_append.1 hmem with hmem | hmem
        · have := ha.lead '>' hmem
          cases this
        · exact hcgt (List.mem_singleton.1 hmem).symm
    have htext : (passed ++ (a.lead ++ [c])) ++ (name ++ (a.assigned ++
        (writtenAttributes us ++ rest))) = gap ++ '>' :: rest' := by
      rw [← htext]
      simp
    obtain ⟨m, rfl⟩ := exists_append_of_not_mem htext hmem
    have := hgap c (by simp)
    rw [hc] at this
    cases this

/-- **A reader that is behind** does not give the attributes of the text. -/
theorem false {gap rest' : List Char} (hgap : ∀ c ∈ gap, isGapChar c = true)
    (hts : ∀ t ∈ ts, t.Sound) (h : Behind (gap ++ '>' :: rest') rest us ts passed owed) :
    False := by
  induction ts generalizing us passed owed with
  | nil => exact h.not_at_end hgap
  | cons t ts ih =>
    obtain ⟨us', passed', owed', h'⟩ := h.step (hts t (List.mem_cons_self ..))
    exact ih (fun t' ht' => hts t' (List.mem_cons_of_mem _ ht')) h'

end Behind

/-! ## Values -/

theorem isTailChar_of_isReferencePart {c : Char} (h : isReferencePart c = true) :
    isTailChar c = true := by
  have hne : ∀ d, isReferencePart d = false → c ≠ d := by
    rintro d hd rfl
    rw [h] at hd
    cases hd
  simp [isTailChar, isBlank, hne ' ' rfl, hne '\t' rfl, hne '\n' rfl, hne '\x0c' rfl, hne '\r' rfl,
    hne '>' rfl, hne '=' rfl]

theorem quoted_ne_bare {q : Char} {body body' rest after : List Char}
    (hq : (WrittenValue.quoted q body).Sound) (hb : (WrittenValue.bare body').Sound)
    (hempty : body' = [] → after = [] ∨ after.head? = some '>') :
    (WrittenValue.quoted q body).written ++ rest ≠ (WrittenValue.bare body').written ++ after := by
  intro h
  have hquote : q = '"' ∨ q = '\'' := hq.1
  cases body' with
  | nil =>
    have hafter : q :: (body ++ [q] ++ rest) = after := h
    rcases hempty rfl with rfl | hgt
    · cases hafter
    · rw [← hafter] at hgt
      obtain rfl : q = '>' := by simpa using hgt
      rcases hquote with h | h <;> cases h
  | cons c body' =>
    obtain ⟨rfl, -⟩ := List.cons.inj h
    obtain ⟨-, h₁, h₂⟩ := hb
    rcases hquote with rfl | rfl
    · exact h₁ rfl
    · exact h₂ rfl

/-- What a bare value ends in front of may stand neither in a value nor in a name. -/
theorem head_of_bare_ends {body rest : List Char} (h : (WrittenValue.bare body).ends rest = true) :
    (body = [] → rest = [] ∨ rest.head? = some '>') ∧
      ∀ c, rest.head? = some c → isBareChar c = false ∧ isTailChar c = false := by
  cases rest with
  | nil => exact ⟨fun _ => .inl rfl, fun c hc => by cases hc⟩
  | cons d rest =>
    simp only [WrittenValue.ends, Bool.or_eq_true, beq_iff_eq, Bool.and_eq_true,
      Bool.not_eq_true'] at h
    refine ⟨fun hbody => .inr ?_, fun c hc => ?_⟩
    · rcases h with rfl | ⟨-, h⟩
      · rfl
      · simp [hbody] at h
    · obtain rfl : d = c := by simpa using hc
      rcases h with rfl | ⟨h, -⟩
      · exact ⟨rfl, rfl⟩
      · simp [isBareChar, isTailChar, h]

/-- **Values** that decode to the same: the reader has read the one that stands here, or it has
gone on into characters of references behind it. -/
theorem value_alignment {v w : WrittenValue} {rest after : List Char} (hv : v.Sound) (hw : w.Sound)
    (hends : v.ends rest = true) (hempty : w.written = [] → after.head? = some '>')
    (hdecoded : v.decoded = w.decoded) (htext : v.written ++ rest = w.written ++ after) :
    (rest = after ∧ w.ends after = true) ∨
      ∃ x, x ≠ [] ∧ (∀ c ∈ x, isReferencePart c = true) ∧ after = x ++ rest ∧
        runEnds isTailChar [] rest = true := by
  cases v with
  | quoted q body =>
    cases w with
    | bare body' => exact absurd htext (quoted_ne_bare hv hw fun h => .inr (hempty h))
    | quoted q' body' =>
      left
      simp only [WrittenValue.written, List.cons_append, List.append_assoc, List.cons.injEq,
        List.nil_append] at htext
      obtain ⟨rfl, htext⟩ := htext
      obtain ⟨-, h⟩ := append_inj_of_run (p := (· != q)) htext
        (fun c hc => bne_iff_ne.2 fun h => hv.2 (h ▸ hc))
        (fun c hc => bne_iff_ne.2 fun h => hw.2 (h ▸ hc)) (by simp) (by simp)
      exact ⟨(List.cons.inj h).2, rfl⟩
  | bare body =>
    obtain ⟨hnil, hhead⟩ := head_of_bare_ends hends
    cases w with
    | quoted q body' => exact absurd htext.symm (quoted_ne_bare hw hv hnil)
    | bare body' =>
      have htext : body ++ rest = body' ++ after := htext
      obtain ⟨x, rfl, hafter⟩ : ∃ x, body = body' ++ x ∧ after = x ++ rest := by
        rcases List.append_eq_append_iff.1 htext with ⟨x, hbody, hrest⟩ | ⟨x, hbody, hafter⟩
        · cases x with
          | nil => exact ⟨[], by simpa using hbody.symm, by simpa using hrest.symm⟩
          | cons c x =>
            -- the value goes on with `c`, where the reader has stopped
            have hc := hw.1 c (by rw [hbody]; simp)
            rw [(hhead c (by rw [hrest]; rfl)).1] at hc
            cases hc
        · exact ⟨x, hbody, hafter⟩
      by_cases hx : x = []
      · subst hx
        left
        rw [List.append_nil] at hends
        exact ⟨hafter.symm, by rw [hafter]; exact hends⟩
      · right
        have hdecoded : decodeReferences (body' ++ x) = decodeReferences body' := by
          have := congrArg String.toList hdecoded
          simpa [WrittenValue.decoded, WrittenValue.body] using this
        refine ⟨x, hx, isReferencePart_of_decode_append hdecoded, hafter, runEnds_iff.2 ?_⟩
        cases rest with
        | nil => exact .inl rfl
        | cons c rest => exact .inr (.inr ⟨c, rest, rfl, (hhead c rfl).2, fun _ => by simp⟩)

/-- **Assignments** stand in front of values that are compared. -/
theorem assignment_alignment {s s' : Assignment} {rest after : List Char} (hs : s.Sound)
    (hs' : s'.Sound) (hends : s.value.ends rest = true)
    (hempty : s'.value.written = [] → after.head? = some '>')
    (htext : s.written ++ rest = s'.written ++ after) :
    s.value.written ++ rest = s'.value.written ++ after := by
  have hgt : s'.value.written = [] → ∀ c, after.head? = some c → isBlank c = false := by
    intro hnil c hc
    rw [hempty hnil] at hc
    obtain rfl : '>' = c := by simpa using hc
    rfl
  rw [Assignment.written_append, Assignment.written_append] at htext
  obtain ⟨-, htext⟩ := append_inj_of_run htext hs.before hs'.before (not_of_head?_cons rfl)
    (not_of_head?_cons rfl)
  obtain ⟨-, htext⟩ := append_inj_of_run (List.cons.inj htext).2 hs.after hs'.after
    (WrittenValue.head?_not_blank hs.value (WrittenValue.not_blank_of_ends hends))
    (WrittenValue.head?_not_blank hs'.value hgt)
  exact htext

/-! ## Attributes -/

/-- An empty value stands at the end of the tag. -/
def EmptyAtEnd (after : List Char) : List WrittenAttribute → Prop
  | [] => True
  | a :: as =>
    (∀ s, a.assignment = some s → s.value.written = [] →
      (writtenAttributes as ++ after).head? = some '>') ∧ EmptyAtEnd after as

/-- A reader that has gone on into characters of references at the start of the next attribute is
behind. -/
theorem behind_of_passed {us ts : List WrittenAttribute} {rest after x : List Char}
    (hus : ∀ a ∈ us, a.Sound) (hjoins : attributesJoin us rest = true) (hts : ∀ a ∈ ts, a.Sound)
    (hmeaning : us.map WrittenAttribute.meaning = ts.map WrittenAttribute.meaning) (hx : x ≠ [])
    (hparts : ∀ c ∈ x, isReferencePart c = true)
    (htext : writtenAttributes ts ++ after = x ++ (writtenAttributes us ++ rest))
    (hstop : runEnds isTailChar [] (writtenAttributes us ++ rest) = true) :
    Behind after rest us ts x [] := by
  refine ⟨hus, hjoins, htext.symm, hmeaning, List.forall_mem_nil _, .inr hx,
    fun c hc => isTailChar_of_isReferencePart (hparts c hc), fun _ => hstop, fun _ hne heq => ?_,
    fun _ hmem => ?_⟩
  · -- the next name would begin with `=`, and so would the one that has been passed over
    obtain ⟨a, us, rfl⟩ := List.exists_cons_of_ne_nil hne
    cases ts with
    | nil => simp at hmeaning
    | cons t ts =>
      have ht := hts t (List.mem_cons_self ..)
      rw [writtenAttributes_cons_append] at heq htext
      have hname := head?_name_of_equals (hus a (List.mem_cons_self ..)) heq
      have hsame : t.name = a.name := by
        have := congrArg (fun m => m.1.toList) (List.cons.inj hmeaning).1
        simpa [WrittenAttribute.meaning] using this.symm
      obtain ⟨c, x, rfl⟩ := List.exists_cons_of_ne_nil hx
      have hc := hparts c (List.mem_cons_self ..)
      cases hlead : t.lead with
      | nil =>
        obtain ⟨name, hname⟩ := List.head?_eq_some_iff.1 (hsame ▸ hname)
        rw [hlead, hname] at htext
        obtain ⟨rfl, -⟩ := List.cons.inj htext
        cases hc
      | cons d lead =>
        rw [hlead] at htext
        obtain ⟨rfl, -⟩ := List.cons.inj htext
        obtain rfl := eq_slash_of_isGapChar (ht.lead d (by rw [hlead]; exact List.mem_cons_self ..))
          (isTailChar_of_isReferencePart hc)
        cases hc
  · have := hparts '/' hmem
    cases this

/-- **One attribute**: the reader has read the one that stands here, or it is behind. -/
theorem attribute_alignment {u t : WrittenAttribute} {rest after : List Char} (hu : u.Sound)
    (ht : t.Sound) (hends : u.ends rest = true) (hmeaning : u.meaning = t.meaning)
    (hempty : ∀ s, t.assignment = some s → s.value.written = [] → after.head? = some '>')
    (htext : u.lead ++ (u.name ++ (u.assigned ++ rest)) =
      t.lead ++ (t.name ++ (t.assigned ++ after))) :
    (rest = after ∧ t.ends after = true) ∨
      ∃ x, x ≠ [] ∧ (∀ c ∈ x, isReferencePart c = true) ∧ after = x ++ rest ∧
        runEnds isTailChar [] rest = true := by
  obtain ⟨-, htext⟩ := append_inj_of_run htext hu.lead ht.lead (fun c hc => hu.head?_name hc)
    (fun c hc => ht.head?_name hc)
  have hname : u.name = t.name := by
    have := congrArg (fun m => m.1.toList) hmeaning
    simpa [WrittenAttribute.meaning] using this
  have hvalue : u.assignment.map (·.value.decoded) = t.assignment.map (·.value.decoded) :=
    congrArg Prod.snd hmeaning
  rw [hname, List.append_right_inj, WrittenAttribute.assigned, WrittenAttribute.assigned] at htext
  rw [WrittenAttribute.ends] at hends
  cases hsu : u.assignment with
  | none =>
    rw [hsu] at hvalue hends htext
    have hst : t.assignment = none := Option.map_eq_none_iff.1 hvalue.symm
    rw [hst] at htext
    obtain rfl : rest = after := htext
    rw [hname] at hends
    exact .inl ⟨rfl, by rw [WrittenAttribute.ends, hst]; exact hends⟩
  | some s =>
    rw [hsu] at hvalue hends htext
    obtain ⟨s', hst, hdecoded⟩ := Option.map_eq_some_iff.1 hvalue.symm
    rw [hst] at htext
    have hs := hu.assignment s hsu
    have hs' := ht.assignment s' hst
    have htext := assignment_alignment hs hs' hends (hempty s' hst) htext
    rw [WrittenAttribute.ends, hst]
    exact value_alignment hs.value hs'.value hends (hempty s' hst) hdecoded.symm htext

/-- **Attributes** that are read from the text of pieces which mean the same are these pieces: each
of the pieces ends in front of the next. -/
theorem attributes_alignment {us ts : List WrittenAttribute} {rest gap rest' : List Char}
    (hus : ∀ a ∈ us, a.Sound) (hjoins : attributesJoin us rest = true) (hts : ∀ a ∈ ts, a.Sound)
    (hgap : ∀ c ∈ gap, isGapChar c = true) (hempty : EmptyAtEnd (gap ++ '>' :: rest') ts)
    (hmeaning : us.map WrittenAttribute.meaning = ts.map WrittenAttribute.meaning)
    (htext : writtenAttributes us ++ rest = writtenAttributes ts ++ (gap ++ '>' :: rest')) :
    rest = gap ++ '>' :: rest' ∧ attributesJoin ts (gap ++ '>' :: rest') = true := by
  induction ts generalizing us with
  | nil =>
    obtain rfl : us = [] := by simpa using hmeaning
    exact ⟨htext, rfl⟩
  | cons t ts ih =>
    cases us with
    | nil => simp at hmeaning
    | cons u us =>
      obtain ⟨hm, hmeaning⟩ := List.cons.inj hmeaning
      have hus' : ∀ a ∈ us, a.Sound := fun a ha => hus a (List.mem_cons_of_mem _ ha)
      have hts' : ∀ a ∈ ts, a.Sound := fun a ha => hts a (List.mem_cons_of_mem _ ha)
      simp only [attributesJoin, Bool.and_eq_true] at hjoins ⊢
      rw [writtenAttributes_cons_append, writtenAttributes_cons_append] at htext
      rcases attribute_alignment (hus u (List.mem_cons_self ..)) (hts t (List.mem_cons_self ..))
        hjoins.1 hm hempty.1 htext with ⟨htext, hends⟩ | ⟨x, hx, hparts, htext, hstop⟩
      · obtain ⟨hrest, hjoins'⟩ := ih hus' hjoins.2 hts' hempty.2 hmeaning htext
        exact ⟨hrest, hends, hjoins'⟩
      · have hbehind := behind_of_passed hus' hjoins.2 hts' hmeaning hx hparts htext hstop
        exact (hbehind.false hgap hts').elim

end Islands.Markup
