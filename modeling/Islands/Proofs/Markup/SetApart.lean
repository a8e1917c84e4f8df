import Islands.Proofs.Markup.Spacing
import Islands.Proofs.Markup.AttributeAlignment

/-!
# Attributes that are set apart

Attributes are put one after the other with one blank between them, as they were written elsewhere
(`WrittenAttribute.SetApart`). Each is read as what it was, except one with an `=` and no value
behind it (`WrittenAttribute.lacksValue`): its value is read on from the next attribute.

* `ends_of_setApart`: an attribute with its value ends in front of the next one.
* `false_of_lacksValue`: an attribute without its value is not read again in front of another.
* `attributesJoin_of_setApart`, `lacksValue_of_reads`: attributes one after the other are read again
  if, and only if, they have their values.
-/

namespace Islands.Markup

/-! ## Attributes behind a blank -/

/-- Whether a character is one that the names in question begin with: no mark and no sign that means
something between attributes. -/
def startsPlainly (c : Char) : Bool := c.isAlpha || c == ':'

/-- An attribute behind one blank; its name has a plain first character and does not end in a
slash. -/
structure WrittenAttribute.SetApart (a : WrittenAttribute) : Prop where
  sound : a.Sound
  lead : a.lead = [' ']
  starts : a.name.head?.any startsPlainly = true
  ends : a.name.getLast? ≠ some '/'

/-- Whether an attribute has an `=` and nothing behind it but blanks. -/
def WrittenAttribute.lacksValue (a : WrittenAttribute) : Bool :=
  a.assignment.any (·.value == .bare [])

/-- What stands behind an attribute: the end of the tag, or the next attribute. -/
def Follows (rest : List Char) : Prop :=
  (∃ after, rest = '>' :: after) ∨ ∃ c tail, rest = ' ' :: c :: tail ∧ startsPlainly c = true

theorem ne_of_startsPlainly {c d : Char} (hc : startsPlainly c = true)
    (hd : startsPlainly d = false) : c ≠ d := by
  rintro rfl
  rw [hc] at hd
  cases hd

theorem isBlank_of_startsPlainly {c : Char} (hc : startsPlainly c = true) : isBlank c = false := by
  have hne := fun d => ne_of_startsPlainly hc (d := d)
  simp [isBlank, hne ' ' rfl, hne '\t' rfl, hne '\n' rfl, hne '\x0c' rfl, hne '\r' rfl]

section
variable {a t u : WrittenAttribute} {ts us : List WrittenAttribute} {rest rest' after : List Char}

theorem WrittenAttribute.SetApart.exists_name (ha : a.SetApart) :
    ∃ c tail, a.name = c :: tail ∧ startsPlainly c = true := by
  obtain ⟨c, hc, hplain⟩ := (Option.any_eq_true _ _).1 ha.starts
  obtain ⟨tail, htail⟩ := List.head?_eq_some_iff.1 hc
  exact ⟨c, tail, htail, hplain⟩

theorem follows_writtenAttributes (hts : ∀ t ∈ ts, t.SetApart) (after : List Char) :
    Follows (writtenAttributes ts ++ '>' :: after) := by
  cases ts with
  | nil => exact .inl ⟨after, rfl⟩
  | cons t ts =>
    have ht := hts t (List.mem_cons_self ..)
    obtain ⟨c, tail, hname, hc⟩ := ht.exists_name
    rw [writtenAttributes_cons_append, ht.lead, hname]
    exact .inr ⟨c, _, rfl, hc⟩

theorem Follows.head?_ne_equals (h : Follows rest) : (rest.dropWhile isBlank).head? ≠ some '=' := by
  rcases h with ⟨after, rfl⟩ | ⟨d, tail, rfl, hd⟩
  · rw [List.dropWhile_cons_of_neg (by decide)]
    simp
  · rw [List.dropWhile_cons_of_pos rfl,
      List.dropWhile_cons_of_neg (by simp [isBlank_of_startsPlainly hd]), List.head?_cons]
    exact fun heq => ne_of_startsPlainly hd rfl (Option.some.inj heq)

theorem spaced_of_setApart (ha : a.SetApart)
    (hquoted : ∀ s, a.assignment = some s → ∃ mark body, s.value = .quoted mark body) :
    a.spaced = true := by
  obtain ⟨c, tail, hname, hc⟩ := ha.exists_name
  have hhead : (a.name.head? != some '=') = true := by
    rw [hname, List.head?_cons, bne_iff_ne]
    exact fun heq => ne_of_startsPlainly hc rfl (Option.some.inj heq)
  rw [WrittenAttribute.spaced, ha.lead, hhead]
  cases hs : a.assignment with
  | none => simpa [isBlank] using ha.ends
  | some s =>
    obtain ⟨mark, body, hv⟩ := hquoted s hs
    simp [isBlank, hv]

/-- **An attribute with its value** ends in front of the next one and of the end of the tag. -/
theorem ends_of_setApart (ha : a.SetApart) (hvalue : a.lacksValue = false) (h : Follows rest) :
    a.ends rest = true := by
  by_cases hbare : ∃ s body, a.assignment = some s ∧ s.value = .bare body
  · obtain ⟨s, body, hs, hv⟩ := hbare
    have hbody : body.isEmpty = false := by
      cases body with
      | nil => simp [WrittenAttribute.lacksValue, hs, hv] at hvalue
      | cons => rfl
    rw [WrittenAttribute.ends, hs]
    rcases h with ⟨after, rfl⟩ | ⟨d, tail, rfl, -⟩ <;>
      simp [hv, WrittenValue.ends, hbody, isBlank]
  · have hspaced : a.spaced = true := by
      refine spaced_of_setApart ha fun s hs => ?_
      cases hv : s.value with
      | quoted mark body => exact ⟨mark, body, rfl⟩
      | bare body => exact absurd ⟨s, body, hs, hv⟩ hbare
    have heq := h.head?_ne_equals
    rcases h with ⟨after, rfl⟩ | ⟨d, tail, rfl, -⟩
    · exact ends_of_spaced hspaced (.inr (.inl rfl)) heq
    · exact ends_of_spaced hspaced (.inl rfl) heq

/-! ## Reading again -/

theorem eq_of_ends (hu : u.Sound) (ht : t.Sound) (hrest : u.ends rest = true)
    (hrest' : t.ends rest' = true) (h : u.lead ++ (u.core ++ rest) = t.lead ++ (t.core ++ rest')) :
    u = t ∧ rest = rest' := by
  obtain ⟨c, tail, hcore, hc, hgt⟩ := exists_core_eq_cons hu
  obtain ⟨d, tail', hcore', hd, -⟩ := exists_core_eq_cons ht
  rw [hcore, hcore'] at h
  obtain ⟨hlead, h⟩ := append_inj_of_run h hu.lead ht.lead (not_of_head?_cons hc)
    (not_of_head?_cons hd)
  have hread : readAttribute u.lead c (tail ++ rest) = .ok (u, rest) :=
    (readAttribute_eq_ok_iff hu.lead hc hgt).2 ⟨rfl, by rw [hcore]; rfl, hu, hrest⟩
  have hread' : readAttribute u.lead c (tail ++ rest) = .ok (t, rest') :=
    (readAttribute_eq_ok_iff hu.lead hc hgt).2
      ⟨hlead.symm, by rw [hcore', ← h]; rfl, ht, hrest'⟩
  exact Prod.mk.inj (Except.ok.inj (hread.symm.trans hread'))

theorem decoded_ne_empty {v : WrittenValue} (hv : v.Sound) (hends : v.ends rest = true) {c : Char}
    {tail : List Char} (hc : startsPlainly c = true) (h : v.written ++ rest = c :: tail) :
    v.decoded ≠ "" := by
  cases v with
  | quoted mark body =>
    obtain ⟨rfl, -⟩ := List.cons.inj h
    rcases hv.1 with rfl | rfl <;> cases hc
  | bare body =>
    cases body with
    | nil =>
      -- an empty value would stand at the end of the tag
      obtain rfl : rest = c :: tail := h
      have hgt : c = '>' := by
        simpa [WrittenValue.ends, isBlank_of_startsPlainly hc] using hends
      exact absurd hgt (ne_of_startsPlainly hc rfl)
    | cons d body =>
      obtain ⟨rfl, -⟩ := List.cons.inj h
      intro hempty
      have hempty := congrArg String.toList hempty
      rw [WrittenValue.decoded, String.toList_ofList, WrittenValue.body,
        decodeReferences_cons (ne_of_startsPlainly hc rfl)] at hempty
      cases hempty

/-- Where an `=` has nothing behind it, the value that is read is what comes next. -/
theorem value_of_assignment {s s' : Assignment} (hs : s.Sound) (hs' : s'.Sound)
    (hends : s.value.ends rest = true) (hvalue : s'.value = .bare []) {c : Char} {tail : List Char}
    (hc : startsPlainly c = true) (h : s.written ++ rest = s'.written ++ ' ' :: c :: tail) :
    s.value.written ++ rest = c :: tail := by
  rw [Assignment.written_append, Assignment.written_append] at h
  obtain ⟨-, h⟩ := append_inj_of_run h hs.before hs'.before (not_of_head?_cons rfl)
    (not_of_head?_cons rfl)
  have h : s.after ++ (s.value.written ++ rest) = (s'.after ++ [' ']) ++ c :: tail := by
    simpa [hvalue, WrittenValue.written] using (List.cons.inj h).2
  have hblank : ∀ d ∈ s'.after ++ [' '], isBlank d = true := by
    rw [List.forall_mem_append]
    exact ⟨hs'.after, List.forall_mem_singleton.2 rfl⟩
  have hhead := WrittenValue.head?_not_blank hs.value (WrittenValue.not_blank_of_ends hends)
  exact (append_inj_of_run h hs.after hblank hhead
    (not_of_head?_cons (isBlank_of_startsPlainly hc))).2

/-- **An attribute without its value** is not read again in front of another attribute: the value
that is read is the beginning of that one. -/
theorem false_of_lacksValue (hu : u.Sound) (ht : t.Sound) (hends : u.ends rest = true)
    (hvalue : t.lacksValue = true) (hmeaning : u.meaning = t.meaning) {c : Char} {tail : List Char}
    (hc : startsPlainly c = true)
    (h : u.lead ++ (u.core ++ rest) = t.lead ++ (t.core ++ ' ' :: c :: tail)) : False := by
  obtain ⟨s', hs', hv'⟩ := (Option.any_eq_true _ _).1 hvalue
  have hv' : s'.value = .bare [] := by simpa using hv'
  have hname : u.name = t.name := by
    have := congrArg (fun m => m.1.toList) hmeaning
    simpa [WrittenAttribute.meaning] using this
  have hdecoded := congrArg Prod.snd hmeaning
  simp only [WrittenAttribute.meaning, hs', Option.map_some, Option.map_eq_some_iff] at hdecoded
  obtain ⟨s, hs, hdecoded⟩ := hdecoded
  have hempty : s.value.decoded = "" := by
    rw [hdecoded, hv', WrittenValue.decoded, WrittenValue.body, decodeReferences]
  have hends : s.value.ends rest = true := by
    rw [WrittenAttribute.ends, hs] at hends
    exact hends
  rw [WrittenAttribute.core, WrittenAttribute.core, List.append_assoc, List.append_assoc] at h
  obtain ⟨-, h⟩ := append_inj_of_run h hu.lead ht.lead (fun d hd => hu.head?_name hd)
    (fun d hd => ht.head?_name hd)
  rw [hname, List.append_right_inj, hs, hs', Option.map_some, Option.map_some, Option.getD_some,
    Option.getD_some] at h
  have hsound := hu.assignment s hs
  have hbegins := value_of_assignment hsound (ht.assignment s' hs') hends hv' hc h
  exact decoded_ne_empty hsound.value hends hc hbegins hempty

/-! ## Tags -/

/-- Attributes with their values end in front of each other. -/
theorem attributesJoin_of_setApart (hts : ∀ t ∈ ts, t.SetApart)
    (hvalue : ∀ t ∈ ts, t.lacksValue = false) (after : List Char) :
    attributesJoin ts ('>' :: after) = true := by
  induction ts with
  | nil => rfl
  | cons t ts ih =>
    rw [List.forall_mem_cons] at hts hvalue
    rw [attributesJoin, ih hts.2 hvalue.2,
      ends_of_setApart hts.1 hvalue.1 (follows_writtenAttributes hts.2 after)]
    rfl

/-- **Attributes that are read again** with the same meaning have their values; the last one may do
without, but here it does not. -/
theorem lacksValue_of_reads (hus : ∀ u ∈ us, u.Sound) (hjoins : attributesJoin us rest = true)
    (hts : ∀ t ∈ ts, t.SetApart) (hlast : ∀ t, ts.getLast? = some t → t.lacksValue = false)
    (hmeaning : us.map WrittenAttribute.meaning = ts.map WrittenAttribute.meaning)
    (htext : writtenAttributes us ++ rest = writtenAttributes ts ++ '>' :: after) :
    ∀ t ∈ ts, t.lacksValue = false := by
  induction ts generalizing us with
  | nil => exact List.forall_mem_nil _
  | cons t ts ih =>
    cases us with
    | nil => simp at hmeaning
    | cons u us =>
      obtain ⟨hm, hmap⟩ := List.cons.inj hmeaning
      simp only [attributesJoin, Bool.and_eq_true] at hjoins
      rw [List.forall_mem_cons] at hus hts ⊢
      rw [writtenAttributes_cons, writtenAttributes_cons, List.append_assoc, List.append_assoc,
        List.append_assoc, List.append_assoc] at htext
      have hfollows := follows_writtenAttributes hts.2 after
      have hvalue : t.lacksValue = false := by
        rcases hfollows with ⟨after', hend⟩ | ⟨c, tail, hnext, hc⟩
        · -- nothing follows the last attribute
          have hnil : ts = [] := by
            refine Classical.byContradiction fun hne => ?_
            exact writtenAttributes_ne_end hne (fun b hb => (hts.2 b hb).sound)
              (List.forall_mem_nil _) _ after' hend
          exact hlast t (by rw [hnil]; rfl)
        · rw [hnext] at htext
          rw [Bool.eq_false_iff]
          exact fun hlacks =>
            false_of_lacksValue hus.1 hts.1.sound hjoins.1 hlacks hm hc htext
      obtain ⟨rfl, hrest⟩ := eq_of_ends hus.1 hts.1.sound hjoins.1
        (ends_of_setApart hts.1 hvalue hfollows) htext
      refine ⟨hvalue, ih hus.2 hjoins.2 hts.2 (fun t' ht' => hlast t' ?_) hmap hrest⟩
      rw [List.getLast?_cons, ht']
      rfl

end

end Islands.Markup
