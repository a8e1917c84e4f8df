import Islands.Proofs.Markup.AttributeAlignment

/-!
# Attributes in their tag

Between the name and the `>` of an opening tag there are its attributes, one behind the other, and
nothing around them but blanks and slashes (`gapsAround`). What an attribute covers is what it was
read from (`Attribute.IsWritten`), and it ends in a blank at most if it is the last one
(`endsSolid_of_mem_dropLast`): a value is left out only in front of the `>`.

* `map_locateAttributes`, `isGap_of_mem_gapsAround`: attributes behind some text, by induction on
  them.
* `attributesLaidOut`: every element of a template.
-/

namespace Islands

/-! ## Texts that do not end in a blank -/

/-- A text does not end in a blank. -/
def EndsSolid (cs : List Char) : Prop := ∀ c, cs.getLast? = some c → isBlank c = false

theorem endsSolid_append {x y : List Char} (hy : y ≠ []) : EndsSolid (x ++ y) ↔ EndsSolid y := by
  rw [EndsSolid, EndsSolid, List.getLast?_append, List.getLast?_eq_some_getLast hy, Option.some_or]

theorem endsSolid_of_forall {cs : List Char} (h : ∀ c ∈ cs, isBlank c = false) : EndsSolid cs :=
  fun c hc => h c (List.mem_of_getLast? hc)

namespace Markup

theorem WrittenAttribute.Sound.core_ne_nil {a : WrittenAttribute} (h : a.Sound) : a.core ≠ [] := by
  simp [WrittenAttribute.core, h.name_ne_nil]

/-- An attribute that something other than the end of its tag follows does not end in a blank. -/
theorem endsSolid_core {a : WrittenAttribute} {rest : List Char} (ha : a.Sound) (hrest : rest ≠ [])
    (hgt : rest.head? ≠ some '>') (hends : a.ends rest = true) : EndsSolid a.core := by
  rw [WrittenAttribute.core]
  cases hs : a.assignment with
  | none =>
    simp only [Option.map_none, Option.getD_none, List.append_nil]
    exact endsSolid_of_forall ha.not_blank_of_mem_name
  | some s =>
    have hends : s.value.ends rest = true := by
      rw [WrittenAttribute.ends, hs] at hends
      exact hends
    have hvalue := (ha.assignment s hs).value
    have hsolid : s.value.written ≠ [] ∧ EndsSolid s.value.written := by
      cases hv : s.value with
      | quoted mark body =>
        rw [hv] at hvalue
        refine ⟨by simp [WrittenValue.written], fun c hc => ?_⟩
        rw [WrittenValue.written, ← List.cons_append, List.getLast?_concat] at hc
        obtain rfl := Option.some.inj hc
        rcases hvalue.1 with rfl | rfl <;> rfl
      | bare body =>
        rw [hv] at hvalue hends
        refine ⟨?_, endsSolid_of_forall fun c hc => ?_⟩
        · -- an empty value would stand at the end of the tag
          rintro rfl
          rcases (head_of_bare_ends hends).1 rfl with h | h
          · exact hrest h
          · exact hgt h
        · exact not_blank_of_isBareChar (hvalue.1 c hc)
    have hcore : a.name ++ (Option.map Assignment.written (some s)).getD [] =
        (a.name ++ (s.before ++ '=' :: s.after)) ++ s.value.written := by
      simp [Assignment.written]
    rw [hcore, endsSolid_append hsolid.1]
    exact hsolid.2

theorem endsSolid_core_of_ne_nil {a : WrittenAttribute} {as : List WrittenAttribute}
    {tail : List Char} (ha : a.Sound) (hne : as ≠ []) (hs : ∀ b ∈ as, b.Sound)
    (hends : a.ends (writtenAttributes as ++ tail) = true) : EndsSolid a.core := by
  apply endsSolid_core ha ?_ ?_ hends
  · obtain ⟨b, bs, rfl⟩ := List.exists_cons_of_ne_nil hne
    simp [(hs b (List.mem_cons_self ..)).core_ne_nil]
  · intro hgt
    obtain ⟨rest, hrest⟩ := List.head?_eq_some_iff.1 hgt
    exact writtenAttributes_ne_end hne hs (List.forall_mem_nil _) tail rest hrest

theorem endsSolid_of_mem_dropLast {as : List WrittenAttribute} {tail : List Char}
    (hs : ∀ a ∈ as, a.Sound) (hjoin : attributesJoin as tail = true) :
    ∀ a ∈ as.dropLast, EndsSolid a.core := by
  induction as with
  | nil => exact List.forall_mem_nil _
  | cons a as ih =>
    cases as with
    | nil => exact List.forall_mem_nil _
    | cons b as =>
      rw [List.forall_mem_cons] at hs
      rw [attributesJoin, Bool.and_eq_true] at hjoin
      rw [List.dropLast_cons_cons, List.forall_mem_cons]
      exact ⟨endsSolid_core_of_ne_nil hs.1 (List.cons_ne_nil b as) hs.2 hjoin.1, ih hs.2 hjoin.2⟩

/-! ## What attributes cover -/

theorem locateAttributes_cons (offset : Nat) (a : WrittenAttribute) (as : List WrittenAttribute) :
    locateAttributes offset (a :: as) =
      ⟨String.ofList a.name, a.assignment.map (·.value.decoded),
        spanAt (offset + byteLength a.lead) a.core⟩ ::
        locateAttributes (offset + byteLength a.lead + byteLength a.core) as := rfl

theorem map_locateAttributes (pre post : List Char) (as : List WrittenAttribute) :
    (locateAttributes (byteLength pre) as).map
        (fun a => (a.meaning, a.span.cut (pre ++ (writtenAttributes as ++ post)))) =
      as.map fun w => (w.meaning, w.core) := by
  induction as generalizing pre with
  | nil => rfl
  | cons w as ih =>
    have hcut := cut_spanAt (pre ++ w.lead) w.core (writtenAttributes as ++ post)
    have ih := ih (pre ++ (w.lead ++ w.core))
    simp only [byteLength_append, ← Nat.add_assoc, List.append_assoc] at hcut ih
    rw [locateAttributes_cons, List.map_cons, List.map_cons, writtenAttributes_cons,
      List.append_assoc, List.append_assoc, ih, hcut]
    rfl

theorem nonempty_locateAttributes (offset : Nat) {as : List WrittenAttribute}
    (hs : ∀ a ∈ as, a.Sound) :
    ∀ a ∈ locateAttributes offset as, a.span.start < a.span.stop := by
  induction as generalizing offset with
  | nil => exact List.forall_mem_nil _
  | cons w as ih =>
    rw [List.forall_mem_cons] at hs
    rw [locateAttributes_cons, List.forall_mem_cons]
    exact ⟨lt_stop_spanAt _ hs.1.core_ne_nil, ih _ hs.2⟩

/-- The attribute is written as `w`: its name and, if it has a value, an `=` with blanks around it
and what is decoded to the value. -/
structure Attribute.IsWritten (a : Attribute) (w : List Char) : Prop where
  named : IsAttributeName a.name.toList
  valueless : a.value = none → w = a.name.toList
  assigned : ∀ v, a.value = some v →
    ∃ s : Assignment, s.Sound ∧ s.value.decoded = v ∧ w = a.name.toList ++ s.written

theorem isWritten_core {a : Attribute} {w : WrittenAttribute} (hw : w.Sound)
    (hmeaning : a.meaning = w.meaning) : a.IsWritten w.core := by
  obtain ⟨hname, hvalue⟩ := Prod.mk.inj hmeaning
  have hname : a.name.toList = w.name := by rw [hname, String.toList_ofList]
  constructor
  · rw [hname]
    exact hw.name
  · intro hnone
    rw [hvalue, Option.map_eq_none_iff] at hnone
    rw [hname, WrittenAttribute.core, hnone]
    exact List.append_nil _
  · intro v hv
    rw [hvalue, Option.map_eq_some_iff] at hv
    obtain ⟨s, hs, hdecoded⟩ := hv
    refine ⟨s, hw.assignment s hs, hdecoded, ?_⟩
    rw [hname, WrittenAttribute.core, hs]
    rfl

/-! ## What lies around attributes -/

/-- What lies in front of, between and behind some spans, from `start` to `stop`. -/
def gapsAround (start stop : Nat) : List Span → List Span
  | [] => [⟨start, stop⟩]
  | s :: rest => ⟨start, s.start⟩ :: gapsAround s.stop stop rest

/-- A range of a text that is not turned round, of characters of gaps only. -/
def IsGap (cs : List Char) (g : Span) : Prop :=
  g.start ≤ g.stop ∧ ∀ c ∈ g.cut cs, isGapChar c = true

/-- Where no gap is turned round, the spans ascend from the first offset to the last one. -/
theorem ascending_of_gapsAround {start stop : Nat} {ss : List Span}
    (hgaps : ∀ g ∈ gapsAround start stop ss, g.start ≤ g.stop)
    (hss : ∀ s ∈ ss, s.start < s.stop) :
    start ≤ stop ∧ (∀ s ∈ ss, start ≤ s.start ∧ s.stop ≤ stop) ∧
      ss.Pairwise fun s t => s.stop ≤ t.start := by
  induction ss generalizing start with
  | nil => exact ⟨hgaps _ (List.mem_singleton.2 rfl), List.forall_mem_nil _, .nil⟩
  | cons s ss ih =>
    rw [gapsAround, List.forall_mem_cons] at hgaps
    rw [List.forall_mem_cons] at hss
    obtain ⟨hfirst, hgaps⟩ := hgaps
    obtain ⟨hs, hss⟩ := hss
    obtain ⟨hle, hbounds, hpair⟩ := ih hgaps hss
    have hfirst : start ≤ s.start := hfirst
    refine ⟨by omega, List.forall_mem_cons.2 ⟨by omega, fun t ht => ?_⟩,
      List.pairwise_cons.2 ⟨fun t ht => (hbounds t ht).1, hpair⟩⟩
    have := hbounds t ht
    omega

theorem isGap_spanAt {pre gap post : List Char} (h : ∀ c ∈ gap, isGapChar c = true) :
    IsGap (pre ++ (gap ++ post)) (spanAt (byteLength pre) gap) := by
  refine ⟨Nat.le_add_right .., ?_⟩
  rwa [cut_spanAt]

/-- Around attributes there are blanks and slashes only, if no other characters stand between the
last one and the end. -/
theorem isGap_of_mem_gapsAround {as : List WrittenAttribute} {trail : List Char}
    (hs : ∀ a ∈ as, a.Sound) (htrail : ∀ c ∈ trail, isGapChar c = true) (pre post : List Char) :
    ∀ g ∈ gapsAround (byteLength pre) (byteLength pre + byteLength (writtenAttributes as ++ trail))
        ((locateAttributes (byteLength pre) as).map (·.span)),
      IsGap (pre ++ (writtenAttributes as ++ (trail ++ post))) g := by
  induction as generalizing pre with
  | nil =>
    intro g hg
    obtain rfl := List.mem_singleton.1 hg
    exact isGap_spanAt htrail
  | cons a as ih =>
    rw [List.forall_mem_cons] at hs
    have ih := ih hs.2 (pre ++ (a.lead ++ a.core))
    simp only [byteLength_append, ← Nat.add_assoc, List.append_assoc] at ih
    rw [locateAttributes_cons, List.map_cons, gapsAround, List.forall_mem_cons,
      writtenAttributes_cons]
    simp only [byteLength_append, ← Nat.add_assoc, List.append_assoc]
    exact ⟨isGap_spanAt hs.1.lead, ih⟩

/-! ## Attributes behind some text -/

/-- Attributes are laid out in the text `cs` between two offsets: they ascend, each is written as
it should be, and around them there are gaps. -/
structure LaidOut (cs : List Char) (start stop : Nat) (as : List Attribute) : Prop where
  nonempty : ∀ a ∈ as, a.span.start < a.span.stop
  inside : ∀ a ∈ as, start ≤ a.span.start ∧ a.span.stop ≤ stop
  ascending : as.Pairwise fun a b => a.span.stop ≤ b.span.start
  boundaries : ∀ a ∈ as, a.span.OnBoundaries cs
  gaps : ∀ g ∈ gapsAround start stop (as.map (·.span)), IsGap cs g
  written : ∀ a ∈ as, a.IsWritten (a.span.cut cs)
  solid : ∀ a ∈ as.dropLast, EndsSolid (a.span.cut cs)

theorem laidOut_locateAttributes {as : List WrittenAttribute} {trail tail : List Char}
    (hs : ∀ a ∈ as, a.Sound) (hjoin : attributesJoin as tail = true)
    (htrail : ∀ c ∈ trail, isGapChar c = true) (pre post : List Char) :
    LaidOut (pre ++ (writtenAttributes as ++ (trail ++ post))) (byteLength pre)
      (byteLength pre + byteLength (writtenAttributes as ++ trail))
      (locateAttributes (byteLength pre) as) := by
  have hmap := map_locateAttributes pre (trail ++ post) as
  have hgaps := isGap_of_mem_gapsAround hs htrail pre post
  have hboundaries := onBoundaries_locateAttributes pre (trail ++ post) as
  have hnonempty := nonempty_locateAttributes (byteLength pre) hs
  generalize pre ++ (writtenAttributes as ++ (trail ++ post)) = cs at hmap hgaps hboundaries ⊢
  obtain ⟨-, hinside, hascending⟩ := ascending_of_gapsAround (fun g hg => (hgaps g hg).1)
    (List.forall_mem_map.2 hnonempty)
  refine ⟨hnonempty, List.forall_mem_map.1 hinside, List.pairwise_map.1 hascending,
    hboundaries, hgaps, fun a ha => ?_, fun a ha => ?_⟩
  · have hmem := List.mem_map_of_mem (f := fun a => (a.meaning, a.span.cut cs)) ha
    rw [hmap] at hmem
    obtain ⟨w, hw, hsame⟩ := List.mem_map.1 hmem
    obtain ⟨hmeaning, hcore⟩ := Prod.mk.inj hsame
    rw [← hcore]
    exact isWritten_core (hs w hw) hmeaning.symm
  · have hmem := List.mem_map_of_mem (f := fun a => (a.meaning, a.span.cut cs)) ha
    rw [List.map_dropLast, hmap, ← List.map_dropLast] at hmem
    obtain ⟨w, hw, hsame⟩ := List.mem_map.1 hmem
    rw [← (Prod.mk.inj hsame).2]
    exact endsSolid_of_mem_dropLast hs hjoin w hw

/-! ## Opening tags -/

/-- Where the name in the opening tag of an element ends. -/
def Element.nameStop (e : Element) : Nat := e.openTag.start + 1 + byteLength e.name.toList

/-- The opening tag of an element in the text `cs` is its name and its attributes, laid out between
the name and a `>`. -/
structure Element.AttributesLaidOut (cs : List Char) (e : Element) : Prop where
  opens : Span.cut ⟨e.openTag.start, e.nameStop⟩ cs = '<' :: e.name.toList
  ends : Span.cut ⟨e.openTag.stop - 1, e.openTag.stop⟩ cs = ['>']
  attributes : LaidOut cs e.nameStop (e.openTag.stop - 1) e.attributes

/-- What stands between the last attribute of a tag and its `>`. -/
def OpenTag.rear (t : OpenTag) : List Char := t.trail ++ if t.selfClosing then ['/'] else []

theorem OpenTag.written_eq_rear (t : OpenTag) :
    t.written = ('<' :: t.name) ++ (writtenAttributes t.attributes ++ (t.rear ++ ['>'])) := by
  cases h : t.selfClosing <;> simp [OpenTag.written, writtenAttributes, tagEnd, OpenTag.rear, h]

theorem OpenTag.Sound.isGapChar_rear {t : OpenTag} (h : t.Sound) :
    ∀ c ∈ t.rear, isGapChar c = true := by
  intro c hc
  rcases List.mem_append.1 hc with hc | hc
  · exact h.trail c hc
  · split at hc
    · obtain rfl := List.mem_singleton.1 hc
      rfl
    · cases hc

theorem attributesLaidOut_shellAt {pre rest : List Char} {t : OpenTag} (ht : t.Formed)
    (closeTag : Option Span) (children : List Node) :
    Element.AttributesLaidOut (pre ++ (t.written ++ rest))
      ⟨t.shellAt (byteLength pre) closeTag, children⟩ := by
  generalize he : (⟨t.shellAt (byteLength pre) closeTag, children⟩ : Element) = e
  have hlt : '<'.utf8Size = 1 := rfl
  have hgt : '>'.utf8Size = 1 := rfl
  have hname : e.name.toList = t.name := by
    rw [← he]
    exact String.toList_ofList
  have hopen : e.openTag = spanAt (byteLength pre) t.written := by
    rw [← he]
    rfl
  have hstart : e.openTag.start = byteLength pre := by rw [hopen, spanAt]
  have hnameStop : e.nameStop = byteLength (pre ++ '<' :: t.name) := by
    rw [Element.nameStop, hname, hstart, byteLength_append, byteLength_cons, hlt, Nat.add_assoc]
  have hstop : e.openTag.stop = byteLength (pre ++ '<' :: t.name) +
      byteLength (writtenAttributes t.attributes ++ t.rear) + 1 := by
    rw [hopen, spanAt, t.written_eq_rear]
    simp only [byteLength_append, byteLength_cons, byteLength_nil, hgt]
    omega
  have hattributes : e.attributes =
      locateAttributes (byteLength (pre ++ '<' :: t.name)) t.attributes := by
    rw [← hnameStop, Element.nameStop, hname, hstart, ← he]
    rfl
  have hjoin := (Bool.and_eq_true_iff.1 ht.joins).2
  have htext : pre ++ (t.written ++ rest) = (pre ++ '<' :: t.name) ++
      (writtenAttributes t.attributes ++ (t.rear ++ (['>'] ++ rest))) := by
    simp [t.written_eq_rear]
  constructor
  · have hcut := cut_spanAt pre ('<' :: t.name)
      (writtenAttributes t.attributes ++ (t.rear ++ (['>'] ++ rest)))
    rw [← List.append_assoc, ← htext, spanAt, ← byteLength_append] at hcut
    rw [hname, hstart, hnameStop]
    exact hcut
  · have hcut := cut_spanAt ((pre ++ '<' :: t.name) ++ (writtenAttributes t.attributes ++ t.rear))
      ['>'] rest
    rw [byteLength_append, List.append_assoc _ (_ ++ t.rear), List.append_assoc _ t.rear,
      ← htext] at hcut
    rw [hstop]
    exact hcut
  · have hlaid := laidOut_locateAttributes ht.sound.attributes hjoin ht.sound.isGapChar_rear
      (pre ++ '<' :: t.name) (['>'] ++ rest)
    rw [← htext] at hlaid
    rw [hnameStop, hstop, hattributes]
    exact hlaid

/-- **Attribute layout**: in each element of a template the attributes ascend between the name and
the `>` of the opening tag, and none is empty; around them are only blanks and slashes; each is its
name, or its name, an `=` between blanks and what is decoded to its value; none but the last one
ends in a blank. -/
theorem attributesLaidOut {cs : List Char} {nodes : List Node} (h : parse cs = .ok nodes)
    {e : Element} (he : e ∈ allElements nodes) : e.AttributesLaidOut cs := by
  obtain ⟨pre, p, post, hpart⟩ := exists_part_of_mem h he
  obtain ⟨tag, closeTag, rest, htag, rfl, hshell⟩ := hpart.exists_tag
  obtain ⟨shell, children⟩ := e
  obtain rfl : shell = tag.shellAt (byteLength pre) closeTag := hshell
  exact attributesLaidOut_shellAt htag closeTag children

/-- A tag whose attributes have each form, and a stray slash between them. -/
theorem attributesLaidOut_mixed :
    ∃ e : Element, parse "<a b = 'x'/c d=&lt;y e= ></a>".toList =
        .ok [.element e.toShell e.children] ∧
      e.attributes.map Attribute.meaning =
        [("b", some "x"), ("c", none), ("d", some "<y"), ("e", some "")] ∧
      e.AttributesLaidOut "<a b = 'x'/c d=&lt;y e= ></a>".toList := by
  let e : Element := ⟨⟨"a", [⟨"b", some "x", ⟨3, 10⟩⟩, ⟨"c", none, ⟨11, 12⟩⟩,
    ⟨"d", some "<y", ⟨13, 20⟩⟩, ⟨"e", some "", ⟨21, 24⟩⟩], ⟨0, 25⟩, some ⟨25, 29⟩⟩, []⟩
  have hparse : parse "<a b = 'x'/c d=&lt;y e= ></a>".toList =
      .ok [.element e.toShell e.children] := by
    decide +kernel
  refine ⟨e, hparse, rfl, attributesLaidOut hparse ?_⟩
  rw [allElements_eq]
  exact List.mem_cons_self ..

end Markup

end Islands
