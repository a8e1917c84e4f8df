import Islands.Proofs.Markup.SetApart
import Islands.Proofs.Wrapper.WrapperText
import Islands.Proofs.Wrapper.SlotWrapper

/-!
# Conditions on a wrapper

A wrapper carries the conditions of the element that it takes the place of, as they were written,
and behind them attributes that are generated. When its opening tag is read by itself
(`OpeningGives`), the conditions are read with their names and values, in order, and then exactly
the generated attributes, if and only if no condition lacks its value (`Attribute.lacksValue`): in
`<slot v-if= >` the value of the condition is empty, and on the wrapper it is the next attribute.

* `map_conditions`: the conditions of an element and those written in its tag.
* `openingGives_iff`: any opening tag with conditions and generated attributes.
* `openings_iff`: the wrappers of slots and of marked elements.
-/

namespace Islands

open Markup

/-! ## The conditions of an element -/

/-- Whether an attribute of a template is written with an `=` and nothing behind it but blanks. -/
def Markup.Attribute.lacksValue (template : List Char) (a : Attribute) : Bool :=
  (a.span.cut template).filter (!isBlank ·) == a.name.toList ++ ['=']

/-- The attribute, behind one blank. -/
def Markup.WrittenAttribute.lifted (w : WrittenAttribute) : WrittenAttribute :=
  { w with lead := [' '] }

/-- The conditions in a tag, each behind one blank. -/
def Markup.OpenTag.conditions (t : OpenTag) : List WrittenAttribute :=
  (t.attributes.filter (·.named isCondition)).map WrittenAttribute.lifted

section
variable {template pre rest : List Char} {tag : OpenTag}

/-- **The conditions of an element** are those written in its tag, as far as their names, values and
texts are concerned. -/
theorem map_conditions {β : Type} (htemplate : template = pre ++ (tag.written ++ rest))
    (g : (String × Option String) × List Char → β) :
    ((tag.attributesAt (byteLength pre)).filter (isCondition ·.name)).map
        (fun a => g (a.meaning, a.span.cut template)) =
      tag.conditions.map fun w => g (w.meaning, w.core) := by
  have hmap := map_locateAttributes (pre ++ '<' :: tag.name)
    (tagTail tag.trail tag.selfClosing ++ rest) tag.attributes
  have hsame : (pre ++ '<' :: tag.name) ++ (writtenAttributes tag.attributes ++
      (tagTail tag.trail tag.selfClosing ++ rest)) = template := by
    rw [htemplate, OpenTag.written_eq, OpenTag.inside]
    simp
  have hstart : byteLength (pre ++ '<' :: tag.name) =
      byteLength pre + 1 + byteLength tag.name := by
    rw [byteLength_append, byteLength_cons, ← Nat.add_assoc]
    rfl
  rw [hsame, hstart, ← OpenTag.attributesAt] at hmap
  have hfilter := congrArg (fun l => (l.filter fun m => isCondition m.1.1).map g) hmap
  simp only [List.filter_map, List.map_map] at hfilter
  rw [OpenTag.conditions, List.map_map]
  exact hfilter

theorem filter_written_eq_nil_iff {v : WrittenValue} (hv : v.Sound) :
    v.written.filter (!isBlank ·) = [] ↔ v = .bare [] := by
  cases v with
  | quoted mark body =>
    have hmark : isBlank mark = false := by
      rcases hv.1 with rfl | rfl <;> rfl
    simp [WrittenValue.written, hmark]
  | bare body =>
    have hbody : body.filter (!isBlank ·) = body :=
      List.filter_eq_self.2 fun c hc => by simp [not_blank_of_isBareChar (hv.1 c hc)]
    rw [WrittenValue.written, hbody, WrittenValue.bare.injEq]

/-- The text of an attribute shows whether its value is there. -/
theorem lacksValue_eq {w : WrittenAttribute} (hw : w.Sound) :
    (w.core.filter (!isBlank ·) == w.name ++ ['=']) = w.lacksValue := by
  have hblanks : ∀ cs : List Char, (∀ c ∈ cs, isBlank c = true) → cs.filter (!isBlank ·) = [] :=
    fun cs hcs => List.filter_eq_nil_iff.2 fun c hc => by simp [hcs c hc]
  have hname : w.name.filter (!isBlank ·) = w.name :=
    List.filter_eq_self.2 fun c hc => by simp [hw.not_blank_of_mem_name c hc]
  rw [WrittenAttribute.core, WrittenAttribute.lacksValue, List.filter_append, hname]
  cases hs : w.assignment with
  | none => simp
  | some s =>
    have hsound := hw.assignment s hs
    have hwritten : s.written.filter (!isBlank ·) = '=' :: s.value.written.filter (!isBlank ·) := by
      rw [Assignment.written, List.filter_append, hblanks _ hsound.before, List.nil_append,
        List.filter_cons_of_pos (by decide), List.filter_append, hblanks _ hsound.after,
        List.nil_append]
    rw [Option.map_some, Option.getD_some, hwritten, Option.any_some, Bool.eq_iff_iff, beq_iff_eq,
      beq_iff_eq, List.append_right_inj, List.cons.injEq, ← filter_written_eq_nil_iff hsound.value]
    exact and_iff_right rfl

/-- A condition lacks its value in the element just if it does in the tag. -/
theorem lacksValue_iff (htag : tag.Sound) (htemplate : template = pre ++ (tag.written ++ rest)) :
    (∀ a ∈ tag.attributesAt (byteLength pre), isCondition a.name = true →
      a.lacksValue template = false) ↔ ∀ w ∈ tag.conditions, w.lacksValue = false := by
  have hmap := map_conditions htemplate fun m => m.2.filter (!isBlank ·) == m.1.1.toList ++ ['=']
  have hlacks : tag.conditions.map WrittenAttribute.lacksValue =
      tag.conditions.map fun w => w.core.filter (!isBlank ·) == w.meaning.1.toList ++ ['='] := by
    refine List.map_congr_left fun w hw => ?_
    obtain ⟨v, hv, rfl⟩ := List.mem_map.1 hw
    have hsound := htag.attributes v (List.mem_filter.1 hv).1
    rw [WrittenAttribute.meaning, String.toList_ofList]
    exact (lacksValue_eq (w := v) hsound).symm
  rw [← hlacks] at hmap
  rw [← List.forall_mem_map (P := fun b => b = false), ← hmap, List.forall_mem_map]
  simp only [List.mem_filter, and_imp]
  exact Iff.rfl

theorem isCondition_of_mem {w : WrittenAttribute} (h : w ∈ tag.conditions) :
    w.lead = [' '] ∧ isCondition (String.ofList w.name) = true := by
  obtain ⟨v, hv, rfl⟩ := List.mem_map.1 h
  exact ⟨rfl, (List.mem_filter.1 hv).2⟩

theorem liftedConditions_eq {s : Shell}
    (hattributes : s.attributes = tag.attributesAt (byteLength pre))
    (htemplate : template = pre ++ (tag.written ++ rest)) :
    (liftedConditions template s).toList = writtenAttributes tag.conditions := by
  have hmap := map_conditions htemplate fun m => ' ' :: m.2
  have htext : ∀ a : Attribute,
      (" " ++ a.span.text template).toList = ' ' :: a.span.cut template := by
    intro a
    simp [Span.text]
  have hwritten : tag.conditions.map WrittenAttribute.written =
      tag.conditions.map fun w => ' ' :: w.core := by
    refine List.map_congr_left fun w hw => ?_
    rw [WrittenAttribute.written, (isCondition_of_mem hw).1]
    rfl
  rw [liftedConditions, String.toList_join, hattributes, List.flatMap_map, writtenAttributes,
    List.flatMap_def, List.flatMap_def, hwritten, ← hmap]
  simp only [htext]

/-- The names and values of the conditions of an element, in order. -/
def Markup.Shell.conditions (s : Shell) : List (String × Option String) :=
  (s.attributes.filter (isCondition ·.name)).map Attribute.meaning

theorem meaning_conditions {s : Shell}
    (hattributes : s.attributes = tag.attributesAt (byteLength pre))
    (htemplate : template = pre ++ (tag.written ++ rest)) :
    tag.conditions.map WrittenAttribute.meaning = s.conditions := by
  rw [Shell.conditions, hattributes]
  exact (map_conditions htemplate Prod.fst).symm

theorem setApart_condition (htag : tag.Sound) {w : WrittenAttribute} (hw : w ∈ tag.conditions) :
    w.SetApart := by
  obtain ⟨hlead, hname⟩ := isCondition_of_mem hw
  obtain ⟨v, hv, rfl⟩ := List.mem_map.1 hw
  have hsound := htag.attributes v (List.mem_filter.1 hv).1
  have hname : v.lifted.name ∈ ["v-if".toList, "v-else-if".toList, "v-else".toList] := by
    simp only [isCondition, Bool.or_eq_true, beq_iff_eq] at hname
    rcases hname with (h | h) | h <;> simp [← h]
  have hplain : ∀ name ∈ ["v-if".toList, "v-else-if".toList, "v-else".toList],
      name.head?.any startsPlainly = true ∧ name.getLast? ≠ some '/' := by decide
  exact ⟨⟨List.forall_mem_singleton.2 rfl, hsound.name, hsound.assignment⟩, hlead,
    (hplain _ hname).1, (hplain _ hname).2⟩

/-! ## Opening tags -/

/-- The text of an opening tag is read as a tag of this name with attributes of these names and
values, and no others. -/
def OpeningGives (opening name : String) (attributes : List (String × Option String)) : Prop :=
  ∃ n, parse (opening ++ closing name).toList = .ok [n] ∧ n.IsElement name attributes []

/-- An opening tag with attributes each behind one blank. -/
def apartTag (name : String) (ts : List WrittenAttribute) : OpenTag := ⟨name.toList, ts, [], false⟩

section
variable {name opening : String} {ts : List WrittenAttribute}

theorem written_apartTag (name : String) (ts us : List WrittenAttribute) :
    (apartTag name (ts ++ us)).written =
      '<' :: (name.toList ++ (writtenAttributes ts ++ (writtenAttributes us ++ ['>']))) := by
  simp [apartTag, OpenTag.written, writtenAttributes, tagEnd]

theorem formed_apartTag (hname : isContainerName name.toList = true) (hts : ∀ t ∈ ts, t.SetApart)
    (hvalue : ∀ t ∈ ts, t.lacksValue = false) : (apartTag name ts).Formed := by
  simp only [isContainerName, Bool.and_eq_true] at hname
  refine ⟨hname.1.1.1, ⟨List.all_eq_true.1 hname.1.1.2, fun t ht => (hts t ht).sound,
    List.forall_mem_nil _⟩, ?_, rfl⟩
  have hjoin := attributesJoin_of_setApart hts hvalue []
  have hhead : (apartTag name ts).inside.head?.any (fun c => !isNameChar c) = true := by
    rcases follows_writtenAttributes hts [] with ⟨after, h⟩ | ⟨c, tail, h, -⟩
    · have hinside : (apartTag name ts).inside = '>' :: after := h
      rw [hinside]
      rfl
    · have hinside : (apartTag name ts).inside = ' ' :: c :: tail := h
      rw [hinside]
      rfl
  rw [OpenTag.joins, hhead, Bool.true_and]
  exact hjoin

theorem exists_tag_of_parse {cs : List Char} {shell : Shell} {children : List Node}
    (h : parse cs = .ok [.element shell children]) :
    ∃ (tag : OpenTag) (rest : List Char), tag.Formed ∧ cs = tag.written ++ rest ∧
      shell.name = String.ofList tag.name ∧ shell.attributes = tag.attributesAt 0 := by
  obtain ⟨ps, hpair, hread, rfl, hnodes⟩ := parse_eq_ok_iff.1 h
  cases ps with
  | nil => cases hnodes
  | cons q ps =>
    rw [nodesAt_cons] at hnodes
    obtain ⟨hnode, -⟩ := List.cons.inj hnodes
    have hpart : Element.IsPart (writtenOf (q :: ps)) [] q (writtenOf ps) ⟨shell, children⟩ :=
      ⟨writtenOf_cons q ps, hnode.symm, hpair.1, hread.left⟩
    obtain ⟨tag, closeTag, rest, hformed, hwritten, hshell⟩ := hpart.exists_tag
    exact ⟨tag, rest, hformed, hwritten, congrArg Shell.name hshell,
      congrArg Shell.attributes hshell⟩

theorem toList_opening (hopening : opening.toList = (apartTag name ts).written) :
    (opening ++ closing name).toList =
      (apartTag name ts).written ++ CloseTag.written ⟨name.toList, []⟩ := by
  rw [String.toList_append, hopening]
  simp [closing, CloseTag.written]

theorem openingGives_of_values (hname : isContainerName name.toList = true)
    (hts : ∀ t ∈ ts, t.SetApart) (hvalue : ∀ t ∈ ts, t.lacksValue = false)
    (hopening : opening.toList = (apartTag name ts).written) :
    OpeningGives opening name (ts.map WrittenAttribute.meaning) := by
  have htag := formed_apartTag hname hts hvalue
  simp only [isContainerName, Bool.and_eq_true, Bool.not_eq_true'] at hname
  obtain ⟨⟨⟨hletter, hchars⟩, hvoid⟩, hraw⟩ := hname
  have helement : Enclosable [.element (apartTag name ts) [] ⟨name.toList, []⟩] :=
    enclosable_nil.element ⟨rfl, hvoid, hraw⟩ htag
      ⟨hletter, List.all_eq_true.1 hchars, List.forall_mem_nil _⟩ (beq_self_eq_true _)
  refine ⟨_, parse_eq_ok_iff.2 ⟨_, helement.paired, helement.readable, ?_, rfl⟩, _, rfl,
    String.ofList_toList, meaning_locateAttributes _ _⟩
  rw [toList_opening hopening]
  simp

theorem lacksValue_of_openingGives (hts : ∀ t ∈ ts, t.SetApart)
    (hlast : ∀ t, ts.getLast? = some t → t.lacksValue = false)
    (hopening : opening.toList = (apartTag name ts).written)
    (h : OpeningGives opening name (ts.map WrittenAttribute.meaning)) :
    ∀ t ∈ ts, t.lacksValue = false := by
  obtain ⟨n, hparse, shell, rfl, hshell, hmeaning⟩ := h
  obtain ⟨tag, rest, hformed, hwritten, htag, hattributes⟩ := exists_tag_of_parse hparse
  have htagname : tag.name = name.toList := by
    rw [← hshell, htag, String.toList_ofList]
  have hmeaning : tag.attributes.map WrittenAttribute.meaning =
      ts.map WrittenAttribute.meaning := by
    rw [← hmeaning, hattributes, OpenTag.attributesAt, meaning_locateAttributes]
  have hjoins := hformed.joins
  simp only [OpenTag.joins, Bool.and_eq_true] at hjoins
  have hjoin : attributesJoin tag.attributes
      (tagTail tag.trail tag.selfClosing ++ rest) = true := by
    rw [attributesJoin_append (mem_tagTail _ _)]
    exact hjoins.2
  rw [toList_opening hopening, OpenTag.written_eq, OpenTag.written_eq, List.cons_append,
    List.cons_append, htagname, List.append_assoc, List.append_assoc] at hwritten
  have hinside := List.append_cancel_left (List.cons.inj hwritten).2
  rw [OpenTag.inside, OpenTag.inside, List.append_assoc, List.append_assoc] at hinside
  exact lacksValue_of_reads hformed.sound.attributes hjoin hts hlast hmeaning hinside.symm

end

/-! ## Wrappers -/

/-- Whether a name can be that of a generated attribute behind other attributes. -/
def isGeneratedName (name : List Char) : Bool :=
  isPlainName name && name.head?.any startsPlainly

theorem setApart_generatedAttribute {a : String × Option String}
    (h : isGeneratedName a.1.toList = true) : (generatedAttribute a).SetApart := by
  simp only [isGeneratedName, Bool.and_eq_true] at h
  refine ⟨sound_generatedAttribute h.1, rfl, h.2, ?_⟩
  have hplain := h.1
  cases hname : a.1.toList with
  | nil => simp [hname, isPlainName] at hplain
  | cons c tail =>
    rw [hname] at hplain
    simp only [isPlainName, Bool.and_eq_true, bne_iff_ne] at hplain
    rw [generatedAttribute, hname]
    exact hplain.2

theorem lacksValue_generatedAttribute (a : String × Option String) :
    (generatedAttribute a).lacksValue = false := by
  obtain ⟨name, value⟩ := a
  cases value with
  | none => rfl
  | some v =>
    obtain ⟨mark, body, hv, -⟩ := exists_quotedValue v
    simp [WrittenAttribute.lacksValue, generatedAttribute, hv]

/-- **The opening tag of a wrapper** gives the conditions of the element and then the generated
attributes exactly if no condition lacks its value. -/
theorem openingGives_iff {e : Element} {q : Part} {post : List Char}
    (hpart : e.IsPart template pre q post) {name opening : String}
    {as : List (String × Option String)} (hname : isContainerName name.toList = true)
    (has : ∀ a ∈ as, isGeneratedName a.1.toList = true) (hne : as ≠ [])
    (hopening : opening.toList = '<' :: (name.toList ++
      ((liftedConditions template e.toShell).toList ++
        (writtenAttributes (as.map generatedAttribute) ++ ['>'])))) :
    OpeningGives opening name (e.toShell.conditions ++ as) ↔
      ∀ a ∈ e.attributes, isCondition a.name = true → a.lacksValue template = false := by
  obtain ⟨tag, closeTag, rest, hformed, htemplate, hshell⟩ := hpart.exists_tag
  have hattributes : e.attributes = tag.attributesAt (byteLength pre) := by
    rw [hshell]
    rfl
  have hmeaning : (tag.conditions ++ as.map generatedAttribute).map WrittenAttribute.meaning =
      e.toShell.conditions ++ as := by
    rw [List.map_append, meaning_conditions hattributes htemplate, map_meaning_generatedAttribute]
  have htag : opening.toList =
      (apartTag name (tag.conditions ++ as.map generatedAttribute)).written := by
    rw [hopening, written_apartTag, liftedConditions_eq hattributes htemplate]
  have hts : ∀ t ∈ tag.conditions ++ as.map generatedAttribute, t.SetApart := by
    rw [List.forall_mem_append, List.forall_mem_map]
    exact ⟨fun w hw => setApart_condition hformed.sound hw,
      fun a ha => setApart_generatedAttribute (has a ha)⟩
  have hlast : ∀ t, (tag.conditions ++ as.map generatedAttribute).getLast? = some t →
      t.lacksValue = false := by
    intro t ht
    have hne : as.map generatedAttribute ≠ [] := by simpa using hne
    rw [List.getLast?_append, List.getLast?_eq_some_getLast hne, Option.some_or] at ht
    obtain ⟨a, -, ha⟩ := List.mem_map.1 (List.getLast_mem hne)
    rw [← Option.some.inj ht, ← ha]
    exact lacksValue_generatedAttribute a
  have hvalues : (∀ t ∈ tag.conditions ++ as.map generatedAttribute, t.lacksValue = false) ↔
      ∀ w ∈ tag.conditions, w.lacksValue = false := by
    rw [List.forall_mem_append, List.forall_mem_map]
    exact and_iff_left fun a _ => lacksValue_generatedAttribute a
  rw [hattributes, lacksValue_iff hformed.sound htemplate, ← hvalues, ← hmeaning]
  exact ⟨lacksValue_of_openingGives hts hlast htag,
    fun h => openingGives_of_values hname hts h htag⟩

/-- The attributes that are generated for the wrapper of a slot. -/
def slotAttributes (name : SlotName) (data : PropData) : List (String × Option String) :=
  [name.attribute, (":props", some data.expression)]

/-- The attributes that are generated for a boundary. -/
def boundaryAttributes (target : String) (root : Option String) (marker : String) :
    List (String × Option String) :=
  ("to", some target) :: ((root.map fun r => ("root-dir", some r)).toList ++
    [(":island-client", some marker)])

theorem isGeneratedName_slotAttributes (name : SlotName) (data : PropData) :
    ∀ a ∈ slotAttributes name data, isGeneratedName a.1.toList = true := by
  have hname : isGeneratedName name.attribute.1.toList = true := by
    cases name with
    | static _ => show isGeneratedName "name".toList = true; decide
    | dynamic _ => show isGeneratedName ":name".toList = true; decide
  have hprops : isGeneratedName ":props".toList = true := by decide
  exact List.forall_mem_cons.2 ⟨hname, List.forall_mem_singleton.2 hprops⟩

theorem isGeneratedName_boundaryAttributes (target : String) (root : Option String)
    (marker : String) :
    ∀ a ∈ boundaryAttributes target root marker, isGeneratedName a.1.toList = true := by
  have hto : isGeneratedName "to".toList = true := by decide
  have hroot : isGeneratedName "root-dir".toList = true := by decide
  have hclient : isGeneratedName ":island-client".toList = true := by decide
  have hroots : ∀ a ∈ (root.map fun r => ("root-dir", some r)).toList,
      isGeneratedName a.1.toList = true := by
    cases root with
    | none => exact List.forall_mem_nil _
    | some r => exact List.forall_mem_singleton.2 hroot
  exact List.forall_mem_cons.2
    ⟨hto, List.forall_mem_append.2 ⟨hroots, List.forall_mem_singleton.2 hclient⟩⟩

theorem toList_slotOpening (template : List Char) (s : Shell) (data : PropData) :
    (slotOpening template s data).toList = '<' :: (slotComponent.toList ++
      ((liftedConditions template s).toList ++ (writtenAttributes
        ((slotAttributes (SlotName.ofShell s) data).map generatedAttribute) ++ ['>']))) := by
  simp only [slotAttributes, writtenAttributes, List.map_cons, List.flatMap_cons, written_attribute]
  simp [slotOpening, written_generatedAttribute]

theorem toList_boundaryOpening (template : List Char) (id : String) (base : Nat)
    (root : Option String) (marker : String) (s : Shell) :
    (boundaryOpening template id base root marker s).toList = '<' :: (boundaryComponent.toList ++
      ((liftedConditions template s).toList ++ (writtenAttributes
        ((boundaryAttributes (boundaryTarget id base s) root marker).map generatedAttribute) ++
          ['>']))) := by
  cases root <;>
    simp [boundaryOpening, boundaryAttributes, rootAttribute, writtenAttributes,
      written_generatedAttribute]

theorem slotOpening_gives_iff {e : Element} {q : Part} {post : List Char}
    (hpart : e.IsPart template pre q post) (data : PropData) :
    OpeningGives (slotOpening template e.toShell data) slotComponent
        (e.toShell.conditions ++ slotAttributes (SlotName.ofShell e.toShell) data) ↔
      ∀ a ∈ e.attributes, isCondition a.name = true → a.lacksValue template = false :=
  openingGives_iff hpart (by decide) (isGeneratedName_slotAttributes _ _) (List.cons_ne_nil _ _)
    (toList_slotOpening template e.toShell data)

theorem boundaryOpening_gives_iff {e : Element} {q : Part} {post : List Char}
    (hpart : e.IsPart template pre q post) (id : String) (base : Nat) (root : Option String)
    (marker : String) :
    OpeningGives (boundaryOpening template id base root marker e.toShell) boundaryComponent
        (e.toShell.conditions ++
          boundaryAttributes (boundaryTarget id base e.toShell) root marker) ↔
      ∀ a ∈ e.attributes, isCondition a.name = true → a.lacksValue template = false :=
  openingGives_iff hpart (by decide) (isGeneratedName_boundaryAttributes _ _ _)
    (List.cons_ne_nil _ _) (toList_boundaryOpening template id base root marker e.toShell)

/-- **Conditions keep their meaning** on the wrapper of a slot and on a boundary, and the generated
attributes theirs, if and only if no condition lacks its value. Then the opening tag, read by
itself, has exactly the conditions of the element, in order, and behind them what is generated: the
name and the data of the slot, or the address, the root directory and the value of the marker. -/
theorem openings_iff {nodes : List Node} (h : parse template = .ok nodes) :
    (∀ e ∈ allElements nodes, ∀ text name, wrapSlot template e = .ok (text, name) →
      SlotName.Given e.attributes name ∧ ∃ data, slotData e.toShell = .ok data ∧
        text = slotOpening template e.toShell data ++ fallbackSection template e data.repetition ++
          closing slotComponent ∧
        (OpeningGives (slotOpening template e.toShell data) slotComponent
            (e.toShell.conditions ++ slotAttributes name data) ↔
          ∀ a ∈ e.attributes, isCondition a.name = true → a.lacksValue template = false)) ∧
    ∀ e ∈ allElements nodes, ∀ id base root text target,
      wrapBoundary template id base root e = .ok (text, target) →
      target = boundaryTarget id base e.toShell ∧ ∃ marker,
        markerExpression e.toShell = .ok marker ∧
        text = boundaryOpening template id base root marker e.toShell ++ boundaryBody template e ++
          closing boundaryComponent ∧
        (OpeningGives (boundaryOpening template id base root marker e.toShell) boundaryComponent
            (e.toShell.conditions ++ boundaryAttributes target root marker) ↔
          ∀ a ∈ e.attributes, isCondition a.name = true → a.lacksValue template = false) := by
  refine ⟨fun e he text name hwrap => ?_, fun e he id base root text target hwrap => ?_⟩
  · obtain ⟨pre, q, post, hpart⟩ := exists_part_of_mem h he
    obtain ⟨rfl, data, hdata, htext⟩ := wrapSlot_eq_opening hwrap
    exact ⟨SlotName.given_ofShell _, data, hdata, htext, slotOpening_gives_iff hpart data⟩
  · obtain ⟨pre, q, post, hpart⟩ := exists_part_of_mem h he
    obtain ⟨rfl, marker, hmarker, htext⟩ := wrapBoundary_eq_ok hwrap
    exact ⟨rfl, marker, hmarker, htext, boundaryOpening_gives_iff hpart id base root marker⟩

end

/-- A slot with a condition, whose value has a reference and no quotation marks. -/
def conditionalSlot : Element where
  name := "slot"
  attributes := [⟨"v-if", some "a&b", ⟨6, 20⟩⟩, ⟨"name", some "x", ⟨21, 29⟩⟩]
  openTag := ⟨0, 31⟩
  closeTag := none
  children := []

/-- A marked element with a condition that has no value. -/
def conditionalParagraph : Element where
  name := "p"
  attributes := [⟨"v-else", none, ⟨34, 40⟩⟩, ⟨"island-client", none, ⟨41, 54⟩⟩]
  openTag := ⟨31, 55⟩
  closeTag := some ⟨56, 60⟩
  children := [.text ⟨55, 56⟩]

/-- Both conditions are read as they were. -/
theorem openings_iff_values :
    let template := "<slot v-if = a&amp;b name='x'/><p v-else island-client>y</p>".toList
    ∃ nodes, parse template = .ok nodes ∧
      conditionalSlot ∈ allElements nodes ∧ conditionalParagraph ∈ allElements nodes ∧
      (∃ text data, wrapSlot template conditionalSlot = .ok (text, .static "x") ∧
        OpeningGives (slotOpening template conditionalSlot.toShell data) slotComponent
          [("v-if", some "a&b"), ("name", some "x"), (":props", some data.expression)]) ∧
      ∃ text target,
        wrapBoundary template "Card.vue" 0 none conditionalParagraph = .ok (text, target) ∧
        OpeningGives
          (boundaryOpening template "Card.vue" 0 none "true" conditionalParagraph.toShell)
          boundaryComponent
          [("v-else", none), ("to", some target), (":island-client", some "true")] := by
  intro template
  have hparse : parse template =
      .ok [.element conditionalSlot.toShell conditionalSlot.children,
        .element conditionalParagraph.toShell conditionalParagraph.children] := by decide +kernel
  have hall : allElements [.element conditionalSlot.toShell conditionalSlot.children,
      .element conditionalParagraph.toShell conditionalParagraph.children] =
      [conditionalSlot, conditionalParagraph] := by
    rw [allElements_eq]
    rfl
  have hslot := List.mem_cons_self (a := conditionalSlot) (l := [conditionalParagraph])
  have hparagraph := List.mem_cons_of_mem conditionalSlot
    (List.mem_singleton.2 (rfl : conditionalParagraph = conditionalParagraph))
  rw [← hall] at hslot hparagraph
  have hwrap : wrapSlot template conditionalSlot =
      .ok ("<IslandSlot v-if = a&amp;b name=\"x\" :props=\"undefined\"></IslandSlot>",
        .static "x") := by decide +kernel
  obtain ⟨hslots, hboundaries⟩ := openings_iff hparse
  obtain ⟨-, data, -, -, hslotgives⟩ := hslots _ hslot _ _ hwrap
  obtain ⟨-, marker, hmarker, -, hgives⟩ :=
    hboundaries _ hparagraph "Card.vue" 0 none _ _ rfl
  obtain rfl : "true" = marker := Except.ok.inj hmarker
  exact ⟨_, hparse, hslot, hparagraph, ⟨_, data, hwrap, hslotgives.2 (by decide +kernel)⟩,
    _, _, rfl, hgives.2 (by decide +kernel)⟩

/-- A slot with a condition whose value is empty, without quotation marks. -/
def emptyCondition : Element where
  name := "slot"
  attributes := [⟨"v-if", some "", ⟨6, 12⟩⟩]
  openTag := ⟨0, 13⟩
  closeTag := some ⟨13, 20⟩
  children := []

/-- The condition takes the name of the slot for its value. -/
theorem not_openingGives_emptyCondition :
    let template := "<slot v-if= ></slot>".toList
    ∃ nodes text data, parse template = .ok nodes ∧ emptyCondition ∈ allElements nodes ∧
      kindOf emptyCondition.toShell = .slot ∧
      wrapSlot template emptyCondition = .ok (text, .static "default") ∧
      slotData emptyCondition.toShell = .ok data ∧
      ¬OpeningGives (slotOpening template emptyCondition.toShell data) slotComponent
        [("v-if", some ""), ("name", some "default"), (":props", some data.expression)] ∧
      OpeningGives (slotOpening template emptyCondition.toShell data) slotComponent
        [("v-if", some "name=\"default\""), (":props", some data.expression)] := by
  intro template
  have hparse : parse template =
      .ok [.element emptyCondition.toShell emptyCondition.children] := by decide +kernel
  have hmem : emptyCondition ∈
      allElements [.element emptyCondition.toShell emptyCondition.children] := by
    rw [allElements_eq]
    exact List.mem_cons_self ..
  have hwrap : wrapSlot template emptyCondition =
      .ok ("<IslandSlot v-if=  name=\"default\" :props=\"undefined\"></IslandSlot>",
        .static "default") := by decide +kernel
  obtain ⟨pre, q, post, hpart⟩ := exists_part_of_mem hparse hmem
  refine ⟨_, _, _, hparse, hmem, by decide, hwrap, rfl, fun hgives => ?_, ?_⟩
  · have hvalue := (slotOpening_gives_iff hpart _).1 hgives ⟨"v-if", some "", ⟨6, 12⟩⟩
      (List.mem_cons_self ..) (by decide)
    exact absurd hvalue (by decide +kernel)
  · exact ⟨.element ⟨slotComponent, [⟨"v-if", some "name=\"default\"", ⟨12, 33⟩⟩,
      ⟨":props", some "undefined", ⟨34, 52⟩⟩], ⟨0, 53⟩, some ⟨53, 66⟩⟩ [],
      by decide +kernel, _, rfl, rfl, rfl⟩

end Islands
