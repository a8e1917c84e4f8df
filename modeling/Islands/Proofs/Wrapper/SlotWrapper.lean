import Islands.Proofs.Wrapper.Contributions
import Islands.Proofs.Wrapper.GeneratedMarkup
import Islands.Proofs.Wrapper.Stripping

/-!
# The wrapper of a slot

What takes the place of a slot is text, put together from quoted values and from the slot's content
as it is written. `parse_wrapSlot` says what is read when the text is read again: one wrapper whose
attributes mean the name and the data of the slot, and inside it the nodes of the slot, elsewhere in
the text but otherwise the same. The content was closed by the slot's closing tag, so it is closed
by the tags around it now (`enclosable_children`).
-/

namespace Islands

open Markup

/-! ## Nodes -/

/-- A node is an element of this name, whose attributes have these names and values and whose
children are these. -/
def Markup.Node.IsElement (n : Node) (name : String) (attributes : List (String × Option String))
    (children : List Node) : Prop :=
  ∃ shell, n = .element shell children ∧ shell.name = name ∧
    shell.attributes.map Attribute.meaning = attributes

/-- Two lists of nodes are the same but for the place in which they stand. -/
def Moved (as bs : List Node) : Prop := ∃ m n ns, as = shiftAll m ns ∧ bs = shiftAll n ns

theorem moved_nodesAt (m n : Nat) (ps : List Part) : Moved (nodesAt m ps) (nodesAt n ps) :=
  ⟨m, n, nodesAt 0 ps, nodesAt_shift m 0 ps, nodesAt_shift n 0 ps⟩

theorem isElement_nodeAt (offset : Nat) (name : String) (as : List (String × Option String))
    (ps : List Part) : ∃ inside,
      ((generatedElement name as ps).nodeAt offset).IsElement name as (nodesAt inside ps) := by
  refine ⟨_, _, rfl, String.ofList_toList, ?_⟩
  show (locateAttributes _ (as.map generatedAttribute)).map Attribute.meaning = as
  rw [meaning_locateAttributes, map_meaning_generatedAttribute]

/-! ## Names -/

/-- The attribute that gives the name to the wrapper. -/
def SlotName.attribute : SlotName → String × Option String
  | static name => ("name", some name)
  | dynamic expression => (":name", some expression)

/-! ## The fallback -/

/-- What a wrapper holds of the nodes in a slot: nothing if there are none, and otherwise a section
with the nodes, or with a section around them that repeats as the slot did. -/
def HoldsFallback (children : List Node) (repetition : Option Repetition) (content : List Node) :
    Prop :=
  if children = [] then content = []
  else ∃ fallback inside, content = [fallback] ∧
    fallback.IsElement "template" [("#fallback", none)] inside ∧
    match repetition with
    | none => Moved children inside
    | some r => ∃ round nodes, inside = [round] ∧
      round.IsElement "template" [("v-for", some r.directive)] nodes ∧ Moved children nodes

/-- The parts that repeat as a slot did. -/
def roundParts (repetition : Option Repetition) (ps : List Part) : List Part :=
  match repetition with
  | none => ps
  | some r => [generatedElement "template" [("v-for", some r.directive)] ps]

/-- The parts of a wrapper's content, given those of the slot. -/
def fallbackParts (repetition : Option Repetition) (ps : List Part) : List Part :=
  if ps.isEmpty then []
  else [generatedElement "template" [("#fallback", none)] (roundParts repetition ps)]

section
variable {template : List Char} {e : Element} {ps : List Part} {repetition : Option Repetition}

theorem enclosable_fallbackParts (h : Enclosable ps) :
    Enclosable (fallbackParts repetition ps) := by
  have hround : Enclosable (roundParts repetition ps) := by
    cases repetition with
    | none => exact h
    | some r =>
      exact enclosable_generatedElement (by decide)
        (List.forall_mem_singleton.2 (show isPlainName "v-for".toList = true by decide)) h
  unfold fallbackParts
  split
  · exact enclosable_nil
  · exact enclosable_generatedElement (by decide)
      (List.forall_mem_singleton.2 (show isPlainName "#fallback".toList = true by decide)) hround

theorem holdsFallback_nodesAt (m n : Nat) (ps : List Part) :
    HoldsFallback (nodesAt m ps) repetition (nodesAt n (fallbackParts repetition ps)) := by
  unfold HoldsFallback fallbackParts
  cases ps with
  | nil => rfl
  | cons p ps =>
    have hne : nodesAt m (p :: ps) ≠ [] := List.cons_ne_nil _ _
    rw [if_neg hne]
    obtain ⟨inside, hfallback⟩ := isElement_nodeAt n "template" [("#fallback", none)]
      (roundParts repetition (p :: ps))
    refine ⟨_, _, rfl, hfallback, ?_⟩
    cases repetition with
    | none => exact moved_nodesAt _ _ _
    | some r =>
      obtain ⟨_, hround⟩ := isElement_nodeAt inside "template" [("v-for", some r.directive)]
        (p :: ps)
      exact ⟨_, _, rfl, hround, moved_nodesAt _ _ _⟩

theorem children_eq_nil_of_inner? {pre post : List Char} {q : Part}
    (h : e.IsPart template pre q post) (hinner : e.inner? = none) : e.children = [] := by
  have hnode := h.node
  cases q with
  | text body => cases hnode
  | comment body => cases hnode
  | single tag => exact (Node.element.inj hnode).2.symm
  | raw tag body close =>
    rw [← (Node.element.inj hnode).1] at hinner
    cases hinner
  | element tag children close =>
    rw [← (Node.element.inj hnode).1] at hinner
    cases hinner

/-- Without list keys in it, a slot's content is carried over as it is written. -/
theorem fallbackText_eq_cut (inner : Span)
    (hkeys : ∀ d ∈ e.descendants, ∀ a ∈ d.attributes, isItemKey a.name = false) :
    fallbackText template e inner = String.ofList (inner.cut template) := by
  have hnone : (e.descendants.flatMap fun d => d.attributes.filter (isItemKey ·.name)) = [] :=
    List.flatMap_eq_nil_iff.2 fun d hd => List.filter_eq_nil_iff.2 fun a ha => by
      simp [hkeys d hd a ha]
  rw [fallbackText, hnone, partWithout, List.map_nil, List.mergeSort_nil, cutAround]

/-- **The content of a wrapper** as text, given the parts of the slot. -/
theorem fallbackSection_eq {inner : Span} (hinner : e.inner? = some inner)
    (hcut : inner.cut template = writtenOf ps) (hempty : e.children.isEmpty = ps.isEmpty)
    (hkeys : ∀ d ∈ e.descendants, ∀ a ∈ d.attributes, isItemKey a.name = false) :
    (fallbackSection template e repetition).toList = writtenOf (fallbackParts repetition ps) := by
  unfold fallbackSection fallbackParts
  simp only [hinner, fallbackText_eq_cut inner hkeys, hcut, hempty]
  split
  · rfl
  · cases repetition <;>
      simp [roundParts, written_generatedElement, written_generatedAttribute]

/-- The parts of a slot give its nodes, and the text that its wrapper holds. -/
theorem exists_parts_of_slot {nodes : List Node} (hparse : parse template = .ok nodes)
    (he : e ∈ allElements nodes) (hslot : e.name = "slot")
    (hkeys : ∀ d ∈ e.descendants, ∀ a ∈ d.attributes, isItemKey a.name = false) :
    ∃ offset ps, Enclosable ps ∧ e.children = nodesAt offset ps ∧
      ∀ repetition, (fallbackSection template e repetition).toList =
        writtenOf (fallbackParts repetition ps) := by
  obtain ⟨pre, q, post, hpart⟩ := exists_part_of_mem hparse he
  cases hinner : e.inner? with
  | none =>
    refine ⟨0, [], enclosable_nil, children_eq_nil_of_inner? hpart hinner, fun repetition => ?_⟩
    simp only [fallbackSection, hinner]
    rfl
  | some inner =>
    obtain ⟨tag, children, close, rfl, htext, rfl, hchildren⟩ :=
      exists_children_of_slot hpart hslot hinner
    refine ⟨_, children, enclosable_children hpart.paired hpart.readable, hchildren.symm,
      fun repetition => fallbackSection_eq hinner ?_ ?_ hkeys⟩
    · rw [htext, cut_spanAt]
    · rw [← hchildren]
      cases children <;> rfl

end

/-! ## The wrapper -/

/-- The wrapper of a slot with these parts. -/
def wrapperPart (name : SlotName) (data : PropData) (ps : List Part) : Part :=
  generatedElement slotComponent [name.attribute, (":props", some data.expression)]
    (fallbackParts data.repetition ps)

theorem liftedConditions_eq_empty {template : List Char} {s : Shell}
    (h : ∀ a ∈ s.attributes, isCondition a.name = false) : liftedConditions template s = "" := by
  have hnone : s.attributes.filter (isCondition ·.name) = [] :=
    List.filter_eq_nil_iff.2 fun a ha => by simp [h a ha]
  rw [liftedConditions, hnone]
  rfl

theorem written_attribute (name : SlotName) :
    (generatedAttribute name.attribute).written = (" " ++ name.attributeText).toList := by
  rw [written_generatedAttribute]
  cases name <;> simp [SlotName.attribute, SlotName.attributeText]

theorem isPlainName_attribute (name : SlotName) : isPlainName name.attribute.1.toList = true := by
  cases name with
  | static _ => show isPlainName "name".toList = true; decide
  | dynamic _ => show isPlainName ":name".toList = true; decide

theorem enclosable_wrapperPart (name : SlotName) (data : PropData) {ps : List Part}
    (h : Enclosable ps) : Enclosable [wrapperPart name data ps] := by
  have hplain : ∀ a ∈ [name.attribute, (":props", some data.expression)],
      isPlainName a.1.toList = true :=
    List.forall_mem_cons.2 ⟨isPlainName_attribute name,
      List.forall_mem_singleton.2 (show isPlainName ":props".toList = true by decide)⟩
  exact enclosable_generatedElement (by decide) hplain (enclosable_fallbackParts h)

/-- **The text that takes the place of a slot** is its wrapper. -/
theorem wrapSlot_eq_written {template : List Char} {e : Element} {text : String} {name : SlotName}
    {ps : List Part} (hwrap : wrapSlot template e = .ok (text, name))
    (hconditions : ∀ a ∈ e.attributes, isCondition a.name = false)
    (hfallback : ∀ repetition, (fallbackSection template e repetition).toList =
      writtenOf (fallbackParts repetition ps)) :
    name = SlotName.ofShell e.toShell ∧ ∃ data, slotData e.toShell = .ok data ∧
      text.toList = (wrapperPart name data ps).written := by
  obtain ⟨hname, data, hdata, rfl⟩ := wrapSlot_eq_ok hwrap
  refine ⟨hname, data, hdata, ?_⟩
  simp only [wrapperPart, written_generatedElement, List.map_cons, List.flatMap_cons,
    written_attribute, liftedConditions_eq_empty hconditions]
  simp [written_generatedAttribute, hfallback]

/-- **What takes the place of a slot** is read as one wrapper. Its attributes give the name and the
data of the slot, and it holds the nodes of the slot, if there are any, as they were, in a section
that repeats if the slot has a `v-for`. The slot has no conditions, and no element inside it a list
key. -/
theorem parse_wrapSlot {template : List Char} {nodes : List Node} {e : Element} {text : String}
    {name : SlotName} (hparse : parse template = .ok nodes) (he : e ∈ allElements nodes)
    (hslot : kindOf e.toShell = .slot) (hwrap : wrapSlot template e = .ok (text, name))
    (hconditions : ∀ a ∈ e.attributes, isCondition a.name = false)
    (hkeys : ∀ d ∈ e.descendants, ∀ a ∈ d.attributes, isItemKey a.name = false) :
    SlotName.Given e.attributes name ∧
    ∃ data wrapper content, slotData e.toShell = .ok data ∧
      data = PropData.collected
        (e.attributes.filter fun a => !isSlotName a.name && !isCondition a.name) ∧
      Repetition.Given e.attributes data.repetition ∧ parse text.toList = .ok [wrapper] ∧
      wrapper.IsElement slotComponent [name.attribute, (":props", some data.expression)] content ∧
      HoldsFallback e.children data.repetition content := by
  obtain ⟨offset, ps, hps, hchildren, hfallback⟩ :=
    exists_parts_of_slot hparse he (kindOf_eq_slot_iff.1 hslot) hkeys
  obtain ⟨rfl, data, hdata, htext⟩ := wrapSlot_eq_written hwrap hconditions hfallback
  have hwrapper := enclosable_wrapperPart (SlotName.ofShell e.toShell) data hps
  obtain ⟨inside, helement⟩ := isElement_nodeAt 0 slotComponent
    [(SlotName.ofShell e.toShell).attribute, (":props", some data.expression)]
    (fallbackParts data.repetition ps)
  have hparse : parse text.toList =
      .ok [(wrapperPart (SlotName.ofShell e.toShell) data ps).nodeAt 0] := by
    refine parse_eq_ok_iff.2 ⟨_, hwrapper.paired, hwrapper.readable, ?_, rfl⟩
    rw [htext, writtenOf_cons, writtenOf_nil, List.append_nil]
  have hholds : HoldsFallback e.children data.repetition
      (nodesAt inside (fallbackParts data.repetition ps)) := by
    rw [hchildren]
    exact holdsFallback_nodesAt offset inside ps
  exact ⟨SlotName.given_ofShell _, data, _, _, hdata, (PropData.ofAttributes_eq_ok_iff.1 hdata).2,
    Repetition.given_of_slotData hdata, hparse, helement, hholds⟩

/-- A template with a slot that repeats. -/
def listTemplate : List Char :=
  "<div><slot name='a&amp;b' v-for='i in xs' label='\"'>{{ i }}<b/></slot></div>".toList

/-- The slot in the template. -/
def listSlot : Element where
  name := "slot"
  attributes := [⟨"name", some "a&b", ⟨11, 25⟩⟩, ⟨"v-for", some "i in xs", ⟨26, 41⟩⟩,
    ⟨"label", some "\"", ⟨42, 51⟩⟩]
  openTag := ⟨5, 52⟩
  closeTag := some ⟨63, 70⟩
  children := [.text ⟨52, 59⟩, .element ⟨"b", [], ⟨59, 63⟩, none⟩ []]

/-- A slot that repeats, with a name and a prop that are quoted. -/
theorem parse_wrapSlot_list :
    ∃ nodes text, parse listTemplate = .ok nodes ∧ listSlot ∈ allElements nodes ∧
      kindOf listSlot.toShell = .slot ∧
      wrapSlot listTemplate listSlot = .ok (text, .static "a&b") ∧
      (∀ a ∈ listSlot.attributes, isCondition a.name = false) ∧
      (∀ d ∈ listSlot.descendants, ∀ a ∈ d.attributes, isItemKey a.name = false) ∧
      ∃ data wrapper content, slotData listSlot.toShell = .ok data ∧
        data.repetition = some ⟨"i in xs", "i", "xs"⟩ ∧
        Repetition.Given listSlot.attributes data.repetition ∧
        parse text.toList = .ok [wrapper] ∧
        wrapper.IsElement "IslandSlot" [("name", some "a&b"), (":props", some data.expression)]
          content ∧
        HoldsFallback listSlot.children data.repetition content := by
  have hparse : parse listTemplate =
      .ok [.element ⟨"div", [], ⟨0, 5⟩, some ⟨70, 76⟩⟩
        [.element listSlot.toShell listSlot.children]] := by decide +kernel
  have he : listSlot ∈ allElements [.element ⟨"div", [], ⟨0, 5⟩, some ⟨70, 76⟩⟩
      [.element listSlot.toShell listSlot.children]] := by
    rw [allElements_eq]
    exact List.mem_cons_of_mem _ (List.mem_cons_self ..)
  have hkind : kindOf listSlot.toShell = .slot := by decide
  have hwrap : wrapSlot listTemplate listSlot =
      .ok ("<IslandSlot name=\"a&amp;b\" :props='__iterToArray(xs).map((i) => (\x7b label: " ++
        "\"\\\"\" \x7d))'><template #fallback><template v-for=\"i in xs\">{{ i }}<b/>" ++
        "</template></template></IslandSlot>", .static "a&b") := by decide +kernel
  have hconditions : ∀ a ∈ listSlot.attributes, isCondition a.name = false := by decide
  have hkeys : ∀ d ∈ listSlot.descendants, ∀ a ∈ d.attributes, isItemKey a.name = false := by
    rw [descendants_eq]
    decide
  obtain ⟨-, data, wrapper, content, hdata, hcollected, hrest⟩ :=
    parse_wrapSlot hparse he hkind hwrap hconditions hkeys
  have hrepetition : data.repetition = some ⟨"i in xs", "i", "xs"⟩ := by
    rw [hcollected]
    decide +kernel
  exact ⟨_, _, hparse, he, hkind, hwrap, hconditions, hkeys, data, wrapper, content, hdata,
    hrepetition, hrest⟩

end Islands
