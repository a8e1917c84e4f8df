import Islands.Proofs.Markup.Spacing
import Islands.Proofs.Wrapper.Erasure
import Islands.Proofs.Wrapper.Outermost
import Islands.Wrapper.Boundary
import Islands.Wrapper.Slot

/-!
# What is left of a wrapped element

The body of a boundary is the text of its element without the markers and the conditions, the
fallback of a slot its content without the list keys. The attributes are taken out of the text, so
what is left may be read as something else: in `<div a=b island-client/>` the value `b` is then
followed by the slash. `stripping_iff` says exactly when it is read as what it should be: if no tag
loses its form (`Element.keepsTag`). None does where attributes are written in the usual way
(`stripping_of_spaced`).
-/

namespace Islands

open Markup

/-! ## Tags that keep their form -/

/-- Whether the opening tag of an element, without the attributes whose names are among `p`, is
still read as that. -/
def Markup.Element.keepsTag (template : List Char) (p : String → Bool) (e : Element) : Bool :=
  match readOpenTag ((e.openTag.cut template).drop 1) with
  | .ok (tag, _) => tag.keeps p e.closeTag.isSome
  | .error _ => false

/-- Whether the opening tag of an element has its attributes written in the usual way. -/
def Markup.Element.spaced (template : List Char) (e : Element) : Bool :=
  match readOpenTag ((e.openTag.cut template).drop 1) with
  | .ok (tag, _) => tag.spaced
  | .error _ => false

section
variable {template : List Char} {p : String → Bool}

theorem keepsTag_of_spaced {e : Element} (h : e.spaced template = true) :
    e.keepsTag template p = true := by
  unfold Element.spaced at h
  unfold Element.keepsTag
  split at h
  · rename_i tag rest hread
    obtain ⟨-, hs, -, hends⟩ := readOpenTag_eq_ok_iff.1 hread
    exact OpenTag.keeps_of_spaced hs hends h _
  · cases h

/-- The tag of an element is read again from its place. -/
theorem readOpenTag_cut {tag : OpenTag} (ht : tag.Formed) {pre post : List Char}
    (htemplate : template = pre ++ (tag.written ++ post)) :
    readOpenTag (((spanAt (byteLength pre) tag.written).cut template).drop 1) = .ok (tag, []) := by
  rw [htemplate, cut_spanAt pre tag.written post]
  exact readOpenTag_eq_ok_iff.2
    ⟨by rw [OpenTag.written_eq]; simp, ht.sound, ht.joins, ht.endsAsSaid⟩

theorem keepsTag_shellAt {tag : OpenTag} (ht : tag.Formed) {pre post : List Char}
    (htemplate : template = pre ++ (tag.written ++ post)) (closeTag : Option Span)
    (children : List Node) :
    Element.keepsTag template p ⟨tag.shellAt (byteLength pre) closeTag, children⟩ =
      tag.keeps p closeTag.isSome := by
  unfold Element.keepsTag
  simp only [OpenTag.shellAt, readOpenTag_cut ht htemplate]

/-- The tags in a node keep their form: its own without the attributes among `own`, those inside it
without the ones among `inner`. -/
def Markup.Node.KeepsTags (template : List Char) (inner own : String → Bool) : Node → Prop
  | .text _ => True
  | .comment _ => True
  | .element shell children =>
    Element.keepsTag template own ⟨shell, children⟩ = true ∧
      ∀ d ∈ elementsIn children, d.keepsTag template inner = true

theorem keepsTags_iff_elements {n : Node} :
    n.KeepsTags template p p ↔ ∀ d ∈ n.elements, d.keepsTag template p = true := by
  cases n with
  | text => exact ⟨fun _ _ hd => (nomatch hd), fun _ => trivial⟩
  | comment => exact ⟨fun _ _ hd => (nomatch hd), fun _ => trivial⟩
  | element shell children => rw [Node.elements_element, List.forall_mem_cons, Node.KeepsTags]

mutual

theorem keeps_iff (inner : String → Bool) :
    ∀ (q : Part) (own : String → Bool) {pre post : List Char}, TagsSound q.tokens →
      template = pre ++ (q.written ++ post) →
      (q.Keeps inner own ↔ (q.nodeAt (byteLength pre)).KeepsTags template inner own)
  | .text body, own, pre, post, _, _ => Iff.rfl
  | .comment body, own, pre, post, _, _ => Iff.rfl
  | .single tag, own, pre, post, hs, htemplate => by
    have ht : tag.Formed := hs.openTag
    rw [Part.written_single] at htemplate
    rw [Part.nodeAt, Node.KeepsTags, keepsTag_shellAt ht htemplate, Part.Keeps]
    simp
  | .raw tag body close, own, pre, post, hs, htemplate => by
    have ht := (hs (.raw tag body close) (List.mem_singleton.2 rfl) rfl).1
    rw [Part.written_raw, List.append_assoc] at htemplate
    rw [Part.nodeAt, Node.KeepsTags, keepsTag_shellAt ht htemplate, elementsIn_rawContent,
      Part.Keeps]
    simp
  | .element tag children close, own, pre, post, hs, htemplate => by
    have ht : tag.Formed := hs.openTag
    rw [Part.written_element, List.append_assoc, List.append_assoc] at htemplate
    have htemplate' : template = (pre ++ tag.written) ++
        (writtenOf children ++ (close.written ++ post)) := by
      rw [htemplate, List.append_assoc]
    have hinside := keepsAll_iff inner children hs.children htemplate'
    rw [byteLength_append] at hinside
    rw [Part.nodeAt, Node.KeepsTags, keepsTag_shellAt ht htemplate, Part.Keeps, hinside]
    exact Iff.rfl

theorem keepsAll_iff (inner : String → Bool) :
    ∀ (qs : List Part) {pre post : List Char}, TagsSound (tokensOf qs) →
      template = pre ++ (writtenOf qs ++ post) →
      (KeepsAll inner qs ↔
        ∀ d ∈ elementsIn (nodesAt (byteLength pre) qs), d.keepsTag template inner = true)
  | [], pre, post, _, _ => ⟨fun _ _ hd => (nomatch hd), fun _ => trivial⟩
  | q :: qs, pre, post, hs, htemplate => by
    rw [writtenOf_cons, List.append_assoc] at htemplate
    have htemplate' : template = (pre ++ q.written) ++ (writtenOf qs ++ post) := by
      rw [htemplate, List.append_assoc]
    have hbehind := keepsAll_iff inner qs hs.right htemplate'
    rw [byteLength_append] at hbehind
    rw [KeepsAll, keeps_iff inner q inner hs.left htemplate, keepsTags_iff_elements, hbehind,
      nodesAt_cons, elementsIn_cons, List.forall_mem_append]

end

end

/-! ## Boundaries -/

/-- Whether an attribute of a marked element does not stay on it: the markers go, the conditions
move to the boundary. -/
def leavesElement (name : String) : Bool := isMarker name || isCondition name

/-- What stands between the tags of an element's boundary. -/
def boundaryBody (template : List Char) (e : Element) : String :=
  partWithout template e.span (boundaryRemovals template e)

/-- The body of an element's boundary is read as one element, which means what the element means
without the markers in it and its own conditions. -/
def BodyKeepsMeaning (template : List Char) (e : Element) : Prop :=
  ∃ n, parse (boundaryBody template e).toList = .ok [n] ∧
    n.outline (boundaryBody template e).toList =
      (e.outline template).without isMarker leavesElement

/-- The fallback of a slot is read as nodes that mean what is in the slot without the list keys. -/
def FallbackKeepsMeaning (template : List Char) (e : Element) (inner : Span) : Prop :=
  ∃ ns, parse (fallbackText template e inner).toList = .ok ns ∧
    outlines (fallbackText template e inner).toList ns =
      withoutAll isItemKey (outlines template e.children)

theorem not_isMarker_of_isCondition {name : String} (h : isCondition name = true) :
    isMarker name = false := by
  simp only [isCondition, Bool.or_eq_true, beq_iff_eq] at h
  rcases h with (rfl | rfl) | rfl <;> decide

theorem boundaryRemovals_perm (template : List Char) (e : Element) :
    (boundaryRemovals template e).Perm
      (((Node.element e.toShell e.children).named isMarker leavesElement).map
        (Attribute.removal template)) := by
  have hmarkers : (e.attributes.filter (leavesElement ·.name)).filter (isMarker ·.name) =
      e.attributes.filter (isMarker ·.name) := by
    rw [List.filter_filter]
    apply List.filter_congr
    intro a _
    rw [leavesElement]
    cases isMarker a.name <;> rfl
  have hconditions :
      ((e.attributes.filter (leavesElement ·.name)).filter fun a => !isMarker a.name) =
        e.attributes.filter (isCondition ·.name) := by
    rw [List.filter_filter]
    apply List.filter_congr
    intro a _
    rw [leavesElement]
    cases h : isCondition a.name with
    | true => rw [not_isMarker_of_isCondition h]; rfl
    | false => cases isMarker a.name <;> rfl
  have hown := List.filter_append_perm (fun a : Attribute => isMarker a.name)
    (e.attributes.filter (leavesElement ·.name))
  rw [hmarkers, hconditions] at hown
  rw [boundaryRemovals, Node.named, namedInside, ← descendants_eq, List.flatMap_cons]
  refine .map _ (.trans ?_ (hown.append_right _))
  rw [List.append_assoc, List.append_assoc]
  exact List.perm_append_comm.append_left _

section
variable {template pre post : List Char} {q : Part} {e : Element}

theorem Markup.Element.IsPart.outline_eq (h : e.IsPart template pre q post) :
    e.outline template = q.outline := by
  rw [Element.outline, ← h.node, h.text, outline_nodeAt]

/-- **The body of a boundary** is what is left of the part. -/
theorem boundaryBody_eq (h : e.IsPart template pre q post) :
    boundaryBody template e = String.ofList (q.strip isMarker leavesElement).written := by
  have herased := erased_strip isMarker q leavesElement h.readable.tagsSound h.text (.nil _ [])
  rw [List.append_nil, List.append_nil, List.append_nil, h.node] at herased
  rw [boundaryBody, h.span_eq]
  exact partWithout_of_erased h.text (boundaryRemovals_perm template e) herased

theorem bodyKeepsMeaning_iff (h : e.IsPart template pre q post) :
    BodyKeepsMeaning template e ↔
      e.keepsTag template leavesElement = true ∧
        ∀ d ∈ e.descendants, d.keepsTag template isMarker = true := by
  rw [BodyKeepsMeaning, boundaryBody_eq h, String.toList_ofList, h.outline_eq,
    parse_strip_iff h.paired h.readable,
    keeps_iff isMarker q leavesElement h.readable.tagsSound h.text, h.node, Node.KeepsTags,
    descendants_eq]

/-! ## Slots -/

/-- What stands between the tags of a slot is markup, and is read as its children. -/
theorem exists_children_of_slot (h : e.IsPart template pre q post) (hslot : e.name = "slot")
    {inner : Span} (hinner : e.inner? = some inner) :
    ∃ tag children close, q = .element tag children close ∧
      template = (pre ++ tag.written) ++ (writtenOf children ++ (close.written ++ post)) ∧
      inner = spanAt (byteLength (pre ++ tag.written)) (writtenOf children) ∧
      nodesAt (byteLength (pre ++ tag.written)) children = e.children := by
  have hnode := h.node
  have hpaired := h.paired
  have htext := h.text
  cases q with
  | text body => cases hnode
  | comment body => cases hnode
  | single tag =>
    obtain ⟨hshell, -⟩ := Node.element.inj hnode
    rw [← hshell] at hinner
    cases hinner
  | raw tag body close =>
    obtain ⟨hshell, -⟩ := Node.element.inj hnode
    have hname : String.ofList tag.name = "slot" := by
      rw [← hslot, ← hshell]
      rfl
    have hname := congrArg String.toList hname
    rw [String.toList_ofList] at hname
    have hraw := hpaired.2.1
    rw [hname, show isRawName "slot".toList = false by decide] at hraw
    cases hraw
  | element tag children close =>
    obtain ⟨hshell, hchildren⟩ := Node.element.inj hnode
    refine ⟨tag, children, close, rfl, ?_, ?_, ?_⟩
    · rw [htext, Part.written_element]
      simp
    · rw [← hshell] at hinner
      obtain rfl := Option.some.inj hinner
      simp [OpenTag.shellAt, spanAt]
    · rw [byteLength_append]
      exact hchildren

theorem fallbackText_of_parts {children : List Part} {pre post : List Char} {inner : Span}
    (hr : TagsSound (tokensOf children)) (htext : template = pre ++ (writtenOf children ++ post))
    (hspan : inner = spanAt (byteLength pre) (writtenOf children))
    (hchildren : nodesAt (byteLength pre) children = e.children) :
    fallbackText template e inner = String.ofList (writtenOf (stripAll isItemKey children)) := by
  have herased := erased_stripAll isItemKey children hr htext (.nil _ [])
  rw [List.append_nil, List.append_nil, List.append_nil, hchildren] at herased
  rw [fallbackText, hspan, descendants_eq]
  exact partWithout_of_erased htext (.refl _) herased

/-- **The fallback of a slot** is what is left of the parts inside it. -/
theorem fallbackKeepsMeaning_iff (h : e.IsPart template pre q post) (hslot : e.name = "slot")
    {inner : Span} (hinner : e.inner? = some inner) :
    FallbackKeepsMeaning template e inner ↔
      ∀ d ∈ e.descendants, d.keepsTag template isItemKey = true := by
  obtain ⟨tag, children, close, rfl, htext, hspan, hchildren⟩ :=
    exists_children_of_slot h hslot hinner
  have hr : Readable (tokensOf children) := h.readable.tail.left
  have hbody := fallbackText_of_parts hr.tagsSound htext hspan hchildren
  have houtlines : outlines template e.children = outlinesOf children := by
    rw [← hchildren, htext]
    exact outlines_nodesAt _ _ children
  rw [FallbackKeepsMeaning, hbody, String.toList_ofList, houtlines,
    parse_stripAll_iff h.paired.2.2 hr, keepsAll_iff isItemKey children hr.tagsSound htext,
    hchildren, descendants_eq]

end

/-! ## Templates -/

/-- **Stripping attributes** keeps the meaning of markup exactly if no tag loses its form. What
stands in a boundary is read as the element without the markers in it and its own conditions, and
the fallback of a slot as what is in the slot without the list keys, if and only if each opening
tag is still read without these attributes as it was with them. -/
theorem stripping_iff {template : List Char} {nodes : List Node}
    (h : parse template = .ok nodes) :
    (∀ e ∈ allElements nodes, ∀ id base root text target,
      wrapBoundary template id base root e = .ok (text, target) →
      (∃ attributes, text = "<" ++ boundaryComponent ++ attributes ++ ">" ++
        boundaryBody template e ++ "</" ++ boundaryComponent ++ ">") ∧
      (BodyKeepsMeaning template e ↔
        e.keepsTag template leavesElement = true ∧
          ∀ d ∈ e.descendants, d.keepsTag template isMarker = true)) ∧
    (∀ e ∈ allElements nodes, kindOf e.toShell = .slot → ∀ inner, e.inner? = some inner →
      (FallbackKeepsMeaning template e inner ↔
        ∀ d ∈ e.descendants, d.keepsTag template isItemKey = true)) := by
  refine ⟨?_, ?_⟩
  · intro e he id base root text target hwrap
    obtain ⟨pre, q, post, hpart⟩ := exists_part_of_mem h he
    refine ⟨?_, bodyKeepsMeaning_iff hpart⟩
    unfold wrapBoundary at hwrap
    split at hwrap
    · cases hwrap
    · rename_i marker _
      obtain ⟨rfl, -⟩ := Prod.mk.inj (Except.ok.inj hwrap)
      refine ⟨liftedConditions template e.toShell ++ " to=" ++
        quoteAttribute (boundaryTarget id base e.toShell) ++ rootAttribute root ++
        " :island-client=" ++ quoteAttribute marker, ?_⟩
      simp only [String.append_assoc]
      rfl
  · intro e he hkind inner hinner
    obtain ⟨pre, q, post, hpart⟩ := exists_part_of_mem h he
    exact fallbackKeepsMeaning_iff hpart (kindOf_eq_slot_iff.1 hkind) hinner

/-- A value in quotation marks ends where it did. -/
theorem stripping_iff_quoted :
    ∃ nodes, parse "<div a='b' island-client/>".toList = .ok nodes ∧ ∃ e ∈ allElements nodes,
      BodyKeepsMeaning "<div a='b' island-client/>".toList e := by
  have hparse : parse "<div a='b' island-client/>".toList = .ok [.element
      ⟨"div", [⟨"a", some "b", ⟨5, 10⟩⟩, ⟨"island-client", none, ⟨11, 24⟩⟩], ⟨0, 26⟩, none⟩
      []] := by
    decide +kernel
  refine ⟨_, hparse, _, by rw [allElements_eq]; exact List.mem_cons_self .., ?_⟩
  refine ((stripping_iff hparse).1 _ (by rw [allElements_eq]; exact List.mem_cons_self ..)
    "Card.vue" 0 none _ _ rfl).2.2 ⟨by decide +kernel, ?_⟩
  rw [descendants_eq]
  exact List.forall_mem_nil _

/-- A value without them goes on to the slash, and the element is left open. -/
theorem not_bodyKeepsMeaning_bare :
    ∃ nodes, parse "<div a=b island-client/>".toList = .ok nodes ∧ ∃ e ∈ allElements nodes,
      kindOf e.toShell = .clientBoundary ∧
      (∃ wrapped,
        wrapBoundary "<div a=b island-client/>".toList "Card.vue" 0 none e = .ok wrapped) ∧
      ¬BodyKeepsMeaning "<div a=b island-client/>".toList e := by
  have hparse : parse "<div a=b island-client/>".toList = .ok [.element
      ⟨"div", [⟨"a", some "b", ⟨5, 8⟩⟩, ⟨"island-client", none, ⟨9, 22⟩⟩], ⟨0, 24⟩, none⟩ []] := by
    decide +kernel
  refine ⟨_, hparse, _, by rw [allElements_eq]; exact List.mem_cons_self .., by decide, ?_, ?_⟩
  · exact ⟨_, rfl⟩
  · intro hkeeps
    obtain ⟨pre, q, post, hpart⟩ :=
      exists_part_of_mem hparse (by rw [allElements_eq]; exact List.mem_cons_self ..)
    exact absurd ((bodyKeepsMeaning_iff hpart).1 hkeeps).1 (by decide +kernel)

/-- **Attributes in the usual way**: where blanks stand in front of every attribute and values are
between quotation marks, stripping keeps the meaning. -/
theorem stripping_of_spaced {template : List Char} {nodes : List Node}
    (h : parse template = .ok nodes) :
    (∀ e ∈ allElements nodes, (∀ d ∈ e :: e.descendants, d.spaced template = true) →
      BodyKeepsMeaning template e) ∧
    (∀ e ∈ allElements nodes, kindOf e.toShell = .slot → ∀ inner, e.inner? = some inner →
      (∀ d ∈ e.descendants, d.spaced template = true) → FallbackKeepsMeaning template e inner) := by
  refine ⟨?_, ?_⟩
  · intro e he hs
    obtain ⟨pre, q, post, hpart⟩ := exists_part_of_mem h he
    rw [List.forall_mem_cons] at hs
    exact (bodyKeepsMeaning_iff hpart).2
      ⟨keepsTag_of_spaced hs.1, fun d hd => keepsTag_of_spaced (hs.2 d hd)⟩
  · intro e he hkind inner hinner hs
    obtain ⟨pre, q, post, hpart⟩ := exists_part_of_mem h he
    exact (fallbackKeepsMeaning_iff hpart (kindOf_eq_slot_iff.1 hkind) hinner).2
      fun d hd => keepsTag_of_spaced (hs d hd)

end Islands
