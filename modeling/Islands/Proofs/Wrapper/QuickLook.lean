import Islands.Wrapper.File
import Islands.Proofs.Markup.Outline

/-!
# The look at the text hides no target

A target shows in the text of its template: the tag of a slot is written as `<slot` with a character
behind it that ends the name, and a client marker is written with the marker's plain name in it
(`mayContainTargets_of_kindOf`). So a template that is passed over after the look at its text has
no target and no boundary to warn about, and without the look the result for its file would be the
same.

* `holdsWord_append`: a word that stands in a text is found.
* `mayContainTargets_complete`: the look is an optimisation and nothing more.
-/

namespace Islands

open Markup ComponentFile

/-! ## Words in a text -/

/-- A word that stands in a text, in front of a character of class `p` or of the end, is found. -/
theorem holdsWord_append {p : Char → Bool} (pre word post : List Char)
    (hpost : ∀ c ∈ post.head?, p c = true) :
    holdsWord p word (pre ++ (word ++ post)) = true := by
  induction pre with
  | nil =>
    rw [List.nil_append]
    cases htext : word ++ post with
    | nil =>
      obtain ⟨rfl, rfl⟩ := List.append_eq_nil_iff.1 htext
      rfl
    | cons c cs =>
      have hdrop : dropWord? word (c :: cs) = some post := dropWord?_eq_some_iff.2 htext.symm
      rw [holdsWord, hdrop, Bool.or_eq_true]
      left
      cases post with
      | nil => rfl
      | cons d post => exact hpost d rfl
  | cons c pre ih => rw [List.cons_append, holdsWord, ih, Bool.or_true]

/-! ## Attributes in a tag -/

namespace Markup

theorem exists_written_of_mem {a : Attribute} {offset : Nat} {as : List WrittenAttribute}
    (h : a ∈ locateAttributes offset as) : ∃ w ∈ as, a.name = String.ofList w.name := by
  induction as generalizing offset with
  | nil => cases h
  | cons w as ih =>
    rcases List.mem_cons.1 h with rfl | h
    · exact ⟨w, List.mem_cons_self .., rfl⟩
    · obtain ⟨v, hv, hname⟩ := ih h
      exact ⟨v, List.mem_cons_of_mem _ hv, hname⟩

theorem exists_append_of_mem_attributes {w : WrittenAttribute} {t : OpenTag}
    (h : w ∈ t.attributes) : ∃ x y, t.written = x ++ (w.name ++ y) := by
  obtain ⟨as, bs, hsplit⟩ := List.append_of_mem h
  refine ⟨'<' :: (t.name ++ (writtenAttributes as ++ w.lead)),
    (w.assignment.map Assignment.written).getD [] ++
      (writtenAttributes bs ++ tagTail t.trail t.selfClosing), ?_⟩
  rw [OpenTag.written_eq, OpenTag.inside, hsplit, writtenAttributes, List.flatMap_append,
    List.flatMap_cons]
  simp [writtenAttributes, WrittenAttribute.written, WrittenAttribute.core]

end Markup

/-! ## Targets show -/

/-- A client marker, in any spelling, has the plain name in it. -/
theorem exists_append_markerName {name : String} (h : isMarker name = true) :
    ∃ x, name.toList = x ++ markerName.toList := by
  simp only [isMarker, Bool.or_eq_true, beq_iff_eq] at h
  rcases h with (rfl | rfl) | rfl
  · exact ⟨[], rfl⟩
  · exact ⟨[':'], rfl⟩
  · exact ⟨"v-bind:".toList, rfl⟩

section
variable {cs pre post : List Char} {p : Part} {e : Element}

theorem mayContainTargets_of_slot (h : e.IsPart cs pre p post) (hname : e.name = "slot") :
    mayContainTargets cs = true := by
  obtain ⟨tag, closeTag, rest, hformed, hcs, hshell⟩ := h.exists_tag
  have htag : tag.name = "slot".toList := by
    have hslot : (tag.shellAt (byteLength pre) closeTag).name = "slot" := by rw [← hshell, hname]
    rw [← hslot]
    exact String.toList_ofList.symm
  have hjoins := hformed.joins
  rw [OpenTag.joins, Bool.and_eq_true, Option.any_eq_true] at hjoins
  obtain ⟨⟨c, hc, hend⟩, -⟩ := hjoins
  obtain ⟨tail, htail⟩ := List.head?_eq_some_iff.1 hc
  have hsplit : cs = pre ++ ("<slot".toList ++ (c :: (tail ++ rest))) := by
    rw [hcs, OpenTag.written_eq, htag, htail]
    simp
  rw [mayContainTargets, Bool.or_eq_true]
  right
  rw [hsplit]
  refine holdsWord_append _ _ _ fun d hd => ?_
  obtain rfl : c = d := by simpa using hd
  -- what ends a name is what the look asks for behind it
  simpa [isNameChar] using hend

theorem mayContainTargets_of_marker (h : e.IsPart cs pre p post) {a : Attribute}
    (ha : a ∈ e.attributes) (hmarker : isMarker a.name = true) : mayContainTargets cs = true := by
  obtain ⟨tag, closeTag, rest, -, hcs, hshell⟩ := h.exists_tag
  have hattributes : e.attributes = tag.attributesAt (byteLength pre) := by
    rw [hshell]
    rfl
  rw [hattributes] at ha
  obtain ⟨w, hw, hname⟩ := exists_written_of_mem ha
  obtain ⟨x, y, hwritten⟩ := exists_append_of_mem_attributes hw
  obtain ⟨z, hz⟩ := exists_append_markerName hmarker
  have hwname : w.name = z ++ markerName.toList := by
    rw [← hz, hname]
    exact String.toList_ofList.symm
  have hsplit : cs = (pre ++ (x ++ z)) ++ (markerName.toList ++ (y ++ rest)) := by
    rw [hcs, hwritten, hwname]
    simp only [List.append_assoc]
  rw [mayContainTargets, Bool.or_eq_true]
  left
  rw [hsplit]
  exact holdsWord_append _ _ _ fun _ _ => rfl

/-- **What is no plain element shows in the text**, at any depth. -/
theorem mayContainTargets_of_kindOf (h : e.IsPart cs pre p post)
    (hkind : kindOf e.toShell ≠ .plain) : mayContainTargets cs = true := by
  unfold kindOf at hkind
  split at hkind
  · rename_i hname
    exact mayContainTargets_of_slot h hname
  · split at hkind
    · rename_i hmarker
      obtain ⟨a, ha⟩ := Option.isSome_iff_exists.1 hmarker
      exact mayContainTargets_of_marker h (List.mem_of_find?_eq_some ha)
        (List.find?_some (p := fun a : Attribute => isMarker a.name) ha)
    · exact absurd rfl hkind

end

/-! ## Templates without targets -/

mutual

theorem findTargetsIn_eq_empty (p : Policy) :
    ∀ n : Node, (∀ e ∈ n.elements, kindOf e.toShell = .plain) → findTargetsIn p n = .empty
  | .text _, _ => rfl
  | .comment _, _ => rfl
  | .element shell children, h => by
    rw [Node.elements_element, List.forall_mem_cons] at h
    have hplain : kindOf shell = .plain := h.1
    have hrefuses : p.refuses .plain = false := by simp [Policy.refuses]
    have hchildren := findTargets_eq_empty p children h.2
    unfold findTargetsIn
    rw [hplain, hchildren, hrefuses]
    rfl

theorem findTargets_eq_empty (p : Policy) :
    ∀ ns : List Node, (∀ e ∈ elementsIn ns, kindOf e.toShell = .plain) → findTargets p ns = .empty
  | [], _ => rfl
  | n :: ns, h => by
    have hn := findTargetsIn_eq_empty p n fun e he => h e (List.mem_append_left _ he)
    have hns := findTargets_eq_empty p ns fun e he => h e (List.mem_append_right _ he)
    rw [findTargets, hn, hns]
    rfl

end

/-- A template that is passed over has no target and no boundary to warn about. -/
theorem findTargets_of_passedOver {template : List Char} {nodes : List Node} (p : Policy)
    (hparse : parse template = .ok nodes) (hlook : mayContainTargets template = false) :
    findTargets p nodes = .empty := by
  apply findTargets_eq_empty
  intro e he
  rw [← allElements_eq] at he
  obtain ⟨pre, q, post, hpart⟩ := exists_part_of_mem hparse he
  by_cases hkind : kindOf e.toShell = .plain
  · exact hkind
  · have := mayContainTargets_of_kindOf hpart hkind
    rw [hlook] at this
    cases this

theorem wrapTargets_empty (site : Site) (blocks : Blocks) :
    wrapTargets site blocks .empty = .asIs [] := rfl

/-! ## Files -/

/-- The result for a file when every template is read, whatever its text looks like. -/
def wrapFileWithoutLook (id source : String) (options : Options) : Outcome :=
  let cs := source.toList
  let blocks := Blocks.ofSource cs
  match blocks.template with
  | none => .asIs []
  | some t => wrapTemplate ⟨id, cs, t.content.start, t.content.cut cs, options⟩ blocks

/-- **The look at the text hides nothing.** Whatever the policy, a template that can be read and is
passed over has no target and no boundary to warn about; so the result for a file whose template
can be read is the one that it would have without the look. -/
theorem mayContainTargets_complete :
    (∀ (template : List Char) (nodes : List Node) (p : Policy), parse template = .ok nodes →
      mayContainTargets template = false →
      (findTargets p nodes).targets = [] ∧ (findTargets p nodes).refused = none) ∧
    ∀ id source options,
      (∀ t, (Blocks.ofSource source.toList).template = some t →
        ∃ nodes, parse (t.content.cut source.toList) = .ok nodes) →
      wrapFile id source options = wrapFileWithoutLook id source options := by
  refine ⟨fun template nodes p hparse hlook => ?_, fun id source options hreadable => ?_⟩
  · rw [findTargets_of_passedOver p hparse hlook]
    exact ⟨rfl, rfl⟩
  · unfold wrapFile wrapFileWithoutLook
    cases ht : (Blocks.ofSource source.toList).template with
    | none => simp only [ht]
    | some t =>
      simp only [ht]
      cases hlook : mayContainTargets (t.content.cut source.toList) with
      | true => rfl
      | false =>
        obtain ⟨nodes, hparse⟩ := hreadable t ht
        simp only [wrapTemplate, hparse, findTargets_of_passedOver _ hparse hlook,
          wrapTargets_empty]
        rfl

/-- A tag that only begins like that of a slot, in a template and in a file. -/
theorem mayContainTargets_complete_slots :
    (∃ nodes, parse "<slots island='client'/>".toList = .ok nodes ∧
      mayContainTargets "<slots island='client'/>".toList = false ∧
      (findTargets .wrap nodes).targets = [] ∧ (findTargets .wrap nodes).refused = none) ∧
    wrapFile "a.vue" "<template><slots/></template>" {} =
      wrapFileWithoutLook "a.vue" "<template><slots/></template>" {} := by
  have hparse : parse "<slots island='client'/>".toList = .ok [.element
      ⟨"slots", [⟨"island", some "client", ⟨7, 22⟩⟩], ⟨0, 24⟩, none⟩ []] := by decide +kernel
  have hlook : mayContainTargets "<slots island='client'/>".toList = false := by decide +kernel
  refine ⟨⟨_, hparse, hlook, mayContainTargets_complete.1 _ _ _ hparse hlook⟩,
    mayContainTargets_complete.2 _ _ _ fun t ht => ?_⟩
  have hblock : (Blocks.ofSource "<template><slots/></template>".toList).template =
      some ⟨⟨0, 29⟩, ⟨10, 18⟩⟩ := by decide +kernel
  rw [hblock] at ht
  obtain rfl := Option.some.inj ht
  exact ⟨[.element ⟨"slots", [], ⟨0, 8⟩, none⟩ []], by decide +kernel⟩

end Islands
