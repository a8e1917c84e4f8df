import Islands.Proofs.ComponentFile.TemplateContent

/-!
# The blocks of legible markup

The blocks of a file are found without reading its markup. If the markup can be read and is legible,
they are elements of its tree: of those that are not inside a template, the first template with a
closing tag, and all scripts (`blocks_of_legible`). They are the top-level elements of these names
unless another top-level element holds one.

* `findsBlocks_single`, `findsBlocks_raw`, `findsBlocks_template`, `FindsBlocks.between`: the regions
  of an element, by its tags.
* `reads_part`, `reads_parts`: the regions of a file.
-/

namespace Islands.ComponentFile

open Markup

/-! ## Blocks and elements -/

namespace Blocks

/-- The blocks of one part of a file and those of the part behind it. -/
def append (b c : Blocks) : Blocks := ⟨b.template.or c.template, b.scripts ++ c.scripts⟩

theorem ofRegions_append (offset : Nat) (rs ts : List Region) :
    ofRegions offset (rs ++ ts) =
      (ofRegions offset rs).append (ofRegions (offset + byteLength (regionsText rs)) ts) := by
  induction rs generalizing offset with
  | nil => rfl
  | cons r rs ih =>
    rw [List.cons_append, ofRegions, ofRegions, ih, regionsText_cons, byteLength_append,
      ← Nat.add_assoc]
    simp only [append, Option.or_assoc, List.append_assoc]

theorem ofRegions_of_not_isBlock (offset : Nat) {rs : List Region}
    (h : ∀ r ∈ rs, r.isBlock = false) : ofRegions offset rs = ⟨none, []⟩ := by
  induction rs generalizing offset with
  | nil => rfl
  | cons r rs ih =>
    rw [ofRegions, ih _ fun r hr => h r (List.mem_cons_of_mem _ hr)]
    have hr := h r (List.mem_cons_self ..)
    cases r <;> first | rfl | cases hr

end Blocks

/-- The template block that an element is: a template with a closing tag. -/
def templateBlock? (e : Element) : Option TemplateBlock :=
  if blockNamed? e.name.toList = some .template then
    e.inner?.map fun content => ⟨e.span, content⟩
  else none

/-- Whether an element is a script. -/
def isScript (e : Element) : Bool := blockNamed? e.name.toList == some .script

/-- The blocks are those among some elements: the first template with a closing tag, and all
scripts by their opening tags. -/
structure Blocks.Are (b : Blocks) (es : List Element) : Prop where
  template : b.template = es.findSome? templateBlock?
  scripts : b.scripts.map (·.openTag) = (es.filter isScript).map (·.openTag)

theorem Blocks.Are.append {b c : Blocks} {es ds : List Element} (h : b.Are es) (h' : c.Are ds) :
    (b.append c).Are (es ++ ds) where
  template := by rw [Blocks.append, h.template, h'.template, List.findSome?_append]
  scripts := by
    rw [Blocks.append, List.map_append, h.scripts, h'.scripts, List.filter_append,
      List.map_append]

theorem Blocks.are_nil : Blocks.Are ⟨none, []⟩ [] := ⟨rfl, rfl⟩

theorem Blocks.Are.cons {b : Blocks} {es : List Element} {e : Element} (h : b.Are es)
    (htemplate : templateBlock? e = none) (hscript : isScript e = false) : b.Are (e :: es) where
  template := by rw [List.findSome?_cons, htemplate, h.template]
  scripts := by rw [List.filter_cons_of_neg (by simp [hscript]), h.scripts]

mutual

/-- The elements of a node that are not inside a template, each before those inside it. -/
def Node.outer : Node → List Element
  | .text _ => []
  | .comment _ => []
  | .element shell children =>
    ⟨shell, children⟩ ::
      if blockNamed? shell.name.toList = some .template then [] else outerElements children

/-- The elements of some nodes that are not inside a template. -/
def outerElements : List Node → List Element
  | [] => []
  | n :: ns => Node.outer n ++ outerElements ns

end

/-! ## In a file -/

theorem isLegible_outside {name tag content : List Char} {close : Option (List Char)}
    {children : Bool} :
    isLegible false name tag content close children =
      match blockNamed? name with
      | none => passes false tag && children && close.all (passes false)
      | some .template => isPlainTag tag close.isSome && children
      | some block => isPlainTag tag close.isSome && hidesClose block content := by
  unfold isLegible blockSeen?
  rcases blockNamed? name with _ | b
  · rfl
  · cases b <;> rfl

/-- A text that stands at `offset` and is read up to `rest` has the blocks among some elements. -/
def FindsBlocks (offset : Nat) (cs rest : List Char) (es : List Element) : Prop :=
  ∃ rs, Reads cs rs rest ∧ (Blocks.ofRegions offset rs).Are es

section
variable {offset : Nat} {w mid rest : List Char} {es ds : List Element}

theorem FindsBlocks.append (h : FindsBlocks offset (w ++ mid) mid es)
    (h' : FindsBlocks (offset + byteLength w) mid rest ds) :
    FindsBlocks offset (w ++ mid) rest (es ++ ds) := by
  obtain ⟨rs, hreads, hare⟩ := h
  obtain ⟨ts, hreads', hare'⟩ := h'
  have hw : w = regionsText rs := List.append_cancel_right hreads.text
  refine ⟨rs ++ ts, hreads.append hreads', ?_⟩
  rw [Blocks.ofRegions_append, ← hw]
  exact hare.append hare'

theorem findsBlocks_of_passes (offset : Nat) (h : passes false w = true) (hjoint : Joint w rest) :
    FindsBlocks offset (w ++ rest) rest [] := by
  obtain ⟨rs, hreads, hplain⟩ := reads_of_passes h hjoint
  refine ⟨rs, hreads, ?_⟩
  rw [Blocks.ofRegions_of_not_isBlock offset hplain]
  exact Blocks.are_nil

theorem findsBlocks_of_readsAs {cs : List Char} {r : Region} (h : ReadsAs cs r rest)
    (hare : (Blocks.ofRegions offset [r]).Are es) : FindsBlocks offset cs rest es :=
  ⟨[r], .cons h (.nil rest), hare⟩

end

section
variable {offset : Nat} {t : OpenTag} {closeTag : Option Span} {children : List Node}
  {cs rest : List Char} {es : List Element}

theorem outer_shellAt : Node.outer (.element (t.shellAt offset closeTag) children) =
    ⟨t.shellAt offset closeTag, children⟩ ::
      if blockNamed? t.name = some .template then [] else outerElements children := by
  simp only [Node.outer, OpenTag.shellAt, String.toList_ofList]

theorem templateBlock?_shellAt :
    templateBlock? ⟨t.shellAt offset closeTag, children⟩ =
      if blockNamed? t.name = some .template then
        closeTag.map fun c => ⟨⟨offset, c.stop⟩, ⟨offset + byteLength t.written, c.start⟩⟩
      else none := by
  cases closeTag <;>
    simp only [templateBlock?, OpenTag.shellAt, String.toList_ofList, Shell.inner?, Shell.span] <;>
    rfl

theorem isScript_shellAt :
    isScript ⟨t.shellAt offset closeTag, children⟩ = (blockNamed? t.name == some .script) := by
  simp only [isScript, OpenTag.shellAt, String.toList_ofList]

/-- An element that is no block counts no more than what is inside it. -/
theorem FindsBlocks.around (h : FindsBlocks offset cs rest es) (hname : blockNamed? t.name = none) :
    FindsBlocks offset cs rest (⟨t.shellAt offset closeTag, children⟩ :: es) := by
  obtain ⟨rs, hreads, hare⟩ := h
  refine ⟨rs, hreads, hare.cons ?_ ?_⟩
  · rw [templateBlock?_shellAt, hname]
    rfl
  · rw [isScript_shellAt, hname]
    rfl

theorem are_of_region {r : Region}
    (htemplate : r.templateAt offset = templateBlock? ⟨t.shellAt offset closeTag, children⟩)
    (hscript : r.scriptTag? = if blockNamed? t.name = some .script then some t.written else none) :
    (Blocks.ofRegions offset [r]).Are [⟨t.shellAt offset closeTag, children⟩] where
  template := by
    rw [Blocks.ofRegions, List.findSome?_cons, htemplate]
    cases templateBlock? ⟨t.shellAt offset closeTag, children⟩ <;> rfl
  scripts := by
    rw [Blocks.ofRegions, Region.scriptAt, hscript, List.filter_cons, isScript_shellAt]
    by_cases hname : blockNamed? t.name = some .script
    · rw [if_pos hname, if_pos (beq_iff_eq.2 hname)]
      rfl
    · rw [if_neg hname, if_neg (by simpa using hname)]
      rfl

end

theorem outerElements_rawContent (offset : Nat) (body : List Char) :
    outerElements (Assembly.rawContent offset body) = [] := by
  unfold Assembly.rawContent
  split <;> rfl

/-! ### Elements by their tags -/

section
variable {offset : Nat} {tag : OpenTag} {close : CloseTag} {content : List Char}
  {children : List Node}

theorem findsBlocks_single (offset : Nat) (rest : List Char) (hf : tag.Formed)
    (hlegible : isLegible false tag.name tag.written [] none true = true) :
    FindsBlocks offset (tag.written ++ rest) rest [⟨tag.shellAt offset none, []⟩] := by
  rw [isLegible_outside] at hlegible
  cases hname : blockNamed? tag.name with
  | none =>
    rw [hname] at hlegible
    simp only [Option.all_none, Bool.and_true] at hlegible
    exact (findsBlocks_of_passes offset hlegible (joint_openTag tag rest)).around hname
  | some b =>
    have hplain : isPlainTag tag.written false = true := by
      rw [hname] at hlegible
      cases b <;> simp_all
    refine findsBlocks_of_readsAs (.selfClosed (opensBlock_of_isPlainTag hf hplain hname)
      (readTag_of_isPlainTag hplain []).2) (are_of_region ?_ ?_)
    · rw [templateBlock?_shellAt, Option.map_none, ite_self]
      rfl
    · rw [hname]
      cases b <;> rfl

theorem findsBlocks_raw (offset : Nat) (rest : List Char) {inside : Bool} (hf : tag.Formed)
    (hclose : close.Sound) (hraw : isRawName tag.name = true)
    (hsame : sameLetters close.name tag.name = true)
    (hlegible : isLegible false tag.name tag.written content (some close.written) inside = true) :
    FindsBlocks offset (tag.written ++ (content ++ (close.written ++ rest))) rest
      [⟨tag.shellAt offset (some
        (spanAt (offset + byteLength tag.written + byteLength content) close.written)),
        children⟩] := by
  obtain ⟨b, hname, hb⟩ : ∃ b, blockNamed? tag.name = some b ∧ b ≠ .template := by
    rcases blockNamed?_of_isRawName hraw with h | h
    · exact ⟨_, h, by decide⟩
    · exact ⟨_, h, by decide⟩
  have hlegible : isPlainTag tag.written true = true ∧ hidesClose b content = true := by
    rw [isLegible_outside, hname] at hlegible
    cases b <;> simp_all
  have hletters : sameLetters close.name b.letters = true :=
    blockNamed?_eq_some_iff.1 ((blockNamed?_congr hsame).trans hname)
  refine findsBlocks_of_readsAs (.embedded hb (opensBlock_of_isPlainTag hf hlegible.1 hname)
    (readTag_of_isPlainTag hlegible.1 []).2
    (readEmbedded_of_hidesClose hclose hlegible.2 hletters _)) (are_of_region ?_ ?_)
  · rw [templateBlock?_shellAt, hname, if_neg (by simpa using hb)]
    rfl
  · rw [hname]
    cases b <;> rfl

/-- A template block, whatever its content is, if it is read through to the closing tag. -/
theorem findsBlocks_template (offset : Nat) (rest : List Char) (hf : tag.Formed)
    (hclose : close.Sound) (hname : blockNamed? tag.name = some .template)
    (hsame : sameLetters tag.name close.name = true)
    (hplain : isPlainTag tag.written true = true)
    (hcontent : readTemplate 0 (content ++ (close.written ++ rest)) =
      (readTemplate 0 (close.written ++ rest)).map (prepend content)) :
    FindsBlocks offset (tag.written ++ (content ++ (close.written ++ rest))) rest
      [⟨tag.shellAt offset (some
        (spanAt (offset + byteLength tag.written + byteLength content) close.written)),
        children⟩] := by
  have hends := closesTemplate_written hclose
    (blockNamed?_eq_some_iff.1 ((blockNamed?_congr hsame).symm.trans hname))
  have hread : readTemplate 0 (content ++ (close.written ++ rest)) =
      some (content, close.written, rest) := by
    rw [hcontent, readTemplate_at_end hends, Option.map_some, prepend, List.append_nil]
  refine findsBlocks_of_readsAs (.template (opensBlock_of_isPlainTag hf hplain hname)
    (readTag_of_isPlainTag hplain []).2 hread) (are_of_region ?_ ?_)
  · rw [templateBlock?_shellAt, if_pos hname]
    rfl
  · rw [hname]
    rfl

theorem FindsBlocks.between {rest : List Char} {closeTag : Option Span} {es : List Element}
    (hinside : FindsBlocks (offset + byteLength tag.written)
      (content ++ (close.written ++ rest)) (close.written ++ rest) es)
    (hname : blockNamed? tag.name = none) (htag : passes false tag.written = true)
    (hend : passes false close.written = true) :
    FindsBlocks offset (tag.written ++ (content ++ (close.written ++ rest))) rest
      (⟨tag.shellAt offset closeTag, children⟩ :: es) := by
  have hfront := findsBlocks_of_passes offset htag
    (joint_openTag tag (content ++ (close.written ++ rest)))
  have hback := findsBlocks_of_passes
    (offset + byteLength tag.written + byteLength content) hend (joint_closeTag close rest)
  have h := hfront.append (hinside.append hback)
  rw [List.append_nil, List.nil_append] at h
  exact h.around hname

end

/-! ### Parts -/

mutual

/-- **The blocks of a part** are those among its elements that are not inside a template. -/
theorem reads_part :
    ∀ (p : Part) {ts : List Token}, p.Paired → Readable (p.tokens ++ ts) →
      Part.legible false p = true → ∀ offset,
      FindsBlocks offset (p.written ++ writtenTokens ts) (writtenTokens ts)
        (Node.outer (p.nodeAt offset))
  | .text body, ts, _, hr, hlegible => by
    intro offset
    rw [Part.written_text]
    exact findsBlocks_of_passes offset hlegible (joint_text hr)
  | .comment body, ts, _, hr, hlegible => by
    intro offset
    rw [Part.written_comment]
    exact findsBlocks_of_passes offset hlegible
      (joint_comment (hr.sound (List.mem_cons_self ..) rfl) _)
  | .single tag, ts, _, hr, hlegible => by
    intro offset
    have hf : tag.Formed := (hr.sound (List.mem_cons_self ..) rfl : Token.Sound (.openTag tag)).1
    rw [Part.written_single, Part.nodeAt, outer_shellAt, outerElements, ite_self]
    exact findsBlocks_single offset _ hf hlegible
  | .raw tag body close, ts, hp, hr, hlegible => by
    intro offset
    have hsound : Token.Sound (.raw tag body close) := hr.sound (List.mem_cons_self ..) rfl
    obtain ⟨hf, -, -, hclose, hsame, -⟩ := hsound
    rw [Part.written_raw, List.append_assoc, List.append_assoc, Part.nodeAt, outer_shellAt,
      outerElements_rawContent, ite_self]
    exact findsBlocks_raw offset _ hf hclose hp.2.1 hsame hlegible
  | .element tag children close, ts, hp, hr, hlegible => by
    intro offset
    obtain ⟨hf, hr', hclose⟩ := readable_of_element hr
    rw [Part.legible, isLegible_outside] at hlegible
    rw [Part.written_element, List.append_assoc, List.append_assoc, Part.nodeAt, outer_shellAt]
    cases hname : blockNamed? tag.name with
    | none =>
      rw [hname] at hlegible
      simp only [isInside, hname, Option.all_some, Bool.and_eq_true] at hlegible
      obtain ⟨⟨htag, hinside⟩, hend⟩ := hlegible
      rw [if_neg (by simp)]
      exact (reads_parts children hp.2.2 hr' hinside _).between hname htag hend
    | some b =>
      cases b with
      | script | style =>
        have hraw := isRawName_of_blockNamed? hname (by decide)
        rw [hp.1.not_raw] at hraw
        cases hraw
      | template =>
        rw [hname] at hlegible
        simp only [isInside, hname, Option.isSome_some, Bool.and_eq_true] at hlegible
        rw [if_pos rfl]
        exact findsBlocks_template offset _ hf hclose.sound hname hp.2.1 hlegible.1
          ((standsFor_parts children hp.2.2 hr'.left hlegible.2).reads (joint_of_markup _ rfl) 0)

theorem reads_parts :
    ∀ (ps : List Part) {ts : List Token}, PairedAll ps → Readable (tokensOf ps ++ ts) →
      legibleParts false ps = true → ∀ offset,
      FindsBlocks offset (writtenOf ps ++ writtenTokens ts) (writtenTokens ts)
        (outerElements (nodesAt offset ps))
  | [], ts, _, _, _ => fun offset => ⟨[], .nil _, Blocks.are_nil⟩
  | p :: ps, ts, hp, hr, hlegible => by
    intro offset
    rw [tokensOf_cons, List.append_assoc] at hr
    rw [legibleParts, Bool.and_eq_true] at hlegible
    have hfirst := reads_part p hp.1 hr hlegible.1 offset
    rw [writtenTokens_append] at hfirst
    rw [writtenOf_cons, List.append_assoc, nodesAt_cons, outerElements]
    exact FindsBlocks.append hfirst (reads_parts ps hp.2 hr.right hlegible.2 _)

end

/-! ## Whole files -/

/-- No element but a template holds a block. -/
def BlocksOnTop (nodes : List Node) : Prop :=
  ∀ e ∈ elementsOf nodes, blockNamed? e.name.toList ≠ some .template →
    ∀ d ∈ outerElements e.children, templateBlock? d = none ∧ isScript d = false

instance (nodes : List Node) : Decidable (BlocksOnTop nodes) :=
  inferInstanceAs (Decidable (∀ e ∈ elementsOf nodes, _))

theorem no_blocks {es : List Element} (h : ∀ d ∈ es, templateBlock? d = none ∧ isScript d = false) :
    es.findSome? templateBlock? = none ∧ es.filter isScript = [] :=
  ⟨List.findSome?_eq_none_iff.2 fun d hd => (h d hd).1,
    List.filter_eq_nil_iff.2 fun d hd => by simp [(h d hd).2]⟩

/-- The top-level elements have all blocks if no other element holds one. -/
theorem BlocksOnTop.same_blocks {nodes : List Node} (h : BlocksOnTop nodes) :
    (outerElements nodes).findSome? templateBlock? =
        (elementsOf nodes).findSome? templateBlock? ∧
      (outerElements nodes).filter isScript = (elementsOf nodes).filter isScript := by
  induction nodes with
  | nil => exact ⟨rfl, rfl⟩
  | cons n ns ih =>
    cases n with
    | text => exact ih h
    | comment => exact ih h
    | element shell children =>
      rw [BlocksOnTop, elementsOf_element, List.forall_mem_cons] at h
      obtain ⟨hhead, htail⟩ := h
      obtain ⟨htemplate, hscripts⟩ := ih htail
      have hinside : ∀ d ∈ (if blockNamed? shell.name.toList = some .template then []
          else outerElements children), templateBlock? d = none ∧ isScript d = false := by
        split
        · exact fun _ hd => nomatch hd
        · rename_i hname
          exact hhead hname
      obtain ⟨hnone, hnil⟩ := no_blocks hinside
      rw [elementsOf_element, outerElements, Node.outer, List.findSome?_append,
        List.findSome?_cons, hnone, List.findSome?_cons, htemplate, List.filter_append,
        List.filter_cons, hnil, List.filter_cons, hscripts]
      refine ⟨?_, ?_⟩
      · cases templateBlock? ⟨shell, children⟩ <;> rfl
      · split <;> rfl

theorem BlocksOnTop.are {b : Blocks} {nodes : List Node} (h : BlocksOnTop nodes)
    (hare : b.Are (outerElements nodes)) : b.Are (elementsOf nodes) :=
  ⟨hare.template.trans h.same_blocks.1, hare.scripts.trans (congrArg _ h.same_blocks.2)⟩

/-- **The blocks of legible markup** are those among the elements that are not inside a template:
the first template with a closing tag, and all scripts. If no element but a template holds a block,
they are the top-level elements of these names. -/
theorem blocks_of_legible {cs : List Char} {nodes : List Node} (hparse : parse cs = .ok nodes)
    (hlegible : legibleAll cs false nodes = true) :
    (Blocks.ofSource cs).Are (outerElements nodes) ∧
      (BlocksOnTop nodes → (Blocks.ofSource cs).Are (elementsOf nodes)) := by
  obtain ⟨ps, hpair, hread, rfl, rfl⟩ := parse_eq_ok_iff.1 hparse
  have hparts := legibleAll_nodesAt false [] [] ps
  rw [List.append_nil, List.nil_append, byteLength_nil, hlegible] at hparts
  rw [← List.append_nil (tokensOf ps)] at hread
  obtain ⟨rs, hreads, hare⟩ := reads_parts ps hpair hread hparts.symm 0
  rw [writtenTokens_nil, List.append_nil] at hreads
  have hregions : regions (writtenOf ps) = rs := by
    rw [hreads.regions, regions]
    simp [readRegion]
  rw [← hregions] at hare
  exact ⟨hare, fun htop => htop.are hare⟩

/-- A file with templates in its script and inside its template, and with a script in a comment. -/
def legibleFile : List Char :=
  ("<script setup>'<template>'</script>\n<!-- <script> -->\n" ++
  "<template a=\">\"><b><template #c>d</template></b></template>\n<docs>1 < 2</docs>").toList

theorem blocks_of_legible_file :
    ∃ nodes, parse legibleFile = .ok nodes ∧ legibleAll legibleFile false nodes = true ∧
      BlocksOnTop nodes ∧ (Blocks.ofSource legibleFile).Are (outerElements nodes) ∧
      (Blocks.ofSource legibleFile).Are (elementsOf nodes) := by
  have h : (match parse legibleFile with
      | .ok nodes => legibleAll legibleFile false nodes && decide (BlocksOnTop nodes)
      | .error _ => false) = true := by decide +kernel
  cases hparse : parse legibleFile with
  | error e =>
    rw [hparse] at h
    cases h
  | ok nodes =>
    rw [hparse] at h
    simp only [Bool.and_eq_true, decide_eq_true_eq] at h
    obtain ⟨houter, htop⟩ := blocks_of_legible hparse h.1
    exact ⟨nodes, rfl, h.1, h.2, houter, htop h.2⟩

/-! ## Markup that is not legible -/

instance (b : Blocks) (es : List Element) : Decidable (b.Are es) :=
  decidable_of_iff (_ ∧ _) ⟨fun h => ⟨h.1, h.2⟩, fun h => ⟨h.template, h.scripts⟩⟩

/-- A file with a template inside another element. -/
def nestedTemplate : List Char := "<docs><template>x</template></docs>".toList

/-- The nodes of `nestedTemplate`. -/
def nestedTemplateNodes : List Node :=
  [.element ⟨"docs", [], ⟨0, 6⟩, some ⟨28, 35⟩⟩
    [.element ⟨"template", [], ⟨6, 16⟩, some ⟨17, 28⟩⟩ [.text ⟨16, 17⟩]]]

/-- Files in which the scan for blocks is led astray: a template in a comment, in an interpolation,
in a script and in the value of an attribute, and templates whose opening tags seem to go on or to
close themselves. -/
def astray : List String :=
  ["<!--><template>x</template>-->", "\x7b\x7b '<template>x</template>' \x7d\x7d",
    "<script>'</scripts><template>x</template>'</script>", "<p a='<template>x</template>'/>",
    "<template a=it's>x</template>", "<template a=b/>x</template>"]

/-- A template inside another element is found although no top-level element is one; and in markup
that is not legible the blocks that are found are not the top-level elements either. -/
theorem not_are_topLevel :
    (parse nestedTemplate = .ok nestedTemplateNodes ∧
      (elementsOf nestedTemplateNodes).findSome? templateBlock? = none ∧
      Blocks.ofSource nestedTemplate = ⟨some ⟨⟨6, 28⟩, ⟨16, 17⟩⟩, []⟩ ∧
      ¬(Blocks.ofSource nestedTemplate).Are (elementsOf nestedTemplateNodes)) ∧
    ∀ s ∈ astray, ∃ nodes, parse s.toList = .ok nodes ∧
      ¬(Blocks.ofSource s.toList).Are (elementsOf nodes) := by
  have h : ∀ s ∈ astray, (match parse s.toList with
      | .ok nodes => decide (¬(Blocks.ofSource s.toList).Are (elementsOf nodes))
      | .error _ => false) = true := by decide +kernel
  refine ⟨by decide +kernel, fun s hs => ?_⟩
  have h := h s hs
  cases hparse : parse s.toList with
  | error e =>
    rw [hparse] at h
    cases h
  | ok nodes =>
    rw [hparse] at h
    exact ⟨nodes, rfl, of_decide_eq_true h⟩

end Islands.ComponentFile
