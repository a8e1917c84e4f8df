import Islands.Proofs.Draft.Splice
import Islands.Proofs.Markup.Alignment
import Islands.Proofs.Markup.AttributeLayout
import Islands.Wrapper.Strip

/-!
# Markup without its attributes

The ranges that go with some attributes of a part are erased from its text (`Erased`): what is left
are the characters of the stripped part (`erased_strip`, `erased_stripAll`). The ranges ascend and
none is empty, so it does not matter in which order they are given
(`partWithout_of_erased`).
-/

namespace Islands

open Markup

/-! ## Erased ranges -/

/-- The patch that takes a range out. -/
def erasure (r : Span) : Patch := ⟨r, ""⟩

/-- The text `cs`, which starts at an offset, is `out` without some ranges, none of them empty. -/
structure Erased (start : Nat) (cs : List Char) (rs : List Span) (out : List Char) : Prop where
  spliced : Spliced start cs (rs.map erasure) out
  nonempty : ∀ r ∈ rs, r.start < r.stop

namespace Erased

variable {start : Nat} {cs out : List Char} {r : Span} {rs : List Span}

theorem nil (start : Nat) (cs : List Char) : Erased start cs [] cs :=
  ⟨.rest start cs, List.forall_mem_nil _⟩

theorem cons {before covered after : List Char} (hne : covered ≠ [])
    (hstart : start + byteLength before = r.start) (hstop : r.start + byteLength covered = r.stop)
    (h : Erased r.stop after rs out) :
    Erased start (before ++ (covered ++ after)) (r :: rs) (before ++ out) := by
  refine ⟨.patch before covered after hstart hstop h.spliced, fun r' hr' => ?_⟩
  rcases List.mem_cons.1 hr' with rfl | hr'
  · have := byteLength_pos hne
    omega
  · exact h.nonempty r' hr'

theorem prepend (a : List Char) (h : Erased (start + byteLength a) cs rs out) :
    Erased start (a ++ cs) rs (a ++ out) := ⟨h.spliced.prepend a, h.nonempty⟩

theorem exists_of_cons (h : Erased start cs (r :: rs) out) :
    ∃ before covered after out', cs = before ++ (covered ++ after) ∧ out = before ++ out' ∧
      start + byteLength before = r.start ∧ r.start + byteLength covered = r.stop ∧
      Erased r.stop after rs out' := by
  obtain ⟨before, covered, after, out', hcs, hout, hstart, hstop, h'⟩ := h.spliced.exists_of_cons
  exact ⟨before, covered, after, out', hcs, hout, hstart, hstop, h',
    fun r' hr' => h.nonempty r' (List.mem_cons_of_mem _ hr')⟩

theorem apart (h : Erased start cs rs out) :
    (∀ r ∈ rs, start ≤ r.start) ∧ rs.Pairwise fun a b => a.stop ≤ b.start := by
  induction rs generalizing start cs out with
  | nil => exact ⟨List.forall_mem_nil _, .nil⟩
  | cons r rs ih =>
    have hr := h.nonempty r (List.mem_cons_self ..)
    obtain ⟨before, covered, after, out', -, -, hstart, -, h'⟩ := h.exists_of_cons
    obtain ⟨hle, hpair⟩ := ih h'
    refine ⟨fun r' hr' => ?_, List.pairwise_cons.2 ⟨hle, hpair⟩⟩
    rcases List.mem_cons.1 hr' with rfl | hr'
    · omega
    · have := hle r' hr'
      omega

/-- **Erased ranges** are cut out of the text. -/
theorem cutAround_eq {pre : List Char} (post : List Char) (h : Erased (byteLength pre) cs rs out) :
    cutAround (pre ++ (cs ++ post)) (byteLength pre) (byteLength pre + byteLength cs) rs = out := by
  induction rs generalizing pre cs out with
  | nil =>
    have hspliced := h.spliced
    rw [List.map_nil] at hspliced
    cases hspliced
    exact Span.cut_append pre cs post
  | cons r rs ih =>
    obtain ⟨before, covered, after, out', rfl, rfl, hstart, hstop, h'⟩ := h.exists_of_cons
    have hpre : byteLength (pre ++ (before ++ covered)) = r.stop := by
      rw [byteLength_append, byteLength_append]
      omega
    rw [← hpre] at h'
    have ih := ih h'
    have hcut := Span.cut_append pre before (covered ++ (after ++ post))
    have hwithin : ¬(r.start < byteLength pre ∨
        byteLength pre + byteLength (before ++ (covered ++ after)) < r.stop) := by
      rw [byteLength_append, byteLength_append]
      omega
    rw [cutAround, if_neg hwithin, ← hstart]
    simp only [byteLength_append, List.append_assoc, ← Nat.add_assoc] at ih hcut ⊢
    rw [hcut, ← hstop, ← hstart, ih]

end Erased

theorem ascending_of_apart {ds : List Span} (h : ds.Pairwise fun a b => a.stop ≤ b.start)
    (hne : ∀ d ∈ ds, d.start < d.stop) : ds.Pairwise fun a b => a.start < b.start :=
  h.imp_of_mem fun ha _ hab => Nat.lt_of_lt_of_le (hne _ ha) hab

theorem eq_of_ascending {ds : List Span} (h : ds.Pairwise fun a b => a.start < b.start) {a b : Span}
    (ha : a ∈ ds) (hb : b ∈ ds) (hab : a.start = b.start) : a = b := by
  induction ds with
  | nil => cases ha
  | cons d ds ih =>
    obtain ⟨hd, hds⟩ := List.pairwise_cons.1 h
    rcases List.mem_cons.1 ha with rfl | ha'
    · rcases List.mem_cons.1 hb with rfl | hb'
      · rfl
      · have := hd b hb'
        omega
    · rcases List.mem_cons.1 hb with rfl | hb'
      · have := hd a ha'
        omega
      · exact ih hds ha' hb'

/-- Ranges that ascend are found in this order whatever the order they are given in. -/
theorem mergeSort_of_perm {rs ds : List Span} (h : rs.Perm ds)
    (hasc : ds.Pairwise fun a b => a.start < b.start) :
    (rs.mergeSort fun a b => a.start ≤ b.start) = ds := by
  have htrans : ∀ a b c : Span, decide (a.start ≤ b.start) = true →
      decide (b.start ≤ c.start) = true → decide (a.start ≤ c.start) = true := by
    intro a b c hab hbc
    simp only [decide_eq_true_eq] at *
    omega
  have htotal : ∀ a b : Span,
      (decide (a.start ≤ b.start) || decide (b.start ≤ a.start)) = true := by
    intro a b
    simp only [Bool.or_eq_true, decide_eq_true_eq]
    omega
  have hperm : (rs.mergeSort fun a b => a.start ≤ b.start).Perm ds :=
    (List.mergeSort_perm rs _).trans h
  refine hperm.eq_of_pairwise ?_ (List.pairwise_mergeSort htrans htotal rs)
    (hasc.imp fun h => decide_eq_true (Nat.le_of_lt h))
  intro a b ha hb hab hba
  simp only [decide_eq_true_eq] at hab hba
  exact eq_of_ascending hasc (hperm.mem_iff.1 ha) hb (Nat.le_antisymm hab hba)

/-- **A part of a template without some ranges**, in whatever order they are given. -/
theorem partWithout_of_erased {template pre cs post out : List Char} {rs ds : List Span}
    (htemplate : template = pre ++ (cs ++ post)) (h : rs.Perm ds)
    (he : Erased (byteLength pre) cs ds out) :
    partWithout template (spanAt (byteLength pre) cs) rs = String.ofList out := by
  have hasc := ascending_of_apart he.apart.2 he.nonempty
  rw [partWithout, mergeSort_of_perm h hasc, spanAt, htemplate, he.cutAround_eq post]

/-! ## Attributes -/

theorem byteLength_reverse (cs : List Char) : byteLength cs.reverse = byteLength cs := by
  induction cs with
  | nil => rfl
  | cons c cs ih =>
    rw [List.reverse_cons, byteLength_append, ih]
    simp only [byteLength_cons, byteLength_nil]
    omega

/-- The blanks at the end of a text are those at the end of its last part, if what is in front of
that part does not end in a blank. -/
theorem takeWhile_reverse_append {x : List Char} (hx : EndsSolid x) (y : List Char) :
    (x ++ y).reverse.takeWhile isBlank = y.reverse.takeWhile isBlank := by
  have hnone : x.reverse.takeWhile isBlank = [] := by
    cases hrev : x.reverse with
    | nil => rfl
    | cons c tail =>
      have hc := hx c (by rw [List.getLast?_eq_head?_reverse, hrev]; rfl)
      rw [List.takeWhile_cons_of_neg (by simp [hc])]
  rw [List.reverse_append, List.takeWhile_append, hnone]
  split
  · rename_i hall
    have hsame : y.reverse.takeWhile isBlank = y.reverse :=
      (List.takeWhile_prefix isBlank).eq_of_length hall
    rw [hsame, List.append_nil]
  · rfl

/-- What goes with an attribute is the attribute and the blanks at the end of its lead. -/
theorem removal_eq {template pre lead core rest : List Char} (hpre : EndsSolid pre)
    (htemplate : template = pre ++ (lead ++ (core ++ rest))) (name : String)
    (value : Option String) :
    Attribute.removal template
        ⟨name, value, spanAt (byteLength pre + byteLength lead) core⟩ =
      ⟨byteLength pre + byteLength (stem lead),
        byteLength pre + byteLength lead + byteLength core⟩ := by
  have htake : takeBytes (byteLength pre + byteLength lead) template = pre ++ lead := by
    have := takeBytes_append (pre ++ lead) (core ++ rest)
    rwa [byteLength_append, List.append_assoc, ← htemplate] at this
  have hlen : byteLength lead =
      byteLength (stem lead) + byteLength (lead.reverse.takeWhile isBlank) := by
    conv => lhs; rw [← stem_append_blankEnd lead, byteLength_append, blankEnd, byteLength_reverse]
  rw [Attribute.removal]
  simp only [spanAt, htake, takeWhile_reverse_append hpre, Span.mk.injEq, and_true]
  omega

section
variable {template : List Char} {p : String → Bool}

theorem erased_attribute {a : WrittenAttribute} {pre rest cs out : List Char} {rs : List Span}
    (htemplate : template = pre ++ (a.lead ++ (a.core ++ rest))) (hpre : EndsSolid pre)
    (hcore : a.core ≠ []) (value : Option String)
    (h : Erased (byteLength (pre ++ (a.lead ++ a.core))) cs rs out) :
    Erased (byteLength pre) (a.lead ++ (a.core ++ cs))
      (Attribute.removal template
        ⟨String.ofList a.name, value, spanAt (byteLength pre + byteLength a.lead) a.core⟩ :: rs)
      (stem a.lead ++ out) := by
  have hlead := stem_append_blankEnd a.lead
  have hlen := congrArg byteLength hlead
  have hstop : byteLength (pre ++ (a.lead ++ a.core)) =
      byteLength pre + byteLength a.lead + byteLength a.core := by
    rw [byteLength_append, byteLength_append, Nat.add_assoc]
  rw [byteLength_append] at hlen
  rw [hstop] at h
  rw [removal_eq hpre htemplate]
  have herased : Erased (byteLength pre) (stem a.lead ++ ((blankEnd a.lead ++ a.core) ++ cs))
      (⟨byteLength pre + byteLength (stem a.lead),
        byteLength pre + byteLength a.lead + byteLength a.core⟩ :: rs) (stem a.lead ++ out) := by
    refine .cons (by simp [hcore]) rfl ?_ h
    rw [byteLength_append]
    simp only
    omega
  rwa [List.append_assoc, ← List.append_assoc, hlead] at herased

/-- **Attributes**: what goes with some of them is erased. -/
theorem erased_attributes {as : List WrittenAttribute} {pre post cs out : List Char}
    {rs : List Span} (htemplate : template = pre ++ (writtenAttributes as ++ post))
    (hpre : as ≠ [] → EndsSolid pre) (hs : ∀ a ∈ as, a.Sound)
    (hjoins : attributesJoin as post = true)
    (h : Erased (byteLength pre + byteLength (writtenAttributes as)) cs rs out) :
    Erased (byteLength pre) (writtenAttributes as ++ cs)
      (((locateAttributes (byteLength pre) as).filter (p ·.name)).map
        (Attribute.removal template) ++ rs) (writtenWithout p as ++ out) := by
  induction as generalizing pre with
  | nil => exact h
  | cons a as ih =>
    have ha := hs a (List.mem_cons_self ..)
    have hs' : ∀ b ∈ as, b.Sound := fun b hb => hs b (List.mem_cons_of_mem _ hb)
    have hsolid := hpre (List.cons_ne_nil a as)
    simp only [attributesJoin, Bool.and_eq_true] at hjoins
    rw [writtenAttributes_cons] at htemplate h
    have hnext : as ≠ [] → EndsSolid (pre ++ (a.lead ++ a.core)) := by
      intro hne
      rw [← List.append_assoc, endsSolid_append ha.core_ne_nil]
      exact endsSolid_core_of_ne_nil ha hne hs' hjoins.1
    have hstop : byteLength pre + byteLength a.lead + byteLength a.core =
        byteLength (pre ++ (a.lead ++ a.core)) := by
      rw [byteLength_append, byteLength_append, Nat.add_assoc]
    have htemplate : template = pre ++ (a.lead ++ (a.core ++ (writtenAttributes as ++ post))) := by
      rw [htemplate]
      simp
    have ih := @ih (pre ++ (a.lead ++ a.core)) (by rw [htemplate]; simp) hnext hs' hjoins.2
      (by simpa [Nat.add_assoc] using h)
    rw [locateAttributes_cons, hstop, writtenWithout, List.flatMap_cons, ← writtenWithout,
      writtenAttributes_cons, List.append_assoc, List.append_assoc, List.append_assoc]
    by_cases hp : a.named p = true
    · rw [if_pos hp, List.filter_cons_of_pos (by exact hp), List.map_cons, List.cons_append]
      exact erased_attribute htemplate hsolid ha.core_ne_nil _ ih
    · rw [if_neg hp, List.filter_cons_of_neg (by exact hp), WrittenAttribute.written,
        List.append_assoc, ← List.append_assoc a.lead, ← List.append_assoc a.lead]
      refine .prepend (a.lead ++ a.core) ?_
      rw [← byteLength_append]
      exact ih

/-! ## Tags and parts -/

/-- **Tags**: what goes with some attributes is erased, and the stripped tag is left. -/
theorem erased_tag {t : OpenTag} {pre post cs out : List Char} {rs : List Span} (ht : t.Formed)
    (htemplate : template = pre ++ (t.written ++ post))
    (h : Erased (byteLength pre + byteLength t.written) cs rs out) :
    Erased (byteLength pre) (t.written ++ cs)
      (((t.attributesAt (byteLength pre)).filter (p ·.name)).map (Attribute.removal template) ++ rs)
      ((t.without p).written ++ out) := by
  have hjoin := ht.joins
  simp only [OpenTag.joins, Bool.and_eq_true] at hjoin
  have hjoin : attributesJoin t.attributes (tagTail t.trail t.selfClosing ++ post) = true := by
    rw [attributesJoin_append (mem_tagTail _ _)]
    exact hjoin.2
  have hsolid : EndsSolid (pre ++ '<' :: t.name) := by
    rw [endsSolid_append (List.cons_ne_nil _ _)]
    apply endsSolid_of_forall
    intro c hc
    rcases List.mem_cons.1 hc with rfl | hc
    · rfl
    · have := ht.sound.name c hc
      simp only [isNameChar, Bool.not_eq_true', Bool.or_eq_false_iff] at this
      exact this.1.1
  have hstart : byteLength (pre ++ '<' :: t.name) = byteLength pre + 1 + byteLength t.name := by
    rw [byteLength_append, byteLength_cons, ← Nat.add_assoc]
    rfl
  have hattributes : Erased (byteLength (pre ++ '<' :: t.name))
      (writtenAttributes t.attributes ++ (tagTail t.trail t.selfClosing ++ cs))
      (((t.attributesAt (byteLength pre)).filter (p ·.name)).map (Attribute.removal template) ++ rs)
      (writtenWithout p t.attributes ++ (tagTail t.trail t.selfClosing ++ out)) := by
    have htemplate : template = (pre ++ '<' :: t.name) ++
        (writtenAttributes t.attributes ++ (tagTail t.trail t.selfClosing ++ post)) := by
      rw [htemplate, OpenTag.written_eq, OpenTag.inside]
      simp
    rw [OpenTag.attributesAt, ← hstart]
    refine erased_attributes htemplate (fun _ => hsolid) ht.sound.attributes hjoin (.prepend _ ?_)
    rw [OpenTag.written_eq, OpenTag.inside] at h
    simpa [Nat.add_assoc] using h
  rw [byteLength_append] at hattributes
  have := hattributes.prepend ('<' :: t.name)
  rw [OpenTag.written_eq, OpenTag.inside, OpenTag.written_eq, OpenTag.inside_without]
  simpa [OpenTag.without] using this

/-- The attributes with certain names in some nodes, in document order. -/
def namedInside (p : String → Bool) (ns : List Node) : List Attribute :=
  (elementsIn ns).flatMap fun d => d.attributes.filter (p ·.name)

/-- The attributes in a node with names among `own`, if they are its own, or among `inner`. -/
def Markup.Node.named (inner own : String → Bool) : Node → List Attribute
  | .text _ => []
  | .comment _ => []
  | .element shell children => shell.attributes.filter (own ·.name) ++ namedInside inner children

theorem namedInside_cons (n : Node) (ns : List Node) :
    namedInside p (n :: ns) = n.named p p ++ namedInside p ns := by
  rw [namedInside, elementsIn_cons, List.flatMap_append]
  cases n <;> rfl

theorem namedInside_rawContent (offset : Nat) (body : List Char) :
    namedInside p (Assembly.rawContent offset body) = [] := by
  rw [namedInside, elementsIn_rawContent]
  rfl

mutual

theorem erased_strip (inner : String → Bool) :
    ∀ (q : Part) (own : String → Bool) {pre post cs out : List Char} {rs : List Span},
      TagsSound q.tokens → template = pre ++ (q.written ++ post) →
      Erased (byteLength pre + byteLength q.written) cs rs out →
      Erased (byteLength pre) (q.written ++ cs)
        (((q.nodeAt (byteLength pre)).named inner own).map (Attribute.removal template) ++ rs)
        ((q.strip inner own).written ++ out)
  | .text body, own, pre, post, cs, out, rs, _, _, h => h.prepend _
  | .comment body, own, pre, post, cs, out, rs, _, _, h => h.prepend _
  | .single tag, own, pre, post, cs, out, rs, hs, htemplate, h => by
    have ht : tag.Formed := hs.openTag
    rw [Part.written_single] at htemplate h
    rw [Part.nodeAt, Node.named, Part.strip, Part.written_single, Part.written_single,
      OpenTag.written_settled]
    simpa [namedInside, OpenTag.shellAt] using erased_tag (p := own) ht htemplate h
  | .raw tag body close, own, pre, post, cs, out, rs, hs, htemplate, h => by
    have ht := (hs (.raw tag body close) (List.mem_singleton.2 rfl) rfl).1
    rw [Part.written_raw, List.append_assoc] at htemplate
    rw [Part.written_raw, byteLength_append, ← Nat.add_assoc] at h
    rw [Part.nodeAt, Node.named, namedInside_rawContent, List.append_nil, Part.strip,
      Part.written_raw, Part.written_raw, List.append_assoc tag.written,
      List.append_assoc (tag.without own).written]
    exact erased_tag ht htemplate (h.prepend (body ++ close.written))
  | .element tag children close, own, pre, post, cs, out, rs, hs, htemplate, h => by
    have ht : tag.Formed := hs.openTag
    rw [Part.written_element, List.append_assoc, List.append_assoc] at htemplate
    rw [Part.written_element, byteLength_append, byteLength_append, ← Nat.add_assoc,
      ← Nat.add_assoc] at h
    have htemplate' : template = (pre ++ tag.written) ++
        (writtenOf children ++ (close.written ++ post)) := by
      rw [htemplate, List.append_assoc]
    have hinside := erased_stripAll inner children hs.children htemplate'
      (by rw [byteLength_append]; exact h.prepend close.written)
    rw [byteLength_append] at hinside
    rw [Part.nodeAt, Node.named, Part.strip, Part.written_element, Part.written_element,
      List.append_assoc, List.append_assoc, List.append_assoc, List.append_assoc, List.map_append,
      List.append_assoc]
    exact erased_tag ht htemplate hinside

/-- **Parts**: what goes with some attributes is erased, and the stripped parts are left. -/
theorem erased_stripAll (inner : String → Bool) :
    ∀ (qs : List Part) {pre post cs out : List Char} {rs : List Span},
      TagsSound (tokensOf qs) → template = pre ++ (writtenOf qs ++ post) →
      Erased (byteLength pre + byteLength (writtenOf qs)) cs rs out →
      Erased (byteLength pre) (writtenOf qs ++ cs)
        ((namedInside inner (nodesAt (byteLength pre) qs)).map (Attribute.removal template) ++ rs)
        (writtenOf (stripAll inner qs) ++ out)
  | [], pre, post, cs, out, rs, _, _, h => h
  | q :: qs, pre, post, cs, out, rs, hs, htemplate, h => by
    rw [writtenOf_cons, List.append_assoc] at htemplate
    rw [writtenOf_cons, byteLength_append, ← Nat.add_assoc] at h
    have htemplate' : template = (pre ++ q.written) ++ (writtenOf qs ++ post) := by
      rw [htemplate, List.append_assoc]
    have hbehind := erased_stripAll inner qs hs.right htemplate'
      (by rw [byteLength_append]; exact h)
    rw [byteLength_append] at hbehind
    rw [nodesAt_cons, namedInside_cons, stripAll, writtenOf_cons, writtenOf_cons,
      List.append_assoc, List.append_assoc, List.map_append, List.append_assoc]
    exact erased_strip inner q inner hs.left htemplate hbehind

end

end

end Islands
