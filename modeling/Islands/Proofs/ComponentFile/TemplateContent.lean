import Islands.Proofs.ComponentFile.BlockTags

/-!
# The content of a template block

Inside a template block the tags of templates are counted, and all else is passed over. Legible
parts belong to the content (`standsFor_part`, `standsFor_parts`), and so does what takes their place
if it begins as they do and leaves as many templates open as it finds (`StandsFor`).

* `BelongsInside.template`: a template inside the block, around what can stand in one.
* `StandsFor.element`, `StandsFor.append`: what takes the place of a part of an element, and of one
  part after another.
-/

namespace Islands.ComponentFile

open Markup

/-! ## Tags -/

section
variable {t : OpenTag} {name tag content : List Char} {close : Option (List Char)}
  {children : Bool}

theorem isLegible_inside :
    isLegible true name tag content close children =
      if blockNamed? name = some .template then isPlainTag tag close.isSome && children
      else passes true tag && children && close.all (passes true) := by
  unfold isLegible blockSeen?
  rcases blockNamed? name with _ | b
  · rfl
  · cases b <;> rfl

theorem children_of_isLegible (h : isLegible true name tag content close children = true) :
    children = true := by
  rw [isLegible_inside] at h
  split at h <;> simp_all

theorem readable_of_element {children : List Part} {close : CloseTag} {ts : List Token}
    (h : Readable ((Part.element t children close).tokens ++ ts)) :
    t.Formed ∧ Readable (tokensOf children ++ (.closeTag close :: ts)) ∧ close.Formed := by
  rw [Part.tokens, List.cons_append, List.append_assoc, List.singleton_append] at h
  have hopen : Token.Sound (.openTag t) := h.sound (List.mem_cons_self ..) rfl
  have hclose : Token.Sound (.closeTag close) :=
    h.sound (List.mem_cons_of_mem _ (List.mem_append_right _ (List.mem_cons_self ..))) rfl
  exact ⟨hopen.1, h.tail, hclose⟩

theorem readTemplate_of_isPlainTag {closed : Bool} (h : t.Formed)
    (hplain : isPlainTag t.written closed = true) (hname : blockNamed? t.name = some .template)
    (inner : Nat) (rest : List Char) :
    readTemplate inner (t.written ++ rest) =
      (readTemplate (if closed then inner + 1 else inner) rest).map (prepend t.written) := by
  have hpiece := readPiece_of_isPlainTag h hplain hname rest
  have hwritten : t.written ++ rest = '<' :: (t.name ++ (t.inside ++ rest)) := by
    rw [OpenTag.written_eq, List.cons_append, List.append_assoc]
  rw [hwritten, readTemplate_of_piece inner hpiece]
  cases closed <;> rfl

theorem readTemplate_of_closesTemplate {close : List Char} (h : ClosesTemplate close) (inner : Nat)
    (rest : List Char) :
    readTemplate (inner + 1) (close ++ rest) = (readTemplate inner rest).map (prepend close) := by
  obtain ⟨body, rfl, hread⟩ := h
  rw [List.cons_append, readTemplate_of_piece _ (hread rest)]

theorem readTemplate_at_end {close : List Char} (h : ClosesTemplate close) (rest : List Char) :
    readTemplate 0 (close ++ rest) = some ([], close, rest) := by
  obtain ⟨body, rfl, hread⟩ := h
  rw [List.cons_append, readTemplate_of_piece _ (hread rest)]

end

/-! ## Texts inside the block -/

/-- A text belongs to the content of a template block, whatever is behind it. -/
def BelongsInside (w : List Char) : Prop :=
  ∀ inner rest, readTemplate inner (w ++ rest) = (readTemplate inner rest).map (prepend w)

/-- A text that can stand in the place of `w` in a template block: it begins as `w` does, and belongs
to the content in front of everything that nothing in `w` goes on in. -/
structure StandsFor (w out : List Char) : Prop where
  head : out.head? = w.head?
  reads : ∀ {rest}, Joint w rest → ∀ inner,
    readTemplate inner (out ++ rest) = (readTemplate inner rest).map (prepend out)

/-- What may stand behind a text depends on its first character. -/
theorem Joint.congr {w rest rest' : List Char} (h : Joint w rest) (hhead : rest'.head? = rest.head?) :
    Joint w rest' := by
  intro c hc
  rcases h c hc with h | rfl | ⟨x, rfl⟩
  · exact .inl h
  · exact .inr (.inl (List.head?_eq_none_iff.1 hhead))
  · exact .inr (.inr (List.head?_eq_some_iff.1 hhead))

section
variable {t : OpenTag} {close : CloseTag} {w out : List Char}

theorem belongsInside_nil : BelongsInside [] := by
  intro inner rest
  rw [List.nil_append]
  cases readTemplate inner rest <;> rfl

theorem BelongsInside.standsFor (h : BelongsInside out) (hhead : out.head? = w.head?) :
    StandsFor w out := ⟨hhead, fun _ inner => h inner _⟩

/-- **A template inside the block**, around what can stand in one. -/
theorem BelongsInside.template (ht : t.Formed) (hplain : isPlainTag t.written true = true)
    (hname : blockNamed? t.name = some .template) (hclose : close.Sound)
    (hsame : sameLetters t.name close.name = true) (h : StandsFor w out) :
    BelongsInside (t.written ++ (out ++ close.written)) := by
  intro inner rest
  have hends := closesTemplate_written hclose
    (blockNamed?_eq_some_iff.1 ((blockNamed?_congr hsame).symm.trans hname))
  rw [List.append_assoc, List.append_assoc, readTemplate_of_isPlainTag ht hplain hname,
    h.reads (joint_of_markup w rfl)]
  simp only [if_true]
  rw [readTemplate_of_closesTemplate hends, map_prepend, map_prepend, List.append_assoc]

/-- An element inside the block that is no template. -/
theorem BelongsInside.between (htag : passes true t.written = true)
    (hend : passes true close.written = true) (h : StandsFor w out) :
    BelongsInside (t.written ++ (out ++ close.written)) := by
  intro inner rest
  rw [List.append_assoc, List.append_assoc, readTemplate_of_passes htag (joint_openTag t _),
    h.reads (joint_of_markup w rfl), readTemplate_of_passes hend (joint_closeTag close _),
    map_prepend, map_prepend, List.append_assoc]

/-- **An element** whose tags are legible, around what can stand between them. -/
theorem StandsFor.element {text : List Char} {children : Bool} (ht : t.Formed)
    (hclose : close.Sound) (hsame : sameLetters t.name close.name = true)
    (hlegible : isLegible true t.name t.written text (some close.written) children = true)
    (h : StandsFor w out) :
    StandsFor (t.written ++ (w ++ close.written)) (t.written ++ (out ++ close.written)) := by
  have hhead : (t.written ++ (out ++ close.written)).head? =
      (t.written ++ (w ++ close.written)).head? := by
    rw [OpenTag.written_eq]
    rfl
  rw [isLegible_inside] at hlegible
  split at hlegible
  · rename_i hname
    rw [Bool.and_eq_true] at hlegible
    exact (BelongsInside.template ht hlegible.1 hname hclose hsame h).standsFor hhead
  · simp only [Option.all_some, Bool.and_eq_true] at hlegible
    exact (BelongsInside.between hlegible.1.1 hlegible.2 h).standsFor hhead

end

/-! ## Parts -/

/-- What a part begins does not go on in the parts behind it. -/
theorem joint_part {p : Part} {ps : List Part} {rest : List Char}
    (hr : Readable (p.tokens ++ tokensOf ps)) (h : Joint (p.written ++ writtenOf ps) rest) :
    Joint p.written (writtenOf ps ++ rest) := by
  cases p with
  | text body =>
    rw [Part.written_text] at h ⊢
    intro c hc
    rcases joint_text hr c hc with hangle | hnil | ⟨x, hx⟩
    · exact .inl hangle
    · have hnil : writtenOf ps = [] := hnil
      rw [hnil, List.append_nil] at h
      rw [hnil]
      exact h c hc
    · have hx : writtenOf ps = '<' :: x := hx
      exact .inr (.inr ⟨x ++ rest, by rw [hx, List.cons_append]⟩)
  | comment body =>
    rw [Part.written_comment]
    exact joint_comment (hr.sound (List.mem_cons_self ..) rfl) _
  | single tag =>
    rw [Part.written_single]
    exact joint_openTag tag _
  | raw tag body close =>
    rw [Part.written_raw, written_closeTag, ← List.append_assoc, ← List.append_assoc]
    exact joint_of_angle _ _
  | element tag children close =>
    rw [Part.written_element, written_closeTag, ← List.append_assoc, ← List.append_assoc]
    exact joint_of_angle _ _

/-- **One part after another**, each with what stands in its place. -/
theorem StandsFor.append {p : Part} {ps : List Part} {x y : List Char}
    (hr : Readable (p.tokens ++ tokensOf ps)) (h : StandsFor p.written x)
    (h' : StandsFor (writtenOf ps) y) : StandsFor (p.written ++ writtenOf ps) (x ++ y) where
  head := by rw [List.head?_append, List.head?_append, h.head, h'.head]
  reads := by
    intro rest hjoint inner
    have hhead : (y ++ rest).head? = (writtenOf ps ++ rest).head? := by
      rw [List.head?_append, List.head?_append, h'.head]
    rw [List.append_assoc, h.reads ((joint_part hr hjoint).congr hhead), h'.reads hjoint.suffix,
      map_prepend]

mutual

/-- **A legible part** inside a template block belongs to its content. -/
theorem standsFor_part :
    ∀ p : Part, p.Paired → Readable p.tokens → Part.legible true p = true →
      StandsFor p.written p.written
  | .text body, _, _, hlegible => by
    rw [Part.written_text]
    exact ⟨rfl, readTemplate_of_passes hlegible⟩
  | .comment body, _, _, hlegible => by
    rw [Part.written_comment]
    exact ⟨rfl, readTemplate_of_passes hlegible⟩
  | .single tag, _, hr, hlegible => by
    have hf : tag.Formed := (hr.sound (List.mem_cons_self ..) rfl : Token.Sound (.openTag tag)).1
    rw [Part.legible, isLegible_inside] at hlegible
    rw [Part.written_single]
    refine ⟨rfl, fun hjoint inner => ?_⟩
    split at hlegible
    · rename_i hname
      rw [Bool.and_true] at hlegible
      exact readTemplate_of_isPlainTag hf hlegible hname inner _
    · rw [Bool.and_true, Option.all_none, Bool.and_true] at hlegible
      exact readTemplate_of_passes hlegible hjoint inner
  | .raw tag body close, hp, hr, hlegible => by
    have hsound : Token.Sound (.raw tag body close) := hr.sound (List.mem_cons_self ..) rfl
    obtain ⟨hf, -, -, hclose, hsame, -⟩ := hsound
    rw [Part.written_raw]
    rw [Part.legible] at hlegible
    exact StandsFor.element hf hclose (by rwa [sameLetters_comm]) hlegible
      ⟨rfl, readTemplate_of_passes (children_of_isLegible hlegible)⟩
  | .element tag children close, hp, hr, hlegible => by
    have hread : Readable ((Part.element tag children close).tokens ++ []) := by
      rwa [List.append_nil]
    obtain ⟨hf, hr', hclose⟩ := readable_of_element hread
    rw [Part.written_element]
    rw [Part.legible] at hlegible
    exact StandsFor.element hf hclose.sound hp.2.1 hlegible
      (standsFor_parts children hp.2.2 hr'.left (children_of_isLegible hlegible))

theorem standsFor_parts :
    ∀ ps : List Part, PairedAll ps → Readable (tokensOf ps) → legibleParts true ps = true →
      StandsFor (writtenOf ps) (writtenOf ps)
  | [], _, _, _ => belongsInside_nil.standsFor rfl
  | p :: ps, hp, hr, hlegible => by
    rw [tokensOf_cons] at hr
    rw [legibleParts, Bool.and_eq_true] at hlegible
    rw [writtenOf_cons]
    exact .append hr (standsFor_part p hp.1 hr.left hlegible.1)
      (standsFor_parts ps hp.2 hr.right hlegible.2)

end

end Islands.ComponentFile
