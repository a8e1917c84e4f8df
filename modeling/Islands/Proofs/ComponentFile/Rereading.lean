import Islands.Proofs.ComponentFile.BlockPlaces
import Islands.Proofs.Text.Search

/-!
# Regions are read again in another text

A region that is followed by markup is read again from its characters when the text behind it
changes, as long as the text up to the next `<` stays (`ReadsAs.change`). So the regions in front of
a place where a text changes stay, and so do the opening tag of a block and the content of a
template block.

* `readRegion_eq_some_iff`: what a region can be read from.
* `readTemplate_append`: the content of a template block, in front of any closing tag.
* `Reads.change`: regions one after the other.
-/

namespace Islands.ComponentFile

/-! ## Names, tags and comments -/

theorem ne_angle_of_mem_letters {c : Char} (hc : c = '<' ∨ c = '>') (name : BlockName) :
    ∀ w ∈ name.letters, w.toLower ≠ c.toLower := by
  have hall : name.letters.all (fun w => w.toLower != c.toLower) = true := by
    rcases hc with rfl | rfl <;> cases name <;> decide
  intro w hw
  exact bne_iff_ne.1 (List.all_eq_true.1 hall w hw)

/-- Whether a name stands at the start of a text is decided in front of the next angle bracket. -/
theorem startsName_append {c : Char} (hc : c = '<' ∨ c = '>') (name : BlockName)
    (u x y : List Char) : startsName name (u ++ c :: x) = startsName name (u ++ c :: y) := by
  have hletters := ne_angle_of_mem_letters hc name
  rw [startsName, startsName, dropLetters?_append_cons hletters, dropLetters?_append_cons hletters]
  cases dropLetters? name.letters u with
  | none => rfl
  | some v => cases v <;> rfl

theorem blockName?_append {c : Char} (hc : c = '<' ∨ c = '>') (u x y : List Char) :
    blockName? (u ++ c :: x) = blockName? (u ++ c :: y) := by
  have hnames : (startsName · (u ++ c :: x)) = (startsName · (u ++ c :: y)) :=
    funext fun name => startsName_append hc name u x y
  rw [blockName?, blockName?, hnames]

theorem readComment?_eq_none_iff {cs : List Char} :
    readComment? cs = none ↔ dropWord? ['!', '-', '-'] cs = none := by
  unfold readComment?
  cases dropWord? ['!', '-', '-'] cs with
  | none => exact ⟨fun _ => rfl, fun _ => rfl⟩
  | some rest => cases splitOnFirst ['-', '-', '>'] cs <;> simp

theorem readComment?_eq_none_append {c : Char} (hc : c = '<' ∨ c = '>') {u x : List Char}
    (h : readComment? (u ++ c :: x) = none) (y : List Char) :
    readComment? (u ++ c :: y) = none := by
  have hmem : c ∉ ['!', '-', '-'] := by
    rcases hc with rfl | rfl <;> decide
  rw [readComment?_eq_none_iff, dropWord?_append_cons hmem, Option.map_eq_none_iff] at h ⊢
  exact h

theorem readComment?_append {cs body rest : List Char}
    (h : readComment? cs = some (body, rest)) (hrest : rest ≠ []) (rest' : List Char) :
    readComment? (body ++ rest') = some (body, rest') := by
  unfold readComment? at h
  split at h
  · rename_i hword
    split at h
    · rename_i b tail hsplit
      obtain ⟨rfl, rfl⟩ := Prod.mk.inj (Option.some.inj h)
      have hcs := eq_of_splitOnFirst hsplit
      have hword' :
          (dropWord? ['!', '-', '-'] ((b ++ ['-', '-', '>']) ++ rest')).isSome = true := by
        rw [Option.isSome_iff_ne_none] at hword ⊢
        intro hnone
        have hlength : ['!', '-', '-'].length ≤ (b ++ ['-', '-', '>']).length := by simp
        have := dropWord?_eq_none_append hlength hnone tail
        rw [List.append_assoc, ← hcs] at this
        exact hword this
      rw [readComment?, if_pos hword', List.append_assoc, splitOnFirst_append hsplit]
    · obtain ⟨-, rfl⟩ := Prod.mk.inj (Option.some.inj h)
      exact absurd rfl hrest
  · cases h

theorem readTag_append {mark : Option Char} {cs tag rest : List Char}
    (h : readTag mark cs = some (tag, rest)) :
    ∃ t, tag = t ++ ['>'] ∧ ∀ rest', readTag mark (tag ++ rest') = some (tag, rest') := by
  induction cs generalizing mark tag with
  | nil => cases h
  | cons c cs ih =>
    cases mark with
    | some q =>
      simp only [readTag] at h
      obtain ⟨⟨a, b⟩, h', e⟩ := Option.map_eq_some_iff.1 h
      obtain ⟨rfl, rfl⟩ := Prod.mk.inj e
      obtain ⟨t, rfl, hread⟩ := ih h'
      refine ⟨c :: t, rfl, fun rest' => ?_⟩
      simp only [List.cons_append, List.nil_append, readTag, hread]
      rfl
    | none =>
      simp only [readTag] at h
      split at h
      · rename_i hc
        obtain ⟨rfl, rfl⟩ := Prod.mk.inj (Option.some.inj h)
        exact ⟨[], rfl, fun _ => rfl⟩
      · rename_i hc
        obtain ⟨⟨a, b⟩, h', e⟩ := Option.map_eq_some_iff.1 h
        obtain ⟨rfl, rfl⟩ := Prod.mk.inj e
        obtain ⟨t, rfl, hread⟩ := ih h'
        refine ⟨c :: t, rfl, fun rest' => ?_⟩
        simp only [List.cons_append, List.nil_append, readTag, if_neg hc, hread]
        rfl

theorem readThroughAngle_append {cs body rest : List Char}
    (h : readThroughAngle cs = some (body, rest)) :
    ∃ b, body = b ++ ['>'] ∧ ∀ rest', readThroughAngle (body ++ rest') = some (body, rest') := by
  obtain ⟨⟨b, tail⟩, h', e⟩ := Option.map_eq_some_iff.1 h
  obtain ⟨rfl, rfl⟩ := Prod.mk.inj e
  refine ⟨b, rfl, fun rest' => ?_⟩
  rw [readThroughAngle, List.append_assoc, splitOnFirst_append h']
  rfl

theorem readEmbedded_change {name : BlockName} {cs body rest : List Char}
    (h : readEmbedded name cs = (body, rest)) (hrest : rest ≠ []) (rest' : List Char) :
    readEmbedded name (body ++ rest') = (body, rest') := by
  unfold readEmbedded at h
  split at h
  · obtain ⟨-, rfl⟩ := Prod.mk.inj h
    exact absurd rfl hrest
  · rename_i a b hsplit
    split at h
    · obtain ⟨-, rfl⟩ := Prod.mk.inj h
      exact absurd rfl hrest
    · rename_i p hangle
      obtain ⟨close, tail⟩ := p
      obtain ⟨rfl, rfl⟩ := Prod.mk.inj h
      obtain ⟨inside, rfl, hclose⟩ := readThroughAngle_append hangle
      have hcs := eq_of_splitBeforeLetters hsplit
      have hb := eq_of_readThroughAngle hangle
      have hletters : ∀ w ∈ '<' :: '/' :: name.letters, w.toLower ≠ '>'.toLower := by
        rw [List.forall_mem_cons, List.forall_mem_cons]
        exact ⟨by decide, by decide, ne_angle_of_mem_letters (.inr rfl) name⟩
      rw [hb, List.append_assoc, List.singleton_append] at hcs hsplit
      rw [hcs] at hsplit
      have hsplit' := splitBeforeLetters_append hletters hsplit rest'
      have hclose := hclose rest'
      rw [List.append_assoc, List.singleton_append] at hclose
      rw [readEmbedded]
      simp only [List.append_assoc, List.singleton_append, hsplit', hclose]
      rfl

/-! ## Inside a template block -/

/-- Whether a text, taken from behind `<`, goes on as the closing tag of a template. -/
def closesTemplate : List Char → Bool
  | '/' :: cs => startsName .template cs
  | _ => false

theorem closesTemplate_append {c : Char} (hc : c = '<' ∨ c = '>') (u x y : List Char) :
    closesTemplate (u ++ c :: x) = closesTemplate (u ++ c :: y) := by
  cases u with
  | nil => rcases hc with rfl | rfl <;> rfl
  | cons d u =>
    by_cases hd : d = '/'
    · subst hd
      exact startsName_append hc .template u x y
    · rw [List.cons_append, List.cons_append, closesTemplate, closesTemplate]
      · simpa using hd
      · simpa using hd

/-- A piece of a template block, case by case: a comment, a closing tag, an opening tag, or none of
these. -/
theorem readPieceAfterAngle_eq (cs : List Char) :
    readPieceAfterAngle cs =
      match readComment? cs with
      | some (body, rest) => some (.plain ('<' :: body), rest)
      | none =>
        if closesTemplate cs then (readThroughAngle cs).map fun p => (.closed ('<' :: p.1), p.2)
        else if startsName .template cs then
          (readTag none cs).map fun p =>
            (if isSelfClosing ('<' :: p.1) then .plain ('<' :: p.1) else .opened ('<' :: p.1), p.2)
        else some (.plain ['<'], cs) := by
  unfold readPieceAfterAngle
  rcases readComment? cs with _ | ⟨body, rest⟩
  · dsimp only
    split
    · rename_i cs'
      have hname : startsName .template ('/' :: cs') = false := rfl
      simp only [closesTemplate, hname]
      rfl
    · rename_i hslash
      have hcloses : closesTemplate cs = false := by
        unfold closesTemplate
        split
        · exact (hslash _ rfl).elim
        · rfl
      rw [hcloses]
      rfl
  · rfl

theorem readPieceAfterAngle_eq_closed {cs rest tag : List Char}
    (h : readPieceAfterAngle cs = some (.closed tag, rest)) :
    readComment? cs = none ∧ closesTemplate cs = true ∧
      ∃ body, tag = '<' :: body ∧ readThroughAngle cs = some (body, rest) := by
  rw [readPieceAfterAngle_eq] at h
  split at h
  · cases h
  · rename_i hcomment
    split at h
    · rename_i hcloses
      obtain ⟨⟨body, tail⟩, hangle, e⟩ := Option.map_eq_some_iff.1 h
      obtain ⟨htag, rfl⟩ := Prod.mk.inj e
      exact ⟨hcomment, hcloses, body, (Piece.closed.inj htag).symm, hangle⟩
    · split at h
      · obtain ⟨⟨body, tail⟩, -, e⟩ := Option.map_eq_some_iff.1 h
        have hpiece := (Prod.mk.inj e).1
        split at hpiece <;> cases hpiece
      · cases h

theorem readPieceAfterAngle_closed {cs rest tag : List Char}
    (h : readPieceAfterAngle cs = some (.closed tag, rest)) :
    ∃ body, tag = '<' :: body ∧
      ∀ rest', readPieceAfterAngle (body ++ rest') = some (.closed tag, rest') := by
  obtain ⟨hcomment, hcloses, body, rfl, hangle⟩ := readPieceAfterAngle_eq_closed h
  have hcs := eq_of_readThroughAngle hangle
  obtain ⟨b, rfl, hread⟩ := readThroughAngle_append hangle
  rw [List.append_assoc, List.singleton_append] at hcs
  rw [hcs] at hcomment hcloses
  refine ⟨b ++ ['>'], rfl, fun rest' => ?_⟩
  have hread := hread rest'
  rw [List.append_assoc, List.singleton_append] at hread ⊢
  rw [closesTemplate_append (.inr rfl) b _ rest'] at hcloses
  simp only [readPieceAfterAngle_eq, readComment?_eq_none_append (.inr rfl) hcomment rest',
    hcloses, hread]
  rfl

/-- **A piece is read again** when the text behind the next `<` changes. -/
theorem readPieceAfterAngle_append {cs w x : List Char} {p : Piece}
    (h : readPieceAfterAngle cs = some (p, w ++ '<' :: x)) :
    ∃ body, p.text = '<' :: body ∧
      ∀ y, readPieceAfterAngle (body ++ (w ++ '<' :: y)) = some (p, w ++ '<' :: y) := by
  have hpiece := h
  rw [readPieceAfterAngle_eq] at h
  split at h
  · -- a comment
    rename_i hcomment
    obtain ⟨rfl, rfl⟩ := Prod.mk.inj (Option.some.inj h)
    refine ⟨_, rfl, fun y => ?_⟩
    simp only [readPieceAfterAngle_eq, readComment?_append hcomment (by simp)]
  · rename_i hcomment
    split at h
    · -- a closing tag
      obtain ⟨⟨body, tail⟩, -, e⟩ := Option.map_eq_some_iff.1 h
      obtain ⟨rfl, rfl⟩ := Prod.mk.inj e
      obtain ⟨body, htag, hread⟩ := readPieceAfterAngle_closed hpiece
      exact ⟨body, htag, fun y => hread _⟩
    · rename_i hcloses
      split at h
      · -- an opening tag
        rename_i hopens
        obtain ⟨⟨body, tail⟩, htag, e⟩ := Option.map_eq_some_iff.1 h
        obtain ⟨rfl, rfl⟩ := Prod.mk.inj e
        have hcs := eq_of_readTag htag
        obtain ⟨b, rfl, hread⟩ := readTag_append htag
        rw [List.append_assoc, List.singleton_append] at hcs
        refine ⟨b ++ ['>'], by split <;> rfl, fun y => ?_⟩
        have hread := hread (w ++ '<' :: y)
        rw [List.append_assoc, List.singleton_append] at hread ⊢
        rw [hcs] at hcomment hcloses hopens
        rw [closesTemplate_append (.inr rfl) b _ (w ++ '<' :: y)] at hcloses
        rw [startsName_append (.inr rfl) .template b _ (w ++ '<' :: y)] at hopens
        simp only [readPieceAfterAngle_eq, readComment?_eq_none_append (.inr rfl) hcomment _,
          hcloses, hopens, hread]
        rfl
      · -- none of these
        rename_i hopens
        obtain ⟨rfl, rfl⟩ := Prod.mk.inj (Option.some.inj h)
        refine ⟨[], rfl, fun y => ?_⟩
        rw [closesTemplate_append (.inl rfl) w x y] at hcloses
        rw [startsName_append (.inl rfl) .template w x y] at hopens
        simp only [List.nil_append, readPieceAfterAngle_eq,
          readComment?_eq_none_append (.inl rfl) hcomment y, hcloses, hopens]
        rfl

/-- The text is the closing tag of a template. -/
def ClosesTemplate (close : List Char) : Prop :=
  ∃ body, close = '<' :: body ∧
    ∀ rest, readPieceAfterAngle (body ++ rest) = some (.closed close, rest)

theorem readTemplate_of_piece {cs rest : List Char} {p : Piece} (inner : Nat)
    (h : readPieceAfterAngle cs = some (p, rest)) :
    readTemplate inner ('<' :: cs) =
      match p with
      | .plain text => (readTemplate inner rest).map (prepend text)
      | .opened tag => (readTemplate (inner + 1) rest).map (prepend tag)
      | .closed tag =>
        match inner with
        | 0 => some ([], tag, rest)
        | inner + 1 => (readTemplate inner rest).map (prepend tag) := by
  rw [readTemplate]
  split
  · rename_i hnone
    rw [h] at hnone
    cases hnone
  · rename_i p' rest' hsome
    rw [h] at hsome
    obtain ⟨rfl, rfl⟩ := Prod.mk.inj (Option.some.inj hsome)
    rfl

theorem readPieceAfterAngle_content {inner : Nat} {cs tail content close rest : List Char}
    {p : Piece} (hpiece : readPieceAfterAngle cs = some (p, tail))
    (h : readTemplate inner tail = some (content, close, rest)) (hclose : ClosesTemplate close) :
    ∃ body, p.text = '<' :: body ∧ ∀ close' rest', ClosesTemplate close' →
      readPieceAfterAngle (body ++ (content ++ (close' ++ rest'))) =
        some (p, content ++ (close' ++ rest')) := by
  obtain ⟨b, rfl, -⟩ := hclose
  have htail := eq_of_readTemplate h
  rw [List.cons_append] at htail
  rw [htail] at hpiece
  obtain ⟨body, htext, hread⟩ := readPieceAfterAngle_append hpiece
  refine ⟨body, htext, fun close' rest' hclose' => ?_⟩
  obtain ⟨b', rfl, -⟩ := hclose'
  exact hread (b' ++ rest')

/-- **The content of a template block** is read again in front of any closing tag. -/
theorem readTemplate_append {inner : Nat} {cs content close rest : List Char}
    (h : readTemplate inner cs = some (content, close, rest)) :
    ClosesTemplate close ∧ ∀ close' rest', ClosesTemplate close' →
      readTemplate inner (content ++ (close' ++ rest')) = some (content, close', rest') := by
  fun_induction readTemplate inner cs generalizing content with
  | case1 => cases h
  | case2 => cases h
  | case3 inner cs tail text e _ _ ih | case4 inner cs tail text e _ _ ih
  | case6 cs tail text e inner _ _ ih =>
    obtain ⟨⟨content, tail'⟩, h', e'⟩ := Option.map_eq_some_iff.1 h
    obtain ⟨rfl, rfl⟩ := Prod.mk.inj e'
    obtain ⟨hclose, hread⟩ := ih h'
    obtain ⟨body, htext, hpiece⟩ := readPieceAfterAngle_content e h' hclose
    have htext : text = '<' :: body := htext
    refine ⟨hclose, fun close' rest' hclose' => ?_⟩
    rw [htext, List.append_assoc, List.cons_append,
      readTemplate_of_piece _ (hpiece close' rest' hclose')]
    simp only [hread close' rest' hclose', htext]
    rfl
  | case5 cs tail tag e _ =>
    obtain ⟨rfl, rfl, rfl⟩ : [] = content ∧ tag = close ∧ tail = rest := by simpa using h
    refine ⟨readPieceAfterAngle_closed e, fun close' rest' hclose' => ?_⟩
    obtain ⟨b', rfl, hread⟩ := hclose'
    rw [List.nil_append, List.cons_append, readTemplate_of_piece 0 (hread rest')]
  | case7 inner c cs hc ih =>
    obtain ⟨⟨content, tail'⟩, h', e'⟩ := Option.map_eq_some_iff.1 h
    obtain ⟨rfl, rfl⟩ := Prod.mk.inj e'
    obtain ⟨hclose, hread⟩ := ih h'
    refine ⟨hclose, fun close' rest' hclose' => ?_⟩
    rw [List.append_assoc, List.singleton_append, readTemplate, hread close' rest' hclose']
    · rfl
    · exact hc

/-- The text can stand between the tags of a template block. -/
def IsContent (cs : List Char) : Prop :=
  readTemplate 0 (cs ++ "</template>".toList) = some (cs, "</template>".toList, [])

instance (cs : List Char) : Decidable (IsContent cs) :=
  inferInstanceAs (Decidable (_ = _))

/-- What can stand between the tags of a template block can do so in front of any closing tag. -/
theorem IsContent.readTemplate {content close : List Char} (h : IsContent content)
    (hclose : ClosesTemplate close) (rest : List Char) :
    readTemplate 0 (content ++ (close ++ rest)) = some (content, close, rest) :=
  (readTemplate_append h).2 close rest hclose

/-! ## Regions -/

/-- The text is the opening tag of a block. -/
def OpensBlock (name : BlockName) (tag : List Char) : Prop :=
  ∃ body, tag = '<' :: body ∧ ∀ rest, readComment? (body ++ rest) = none ∧
    blockName? (body ++ rest) = some name ∧ readTag none (body ++ rest) = some (body, rest)

theorem opensBlock_of_readTag {name : BlockName} {cs body rest : List Char}
    (hcomment : readComment? cs = none) (hname : blockName? cs = some name)
    (htag : readTag none cs = some (body, rest)) : OpensBlock name ('<' :: body) := by
  have hcs := eq_of_readTag htag
  obtain ⟨b, rfl, hread⟩ := readTag_append htag
  rw [List.append_assoc, List.singleton_append] at hcs
  rw [hcs] at hcomment hname
  refine ⟨b ++ ['>'], rfl, fun rest' => ⟨?_, ?_, hread rest'⟩⟩
  · rw [List.append_assoc]
    exact readComment?_eq_none_append (.inr rfl) hcomment rest'
  · rw [List.append_assoc, ← hname]
    exact blockName?_append (.inr rfl) b rest' rest

/-- What a region is read from, and what remains behind it. -/
inductive ReadsAs : List Char → Region → List Char → Prop
  | other {c : Char} {rest : List Char} (hc : c ≠ '<') : ReadsAs (c :: rest) (.plain c) rest
  | angle {rest : List Char} (hcomment : readComment? rest = none)
    (hname : blockName? rest = none) : ReadsAs ('<' :: rest) (.plain '<') rest
  | comment {cs body rest : List Char} (h : readComment? cs = some (body, rest)) :
    ReadsAs ('<' :: cs) (.comment ('<' :: body)) rest
  | selfClosed {name : BlockName} {tag rest : List Char} (htag : OpensBlock name tag)
    (hself : isSelfClosing tag = true) : ReadsAs (tag ++ rest) (.selfClosed name tag) rest
  | template {tag cs content close rest : List Char} (htag : OpensBlock .template tag)
    (hself : isSelfClosing tag = false)
    (h : readTemplate 0 cs = some (content, close, rest)) :
    ReadsAs (tag ++ cs) (.template tag content close) rest
  | embedded {name : BlockName} {tag cs body rest : List Char} (hname : name ≠ .template)
    (htag : OpensBlock name tag) (hself : isSelfClosing tag = false)
    (h : readEmbedded name cs = (body, rest)) :
    ReadsAs (tag ++ cs) (.embedded name tag body) rest

theorem readRegion_of_opensBlock {name : BlockName} {tag : List Char} (htag : OpensBlock name tag)
    (rest : List Char) :
    readRegion (tag ++ rest) =
      if isSelfClosing tag then some (.selfClosed name tag, rest) else readBlock name tag rest := by
  obtain ⟨body, rfl, h⟩ := htag
  obtain ⟨hcomment, hname, hread⟩ := h rest
  rw [List.cons_append, readRegion, readRegionAfterAngle]
  simp only [hcomment, hname, hread]

/-- **Regions**: what can be read as a region, case by case. -/
theorem readRegion_eq_some_iff {cs rest : List Char} {r : Region} :
    readRegion cs = some (r, rest) ↔ ReadsAs cs r rest := by
  constructor
  · intro h
    unfold readRegion at h
    split at h
    · cases h
    · rename_i cs
      unfold readRegionAfterAngle at h
      split at h
      · rename_i hcomment
        obtain ⟨rfl, rfl⟩ := Prod.mk.inj (Option.some.inj h)
        exact .comment hcomment
      · rename_i hcomment
        split at h
        · rename_i hname
          obtain ⟨rfl, rfl⟩ := Prod.mk.inj (Option.some.inj h)
          exact .angle hcomment hname
        · rename_i name hname
          split at h
          · cases h
          · rename_i body tail htag
            have hopens := opensBlock_of_readTag hcomment hname htag
            have hcs : '<' :: cs = ('<' :: body) ++ tail := by rw [eq_of_readTag htag]; rfl
            rw [hcs]
            split at h
            · rename_i hself
              obtain ⟨rfl, rfl⟩ := Prod.mk.inj (Option.some.inj h)
              exact .selfClosed hopens hself
            · rename_i hself
              have hself := Bool.eq_false_iff.2 hself
              unfold readBlock at h
              split at h
              · obtain ⟨⟨content, close, rest'⟩, h', e⟩ := Option.map_eq_some_iff.1 h
                obtain ⟨rfl, rfl⟩ := Prod.mk.inj e
                exact .template hopens hself h'
              · rename_i hne
                obtain ⟨rfl, rfl⟩ := Prod.mk.inj (Option.some.inj h)
                exact .embedded hne hopens hself rfl
    · rename_i hc
      obtain ⟨rfl, rfl⟩ := Prod.mk.inj (Option.some.inj h)
      exact .other hc
  · intro h
    cases h with
    | other hc => rw [readRegion]; exact hc
    | angle hcomment hname => simp only [readRegion, readRegionAfterAngle, hcomment, hname]
    | comment h => simp only [readRegion, readRegionAfterAngle, h]
    | selfClosed htag hself => rw [readRegion_of_opensBlock htag, if_pos hself]
    | template htag hself h =>
      rw [readRegion_of_opensBlock htag, hself, readBlock, h]
      rfl
    | @embedded name tag cs body rest hname htag hself h =>
      rw [readRegion_of_opensBlock htag, hself]
      cases name with
      | template => exact absurd rfl hname
      | script | style => simp only [readBlock, h]; rfl

/-- **A region is read again** when the text behind the next `<` changes. -/
theorem ReadsAs.change {cs w x : List Char} {r : Region} (h : ReadsAs cs r (w ++ '<' :: x))
    (y : List Char) : ReadsAs (r.text ++ (w ++ '<' :: y)) r (w ++ '<' :: y) := by
  have hne : w ++ '<' :: x ≠ [] := List.append_ne_nil_of_right_ne_nil w (List.cons_ne_nil '<' x)
  generalize hrest : w ++ '<' :: x = rest at h hne
  cases h with
  | other hc => exact .other hc
  | angle hcomment hname =>
    subst hrest
    rw [blockName?_append (.inl rfl) w x y] at hname
    exact .angle (readComment?_eq_none_append (.inl rfl) hcomment y) hname
  | comment h => exact .comment (readComment?_append h hne _)
  | selfClosed htag hself => exact .selfClosed htag hself
  | template htag hself h =>
    obtain ⟨hclose, hread⟩ := readTemplate_append h
    rw [Region.text, List.append_assoc, List.append_assoc]
    exact .template htag hself (hread _ _ hclose)
  | embedded hname htag hself h =>
    rw [Region.text, List.append_assoc]
    exact .embedded hname htag hself (readEmbedded_change h hne _)

theorem ReadsAs.opensBlock {cs rest tag : List Char} {r : Region} (h : ReadsAs cs r rest)
    (htag : r.scriptTag? = some tag) : OpensBlock .script tag := by
  unfold Region.scriptTag? at htag
  split at htag
  · obtain rfl := Option.some.inj htag
    cases h with
    | selfClosed hopens => exact hopens
  · obtain rfl := Option.some.inj htag
    cases h with
    | embedded _ hopens => exact hopens
  · cases htag

/-! ## Regions one after the other -/

/-- The regions that a text is read as, one after the other, and what remains. -/
inductive Reads : List Char → List Region → List Char → Prop
  | nil (cs : List Char) : Reads cs [] cs
  | cons {cs mid rest : List Char} {r : Region} {rs : List Region} (h : ReadsAs cs r mid)
    (hs : Reads mid rs rest) : Reads cs (r :: rs) rest

namespace Reads

variable {cs mid rest x : List Char} {rs ts : List Region}

theorem text (h : Reads cs rs rest) : cs = regionsText rs ++ rest := by
  induction h with
  | nil cs => rfl
  | cons h _ ih =>
    rw [(eq_of_readRegion (readRegion_eq_some_iff.2 h)).1, ih, regionsText_cons, List.append_assoc]

theorem regions (h : Reads cs rs rest) : regions cs = rs ++ ComponentFile.regions rest := by
  induction h with
  | nil cs => rfl
  | cons h _ ih =>
    rw [ComponentFile.regions]
    split
    · rename_i hnone
      rw [readRegion_eq_some_iff.2 h] at hnone
      cases hnone
    · rename_i hsome
      rw [readRegion_eq_some_iff.2 h] at hsome
      obtain ⟨rfl, rfl⟩ := Prod.mk.inj (Option.some.inj hsome)
      rw [ih, List.cons_append]

/-- A text is read as its regions are, up to any of them. -/
theorem exists_of_regions (h : ComponentFile.regions cs = rs ++ ts) :
    ∃ rest, Reads cs rs rest ∧ ComponentFile.regions rest = ts := by
  induction rs generalizing cs with
  | nil => exact ⟨cs, .nil cs, h⟩
  | cons r rs ih =>
    rw [ComponentFile.regions] at h
    split at h
    · cases h
    · rename_i r' mid hread
      obtain ⟨rfl, htail⟩ := List.cons.inj h
      obtain ⟨rest, hreads, hrest⟩ := ih htail
      exact ⟨rest, .cons (readRegion_eq_some_iff.1 hread) hreads, hrest⟩

theorem append (h : Reads cs rs mid) (h' : Reads mid ts rest) : Reads cs (rs ++ ts) rest := by
  induction h with
  | nil cs => exact h'
  | cons hr _ ih => exact .cons hr (ih h')

/-- **Regions are read again** when the text behind a `<` that follows them changes. -/
theorem change (h : Reads cs rs ('<' :: x)) (y : List Char) :
    Reads (regionsText rs ++ '<' :: y) rs ('<' :: y) := by
  generalize hrest : '<' :: x = rest at h
  induction h with
  | nil cs => exact .nil _
  | cons h hs ih =>
    rw [hs.text, ← hrest] at h
    rw [regionsText_cons, List.append_assoc]
    exact .cons (h.change y) (ih hrest)

theorem exists_of_append (h : Reads cs (rs ++ ts) rest) :
    ∃ mid, Reads cs rs mid ∧ Reads mid ts rest := by
  induction rs generalizing cs with
  | nil => exact ⟨cs, .nil cs, h⟩
  | cons r rs ih =>
    cases h with
    | cons hr hs =>
      obtain ⟨mid, hfirst, hlast⟩ := ih hs
      exact ⟨mid, .cons hr hfirst, hlast⟩

theorem change_content {tag content close content' : List Char}
    (h : Reads cs (rs ++ .template tag content close :: ts) ('<' :: x))
    (hcontent : IsContent content') (y : List Char) :
    Reads (regionsText rs ++ (tag ++ (content' ++ (close ++ (regionsText ts ++ '<' :: y)))))
      (rs ++ .template tag content' close :: ts) ('<' :: y) := by
  obtain ⟨mid, hfront, hblock⟩ := h.exists_of_append
  generalize hrest : '<' :: x = rest at hblock
  cases hblock with
  | cons hr hback =>
    subst hrest
    cases hr with
    | template htag hself hread =>
      have hopen := htag
      obtain ⟨body, rfl, -⟩ := htag
      have hblock' := ReadsAs.template hopen hself
        (hcontent.readTemplate (readTemplate_append hread).1 (regionsText ts ++ '<' :: y))
      rw [List.cons_append] at hfront hblock' ⊢
      exact (hfront.change _).append (.cons hblock' (hback.change y))

theorem exists_of_region {r : Region} (h : ComponentFile.regions cs = rs ++ r :: ts) :
    ∃ mid rest, Reads cs rs mid ∧ ReadsAs mid r rest := by
  obtain ⟨mid, hreads, hmid⟩ := exists_of_regions h
  have hmid : ComponentFile.regions mid = [r] ++ ts := hmid
  obtain ⟨rest, hone, -⟩ := exists_of_regions hmid
  cases hone with
  | cons hr => exact ⟨mid, _, hreads, hr⟩

/-- A script block stands behind the regions in front of it, with the opening tag of one. -/
theorem exists_of_script {s : ScriptBlock} (h : s ∈ (Blocks.ofSource cs).scripts) :
    ∃ rs r ts tag rest, ComponentFile.regions cs = rs ++ r :: ts ∧ r.scriptTag? = some tag ∧
      OpensBlock .script tag ∧ Reads cs rs (tag ++ rest) ∧
      s.openTag = ⟨byteLength (regionsText rs), byteLength (regionsText rs) + byteLength tag⟩ := by
  obtain ⟨rs, r, ts, tag, hregions, htag, rfl⟩ := mem_scripts_iff.1 h
  obtain ⟨mid, rest, hreads, hr⟩ := exists_of_region hregions
  obtain ⟨tail, htail⟩ := exists_of_scriptTag? htag
  rw [(eq_of_readRegion (readRegion_eq_some_iff.2 hr)).1, htail, List.append_assoc] at hreads
  exact ⟨rs, r, ts, tag, _, hregions, htag, hr.opensBlock htag, hreads, by simp⟩

/-- The template block stands behind the regions in front of it, between its tags. -/
theorem exists_of_templateBlock {t : TemplateBlock} (h : (Blocks.ofSource cs).template = some t) :
    ∃ rs tag content close rest, OpensBlock .template tag ∧ ClosesTemplate close ∧
      Reads cs rs (tag ++ (content ++ (close ++ rest))) ∧
      (Region.template tag content close).templateAt (byteLength (regionsText rs)) = some t := by
  obtain ⟨rs, tag, content, close, ts, hregions, ht⟩ := exists_templateAt h
  obtain ⟨mid, rest, hreads, hr⟩ := exists_of_region hregions
  rw [Nat.zero_add] at ht
  cases hr with
  | template htag _ hread =>
    rw [eq_of_readTemplate hread] at hreads
    exact ⟨rs, tag, content, close, rest, htag, (readTemplate_append hread).1, hreads, ht⟩

/-- **A script block is found** wherever its opening tag stands behind regions. -/
theorem mem_scripts {tag : List Char} (h : Reads cs rs (tag ++ rest))
    (htag : OpensBlock .script tag) :
    ⟨⟨byteLength (regionsText rs), byteLength (regionsText rs) + byteLength tag⟩,
      hasBareWord "setup".toList tag⟩ ∈ (Blocks.ofSource cs).scripts := by
  obtain ⟨r, rest', hread, hscript⟩ : ∃ r rest', readRegion (tag ++ rest) = some (r, rest') ∧
      r.scriptTag? = some tag := by
    rw [readRegion_of_opensBlock htag]
    split
    · exact ⟨_, _, rfl, rfl⟩
    · exact ⟨_, _, rfl, rfl⟩
  have hone : Reads (tag ++ rest) [r] rest' := .cons (readRegion_eq_some_iff.1 hread) (.nil _)
  refine mem_scripts_iff.2 ⟨rs, r, ComponentFile.regions rest', tag, ?_, hscript, ?_⟩
  · rw [h.regions, hone.regions]
    rfl
  · simp

end Reads

end Islands.ComponentFile
