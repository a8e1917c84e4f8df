import Islands.Proofs.ComponentFile.Rereading

/-!
# Text without blocks

A text holds no block if the reading of blocks passes over it: it meets complete comments and
characters that begin no tag of a block (`passes`). Whatever stands behind such a text is read as if
it stood alone, in a file (`reads_of_passes`) and in the content of a template block
(`readTemplate_of_passes`), as long as nothing that begins in the text goes on behind it (`Joint`).
-/

namespace Islands.ComponentFile

/-! ## Passing over a text -/

/-- What the reading of blocks stops at behind a `<`, comments aside: in a template at the tags of
templates, and elsewhere at the opening tag of any block. -/
def stopsAt (inside : Bool) (cs : List Char) : Bool :=
  if inside then closesTemplate cs || startsName .template cs else (blockName? cs).isSome

/-- Whether a comment begins behind a `<`. -/
def startsComment (cs : List Char) : Bool := (dropWord? ['!', '-', '-'] cs).isSome

theorem length_le_of_splitOnFirst {word cs : List Char} {p : List Char × List Char}
    (h : splitOnFirst word cs = some p) : p.2.length ≤ cs.length := by
  have hcs : cs = p.1 ++ (word ++ p.2) := eq_of_splitOnFirst h
  rw [hcs, List.length_append, List.length_append]
  omega

/-- Whether the reading of blocks passes over a text. `inside` says whether it is in a template. -/
def passes (inside : Bool) (cs : List Char) : Bool :=
  match cs with
  | [] => true
  | c :: cs =>
    if c = '<' then
      if startsComment cs then
        match _h : splitOnFirst ['-', '-', '>'] cs with
        | some p => passes inside p.2
        | none => false
      else !stopsAt inside cs && passes inside cs
    else passes inside cs
termination_by cs.length
decreasing_by
  · exact Nat.lt_succ_of_le (length_le_of_splitOnFirst _h)
  · exact Nat.lt_succ_self _
  · exact Nat.lt_succ_self _

/-- Nothing that begins in a text goes on behind it: the text ends with `>`, or there is the end or
a `<` behind it. -/
def Joint (w rest : List Char) : Prop :=
  ∀ c, w.getLast? = some c → c = '>' ∨ rest = [] ∨ ∃ x, rest = '<' :: x

theorem Joint.tail {c : Char} {w rest : List Char} (h : Joint (c :: w) rest) : Joint w rest := by
  intro d hd
  refine h d ?_
  cases w with
  | nil => cases hd
  | cons => rwa [List.getLast?_cons_cons]

theorem joint_of_angle (u rest : List Char) : Joint (u ++ ['>']) rest := by
  intro c hc
  rw [List.getLast?_append, List.getLast?_singleton, Option.some_or] at hc
  exact .inl (Option.some.inj hc).symm

theorem Joint.suffix {v w rest : List Char} (h : Joint (v ++ w) rest) : Joint w rest := by
  induction v with
  | nil => exact h
  | cons c v ih => exact ih h.tail

/-! ## What is decided in a text -/

theorem startsName_end (name : BlockName) (u x : List Char) :
    startsName name (u ++ '<' :: x) = startsName name u := by
  rw [startsName, startsName, dropLetters?_append_cons (ne_angle_of_mem_letters (.inl rfl) name)]
  cases dropLetters? name.letters u with
  | none => rfl
  | some v => cases v <;> rfl

theorem closesTemplate_end (u x : List Char) :
    closesTemplate (u ++ '<' :: x) = closesTemplate u := by
  cases u with
  | nil => rfl
  | cons d u =>
    by_cases hd : d = '/'
    · subst hd
      exact startsName_end .template u x
    · rw [List.cons_append, closesTemplate, closesTemplate]
      · simpa using hd
      · simpa using hd

theorem stopsAt_append {c : Char} (hc : c = '<' ∨ c = '>') (inside : Bool) (u x y : List Char) :
    stopsAt inside (u ++ c :: x) = stopsAt inside (u ++ c :: y) := by
  unfold stopsAt
  rw [closesTemplate_append hc u x y, startsName_append hc .template u x y,
    blockName?_append hc u x y]

theorem stopsAt_end (inside : Bool) (u x : List Char) :
    stopsAt inside (u ++ '<' :: x) = stopsAt inside u := by
  have hnames : (startsName · (u ++ '<' :: x)) = (startsName · u) :=
    funext fun name => startsName_end name u x
  unfold stopsAt blockName?
  rw [closesTemplate_end, startsName_end, hnames]

theorem startsComment_append {c : Char} (hc : c = '<' ∨ c = '>') (u x : List Char) :
    startsComment (u ++ c :: x) = startsComment u := by
  have hmem : c ∉ ['!', '-', '-'] := by
    rcases hc with rfl | rfl <;> decide
  rw [startsComment, startsComment, dropWord?_append_cons hmem, Option.isSome_map]

section
variable {cs rest : List Char}

/-- Where a text is joined to the one behind it. -/
theorem Joint.cases (h : Joint ('<' :: cs) rest) :
    (∃ u, cs = u ++ ['>']) ∨ rest = [] ∨ ∃ x, rest = '<' :: x := by
  cases hlast : cs.getLast? with
  | none =>
    obtain rfl := List.getLast?_eq_none_iff.1 hlast
    exact .inr ((h '<' rfl).resolve_left (by decide))
  | some c =>
    rcases h.tail c hlast with rfl | h
    · exact .inl (List.getLast?_eq_some_iff.1 hlast)
    · exact .inr h

/-- What a `<` in a text begins is decided in the text. -/
theorem Joint.stopsAt (h : Joint ('<' :: cs) rest) (inside : Bool) :
    stopsAt inside (cs ++ rest) = stopsAt inside cs := by
  rcases h.cases with ⟨u, rfl⟩ | rfl | ⟨x, rfl⟩
  · rw [List.append_assoc]
    exact stopsAt_append (.inr rfl) inside u _ _
  · rw [List.append_nil]
  · exact stopsAt_end inside cs x

theorem Joint.startsComment (h : Joint ('<' :: cs) rest) :
    startsComment (cs ++ rest) = startsComment cs := by
  rcases h.cases with ⟨u, rfl⟩ | rfl | ⟨x, rfl⟩
  · rw [List.append_assoc, List.singleton_append, startsComment_append (.inr rfl),
      startsComment_append (.inr rfl)]
  · rw [List.append_nil]
  · exact startsComment_append (.inl rfl) cs x

theorem readComment?_of_split {a b : List Char} (hword : startsComment cs = true)
    (hsplit : splitOnFirst ['-', '-', '>'] cs = some (a, b)) (rest : List Char) :
    readComment? (cs ++ rest) = some (a ++ ['-', '-', '>'], b ++ rest) := by
  obtain ⟨tail, htail⟩ := Option.isSome_iff_exists.1 hword
  have hword' : (dropWord? ['!', '-', '-'] (cs ++ rest)).isSome = true := by
    rw [dropWord?_eq_some_iff.1 htail, List.append_assoc, dropWord?_eq_some_iff.2 rfl]
    rfl
  have hsplit' : splitOnFirst ['-', '-', '>'] (cs ++ rest) = some (a, b ++ rest) := by
    rw [eq_of_splitOnFirst hsplit, List.append_assoc, List.append_assoc]
    exact splitOnFirst_append hsplit _
  rw [readComment?, if_pos hword', hsplit']

theorem readComment?_of_not_startsComment (h : startsComment cs = false) :
    readComment? cs = none :=
  readComment?_eq_none_iff.2 (Option.not_isSome_iff_eq_none.1 (by rw [← startsComment, h]; simp))

end

/-! ## What is behind the text -/

/-- Whether a region is a block. -/
def Region.isBlock : Region → Bool
  | plain _ | comment _ => false
  | _ => true

theorem Joint.behind_comment {cs rest : List Char} {p : List Char × List Char}
    (h : Joint ('<' :: cs) rest) (hsplit : splitOnFirst ['-', '-', '>'] cs = some p) :
    Joint p.2 rest := by
  obtain ⟨a, b⟩ := p
  have h := h.tail
  rw [eq_of_splitOnFirst hsplit, ← List.append_assoc] at h
  exact h.suffix

/-- **In a file**, a text without blocks is read as regions that are none. -/
theorem reads_of_passes {w rest : List Char} (h : passes false w = true) (hjoint : Joint w rest) :
    ∃ rs, Reads (w ++ rest) rs rest ∧ ∀ r ∈ rs, r.isBlock = false := by
  fun_induction passes false w with
  | case1 => exact ⟨[], .nil rest, fun _ hr => nomatch hr⟩
  | case2 cs hword p hsplit ih =>
    obtain ⟨rs, hreads, hplain⟩ := ih h (hjoint.behind_comment hsplit)
    exact ⟨_ :: rs, .cons (.comment (readComment?_of_split hword hsplit rest)) hreads,
      List.forall_mem_cons.2 ⟨rfl, hplain⟩⟩
  | case3 => cases h
  | case4 cs hword ih =>
    rw [Bool.and_eq_true, Bool.not_eq_true'] at h
    obtain ⟨rs, hreads, hplain⟩ := ih h.2 hjoint.tail
    have hcomment : readComment? (cs ++ rest) = none :=
      readComment?_of_not_startsComment (by rw [hjoint.startsComment]; simpa using hword)
    have hname : blockName? (cs ++ rest) = none := by
      have hstop := (hjoint.stopsAt false).trans h.1
      exact Option.not_isSome_iff_eq_none.1 fun hsome => by
        rw [ComponentFile.stopsAt, if_neg Bool.false_ne_true, hsome] at hstop
        cases hstop
    exact ⟨_ :: rs, .cons (.angle hcomment hname) hreads, List.forall_mem_cons.2 ⟨rfl, hplain⟩⟩
  | case5 c cs hc ih =>
    obtain ⟨rs, hreads, hplain⟩ := ih h hjoint.tail
    exact ⟨_ :: rs, .cons (.other hc) hreads, List.forall_mem_cons.2 ⟨rfl, hplain⟩⟩

theorem map_prepend {β : Type} (a b : List Char) (o : Option (List Char × β)) :
    (o.map (prepend b)).map (prepend a) = o.map (prepend (a ++ b)) := by
  rw [Option.map_map]
  congr 1
  funext p
  simp [prepend]

/-- A character that begins no piece of a template block. -/
theorem readTemplate_other {c : Char} (hc : c ≠ '<') (inner : Nat) (cs : List Char) :
    readTemplate inner (c :: cs) = (readTemplate inner cs).map (prepend [c]) := by
  rw [readTemplate]
  exact fun h => hc h

/-- **In a template block**, a text without tags of templates belongs to the content. -/
theorem readTemplate_of_passes {w rest : List Char} (h : passes true w = true)
    (hjoint : Joint w rest) (inner : Nat) :
    readTemplate inner (w ++ rest) = (readTemplate inner rest).map (prepend w) := by
  fun_induction passes true w with
  | case1 =>
    rw [List.nil_append]
    cases readTemplate inner rest <;> rfl
  | case2 cs hword p hsplit ih =>
    have hcs := eq_of_splitOnFirst hsplit
    have hpiece : readPieceAfterAngle (cs ++ rest) =
        some (.plain ('<' :: (p.1 ++ ['-', '-', '>'])), p.2 ++ rest) := by
      rw [readPieceAfterAngle_eq, readComment?_of_split hword hsplit rest]
    rw [List.cons_append, readTemplate_of_piece inner hpiece]
    simp only
    rw [ih h (hjoint.behind_comment hsplit), map_prepend]
    rw [List.cons_append, List.append_assoc, ← hcs]
  | case3 => cases h
  | case4 cs hword ih =>
    rw [Bool.and_eq_true, Bool.not_eq_true'] at h
    have hcomment : readComment? (cs ++ rest) = none :=
      readComment?_of_not_startsComment (by rw [hjoint.startsComment]; simpa using hword)
    have hstop := (hjoint.stopsAt true).trans h.1
    rw [ComponentFile.stopsAt, if_pos rfl, Bool.or_eq_false_iff] at hstop
    have hpiece : readPieceAfterAngle (cs ++ rest) = some (.plain ['<'], cs ++ rest) := by
      rw [readPieceAfterAngle_eq, hcomment, hstop.1, hstop.2]
      rfl
    rw [List.cons_append, readTemplate_of_piece inner hpiece]
    simp only
    rw [ih h.2 hjoint.tail, map_prepend, List.singleton_append]
  | case5 c cs hc ih =>
    rw [List.cons_append, readTemplate_other hc, ih h hjoint.tail, map_prepend,
      List.singleton_append]

end Islands.ComponentFile
