import Islands.Proofs.ComponentFile.Passing

/-!
# Text in which no tag of a template shows

The reading of blocks looks for comments and for the tags of templates, and nothing else can mislead
it inside a template block. A text hides them (`hidesTemplates`) if none of their beginnings is in
it, in any case of the letters and whatever follows. Parts of such a text are such texts
(`hidesTemplates_of_isInfix`), and so is text put together from them, as long as what is behind a joint
begins with a character that is in none of the beginnings (`hidesTemplates_append`), or characters
are written as words that begin with one (`hidesTemplates_flatMap`).

* `passes_of_hidesTemplates`: such a text is passed over in a template block.
-/

namespace Islands.ComponentFile

/-! ## Beginnings -/

/-- What a comment, the tag of a template and its closing tag begin with, behind the `<`. -/
def tagWords : List (List Char) := ["!--".toList, "template".toList, "/template".toList]

/-- Whether a comment or the tag of a template seems to begin behind a `<`. -/
def seemsTag (cs : List Char) : Bool := tagWords.any fun word => (dropLetters? word cs).isSome

/-- Whether no beginning of a comment or of the tag of a template is in a text. -/
def hidesTemplates : List Char → Bool
  | [] => true
  | c :: cs => !(c == '<' && seemsTag cs) && hidesTemplates cs

/-- Whether a character is in no beginning behind the `<`, in any case. -/
def endsWord (c : Char) : Bool := tagWords.all fun word => word.all (·.toLower != c.toLower)

/-- Whether a text begins with a character that ends every beginning in front of it. -/
def startsApart (cs : List Char) : Bool := cs.head?.all endsWord

/-! ## Joints -/

section
variable {c : Char} {u x : List Char}

theorem dropLetters?_append {word rest : List Char} (h : dropLetters? word u = some rest)
    (x : List Char) : dropLetters? word (u ++ x) = some (rest ++ x) := by
  induction word generalizing u with
  | nil =>
    obtain rfl := Option.some.inj h
    rfl
  | cons w word ih =>
    cases u with
    | nil => cases h
    | cons d u =>
      rw [dropLetters?] at h
      rw [List.cons_append, dropLetters?]
      split at h
      · rename_i hd
        rw [if_pos hd, ih h]
      · cases h

theorem seemsTag_append (h : seemsTag (u ++ x) = false) : seemsTag u = false := by
  rw [seemsTag, List.any_eq_false] at h ⊢
  intro word hword hsome
  obtain ⟨rest, hrest⟩ := Option.isSome_iff_exists.1 hsome
  exact h word hword (by rw [dropLetters?_append hrest]; rfl)

/-- Nothing begins in a text and goes on behind a character that is in no beginning. -/
theorem seemsTag_append_cons (hc : endsWord c = true) (u x : List Char) :
    seemsTag (u ++ c :: x) = seemsTag u := by
  rw [Bool.eq_iff_iff, seemsTag, seemsTag, List.any_eq_true, List.any_eq_true]
  refine exists_congr fun word => and_congr_right fun hword => ?_
  have hall := List.all_eq_true.1 (List.all_eq_true.1 hc word hword)
  rw [dropLetters?_append_cons fun w hw => bne_iff_ne.1 (hall w hw), Option.isSome_map]

theorem hidesTemplates_of_append (h : hidesTemplates (u ++ x) = true) :
    hidesTemplates u = true ∧ hidesTemplates x = true := by
  induction u with
  | nil => exact ⟨rfl, h⟩
  | cons c u ih =>
    rw [List.cons_append, hidesTemplates, Bool.and_eq_true] at h
    obtain ⟨hu, hx⟩ := ih h.2
    refine ⟨?_, hx⟩
    rw [hidesTemplates, hu, Bool.and_true]
    by_cases hc : (c == '<') = true
    · rw [hc, Bool.true_and] at h ⊢
      rw [seemsTag_append (by simpa using h.1)]
      rfl
    · simp [hc]

theorem hidesTemplates_of_isInfix (h : hidesTemplates x = true) (hu : u <:+: x) :
    hidesTemplates u = true := by
  obtain ⟨a, b, rfl⟩ := hu
  exact (hidesTemplates_of_append (hidesTemplates_of_append h).1).2

theorem hidesTemplates_append_of_not_mem (hu : '<' ∉ u) :
    hidesTemplates (u ++ x) = hidesTemplates x := by
  induction u with
  | nil => rfl
  | cons c u ih =>
    rw [List.mem_cons, not_or] at hu
    have hc : (c == '<') = false := beq_false_of_ne (Ne.symm hu.1)
    rw [List.cons_append, hidesTemplates, hc, Bool.false_and, Bool.not_false, Bool.true_and,
      ih hu.2]

theorem hidesTemplates_of_not_mem (hu : '<' ∉ u) : hidesTemplates u = true := by
  have h := hidesTemplates_append_of_not_mem (x := []) hu
  rwa [List.append_nil] at h

theorem hidesTemplates_append (hx : startsApart x = true) :
    hidesTemplates (u ++ x) = (hidesTemplates u && hidesTemplates x) := by
  induction u with
  | nil => rfl
  | cons d u ih =>
    have hseems : seemsTag (u ++ x) = seemsTag u := by
      cases x with
      | nil => rw [List.append_nil]
      | cons c x => exact seemsTag_append_cons hx u x
    rw [List.cons_append, hidesTemplates, hidesTemplates, hseems, ih, Bool.and_assoc]

theorem hidesTemplates_between {b : List Char} (hu : '<' ∉ u) (hb : startsApart b = true)
    (hhides : hidesTemplates b = true) (hx : hidesTemplates x = true) :
    hidesTemplates (u ++ (x ++ b)) = true := by
  rw [hidesTemplates_append_of_not_mem hu, hidesTemplates_append hb, hx, hhides]
  rfl

theorem seemsTag_concat (hc : tagWords.all (fun word => (word.getLast?.all
    (·.toLower != c.toLower))) = true) (u : List Char) : seemsTag (u ++ [c]) = seemsTag u := by
  have hword : ∀ {word : List Char}, word.getLast?.all (·.toLower != c.toLower) = true →
      (dropLetters? word (u ++ [c])).isSome = (dropLetters? word u).isSome := by
    intro word hlast
    induction word generalizing u with
    | nil => rfl
    | cons w word ih =>
      cases u with
      | nil =>
        rw [List.nil_append, dropLetters?, dropLetters?]
        split
        · rename_i hw
          cases word with
          | nil => simp [beq_iff_eq.1 hw] at hlast
          | cons => rfl
        · rfl
      | cons d u =>
        rw [List.cons_append, dropLetters?, dropLetters?]
        split
        · cases word with
          | nil => rfl
          | cons v word => exact ih u (by rwa [List.getLast?_cons_cons] at hlast)
        · rfl
  rw [Bool.eq_iff_iff, seemsTag, seemsTag, List.any_eq_true, List.any_eq_true]
  exact exists_congr fun word => and_congr_right fun hmem => by
    rw [hword (List.all_eq_true.1 hc word hmem)]

theorem hidesTemplates_append_slash (u : List Char) :
    hidesTemplates (u ++ ['/', '>']) = hidesTemplates u := by
  have hslash : hidesTemplates (u ++ ['/']) = hidesTemplates u := by
    induction u with
    | nil => decide
    | cons c u ih =>
      rw [List.cons_append, hidesTemplates, hidesTemplates, ih, seemsTag_concat (by decide)]
  have hsplit : u ++ ['/', '>'] = (u ++ ['/']) ++ ['>'] := by simp
  rw [hsplit, hidesTemplates_append (by decide), hslash]
  exact Bool.and_true _

end

/-! ## Escapes -/

section
variable {escape : Char → List Char}

/-- An escape leaves a character as it is, or writes it as a word without `<` whose first character
is in no beginning. -/
def EscapesApart (escape : Char → List Char) : Prop :=
  ∀ c, escape c = [c] ∨ (escape c).head?.any endsWord = true ∧ '<' ∉ escape c

theorem dropLetters?_flatMap (h : EscapesApart escape) {word cs : List Char}
    (hword : ∀ c, endsWord c = true → ∀ w ∈ word, w.toLower ≠ c.toLower)
    (hsome : (dropLetters? word (cs.flatMap escape)).isSome = true) :
    (dropLetters? word cs).isSome = true := by
  induction word generalizing cs with
  | nil => rfl
  | cons w word ih =>
    cases cs with
    | nil => cases hsome
    | cons c cs =>
      rw [List.flatMap_cons] at hsome
      rcases h c with hc | ⟨hhead, -⟩
      · rw [hc, List.singleton_append, dropLetters?] at hsome
        rw [dropLetters?]
        split at hsome
        · rename_i hw
          rw [if_pos hw]
          exact ih (fun d hd v hv => hword d hd v (List.mem_cons_of_mem _ hv)) hsome
        · cases hsome
      · -- the escape begins with a character that is not in the word
        cases hescape : escape c with
        | nil =>
          rw [hescape] at hhead
          cases hhead
        | cons d tail =>
          rw [hescape] at hhead hsome
          have hne : (w.toLower == d.toLower) = false :=
            beq_false_of_ne (hword d hhead w (List.mem_cons_self ..))
          rw [List.cons_append, dropLetters?, hne] at hsome
          cases hsome

/-- What seems to begin in an escaped text begins in the text. -/
theorem seemsTag_flatMap (h : EscapesApart escape) {cs : List Char}
    (hcs : seemsTag cs = false) : seemsTag (cs.flatMap escape) = false := by
  rw [seemsTag, List.any_eq_false] at hcs ⊢
  intro word hmem hsome
  refine hcs word hmem (dropLetters?_flatMap h (fun c hc w hw => ?_) hsome)
  exact bne_iff_ne.1 (List.all_eq_true.1 (List.all_eq_true.1 hc word hmem) w hw)

theorem hidesTemplates_flatMap (h : EscapesApart escape) {cs : List Char}
    (hcs : hidesTemplates cs = true) : hidesTemplates (cs.flatMap escape) = true := by
  induction cs with
  | nil => rfl
  | cons c cs ih =>
    rw [hidesTemplates, Bool.and_eq_true] at hcs
    rw [List.flatMap_cons]
    rcases h c with hc | ⟨-, hangle⟩
    · rw [hc, List.singleton_append, hidesTemplates, ih hcs.2, Bool.and_true]
      by_cases hlt : (c == '<') = true
      · rw [hlt, Bool.true_and, Bool.not_eq_true'] at hcs
        rw [hlt, seemsTag_flatMap h hcs.1]
        rfl
      · simp [hlt]
    · rw [hidesTemplates_append_of_not_mem hangle]
      exact ih hcs.2

end

/-! ## Passing over -/

/-- Where no beginning is, there is no comment and no tag of a template. -/
theorem not_stopsAt_of_seemsTag {cs : List Char} (h : seemsTag cs = false) :
    startsComment cs = false ∧ stopsAt true cs = false := by
  simp only [seemsTag, tagWords, List.any_cons, List.any_nil, Bool.or_false,
    Bool.or_eq_false_iff] at h
  obtain ⟨hcomment, hopen, hclose⟩ := h
  refine ⟨?_, ?_⟩
  · refine Bool.eq_false_iff.2 fun hsome => ?_
    obtain ⟨rest, hrest⟩ := Option.isSome_iff_exists.1 hsome
    have hword : dropLetters? "!--".toList ['!', '-', '-'] = some [] := rfl
    rw [dropWord?_eq_some_iff.1 hrest, dropLetters?_append hword] at hcomment
    cases hcomment
  · have hname : ∀ {x : List Char}, (dropLetters? BlockName.template.letters x).isSome = false →
        startsName .template x = false := by
      intro x hx
      have hnone : dropLetters? BlockName.template.letters x = none := by simpa using hx
      rw [startsName, hnone]
    rw [stopsAt, if_pos rfl, hname hopen, Bool.or_false]
    unfold closesTemplate
    split
    · exact hname hclose
    · rfl

/-- **A text in which no tag of a template shows** is passed over in a template block. -/
theorem passes_of_hidesTemplates {cs : List Char} (h : hidesTemplates cs = true) :
    passes true cs = true := by
  induction cs with
  | nil => rw [passes]
  | cons c cs ih =>
    rw [hidesTemplates, Bool.and_eq_true] at h
    rw [passes]
    by_cases hc : c = '<'
    · have hseems : seemsTag cs = false := by simpa [hc] using h.1
      obtain ⟨hcomment, hstop⟩ := not_stopsAt_of_seemsTag hseems
      rw [if_pos hc, if_neg (by simp [hcomment]), hstop, ih h.2]
      rfl
    · rw [if_neg hc, ih h.2]

end Islands.ComponentFile
