import Islands.Proofs.Markup.AttributeForm

/-!
# Texts with the same decoded value

A bare value that is read on too far still has the value it should have only if what was added
belongs to character references: `isReferencePart_of_decode_append`. So no blank, slash or `=` was
added.
-/

namespace Islands.Markup

theorem Reference.read?_eq_some_iff {cs rest : List Char} {c : Char} :
    Reference.read? cs = some (c, rest) ↔
      ∃ name, cs = name ++ ';' :: rest ∧ (∀ d ∈ name, isReferenceChar d = true) ∧
        Reference.char? name = some c := by
  unfold Reference.read?
  constructor
  · intro h
    split at h
    · rename_i tail e
      obtain ⟨c', hc, e'⟩ := Option.map_eq_some_iff.1 h
      obtain ⟨rfl, rfl⟩ := Prod.mk.inj e'
      obtain ⟨hcs, hrun, -⟩ := takeWhile_dropWhile_eq_iff.1 ⟨rfl, e⟩
      exact ⟨_, hcs, hrun, hc⟩
    · cases h
  · intro h
    obtain ⟨name, hcs, hrun, hc⟩ := h
    have hsplit := takeWhile_dropWhile_eq_iff.2 ⟨hcs, hrun, not_of_head?_cons rfl⟩
    rw [hsplit.2, hsplit.1, hc]
    rfl

theorem decodeReferences_of_read {cs rest : List Char} {c : Char}
    (h : Reference.read? cs = some (c, rest)) :
    decodeReferences ('&' :: cs) = c :: decodeReferences rest := by
  rw [decodeReferences]
  split
  · rename_i e
    obtain ⟨rfl, rfl⟩ := Prod.mk.inj (Option.some.inj (h.symm.trans e))
    rfl
  · rename_i e
    rw [h] at e
    cases e

theorem decodeReferences_of_not_read {cs : List Char} (h : Reference.read? cs = none) :
    decodeReferences ('&' :: cs) = '&' :: decodeReferences cs := by
  rw [decodeReferences]
  split
  · rename_i e
    rw [h] at e
    cases e
  · rfl

theorem decodeReferences_cons {c : Char} (hc : c ≠ '&') (cs : List Char) :
    decodeReferences (c :: cs) = c :: decodeReferences cs :=
  decodeReferences.eq_3 c cs fun h => hc h

theorem decodeReferences_of_isReferenceChar {cs : List Char}
    (h : ∀ c ∈ cs, isReferenceChar c = true) : decodeReferences cs = cs := by
  induction cs with
  | nil => rw [decodeReferences]
  | cons c cs ih =>
    have hc := h c (List.mem_cons_self ..)
    have hne : c ≠ '&' := by
      rintro rfl
      cases hc
    rw [decodeReferences_cons hne, ih fun d hd => h d (List.mem_cons_of_mem _ hd)]

/-- Whether a character may stand in a reference, its two ends included. -/
def isReferencePart (c : Char) : Bool := isReferenceChar c || c == '&' || c == ';'

theorem isReferencePart_of_isReferenceChar {c : Char} (h : isReferenceChar c = true) :
    isReferencePart c = true := by
  rw [isReferencePart, h]
  rfl

/-- A text that decodes to characters of references consists of parts of references. -/
theorem isReferencePart_of_decoded {cs : List Char}
    (h : ∀ c ∈ decodeReferences cs, isReferenceChar c = true) :
    ∀ c ∈ cs, isReferencePart c = true := by
  fun_induction decodeReferences cs with
  | case1 => exact List.forall_mem_nil _
  | case2 cs c rest hread _ ih =>
    obtain ⟨name, rfl, hname, -⟩ := Reference.read?_eq_some_iff.1 hread
    have ih := ih fun d hd => h d (List.mem_cons_of_mem _ hd)
    intro d hd
    rcases List.mem_cons.1 hd with rfl | hd
    · rfl
    · rcases List.mem_append.1 hd with hd | hd
      · exact isReferencePart_of_isReferenceChar (hname d hd)
      · rcases List.mem_cons.1 hd with rfl | hd
        · rfl
        · exact ih d hd
  | case3 cs hread ih =>
    -- an ampersand by itself is decoded to itself
    have := h '&' (List.mem_cons_self ..)
    cases this
  | case4 c cs hne ih =>
    intro d hd
    rcases List.mem_cons.1 hd with rfl | hd
    · exact isReferencePart_of_isReferenceChar (h d (List.mem_cons_self ..))
    · exact ih (fun e he => h e (List.mem_cons_of_mem _ he)) d hd

/-- **More characters, same value**: characters behind a text that do not change what it decodes
to are parts of references. -/
theorem isReferencePart_of_decode_append {cs x : List Char}
    (h : decodeReferences (cs ++ x) = decodeReferences cs) : ∀ c ∈ x, isReferencePart c = true := by
  fun_induction decodeReferences cs with
  | case1 =>
    rw [List.nil_append] at h
    exact isReferencePart_of_decoded (by rw [h]; exact List.forall_mem_nil _)
  | case2 cs c rest hread _ ih =>
    obtain ⟨name, rfl, hname, hc⟩ := Reference.read?_eq_some_iff.1 hread
    have hread' : Reference.read? (name ++ ';' :: rest ++ x) = some (c, rest ++ x) :=
      Reference.read?_eq_some_iff.2 ⟨name, by simp, hname, hc⟩
    rw [List.cons_append, decodeReferences_of_read hread'] at h
    exact ih (List.cons.inj h).2
  | case3 cs hread ih =>
    cases hread' : Reference.read? (cs ++ x) with
    | none =>
      rw [List.cons_append, decodeReferences_of_not_read hread'] at h
      exact ih (List.cons.inj h).2
    | some p =>
      obtain ⟨c, rest⟩ := p
      rw [List.cons_append, decodeReferences_of_read hread'] at h
      obtain ⟨name, hsplit, hname, hc⟩ := Reference.read?_eq_some_iff.1 hread'
      -- the reference that starts in `cs` ends in `x`, so all that is left of `cs` is in its name
      obtain ⟨m, rfl, rfl⟩ : ∃ m, name = cs ++ m ∧ x = m ++ ';' :: rest := by
        rcases List.append_eq_append_iff.1 hsplit with ⟨m, hm, hx⟩ | ⟨m, rfl, hx⟩
        · exact ⟨m, hm, hx⟩
        · cases m with
          | nil => exact ⟨[], by simp, by simpa using hx.symm⟩
          | cons d m =>
            obtain ⟨rfl, hrest⟩ := List.cons.inj hx
            have hread'' : Reference.read? (name ++ ';' :: m) = some (c, m) :=
              Reference.read?_eq_some_iff.2 ⟨name, rfl, hname, hc⟩
            rw [hread] at hread''
            cases hread''
      have hcs : ∀ d ∈ cs, isReferenceChar d = true := fun d hd =>
        hname d (List.mem_append_left _ hd)
      have hrest : decodeReferences rest = cs := by
        rw [(List.cons.inj h).2, decodeReferences_of_isReferenceChar hcs]
      intro d hd
      rcases List.mem_append.1 hd with hd | hd
      · exact isReferencePart_of_isReferenceChar (hname d (List.mem_append_right _ hd))
      · rcases List.mem_cons.1 hd with rfl | hd
        · rfl
        · exact isReferencePart_of_decoded (by rw [hrest]; exact hcs) d hd
  | case4 c cs hne ih =>
    rw [List.cons_append, decodeReferences_cons (fun h => hne h)] at h
    exact ih (List.cons.inj h).2

end Islands.Markup
