import Islands.Proofs.Markup.Decoding
import Islands.Proofs.Markup.Enclosed
import Islands.Proofs.Text.Replacements
import Islands.Wrapper.Literal

/-!
# Values of generated attributes

A text that is quoted as the value of an attribute is read back as it was. What it is quoted with is
a value between quotation marks that it does not hold (`quotedValue`), and its character references
are decoded to the text: each ampersand was written as one, so none of them is decoded twice.

* `toList_quoteAttribute`: the value as it is written, one replacement after the other.
* `decoded_quotedValue`: what the value means.
* `exists_quotedValue`, `sound_quotedValue`: it ends at its second quotation mark.
-/

namespace Islands

open Markup

/-! ## References -/

theorem decodeReferences_amp (rest : List Char) :
    decodeReferences ("&amp;".toList ++ rest) = '&' :: decodeReferences rest :=
  decodeReferences_of_read
    (Reference.read?_eq_some_iff.2 ⟨"amp".toList, rfl, List.all_eq_true.1 (by decide), by decide⟩)

theorem decodeReferences_quot (rest : List Char) :
    decodeReferences ("&quot;".toList ++ rest) = '"' :: decodeReferences rest :=
  decodeReferences_of_read
    (Reference.read?_eq_some_iff.2 ⟨"quot".toList, rfl, List.all_eq_true.1 (by decide), by decide⟩)

theorem decodeReferences_escapeAmp (c : Char) (rest : List Char) :
    decodeReferences (escapeAmp c ++ rest) = c :: decodeReferences rest := by
  unfold escapeAmp
  split
  · rename_i hc
    rw [decodeReferences_amp, hc]
  · rename_i hc
    exact decodeReferences_cons hc rest

theorem decodeReferences_escapeAmpQuote (c : Char) (rest : List Char) :
    decodeReferences (escapeAmpQuote c ++ rest) = c :: decodeReferences rest := by
  unfold escapeAmpQuote
  split
  · rename_i hc
    rw [decodeReferences_amp, hc]
  · rename_i hc
    split
    · rename_i hquote
      rw [decodeReferences_quot, hquote]
    · exact decodeReferences_cons hc rest

theorem decodeReferences_flatMap {escape : Char → List Char}
    (h : ∀ c rest, decodeReferences (escape c ++ rest) = c :: decodeReferences rest)
    (cs : List Char) : decodeReferences (cs.flatMap escape) = cs := by
  induction cs with
  | nil => rw [List.flatMap_nil, decodeReferences]
  | cons c cs ih => rw [List.flatMap_cons, h, ih]

/-! ## Quotation marks -/

theorem eq_of_mem_escapeAmp {q c : Char} (hq : q ∉ "&amp;".toList) (h : q ∈ escapeAmp c) :
    q = c := by
  unfold escapeAmp at h
  split at h
  · exact absurd h hq
  · exact List.mem_singleton.1 h

/-- A quotation mark is in the written form of a text just if the text holds it. -/
theorem mem_flatMap_escapeAmp {q : Char} {cs : List Char} (hq : q ∉ "&amp;".toList) :
    q ∈ cs.flatMap escapeAmp ↔ q ∈ cs := by
  rw [List.mem_flatMap]
  refine ⟨fun ⟨c, hc, hqc⟩ => eq_of_mem_escapeAmp hq hqc ▸ hc, fun h => ⟨q, h, ?_⟩⟩
  have hamp : q ≠ '&' := by
    rintro rfl
    exact hq (List.mem_cons_self ..)
  rw [escapeAmp, if_neg hamp]
  exact List.mem_singleton.2 rfl

theorem not_mem_flatMap_escapeAmpQuote (cs : List Char) : '"' ∉ cs.flatMap escapeAmpQuote := by
  intro hmem
  obtain ⟨c, -, hqc⟩ := List.mem_flatMap.1 hmem
  unfold escapeAmpQuote at hqc
  split at hqc
  · exact absurd hqc (by decide)
  · split at hqc
    · exact absurd hqc (by decide)
    · rename_i hc
      exact hc (List.mem_singleton.1 hqc).symm

/-! ## Passes over a value -/

/-- The characters that are escaped between double quotes, in the order of the passes. -/
def attributeEscapes : List (Char × List Char) :=
  [('&', "&amp;".toList), ('"', "&quot;".toList)]

theorem replaceEach_amp (cs : List Char) :
    replaceEach '&' "&amp;".toList cs = cs.flatMap escapeAmp := rfl

theorem replaceInTurn_attributeEscapes (cs : List Char) :
    replaceInTurn attributeEscapes cs = cs.flatMap escapeAmpQuote := by
  rw [replaceInTurn_eq_flatMap (by decide)]
  apply List.flatMap_congr
  intro c _
  simp only [replacement, attributeEscapes, List.lookup_cons, List.lookup_nil, escapeAmpQuote]
  by_cases hamp : c = '&'
  · simp [hamp]
  · by_cases hquote : c = '"' <;> simp [hamp, hquote, beq_false_of_ne]

/-- **A quoted text** has its ampersands replaced, and stands between quotation marks that it does
not hold then. If it holds both, its double quotes are replaced in a second pass. -/
theorem toList_quoteAttribute (s : String) :
    (quoteAttribute s).toList =
      if '"' ∉ replaceEach '&' "&amp;".toList s.toList then
        '"' :: (replaceEach '&' "&amp;".toList s.toList ++ ['"'])
      else if '\'' ∉ replaceEach '&' "&amp;".toList s.toList then
        '\'' :: (replaceEach '&' "&amp;".toList s.toList ++ ['\''])
      else '"' :: (replaceInTurn attributeEscapes s.toList ++ ['"']) := by
  have hdouble : '"' ∈ s.toList.flatMap escapeAmp ↔ '"' ∈ s.toList :=
    mem_flatMap_escapeAmp (by decide)
  have hsingle : '\'' ∈ s.toList.flatMap escapeAmp ↔ '\'' ∈ s.toList :=
    mem_flatMap_escapeAmp (by decide)
  simp only [replaceInTurn_attributeEscapes, replaceEach_amp, hdouble, hsingle, quoteAttribute]
  by_cases hd : '"' ∈ s.toList
  · by_cases hs : '\'' ∈ s.toList <;> simp [hd, hs]
  · simp [hd]

/-! ## Values -/

/-- A text as a value between quotation marks. -/
def quotedValue (s : String) : WrittenValue :=
  if !s.toList.contains '"' then .quoted '"' (s.toList.flatMap escapeAmp)
  else if !s.toList.contains '\'' then .quoted '\'' (s.toList.flatMap escapeAmp)
  else .quoted '"' (s.toList.flatMap escapeAmpQuote)

theorem written_quotedValue (s : String) :
    (quotedValue s).written = (quoteAttribute s).toList := by
  unfold quotedValue quoteAttribute
  simp only
  split
  · rw [String.toList_ofList, WrittenValue.written, List.cons_append]
  · split <;> rw [String.toList_ofList, WrittenValue.written, List.cons_append]

/-- **What a quoted text means** is the text. -/
theorem decoded_quotedValue (s : String) : (quotedValue s).decoded = s := by
  have hdecode : decodeReferences (quotedValue s).body = s.toList := by
    unfold quotedValue
    split
    · exact decodeReferences_flatMap decodeReferences_escapeAmp _
    · split
      · exact decodeReferences_flatMap decodeReferences_escapeAmp _
      · exact decodeReferences_flatMap decodeReferences_escapeAmpQuote _
  rw [WrittenValue.decoded, hdecode, String.ofList_toList]

/-- A quoted text stands between two quotation marks that are not in its written form. -/
theorem exists_quotedValue (s : String) :
    ∃ mark body, quotedValue s = .quoted mark body ∧ (mark = '"' ∨ mark = '\'') ∧ mark ∉ body := by
  unfold quotedValue
  split
  · rename_i hdouble
    have hmark : '"' ∉ s.toList.flatMap escapeAmp := by
      rw [mem_flatMap_escapeAmp (by decide)]
      simpa using hdouble
    exact ⟨'"', _, rfl, .inl rfl, hmark⟩
  · split
    · rename_i hsingle
      have hmark : '\'' ∉ s.toList.flatMap escapeAmp := by
        rw [mem_flatMap_escapeAmp (by decide)]
        simpa using hsingle
      exact ⟨'\'', _, rfl, .inr rfl, hmark⟩
    · exact ⟨'"', _, rfl, .inl rfl, not_mem_flatMap_escapeAmpQuote _⟩

theorem sound_quotedValue (s : String) : (quotedValue s).Sound := by
  obtain ⟨mark, body, h, hmark, hbody⟩ := exists_quotedValue s
  rw [h]
  exact ⟨hmark, hbody⟩

end Islands
