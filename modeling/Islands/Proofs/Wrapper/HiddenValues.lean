import Islands.Proofs.ComponentFile.HiddenTags
import Islands.Proofs.Wrapper.Contributions
import Islands.Proofs.Wrapper.QuotedValues
import Islands.Proofs.Wrapper.RepetitionParts
import Islands.Wrapper.Address

/-!
# Generated values in which no tag of a template shows

The values of generated attributes are put together from names and values of the source. What is put
between these, and the escapes of their characters, begin with characters that are in the beginning
of no tag of a template. So the generated values hide these tags if the names and values do
(`Attribute.hidesTemplates`).

* `hidesTemplates_quotedValue`, `hidesTemplates_stringLiteral`: a text that is quoted.
* `PropData.Hides.expression`: the expression for the prop data of a slot.
-/

namespace Islands

open Markup ComponentFile

/-! ## Quoted texts -/

theorem escapesApart_escapeAmp : EscapesApart escapeAmp := by
  intro c
  unfold escapeAmp
  split
  · exact .inr (by decide)
  · exact .inl rfl

theorem escapesApart_escapeAmpQuote : EscapesApart escapeAmpQuote := by
  intro c
  unfold escapeAmpQuote
  split
  · exact .inr (by decide)
  · split
    · exact .inr (by decide)
    · exact .inl rfl

theorem escapesApart_literalChar : EscapesApart literalChar := by
  intro c
  unfold literalChar
  split <;> first | exact .inl rfl | exact .inr (by decide)

theorem hidesTemplates_quoted {escape : Char → List Char} (hescape : EscapesApart escape)
    {mark : Char} (hmark : mark = '"' ∨ mark = '\'') {cs : List Char}
    (h : hidesTemplates cs = true) :
    hidesTemplates (mark :: (cs.flatMap escape ++ [mark])) = true := by
  have hcs := hidesTemplates_flatMap hescape h
  rcases hmark with rfl | rfl <;>
    exact hidesTemplates_between (u := [_]) (by decide) (by decide) (by decide) hcs

section
variable {s : String}

theorem hidesTemplates_quotedValue (h : hidesTemplates s.toList = true) :
    hidesTemplates (quotedValue s).written = true := by
  unfold quotedValue
  split
  · exact hidesTemplates_quoted escapesApart_escapeAmp (.inl rfl) h
  · split
    · exact hidesTemplates_quoted escapesApart_escapeAmp (.inr rfl) h
    · exact hidesTemplates_quoted escapesApart_escapeAmpQuote (.inl rfl) h

theorem hidesTemplates_stringLiteral (h : hidesTemplates s.toList = true) :
    hidesTemplates (stringLiteral s).toList = true := by
  rw [stringLiteral, String.toList_ofList]
  exact hidesTemplates_quoted escapesApart_literalChar (.inl rfl) h

theorem hidesTemplates_objectKey (h : hidesTemplates s.toList = true) :
    hidesTemplates (objectKey s).toList = true := by
  unfold objectKey
  split
  · exact h
  · exact hidesTemplates_stringLiteral h

theorem trimBy_isInfix (p : Char → Bool) (cs : List Char) : trimBy p cs <:+: cs := by
  have hback : trimBy p cs <+: cs.dropWhile p := by
    have hsuffix := List.dropWhile_suffix p (l := (cs.dropWhile p).reverse)
    have hprefix := List.reverse_prefix.2 hsuffix
    rwa [List.reverse_reverse] at hprefix
  exact hback.isInfix.trans (List.dropWhile_suffix p).isInfix

theorem hidesTemplates_trim (h : hidesTemplates s.toList = true) :
    hidesTemplates (trim s).toList = true := by
  rw [trim, String.toList_ofList]
  exact hidesTemplates_of_isInfix h (trimBy_isInfix _ _)

end

/-! ## Props -/

/-- Whether no tag of a template shows in an attribute, as it is written and as it is read. -/
def Markup.Attribute.hidesTemplates (template : List Char) (a : Attribute) : Bool :=
  ComponentFile.hidesTemplates a.name.toList && ComponentFile.hidesTemplates a.valueOrEmpty.toList &&
    ComponentFile.hidesTemplates (a.span.cut template)

/-- No tag of a template shows in a prop. -/
structure PropEntry.Hides (p : PropEntry) : Prop where
  key : hidesTemplates p.key.text.toList = true
  value : hidesTemplates p.value.text.toList = true

/-- No tag of a template shows in prop data. -/
structure PropData.Hides (d : PropData) : Prop where
  props : ∀ p ∈ d.props, p.Hides
  spread : ∀ e, d.spread = some e → hidesTemplates e.toList = true
  item : ∀ r, d.repetition = some r → hidesTemplates r.item.toList = true
  iterable : ∀ r, d.repetition = some r → hidesTemplates r.iterable.toList = true

section
variable {name directive : String} {key : EntryKey} {a : Attribute} {as : List Attribute}

theorem infix_of_bindingArgument? {argument : List Char}
    (h : bindingArgument? name = some argument) : argument <:+: name.toList := by
  have hsuffix : argument <:+ name.toList := by
    rw [bindingArgument?, Option.or_eq_some_iff, dropWord?_eq_some_iff, dropWord?_eq_some_iff] at h
    rcases h with h | ⟨-, h⟩ <;> exact ⟨_, h.symm⟩
  exact hsuffix.isInfix

theorem hidesTemplates_argumentKey? {argument : List Char} (h : argumentKey? argument = some key)
    (hhides : hidesTemplates argument = true) : hidesTemplates key.text.toList = true := by
  unfold argumentKey? at h
  split at h
  · rename_i cs
    split at h
    · cases h
    · rename_i inside rest hsplit
      simp only at h
      split at h
      · cases h
      · obtain rfl := Option.some.inj h
        have hinside : inside <:+: '[' :: cs :=
          ⟨['['], ']' :: rest, by rw [eq_of_splitOnFirst hsplit]; simp⟩
        have htrim : hidesTemplates (String.ofList (trimBy isWhite inside)).toList = true := by
          rw [String.toList_ofList]
          exact hidesTemplates_of_isInfix hhides ((trimBy_isInfix isWhite inside).trans hinside)
        rw [EntryKey.text, String.toList_append, String.toList_append, List.append_assoc]
        exact hidesTemplates_between (by decide) (by decide) (by decide) htrim
  · simp only at h
    split at h
    · cases h
    · obtain rfl := Option.some.inj h
      refine hidesTemplates_objectKey ?_
      rw [String.toList_ofList]
      exact hidesTemplates_of_isInfix hhides (List.takeWhile_prefix _).isInfix

theorem hidesTemplates_key (h : Role.ofName name = .bound key)
    (hname : hidesTemplates name.toList = true) : hidesTemplates key.text.toList = true := by
  have hkey : propKey? name = some key := by
    unfold Role.ofName at h
    split at h
    · cases h
    · split at h
      · cases h
      · split at h
        · cases h
        · split at h
          · rename_i hkey
            rw [hkey, Role.bound.inj h]
          · split at h <;> cases h
  obtain ⟨argument, hargument, hkey⟩ := Option.bind_eq_some_iff.1 hkey
  exact hidesTemplates_argumentKey? hkey
    (hidesTemplates_of_isInfix hname (infix_of_bindingArgument? hargument))

theorem hides_of_prop? {p : PropEntry} (h : prop? a = some p)
    (hname : hidesTemplates a.name.toList = true)
    (hvalue : hidesTemplates a.valueOrEmpty.toList = true) : p.Hides := by
  unfold prop? at h
  split at h
  · rename_i key hrole
    obtain rfl := Option.some.inj h
    exact ⟨hidesTemplates_key hrole hname, hidesTemplates_trim hvalue⟩
  · obtain rfl := Option.some.inj h
    exact ⟨hidesTemplates_objectKey hname, hidesTemplates_stringLiteral hvalue⟩
  · cases h

theorem hidesTemplates_spread? {e : String} (h : spread? a = some e)
    (hvalue : hidesTemplates a.valueOrEmpty.toList = true) : hidesTemplates e.toList = true := by
  unfold spread? at h
  split at h
  · obtain rfl := Option.some.inj h
    exact hidesTemplates_trim hvalue
  · cases h

/-- The parts of a repetition are parts of the directive. -/
theorem infix_of_ofDirective? {r : Repetition} (h : Repetition.ofDirective? directive = some r) :
    r.item.toList <:+: directive.toList ∧ r.iterable.toList <:+: directive.toList := by
  obtain ⟨before, after, ⟨⟨blank, word, next, rest, hcs, -⟩, -⟩, -, -, rfl⟩ :=
    Repetition.ofDirective?_eq_some_iff.1 h
  have hbefore : before <:+: directive.toList := ⟨[], blank :: (word ++ after), by rw [hcs]; rfl⟩
  have hafter : after <:+: directive.toList := ⟨before ++ blank :: word, [], by rw [hcs]; simp⟩
  constructor
  · rw [String.toList_ofList]
    exact (trimBy_isInfix _ _).trans hbefore
  · rw [String.toList_ofList]
    exact (trimBy_isInfix _ _).trans hafter

theorem ofDirective?_of_repetition? {r : Repetition} (h : repetition? a = some r) :
    Repetition.ofDirective? a.valueOrEmpty = some r := by
  unfold repetition? at h
  split at h
  · exact h
  · cases h

/-- **What attributes contribute** hides what they do. -/
theorem PropData.hides_collected
    (h : ∀ a ∈ as, hidesTemplates a.name.toList = true ∧
      hidesTemplates a.valueOrEmpty.toList = true) : (collected as).Hides := by
  have hrepetition : ∀ r, (collected as).repetition = some r → ∃ directive : String,
      hidesTemplates directive.toList = true ∧ Repetition.ofDirective? directive = some r := by
    intro r hr
    obtain ⟨a, ha, hr⟩ := List.mem_filterMap.1 (List.mem_of_getLast? hr)
    exact ⟨_, (h a ha).2, ofDirective?_of_repetition? hr⟩
  refine ⟨fun p hp => ?_, fun e he => ?_, fun r hr => ?_, fun r hr => ?_⟩
  · obtain ⟨a, ha, hp⟩ := List.mem_filterMap.1 hp
    exact hides_of_prop? hp (h a ha).1 (h a ha).2
  · obtain ⟨a, ha, he⟩ := List.mem_filterMap.1 (List.mem_of_getLast? he)
    exact hidesTemplates_spread? he (h a ha).2
  · obtain ⟨directive, hhides, hr⟩ := hrepetition r hr
    exact hidesTemplates_of_isInfix hhides (infix_of_ofDirective? hr).1
  · obtain ⟨directive, hhides, hr⟩ := hrepetition r hr
    exact hidesTemplates_of_isInfix hhides (infix_of_ofDirective? hr).2

end

/-! ## Expressions -/

theorem PropEntry.Hides.text {p : PropEntry} (h : p.Hides) :
    hidesTemplates p.text.toList = true := by
  have hvalue : hidesTemplates (": ".toList ++ p.value.text.toList) = true := by
    rw [hidesTemplates_append_of_not_mem (by decide)]
    exact h.value
  rw [PropEntry.text, String.toList_append, String.toList_append, List.append_assoc,
    hidesTemplates_append (by rfl), h.key, hvalue]
  rfl

theorem hidesTemplates_intercalate {texts : List (List Char)}
    (h : ∀ cs ∈ texts, hidesTemplates cs = true) :
    hidesTemplates (", ".toList.intercalate texts) = true := by
  induction texts with
  | nil => rfl
  | cons cs texts ih =>
    rw [List.forall_mem_cons] at h
    cases texts with
    | nil =>
      rw [List.intercalate_singleton]
      exact h.1
    | cons ds texts =>
      have hbehind := ih h.2
      rw [← hidesTemplates_append_of_not_mem (u := ", ".toList) (by decide)] at hbehind
      rw [List.intercalate_cons_cons, List.append_assoc, hidesTemplates_append (by rfl), h.1,
        hbehind]
      rfl

namespace PropData

section
variable {d : PropData}

theorem Hides.objectText (h : d.Hides) : hidesTemplates d.objectText.toList = true := by
  unfold PropData.objectText
  split
  · decide
  · have hprops : ∀ cs ∈ (d.props.map PropEntry.text).map String.toList,
        hidesTemplates cs = true := by
      rw [List.map_map, List.forall_mem_map]
      exact fun p hp => (h.props p hp).text
    rw [String.toList_append, String.toList_append, List.append_assoc, String.toList_intercalate]
    exact hidesTemplates_between (by decide) (by decide) (by decide)
      (hidesTemplates_intercalate hprops)

theorem Hides.roundText (h : d.Hides) : hidesTemplates d.roundText.toList = true := by
  unfold PropData.roundText
  split
  · rename_i e he
    have hobject : hidesTemplates (", ".toList ++ (d.objectText.toList ++ ")".toList)) = true :=
      hidesTemplates_between (by decide) (by decide) (by decide) h.objectText
    have htext := hidesTemplates_between (u := (mergeFunction ++ "(").toList) (by decide) (by rfl)
      hobject (h.spread e he)
    simpa only [String.toList_append, List.append_assoc] using htext
  · exact h.objectText

/-- **The expression of prop data** hides what the data do. -/
theorem Hides.expression (h : d.Hides) : hidesTemplates d.expression.toList = true := by
  unfold PropData.expression
  split
  · decide
  · split
    · have htext := hidesTemplates_between (u := "[".toList) (b := "]".toList) (by decide)
        (by decide) (by decide) h.roundText
      simpa only [String.toList_append, List.append_assoc] using htext
    · rename_i r hr
      have hparameters : hidesTemplates r.parameters.toList = true := by
        unfold Repetition.parameters
        split
        · exact h.item r hr
        · have htext := hidesTemplates_between (u := "(".toList) (b := ")".toList) (by decide)
            (by decide) (by decide) (h.item r hr)
          simpa only [String.toList_append, List.append_assoc] using htext
      have hround := hidesTemplates_between (u := " => (".toList) (b := "))".toList) (by decide)
        (by decide) (by decide) h.roundText
      have hcall := hidesTemplates_between (u := ").map(".toList) (by decide) (by rfl) hround
        hparameters
      have htext := hidesTemplates_between (u := (roundsFunction ++ "(").toList) (by decide) (by rfl)
        hcall (h.iterable r hr)
      simpa only [String.toList_append, List.append_assoc] using htext

end

end PropData

/-! ## Addresses -/

theorem angle_not_mem_letters (n count : Nat) : '<' ∉ Address.letters n count := by
  induction count generalizing n with
  | zero => exact List.not_mem_nil
  | succ count ih =>
    have hletter : '<' ≠ Address.alphabet.getD (n % 32) 'a' := by
      rw [List.getD_eq_getElem?_getD]
      cases hc : Address.alphabet[n % 32]? with
      | none => decide
      | some c =>
        have halphabet : '<' ∉ Address.alphabet := by decide
        exact (ne_of_mem_of_not_mem (List.mem_of_getElem? hc) halphabet).symm
    rw [Address.letters, List.mem_cons, not_or]
    exact ⟨hletter, ih (n / 32)⟩

theorem angle_not_mem_address (id : String) (openTag : Span) : '<' ∉ (address id openTag).toList := by
  rw [address, String.toList_ofList]
  exact angle_not_mem_letters _ _

end Islands
