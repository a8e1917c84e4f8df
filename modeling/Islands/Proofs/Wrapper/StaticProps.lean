import Islands.Proofs.Script.Data
import Islands.Wrapper.PropData

/-!
# Props that are given as text

Attributes that are no directives and are not bound give their values as text, and the expression of
their prop data is data: it can be read without being run. `readData_expression` says what is read,
the names and the values in their order. A name that counts as an identifier is written as a key
without quotes, and some of these are no names in an expression: then nothing is read at all
(`not_readData_expression`).
-/

namespace Islands

open Markup (Attribute)
open Script

/-! ## The data -/

/-- Whether an attribute of this name gives its value as text. -/
def isPlainProp (name : String) : Bool :=
  !isItemKey name && name != "v-for" && name != "v-bind" && (propKey? name).isNone &&
    !isInstruction name

theorem role_of_isPlainProp {name : String} (h : isPlainProp name = true) :
    Role.ofName name = .static := by
  simp only [isPlainProp, Bool.and_eq_true, Bool.not_eq_true', bne_iff_ne,
    Option.isNone_iff_eq_none] at h
  obtain ⟨⟨⟨⟨hkey, hfor⟩, hbind⟩, hbound⟩, hinstruction⟩ := h
  simp [Role.ofName, hkey, hfor, hbind, hbound, hinstruction]

/-- The prop of an attribute that gives its value as text. -/
def staticEntry (a : Attribute) : PropEntry := ⟨.named a.name, .literal a.valueOrEmpty⟩

section
variable {as : List Attribute}

theorem foldlM_add_static (d : PropData) (h : ∀ a ∈ as, isPlainProp a.name = true) :
    as.foldlM PropData.add d = .ok { d with props := d.props ++ as.map staticEntry } := by
  induction as generalizing d with
  | nil =>
    rw [List.map_nil, List.append_nil]
    rfl
  | cons a as ih =>
    obtain ⟨ha, has⟩ := List.forall_mem_cons.1 h
    have hadd : d.add a = .ok { d with props := d.props ++ [staticEntry a] } := by
      rw [PropData.add, role_of_isPlainProp ha]
      rfl
    rw [List.foldlM_cons, hadd]
    show as.foldlM PropData.add _ = _
    rw [ih _ has, List.append_assoc]
    rfl

/-- **The prop data of such attributes** are their names and values. -/
theorem ofAttributes_of_plain (h : ∀ a ∈ as, isPlainProp a.name = true) :
    PropData.ofAttributes as = .ok { props := as.map staticEntry } :=
  foldlM_add_static {} h

end

/-! ## Members -/

/-- Whether a key is read as itself: an identifier has to be a name, and any other key is quoted. -/
def isLegibleKey (key : String) : Bool := !isIdentifier key || isName key.toList

/-- A member of a generated object. -/
def memberText (a : Attribute) : List Char :=
  (objectKey a.name).toList ++ (": ".toList ++ (stringLiteral a.valueOrEmpty).toList)

/-- The token of a key. -/
def keyToken (key : String) : Token := if isIdentifier key then .name key else .text key

/-- The tokens of a member. -/
def memberTokens (a : Attribute) : List Token :=
  [keyToken a.name, .mark ':', .text a.valueOrEmpty]

theorem key?_keyToken (key : String) : (keyToken key).key? = some key := by
  unfold keyToken
  split <;> rfl

theorem isLegibleKey_iff {key : String} :
    isLegibleKey key = true ↔ (isIdentifier key = true → isName key.toList = true) := by
  simp only [isLegibleKey, Bool.or_eq_true, Bool.not_eq_true']
  cases isIdentifier key <;> simp

theorem toList_staticEntry (a : Attribute) : (staticEntry a).text.toList = memberText a := by
  simp [staticEntry, PropEntry.text, EntryKey.text, EntryValue.text, memberText]

section
variable {a : Attribute}

theorem readsAs_value (s : String) :
    ReadsAs (": ".toList ++ (stringLiteral s).toList) [.mark ':', .text s] :=
  ((readsAs_mark (by decide)).append (readsAs_space (by decide))).append (readsAs_stringLiteral s)

/-- **A member** is read as its key and its value. -/
theorem readsAs_member (h : isLegibleKey a.name = true) :
    ReadsAs (memberText a) (memberTokens a) := by
  unfold memberText memberTokens keyToken objectKey
  split
  · rename_i hid
    have hname : isName a.name.toList = true := by simpa [isLegibleKey, hid] using h
    have hcolon : isNamePart ':' = false := by decide +kernel
    intro rest
    rw [List.append_assoc]
    show tokens (a.name.toList ++ ':' :: (' ' :: _)) = _
    rw [tokens_identifier hid hname hcolon]
    show (tokens ((": ".toList ++ (stringLiteral a.valueOrEmpty).toList) ++ rest)).map _ = _
    rw [readsAs_value, Option.map_map]
    rfl
  · exact (readsAs_stringLiteral a.name).append (readsAs_value a.valueOrEmpty)

theorem unreadable_member (h : isLegibleKey a.name = false) : Unreadable (memberText a) := by
  simp only [isLegibleKey, Bool.or_eq_false_iff, Bool.not_eq_false'] at h
  rw [memberText, objectKey, if_pos h.1]
  exact (unreadable_identifier h.1 h.2).append _

end

/-! ## Objects -/

/-- The members of a generated object, side by side. -/
def membersText (as : List Attribute) : List Char := ", ".toList.intercalate (as.map memberText)

/-- The tokens of the members. -/
def membersTokens (as : List Attribute) : List Token :=
  [Token.mark ','].intercalate (as.map memberTokens)

section
variable {as : List Attribute}

theorem membersText_cons_cons (a b : Attribute) (as : List Attribute) :
    membersText (a :: b :: as) = memberText a ++ (", ".toList ++ membersText (b :: as)) := by
  simp [membersText, List.intercalate_cons_cons]

theorem membersTokens_cons_cons (a b : Attribute) (as : List Attribute) :
    membersTokens (a :: b :: as) = memberTokens a ++ ([.mark ','] ++ membersTokens (b :: as)) := by
  simp [membersTokens, List.intercalate_cons_cons]

theorem readsAs_comma : ReadsAs ", ".toList [.mark ','] :=
  (readsAs_mark (by decide)).append (readsAs_space (by decide))

theorem readsAs_members (h : ∀ a ∈ as, isLegibleKey a.name = true) :
    ReadsAs (membersText as) (membersTokens as) := by
  induction as with
  | nil => exact readsAs_nil
  | cons a as ih =>
    obtain ⟨ha, has⟩ := List.forall_mem_cons.1 h
    cases as with
    | nil => simpa [membersText, membersTokens] using readsAs_member ha
    | cons b as =>
      rw [membersText_cons_cons, membersTokens_cons_cons]
      exact (readsAs_member ha).append (readsAs_comma.append (ih has))

/-- One key that is not read makes the members unreadable. -/
theorem unreadable_members {a : Attribute} (ha : a ∈ as) (h : isLegibleKey a.name = false) :
    Unreadable (membersText as) := by
  induction as with
  | nil => cases ha
  | cons b as ih =>
    cases as with
    | nil =>
      obtain rfl := List.mem_singleton.1 ha
      simpa [membersText] using unreadable_member h
    | cons c as =>
      rw [membersText_cons_cons]
      cases hb : isLegibleKey b.name with
      | false => exact (unreadable_member hb).append _
      | true =>
        rcases List.mem_cons.1 ha with rfl | ha
        · rw [h] at hb
          cases hb
        · exact ((ih ha).behind readsAs_comma).behind (readsAs_member hb)

theorem readMembers_membersTokens (hne : as ≠ []) (rest : List Token) :
    readMembers (membersTokens as ++ .mark '\x7d' :: rest) =
      some (as.map fun a => (a.name, a.valueOrEmpty), rest) := by
  induction as with
  | nil => exact absurd rfl hne
  | cons a as ih =>
    cases as with
    | nil => exact readMembers_last (key?_keyToken a.name) _ _
    | cons b as =>
      have hbehind := ih (List.cons_ne_nil _ _)
      rw [membersTokens_cons_cons, List.append_assoc, List.append_assoc]
      refine (readMembers_comma (key?_keyToken a.name) _ _).trans ?_
      show (readMembers (membersTokens (b :: as) ++ _)).map _ = _
      rw [hbehind]
      rfl

theorem expression_eq (hne : as ≠ []) :
    (PropData.expression { props := as.map staticEntry }).toList =
      "[\x7b ".toList ++ (membersText as ++ " \x7d]".toList) := by
  have hempty : (as.map staticEntry).isEmpty = false := by simpa using hne
  have hmembers : as.map (String.toList ∘ PropEntry.text ∘ staticEntry) = as.map memberText :=
    List.map_congr_left fun a _ => toList_staticEntry a
  simp [PropData.expression, PropData.roundText, PropData.objectText, hempty, membersText,
    String.toList_intercalate, hmembers]

theorem readsAs_opening : ReadsAs "[\x7b ".toList [.mark '[', .mark '\x7b'] :=
  ((readsAs_mark (by decide)).append (readsAs_mark (by decide))).append (readsAs_space (by decide))

theorem readsAs_closing : ReadsAs " \x7d]".toList [.mark '\x7d', .mark ']'] :=
  ((readsAs_space (by decide)).append (readsAs_mark (by decide))).append (readsAs_mark (by decide))

theorem readData_object (hne : as ≠ []) (h : ∀ a ∈ as, isLegibleKey a.name = true) :
    readData ("[\x7b ".toList ++ (membersText as ++ " \x7d]".toList)) =
      some (.object (as.map fun a => (a.name, a.valueOrEmpty))) := by
  have htokens := (readsAs_opening.append ((readsAs_members h).append readsAs_closing)).tokens_eq
  rw [readData, htokens]
  show (readMembers (membersTokens as ++ .mark '\x7d' :: [.mark ']'])).bind Data.ofObject? = _
  rw [readMembers_membersTokens hne, Option.bind_some, Data.ofObject?, if_pos rfl]

theorem readData_eq_none {a : Attribute} (ha : a ∈ as) (h : isLegibleKey a.name = false) :
    readData ("[\x7b ".toList ++ (membersText as ++ " \x7d]".toList)) = none := by
  rw [readData, (((unreadable_members ha h).append _).behind readsAs_opening).tokens_eq]

end

/-! ## Expressions -/

/-- The data that attributes give. -/
def dataOf : List Attribute → Data
  | [] => .undefined
  | a :: as => .object ((a :: as).map fun a => (a.name, a.valueOrEmpty))

/-- **Props that are given as text** make an expression that is data: the names and the values in
their order, and `undefined` if there are none. This is so if each name that counts as an identifier
is a name in expressions; otherwise the expression is not read at all. -/
theorem readData_expression {as : List Attribute} (h : ∀ a ∈ as, isPlainProp a.name = true) :
    ∃ data, PropData.ofAttributes as = .ok data ∧
      readData data.expression.toList =
        if ∀ a ∈ as, isIdentifier a.name = true → isName a.name.toList = true then
          some (dataOf as)
        else none := by
  refine ⟨_, ofAttributes_of_plain h, ?_⟩
  cases as with
  | nil => decide +kernel
  | cons a as =>
    have hne : a :: as ≠ [] := List.cons_ne_nil _ _
    rw [expression_eq hne]
    split
    · rename_i hlegible
      exact readData_object hne fun b hb => isLegibleKey_iff.2 (hlegible b hb)
    · rename_i hillegible
      simp only [← isLegibleKey_iff, Classical.not_forall, Bool.not_eq_true] at hillegible
      obtain ⟨b, hb, hkey⟩ := hillegible
      exact readData_eq_none hb hkey

/-- Props with a name that is quoted, a value that is escaped and one that is missing. -/
theorem readData_expression_quoted :
    (∀ a ∈ [Attribute.mk "data-id" (some "a\"\\\n") ⟨0, 1⟩, ⟨"größe", none, ⟨1, 2⟩⟩],
      isPlainProp a.name = true) ∧
    ∃ data, PropData.ofAttributes
        [⟨"data-id", some "a\"\\\n", ⟨0, 1⟩⟩, ⟨"größe", none, ⟨1, 2⟩⟩] = .ok data ∧
      readData data.expression.toList =
        some (.object [("data-id", "a\"\\\n"), ("größe", "")]) := by
  have hplain : ∀ a ∈ [Attribute.mk "data-id" (some "a\"\\\n") ⟨0, 1⟩, ⟨"größe", none, ⟨1, 2⟩⟩],
      isPlainProp a.name = true := by decide
  obtain ⟨data, hdata, hread⟩ := readData_expression hplain
  refine ⟨hplain, data, hdata, hread.trans ?_⟩
  rw [if_pos (by decide +kernel)]
  rfl

/-- A superscript digit is a number, but stands in no name: a key with one has to be quoted, and is
not. -/
theorem not_readData_expression :
    isPlainProp "a²" = true ∧
    ∃ data, PropData.ofAttributes [⟨"a²", some "x", ⟨0, 1⟩⟩] = .ok data ∧
      data.expression = "[\x7b a²: \"x\" \x7d]" ∧ readData data.expression.toList = none ∧
      readData "[\x7b \"a²\": \"x\" \x7d]".toList = some (.object [("a²", "x")]) := by
  have hplain : isPlainProp "a²" = true := by decide
  refine ⟨hplain, _, ofAttributes_of_plain (List.forall_mem_singleton.2 hplain), ?_, ?_, ?_⟩ <;>
    decide +kernel

end Islands
