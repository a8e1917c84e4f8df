import Islands.Proofs.ComponentFile.Rereading

/-!
# Blocks are well placed

Whatever a file holds, the blocks that are found in it are where they seem to be: a block starts
with the name of its tag and ends behind an angle bracket, all its offsets are between characters,
and no two blocks share a character (`wellPlaced_ofSource`).

* `OpensBlock.form`, `ClosesTemplate.form`: how the tags of blocks begin and end.
* `wellPlaced_of_template`, `wellPlaced_of_script`: a block, by the regions in front of it.
* `pairwise_scripts`: the script blocks, one behind the other.
-/

namespace Islands.ComponentFile

/-! ## Tags -/

/-- The text begins with the word, in any case. -/
def StartsWith (word cs : List Char) : Prop :=
  ∃ found rest, cs = found ++ rest ∧ sameLetters found word = true

theorem StartsWith.append {word cs : List Char} (h : StartsWith word cs) (rest : List Char) :
    StartsWith word (cs ++ rest) := by
  obtain ⟨found, tail, rfl, hfound⟩ := h
  exact ⟨found, tail ++ rest, List.append_assoc found tail rest, hfound⟩

theorem StartsWith.cons {word cs : List Char} (h : StartsWith word cs) (c : Char) :
    StartsWith (c :: word) (c :: cs) := by
  obtain ⟨found, tail, rfl, hfound⟩ := h
  refine ⟨c :: found, tail, rfl, ?_⟩
  rw [sameLetters, List.map_cons, List.map_cons, List.cons_beq_cons, beq_self_eq_true,
    Bool.true_and]
  exact hfound

theorem startsWith_of_startsName {name : BlockName} {cs : List Char}
    (h : startsName name cs = true) : StartsWith name.letters cs := by
  unfold startsName at h
  split at h
  · rename_i hdrop
    obtain ⟨found, hcs, hfound⟩ := exists_of_dropLetters? hdrop
    exact ⟨found, _, hcs, hfound⟩
  · cases h

theorem OpensBlock.form {name : BlockName} {tag : List Char} (h : OpensBlock name tag) :
    StartsWith ('<' :: name.letters) tag ∧ tag.getLast? = some '>' := by
  obtain ⟨body, rfl, h⟩ := h
  obtain ⟨-, hname, hread⟩ := h []
  rw [List.append_nil] at hname hread
  have hstarts : startsName name body = true := List.find?_some (p := (startsName · body)) hname
  obtain ⟨t, rfl, -⟩ := readTag_append hread
  refine ⟨(startsWith_of_startsName hstarts).cons '<', ?_⟩
  rw [← List.cons_append, List.getLast?_concat]

theorem startsWith_of_closesTemplate {cs : List Char} (h : closesTemplate cs = true) :
    StartsWith ('/' :: BlockName.template.letters) cs := by
  unfold closesTemplate at h
  split at h
  · exact (startsWith_of_startsName h).cons '/'
  · cases h

theorem ClosesTemplate.form {close : List Char} (h : ClosesTemplate close) :
    StartsWith ('<' :: '/' :: BlockName.template.letters) close ∧ close.getLast? = some '>' := by
  obtain ⟨body, rfl, h⟩ := h
  have hpiece := h []
  rw [List.append_nil] at hpiece
  obtain ⟨-, hcloses, body', hbody, hangle⟩ := readPieceAfterAngle_eq_closed hpiece
  obtain rfl := (List.cons.inj hbody).2
  obtain ⟨b, hb, -⟩ := readThroughAngle_append hangle
  refine ⟨(startsWith_of_closesTemplate hcloses).cons '<', ?_⟩
  rw [hb, ← List.cons_append, List.getLast?_concat]

/-! ## Blocks -/

/-- The text at an offset begins with the word, in any case. -/
def StartsAt (n : Nat) (word cs : List Char) : Prop := StartsWith word (dropBytes n cs)

/-- The character in front of an offset is `>`. -/
def IsBehindAngle (n : Nat) (cs : List Char) : Prop := (takeBytes n cs).getLast? = some '>'

/-- A template block is where it seems to be. -/
structure TemplateBlock.WellPlaced (cs : List Char) (t : TemplateBlock) : Prop where
  openTag : t.span.start < t.content.start
  content : t.content.start ≤ t.content.stop
  closeTag : t.content.stop < t.span.stop
  within : t.span.stop ≤ byteLength cs
  opens : StartsAt t.span.start "<template".toList cs
  closes : StartsAt t.content.stop "</template".toList cs
  behind : IsBehindAngle t.span.stop cs
  boundaries : t.span.OnBoundaries cs ∧ t.content.OnBoundaries cs

/-- The opening tag of a script block is where it seems to be. -/
structure ScriptBlock.WellPlaced (cs : List Char) (s : ScriptBlock) : Prop where
  openTag : s.openTag.start < s.openTag.stop
  within : s.openTag.stop ≤ byteLength cs
  opens : StartsAt s.openTag.start "<script".toList cs
  behind : IsBehindAngle s.openTag.stop cs
  boundaries : s.openTag.OnBoundaries cs

/-- The blocks of a file are where they seem to be, and none is inside another. -/
structure Blocks.WellPlaced (cs : List Char) (b : Blocks) : Prop where
  template : ∀ t, b.template = some t → t.WellPlaced cs
  scripts : ∀ s ∈ b.scripts, s.WellPlaced cs
  ascending : b.scripts.Pairwise fun s s' =>
    s.openTag.start < s'.openTag.start ∧ s.openTag.stop ≤ s'.openTag.start
  apart : ∀ t, b.template = some t → ∀ s ∈ b.scripts,
    s.openTag.stop ≤ t.span.start ∨ t.span.stop ≤ s.openTag.start

section
variable {cs : List Char}

theorem startsAt_append {word x : List Char} (h : StartsWith word x) (a : List Char) :
    StartsAt (byteLength a) word (a ++ x) := by
  rw [StartsAt, dropBytes_append]
  exact h

theorem isBehindAngle_append {x : List Char} (h : x.getLast? = some '>') (a y : List Char) :
    IsBehindAngle (byteLength a + byteLength x) (a ++ (x ++ y)) := by
  rw [IsBehindAngle, ← byteLength_append, ← List.append_assoc, takeBytes_append,
    List.getLast?_append, h, Option.some_or]

theorem StartsWith.ne_nil {c : Char} {word x : List Char} (h : StartsWith (c :: word) x) :
    x ≠ [] := by
  rintro rfl
  obtain ⟨found, rest, hnil, hfound⟩ := h
  obtain ⟨rfl, -⟩ := List.nil_eq_append_iff.1 hnil
  cases hfound

theorem wellPlaced_of_template {t : TemplateBlock} (h : (Blocks.ofSource cs).template = some t) :
    t.WellPlaced cs := by
  obtain ⟨rs, tag, content, close, rest, htag, hclose, hreads, ht⟩ :=
    Reads.exists_of_templateBlock h
  obtain rfl := Option.some.inj ht
  obtain rfl := hreads.text
  generalize regionsText rs = a
  obtain ⟨hopens, -⟩ := htag.form
  obtain ⟨hcloses, hangle⟩ := hclose.form
  have hopen := byteLength_pos hopens.ne_nil
  have hclosing := byteLength_pos hcloses.ne_nil
  -- the closing tag stands behind `front`
  obtain ⟨front, hfront, hcs⟩ : ∃ front, byteLength a + byteLength tag + byteLength content =
      byteLength front ∧ a ++ (tag ++ (content ++ (close ++ rest))) = front ++ (close ++ rest) :=
    ⟨a ++ (tag ++ content), by simp [Nat.add_assoc], by simp⟩
  constructor
  case openTag => exact Nat.lt_add_of_pos_right hopen
  case content => exact Nat.le_add_right _ _
  case closeTag => exact Nat.lt_add_of_pos_right hclosing
  case within =>
    simp only [byteLength_append]
    omega
  case opens => exact startsAt_append (hopens.append _) a
  case closes =>
    simp only [hfront, hcs]
    exact startsAt_append (hcloses.append rest) front
  case behind =>
    simp only [hfront, hcs]
    exact isBehindAngle_append hangle front rest
  case boundaries =>
    have hinside := Span.onBoundaries_append (a ++ tag) content (close ++ rest)
    rw [byteLength_append, List.append_assoc] at hinside
    refine ⟨⟨isBoundary_byteLength a _, ?_⟩, hinside⟩
    simp only [hfront, hcs]
    exact (Span.onBoundaries_append front close rest).2

theorem wellPlaced_of_script {s : ScriptBlock} (h : s ∈ (Blocks.ofSource cs).scripts) :
    s.WellPlaced cs := by
  obtain ⟨rs, r, ts, tag, rest, -, -, htag, hreads, hopen⟩ := Reads.exists_of_script h
  obtain rfl := hreads.text
  obtain ⟨hopens, hangle⟩ := htag.form
  have hpos := byteLength_pos hopens.ne_nil
  constructor
  all_goals rw [hopen]
  case openTag => simp only; omega
  case within =>
    simp only [byteLength_append]
    omega
  case opens => exact startsAt_append (hopens.append rest) _
  case behind => exact isBehindAngle_append hangle _ rest
  case boundaries => exact Span.onBoundaries_append _ tag rest

/-- **The script blocks** stand one behind the other. -/
theorem pairwise_scripts (rs : List Region) (offset : Nat) :
    (Blocks.ofRegions offset rs).scripts.Pairwise fun s s' => s.openTag.stop ≤ s'.openTag.start := by
  induction rs generalizing offset with
  | nil => exact .nil
  | cons r rs ih =>
    rw [Blocks.ofRegions]
    refine List.pairwise_append.2 ⟨?_, ih _, fun s hs s' hs' => ?_⟩
    · cases r.scriptAt offset with
      | none => exact .nil
      | some s => exact List.pairwise_singleton _ s
    · obtain ⟨tag, htag, rfl⟩ := Option.map_eq_some_iff.1 (Option.mem_toList.1 hs)
      obtain ⟨rest, hrest⟩ := exists_of_scriptTag? htag
      obtain ⟨as, r', bs, tag', -, -, rfl⟩ := mem_scripts_iff.1 hs'
      simp only [hrest, byteLength_append]
      omega

/-- **Blocks are well placed** in every file. -/
theorem wellPlaced_ofSource (cs : List Char) : (Blocks.ofSource cs).WellPlaced cs where
  template _ := wellPlaced_of_template
  scripts _ := wellPlaced_of_script
  ascending := (pairwise_scripts (regions cs) 0).imp_of_mem fun hs _ hle =>
    ⟨Nat.lt_of_lt_of_le (wellPlaced_of_script hs).openTag hle, hle⟩
  apart _ ht _ := scripts_apart ht

end

end Islands.ComponentFile
