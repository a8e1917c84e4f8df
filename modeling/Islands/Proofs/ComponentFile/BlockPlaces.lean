import Islands.ComponentFile.Blocks
import Islands.Proofs.Text.Offsets

/-!
# Where the blocks of a file are

The regions of a file stand one behind the other (`regions_append`), and a block is where its region
is. So the content of the template block is a part of the file (`template_place`), and every script
block is in front of the template block or behind it (`scripts_apart`).
-/

namespace Islands.ComponentFile

/-- The characters of some regions. -/
def regionsText (rs : List Region) : List Char := rs.flatMap Region.text

@[simp] theorem regionsText_cons (r : Region) (rs : List Region) :
    regionsText (r :: rs) = r.text ++ regionsText rs := rfl

theorem regionsText_append (rs ts : List Region) :
    regionsText (rs ++ ts) = regionsText rs ++ regionsText ts := List.flatMap_append

theorem regions_append (cs : List Char) : ∃ rest, cs = regionsText (regions cs) ++ rest := by
  fun_induction regions cs with
  | case1 cs => exact ⟨cs, rfl⟩
  | case2 cs r tail h _ ih =>
    obtain ⟨rest, hrest⟩ := ih
    refine ⟨rest, ?_⟩
    rw [regionsText_cons, List.append_assoc, ← hrest]
    exact (eq_of_readRegion h).1

/-! ## Script blocks -/

theorem exists_of_scriptTag? {r : Region} {tag : List Char} (h : r.scriptTag? = some tag) :
    ∃ rest, r.text = tag ++ rest := by
  unfold Region.scriptTag? at h
  split at h
  · obtain rfl := Option.some.inj h
    exact ⟨[], (List.append_nil _).symm⟩
  · rename_i body
    obtain rfl := Option.some.inj h
    exact ⟨body, rfl⟩
  · cases h

/-- **The script blocks** are the regions that have a script tag, each at its place. -/
theorem mem_scripts_iff {rs : List Region} {offset : Nat} {s : ScriptBlock} :
    s ∈ (Blocks.ofRegions offset rs).scripts ↔ ∃ as r bs tag, rs = as ++ r :: bs ∧
      r.scriptTag? = some tag ∧ s = ⟨⟨offset + byteLength (regionsText as),
        offset + byteLength (regionsText as) + byteLength tag⟩,
        hasBareWord "setup".toList tag⟩ := by
  induction rs generalizing offset with
  | nil =>
    constructor
    · intro h
      cases h
    · rintro ⟨as, r, bs, tag, h, -⟩
      exact absurd h.symm (List.append_ne_nil_of_right_ne_nil as (List.cons_ne_nil r bs))
  | cons r rs ih =>
    rw [Blocks.ofRegions, List.mem_append, Option.mem_toList]
    constructor
    · rintro (h | h)
      · obtain ⟨tag, htag, rfl⟩ := Option.map_eq_some_iff.1 h
        exact ⟨[], r, rs, tag, rfl, htag, rfl⟩
      · obtain ⟨as, r', bs, tag, rfl, htag, rfl⟩ := ih.1 h
        refine ⟨r :: as, r', bs, tag, rfl, htag, ?_⟩
        rw [regionsText_cons, byteLength_append, Nat.add_assoc]
    · rintro ⟨as, r', bs, tag, hsplit, htag, rfl⟩
      cases as with
      | nil =>
        obtain ⟨rfl, rfl⟩ := List.cons.inj hsplit
        left
        rw [Region.scriptAt, htag]
        rfl
      | cons r'' as =>
        obtain ⟨rfl, rfl⟩ := List.cons.inj hsplit
        right
        refine ih.2 ⟨as, r', bs, tag, rfl, htag, ?_⟩
        rw [regionsText_cons, byteLength_append, ← Nat.add_assoc]

theorem exists_of_mem_scripts {rs : List Region} {offset : Nat} {s : ScriptBlock}
    (h : s ∈ (Blocks.ofRegions offset rs).scripts) :
    ∃ a tag b, regionsText rs = a ++ (tag ++ b) ∧ s.openTag.start = offset + byteLength a ∧
      s.openTag.stop = s.openTag.start + byteLength tag := by
  obtain ⟨as, r, bs, tag, rfl, htag, rfl⟩ := mem_scripts_iff.1 h
  obtain ⟨rest, hrest⟩ := exists_of_scriptTag? htag
  refine ⟨regionsText as, tag, rest ++ regionsText bs, ?_, rfl, rfl⟩
  rw [regionsText_append, regionsText_cons, hrest, List.append_assoc]

/-! ## The template block -/

/-- **The template block** is the first region that is one, at its place. -/
theorem exists_templateAt {rs : List Region} {offset : Nat} {t : TemplateBlock}
    (h : (Blocks.ofRegions offset rs).template = some t) :
    ∃ as tag content close bs, rs = as ++ .template tag content close :: bs ∧
      (Region.template tag content close).templateAt (offset + byteLength (regionsText as)) =
        some t := by
  induction rs generalizing offset with
  | nil => cases h
  | cons r rs ih =>
    rw [Blocks.ofRegions] at h
    simp only at h
    cases hr : r.templateAt offset with
    | some t' =>
      rw [hr] at h
      obtain rfl : t' = t := Option.some.inj h
      cases r with
      | template tag content close => exact ⟨[], tag, content, close, rs, rfl, hr⟩
      | plain | comment | selfClosed | embedded => cases hr
    | none =>
      rw [hr, Option.none_or] at h
      obtain ⟨as, tag, content, close, bs, rfl, ht⟩ := ih h
      refine ⟨r :: as, tag, content, close, bs, rfl, ?_⟩
      rw [regionsText_cons, byteLength_append, ← Nat.add_assoc]
      exact ht

theorem exists_region_of_template {rs : List Region} {offset : Nat} {t : TemplateBlock}
    (h : (Blocks.ofRegions offset rs).template = some t) :
    ∃ as tag content close bs, rs = as ++ .template tag content close :: bs ∧
      t.content = ⟨offset + byteLength (regionsText as ++ tag),
        offset + byteLength (regionsText as ++ tag) + byteLength content⟩ := by
  obtain ⟨as, tag, content, close, bs, hsplit, ht⟩ := exists_templateAt h
  obtain rfl := Option.some.inj ht
  refine ⟨as, tag, content, close, bs, hsplit, ?_⟩
  rw [byteLength_append, ← Nat.add_assoc]

theorem exists_append_of_append_cons {α : Type} {as bs cs ds : List α} {a c : α}
    (h : as ++ a :: bs = cs ++ c :: ds) (hne : a ≠ c) :
    (∃ ms, cs = as ++ a :: ms) ∨ ∃ ms, as = cs ++ c :: ms := by
  rcases List.append_eq_append_iff.1 h with ⟨ms, rfl, hms⟩ | ⟨ms, rfl, hms⟩
  · cases ms with
    | nil => exact absurd (List.cons.inj hms).1 hne
    | cons m ms =>
      obtain ⟨rfl, -⟩ := List.cons.inj hms
      exact .inl ⟨ms, rfl⟩
  · cases ms with
    | nil => exact absurd (List.cons.inj hms).1.symm hne
    | cons m ms =>
      obtain ⟨rfl, -⟩ := List.cons.inj hms
      exact .inr ⟨ms, rfl⟩

/-- Every script block has its opening tag in front of the template block or behind it. -/
theorem scripts_apart {rs : List Region} {offset : Nat} {t : TemplateBlock}
    (h : (Blocks.ofRegions offset rs).template = some t) {s : ScriptBlock}
    (hs : s ∈ (Blocks.ofRegions offset rs).scripts) :
    s.openTag.stop ≤ t.span.start ∨ t.span.stop ≤ s.openTag.start := by
  obtain ⟨as, tag, content, close, bs, rfl, ht⟩ := exists_templateAt h
  obtain rfl := Option.some.inj ht
  obtain ⟨cs, r, ds, script, hsplit, hscript, rfl⟩ := mem_scripts_iff.1 hs
  have hne : Region.template tag content close ≠ r := by
    rintro rfl
    cases hscript
  obtain ⟨rest, hrest⟩ := exists_of_scriptTag? hscript
  rcases exists_append_of_append_cons hsplit hne with ⟨ms, rfl⟩ | ⟨ms, rfl⟩
  · right
    simp only [regionsText_append, regionsText_cons, Region.text, byteLength_append]
    omega
  · left
    simp only [regionsText_append, regionsText_cons, hrest, byteLength_append]
    omega

/-- The place of the template block among regions, and of the script blocks around it. -/
theorem exists_of_template {rs : List Region} {offset : Nat} {t : TemplateBlock}
    (h : (Blocks.ofRegions offset rs).template = some t) :
    (∃ a content b, regionsText rs = a ++ (content ++ b) ∧
      t.content = ⟨offset + byteLength a, offset + byteLength a + byteLength content⟩) ∧
    ∀ s ∈ (Blocks.ofRegions offset rs).scripts,
      s.openTag.stop ≤ t.content.start ∨ t.content.stop ≤ s.openTag.start := by
  obtain ⟨as, tag, content, close, bs, hsplit, ht⟩ := exists_templateAt h
  have hapart := fun s hs => scripts_apart h (s := s) hs
  obtain rfl := Option.some.inj ht
  refine ⟨⟨regionsText as ++ tag, content, close ++ regionsText bs, ?_, ?_⟩, fun s hs => ?_⟩
  · simp [hsplit, regionsText_append, Region.text]
  · rw [byteLength_append, ← Nat.add_assoc]
  · refine (hapart s hs).imp (fun hle => ?_) fun hle => ?_
    · exact Nat.le_trans hle (Nat.le_add_right _ _)
    · exact Nat.le_trans (Nat.le_add_right _ _) hle

/-- **The content of the template block** is a part of the file. -/
theorem template_place {cs : List Char} {t : TemplateBlock}
    (h : (Blocks.ofSource cs).template = some t) :
    ∃ pre post, cs = pre ++ (t.content.cut cs ++ post) ∧ t.content.start = byteLength pre ∧
      t.content.stop = byteLength pre + byteLength (t.content.cut cs) := by
  obtain ⟨rest, hrest⟩ := regions_append cs
  obtain ⟨⟨a, content, b, htext, hcontent⟩, -⟩ := exists_of_template h
  rw [Nat.zero_add] at hcontent
  have hcs : cs = a ++ (content ++ (b ++ rest)) := by
    rw [htext] at hrest
    rw [hrest]
    simp
  have hcut : t.content.cut cs = content := by
    rw [hcontent, hcs]
    exact Span.cut_append a content _
  refine ⟨a, b ++ rest, by rw [hcut]; exact hcs, ?_, ?_⟩
  · rw [hcontent]
  · rw [hcut, hcontent]

theorem mem_scripts_of_importScript? {b : Blocks} {s : ScriptBlock} (h : b.importScript? = some s) :
    s ∈ b.scripts := by
  rcases Option.or_eq_some_iff.1 h with h | ⟨-, h⟩
  · exact List.mem_of_find?_eq_some h
  · exact List.mem_of_head? h

/-- **The script block for imports** has its opening tag in front of the content of the template
block or behind it. -/
theorem importScript?_place {cs : List Char} {t : TemplateBlock} {s : ScriptBlock}
    (ht : (Blocks.ofSource cs).template = some t)
    (hs : (Blocks.ofSource cs).importScript? = some s) :
    isBoundary s.openTag.stop cs = true ∧
      (s.openTag.stop ≤ t.content.start ∨ t.content.stop ≤ s.openTag.stop) := by
  have hmem := mem_scripts_of_importScript? hs
  obtain ⟨rest, hrest⟩ := regions_append cs
  obtain ⟨a, tag, b, htext, hstart, hstop⟩ := exists_of_mem_scripts hmem
  refine ⟨isBoundary_iff.2 ⟨a ++ tag, b ++ rest, ?_, ?_⟩, ?_⟩
  · rw [htext] at hrest
    rw [hrest]
    simp
  · rw [hstop, hstart, byteLength_append, Nat.zero_add]
  · rcases (exists_of_template ht).2 s hmem with h | h
    · exact .inl h
    · exact .inr (by omega)

end Islands.ComponentFile
