import Islands.Proofs.Wrapper.LegibleWrappers
import Islands.Proofs.Wrapper.Rewriting

/-!
# The template with its targets replaced

A legible template stays the content of its block when its targets are replaced, if no target says
otherwise where it stands in the source (`Site.staysLegible`). Around each target the template is as
it was, and what takes the place of the target can stand there (`Site.Fits`).

* `fits_part`, `fits_parts`: by induction on the parts of the template, as targets are found in them.
* `isContent_patched`: the template with its targets replaced.
-/

namespace Islands

open Markup ComponentFile

/-! ## Parts -/

/-- A text that stands in the template at an offset, spliced with the patches of some targets, can
stand in its own place in the block. -/
def Site.Fits (site : Site) (offset : Nat) (w : List Char) (targets : List Element) : Prop :=
  ∃ out, Spliced (site.base + offset) w (site.patches targets) out ∧ StandsFor w out

section
variable {site : Site} {offset : Nat} {w : List Char}

theorem fits_nil (h : StandsFor w w) : site.Fits offset w [] := ⟨w, .rest _ w, h⟩

/-- **One target** that is replaced, or stays. -/
theorem fits_target {e : Element} {pre post : List Char} {q : Part}
    (hpart : e.IsPart site.template pre q post) (hlegible : Part.legible true q = true)
    (hwraps : site.wrapsLegibly e = true) :
    site.Fits (byteLength pre) q.written [e] := by
  unfold Site.Fits Site.patches
  cases hr : site.replacement e with
  | error cause =>
    have hpatch : site.patch? e = none := by
      unfold Site.patch?
      rw [hr]
    rw [List.filterMap_cons_none hpatch]
    exact fits_nil (standsFor_part q hpart.paired hpart.readable hlegible)
  | ok r =>
    have hpatch : site.patch? e = some ⟨site.place e.span, r.text⟩ := by
      unfold Site.patch?
      rw [hr]
    rw [List.filterMap_cons_some hpatch]
    have hplace : site.place e.span = ⟨site.base + byteLength pre,
        site.base + byteLength pre + byteLength q.written⟩ := by
      simp [Site.place, hpart.span_eq, spanAt, Span.shift, Nat.add_assoc]
    have hspliced := Spliced.patch (p := ⟨site.place e.span, r.text⟩) [] q.written []
      (by rw [hplace]; rfl) (by rw [hplace]) (.rest _ [])
    rw [List.nil_append, List.append_nil, List.nil_append, List.append_nil] at hspliced
    exact ⟨_, hspliced, standsFor_replacement hpart hlegible hwraps hr⟩

/-- An element that stays, around what can stand between its tags. -/
theorem fits_between {tag : OpenTag} {close : CloseTag} {pre text : List Char} {children : Bool}
    {targets : List Element} (ht : tag.Formed) (hclose : close.Sound)
    (hsame : sameLetters tag.name close.name = true)
    (hlegible : isLegible true tag.name tag.written text (some close.written) children = true)
    (h : site.Fits (byteLength pre + byteLength tag.written) w targets) :
    site.Fits (byteLength pre) (tag.written ++ (w ++ close.written)) targets := by
  obtain ⟨out, hspliced, hstands⟩ := h
  rw [← Nat.add_assoc] at hspliced
  have hbehind := hspliced.append (.rest _ close.written)
  rw [List.append_nil] at hbehind
  exact ⟨_, hbehind.prepend tag.written, .element ht hclose hsame hlegible hstands⟩

end

theorem targets_rawContent (policy : Policy) (offset : Nat) (body : List Char) :
    (findTargets policy (Assembly.rawContent offset body)).targets = [] := by
  unfold Assembly.rawContent
  split <;> rfl

section
variable {site : Site} {policy : Policy}

mutual

theorem fits_part :
    ∀ (q : Part) {pre post : List Char}, q.Paired → Readable q.tokens →
      site.template = pre ++ (q.written ++ post) → Part.legible true q = true →
      (∀ e ∈ (findTargetsIn policy (q.nodeAt (byteLength pre))).targets,
        site.wrapsLegibly e = true) →
      site.Fits (byteLength pre) q.written
        (findTargetsIn policy (q.nodeAt (byteLength pre))).targets
  | .text body, _, _, hp, hr, _, hlegible, _ => fits_nil (standsFor_part _ hp hr hlegible)
  | .comment body, _, _, hp, hr, _, hlegible, _ => fits_nil (standsFor_part _ hp hr hlegible)
  | .single tag, pre, post, hp, hr, htemplate, hlegible, hwraps => by
    rw [Part.nodeAt, findTargetsIn] at hwraps ⊢
    split at hwraps
    · rename_i hreplaces
      rw [if_pos hreplaces]
      exact fits_target ⟨htemplate, rfl, hp, hr⟩ hlegible (hwraps _ (List.mem_singleton.2 rfl))
    · rename_i hreplaces
      rw [if_neg hreplaces]
      exact fits_nil (standsFor_part _ hp hr hlegible)
  | .raw tag body close, pre, post, hp, hr, htemplate, hlegible, hwraps => by
    rw [Part.nodeAt, findTargetsIn] at hwraps ⊢
    split at hwraps
    · rename_i hreplaces
      rw [if_pos hreplaces]
      exact fits_target ⟨htemplate, rfl, hp, hr⟩ hlegible (hwraps _ (List.mem_singleton.2 rfl))
    · rename_i hreplaces
      rw [if_neg hreplaces, Findings.append, targets_rawContent]
      exact fits_nil (standsFor_part _ hp hr hlegible)
  | .element tag children close, pre, post, hp, hr, htemplate, hlegible, hwraps => by
    rw [Part.nodeAt, findTargetsIn] at hwraps ⊢
    split at hwraps
    · rename_i hreplaces
      rw [if_pos hreplaces]
      exact fits_target ⟨htemplate, rfl, hp, hr⟩ hlegible (hwraps _ (List.mem_singleton.2 rfl))
    · rename_i hreplaces
      rw [if_neg hreplaces, Findings.append, List.nil_append]
      rw [Findings.append, List.nil_append, ← byteLength_append] at hwraps
      have hread : Readable ((Part.element tag children close).tokens ++ []) := by
        rwa [List.append_nil]
      obtain ⟨hformed, hr', hclose⟩ := readable_of_element hread
      rw [Part.written_element, List.append_assoc, List.append_assoc] at htemplate
      rw [Part.legible] at hlegible
      have htemplate' : site.template = (pre ++ tag.written) ++
          (writtenOf children ++ (close.written ++ post)) := by
        rw [htemplate, List.append_assoc]
      have hinside := fits_parts children hp.2.2 hr'.left htemplate'
        (children_of_isLegible hlegible) hwraps
      rw [byteLength_append] at hinside
      rw [Part.written_element]
      exact fits_between hformed hclose.sound hp.2.1 hlegible hinside

/-- **Parts of the template** with the targets in them replaced. -/
theorem fits_parts :
    ∀ (qs : List Part) {pre post : List Char}, PairedAll qs → Readable (tokensOf qs) →
      site.template = pre ++ (writtenOf qs ++ post) → legibleParts true qs = true →
      (∀ e ∈ (findTargets policy (nodesAt (byteLength pre) qs)).targets,
        site.wrapsLegibly e = true) →
      site.Fits (byteLength pre) (writtenOf qs)
        (findTargets policy (nodesAt (byteLength pre) qs)).targets
  | [], _, _, _, _, _, _, _ => fits_nil (belongsInside_nil.standsFor rfl)
  | q :: qs, pre, post, hp, hr, htemplate, hlegible, hwraps => by
    rw [tokensOf_cons] at hr
    rw [writtenOf_cons, List.append_assoc] at htemplate
    rw [legibleParts, Bool.and_eq_true] at hlegible
    have htemplate' : site.template = (pre ++ q.written) ++ (writtenOf qs ++ post) := by
      rw [htemplate, List.append_assoc]
    rw [nodesAt_cons, findTargets, Findings.append, ← byteLength_append,
      List.forall_mem_append] at hwraps
    obtain ⟨x, hx, hfirst⟩ := fits_part q hp.1 hr.left htemplate hlegible.1 hwraps.1
    obtain ⟨y, hy, hrest⟩ := fits_parts qs hp.2 hr.right htemplate' hlegible.2 hwraps.2
    rw [byteLength_append, ← Nat.add_assoc] at hy
    refine ⟨x ++ y, ?_, by rw [writtenOf_cons]; exact hfirst.append hr hrest⟩
    rw [nodesAt_cons, findTargets, Findings.append, Site.patches, List.filterMap_append,
      writtenOf_cons]
    exact hx.append hy

end

end

/-! ## Templates -/

/-- The template with its targets replaced. -/
def Site.patched (site : Site) (targets : List Element) : List Char :=
  textOf (patchedRuns site.base site.template [] (site.patches targets))

theorem spliced_patched {site : Site} {blocks : Blocks} {targets : List Element}
    {pre post : List Char} (h : site.Placed blocks targets)
    (hsource : site.source = pre ++ (site.template ++ post)) (hbase : site.base = byteLength pre) :
    Spliced site.base site.template (site.patches targets) (site.patched targets) := by
  have hasc : Ascending (site.base + 0) (site.base + byteLength site.template)
      ((site.patches targets).map Patch.range) := ascending_patches h.ascending
  have hps : ∀ p ∈ site.patches targets, p.range.OnBoundaries (pre ++ site.template) ∧
      p.range.start < p.range.stop := by
    intro p hp
    obtain ⟨hlo, hlt, hhi⟩ := hasc.bounds (List.mem_map_of_mem hp)
    obtain ⟨hstart, hstop⟩ := onBoundaries_patches h.boundaries hp
    rw [hsource, ← List.append_assoc] at hstart hstop
    rw [hbase, ← byteLength_append] at hhi
    exact ⟨⟨isBoundary_left hstart (by omega), isBoundary_left hstop hhi⟩, hlt⟩
  have hapart : (site.patches targets).Pairwise fun p q => p.range.stop ≤ q.range.start :=
    List.pairwise_map.1 hasc.pairwise
  have hlaid := laid_patchedRuns rfl hps hapart fun p hp => by
    have := (hasc.bounds (List.mem_map_of_mem hp)).1
    omega
  rw [← hbase] at hlaid
  exact hlaid.spliced

/-- Whether the reading of blocks takes the nodes of a template for what they are, and what replaces
the targets among them for parts of the template. -/
def Site.staysLegible (site : Site) (nodes : List Node) : Bool :=
  legibleAll site.template true nodes &&
    (findTargets site.options.policy nodes).targets.all site.wrapsLegibly

/-- **The template with its targets replaced** can still stand between the tags of its block. -/
theorem isContent_patched {site : Site} {blocks : Blocks} {nodes : List Node} {pre post : List Char}
    (hparse : parse site.template = .ok nodes)
    (hplaced : site.Placed blocks (findTargets site.options.policy nodes).targets)
    (hsource : site.source = pre ++ (site.template ++ post)) (hbase : site.base = byteLength pre)
    (h : site.staysLegible nodes = true) :
    IsContent (site.patched (findTargets site.options.policy nodes).targets) := by
  rw [Site.staysLegible, Bool.and_eq_true, List.all_eq_true] at h
  obtain ⟨hlegible, hwraps⟩ := h
  obtain ⟨ps, hpaired, hread, hwritten, rfl⟩ := parse_eq_ok_iff.1 hparse
  have htemplate : site.template = [] ++ (writtenOf ps ++ []) := by
    rw [hwritten, List.nil_append, List.append_nil]
  have hparts := legibleAll_nodesAt true [] [] ps
  rw [← htemplate, byteLength_nil] at hparts
  rw [hparts] at hlegible
  have hfits : site.Fits 0 (writtenOf ps)
      (findTargets site.options.policy (nodesAt 0 ps)).targets :=
    fits_parts ps hpaired hread htemplate hlegible hwraps
  obtain ⟨out, hspliced, hstands⟩ := hfits
  rw [← hwritten] at hspliced
  obtain rfl := hspliced.unique (spliced_patched hplaced hsource hbase)
  have hend : readTemplate 0 "</template>".toList = some ([], "</template>".toList, []) := by
    decide +kernel
  rw [IsContent, hstands.reads (joint_of_markup _ rfl), hend, Option.map_some, prepend,
    List.append_nil]

end Islands
