import Islands.Proofs.SourceMap.LaidRuns
import Islands.Proofs.Wrapper.Rewriting

/-!
# The source map of a file

The code of a file is its source with some patches and the imports, and the source map of the code
leads back: each copied character to its own position, and the start of each replacement to the
start of its target (`traced_wrapFile`). Every replacement begins and ends with a tag, and the
imports end with a quote, so none of them makes a line end together with what stands around it.
-/

namespace Islands

open Markup ComponentFile

/-! ## The texts that are put in -/

theorem head?_toList_append {s : String} {c : Char} (t : String) (h : s.toList.head? = some c) :
    (s ++ t).toList.head? = some c := by
  rw [String.toList_append, List.head?_append, h]
  rfl

theorem getLast?_toList_append (s : String) {t : String} {c : Char}
    (h : t.toList.getLast? = some c) : (s ++ t).toList.getLast? = some c := by
  rw [String.toList_append, List.getLast?_append, h]
  rfl

theorem ends_of_replacement {site : Site} {e : Element} {r : Replacement}
    (h : site.replacement e = .ok r) :
    r.text.toList.head? = some '<' ∧ r.text.toList.getLast? = some '>' := by
  rcases replacement_cases h with ⟨-, -, rest, htext⟩ | ⟨-, -, rest, htext⟩
  · rw [htext]
    refine ⟨?_, getLast?_toList_append _ rfl⟩
    repeat apply head?_toList_append
    rfl
  · rw [htext]
    refine ⟨?_, getLast?_toList_append _ rfl⟩
    repeat apply head?_toList_append
    rfl

/-- A replacement makes no line end together with what stands around it. -/
theorem separates_of_mem_patches {site : Site} {targets : List Element} {p : Patch}
    (hp : p ∈ site.patches targets) : p.Separates := by
  obtain ⟨e, -, hpatch⟩ := List.mem_filterMap.1 hp
  unfold Site.patch? at hpatch
  split at hpatch
  · rename_i r hr
    obtain rfl := Option.some.inj hpatch
    obtain ⟨hhead, hlast⟩ := ends_of_replacement hr
    refine ⟨fun hnil => ?_, ?_, fun _ => ?_⟩
    · rw [hnil] at hhead
      cases hhead
    · rw [hlast]
      decide
    · rw [hhead]
      decide
  · cases hpatch

theorem getLast?_importText (url : String) : (importText url).toList.getLast? = some '\'' :=
  getLast?_toList_append _ rfl

theorem separates_insertionPatch (offset : Nat) (url : String) :
    (insertionPatch offset (importText url)).Separates := by
  have hlast := getLast?_importText url
  refine ⟨fun hnil => ?_, ?_, fun hlt => absurd hlt (Nat.lt_irrefl offset)⟩
  · have hnil : (importText url).toList = [] := hnil
    rw [hnil] at hlast
    cases hlast
  · show (importText url).toList.getLast? ≠ some '\r'
    rw [hlast]
    decide

/-! ## The runs in front -/

section
variable (blocks : Blocks) (imports : String)

theorem filterMap_frontRuns : (frontRuns blocks imports).filterMap Run.origin = [] := by
  unfold frontRuns
  split <;> rfl

theorem getLast?_frontRuns : (textOf (frontRuns blocks imports)).getLast? ≠ some '\r' := by
  cases hs : blocks.importScript? with
  | none =>
    have hlast : (importBlock imports).toList.getLast? = some '\n' := getLast?_toList_append _ rfl
    rw [textOf_frontRuns_of_none imports hs, hlast]
    decide
  | some s =>
    rw [frontRuns_of_some imports hs]
    decide

theorem keepsLineEnds_frontRuns {rs : List Run}
    (h : KeepsLineEnds (textOf (frontRuns blocks imports)) rs) :
    KeepsLineEnds [] (frontRuns blocks imports ++ rs) := by
  cases hs : blocks.importScript? with
  | none =>
    rw [textOf_frontRuns_of_none imports hs] at h
    simp only [frontRuns, hs]
    exact ⟨fun hsome => (by cases hsome), h⟩
  | some s =>
    rw [frontRuns_of_some imports hs] at h ⊢
    exact h

end

/-! ## Files -/

/-- The edits of a file make no line end together with what stands around them. -/
theorem separates_of_importsAdded {site : Site} {blocks : Blocks} {targets : List Element}
    {url : String} {edits : List Patch}
    (h : ImportsAdded blocks (importText url) (site.patches targets) edits) :
    ∀ p ∈ edits, p.Separates := by
  intro p hp
  rcases mem_of_importsAdded h hp with hp | ⟨s, -, rfl⟩
  · exact separates_of_mem_patches hp
  · exact separates_insertionPatch _ _

/-- The code of a file, some targets of which are replaced, and its source map. The code is the text
of a draft, the map is the map of the draft, and it leads back to the source from what stands behind
the block for the imports. -/
def TracedCode (site : Site) (blocks : Blocks) (targets : List Element) (code map : String) :
    Prop :=
  ∃ draft edits out, ImportsAdded blocks (importText site.options.runtimeUrlOrDefault)
      (site.patches targets) edits ∧ Spliced 0 site.source edits out ∧ code = Draft.text draft ∧
    code.toList =
      textOf (frontRuns blocks (importText site.options.runtimeUrlOrDefault)) ++ out ∧
    map = (draft.sourceMap (ModuleId.pathPart site.id)).json ∧
    Traced (draft.sourceMap (ModuleId.pathPart site.id))
      (textOf (frontRuns blocks (importText site.options.runtimeUrlOrDefault))) site.source out
      (site.patches targets) edits

theorem traced_wrapTargets {site : Site} {blocks : Blocks} {found : Findings} {code : String}
    (hplaced : site.Placed blocks found.targets) (hmode : site.options.sourceMap = .external)
    (hfeeds : FeedsFollowReturns site.source)
    (h : (wrapTargets site blocks found).code = some code) :
    TracedCode site blocks found.targets code (wrapTargets site blocks found).map := by
  obtain ⟨edits, rs, back, draft, hedits, hlaid, hsource, hruns, hcode, hback, hmap⟩ :=
    exists_code_wrapTargets hplaced h
  have hinline : site.options.sourceMap.isInline = false := by rw [hmode]; rfl
  rw [hback hinline, List.append_nil] at hcode
  have htext : code = draft.text := by
    rw [← String.toList_inj, hcode, Draft.text, String.toList_ofList, hruns]
    exact (textOf_append _ _).symm
  have hjson : (wrapTargets site blocks found).map =
      (draft.sourceMap (ModuleId.pathPart site.id)).json := by
    rw [hmap, emit, hmode]
    rfl
  -- the mappings of the draft are those of its runs
  have horigins : draft.runs.filterMap Run.origin = rs.filterMap Run.origin := by
    rw [hruns, List.filterMap_append, filterMap_frontRuns, List.nil_append]
  have hends : KeepsLineEnds [] draft.runs := by
    rw [hruns]
    exact keepsLineEnds_frontRuns _ _
      (hlaid.keepsLineEnds (getLast?_frontRuns _ _) (separates_of_importsAdded hedits))
  have hm : (draft.sourceMap (ModuleId.pathPart site.id)).mappings =
      runMappings draft.source [] draft.runs := by
    refine mappings_sourceMap _ ?_ ?_ hends
    · rw [horigins]
      exact hlaid.origins.1
    · rw [horigins, hsource]
      intro offset hoffset
      have := (hlaid.origins.2 offset hoffset).2
      omega
  rw [hsource, hruns] at hm
  exact ⟨draft, edits, textOf rs, hedits, hlaid.spliced, htext, hcode, hjson,
    hlaid.traced hm hfeeds fun p hp => (hplaced.bounds hp).2.1⟩

/-- The code of a file whose template can be read, and a source map that leads back from it. -/
def TracedFile (id source : String) (options : Options) (code : String) : Prop :=
  ∃ t nodes, (Blocks.ofSource source.toList).template = some t ∧
    parse (t.content.cut source.toList) = .ok nodes ∧
    TracedCode (siteOf id source options t) (Blocks.ofSource source.toList)
      (findTargets options.policy nodes).targets code (wrapFile id source options).map

/-- **The source map of a file** leads back from its code: each character that is copied to its own
position, and the start of each replacement to the start of its target, whatever the imports and
the replacements are. -/
theorem traced_wrapFile {id source code : String} {options : Options}
    (hmode : options.sourceMap = .external) (hfeeds : FeedsFollowReturns source.toList)
    (h : (wrapFile id source options).code = some code) : TracedFile id source options code := by
  obtain ⟨t, nodes, ht, hparse, hfile⟩ := exists_wrapTargets h
  rw [hfile] at h
  refine ⟨t, nodes, ht, hparse, ?_⟩
  rw [hfile]
  exact traced_wrapTargets (placed_targets ht hparse) hmode hfeeds h

/-- Two slots on a line that ends with a carriage return and a line feed, and a script block. -/
theorem traced_wrapFile_slots :
    ∃ code, (wrapFile "a.vue"
        "<template>é\r\n<slot/>𝄞<slot name='b'/>\r\n</template><script></script>\n" {}).code =
        some code ∧
      TracedFile "a.vue"
        "<template>é\r\n<slot/>𝄞<slot name='b'/>\r\n</template><script></script>\n" {} code := by
  have hsome : (wrapFile "a.vue"
      "<template>é\r\n<slot/>𝄞<slot name='b'/>\r\n</template><script></script>\n"
      {}).code.isSome = true := by decide +kernel
  obtain ⟨code, hcode⟩ := Option.isSome_iff_exists.1 hsome
  exact ⟨code, hcode, traced_wrapFile rfl (by decide +kernel) hcode⟩

end Islands
