import Mathlib.Data.List.TakeWhile
import Islands.Proofs.Registry.ChunkManifest
import Islands.Proofs.Registry.Eligibility
import Islands.Proofs.Registry.NormalForm

/-!
# Whether both readings of a file path agree

The file of a module is the normal form of the path of its id. A component is an island for the
modules whose file is the normal form of its file path (`isIsland_singleton`), but it gets the chunks
of its file path read as an id, without what stands behind a `?` (`record_singleton`). The two agree
on a path without `?`, and on others only if both readings give one file or neither gives that of a
whole component (`agrees_iff`).

* `exists_id_iff`: which files are those of whole components.
* `not_agrees_mark`: paths on which the two do not agree.
-/

namespace Islands

/-! ## The file of an id -/

namespace ModuleId

/-- The normal form can be the file of a whole component: a path of one, with no query behind it. -/
def IsComponentFile (file : String) : Prop := ".vue".toList <:+ file.toList ∧ '?' ∉ file.toList

instance (file : String) : Decidable (IsComponentFile file) :=
  inferInstanceAs (Decidable (_ ∧ _))

theorem pathPart_of_not_mem {p : String} (h : '?' ∉ p.toList) : pathPart p = p := by
  rw [pathPart, List.takeWhile_eq_self_iff.2 fun c hc => ?_, String.ofList_toList]
  exact bne_iff_ne.2 fun hmark => h (hmark ▸ hc)

theorem not_mem_pathPart (id : String) : '?' ∉ (pathPart id).toList := by
  intro h
  rw [pathPart, String.toList_ofList] at h
  exact absurd (List.mem_takeWhile_imp h) (by decide)

theorem file_of_not_mem {p : String} (h : '?' ∉ p.toList) : file p = Path.normalForm p := by
  rw [file, pathPart_of_not_mem h]

theorem not_mem_file (id : String) : '?' ∉ (file id).toList := fun h =>
  (Path.mem_of_mem_normalForm h).elim (by decide) (not_mem_pathPart id)

/-- **The files of whole components** are, among normal forms, the paths of components. -/
theorem exists_id_iff {x : String} (hx : Path.normalForm x = x) :
    (∃ id, isWholeComponent id = true ∧ file id = x) ↔ IsComponentFile x := by
  constructor
  · rintro ⟨id, hid, rfl⟩
    rw [isWholeComponent, Bool.and_eq_true, List.isSuffixOf_iff_suffix] at hid
    exact ⟨Path.suffix_normalForm (by decide) (by decide) (by decide) hid.2, not_mem_file id⟩
  · rintro ⟨hsuffix, hmark⟩
    refine ⟨x, ?_, (file_of_not_mem hmark).trans hx⟩
    have hquery : queryPart x = [] := by
      rw [queryPart, List.dropWhile_eq_nil_iff.2 fun c hc => ?_, List.drop_nil]
      exact bne_iff_ne.2 fun h => hmark (h ▸ hc)
    rw [isWholeComponent, hquery, pathPart_of_not_mem hmark, List.isSuffixOf_iff_suffix.2 hsuffix]
    rfl

end ModuleId

/-! ## A list of one component -/

namespace Component

section
variable {d : Component}

theorem check_singleton (hfile : d.lacksFile = false) : Registry.check [d] = .ok () :=
  Registry.check_eq_ok_iff.2 ⟨fun c hc => by rwa [List.mem_singleton.1 hc], List.nodup_singleton _⟩

theorem isIsland_singleton (hisland : d.island = true) (hfile : d.lacksFile = false) {id : String}
    (hid : ModuleId.isWholeComponent id = true) :
    Registry.isIsland [d] id = .ok true ↔ Path.normalForm d.filePath = ModuleId.file id := by
  have hfault := Registry.check_eq_ok_iff_not_hasFault.1 (check_singleton hfile)
  rw [Registry.isIsland_eq_ok_iff hid, and_iff_right hfault, iff_true_left rfl]
  simp [Registry.HasIsland, hisland]

theorem record_singleton (hmode : d.mode = .client) (hfile : d.lacksFile = false) (base : String) :
    ∃ b, ManifestBuilder.ofRegistry [d] base = .ok b ∧ ∀ id file,
      (b.record id file).1 = true ↔ ModuleId.file d.filePath = ModuleId.file id := by
  obtain ⟨b, hb, -, -, hclient⟩ := ManifestBuilder.exists_ofRegistry (check_singleton hfile) base
  refine ⟨b, hb, fun id file => ?_⟩
  rw [ManifestBuilder.fst_record, hclient, Option.isSome_map, ManifestBuilder.isSome_clientOf?]
  simp [hmode]

end

/-! ## Agreement -/

/-- The component is an island for exactly the modules whose chunks it gets. -/
def Agrees (d : Component) : Prop :=
  ∀ id base file, ModuleId.isWholeComponent id = true →
    ∃ b, ManifestBuilder.ofRegistry [d] base = .ok b ∧
      (Registry.isIsland [d] id = .ok true ↔ (b.record id file).1 = true)

section
variable {d : Component}

/-- The two agree if both readings of the file path agree on the file of every module. -/
theorem agrees_iff_forall (hmode : d.mode = .client) (hisland : d.island = true)
    (hfile : d.lacksFile = false) :
    d.Agrees ↔ ∀ id, ModuleId.isWholeComponent id = true →
      (Path.normalForm d.filePath = ModuleId.file id ↔
        ModuleId.file d.filePath = ModuleId.file id) := by
  constructor
  · intro h id hid
    obtain ⟨b, hb, hagree⟩ := h id "" "" hid
    obtain ⟨b', hb', hrecord⟩ := record_singleton hmode hfile ""
    obtain rfl := Except.ok.inj (hb.symm.trans hb')
    rw [← isIsland_singleton hisland hfile hid, hagree, hrecord]
  · intro h id base file hid
    obtain ⟨b, hb, hrecord⟩ := record_singleton hmode hfile base
    exact ⟨b, hb, by rw [isIsland_singleton hisland hfile hid, h id hid, hrecord]⟩

/-- **Both readings of a file path** agree on every module if they give the same file, or if neither
gives that of a whole component. A path without `?` is read in one way. -/
theorem agrees_iff (hmode : d.mode = .client) (hisland : d.island = true)
    (hfile : d.lacksFile = false) :
    (d.Agrees ↔ Path.normalForm d.filePath = ModuleId.file d.filePath ∨
      ¬ModuleId.IsComponentFile (Path.normalForm d.filePath) ∧
        ¬ModuleId.IsComponentFile (ModuleId.file d.filePath)) ∧
    ('?' ∉ d.filePath.toList → d.Agrees) := by
  have hpath := Path.normalForm_normalForm d.filePath
  have hchunk : Path.normalForm (ModuleId.file d.filePath) = ModuleId.file d.filePath :=
    Path.normalForm_normalForm _
  rw [agrees_iff_forall hmode hisland hfile]
  refine ⟨⟨fun h => ?_, ?_⟩, fun hmark id _ => by rw [ModuleId.file_of_not_mem hmark]⟩
  · by_cases hsame : Path.normalForm d.filePath = ModuleId.file d.filePath
    · exact .inl hsame
    · refine .inr ⟨fun hpart => ?_, fun hpart => ?_⟩
      · obtain ⟨id, hid, hid'⟩ := (ModuleId.exists_id_iff hpath).2 hpart
        exact hsame (((h id hid).1 hid'.symm).trans hid').symm
      · obtain ⟨id, hid, hid'⟩ := (ModuleId.exists_id_iff hchunk).2 hpart
        exact hsame (((h id hid).2 hid'.symm).trans hid')
  · rintro (hsame | ⟨hpart, hpart'⟩) id hid
    · rw [hsame]
    · refine iff_of_false (fun h => hpart ?_) (fun h => hpart' ?_)
      · exact (ModuleId.exists_id_iff hpath).1 ⟨id, hid, h.symm⟩
      · exact (ModuleId.exists_id_iff hchunk).1 ⟨id, hid, h.symm⟩

/-- An island on the client, and a module of its file. -/
theorem agrees_iff_card :
    (⟨"Card", "/app\\Card.vue", .client, true⟩ : Component).Agrees ∧
      Registry.isIsland [⟨"Card", "/app\\Card.vue", .client, true⟩] "/app/x/../Card.vue?macro" =
        .ok true ∧
      ∃ b, ManifestBuilder.ofRegistry [⟨"Card", "/app\\Card.vue", .client, true⟩] "/c" = .ok b ∧
        (b.record "/app/x/../Card.vue?macro" "card.js").1 = true := by
  have hagrees : (⟨"Card", "/app\\Card.vue", .client, true⟩ : Component).Agrees :=
    (agrees_iff rfl rfl (by decide +kernel)).2 (by decide)
  have hisland : Registry.isIsland [⟨"Card", "/app\\Card.vue", .client, true⟩]
      "/app/x/../Card.vue?macro" = .ok true := by decide +kernel
  obtain ⟨b, hb, h⟩ := hagrees "/app/x/../Card.vue?macro" "/c" "card.js" (by decide +kernel)
  exact ⟨hagrees, hisland, b, hb, h.1 hisland⟩

/-- A component whose file has a `?` in its name. -/
def markedComponent : Component := ⟨"A", "/app/A.vue?raw", .client, true⟩

/-- A component whose file path leads through a directory with a `?` in its name. -/
def detourComponent : Component := ⟨"A", "/app/what?/../A.vue", .client, true⟩

/-- **A `?` in a file path**: a component gets the chunks of a module that it is no island for, or
misses those of one that it is an island for. -/
theorem not_agrees_mark :
    ModuleId.isWholeComponent "/app/A.vue" = true ∧
    (Registry.isIsland [markedComponent] "/app/A.vue" = .ok false ∧
      ∃ b, ManifestBuilder.ofRegistry [markedComponent] "" = .ok b ∧
        (b.record "/app/A.vue" "a.js").1 = true) ∧
    Registry.isIsland [detourComponent] "/app/A.vue" = .ok true ∧
      ∃ b, ManifestBuilder.ofRegistry [detourComponent] "" = .ok b ∧
        (b.record "/app/A.vue" "a.js").1 = false := by
  refine ⟨?_, ⟨?_, _, rfl, ?_⟩, ?_, _, rfl, ?_⟩ <;> decide +kernel

end

end Component

end Islands
