import Std.Data.TreeMap.Lemmas
import Islands.Proofs.Registry.Consistency
import Islands.Registry.Manifest

/-!
# What the manifest of chunks holds

Chunks are recorded one after the other, each for the component that its module belongs to. That is
the first client component with the file of the module, also where several components share a file.

* `get?_record`, `get?_recordAll`: one chunk, and a sequence of them.
* `manifest_recordAll`: the finished manifest. A component that is not the first one of its file is
  not in it.
-/

namespace Islands

/-- The client component that a file belongs to: the first one that has it. -/
def Registry.clientOf? (components : Registry) (file : String) : Option Component :=
  components.find? fun c => c.mode == .client && ModuleId.file c.filePath == file

/-- The address of the last chunk that was built from a file. -/
def lastUrl? (base file : String) (chunks : List (String × String)) : Option String :=
  (chunks.reverse.find? (ModuleId.file ·.1 == file)).map fun c => chunkUrl base c.2

namespace ManifestBuilder

/-! ## Recording -/

section
variable (b : ManifestBuilder)

theorem client?_record (id file : String) : (b.record id file).2.client? = b.client? := by
  unfold record
  split <;> rfl

theorem base_record (id file : String) : (b.record id file).2.base = b.base := by
  unfold record
  split <;> rfl

theorem fst_record (id file : String) : (b.record id file).1 = (b.client? id).isSome := by
  unfold record
  split
  · rename_i h
    rw [h]
    rfl
  · rename_i h
    rw [h]
    rfl

/-- **One chunk** is the entry of its component; the other entries stay. -/
theorem get?_record (id file name : String) :
    (b.record id file).2.manifest.get? name =
      if b.client? id = some name then some (chunkUrl b.base file) else b.manifest.get? name := by
  unfold record
  split
  · rename_i h
    rw [h, if_neg (fun h' => by cases h')]
  · rename_i client h
    show (b.manifest.entries.insert client (chunkUrl b.base file))[name]? = _
    simp only [Std.TreeMap.getElem?_insert, Std.LawfulEqCmp.compare_eq_iff_eq, h,
      Option.some.injEq]
    rfl

/-- **A sequence of chunks**: the last one of a component is its entry. -/
theorem get?_recordAll (chunks : List (String × String)) (name : String) :
    (b.recordAll chunks).2.manifest.get? name =
      ((chunks.reverse.find? fun c => b.client? c.1 == some name).map
        fun c => chunkUrl b.base c.2).or (b.manifest.get? name) := by
  induction chunks generalizing b with
  | nil => rfl
  | cons c cs ih =>
    show ((b.record c.1 c.2).2.recordAll cs).2.manifest.get? name = _
    rw [ih, client?_record, base_record, get?_record, List.reverse_cons, List.find?_append,
      List.find?_singleton, Option.map_or, Option.or_assoc]
    congr 1
    by_cases hc : b.client? c.1 = some name
    · rw [if_pos hc, if_pos (beq_iff_eq.2 hc)]
      rfl
    · rw [if_neg hc, if_neg (by simpa using hc)]
      rfl

theorem fst_recordAll (chunks : List (String × String)) :
    (b.recordAll chunks).1 = chunks.map fun c => (b.client? c.1).isSome := by
  induction chunks generalizing b with
  | nil => rfl
  | cons c cs ih =>
    show (b.record c.1 c.2).1 :: ((b.record c.1 c.2).2.recordAll cs).1 = _
    rw [ih, client?_record, fst_record, List.map_cons]

end

/-! ## The registry -/

/-- A consistent registry gives a manifest without chunks, to which each client component adds the
chunks of its file, if it is the first one. -/
theorem exists_ofRegistry {components : Registry} (h : components.check = .ok ()) (base : String) :
    ∃ b, ofRegistry components base = .ok b ∧ b.base = base ∧
      (∀ name, b.manifest.get? name = none) ∧
      ∀ id, b.client? id = (components.clientOf? (ModuleId.file id)).map (·.name) := by
  refine ⟨_, by rw [ofRegistry, h], rfl, fun _ => Std.TreeMap.getElem?_emptyc, fun id => ?_⟩
  rw [client?, Registry.clientOf?, List.find?_map, List.find?_filter, Option.map_map]
  simp only [Bool.decide_and, Bool.decide_eq_true, Function.comp_apply]
  rfl

section
variable {components : Registry} {c d : Component} {file : String}

theorem mem_of_clientOf? (h : components.clientOf? file = some c) :
    c ∈ components ∧ c.mode = .client ∧ ModuleId.file c.filePath = file := by
  have hc := List.find?_some h
  simp only [Bool.and_eq_true, beq_iff_eq] at hc
  exact ⟨List.mem_of_find?_eq_some h, hc.1, hc.2⟩

theorem clientOf?_eq_iff (h : components.check = .ok ()) (hd : d ∈ components)
    (hmode : d.mode = .client) :
    (components.clientOf? file).map (·.name) = some d.name ↔
      components.clientOf? file = some d := by
  constructor
  · intro hname
    obtain ⟨c, hc, hname⟩ := Option.map_eq_some_iff.1 hname
    obtain ⟨hmem, hclient, -⟩ := mem_of_clientOf? hc
    have hsame : c.identity = d.identity := by rw [Component.identity, hname, hclient, ← hmode]; rfl
    rw [hc, Registry.eq_of_identity_eq h hmem hd hsame]
  · intro hc
    rw [hc]
    rfl

/-- The chunks of a component are those of its file, if it is the first one of the file; otherwise
there are none. -/
theorem clientOf?_eq_iff_file :
    components.clientOf? file = some d ↔
      ModuleId.file d.filePath = file ∧
        components.clientOf? (ModuleId.file d.filePath) = some d := by
  constructor
  · intro h
    obtain ⟨-, -, rfl⟩ := mem_of_clientOf? h
    exact ⟨rfl, h⟩
  · rintro ⟨rfl, h⟩
    exact h

theorem isSome_clientOf? :
    (components.clientOf? file).isSome =
      components.any fun c => c.mode == .client && ModuleId.file c.filePath == file := by
  rw [Bool.eq_iff_iff, Registry.clientOf?, List.find?_isSome, List.any_eq_true]

end

/-! ## The finished manifest -/

/-- **The manifest** of a consistent registry after any sequence of chunks. A client component that
is the first one of its file is there with the address of the last chunk of the file, if there is
one; the other client components of a file are not in it, and no other name is. Of each chunk it is
said whether its file is that of a client component. -/
theorem manifest_recordAll {components : Registry} (h : components.check = .ok ()) (base : String)
    (chunks : List (String × String)) :
    ∃ b, ofRegistry components base = .ok b ∧
      (∀ d ∈ components, d.mode = .client →
        (b.recordAll chunks).2.manifest.get? d.name =
          if components.clientOf? (ModuleId.file d.filePath) = some d then
            lastUrl? base (ModuleId.file d.filePath) chunks
          else none) ∧
      (∀ name, (∀ d ∈ components, d.mode = .client → d.name ≠ name) →
        (b.recordAll chunks).2.manifest.get? name = none) ∧
      (b.recordAll chunks).1 = chunks.map fun c => components.any fun d =>
        d.mode == .client && ModuleId.file d.filePath == ModuleId.file c.1 := by
  obtain ⟨b, hb, rfl, hempty, hclient⟩ := exists_ofRegistry h base
  refine ⟨b, hb, fun d hd hmode => ?_, fun name hname => ?_, ?_⟩
  · have hchunk : ∀ c : String × String, b.client? c.1 = some d.name ↔
        ModuleId.file d.filePath = ModuleId.file c.1 ∧
          components.clientOf? (ModuleId.file d.filePath) = some d := fun c => by
      rw [hclient, clientOf?_eq_iff h hd hmode, clientOf?_eq_iff_file]
    rw [get?_recordAll, hempty, Option.or_none]
    split
    · rename_i hfirst
      have hsame : ∀ c : String × String, (b.client? c.1 == some d.name) =
          (ModuleId.file c.1 == ModuleId.file d.filePath) := fun c => by
        rw [Bool.eq_iff_iff, beq_iff_eq, beq_iff_eq, hchunk, and_iff_left hfirst, eq_comm]
      simp only [hsame, lastUrl?]
    · rename_i hlater
      rw [List.find?_eq_none.2 fun c _ hc => hlater ((hchunk c).1 (beq_iff_eq.1 hc)).2]
      rfl
  · rw [get?_recordAll, hempty, Option.or_none, List.find?_eq_none.2 fun c _ hc => ?_]
    · rfl
    · rw [beq_iff_eq, hclient] at hc
      obtain ⟨d, hd, hsame⟩ := Option.map_eq_some_iff.1 hc
      obtain ⟨hmem, hmode, -⟩ := mem_of_clientOf? hd
      exact hname d hmem hmode hsame
  · simp only [fst_recordAll, hclient, Option.isSome_map, isSome_clientOf?]

/-- The two halves of a component, and a component of another file. -/
def pairedRegistry : Registry :=
  [⟨"Counter", "/app/Counter.server.vue", .server, false⟩,
    ⟨"Counter", "/app/./Counter.client.vue", .client, false⟩,
    ⟨"Chart", "/app/Chart.vue", .client, true⟩]

/-- Two chunks of one component, the second one by another spelling of its file, and a chunk of
none. -/
theorem manifest_recordAll_paired :
    pairedRegistry.check = .ok () ∧
      ∃ b, ofRegistry pairedRegistry "/c/" = .ok b ∧
        (b.recordAll [("/app/Counter.client.vue", "a.js"), ("/app/Counter.server.vue", "b.js"),
          ("/app/x/../Counter.client.vue?vue", "/c.js")]).2.manifest.get? "Counter" =
            some "/c/c.js" ∧
        (b.recordAll [("/app/Counter.client.vue", "a.js"), ("/app/Counter.server.vue", "b.js"),
          ("/app/x/../Counter.client.vue?vue", "/c.js")]).1 = [true, false, true] := by
  have hcheck : pairedRegistry.check = .ok () := by decide +kernel
  obtain ⟨b, hb, hentries, -, hrecorded⟩ := manifest_recordAll hcheck "/c/"
    [("/app/Counter.client.vue", "a.js"), ("/app/Counter.server.vue", "b.js"),
      ("/app/x/../Counter.client.vue?vue", "/c.js")]
  refine ⟨hcheck, b, hb, ?_, hrecorded.trans (by decide +kernel)⟩
  rw [hentries ⟨"Counter", "/app/./Counter.client.vue", .client, false⟩ (by decide) rfl]
  decide +kernel

/-- Two client components of one file. -/
def sharedRegistry : Registry :=
  [⟨"A", "/app/a.vue", .client, false⟩, ⟨"B", "/app/a.vue", .client, false⟩]

/-- Only the first of two client components of a file gets the file's chunk. -/
theorem not_manifest_recordAll_shared :
    sharedRegistry.check = .ok () ∧
      ∃ b, ofRegistry sharedRegistry "" = .ok b ∧
        (b.recordAll [("/app/a.vue", "a.js")]).1 = [true] ∧
        (b.recordAll [("/app/a.vue", "a.js")]).2.manifest.get? "A" = some "a.js" ∧
        (b.recordAll [("/app/a.vue", "a.js")]).2.manifest.get? "B" = none := by
  refine ⟨?_, _, rfl, ?_, ?_, ?_⟩ <;> decide +kernel

end ManifestBuilder

end Islands
