import Islands.Proofs.Registry.Consistency
import Islands.Session

/-!
# Which files are islands

A question about a module is answered from the list of components as a whole. A list in which a
component is at fault is answered with the first such fault (`check_eq_error_iff`), and any other
list by whether one of its islands has the module's file (`isIsland_eq_ok_iff`). The order of the
components decides which fault is the first one, and nothing else: `verdict_isIsland`.
-/

namespace Islands

/-! ## Faults -/

namespace Component

/-- A component is at fault behind others if it has no file, or if they name it in its mode. -/
def IsFaulty (before : Registry) (c : Component) : Prop :=
  c.lacksFile = true ∨ ∃ d ∈ before, d.name = c.name ∧ d.mode = c.mode

/-- What is said about a component at fault. A missing file comes first. -/
def fault (c : Component) : RegistryError :=
  if c.lacksFile then .missingFilePath c.name else .duplicate c.name c.mode

theorem isFaulty_iff {before : Registry} {c : Component} :
    c.IsFaulty before ↔ c.lacksFile = true ∨ c.identity ∈ before.map identity := by
  simp [IsFaulty, identity]

end Component

namespace Registry

/-- A component of the list is at fault behind those in front of it. -/
def HasFault (components : Registry) : Prop :=
  ∃ before c after, components = before ++ c :: after ∧ c.IsFaulty before

/-- The fault is that of the first component at fault. -/
def FirstFault (components : Registry) (e : RegistryError) : Prop :=
  ∃ before c after, components = before ++ c :: after ∧ ¬HasFault before ∧ c.IsFaulty before ∧
    e = c.fault

section
variable {components others : Registry} {e : RegistryError}

theorem checkFrom_cons (seen : List (String × Mode)) (c : Component) (cs : Registry) :
    checkFrom seen (c :: cs) =
      if c.lacksFile = true ∨ c.identity ∈ seen then .error c.fault
      else checkFrom (c.identity :: seen) cs := by
  rw [checkFrom, Component.fault]
  by_cases hfile : c.lacksFile = true
  · rw [if_pos hfile, if_pos (.inl hfile), if_pos hfile]
  · rw [if_neg hfile, if_neg hfile]
    simp only [Bool.not_eq_true] at hfile
    rw [hfile, Component.identity]
    simp only [Bool.false_eq_true, false_or]

/-- **A list** is refused at the first component at fault; `seen` are the names and modes in front
of the list. -/
theorem checkFrom_eq_error_iff {seen : List (String × Mode)} :
    checkFrom seen components = .error e ↔ ∃ before c after, components = before ++ c :: after ∧
      checkFrom seen before = .ok () ∧
      (c.lacksFile = true ∨ c.identity ∈ before.map Component.identity ++ seen) ∧ e = c.fault := by
  induction components generalizing seen with
  | nil =>
    constructor
    · intro h
      cases h
    · rintro ⟨before, c, after, h, -⟩
      exact absurd h.symm (List.append_ne_nil_of_right_ne_nil before (List.cons_ne_nil c after))
  | cons c cs ih =>
    rw [checkFrom_cons]
    by_cases hc : c.lacksFile = true ∨ c.identity ∈ seen
    · rw [if_pos hc]
      constructor
      · intro h
        exact ⟨[], c, cs, rfl, rfl, hc, (Except.error.inj h).symm⟩
      · rintro ⟨before, d, after, hsplit, hbefore, -, rfl⟩
        cases before with
        | nil =>
          obtain ⟨rfl, -⟩ := List.cons.inj hsplit
          rfl
        | cons d before =>
          obtain ⟨rfl, -⟩ := List.cons.inj hsplit
          rw [checkFrom_cons, if_pos hc] at hbefore
          cases hbefore
    · rw [if_neg hc, ih]
      constructor
      · rintro ⟨before, d, after, rfl, hbefore, hd, he⟩
        refine ⟨c :: before, d, after, rfl, ?_, hd.imp_right fun hmem => ?_, he⟩
        · rw [checkFrom_cons, if_neg hc, hbefore]
        · simpa [or_left_comm] using hmem
      · rintro ⟨before, d, after, hsplit, hbefore, hd, he⟩
        cases before with
        | nil =>
          obtain ⟨rfl, -⟩ := List.cons.inj hsplit
          exact absurd hd hc
        | cons c' before =>
          obtain ⟨rfl, rfl⟩ := List.cons.inj hsplit
          rw [checkFrom_cons, if_neg hc] at hbefore
          refine ⟨before, d, after, rfl, hbefore, hd.imp_right fun hmem => ?_, he⟩
          simpa [or_left_comm] using hmem

theorem check_eq_error_iff_of_ok :
    components.check = .error e ↔ ∃ before c after, components = before ++ c :: after ∧
      check before = .ok () ∧ c.IsFaulty before ∧ e = c.fault := by
  simp only [check, checkFrom_eq_error_iff, List.append_nil, Component.isFaulty_iff]

theorem check_eq_ok_iff_not_hasFault : components.check = .ok () ↔ ¬components.HasFault := by
  constructor
  · rintro hok ⟨before, c, after, rfl, hc⟩
    -- the components in front are accepted as well, so the list would be refused at `c`
    have hbefore : check before = .ok () := by
      cases hcheck : check before with
      | ok _ => rfl
      | error e =>
        obtain ⟨front, d, mid, rfl, hrest⟩ := check_eq_error_iff_of_ok.1 hcheck
        rw [check_eq_error_iff_of_ok.2 ⟨front, d, mid ++ c :: after, by simp, hrest⟩] at hok
        cases hok
    rw [check_eq_error_iff_of_ok.2 ⟨before, c, after, rfl, hbefore, hc, rfl⟩] at hok
    cases hok
  · intro hnone
    cases hcheck : components.check with
    | ok _ => rfl
    | error e =>
      obtain ⟨before, c, after, hsplit, -, hc, -⟩ := check_eq_error_iff_of_ok.1 hcheck
      exact absurd ⟨before, c, after, hsplit, hc⟩ hnone

/-- **A refused list** is refused for its first fault. -/
theorem check_eq_error_iff : components.check = .error e ↔ components.FirstFault e := by
  simp only [check_eq_error_iff_of_ok, check_eq_ok_iff_not_hasFault, FirstFault]

theorem exists_firstFault_iff : (∃ e, components.FirstFault e) ↔ components.HasFault := by
  rw [← not_iff_not, ← check_eq_ok_iff_not_hasFault]
  simp only [← check_eq_error_iff]
  cases components.check <;> simp

theorem hasFault_of_perm (h : components.Perm others) :
    components.HasFault ↔ others.HasFault := by
  rw [← not_iff_not, ← check_eq_ok_iff_not_hasFault, ← check_eq_ok_iff_not_hasFault,
    check_eq_ok_iff, check_eq_ok_iff, (h.map Component.identity).nodup_iff]
  simp only [h.mem_iff]

/-! ## Islands -/

/-- An island of the list has the file: it was declared as one, or it is rendered on the server and
no component of its name on the client. -/
def HasIsland (components : Registry) (file : String) : Prop :=
  ∃ c ∈ components, Path.normalForm c.filePath = file ∧
    (c.island = true ∨ c.mode = .server ∧ ∀ d ∈ components, d.name = c.name → d.mode ≠ .client)

theorem countsAsIsland_iff {c : Component} :
    c.countsAsIsland components = true ↔
      c.island = true ∨ c.mode = .server ∧ ∀ d ∈ components, d.name = c.name → d.mode ≠ .client := by
  simp [Component.countsAsIsland]

theorem hasIsland_of_perm (h : components.Perm others) (file : String) :
    components.HasIsland file ↔ others.HasIsland file := by
  simp only [HasIsland, h.mem_iff]

section
variable {id : String}

theorem isIsland_of_not_isWholeComponent (hid : ModuleId.isWholeComponent id = false) :
    components.isIsland id = .ok false := by
  rw [isIsland, if_neg (Bool.eq_false_iff.1 hid)]

theorem isIsland_eq_error_iff (hid : ModuleId.isWholeComponent id = true) :
    components.isIsland id = .error e ↔ components.FirstFault e := by
  rw [← check_eq_error_iff, isIsland, if_pos hid, islands]
  cases components.check <;> simp

/-- **A list without faults** answers by its islands. -/
theorem isIsland_eq_ok_iff (hid : ModuleId.isWholeComponent id = true) {answer : Bool} :
    components.isIsland id = .ok answer ↔
      ¬components.HasFault ∧ (answer = true ↔ components.HasIsland (ModuleId.file id)) := by
  rw [← check_eq_ok_iff_not_hasFault, isIsland, if_pos hid, islands]
  cases components.check with
  | error e => simp
  | ok _ =>
    have hany : ((components.filter (·.countsAsIsland components)).any fun c =>
        Path.normalForm c.filePath == ModuleId.file id) = true ↔
          components.HasIsland (ModuleId.file id) := by
      simp only [List.any_filter, List.any_eq_true, Bool.and_eq_true, countsAsIsland_iff, beq_iff_eq,
        HasIsland, and_comm]
    rw [← hany]
    simp only [Except.ok.injEq, true_and]
    rw [eq_comm, Bool.eq_iff_iff]

end

end

/-! ## The verdict -/

/-- **The answer to a question** about a module. A module that is no whole component file is no
island, and the list is not read. For any other module it is read once: the answer is the first
fault, if there is one, and otherwise whether an island has the file. A list in another order gets
the same answer, or a fault as well. -/
theorem verdict_isIsland (id : String) :
    (ModuleId.isWholeComponent id = false → ∀ s : Session, s.isIsland id = (.ok false, s)) ∧
    (ModuleId.isWholeComponent id = true →
      (∀ s : Session, s.isIsland id =
        (s.components.isIsland id, { s with reads := s.reads + 1 })) ∧
      ∀ components : Registry,
        ((∃ e, components.isIsland id = .error e) ↔ components.HasFault) ∧
        (∀ e, components.isIsland id = .error e ↔ components.FirstFault e) ∧
        ∀ answer, components.isIsland id = .ok answer ↔
          ¬components.HasFault ∧ (answer = true ↔ components.HasIsland (ModuleId.file id))) ∧
    ∀ components others : Registry, components.Perm others →
      (∀ answer, components.isIsland id = .ok answer ↔ others.isIsland id = .ok answer) ∧
      ((∃ e, components.isIsland id = .error e) ↔ ∃ e, others.isIsland id = .error e) := by
  refine ⟨fun hid s => ?_, fun hid => ⟨fun s => ?_, fun components => ⟨?_, ?_, ?_⟩⟩,
    fun components others h => ?_⟩
  · rw [Session.isIsland, isIsland_of_not_isWholeComponent hid, Session.asked, hid]
    rfl
  · rw [Session.isIsland, Session.asked, if_pos hid]
  · simp only [isIsland_eq_error_iff hid, exists_firstFault_iff]
  · exact fun e => isIsland_eq_error_iff hid
  · exact fun answer => isIsland_eq_ok_iff hid
  · by_cases hid : ModuleId.isWholeComponent id = true
    · simp only [isIsland_eq_ok_iff hid, isIsland_eq_error_iff hid, exists_firstFault_iff,
        hasFault_of_perm h, hasIsland_of_perm h, implies_true, and_self]
    · have hid := Bool.eq_false_iff.2 hid
      simp only [isIsland_of_not_isWholeComponent hid, implies_true, and_self]

/-- A declared island, a component with two halves, and one that is rendered on the server only. -/
def mixedRegistry : Registry :=
  [⟨"Card", "/app/Card.vue", .all, true⟩, ⟨"Counter", "/app/Counter.server.vue", .server, false⟩,
    ⟨"Counter", "/app/Counter.client.vue", .client, false⟩,
    ⟨"Chart", "/app/Chart.server.vue", .server, false⟩]

/-- A module that is no component file, two islands and half of a component; and a list that names
a component twice and has one without a file behind it. -/
theorem verdict_isIsland_mixed :
    (∀ s : Session, s.isIsland "/app/main.ts" = (.ok false, s)) ∧
    mixedRegistry.isIsland "/app/./Chart.server.vue?macro" = .ok true ∧
    Registry.isIsland mixedRegistry.reverse "/app/./Chart.server.vue?macro" = .ok true ∧
    mixedRegistry.isIsland "/app/Counter.server.vue" = .ok false ∧
    Registry.isIsland (mixedRegistry ++ mixedRegistry ++ [⟨"Ghost", " ", .all, true⟩])
      "/app/Card.vue" = .error (.duplicate "Card" .all) := by
  have hfault : ¬mixedRegistry.HasFault := check_eq_ok_iff_not_hasFault.1 (by decide +kernel)
  obtain ⟨hother, -, -⟩ := verdict_isIsland "/app/main.ts"
  obtain ⟨-, hchart, hperm⟩ := verdict_isIsland "/app/./Chart.server.vue?macro"
  obtain ⟨-, hcounter, -⟩ := verdict_isIsland "/app/Counter.server.vue"
  obtain ⟨-, hcard, -⟩ := verdict_isIsland "/app/Card.vue"
  have hchart : mixedRegistry.isIsland "/app/./Chart.server.vue?macro" = .ok true := by
    refine (((hchart (by decide +kernel)).2 mixedRegistry).2.2 true).2 ⟨hfault, ?_⟩
    exact iff_of_true rfl ⟨⟨"Chart", "/app/Chart.server.vue", .server, false⟩, by decide,
      by decide +kernel, .inr (by decide)⟩
  refine ⟨hother (by decide +kernel), hchart, ?_, ?_, ?_⟩
  · exact ((hperm _ _ (List.reverse_perm mixedRegistry).symm).1 true).1 hchart
  · refine (((hcounter (by decide +kernel)).2 mixedRegistry).2.2 false).2 ⟨hfault, ?_⟩
    refine iff_of_false Bool.false_ne_true ?_
    rintro ⟨c, hc, hfile, hisland⟩
    revert c
    decide +kernel
  · refine (((hcard (by decide +kernel)).2 _).2.1 _).2 ?_
    exact ⟨mixedRegistry, ⟨"Card", "/app/Card.vue", .all, true⟩, _, rfl, hfault,
      .inr ⟨⟨"Card", "/app/Card.vue", .all, true⟩, by decide, rfl, rfl⟩, by decide +kernel⟩

end Registry

end Islands
