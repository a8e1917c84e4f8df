import Mathlib.Data.List.Nodup
import Islands.Registry.Component

/-!
# Consistent registries

A list of components is accepted exactly if every component has a file and none is named twice in
one mode (`Registry.check_eq_ok_iff`). So a name and a mode stand for one component.
-/

namespace Islands

/-- What tells a component from the others of a registry. -/
def Component.identity (c : Component) : String × Mode := (c.name, c.mode)

namespace Registry

/-- The rest of a list is accepted if it is by itself, and names nothing that was before. -/
theorem checkFrom_eq_ok_iff {seen : List (String × Mode)} {components : Registry} :
    checkFrom seen components = .ok () ↔
      (∀ c ∈ components, c.lacksFile = false ∧ c.identity ∉ seen) ∧
        (components.map Component.identity).Nodup := by
  induction components generalizing seen with
  | nil => simp [checkFrom]
  | cons c cs ih =>
    rw [checkFrom]
    by_cases hfile : c.lacksFile = true
    · simp [hfile]
    · by_cases hseen : (c.name, c.mode) ∈ seen
      · simp [hfile, hseen, Component.identity]
      · rw [if_neg hfile, if_neg hseen, ih, List.forall_mem_cons, List.map_cons, List.nodup_cons]
        have hfirst : c.lacksFile = false ∧ c.identity ∉ seen := ⟨Bool.eq_false_iff.2 hfile, hseen⟩
        constructor
        · rintro ⟨hrest, hnodup⟩
          refine ⟨⟨hfirst, fun d hd => ⟨(hrest d hd).1, ?_⟩⟩, ?_, hnodup⟩
          · exact fun hmem => (hrest d hd).2 (List.mem_cons_of_mem _ hmem)
          · intro hmem
            obtain ⟨d, hd, hsame⟩ := List.mem_map.1 hmem
            exact (hrest d hd).2 (hsame ▸ List.mem_cons_self)
        · rintro ⟨⟨-, hrest⟩, hnew, hnodup⟩
          refine ⟨fun d hd => ⟨(hrest d hd).1, fun hmem => ?_⟩, hnodup⟩
          rcases List.mem_cons.1 hmem with hsame | hmem
          · exact hnew (List.mem_map.2 ⟨d, hd, hsame⟩)
          · exact (hrest d hd).2 hmem

/-- **A consistent registry**: every component has a file, and none is named twice in one mode. -/
theorem check_eq_ok_iff {components : Registry} :
    components.check = .ok () ↔
      (∀ c ∈ components, c.lacksFile = false) ∧ (components.map Component.identity).Nodup := by
  rw [check, checkFrom_eq_ok_iff]
  simp only [List.not_mem_nil, not_false_eq_true, and_true]

theorem eq_of_identity_eq {components : Registry} (h : components.check = .ok ())
    {c d : Component} (hc : c ∈ components) (hd : d ∈ components)
    (hsame : c.identity = d.identity) : c = d :=
  List.inj_on_of_nodup_map (check_eq_ok_iff.1 h).2 hc hd hsame

end Registry

end Islands
