import JobGateway.Job.Key
import JobGateway.Proofs.Text.Split
import Mathlib.Data.List.Basic

/-! Keys whose parts hold no slash. Such a key can be told from its text, and whether its text begins
with that of a cluster and a role tells whether it names a job of them. -/
namespace JobGateway.JobKey

/-- The parts of a key, in the order of its text. -/
def parts : JobKey → List String
  | .role c r => [c, r]
  | .full c r e n => [c, r, e, n]

/-- No part of the key holds a slash. -/
def IsPlain (k : JobKey) : Prop := ∀ part ∈ k.parts, '/' ∉ part.toList

instance (k : JobKey) : Decidable k.IsPlain := inferInstanceAs (Decidable (∀ part ∈ k.parts, _))

variable {k k' : JobKey}

theorem IsPlain.cluster (h : k.IsPlain) : '/' ∉ k.cluster.toList :=
  h _ (by cases k <;> exact List.mem_cons_self)

theorem IsPlain.roleName (h : k.IsPlain) : '/' ∉ k.roleName.toList :=
  h _ (by cases k <;> exact List.mem_cons_of_mem _ List.mem_cons_self)

theorem parts_inj : k.parts = k'.parts ↔ k = k' := by
  cases k <;> cases k' <;> simp [parts]

/-- The parts of a plain key are the pieces of its text. -/
theorem split_text (h : k.IsPlain) : Text.split '/' k.text.toList = k.parts.map String.toList := by
  have htext : k.text.toList = ['/'].intercalate (k.parts.map String.toList) := by
    cases k <;> simp [text, roleText, fullText, parts, List.intercalate]
  rw [htext]
  refine Text.split_intercalate '/' ?_ (by cases k <;> simp [parts])
  intro piece hpiece
  obtain ⟨part, hpart, rfl⟩ := List.mem_map.1 hpiece
  exact h part hpart

/-- Plain keys with the same text are the same. -/
theorem text_inj (h : k.IsPlain) (h' : k'.IsPlain) : k.text = k'.text ↔ k = k' := by
  constructor
  · intro htext
    have hparts : k.parts.map String.toList = k'.parts.map String.toList := by
      rw [← split_text h, ← split_text h', htext]
    exact parts_inj.1 (List.map_injective_iff.2 (fun _ _ => String.toList_injective) hparts)
  · rintro rfl
    rfl

/-- The text of a plain key begins with a cluster, a role and a slash only if the key names one job of
this cluster and this role. -/
theorem text_eq_append_iff (h : k.IsPlain) {cluster role : String}
    (hcluster : '/' ∉ cluster.toList) (hrole : '/' ∉ role.toList) :
    (∃ rest, k.text = cluster ++ "/" ++ role ++ "/" ++ rest) ↔
      ∃ env name, k = .full cluster role env name := by
  constructor
  · rintro ⟨rest, hrest⟩
    have hchars : k.text.toList = cluster.toList ++ '/' :: (role.toList ++ '/' :: rest.toList) := by
      rw [hrest]
      simp
    have hparts := split_text h
    rw [hchars, Text.split_append_cons hcluster, Text.split_append_cons hrole] at hparts
    cases k with
    | role c r =>
      -- Two slashes make three pieces at least, and a role key has but two.
      simp [parts, Text.split_ne_nil] at hparts
    | full c r e n =>
      simp only [parts, List.map_cons, List.cons.injEq, String.toList_inj] at hparts
      obtain ⟨rfl, rfl, -⟩ := hparts
      exact ⟨e, n, rfl⟩
  · rintro ⟨env, name, rfl⟩
    exact ⟨env ++ "/" ++ name, by simp [text, fullText, String.append_assoc]⟩

end JobGateway.JobKey
