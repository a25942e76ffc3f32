import Mathlib

/-!
# Lists whose elements have distinct keys
-/

namespace Foundation

/-- In a list without repeated keys, the filter of a key that occurs is one element. -/
theorem filter_key_eq_singleton {α β : Type*} [DecidableEq β] {f : α → β} {l : List α} {a : α}
    (hnodup : (l.map f).Nodup) (ha : a ∈ l) : (l.filter fun b ↦ f b = f a) = [a] := by
  induction l with
  | nil => exact absurd ha (by simp)
  | cons b l ih =>
    rw [List.map_cons, List.nodup_cons] at hnodup
    rw [List.filter_cons]
    rcases List.mem_cons.mp ha with rfl | hmem
    · rw [if_pos (by simp), List.filter_eq_nil_iff.mpr]
      intro b hb heq
      exact hnodup.1 (List.mem_map.mpr ⟨b, hb, by simpa using heq⟩)
    · have hne : f b ≠ f a := fun heq ↦ hnodup.1 (List.mem_map.mpr ⟨a, hmem, heq.symm⟩)
      rw [if_neg (by simpa using hne)]
      exact ih hnodup.2 hmem

/-- A map with other values. -/
def mapValues {α β γ : Type*} (f : α → β → γ) (l : AList fun _ : α ↦ β) : AList fun _ : α ↦ γ :=
  ⟨l.entries.map (Sigma.map id f), l.nodupKeys.map₂ f⟩

theorem lookup_mapValues {α β γ : Type*} [DecidableEq α] (f : α → β → γ)
    (l : AList fun _ : α ↦ β) (a : α) : (mapValues f l).lookup a = (l.lookup a).map (f a) :=
  List.dlookup_map₂ a

end Foundation
