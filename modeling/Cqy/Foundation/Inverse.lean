import Mathlib

/-!
# Two tables that are inverse

A partial injection kept as a table in each direction.  A pair is taken out of both tables, and put
into both; the tables stay inverse unless the new pair hides an old one.
-/

namespace Foundation

variable {α β : Type*} {f : α → Option β} {g : β → Option α}

/-- Each table says what the other says. -/
def Inverse (f : α → Option β) (g : β → Option α) : Prop := ∀ a b, f a = some b ↔ g b = some a

namespace Inverse

theorem nothing : Inverse (fun _ : α ↦ (none : Option β)) (fun _ : β ↦ none) := by simp [Inverse]

theorem symm (h : Inverse f g) : Inverse g f := fun b a ↦ (h a b).symm

variable [DecidableEq α] [DecidableEq β] {a : α} {b : β}

/-- A pair is taken out. -/
theorem erase (h : Inverse f g) (hab : f a = some b) :
    Inverse (Function.update f a none) (Function.update g b none) := by
  intro a' b'
  simp only [Function.update_apply]
  by_cases ha : a' = a
  · subst ha
    by_cases hb : b' = b
    · simp [hb]
    · have hne : ¬ g b' = some a' := fun hg ↦ by
        have hf := (h a' b').mpr hg
        rw [hab, Option.some_inj] at hf
        exact hb hf.symm
      simp [hb, hne]
  · by_cases hb : b' = b
    · subst hb
      have hne : ¬ f a' = some b' := fun hf ↦ by
        have hg := (h a' b').mp hf
        rw [(h a b').mp hab, Option.some_inj] at hg
        exact ha hg.symm
      simp [ha, hne]
    · simp [ha, hb, h a' b']

/-- A pair is put in that the second table does not know: the tables stay inverse exactly if the
first one does not know it either. -/
theorem insert_iff (h : Inverse f g) (hb : g b = none) :
    Inverse (Function.update f a (some b)) (Function.update g b (some a)) ↔ f a = none := by
  constructor
  · intro h'
    cases hfa : f a with
    | none => rfl
    | some b' =>
      have hgb' := (h a b').mp hfa
      have hne : b' ≠ b := fun heq ↦ by simp [heq, hb] at hgb'
      have hold := (h' a b').mpr (by rw [Function.update_of_ne hne, hgb'])
      rw [Function.update_self, Option.some_inj] at hold
      exact absurd hold.symm hne
  · intro hfa a' b'
    simp only [Function.update_apply]
    by_cases ha : a' = a
    · subst ha
      by_cases hb' : b' = b
      · simp [hb']
      · have hne : ¬ g b' = some a' := fun hg ↦ by
          rw [(h a' b').mpr hg] at hfa
          exact absurd hfa (by simp)
        simp [hb', hne, Ne.symm hb']
    · by_cases hb' : b' = b
      · subst hb'
        have hne : ¬ f a' = some b' := fun hf ↦ by
          rw [(h a' b').mp hf] at hb
          exact absurd hb (by simp)
        simp [ha, hne, Ne.symm ha]
      · simp [ha, hb', h a' b']

end Inverse

end Foundation
