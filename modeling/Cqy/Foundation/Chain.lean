import Mathlib

/-!
# Chains on a finite type

A chain follows a relation from one element to the next.  On a finite type every chain from an
element ends, as `Acc` says it, when no element that can be reached lies on a cycle.
-/

namespace Foundation.Chain

open Relation

variable {α : Type*} {r : α → α → Prop} {a b : α}

/-- No element that can be reached from `a` lies on a cycle. -/
def Acyclic (r : α → α → Prop) (a : α) : Prop := ∀ b, ReflTransGen r a b → ¬ TransGen r b b

theorem not_transGen_self_of_acc (h : Acc (flip r) a) : ¬ TransGen r a a := by
  induction h with
  | intro a _ ih =>
    intro hcycle
    obtain ⟨b, hab, hba⟩ := TransGen.head'_iff.mp hcycle
    exact ih b hab (TransGen.tail' hba hab)

theorem acyclic_of_acc (h : Acc (flip r) a) : Acyclic r a := by
  intro b hab
  induction hab using ReflTransGen.head_induction_on with
  | refl => exact not_transGen_self_of_acc h
  | head hab _ ih => exact ih (h.inv hab)

/-- Among the elements that can be reached, being further on is a strict order. -/
theorem acc_of_acyclic [Finite α] (h : Acyclic r a) : Acc (flip r) a := by
  let further (b c : α) : Prop := ReflTransGen r a c ∧ TransGen r c b
  have htrans : IsTrans α further :=
    ⟨fun _ _ _ hbc hcd ↦ ⟨hcd.1, hcd.2.trans hbc.2⟩⟩
  have hirrefl : Std.Irrefl further := ⟨fun b hb ↦ h b hb.1 hb.2⟩
  have hwf : WellFounded further := Finite.wellFounded_of_trans_of_irrefl further
  have hreach (b : α) : ReflTransGen r a b → Acc (flip r) b := by
    induction b using hwf.induction with
    | h b ih =>
      intro hab
      refine Acc.intro b fun c hbc ↦ ?_
      exact ih c ⟨hab, TransGen.single hbc⟩ (hab.tail hbc)
  exact hreach a ReflTransGen.refl

theorem acc_iff_acyclic [Finite α] : Acc (flip r) a ↔ Acyclic r a :=
  ⟨acyclic_of_acc, acc_of_acyclic⟩

end Foundation.Chain
