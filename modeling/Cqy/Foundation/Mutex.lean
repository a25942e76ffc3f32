import Mathlib

/-!
# The owned mutex

A spin lock is one flag: taking it needs the flag to be clear, and giving it back clears the flag,
whoever does it.  The mutex that programs expect has an owner, and only the owner can give it back.
What has to be shown of the clients of a spin lock is that their lock events are a run of the mutex.
-/

namespace Foundation.Mutex

variable {α : Type*}

inductive Event (α : Type*) where
  | lock (a : α)
  | unlock (a : α)
deriving DecidableEq

/-- The owned mutex: the state is the owner. -/
def step [DecidableEq α] : Option α → Event α → Option (Option α)
  | none, .lock a => some (some a)
  | some b, .unlock a => if a = b then some none else none
  | _, _ => none

theorem step_lock [DecidableEq α] (a : α) : step none (.lock a) = some (some a) := rfl

theorem step_unlock [DecidableEq α] (a : α) : step (some a) (.unlock a) = some none := by
  simp [step]

/-! ## The flag and its owner -/

section Owns

variable {flag : Bool} {holds holds' : α → Prop} {owner : Option α} {a b : α}

/-- The flag is set when there is an owner, and the owner is who holds the lock. -/
def Owns (flag : Bool) (holds : α → Prop) (owner : Option α) : Prop :=
  flag = owner.isSome ∧ ∀ a, holds a ↔ owner = some a

theorem Owns.eq_none (h : Owns flag holds owner) (hfree : flag = false) : owner = none := by
  simpa [hfree] using h.1

theorem Owns.eq_some (h : Owns flag holds owner) (ha : holds a) : owner = some a := (h.2 a).mp ha

theorem Owns.not_holds (h : Owns flag holds owner) (hfree : flag = false) (a : α) : ¬ holds a := by
  rw [h.2, h.eq_none hfree]
  exact (Option.some_ne_none a).symm

/-- Nobody else holds the lock. -/
theorem Owns.eq (h : Owns flag holds owner) (ha : holds a) (hb : holds b) : a = b :=
  Option.some.inj ((h.eq_some ha).symm.trans (h.eq_some hb))

theorem Owns.keep (h : Owns flag holds owner) (hholds : ∀ b, holds' b ↔ holds b) :
    Owns flag holds' owner :=
  ⟨h.1, fun b ↦ (hholds b).trans (h.2 b)⟩

/-- A client that takes the lock while the flag is clear. -/
theorem Owns.acquire (h : Owns flag holds owner) (hfree : flag = false) (ha : holds' a)
    (hothers : ∀ b ≠ a, holds' b ↔ holds b) : Owns true holds' (some a) := by
  refine ⟨rfl, fun b ↦ ?_⟩
  by_cases hb : b = a
  · simp [hb, ha]
  · rw [hothers b hb, Option.some_inj]
    exact iff_of_false (h.not_holds hfree b) (Ne.symm hb)

/-- The client that holds the lock gives it back. -/
theorem Owns.release (h : Owns flag holds owner) (ha : holds a) (ha' : ¬ holds' a)
    (hothers : ∀ b ≠ a, holds' b ↔ holds b) : Owns false holds' none := by
  refine ⟨rfl, fun b ↦ ?_⟩
  by_cases hb : b = a
  · rw [hb]
    exact iff_of_false ha' (Option.some_ne_none a).symm
  · rw [hothers b hb]
    exact iff_of_false (fun hheld ↦ hb (h.eq hheld ha)) (Option.some_ne_none b).symm

end Owns

end Foundation.Mutex
