import Mathlib

/-!
# Lists in which every element is repeated

`repeatEach ks bs` lists the elements of `bs` in order, the `i`-th one `ks[i]` times over.  It
describes what a receiver sees of a sender that repeats each item until it is confirmed.
-/

namespace Foundation

variable {β : Type*}

def repeatEach (ks : List ℕ) (bs : List β) : List β :=
  (List.zipWith List.replicate ks bs).flatten

@[simp] theorem repeatEach_nil (ks : List ℕ) : repeatEach ks ([] : List β) = [] := by
  simp [repeatEach]

theorem repeatEach_concat {ks : List ℕ} {bs : List β} (h : ks.length = bs.length) (k : ℕ) (b : β) :
    repeatEach (ks ++ [k]) (bs ++ [b]) = repeatEach ks bs ++ List.replicate k b := by
  rw [repeatEach, repeatEach, List.zipWith_append h]
  simp

end Foundation
