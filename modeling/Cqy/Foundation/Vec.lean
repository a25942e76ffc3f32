import Mathlib

/-!
# Vectors

The operations of a `std::vector` on a list of its elements.  An access with an index out of range
has no value.
-/

namespace Foundation.Vec

variable {α : Type*}

/-- `std::vector::resize`. -/
def resize (l : List α) (n : ℕ) (a : α) : List α :=
  l.take n ++ List.replicate (n - l.length) a

/-- Assignment to an element of a vector. -/
def assign (l : List α) (i : ℕ) (a : α) : Option (List α) :=
  if i < l.length then some (l.set i a) else none

@[simp] theorem length_resize (l : List α) (n : ℕ) (a : α) : (resize l n a).length = n := by
  simp only [resize, List.length_append, List.length_take, List.length_replicate]
  omega

/-- One more element. -/
theorem resize_succ (l : List α) (a : α) : resize l (l.length + 1) a = l ++ [a] := by
  simp [resize, List.take_of_length_le]

theorem getElem?_resize (l : List α) {n i : ℕ} (a : α) (hi : i < n) :
    (resize l n a)[i]? = some (l[i]?.getD a) := by
  by_cases hl : i < l.length
  · have htake : i < (l.take n).length := by
      rw [List.length_take]
      omega
    rw [resize, List.getElem?_append_left htake, List.getElem?_take_of_lt hi,
      List.getElem?_eq_getElem hl, Option.getD_some]
  · have htake : (l.take n).length = l.length := by
      rw [List.length_take]
      omega
    rw [resize, List.getElem?_append_right (by omega), htake, List.getElem?_replicate,
      if_pos (by omega), List.getElem?_eq_none (by omega), Option.getD_none]

theorem assign_eq_some_iff {l l' : List α} {i : ℕ} {a : α} :
    assign l i a = some l' ↔ i < l.length ∧ l' = l.set i a := by
  rw [assign]
  split_ifs with hi <;> simp [hi, eq_comm]

/-- An element that is there is replaced, and no other. -/
theorem getElem?_set_of_some {l : List α} {i : ℕ} {a : α} (h : l[i]? = some a) (b : α) (j : ℕ) :
    (l.set i b)[j]? = if j = i then some b else l[j]? := by
  split_ifs with hj
  · rw [hj, List.getElem?_set_self (List.getElem?_eq_some_iff.mp h).1]
  · exact List.getElem?_set_ne (Ne.symm hj)

/-- The other elements stay. -/
theorem mem_set_of_ne {l : List α} {i : ℕ} {a x : α} (h : l[i]? = some a) (hx : x ∈ l) (hne : x ≠ a)
    (b : α) : x ∈ l.set i b := by
  obtain ⟨j, hj⟩ := List.mem_iff_getElem?.mp hx
  have hji : j ≠ i := by
    rintro rfl
    exact hne (Option.some.inj (hj.symm.trans h))
  refine List.mem_iff_getElem?.mpr ⟨j, ?_⟩
  rw [getElem?_set_of_some h, if_neg hji, hj]

/-- Replacing an element exchanges its share of a sum. -/
theorem sum_map_set (f : α → ℕ) {l : List α} {i : ℕ} {a : α} (h : l[i]? = some a) (b : α) :
    ((l.set i b).map f).sum + f a = (l.map f).sum + f b := by
  obtain ⟨hi, rfl⟩ := List.getElem?_eq_some_iff.mp h
  have hsplit : (l.map f).sum = ((l.take i).map f).sum + (f l[i] + ((l.drop (i + 1)).map f).sum) := by
    conv_lhs => rw [← List.take_append_drop i l, List.drop_eq_getElem_cons hi]
    rw [List.map_append, List.sum_append, List.map_cons, List.sum_cons]
  rw [hsplit, List.set_eq_take_append_cons_drop, if_pos hi, List.map_append, List.sum_append,
    List.map_cons, List.sum_cons]
  omega

theorem mem_eraseIdx_of_ne {l : List α} {i : ℕ} {a x : α} (h : l[i]? = some a) (hx : x ∈ l)
    (hne : x ≠ a) : x ∈ l.eraseIdx i := by
  obtain ⟨j, hj⟩ := List.mem_iff_getElem?.mp hx
  have hji : j ≠ i := by
    rintro rfl
    exact hne (Option.some.inj (hj.symm.trans h))
  exact List.mem_eraseIdx_iff_getElem?.mpr ⟨j, hji, hj⟩

end Foundation.Vec
