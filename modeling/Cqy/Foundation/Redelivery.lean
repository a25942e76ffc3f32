import Mathlib

/-!
# Delivery in order and at least once

A sender that repeats what has not been confirmed hands the same element over several times.
`Redelivery xs ys` says that `ys` is what arrives of `xs` then: each element is the next one of
`xs` or one that has arrived before, so the first arrivals are `xs` itself.
-/

namespace Foundation

variable {α : Type*}

inductive Redelivery : List α → List α → Prop
  | nil : Redelivery [] []
  | fresh {xs ys : List α} (h : Redelivery xs ys) (x : α) : Redelivery (xs ++ [x]) (ys ++ [x])
  | again {xs ys : List α} (h : Redelivery xs ys) {x : α} (hx : x ∈ xs) : Redelivery xs (ys ++ [x])

namespace Redelivery

variable {xs ys zs ps : List α}

theorem refl (xs : List α) : Redelivery xs xs := by
  induction xs using List.reverseRecOn with
  | nil => exact nil
  | append_singleton xs x ih => exact ih.fresh x

/-- Nothing is missing, and the order is kept. -/
theorem sublist (h : Redelivery xs ys) : xs.Sublist ys := by
  induction h with
  | nil => exact List.Sublist.refl []
  | fresh _ x ih => exact ih.append (List.Sublist.refl [x])
  | again _ _ ih => exact ih.trans (List.sublist_append_left _ _)

theorem mem_iff (h : Redelivery xs ys) {a : α} : a ∈ ys ↔ a ∈ xs := by
  induction h with
  | nil => rfl
  | fresh _ x ih => rw [List.mem_append, List.mem_append, ih]
  | again _ hx ih =>
    rw [List.mem_append, ih, List.mem_singleton, or_iff_left_iff_imp]
    rintro rfl
    exact hx

/-- What has arrived at an earlier time. -/
theorem exists_prefix (h : Redelivery xs ys) (hzs : zs <+: ys) :
    ∃ ws, ws <+: xs ∧ Redelivery ws zs := by
  induction h with
  | nil => exact ⟨[], List.prefix_rfl, List.prefix_nil.mp hzs ▸ nil⟩
  | fresh h x ih =>
    rcases List.prefix_concat_iff.mp hzs with rfl | hzs
    · exact ⟨_, List.prefix_rfl, h.fresh x⟩
    · obtain ⟨ws, hws, hred⟩ := ih hzs
      exact ⟨ws, hws.trans (List.prefix_append _ _), hred⟩
  | again h hx ih =>
    rcases List.prefix_concat_iff.mp hzs with rfl | hzs
    · exact ⟨_, List.prefix_rfl, h.again hx⟩
    · exact ih hzs

/-- The rule for one arrival: whoever hands over the element of `ps` that follows `zs`, when `zs`
has arrived, repeats an element or hands over the next one. -/
theorem exists_next (h : Redelivery xs ys) (hxs : xs <+: ps) (hzs : zs <+: xs) {x : α}
    (hx : zs ++ [x] <+: ps) :
    ∃ xs', xs <+: xs' ∧ xs' <+: ps ∧ zs ++ [x] <+: xs' ∧ Redelivery xs' (ys ++ [x]) ∧
      (xs = zs → xs' = zs ++ [x]) := by
  rcases List.prefix_or_prefix_of_prefix hxs hx with hle | hle
  · rcases List.prefix_concat_iff.mp hle with rfl | hle
    · refine ⟨_, List.prefix_rfl, hxs, List.prefix_rfl, h.again (by simp), fun heq ↦ ?_⟩
      exact absurd (congrArg List.length heq) (by simp)
    · obtain rfl : xs = zs := hle.eq_of_length_le hzs.length_le
      exact ⟨_, List.prefix_append _ _, hx, List.prefix_rfl, h.fresh x, fun _ ↦ rfl⟩
  · refine ⟨xs, List.prefix_rfl, hxs, hle, h.again (hle.subset (by simp)), fun heq ↦ ?_⟩
    exact absurd hle.length_le (by simp [heq])

end Redelivery

end Foundation
