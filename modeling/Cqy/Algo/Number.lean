import Cqy.Foundation.Numeral

/-!
# Reading numbers

`algo::to_n` hands the whole string to `std::from_chars` and looks at the error code alone, so
whatever follows the digits is ignored.  Blanks and a plus sign in front are errors, a minus sign
is one for unsigned types.
-/

namespace Cqy.Algo

open Foundation Numeral

/-- An integer type of the source. -/
structure IntType where
  signed : Bool
  bits : ℕ
deriving DecidableEq

namespace IntType

def sizeT : IntType := ⟨false, 64⟩

def uint16 : IntType := ⟨false, 16⟩

def int32 : IntType := ⟨true, 32⟩

def min (T : IntType) : ℤ := if T.signed then -2 ^ (T.bits - 1) else 0

def max (T : IntType) : ℤ := if T.signed then 2 ^ (T.bits - 1) - 1 else 2 ^ T.bits - 1

end IntType

/-- `algo::to_n`. -/
def toN (T : IntType) (s : Bytes) : Option ℤ :=
  let negative := T.signed && s.head? == some 45
  let digits := (if negative then s.tail else s).takeWhile isDigit
  if digits = [] then none
  else
    let n : ℤ := if negative then -value digits else value digits
    if T.min ≤ n ∧ n ≤ T.max then some n else none

/-- `to_n` reads the number that the digits at the front denote, if the type has it. -/
theorem toN_eq_some_iff {T : IntType} {s : Bytes} {n : ℤ} :
    toN T s = some n ↔ (T.min ≤ n ∧ n ≤ T.max) ∧
      ((∃ ds, Leads ds s ∧ n = value ds) ∨
        T.signed = true ∧ ∃ ds t, s = 45 :: t ∧ Leads ds t ∧ n = -value ds) := by
  have hread (neg : Bool) (t : Bytes) :
      (if t.takeWhile isDigit = [] then none
        else
          let n : ℤ := if neg then -value (t.takeWhile isDigit) else value (t.takeWhile isDigit)
          if T.min ≤ n ∧ n ≤ T.max then some n else none) = some n ↔
        (T.min ≤ n ∧ n ≤ T.max) ∧
          ∃ ds, Leads ds t ∧ n = if neg then -(value ds : ℤ) else value ds := by
    constructor
    · intro h
      by_cases hne : t.takeWhile isDigit = []
      · rw [if_pos hne] at h
        exact absurd h (by simp)
      · rw [if_neg hne] at h
        dsimp only at h
        generalize hn : (if neg then -(value (t.takeWhile isDigit) : ℤ)
          else value (t.takeWhile isDigit)) = m at h
        split_ifs at h with hrange
        obtain rfl := Option.some.inj h
        exact ⟨hrange, _, leads_iff.mpr ⟨hne, rfl⟩, hn.symm⟩
    · rintro ⟨hrange, ds, hleads, rfl⟩
      obtain ⟨hne, rfl⟩ := leads_iff.mp hleads
      rw [if_neg hne]
      exact if_pos hrange
  unfold toN
  by_cases hneg : (T.signed && s.head? == some 45) = true
  · obtain ⟨hsigned, hhead⟩ : T.signed = true ∧ s.head? = some 45 := by simpa using hneg
    obtain ⟨t, rfl⟩ : ∃ t, s = 45 :: t := by
      cases s with
      | nil => exact absurd hhead (by simp)
      | cons b t => exact ⟨t, by simpa using hhead⟩
    have hnot (ds : Bytes) : ¬ Leads ds (45 :: t) := by
      rw [leads_iff]
      rintro ⟨hne, rfl⟩
      exact hne rfl
    simp only [hneg, if_true, List.tail_cons]
    refine (hread true t).trans (and_congr_right fun _ ↦ ?_)
    simp [hnot, hsigned]
  · have hplain : ¬ (T.signed = true ∧ ∃ ds t, s = 45 :: t ∧ Leads ds t ∧ n = -value ds) := by
      rintro ⟨hsigned, ds, t, rfl, -⟩
      exact hneg (by simp [hsigned])
    simp only [hneg]
    refine (hread false s).trans (and_congr_right fun _ ↦ ?_)
    simp [hplain]

/-- For an unsigned type there is no sign to read. -/
theorem toN_unsigned_iff {T : IntType} (hT : T.signed = false) {s : Bytes} {n : ℤ} :
    toN T s = some n ↔ ∃ ds, Leads ds s ∧ n = value ds ∧ value ds < 2 ^ T.bits := by
  rw [toN_eq_some_iff, IntType.min, IntType.max, hT]
  constructor
  · rintro ⟨⟨-, hle⟩, ⟨ds, hds, rfl⟩ | ⟨hsigned, -⟩⟩
    · refine ⟨ds, hds, rfl, ?_⟩
      have hlt : (value ds : ℤ) < 2 ^ T.bits := Int.lt_of_le_sub_one (by simpa using hle)
      exact_mod_cast hlt
    · exact absurd hsigned (by simp)
  · rintro ⟨ds, hds, rfl, hlt⟩
    refine ⟨⟨by simp, ?_⟩, Or.inl ⟨ds, hds, rfl⟩⟩
    have hlt' : (value ds : ℤ) < 2 ^ T.bits := by exact_mod_cast hlt
    simpa using Int.le_sub_one_of_lt hlt'

/-- `123a` and `a123`. -/
example : toN IntType.int32 [49, 50, 51, 97] = some 123 ∧
    toN IntType.int32 [97, 49, 50, 51] = none := by decide

end Cqy.Algo
