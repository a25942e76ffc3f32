import Cqy.Foundation.Bytes

/-!
# Decimal numerals in byte strings

A numeral is a non-empty string of ASCII digits, the most significant first.  Leading zeros are
allowed when one is read, and are not written.
-/

namespace Foundation.Numeral

open Foundation

def isDigit (b : UInt8) : Bool := decide (48 ≤ b ∧ b ≤ 57)

/-- The number that the digits denote, accumulated from the left. -/
def value (ds : Bytes) : ℕ := ds.foldl (fun n d ↦ 10 * n + (d.toNat - 48)) 0

/-- The byte of a digit below 10. -/
def digit (d : ℕ) : UInt8 := UInt8.ofNat (48 + d)

/-- The numeral of a number, without leading zeros. -/
def write (n : ℕ) : Bytes := if n = 0 then [48] else ((Nat.digits 10 n).map digit).reverse

/-- `s` begins with the digits `ds`, at least one, and goes on with something else. -/
structure Leads (ds s : Bytes) : Prop where
  ne_nil : ds ≠ []
  digits : ∀ d ∈ ds, isDigit d = true
  rest : ∃ rest, s = ds ++ rest ∧ ∀ b ∈ rest.head?, isDigit b = false

theorem toNat_digit {d : ℕ} (hd : d < 10) : (digit d).toNat = 48 + d := by
  rw [digit, UInt8.toNat_ofNat']
  exact Nat.mod_eq_of_lt (by omega)

theorem isDigit_digit {d : ℕ} (hd : d < 10) : isDigit (digit d) = true := by
  have h := toNat_digit hd
  simp only [isDigit, decide_eq_true_eq, UInt8.le_iff_toNat_le, h]
  exact ⟨by simp, by simp; omega⟩

theorem value_eq_ofDigits (ds : Bytes) :
    value ds = Nat.ofDigits 10 (ds.reverse.map fun d ↦ d.toNat - 48) := by
  rw [value, ← List.foldr_reverse]
  induction ds.reverse with
  | nil => rfl
  | cons d ds ih =>
    rw [List.foldr_cons, List.map_cons, Nat.ofDigits_cons, ih, Nat.add_comm]

theorem value_write (n : ℕ) : value (write n) = n := by
  unfold write
  split_ifs with hn
  · exact hn.symm
  · have hread (d : ℕ) (hd : d ∈ Nat.digits 10 n) : (digit d).toNat - 48 = d := by
      have h := toNat_digit (Nat.digits_lt_base (by norm_num) hd)
      omega
    calc value ((Nat.digits 10 n).map digit).reverse
        = Nat.ofDigits 10 ((Nat.digits 10 n).map fun d ↦ (digit d).toNat - 48) := by
          rw [value_eq_ofDigits, List.reverse_reverse, List.map_map]
          rfl
      _ = Nat.ofDigits 10 (Nat.digits 10 n) := by rw [List.map_congr_left hread, List.map_id']
      _ = n := Nat.ofDigits_digits 10 n

theorem write_ne_nil (n : ℕ) : write n ≠ [] := by
  unfold write
  split_ifs with hn
  · simp
  · simpa using Nat.digits_ne_nil_iff_ne_zero.mpr hn

theorem isDigit_of_mem_write {n : ℕ} {b : UInt8} (hb : b ∈ write n) : isDigit b = true := by
  unfold write at hb
  split_ifs at hb
  · rw [List.mem_singleton.mp hb]
    decide
  · obtain ⟨d, hd, rfl⟩ := List.mem_map.mp (List.mem_reverse.mp hb)
    exact isDigit_digit (Nat.digits_lt_base (by norm_num) hd)

theorem leads_write (n : ℕ) : Leads (write n) (write n) :=
  ⟨write_ne_nil n, fun _ ↦ isDigit_of_mem_write, [], (List.append_nil _).symm, by simp⟩

/-- The digits at the front are what `takeWhile` takes. -/
theorem leads_iff {ds s : Bytes} : Leads ds s ↔ ds ≠ [] ∧ ds = s.takeWhile isDigit := by
  constructor
  · rintro ⟨hne, hdigits, rest, rfl, hrest⟩
    refine ⟨hne, ?_⟩
    rw [List.takeWhile_append_of_pos hdigits]
    cases rest with
    | nil => simp
    | cons b rest => simp [hrest b rfl]
  · rintro ⟨hne, rfl⟩
    refine ⟨hne, fun d hd ↦ List.mem_takeWhile_imp hd, s.dropWhile isDigit,
      List.takeWhile_append_dropWhile.symm, fun b hb ↦ ?_⟩
    have h := List.head?_dropWhile_not isDigit s
    rwa [Option.mem_def.mp hb] at h

end Foundation.Numeral
