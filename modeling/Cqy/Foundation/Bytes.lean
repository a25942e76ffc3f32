import Mathlib

/-!
# Byte strings as little-endian memory

A byte string is read at offsets, as single bytes or as little-endian 32-bit words, and is
overwritten in place.  A `View` is a pointer with a length: it may denote bytes outside the
string, so that being inside is a statement about it and not a property of its type.
-/

namespace Foundation

abbrev Bytes := List UInt8

instance linearOrderUInt8 : LinearOrder UInt8 where
  le_refl _ := UInt8.le_refl _
  le_trans _ _ _ := UInt8.le_trans
  le_antisymm _ _ := UInt8.le_antisymm
  le_total := UInt8.le_total
  lt_iff_le_not_ge a b := by
    simp only [UInt8.lt_iff_toNat_lt, UInt8.le_iff_toNat_le]
    omega
  toDecidableLE := inferInstance
  toDecidableLT := inferInstance

namespace Bytes

/-! ## Reading -/

/-- The byte at an offset; memory past the end reads as zero. -/
def loadByte (s : Bytes) (off : ℕ) : UInt8 := s.getD off 0

/-- The 32-bit word whose least significant byte stands at `off`. -/
def loadWord (s : Bytes) (off : ℕ) : UInt32 :=
  UInt32.ofNat ((loadByte s off).toNat + 256 * (loadByte s (off + 1)).toNat +
    65536 * (loadByte s (off + 2)).toNat + 16777216 * (loadByte s (off + 3)).toNat)

/-- The four bytes of a word, least significant first. -/
def wordBytes (x : UInt32) : Bytes :=
  [x.toUInt8, (x >>> 8).toUInt8, (x >>> 16).toUInt8, (x >>> 24).toUInt8]

@[simp] theorem length_wordBytes (x : UInt32) : (wordBytes x).length = 4 := rfl

@[simp] theorem loadByte_append_right (pre s : Bytes) (i : ℕ) :
    loadByte (pre ++ s) (pre.length + i) = loadByte s i := by
  rw [loadByte, loadByte, List.getD_append_right _ _ _ _ (Nat.le_add_right _ _),
    Nat.add_sub_cancel_left]

theorem loadWord_append_right (pre s : Bytes) (i : ℕ) :
    loadWord (pre ++ s) (pre.length + i) = loadWord s i := by
  simp only [loadWord, Nat.add_assoc, loadByte_append_right]

theorem loadWord_wordBytes (x : UInt32) (post : Bytes) : loadWord (wordBytes x ++ post) 0 = x := by
  apply UInt32.toNat_inj.mp
  have hx := x.toNat_lt
  simp [loadWord, loadByte, wordBytes, Nat.shiftRight_eq_div_pow]
  omega

/-- A word is read back from where it stands. -/
theorem loadWord_append (pre : Bytes) (x : UInt32) (post : Bytes) :
    loadWord (pre ++ (wordBytes x ++ post)) pre.length = x := by
  rw [← Nat.add_zero pre.length, loadWord_append_right, loadWord_wordBytes]

/-! ## Writing -/

/-- Overwrite the bytes from `off` on with `d`. -/
def write (s : Bytes) (off : ℕ) (d : Bytes) : Bytes := s.take off ++ d ++ s.drop (off + d.length)

/-- Change the length to `n`; the bytes gained are whatever `fill` says the memory held. -/
def resize (fill : ℕ → UInt8) (s : Bytes) (n : ℕ) : Bytes :=
  s.take n ++ (List.range (n - s.length)).map fill

@[simp] theorem length_resize (fill : ℕ → UInt8) (s : Bytes) (n : ℕ) :
    (resize fill s n).length = n := by
  simp only [resize, List.length_append, List.length_take, List.length_map, List.length_range]
  omega

theorem length_write (s : Bytes) {off : ℕ} {d : Bytes} (h : off + d.length ≤ s.length) :
    (write s off d).length = s.length := by
  simp only [write, List.length_append, List.length_take, List.length_drop]
  omega

/-- Writing at the end of the prefix `pre` leaves `pre` and what follows the written bytes. -/
theorem write_append (pre mid post d : Bytes) (h : mid.length = d.length) :
    write (pre ++ mid ++ post) pre.length d = pre ++ d ++ post := by
  simp [write, ← h]

/-- Two writes that meet are one write. -/
theorem write_write (s a b : Bytes) {off : ℕ} (h : off ≤ s.length) :
    write (write s off a) (off + a.length) b = write s off (a ++ b) := by
  have hpre : (s.take off ++ a).length = off + a.length := by
    rw [List.length_append, List.length_take, Nat.min_eq_left h]
  have hdrop : (s.take off ++ a).drop (off + a.length + b.length) = [] :=
    List.drop_eq_nil_of_le (by omega)
  rw [write, write, ← hpre, List.take_left, hpre, List.drop_append, hdrop, List.drop_drop, hpre,
    Nat.add_sub_cancel_left]
  simp [write, Nat.add_assoc]

/-! ## Views -/

/-- A pointer and a length, relative to the start of a string. -/
structure View where
  off : ℕ
  size : ℕ
deriving DecidableEq

namespace View

/-- The bytes a view denotes, as far as the string has them. -/
def read (v : View) (s : Bytes) : Bytes := (s.drop v.off).take v.size

/-- Every byte of the view lies in the half-open range from `lo` to `hi`. -/
def Within (v : View) (lo hi : ℕ) : Prop := lo ≤ v.off ∧ v.off + v.size ≤ hi

instance (v : View) (lo hi : ℕ) : Decidable (v.Within lo hi) := by
  unfold Within
  infer_instance

theorem read_append (pre d post : Bytes) :
    View.read ⟨pre.length, d.length⟩ (pre ++ d ++ post) = d := by
  simp [read]

theorem read_append_end (pre d : Bytes) : View.read ⟨pre.length, d.length⟩ (pre ++ d) = d := by
  simp [read]

@[simp] theorem read_empty (off : ℕ) (s : Bytes) : View.read ⟨off, 0⟩ s = [] := by
  simp [read]

/-- Two views that meet read like the one view that covers both. -/
theorem read_adjacent (s : Bytes) (off first second : ℕ) :
    View.read ⟨off, first⟩ s ++ View.read ⟨off + first, second⟩ s =
      View.read ⟨off, first + second⟩ s := by
  simp only [read, List.take_add, List.drop_drop]

theorem read_one (s : Bytes) {off : ℕ} (h : off < s.length) :
    View.read ⟨off, 1⟩ s = [loadByte s off] := by
  simp [read, loadByte, List.getD_eq_getElem?_getD, h, List.take_one, List.head?_drop]

end View

end Bytes

end Foundation
