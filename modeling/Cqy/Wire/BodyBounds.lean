import Cqy.Wire.Message

/-!
# Which accepted frames keep their accessors inside the body

`parse(true)` compares the `len` member with the real size of the string, and the name's length
byte with the real size too.  The accessors measure the name against `len`.  A frame whose bytes
go on past `len` can therefore pass with a name that does not fit into `len`: `buffer` then
subtracts past zero.  This module states what staying inside means and shows that the missing
comparison is exactly what decides it.
-/

namespace Cqy.CqyStr

open Foundation Foundation.Bytes

/-- Everything the accessors hand out lies in the `len` bytes after the header. -/
structure BodyInside (s : CqyStr) : Prop where
  header : headerSize ≤ s.length
  body : s.end ≤ s.length
  name : (msg s).route = true → s.name.Within headerSize s.end
  buffer : s.buffer.Within headerSize s.end
  /-- The length byte, the name and the buffer follow each other and reach the end. -/
  adjacent : (msg s).route = true → s.name.off = headerSize + 1 ∧
    s.buffer.off = s.name.off + s.name.size ∧ s.buffer.off + s.buffer.size = s.end
  /-- Read one after the other they are the body. -/
  tiles : View.read ⟨headerSize, (msg s).len.toNat⟩ s =
    (if (msg s).route then s.nameSize :: s.name.read s else []) ++ s.buffer.read s
  no_underflow : (msg s).route = true → 1 + s.nameSize.toNat ≤ (msg s).len.toNat

/-- The comparison that `parse` makes with the size of the string, made with `len`: when the frame
is long enough for `len` and for its name, `len` covers the length byte and the name. -/
def LenCoversName (s : CqyStr) : Prop :=
  headerSize ≤ s.length → (msg s).len.toNat ≤ s.length - headerSize →
    (msg s).route = true → s.nameSize.toNat + 1 ≤ s.length - headerSize →
      s.nameSize.toNat + 1 ≤ (msg s).len.toNat

instance (s : CqyStr) : Decidable (LenCoversName s) := by
  unfold LenCoversName
  infer_instance

/-- Without underflow the subtraction of `buffer` is the one on natural numbers. -/
theorem buffer_size_of_le {s : CqyStr} (hroute : (msg s).route = true)
    (h : s.nameSize.toNat + 1 ≤ (msg s).len.toNat) :
    s.buffer.size = (msg s).len.toNat - 1 - s.nameSize.toNat := by
  have hone : (1 : UInt32) ≤ (msg s).len := by
    rw [UInt32.le_iff_toNat_le, UInt32.toNat_one]
    omega
  have hname : s.nameSize.toUInt32 ≤ (msg s).len - 1 := by
    rw [UInt32.le_iff_toNat_le, UInt32.toNat_sub_of_le _ _ hone, UInt8.toNat_toUInt32,
      UInt32.toNat_one]
    omega
  simp only [buffer, hroute, if_true]
  rw [UInt32.toNat_sub_of_le _ _ hname, UInt32.toNat_sub_of_le _ _ hone, UInt8.toNat_toUInt32,
    UInt32.toNat_one]

theorem bodyInside_of_plain {s : CqyStr} (hroute : (msg s).route = false)
    (hsize : headerSize ≤ s.length) (hlen : (msg s).len.toNat ≤ s.length - headerSize) :
    BodyInside s where
  header := hsize
  body := by
    rw [CqyStr.end]
    omega
  name h := by simp [hroute] at h
  buffer := by simp [CqyStr.buffer, hroute, View.Within, CqyStr.end]
  adjacent h := by simp [hroute] at h
  tiles := by simp [CqyStr.buffer, hroute]
  no_underflow h := by simp [hroute] at h

theorem bodyInside_of_routed {s : CqyStr} (hroute : (msg s).route = true)
    (hsize : headerSize ≤ s.length) (hlen : (msg s).len.toNat ≤ s.length - headerSize)
    (hname : s.nameSize.toNat + 1 ≤ (msg s).len.toNat) : BodyInside s := by
  have hbuffer := buffer_size_of_le hroute hname
  have hoff : s.buffer.off = headerSize + 1 + s.nameSize.toNat := by simp [buffer, hroute]
  have hview : s.name = ⟨headerSize + 1, s.nameSize.toNat⟩ := by simp [CqyStr.name, hroute]
  refine ⟨hsize, ?_, fun _ ↦ ?_, ?_, fun _ ↦ ?_, ?_, fun _ ↦ ?_⟩
  · rw [CqyStr.end]
    omega
  · rw [hview]
    simp only [View.Within, CqyStr.end]
    omega
  · simp only [View.Within, hoff, hbuffer, CqyStr.end]
    omega
  · rw [hview, hoff, hbuffer, CqyStr.end]
    dsimp only
    omega
  · -- the body splits at the length byte and again at the end of the name
    have hbyte : headerSize < s.length := by omega
    have hsplit : (msg s).len.toNat =
        1 + (s.nameSize.toNat + ((msg s).len.toNat - 1 - s.nameSize.toNat)) := by omega
    have hbuf : s.buffer = ⟨headerSize + 1 + s.nameSize.toNat,
        (msg s).len.toNat - 1 - s.nameSize.toNat⟩ := by
      rw [← hoff, ← hbuffer]
    rw [hroute, if_pos rfl, hview, hbuf, List.cons_append, View.read_adjacent]
    conv_lhs => rw [hsplit]
    rw [← View.read_adjacent, View.read_one s hbyte]
    rfl
  · omega

/-- The accessors of an accepted frame stay inside its body exactly when `len` covers the name. -/
theorem parse_bodyInside_iff (s : CqyStr) :
    ((parse s true).isSome → BodyInside s) ↔ LenCoversName s := by
  rw [parse_true_isSome_iff]
  constructor
  · intro h hsize hlen hroute hname
    have hinside := h ⟨hsize, hlen, fun _ ↦ hname⟩
    have hfits := hinside.no_underflow hroute
    omega
  · rintro h ⟨hsize, hlen, hname⟩
    cases hroute : (msg s).route with
    | false => exact bodyInside_of_plain hroute hsize hlen
    | true => exact bodyInside_of_routed hroute hsize hlen (h hsize hlen hroute (hname hroute))

/-- A routed header with `len = 0`, followed by a length byte of 5 and five bytes of name. -/
def nameOutsideLen : CqyStr :=
  [1, 0, 0, 1, 0, 0, 0, 2, 7, 0, 0, 0, 0, 0, 0, 0, 0, 1, 0, 0, 5, 112, 111, 110, 103, 49]

/-- `parse(true)` lets the frame through, its name ends six bytes past `len`, and its buffer
claims `2 ^ 32 - 6` bytes. -/
theorem parse_nameOutsideLen :
    (parse nameOutsideLen true).isSome ∧ ¬ BodyInside nameOutsideLen ∧
      nameOutsideLen.end = 20 ∧ nameOutsideLen.name = ⟨21, 5⟩ ∧
      nameOutsideLen.buffer = ⟨26, 4294967290⟩ := by
  refine ⟨by decide, fun h ↦ ?_, by decide, by decide, by decide⟩
  exact absurd (h.no_underflow (by decide)) (by decide)

end Cqy.CqyStr
