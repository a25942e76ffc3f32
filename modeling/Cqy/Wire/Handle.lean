import Cqy.Foundation.Bytes

/-!
# Context handles

A context id is a 32-bit word whose most significant byte is the node id and whose three low
bytes number the context inside the node.  The node byte is the last member of the anonymous
struct that shares a union with the word, so on the little-endian targets of the build it is the
byte of weight `2 ^ 24`.
-/

namespace Cqy

/-- `cqy_handle_t`. -/
structure CqyHandle where
  id : UInt32
deriving DecidableEq

namespace CqyHandle

/-- `cqy_handle_t::ctxid`. -/
def ctxid (h : CqyHandle) : UInt32 := 0x00ffffff &&& h.id

/-- `cqy_handle_t::set_ctxid`. -/
def setCtxid (h : CqyHandle) (ctxid : UInt32) : CqyHandle :=
  ⟨(h.id &&& 0xff000000) ||| (ctxid &&& 0x00ffffff)⟩

/-- The member `nodeid`, which `cqy_handle_t::node` returns. -/
def nodeid (h : CqyHandle) : UInt8 := (h.id >>> 24).toUInt8

/-- Assignment to the member `nodeid`. -/
def setNodeid (h : CqyHandle) (nodeid : UInt8) : CqyHandle :=
  ⟨(h.id &&& (0x00ffffff : UInt32)) ||| (nodeid.toUInt32 <<< (24 : UInt32))⟩

theorem ctxid_setCtxid (h : CqyHandle) (c : UInt32) : (h.setCtxid c).ctxid = 0x00ffffff &&& c := by
  apply UInt32.eq_of_toBitVec_eq
  ext i hi
  interval_cases i <;> simp [ctxid, setCtxid]

theorem nodeid_setNodeid (h : CqyHandle) (n : UInt8) : (h.setNodeid n).nodeid = n := by
  apply UInt8.eq_of_toBitVec_eq
  ext i hi
  interval_cases i <;> simp [nodeid, setNodeid]

theorem ctxid_setNodeid (h : CqyHandle) (n : UInt8) : (h.setNodeid n).ctxid = h.ctxid := by
  apply UInt32.eq_of_toBitVec_eq
  ext i hi
  interval_cases i <;> simp [ctxid, setNodeid]

theorem toNat_ctxid (h : CqyHandle) : h.ctxid.toNat = h.id.toNat % 2 ^ 24 := by
  rw [ctxid, UInt32.toNat_and, Nat.and_comm]
  exact Nat.and_two_pow_sub_one_eq_mod h.id.toNat 24

theorem toNat_nodeid (h : CqyHandle) : h.nodeid.toNat = h.id.toNat / 2 ^ 24 := by
  have hid := h.id.toNat_lt
  simp [nodeid, Nat.shiftRight_eq_div_pow]
  omega

/-- The node byte and the context number determine a handle. -/
theorem ext_parts {h h' : CqyHandle} (hnode : h.nodeid = h'.nodeid) (hctx : h.ctxid = h'.ctxid) :
    h = h' := by
  have hn := congrArg UInt8.toNat hnode
  have hc := congrArg UInt32.toNat hctx
  rw [toNat_nodeid, toNat_nodeid] at hn
  rw [toNat_ctxid, toNat_ctxid] at hc
  have hid : h.id = h'.id := UInt32.toNat_inj.mp (by omega)
  cases h
  cases h'
  exact congrArg mk hid

end CqyHandle

end Cqy
