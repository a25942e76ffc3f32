import Cqy.Foundation.Bytes
import Cqy.Foundation.SortedTable
import Cqy.Wire.Handle

/-!
# The context registry of a node

`cqy_ctx_mgr` numbers the contexts of a node, maps ids to contexts and names to ids.  The counter
is a 32-bit word that wraps.  The id map is an `unordered_map`; the names are a vector that
`register_name` sorts after every addition, so that `find_name` can bisect.
-/

namespace Cqy

open Foundation

/-- `cqy_ctx_mgr_t`, over the type of the context pointers. -/
structure CtxMgr (C : Type*) where
  allocid : UInt32
  ctxs : AList fun _ : UInt32 ↦ C
  names : Table Bytes UInt32

namespace CtxMgr

variable {C : Type*}

def empty : CtxMgr C := ⟨0, ∅, Table.empty⟩

/-- `cqy_ctx_mgr::new_id`. -/
def newId (m : CtxMgr C) : UInt32 × CtxMgr C := (1 + m.allocid, { m with allocid := m.allocid + 1 })

/-- `cqy_ctx_mgr::get_ctx`. -/
def getCtx (m : CtxMgr C) (id : UInt32) : Option C := m.ctxs.lookup id

/-- `cqy_ctx_mgr::add_ctx` for a context whose `getid()` is `id`, with the assertion compiled out:
`try_emplace` leaves the map alone when the key is there. -/
def addCtx (m : CtxMgr C) (id : UInt32) (p : C) : CtxMgr C :=
  match m.ctxs.lookup id with
  | some _ => m
  | none => { m with ctxs := m.ctxs.insert id p }

/-- `cqy_ctx_mgr::del_ctx`. -/
def delCtx (m : CtxMgr C) (id : UInt32) : CtxMgr C :=
  { m with ctxs := m.ctxs.erase id, names := m.names.eraseValue id }

/-- `cqy_ctx_mgr::collect_ctxids`. -/
def collectCtxids (m : CtxMgr C) : List UInt32 := m.ctxs.keys

/-- `cqy_ctx_mgr::register_name`. -/
def registerName (m : CtxMgr C) (name : Bytes) (id : UInt32) : Except String (CtxMgr C) :=
  if h : m.names.binarySearch name = false then
    .ok { m with names := m.names.insert name id h }
  else .error "name already exists"

/-- `cqy_ctx_mgr::find_name`. -/
def findName (m : CtxMgr C) (name : Bytes) : UInt32 := (m.names.find name).getD 0

/-! ## The map of contexts -/

@[simp] theorem getCtx_newId (m : CtxMgr C) (id : UInt32) : m.newId.2.getCtx id = m.getCtx id := rfl

theorem getCtx_addCtx_of_none {m : CtxMgr C} {id : UInt32} {p : C} (h : m.getCtx id = none)
    (id' : UInt32) : (m.addCtx id p).getCtx id' = if id' = id then some p else m.getCtx id' := by
  rw [getCtx] at h
  rw [addCtx, h]
  split_ifs with hid
  · rw [hid, getCtx, AList.lookup_insert]
  · exact AList.lookup_insert_ne hid

theorem addCtx_of_some {m : CtxMgr C} {id : UInt32} {p q : C} (h : m.getCtx id = some q) :
    m.addCtx id p = m := by
  rw [getCtx] at h
  rw [addCtx, h]

@[simp] theorem allocid_addCtx (m : CtxMgr C) (id : UInt32) (p : C) :
    (m.addCtx id p).allocid = m.allocid := by
  rw [addCtx]
  split <;> rfl

@[simp] theorem names_addCtx (m : CtxMgr C) (id : UInt32) (p : C) :
    (m.addCtx id p).names = m.names := by
  rw [addCtx]
  split <;> rfl

theorem getCtx_delCtx (m : CtxMgr C) (id id' : UInt32) :
    (m.delCtx id).getCtx id' = if id' = id then none else m.getCtx id' := by
  split_ifs with hid
  · rw [hid, getCtx, delCtx, AList.lookup_erase]
  · exact AList.lookup_erase_ne hid

theorem getCtx_eq_some_iff {m : CtxMgr C} {id : UInt32} {p : C} :
    m.getCtx id = some p ↔ ⟨id, p⟩ ∈ m.ctxs.entries :=
  AList.mem_lookup_iff

theorem mem_collectCtxids {m : CtxMgr C} {id : UInt32} {p : C} (h : m.getCtx id = some p) :
    id ∈ m.collectCtxids := by
  refine AList.mem_keys.mp (AList.lookup_isSome.mp ?_)
  rw [← getCtx, h]
  rfl

/-! ## The names -/

theorem registerName_eq_ok {m m' : CtxMgr C} {name : Bytes} {id : UInt32}
    (h : m.registerName name id = .ok m') :
    ∃ hnew, m' = { m with names := m.names.insert name id hnew } := by
  rw [registerName] at h
  split_ifs at h with hnew
  exact ⟨hnew, (Except.ok.inj h).symm⟩

theorem getCtx_registerName {m m' : CtxMgr C} {name : Bytes} {id : UInt32}
    (h : m.registerName name id = .ok m') (id' : UInt32) : m'.getCtx id' = m.getCtx id' := by
  obtain ⟨hnew, rfl⟩ := registerName_eq_ok h
  rfl

theorem findName_registerName {m m' : CtxMgr C} {name : Bytes} {id : UInt32}
    (h : m.registerName name id = .ok m') (name' : Bytes) :
    m'.findName name' = if name' = name then id else m.findName name' := by
  obtain ⟨hnew, rfl⟩ := registerName_eq_ok h
  rw [findName, Table.find_insert]
  split_ifs <;> rfl

@[simp] theorem findName_addCtx (m : CtxMgr C) (id : UInt32) (p : C) (name : Bytes) :
    (m.addCtx id p).findName name = m.findName name := by
  rw [findName, names_addCtx, findName]

end CtxMgr

end Cqy
