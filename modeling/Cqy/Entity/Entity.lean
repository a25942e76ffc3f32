import Cqy.Foundation.Vec

/-!
# Entities and their components

`entity_mgr_t` hands out slots.  An id is a slot and the version that the slot had when it was
handed out; destroying an entity moves the version on and puts the slot on a free list.  The
components of a type lie in a pool, a vector over the slots which is made when the type is first
added.  A vector access with an index out of range has no value: an operation that makes one is
`none`.
-/

namespace Cqy

open Foundation Vec

/-- `entity_id_t`. -/
structure EntityId where
  idx : UInt32
  ver : UInt32
deriving DecidableEq

theorem EntityId.eq_iff {x y : EntityId} : x = y ↔ x.idx = y.idx ∧ x.ver.toNat = y.ver.toNat := by
  cases x
  cases y
  rw [EntityId.mk.injEq, UInt32.toNat_inj]

/-- `compool`: a slot is null or points to a `component_opt`, which may be empty. -/
abbrev Compool (V : Type) := List (Option (Option V))

/-- `entity_mgr_t`, over a type that contains the values of all component types.  The number that
`component_id` gives to a component type stands for the type. -/
structure EntityMgr (V : Type) where
  indexCounter : UInt32 := 0
  freeList : List UInt32 := []
  pools : List (Option (Compool V)) := []
  entityVersion : List UInt32 := []
deriving DecidableEq

namespace EntityMgr

variable {V : Type}

/-- The part of `entity_mgr_t::create` that makes room for the slot `index`. -/
def grow (m : EntityMgr V) (index : UInt32) : EntityMgr V :=
  if m.entityVersion.length ≤ index.toNat then
    { m with
      entityVersion := resize m.entityVersion (index + 1).toNat 0
      pools := m.pools.map (Option.map fun pool ↦ resize pool (index + 1).toNat none) }
  else m

/-- `entity_mgr_t::create`. -/
def create (m : EntityMgr V) : Option (EntityId × EntityMgr V) :=
  match m.freeList.getLast? with
  | none =>
    let grown := { m with indexCounter := m.indexCounter + 1 }.grow m.indexCounter
    (assign grown.entityVersion m.indexCounter.toNat (1 : UInt32)).map fun entityVersion ↦
      (⟨m.indexCounter, 1⟩, { grown with entityVersion := entityVersion })
  | some index =>
    m.entityVersion[index.toNat]?.map fun version ↦
      (⟨index, version⟩, { m with freeList := m.freeList.dropLast })

/-- `entity_mgr_t::check`. -/
def check (m : EntityMgr V) (id : EntityId) : Bool :=
  m.entityVersion[id.idx.toNat]? = some id.ver

/-- What `entity_mgr_t::destroy` does to a pool. -/
def resetSlot (idx : ℕ) : Option (Compool V) → Option (Option (Compool V))
  | none => some none
  | some pool => if idx ≤ pool.length then (assign pool idx none).map some else some (some pool)

/-- `entity_mgr_t::destroy`. -/
def destroy (m : EntityMgr V) (id : EntityId) : Option (EntityMgr V) :=
  if m.entityVersion.length ≤ id.idx.toNat then some m
  else if m.entityVersion[id.idx.toNat]? ≠ some id.ver then some m
  else
    (m.pools.mapM (resetSlot id.idx.toNat)).map fun pools ↦
      { m with
        entityVersion := m.entityVersion.modify id.idx.toNat (· + 1)
        freeList := m.freeList ++ [id.idx]
        pools := pools }

/-- The pool of a component type, if it has been made. -/
def pool (m : EntityMgr V) (cid : ℕ) : Option (Compool V) := m.pools[cid]?.join

/-- The pool that `add` writes to: the one of the type, or a new one with empty slots. -/
def poolOrNew (m : EntityMgr V) (cid : ℕ) : Compool V :=
  (m.pool cid).getD (List.replicate m.indexCounter.toNat none)

/-- `entity_t::add` through an entity with the id `id`.  The constructor of the component yields a
value or throws; then it leaves the `component_opt` empty. -/
def add (m : EntityMgr V) (id : EntityId) (cid : ℕ) (value : Option V) : Option (EntityMgr V) :=
  let pools := if m.pools.length ≤ cid then resize m.pools (cid + 1) none else m.pools
  (assign (m.poolOrNew cid) id.idx.toNat (some value)).map fun pool ↦
    { m with pools := pools.set cid (some pool) }

/-- `entity_mgr_t::component`. -/
def component (m : EntityMgr V) (id : EntityId) (cid : ℕ) : Option (Option V) :=
  match m.pool cid with
  | none => some none
  | some pool => pool[id.idx.toNat]?.map Option.join

/-! ## Pools -/

theorem pool_eq_some_iff {m : EntityMgr V} {cid : ℕ} {pool : Compool V} :
    m.pool cid = some pool ↔ m.pools[cid]? = some (some pool) := by
  rw [EntityMgr.pool, Option.join_eq_some_iff]

theorem exists_pool_of_mem {m : EntityMgr V} {pool : Compool V} (h : some pool ∈ m.pools) :
    ∃ cid, m.pool cid = some pool := by
  obtain ⟨cid, hcid⟩ := List.mem_iff_getElem?.mp h
  exact ⟨cid, pool_eq_some_iff.mpr hcid⟩

/-- The same change to all pools. -/
theorem join_getElem?_map (pools : List (Option (Compool V))) (f : Compool V → Compool V)
    (cid : ℕ) : (pools.map (Option.map f))[cid]?.join = pools[cid]?.join.map f := by
  rw [List.getElem?_map]
  cases pools[cid]? <;> rfl

/-- The element of one slot is replaced, and no other. -/
theorem getElem?_set_slot {α : Type} {l : List α} {i : UInt32} (hi : i.toNat < l.length) (a : α)
    (j : UInt32) : (l.set i.toNat a)[j.toNat]? = if j = i then some a else l[j.toNat]? := by
  rw [getElem?_set_of_some (List.getElem?_eq_getElem hi)]
  simp only [UInt32.toNat_inj]

/-- `destroy` clears one slot in all pools, if all have it. -/
theorem mapM_resetSlot {idx : ℕ} {pools : List (Option (Compool V))}
    (h : ∀ pool, some pool ∈ pools → idx < pool.length) :
    pools.mapM (resetSlot idx) = some (pools.map (Option.map fun pool ↦ pool.set idx none)) := by
  induction pools with
  | nil => rfl
  | cons p pools ih =>
    have hp : resetSlot idx p = some (p.map fun pool ↦ pool.set idx none) := by
      cases p with
      | none => rfl
      | some pool =>
        have hlt := h pool List.mem_cons_self
        rw [resetSlot, if_pos hlt.le, assign, if_pos hlt]
        rfl
    rw [List.mapM_cons, hp, ih fun pool hpool ↦ h pool (List.mem_cons_of_mem _ hpool)]
    rfl

theorem join_getElem?_resize {pools : List (Option (Compool V))} {n : ℕ} (h : pools.length ≤ n)
    (cid : ℕ) : (resize pools n none)[cid]?.join = pools[cid]?.join := by
  by_cases hcid : cid < n
  · rw [getElem?_resize _ _ hcid]
    cases pools[cid]? <;> rfl
  · rw [List.getElem?_eq_none (by rw [length_resize]; omega), List.getElem?_eq_none (by omega)]

/-- `add` writes one slot of one pool, if the pool has the slot. -/
theorem add_cases {m m' : EntityMgr V} {id : EntityId} {cid : ℕ} {value : Option V}
    (h : m.add id cid value = some m') :
    id.idx.toNat < (m.poolOrNew cid).length ∧ (∃ pools, m' = { m with pools := pools }) ∧
      ∀ cid', m'.pool cid' = if cid' = cid then
        some ((m.poolOrNew cid).set id.idx.toNat (some value)) else m.pool cid' := by
  obtain ⟨pool, hassign, rfl⟩ := Option.map_eq_some_iff.mp h
  obtain ⟨hlt, rfl⟩ := assign_eq_some_iff.mp hassign
  refine ⟨hlt, ⟨_, rfl⟩, fun cid' ↦ ?_⟩
  rw [EntityMgr.pool]
  dsimp only
  split_ifs with hlen hcid hcid
  · rw [hcid, List.getElem?_set_self (by rw [length_resize]; omega)]
    rfl
  · rw [List.getElem?_set_ne (Ne.symm hcid), join_getElem?_resize (by omega)]
    rfl
  · rw [hcid, List.getElem?_set_self (by omega)]
    rfl
  · rw [List.getElem?_set_ne (Ne.symm hcid)]
    rfl

theorem exists_add {m : EntityMgr V} {id : EntityId} {cid : ℕ}
    (h : id.idx.toNat < (m.poolOrNew cid).length) (value : Option V) :
    ∃ m', m.add id cid value = some m' := by
  rw [add, assign, if_pos h]
  exact ⟨_, rfl⟩

/-! ## Slots -/

/-- With no free slot, `create` adds one to the versions and to every pool. -/
theorem create_fresh {m : EntityMgr V} (hfree : m.freeList = [])
    (hversions : m.entityVersion.length = m.indexCounter.toNat)
    (hlt : m.entityVersion.length < 2 ^ 32 - 1) :
    m.create = some (⟨m.indexCounter, 1⟩,
      { m with
        indexCounter := m.indexCounter + 1
        entityVersion := m.entityVersion ++ [1]
        pools := m.pools.map (Option.map fun pool ↦
          resize pool (m.entityVersion.length + 1) none) }) := by
  have hnext : (m.indexCounter + 1).toNat = m.entityVersion.length + 1 := by
    rw [UInt32.toNat_add, ← hversions]
    exact Nat.mod_eq_of_lt (by simp; omega)
  rw [create, hfree]
  simp only [List.getLast?_nil, grow, hnext]
  rw [if_pos hversions.le]
  simp only [resize_succ, assign, List.length_append, List.length_singleton, ← hversions]
  rw [if_pos (by omega), List.set_append_right _ _ le_rfl]
  simp

/-- With a free slot, `create` takes the last one at its current version. -/
theorem create_recycle {m : EntityMgr V} {free : List UInt32} {index version : UInt32}
    (hfree : m.freeList = free ++ [index])
    (hversion : m.entityVersion[index.toNat]? = some version) :
    m.create = some (⟨index, version⟩, { m with freeList := free }) := by
  rw [create, hfree]
  simp [hversion]

theorem destroy_of_not_check {m : EntityMgr V} {id : EntityId} (h : ¬ m.check id = true) :
    m.destroy id = some m := by
  have hver : m.entityVersion[id.idx.toNat]? ≠ some id.ver := by simpa [check] using h
  rw [destroy]
  split_ifs
  · rfl
  · rfl

/-- `destroy` moves the version on, frees the slot and clears it in every pool. -/
theorem destroy_of_check {m : EntityMgr V} {id : EntityId} (h : m.check id = true)
    (hpools : ∀ cid pool, m.pool cid = some pool → id.idx.toNat < pool.length) :
    m.destroy id = some
      { m with
        entityVersion := m.entityVersion.set id.idx.toNat (id.ver + 1)
        freeList := m.freeList ++ [id.idx]
        pools := m.pools.map (Option.map fun pool ↦ pool.set id.idx.toNat none) } := by
  have hver : m.entityVersion[id.idx.toNat]? = some id.ver := by simpa [check] using h
  have hlt := (List.getElem?_eq_some_iff.mp hver).1
  have hreset : m.pools.mapM (resetSlot id.idx.toNat) =
      some (m.pools.map (Option.map fun pool ↦ pool.set id.idx.toNat none)) := by
    refine mapM_resetSlot fun pool hpool ↦ ?_
    obtain ⟨cid, hcid⟩ := exists_pool_of_mem hpool
    exact hpools cid pool hcid
  have hmodify : m.entityVersion.modify id.idx.toNat (· + 1) =
      m.entityVersion.set id.idx.toNat (id.ver + 1) := by
    rw [List.modify_eq_set, hver]
    rfl
  rw [destroy, if_neg (by omega), if_neg (not_not.mpr hver), hreset, hmodify]
  rfl

end EntityMgr

end Cqy
