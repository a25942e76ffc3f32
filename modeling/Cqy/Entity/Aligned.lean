import Cqy.Entity.Slots

/-!
# What every run keeps

Versions that wrap around and ids that were never handed out break the correspondence between ids
and entities.  They do not break the lengths: whatever ids the operations are called with, there is
one version for each slot and one element in every pool.  From this follows what each operation
does to the components, slot by slot.
-/

namespace Cqy

open Foundation Vec

namespace EntityMgr

variable {V : Type} {m m' : EntityMgr V}

/-- One version for each slot, one element in every pool, and no free slot beyond them. -/
structure Aligned (m : EntityMgr V) : Prop where
  versions : m.entityVersion.length = m.indexCounter.toNat
  pools : ∀ cid pool, m.pool cid = some pool → pool.length = m.entityVersion.length
  free_lt : ∀ i ∈ m.freeList, i.toNat < m.entityVersion.length

/-- The value that a lookup finds: none where the slot is null, is empty or has no pool. -/
def held (m : EntityMgr V) (id : EntityId) (cid : ℕ) : Option V := (m.component id cid).join

theorem aligned_init : Aligned ({} : EntityMgr V) where
  versions := rfl
  pools := by simp [EntityMgr.pool]
  free_lt := by simp

theorem check_iff {id : EntityId} :
    m.check id = true ↔ m.entityVersion[id.idx.toNat]? = some id.ver := by
  rw [check, decide_eq_true_eq]

theorem idx_lt_of_check {id : EntityId} (h : m.check id = true) :
    id.idx.toNat < m.entityVersion.length :=
  (List.getElem?_eq_some_iff.mp (check_iff.mp h)).1

/-- The same change to all pools. -/
theorem pool_eq_map {f : Compool V → Compool V} (h : m'.pools = m.pools.map (Option.map f))
    (cid : ℕ) : m'.pool cid = (m.pool cid).map f := by
  rw [EntityMgr.pool, h]
  exact join_getElem?_map m.pools f cid

/-! ## What each operation does -/

/-- The counter does not wrap: the vector of versions would lose all its elements, and the access
that follows would be out of range. -/
theorem create_full (hfree : m.freeList = [])
    (hversions : m.entityVersion.length = m.indexCounter.toNat)
    (hfull : ¬ m.entityVersion.length < 2 ^ 32 - 1) : m.create = none := by
  have hlt : m.indexCounter.toNat < 2 ^ 32 := m.indexCounter.toNat_lt
  have hwrap : (m.indexCounter + 1).toNat = 0 := by
    rw [UInt32.toNat_add, UInt32.toNat_one]
    omega
  rw [create, hfree]
  simp only [List.getLast?_nil, grow, hwrap]
  rw [if_pos hversions.le]
  simp [assign, resize]

/-- A new slot or the last free one is handed out. -/
theorem Aligned.create_cases (h : Aligned m) {id : EntityId} (hcreate : m.create = some (id, m')) :
    (m.freeList = [] ∧ m.entityVersion.length < 2 ^ 32 - 1 ∧ id = ⟨m.indexCounter, 1⟩ ∧
      m' = { m with
        indexCounter := m.indexCounter + 1
        entityVersion := m.entityVersion ++ [1]
        pools := m.pools.map (Option.map fun pool ↦
          resize pool (m.entityVersion.length + 1) none) }) ∨
    ∃ free, m.freeList = free ++ [id.idx] ∧ m.check id = true ∧
      m' = { m with freeList := free } := by
  rcases List.eq_nil_or_concat m.freeList with hfree | ⟨free, index, hfree⟩
  · left
    by_cases hlt : m.entityVersion.length < 2 ^ 32 - 1
    · rw [create_fresh hfree h.versions hlt, Option.some_inj, Prod.mk.injEq] at hcreate
      exact ⟨hfree, hlt, hcreate.1.symm, hcreate.2.symm⟩
    · rw [create_full hfree h.versions hlt] at hcreate
      exact absurd hcreate.symm (Option.some_ne_none _)
  · right
    rw [List.concat_eq_append] at hfree
    have hlt : index.toNat < m.entityVersion.length := h.free_lt index (by simp [hfree])
    have hversion := List.getElem?_eq_getElem hlt
    rw [create_recycle hfree hversion, Option.some_inj, Prod.mk.injEq] at hcreate
    obtain ⟨rfl, rfl⟩ := hcreate
    exact ⟨free, hfree, check_iff.mpr hversion, rfl⟩

/-- An id that passes `check` is destroyed, any other is ignored. -/
theorem Aligned.destroy_cases (h : Aligned m) (id : EntityId) :
    m.check id = false ∧ m.destroy id = some m ∨
    m.check id = true ∧ m.destroy id = some
      { m with
        entityVersion := m.entityVersion.set id.idx.toNat (id.ver + 1)
        freeList := m.freeList ++ [id.idx]
        pools := m.pools.map (Option.map fun pool ↦ pool.set id.idx.toNat none) } := by
  cases hcheck : m.check id with
  | false => exact Or.inl ⟨rfl, destroy_of_not_check (by simp [hcheck])⟩
  | true =>
    refine Or.inr ⟨rfl, destroy_of_check hcheck fun cid pool hpool ↦ ?_⟩
    rw [h.pools cid pool hpool]
    exact idx_lt_of_check hcheck

theorem Aligned.length_poolOrNew (h : Aligned m) (cid : ℕ) :
    (m.poolOrNew cid).length = m.entityVersion.length := by
  rw [EntityMgr.poolOrNew]
  cases hpool : m.pool cid with
  | none => rw [Option.getD_none, List.length_replicate, h.versions]
  | some pool => exact h.pools cid pool hpool

theorem Aligned.create (h : Aligned m) {id : EntityId} (hcreate : m.create = some (id, m')) :
    Aligned m' := by
  rcases h.create_cases hcreate with ⟨hfree, hlt, -, rfl⟩ | ⟨free, hfree, -, rfl⟩
  · refine ⟨?_, fun cid pool' hpool' ↦ ?_, by simp [hfree]⟩
    · rw [List.length_append, List.length_singleton, UInt32.toNat_add, ← h.versions]
      exact (Nat.mod_eq_of_lt (by simp; omega)).symm
    · rw [pool_eq_map rfl] at hpool'
      obtain ⟨pool, -, rfl⟩ := Option.map_eq_some_iff.mp hpool'
      simp
  · refine ⟨h.versions, h.pools, fun i hi ↦ h.free_lt i ?_⟩
    rw [hfree]
    exact List.mem_append_left _ hi

theorem Aligned.destroy (h : Aligned m) {id : EntityId} (hdestroy : m.destroy id = some m') :
    Aligned m' := by
  rcases h.destroy_cases id with ⟨-, hsame⟩ | ⟨hcheck, hreset⟩
  · rw [hsame, Option.some_inj] at hdestroy
    exact hdestroy ▸ h
  · rw [hreset, Option.some_inj] at hdestroy
    subst hdestroy
    refine ⟨?_, fun cid pool' hpool' ↦ ?_, fun i hi ↦ ?_⟩
    · rw [List.length_set]
      exact h.versions
    · rw [pool_eq_map rfl] at hpool'
      obtain ⟨pool, hpool, rfl⟩ := Option.map_eq_some_iff.mp hpool'
      rw [List.length_set, List.length_set]
      exact h.pools cid pool hpool
    · rw [List.length_set]
      rcases List.mem_append.mp hi with hi | hi
      · exact h.free_lt i hi
      · rw [List.mem_singleton.mp hi]
        exact idx_lt_of_check hcheck

theorem Aligned.add (h : Aligned m) {id : EntityId} {cid : ℕ} {value : Option V}
    (hadd : m.add id cid value = some m') : Aligned m' := by
  obtain ⟨-, ⟨pools, rfl⟩, hpool⟩ := add_cases hadd
  refine ⟨h.versions, fun cid' pool' hpool' ↦ ?_, h.free_lt⟩
  rw [hpool] at hpool'
  split_ifs at hpool'
  · obtain rfl := Option.some.inj hpool'
    rw [List.length_set]
    exact h.length_poolOrNew cid
  · exact h.pools cid' pool' hpool'

/-- A new entity passes `check`, and for the other ids nothing changes. -/
theorem Aligned.check_create (h : Aligned m) {id : EntityId} (hcreate : m.create = some (id, m'))
    (x : EntityId) : m'.check x = true ↔ m.check x = true ∨ x = id := by
  rcases h.create_cases hcreate with ⟨-, -, rfl, rfl⟩ | ⟨free, -, hcheck, rfl⟩
  · rw [check_iff, check_iff, List.getElem?_append]
    split_ifs with hlt
    · refine (or_iff_left ?_).symm
      rintro rfl
      exact absurd hlt (by rw [h.versions]; exact lt_irrefl _)
    · have hend : x.idx = m.indexCounter ↔ x.idx.toNat - m.entityVersion.length = 0 := by
        rw [← UInt32.toNat_inj, ← h.versions]
        omega
      rw [List.getElem?_eq_none (Nat.le_of_not_lt hlt), List.getElem?_singleton, EntityId.eq_iff,
        UInt32.toNat_inj, hend]
      split_ifs with hzero
      · simp [hzero, eq_comm]
      · simp [hzero]
  · exact (or_iff_left_of_imp fun heq ↦ heq ▸ hcheck).symm

/-- A lookup of an id whose slot exists is in range. -/
theorem Aligned.component (h : Aligned m) {id : EntityId}
    (hlt : id.idx.toNat < m.entityVersion.length) (cid : ℕ) :
    m.component id cid = some (m.held id cid) := by
  rw [held, EntityMgr.component]
  cases hpool : m.pool cid with
  | none => rfl
  | some pool =>
    dsimp only
    rw [List.getElem?_eq_getElem (by rw [h.pools cid pool hpool]; exact hlt)]
    rfl

/-! ## What each operation does to the components -/

theorem held_eq (m : EntityMgr V) (id : EntityId) (cid : ℕ) :
    m.held id cid = ((m.pool cid).bind fun pool ↦ pool[id.idx.toNat]?.join).join := by
  rw [held, EntityMgr.component]
  cases m.pool cid with
  | none => rfl
  | some pool => cases hslot : pool[id.idx.toNat]? <;> simp [hslot]

/-- Looking into the pool that `add` would write to finds the same. -/
theorem held_eq_poolOrNew (m : EntityMgr V) (id : EntityId) (cid : ℕ) :
    m.held id cid = (m.poolOrNew cid)[id.idx.toNat]?.join.join := by
  rw [held_eq, EntityMgr.poolOrNew]
  cases m.pool cid with
  | none =>
    rw [Option.getD_none, List.getElem?_replicate]
    split_ifs <;> rfl
  | some pool => rfl

/-- No component comes or goes with a new entity. -/
theorem Aligned.held_create (h : Aligned m) {id : EntityId} (hcreate : m.create = some (id, m'))
    (x : EntityId) (cid : ℕ) : m'.held x cid = m.held x cid := by
  rcases h.create_cases hcreate with ⟨-, -, -, rfl⟩ | ⟨free, -, -, rfl⟩
  · rw [held_eq, held_eq, pool_eq_map rfl]
    cases hpool : m.pool cid with
    | none => rfl
    | some pool =>
      rw [Option.map_some, Option.bind_some, Option.bind_some, ← h.pools cid pool hpool,
        resize_succ, List.getElem?_append]
      split_ifs with hlt
      · rfl
      · rw [List.getElem?_eq_none (Nat.le_of_not_lt hlt), List.getElem?_singleton]
        split_ifs <;> rfl
  · rfl

/-- The slot of an id that passes `check` loses its components, and no other does. -/
theorem Aligned.held_destroy (h : Aligned m) {id : EntityId} (hcheck : m.check id = true)
    (hdestroy : m.destroy id = some m') (x : EntityId) (cid : ℕ) :
    m'.held x cid = if x.idx = id.idx then none else m.held x cid := by
  rcases h.destroy_cases id with ⟨hnot, -⟩ | ⟨-, hreset⟩
  · rw [hcheck] at hnot
    exact absurd hnot (by decide)
  · rw [hreset, Option.some_inj] at hdestroy
    subst hdestroy
    rw [held_eq, held_eq, pool_eq_map rfl]
    cases hpool : m.pool cid with
    | none => exact (ite_self _).symm
    | some pool =>
      have hlt : id.idx.toNat < pool.length := h.pools cid pool hpool ▸ idx_lt_of_check hcheck
      rw [Option.map_some, Option.bind_some, Option.bind_some, getElem?_set_slot hlt]
      split_ifs <;> rfl

/-- `add` gives one slot one component, whatever the version of the id. -/
theorem held_add {id : EntityId} {cid : ℕ} {value : Option V}
    (hadd : m.add id cid value = some m') (x : EntityId) (cid' : ℕ) :
    m'.held x cid' = if x.idx = id.idx ∧ cid' = cid then value else m.held x cid' := by
  obtain ⟨hlt, -, hpool⟩ := add_cases hadd
  rw [held_eq, hpool]
  by_cases hcid : cid' = cid
  · rw [if_pos hcid, Option.bind_some, getElem?_set_slot hlt, hcid, held_eq_poolOrNew]
    by_cases hidx : x.idx = id.idx
    · rw [if_pos hidx, if_pos ⟨hidx, rfl⟩]
      rfl
    · rw [if_neg hidx, if_neg fun hboth ↦ hidx hboth.1]
  · rw [if_neg hcid, if_neg fun hboth ↦ hcid hboth.2, held_eq]

end EntityMgr

namespace Entities

variable {V : Type}

theorem aligned_exec (s : Entities V) (op : Op V) (s' : Entities V) (h : s.mgr.Aligned)
    (hexec : s.exec op = some s') : s'.mgr.Aligned := by
  cases op with
  | create =>
    obtain ⟨⟨id, mgr⟩, hcreate, rfl⟩ := Option.map_eq_some_iff.mp hexec
    exact h.create hcreate
  | destroy id =>
    obtain ⟨mgr, hdestroy, rfl⟩ := Option.map_eq_some_iff.mp hexec
    exact h.destroy hdestroy
  | add id cid value =>
    obtain ⟨mgr, hadd, rfl⟩ := Option.map_eq_some_iff.mp hexec
    exact h.add hadd
  | component id cid =>
    obtain ⟨-, -, rfl⟩ := Option.map_eq_some_iff.mp hexec
    exact h
  | check id => exact Option.some.inj hexec ▸ h

/-- After every run of operations, with whatever ids, the vectors have the same length. -/
theorem aligned_of_reachable {s : Entities V} (h : Machine.Reachable exec {} s) :
    s.mgr.Aligned :=
  h.invariant aligned_exec EntityMgr.aligned_init

end Entities

end Cqy
