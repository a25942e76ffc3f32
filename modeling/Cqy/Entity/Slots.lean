import Cqy.Entity.Entity
import Cqy.Foundation.Machine

/-!
# Slots and generations

The counter, the free list, the versions and the pools of an `entity_mgr_t` are changed together by
every operation.  This module follows them through runs of operations, beside the lists of the ids
that `create` has returned and of those that `destroy` was called with.  As long as neither the
slots nor the versions of a slot run out, an id passes `check` exactly until it is destroyed, and no
access is out of range.
-/

namespace Cqy

open Foundation Vec

/-- An `entity_mgr_t` and the history of its ids. -/
structure Entities (V : Type) where
  mgr : EntityMgr V := {}
  /-- What `create` has returned, in order. -/
  issued : List EntityId := []
  /-- What `destroy` was called with. -/
  destroyed : List EntityId := []
deriving DecidableEq

namespace Entities

variable {V : Type}

inductive Op (V : Type)
  | create
  | destroy (id : EntityId)
  | add (id : EntityId) (cid : ℕ) (value : Option V)
  | component (id : EntityId) (cid : ℕ)
  | check (id : EntityId)
deriving DecidableEq

/-- An operation, refused when it makes an access that is out of range. -/
def exec (s : Entities V) : Op V → Option (Entities V)
  | .create => s.mgr.create.map fun p ↦ { s with mgr := p.2, issued := s.issued ++ [p.1] }
  | .destroy id => (s.mgr.destroy id).map fun mgr ↦
      { s with mgr := mgr, destroyed := s.destroyed ++ [id] }
  | .add id cid value => (s.mgr.add id cid value).map fun mgr ↦ { s with mgr := mgr }
  | .component id cid => (s.mgr.component id cid).map fun _ ↦ s
  | .check _ => some s

/-- The ids that `create` returned and `destroy` was not called with. -/
def live (s : Entities V) : List EntityId := s.issued.filter fun id ↦ id ∉ s.destroyed

/-- How often a slot was handed out: once when it was allocated, and every time it was recycled. -/
def handedOut (s : Entities V) (i : UInt32) : ℕ := s.issued.countP fun id ↦ id.idx = i

/-- Fewer than `2 ^ 32 - 1` slots are allocated and none is recycled `2 ^ 32 - 1` times. -/
def Bounded (s : Entities V) : Prop :=
  s.mgr.entityVersion.length < 2 ^ 32 - 1 ∧ ∀ i, s.handedOut i - 1 < 2 ^ 32 - 1

/-- `destroy` and `component` get an id that was returned by `create`, `add` a live one. -/
def Proper (s : Entities V) : Op V → Prop
  | .create | .check _ => True
  | .destroy id | .component id _ => id ∈ s.issued
  | .add id _ _ => id ∈ s.live

/-- A proper operation that keeps the bounds. -/
def Legal (s : Entities V) (op : Op V) : Prop :=
  s.Proper op ∧ ∀ s', s.exec op = some s' → s'.Bounded

/-- What is promised of the four structures. -/
structure Consistent (s : Entities V) : Prop where
  check : ∀ id ∈ s.issued, (s.mgr.check id = true ↔ id ∉ s.destroyed)
  /-- The free list and the slots of the live ids make up the slots, each of them once. -/
  nodup : (s.mgr.freeList ++ s.live.map EntityId.idx).Nodup
  slots : ∀ i, i ∈ s.mgr.freeList ++ s.live.map EntityId.idx ↔
    i.toNat < s.mgr.indexCounter.toNat
  versions : s.mgr.entityVersion.length = s.mgr.indexCounter.toNat
  pools : ∀ pool, some pool ∈ s.mgr.pools → pool.length = s.mgr.indexCounter.toNat

/-! ## The invariant -/

/-- The version of a slot is the number of times it was handed out, and one more while it is free;
the ids of a slot carry the versions up to that number; a free slot is empty in every pool. -/
structure Inv (s : Entities V) : Prop where
  versions : s.mgr.entityVersion.length = s.mgr.indexCounter.toNat
  pools : ∀ cid pool, s.mgr.pool cid = some pool → pool.length = s.mgr.entityVersion.length
  free_nodup : s.mgr.freeList.Nodup
  free_lt : ∀ i ∈ s.mgr.freeList, i.toNat < s.mgr.entityVersion.length
  nodup : s.issued.Nodup
  issued : ∀ id, id ∈ s.issued ↔ id.idx.toNat < s.mgr.entityVersion.length ∧ 1 ≤ id.ver.toNat ∧
    id.ver.toNat ≤ s.handedOut id.idx
  handedOut : ∀ i : UInt32, i.toNat < s.mgr.entityVersion.length → 1 ≤ s.handedOut i
  version : ∀ i : UInt32, i.toNat < s.mgr.entityVersion.length →
    s.mgr.entityVersion[i.toNat]? =
      some (UInt32.ofNat (s.handedOut i + if i ∈ s.mgr.freeList then 1 else 0))
  destroyed_subset : s.destroyed ⊆ s.issued
  destroyed : ∀ id ∈ s.issued, id ∈ s.destroyed ↔
    id.ver.toNat < s.handedOut id.idx ∨ id.idx ∈ s.mgr.freeList
  empty : ∀ cid pool, s.mgr.pool cid = some pool → ∀ i ∈ s.mgr.freeList,
    pool[i.toNat]? = some none
  bounded : s.Bounded

theorem inv_init : Inv ({} : Entities V) where
  versions := rfl
  pools := by simp [EntityMgr.pool]
  free_nodup := List.nodup_nil
  free_lt := by simp
  nodup := List.nodup_nil
  issued := by simp
  handedOut := by simp
  version := by simp
  destroyed_subset := List.Subset.refl _
  destroyed := by simp
  empty := by simp
  bounded := by simp [Bounded, handedOut]

theorem Inv.handedOut_lt {s : Entities V} (h : Inv s) (i : UInt32) :
    s.handedOut i < 2 ^ 32 := by
  have hbound := h.bounded.2 i
  omega

/-- An id passes `check` until it is destroyed: later its slot is free and its version has moved on,
or the slot was handed out again. -/
theorem Inv.check_iff {s : Entities V} (h : Inv s) {id : EntityId} (hid : id ∈ s.issued) :
    s.mgr.check id = true ↔ id ∉ s.destroyed := by
  obtain ⟨hlt, hpos, hle⟩ := (h.issued id).mp hid
  have hbound := h.handedOut_lt id.idx
  rw [EntityMgr.check, decide_eq_true_eq, h.version id.idx hlt, h.destroyed id hid, Option.some_inj,
    ← UInt32.toNat_inj, UInt32.toNat_ofNat']
  by_cases hfree : id.idx ∈ s.mgr.freeList
  · simp only [hfree, if_true, or_true, not_true_eq_false, iff_false]
    omega
  · simp only [hfree, if_false, or_false, add_zero]
    omega

theorem handedOut_append (s : Entities V) (mgr : EntityMgr V) (id : EntityId) (i : UInt32) :
    handedOut { s with mgr := mgr, issued := s.issued ++ [id] } i =
      s.handedOut i + if id.idx = i then 1 else 0 := by
  simp [handedOut, List.countP_append, List.countP_singleton]

theorem Inv.handedOut_eq_zero {s : Entities V} (h : Inv s) {i : UInt32}
    (hi : ¬ i.toNat < s.mgr.entityVersion.length) : s.handedOut i = 0 := by
  rw [Entities.handedOut, List.countP_eq_zero]
  intro id hid heq
  rw [decide_eq_true_eq] at heq
  exact hi (heq ▸ ((h.issued id).mp hid).1)

/-! ## Handing out a slot -/

/-- What `create` does, with a slot that is new or was free. -/
structure HandsOut (m m' : EntityMgr V) (index version : UInt32) : Prop where
  counter : m'.entityVersion.length = m'.indexCounter.toNat
  grows : ∀ i : UInt32, i.toNat < m'.entityVersion.length ↔
    i.toNat < m.entityVersion.length ∨ i = index
  free : ∀ i, i ∈ m'.freeList ↔ i ∈ m.freeList ∧ i ≠ index
  free_nodup : m'.freeList.Nodup
  version : ∀ i : UInt32, m'.entityVersion[i.toNat]? =
    if i = index then some version else m.entityVersion[i.toNat]?
  pools : ∀ cid pool, m'.pool cid = some pool → pool.length = m'.entityVersion.length
  empty : ∀ cid pool, m'.pool cid = some pool → ∀ i, i = index ∨ i ∈ m'.freeList →
    pool[i.toNat]? = some none

theorem HandsOut.notMem_free {m m' : EntityMgr V} {index version : UInt32}
    (h : HandsOut m m' index version) : index ∉ m'.freeList :=
  fun hmem ↦ ((h.free index).mp hmem).2 rfl

section

variable {s : Entities V} {mgr : EntityMgr V} {index version : UInt32}

/-- A version that the slot has not had makes a new id. -/
theorem Inv.notMem_issued (h : Inv s) (hversion : version.toNat = s.handedOut index + 1) :
    (⟨index, version⟩ : EntityId) ∉ s.issued := by
  intro hmem
  have hle := ((h.issued _).mp hmem).2.2
  dsimp only at hle
  omega

theorem Inv.issued_handsOut (h : Inv s) (hout : HandsOut s.mgr mgr index version)
    (hversion : version.toNat = s.handedOut index + 1) (id : EntityId) :
    id ∈ s.issued ++ [⟨index, version⟩] ↔ id.idx.toNat < mgr.entityVersion.length ∧
      1 ≤ id.ver.toNat ∧ id.ver.toNat ≤ s.handedOut id.idx + if index = id.idx then 1 else 0 := by
  rw [List.mem_append, List.mem_singleton, h.issued, hout.grows]
  by_cases hidx : id.idx = index
  · have heq : id = ⟨index, version⟩ ↔ id.ver.toNat = s.handedOut index + 1 := by
      rw [EntityId.eq_iff, and_iff_right hidx, ← hversion]
    have hzero := h.handedOut_eq_zero (i := index)
    rw [heq, hidx, if_pos rfl]
    simp only [or_true, true_and]
    omega
  · have hne : id ≠ ⟨index, version⟩ := fun heq ↦ hidx (congrArg EntityId.idx heq)
    simp [hne, hidx, Ne.symm hidx]

theorem Inv.version_handsOut (h : Inv s) (hout : HandsOut s.mgr mgr index version)
    (hversion : version.toNat = s.handedOut index + 1) {i : UInt32}
    (hi : i.toNat < mgr.entityVersion.length) :
    mgr.entityVersion[i.toNat]? = some (UInt32.ofNat ((s.handedOut i + if index = i then 1 else 0) +
      if i ∈ mgr.freeList then 1 else 0)) := by
  rw [hout.version]
  by_cases hidx : i = index
  · have hlt := version.toNat_lt
    rw [if_pos hidx, hidx, if_neg hout.notMem_free, if_pos rfl, Option.some_inj, ← UInt32.toNat_inj,
      UInt32.toNat_ofNat', hversion]
    omega
  · have hfree : i ∈ mgr.freeList ↔ i ∈ s.mgr.freeList := by
      rw [hout.free, and_iff_left hidx]
    have hlt := ((hout.grows i).mp hi).resolve_right hidx
    rw [if_neg hidx, h.version i hlt, if_neg (Ne.symm hidx)]
    simp only [hfree, add_zero]

/-- The ids that the slot had before stay destroyed, and the new one is not. -/
theorem Inv.destroyed_handsOut (h : Inv s) (hout : HandsOut s.mgr mgr index version)
    (hversion : version.toNat = s.handedOut index + 1)
    (hold : index.toNat < s.mgr.entityVersion.length → index ∈ s.mgr.freeList) {id : EntityId}
    (hid : id ∈ s.issued ++ [⟨index, version⟩]) :
    id ∈ s.destroyed ↔
      id.ver.toNat < s.handedOut id.idx + (if index = id.idx then 1 else 0) ∨
        id.idx ∈ mgr.freeList := by
  rcases List.mem_append.mp hid with hid | hid
  · obtain ⟨hlt, -, hle⟩ := (h.issued id).mp hid
    rw [h.destroyed id hid, hout.free]
    by_cases hidx : id.idx = index
    · rw [hidx] at hlt hle ⊢
      simp only [hold hlt, if_true, or_true, true_iff]
      omega
    · simp [hidx, Ne.symm hidx]
  · obtain rfl := List.mem_singleton.mp hid
    have hfresh : (⟨index, version⟩ : EntityId) ∉ s.destroyed :=
      fun hmem ↦ h.notMem_issued hversion (h.destroyed_subset hmem)
    simp [hfresh, hout.notMem_free, hversion]

theorem inv_handsOut (h : Inv s) (hout : HandsOut s.mgr mgr index version)
    (hversion : version.toNat = s.handedOut index + 1)
    (hold : index.toNat < s.mgr.entityVersion.length → index ∈ s.mgr.freeList)
    (hbounded : Bounded { s with mgr := mgr, issued := s.issued ++ [⟨index, version⟩] }) :
    Inv { s with mgr := mgr, issued := s.issued ++ [⟨index, version⟩] } := by
  have hcount := s.handedOut_append mgr ⟨index, version⟩
  refine ⟨hout.counter, hout.pools, hout.free_nodup, fun i hi ↦ ?_, ?_, fun id ↦ ?_, fun i hi ↦ ?_,
    fun i hi ↦ ?_, ?_, fun id hid ↦ ?_, fun cid pool hpool i hi ↦ ?_, hbounded⟩
  · exact (hout.grows i).mpr (Or.inl (h.free_lt i ((hout.free i).mp hi).1))
  · exact h.nodup.append (List.nodup_singleton _)
      (List.disjoint_singleton.mpr (h.notMem_issued hversion))
  · rw [hcount]
    exact h.issued_handsOut hout hversion id
  · rw [hcount]
    rcases (hout.grows i).mp hi with hlt | rfl
    · have hpos := h.handedOut i hlt
      omega
    · rw [if_pos rfl]
      omega
  · rw [hcount]
    exact h.version_handsOut hout hversion hi
  · exact List.Subset.trans h.destroyed_subset (List.subset_append_left _ _)
  · rw [hcount]
    exact h.destroyed_handsOut hout hversion hold hid
  · exact hout.empty cid pool hpool i (Or.inr hi)

end

theorem handsOut_fresh {s : Entities V} (h : Inv s) (hfree : s.mgr.freeList = []) :
    ∃ m', s.mgr.create = some (⟨s.mgr.indexCounter, 1⟩, m') ∧
      HandsOut s.mgr m' s.mgr.indexCounter 1 := by
  have hversions := h.versions
  have hroom := h.bounded.1
  have hpool (cid : ℕ) : (s.mgr.pools.map (Option.map fun pool ↦
      resize pool (s.mgr.entityVersion.length + 1) none))[cid]?.join =
      (s.mgr.pool cid).map fun pool ↦ resize pool (s.mgr.entityVersion.length + 1) none :=
    EntityMgr.join_getElem?_map _ _ cid
  refine ⟨_, EntityMgr.create_fresh hfree hversions hroom, ?_⟩
  constructor
  · rw [List.length_append, List.length_singleton, UInt32.toNat_add, ← hversions]
    exact (Nat.mod_eq_of_lt (by simp; omega)).symm
  · intro i
    rw [List.length_append, List.length_singleton, ← UInt32.toNat_inj]
    omega
  · simp [hfree]
  · simp [hfree]
  · intro i
    dsimp only
    split_ifs with hi
    · rw [hi, ← hversions, List.getElem?_concat_length]
    · rw [← UInt32.toNat_inj, ← hversions] at hi
      rcases Nat.lt_or_gt_of_ne hi with hlt | hgt
      · rw [List.getElem?_append_left hlt]
      · rw [List.getElem?_eq_none (by simp; omega), List.getElem?_eq_none hgt.le]
  · intro cid pool' hpool'
    obtain ⟨pool, -, rfl⟩ := Option.map_eq_some_iff.mp ((hpool cid).symm.trans hpool')
    simp
  · intro cid pool' hpool' i hi
    obtain ⟨pool, hget, rfl⟩ := Option.map_eq_some_iff.mp ((hpool cid).symm.trans hpool')
    have hi' : i = s.mgr.indexCounter := hi.resolve_right (by simp [hfree])
    have hend : pool.length ≤ i.toNat := by
      rw [h.pools cid pool hget, hi', hversions]
    rw [getElem?_resize _ _ (by rw [hi', hversions]; omega), List.getElem?_eq_none hend,
      Option.getD_none]

theorem handsOut_recycle {s : Entities V} (h : Inv s) {free : List UInt32} {index : UInt32}
    (hfree : s.mgr.freeList = free ++ [index]) :
    ∃ version m', s.mgr.create = some (⟨index, version⟩, m') ∧
      HandsOut s.mgr m' index version ∧ version = UInt32.ofNat (s.handedOut index + 1) := by
  have hmem : index ∈ s.mgr.freeList := by simp [hfree]
  have hlt := h.free_lt index hmem
  have hversion := h.version index hlt
  rw [if_pos hmem] at hversion
  have hnodup := h.free_nodup
  rw [hfree] at hnodup
  have hnot : index ∉ free := fun hin ↦
    (List.disjoint_of_nodup_append hnodup) hin (List.mem_singleton.mpr rfl)
  refine ⟨_, _, EntityMgr.create_recycle hfree hversion, ?_, rfl⟩
  constructor
  · exact h.versions
  · exact fun i ↦ ⟨Or.inl, fun hi ↦ hi.elim id fun heq ↦ heq ▸ hlt⟩
  · intro i
    rw [hfree, List.mem_append, List.mem_singleton]
    constructor
    · exact fun hi ↦ ⟨Or.inl hi, fun heq ↦ hnot (heq ▸ hi)⟩
    · exact fun hi ↦ hi.1.resolve_right hi.2
  · exact hnodup.of_append_left
  · intro i
    split_ifs with hi
    · rw [hi, hversion]
    · rfl
  · exact h.pools
  · intro cid pool hpool i hi
    refine h.empty cid pool hpool i ?_
    rw [hfree, List.mem_append, List.mem_singleton]
    exact hi.symm

/-- `create` succeeds and hands out a slot, under a version that the slot has not had. -/
theorem exists_create {s : Entities V} (h : Inv s) :
    ∃ index version m', s.mgr.create = some (⟨index, version⟩, m') ∧
      HandsOut s.mgr m' index version ∧ version = UInt32.ofNat (s.handedOut index + 1) ∧
      (index.toNat < s.mgr.entityVersion.length → index ∈ s.mgr.freeList) := by
  rcases List.eq_nil_or_concat s.mgr.freeList with hfree | ⟨free, index, hfree⟩
  · obtain ⟨m', hcreate, hout⟩ := handsOut_fresh h hfree
    have hend : ¬ s.mgr.indexCounter.toNat < s.mgr.entityVersion.length := by
      rw [h.versions]
      exact lt_irrefl _
    refine ⟨_, 1, m', hcreate, hout, ?_, fun hlt ↦ absurd hlt hend⟩
    rw [h.handedOut_eq_zero hend]
    rfl
  · rw [List.concat_eq_append] at hfree
    obtain ⟨version, m', hcreate, hout, hversion⟩ := handsOut_recycle h hfree
    exact ⟨index, version, m', hcreate, hout, hversion, fun _ ↦ by simp [hfree]⟩

/-- In a slot that was just handed out there is no component. -/
theorem HandsOut.component {m m' : EntityMgr V} {index version : UInt32}
    (h : HandsOut m m' index version) (cid : ℕ) :
    m'.component ⟨index, version⟩ cid = some none := by
  rw [EntityMgr.component]
  cases hpool : m'.pool cid with
  | none => rfl
  | some pool => simp [h.empty cid pool hpool index (Or.inl rfl)]

theorem inv_create {s : Entities V} (h : Inv s)
    (hbounded : ∀ s', s.exec .create = some s' → s'.Bounded) :
    ∃ s', s.exec .create = some s' ∧ Inv s' := by
  obtain ⟨index, version, m', hcreate, hout, hversion, hold⟩ := exists_create h
  have hexec : s.exec .create =
      some { s with mgr := m', issued := s.issued ++ [⟨index, version⟩] } := by
    rw [exec, hcreate]
    rfl
  have hb := hbounded _ hexec
  have hcount := hb.2 index
  rw [handedOut_append, if_pos rfl] at hcount
  refine ⟨_, hexec, inv_handsOut h hout ?_ hold hb⟩
  rw [hversion, UInt32.toNat_ofNat']
  omega

/-! ## The other operations -/

/-- The slot of a live id is not free, and its version is the one of the id. -/
theorem Inv.of_live {s : Entities V} (h : Inv s) {id : EntityId} (hid : id ∈ s.live) :
    id.idx.toNat < s.mgr.entityVersion.length ∧ id.ver.toNat = s.handedOut id.idx ∧
      id.idx ∉ s.mgr.freeList := by
  rw [live, List.mem_filter, decide_eq_true_eq] at hid
  obtain ⟨hissued, hnot⟩ := hid
  obtain ⟨hlt, -, hle⟩ := (h.issued id).mp hissued
  rw [h.destroyed id hissued, not_or] at hnot
  exact ⟨hlt, by omega, hnot.2⟩

/-- The live id of a slot is the one with the last version. -/
theorem Inv.eq_iff_of_live {s : Entities V} (h : Inv s) {id : EntityId} (hid : id ∈ s.live)
    (x : EntityId) : x = id ↔ x.idx = id.idx ∧ x.ver.toNat = s.handedOut x.idx := by
  rw [EntityId.eq_iff, (h.of_live hid).2.1]
  exact and_congr_right fun hidx ↦ by rw [hidx]

theorem Inv.destroyed_append {s : Entities V} (h : Inv s) {id : EntityId} (hid : id ∈ s.issued) :
    s.destroyed ++ [id] ⊆ s.issued := by
  refine List.append_subset.mpr ⟨h.destroyed_subset, ?_⟩
  exact List.cons_subset.mpr ⟨hid, List.nil_subset _⟩

theorem inv_destroy_again {s : Entities V} (h : Inv s) {id : EntityId}
    (hid : id ∈ s.destroyed) : Inv { s with destroyed := s.destroyed ++ [id] } where
  versions := h.versions
  pools := h.pools
  free_nodup := h.free_nodup
  free_lt := h.free_lt
  nodup := h.nodup
  issued := h.issued
  handedOut := h.handedOut
  version := h.version
  destroyed_subset := h.destroyed_append (h.destroyed_subset hid)
  destroyed x hx := by
    refine Iff.trans ?_ (h.destroyed x hx)
    rw [List.mem_append, List.mem_singleton]
    exact or_iff_left_of_imp fun heq ↦ heq ▸ hid
  empty := h.empty
  bounded := h.bounded

/-- A live id is destroyed: its slot becomes free, under the next version. -/
theorem inv_destroy_live {s : Entities V} (h : Inv s) {id : EntityId} (hid : id ∈ s.live) :
    Inv { s with
      mgr := { s.mgr with
        entityVersion := s.mgr.entityVersion.set id.idx.toNat (id.ver + 1)
        freeList := s.mgr.freeList ++ [id.idx]
        pools := s.mgr.pools.map (Option.map fun pool ↦ pool.set id.idx.toNat none) }
      destroyed := s.destroyed ++ [id] } := by
  obtain ⟨hlt, hver, hfree⟩ := h.of_live hid
  have hissued : id ∈ s.issued := (List.mem_filter.mp hid).1
  have hpool (cid : ℕ) : (s.mgr.pools.map (Option.map fun pool ↦
      pool.set id.idx.toNat none))[cid]?.join =
      (s.mgr.pool cid).map fun pool ↦ pool.set id.idx.toNat none :=
    EntityMgr.join_getElem?_map _ _ cid
  constructor
  · rw [List.length_set]
    exact h.versions
  · intro cid pool' hpool'
    obtain ⟨pool, hget, rfl⟩ := Option.map_eq_some_iff.mp ((hpool cid).symm.trans hpool')
    rw [List.length_set, List.length_set]
    exact h.pools cid pool hget
  · exact h.free_nodup.append (List.nodup_singleton _) (List.disjoint_singleton.mpr hfree)
  · intro i hi
    rw [List.length_set]
    rcases List.mem_append.mp hi with hi | hi
    · exact h.free_lt i hi
    · rwa [List.mem_singleton.mp hi]
  · exact h.nodup
  · intro x
    rw [List.length_set]
    exact h.issued x
  · intro i hi
    rw [List.length_set] at hi
    exact h.handedOut i hi
  · intro i hi
    rw [List.length_set] at hi
    dsimp only
    rw [EntityMgr.getElem?_set_slot hlt]
    by_cases hidx : i = id.idx
    · rw [if_pos hidx, hidx, if_pos (by simp), Option.some_inj, ← UInt32.toNat_inj,
        UInt32.toNat_add, UInt32.toNat_ofNat', hver]
      rfl
    · rw [if_neg hidx, h.version i hi]
      simp only [List.mem_append, List.mem_singleton, hidx, or_false]
      rfl
  · exact h.destroyed_append hissued
  · intro x hx
    have hle := ((h.issued x).mp hx).2.2
    rw [List.mem_append, List.mem_append, List.mem_singleton, List.mem_singleton,
      h.destroyed x hx, h.eq_iff_of_live hid]
    change _ ↔ x.ver.toNat < s.handedOut x.idx ∨ _
    by_cases hidx : x.idx = id.idx
    · simp only [hidx, hfree, true_and, or_true, iff_true, or_false]
      rw [hidx] at hle
      omega
    · simp [hidx]
  · intro cid pool' hpool' i hi
    obtain ⟨pool, hget, rfl⟩ := Option.map_eq_some_iff.mp ((hpool cid).symm.trans hpool')
    rw [EntityMgr.getElem?_set_slot (by rw [h.pools cid pool hget]; exact hlt)]
    split_ifs with hidx
    · rfl
    · refine h.empty cid pool hget i ((List.mem_append.mp hi).resolve_right ?_)
      simpa using hidx
  · refine ⟨?_, h.bounded.2⟩
    rw [List.length_set]
    exact h.bounded.1

theorem inv_destroy {s : Entities V} (h : Inv s) {id : EntityId} (hid : id ∈ s.issued) :
    ∃ s', s.exec (.destroy id) = some s' ∧ Inv s' := by
  by_cases hdestroyed : id ∈ s.destroyed
  · have hcheck : ¬ s.mgr.check id = true := mt (h.check_iff hid).mp (not_not.mpr hdestroyed)
    refine ⟨_, ?_, inv_destroy_again h hdestroyed⟩
    rw [exec, EntityMgr.destroy_of_not_check hcheck]
    rfl
  · have hlive : id ∈ s.live := List.mem_filter.mpr ⟨hid, by simpa using hdestroyed⟩
    have hpools (cid : ℕ) (pool : Compool V) (hpool : s.mgr.pool cid = some pool) :
        id.idx.toNat < pool.length := by
      rw [h.pools cid pool hpool]
      exact (h.of_live hlive).1
    refine ⟨_, ?_, inv_destroy_live h hlive⟩
    rw [exec, EntityMgr.destroy_of_check ((h.check_iff hid).mpr hdestroyed) hpools]
    rfl

/-- The pool that `add` writes to has a slot for every version, and those of free slots are
empty. -/
theorem Inv.poolOrNew {s : Entities V} (h : Inv s) (cid : ℕ) :
    (s.mgr.poolOrNew cid).length = s.mgr.entityVersion.length ∧
      ∀ i ∈ s.mgr.freeList, (s.mgr.poolOrNew cid)[i.toNat]? = some none := by
  rw [EntityMgr.poolOrNew]
  cases hpool : s.mgr.pool cid with
  | none =>
    rw [Option.getD_none, List.length_replicate]
    refine ⟨h.versions.symm, fun i hi ↦ ?_⟩
    rw [List.getElem?_replicate, if_pos (h.versions ▸ h.free_lt i hi)]
  | some pool => exact ⟨h.pools cid pool hpool, h.empty cid pool hpool⟩

theorem inv_add {s : Entities V} (h : Inv s) {id : EntityId} (hid : id ∈ s.live) (cid : ℕ)
    (value : Option V) : ∃ s', s.exec (.add id cid value) = some s' ∧ Inv s' := by
  obtain ⟨hlt, -, hfree⟩ := h.of_live hid
  obtain ⟨hlen, hempty⟩ := h.poolOrNew cid
  obtain ⟨m', hadd⟩ := EntityMgr.exists_add (hlen ▸ hlt) value
  obtain ⟨-, ⟨pools, rfl⟩, hpool⟩ := EntityMgr.add_cases hadd
  have hexec : s.exec (.add id cid value) =
      some { s with mgr := { s.mgr with pools := pools } } := by
    rw [exec, hadd]
    rfl
  refine ⟨_, hexec, h.versions, fun cid' pool' hpool' ↦ ?_, h.free_nodup, h.free_lt, h.nodup,
    h.issued, h.handedOut, h.version, h.destroyed_subset, h.destroyed,
    fun cid' pool' hpool' i hi ↦ ?_, h.bounded⟩
  · rw [hpool] at hpool'
    split_ifs at hpool'
    · obtain rfl := Option.some.inj hpool'
      rw [List.length_set]
      exact hlen
    · exact h.pools cid' pool' hpool'
  · rw [hpool] at hpool'
    split_ifs at hpool'
    · obtain rfl := Option.some.inj hpool'
      have hne : i ≠ id.idx := fun heq ↦ hfree (heq ▸ hi)
      rw [EntityMgr.getElem?_set_slot (hlen ▸ hlt), if_neg hne]
      exact hempty i hi
    · exact h.empty cid' pool' hpool' i hi

theorem exists_component {s : Entities V} (h : Inv s) {id : EntityId} (hid : id ∈ s.issued)
    (cid : ℕ) : s.exec (.component id cid) = some s := by
  rw [exec, EntityMgr.component]
  cases hpool : s.mgr.pool cid with
  | none => rfl
  | some pool =>
    have hlt : id.idx.toNat < pool.length := by
      rw [h.pools cid pool hpool]
      exact ((h.issued id).mp hid).1
    dsimp only
    rw [List.getElem?_eq_getElem hlt]
    rfl

/-- Every legal operation succeeds and keeps the invariant. -/
theorem inv_exec (s : Entities V) (op : Op V) (h : Inv s) (hlegal : s.Legal op) :
    ∃ s', s.exec op = some s' ∧ Inv s' := by
  cases op with
  | create => exact inv_create h hlegal.2
  | destroy id => exact inv_destroy h hlegal.1
  | add id cid value => exact inv_add h hlegal.1 cid value
  | component id cid => exact ⟨s, exists_component h hlegal.1 cid, h⟩
  | check id => exact ⟨s, rfl, h⟩

/-! ## The result -/

theorem Inv.consistent {s : Entities V} (h : Inv s) : s.Consistent := by
  have hinj (x : EntityId) (hx : x ∈ s.live) (y : EntityId) (hy : y ∈ s.live)
      (hidx : x.idx = y.idx) : x = y := by
    refine EntityId.eq_iff.mpr ⟨hidx, ?_⟩
    rw [(h.of_live hx).2.1, (h.of_live hy).2.1, hidx]
  refine ⟨fun id hid ↦ h.check_iff hid, ?_, fun i ↦ ?_, h.versions, fun pool hpool ↦ ?_⟩
  · refine h.free_nodup.append (List.Nodup.map_on hinj (h.nodup.filter _)) fun i hfree hlive ↦ ?_
    obtain ⟨id, hid, rfl⟩ := List.mem_map.mp hlive
    exact (h.of_live hid).2.2 hfree
  · rw [List.mem_append, ← h.versions]
    constructor
    · rintro (hfree | hlive)
      · exact h.free_lt i hfree
      · obtain ⟨id, hid, rfl⟩ := List.mem_map.mp hlive
        exact (h.of_live hid).1
    · intro hlt
      by_cases hfree : i ∈ s.mgr.freeList
      · exact Or.inl hfree
      -- The last id that the slot was handed out under is live.
      have hver : (UInt32.ofNat (s.handedOut i)).toNat = s.handedOut i := by
        rw [UInt32.toNat_ofNat']
        exact Nat.mod_eq_of_lt (h.handedOut_lt i)
      have hissued : (⟨i, UInt32.ofNat (s.handedOut i)⟩ : EntityId) ∈ s.issued := by
        rw [h.issued, hver]
        exact ⟨hlt, h.handedOut i hlt, le_rfl⟩
      refine Or.inr (List.mem_map.mpr ⟨_, List.mem_filter.mpr ⟨hissued, ?_⟩, rfl⟩)
      rw [decide_eq_true_eq, h.destroyed _ hissued, hver]
      simpa using hfree
  · obtain ⟨cid, hcid⟩ := EntityMgr.exists_pool_of_mem hpool
    rw [h.pools cid pool hcid, h.versions]

/-- After every sequence of legal operations no access was out of range, the four structures are
consistent, and the next entity to be created has no component of any type. -/
theorem consistent_of_legal {ops : List (Op V)} (hok : Machine.AllSteps exec Legal {} ops) :
    ∃ s : Entities V, Machine.run exec {} ops = some s ∧ s.Consistent ∧
      ∃ id m', s.mgr.create = some (id, m') ∧ ∀ cid, m'.component id cid = some none := by
  obtain ⟨s, hrun, hinv⟩ := Machine.exists_run_of_total inv_exec inv_init hok
  obtain ⟨index, version, m', hcreate, hout, -⟩ := exists_create hinv
  exact ⟨s, hrun, hinv.consistent, _, m', hcreate, hout.component⟩

/-- What a run of few operations meets: the bounds are far away. -/
def Small (s : Entities V) (op : Op V) : Prop :=
  s.Proper op ∧ ∀ s' ∈ s.exec op, s'.mgr.entityVersion.length < 100 ∧ s'.issued.length < 100

instance (s : Entities V) : ∀ op, Decidable (s.Proper op)
  | .create | .check _ => inferInstanceAs (Decidable True)
  | .destroy _ | .component _ _ | .add _ _ _ => inferInstanceAs (Decidable (_ ∈ _))

instance (s : Entities V) (op : Op V) : Decidable (s.Small op) :=
  inferInstanceAs (Decidable (_ ∧ ∀ s' ∈ s.exec op, _ ∧ _))

theorem legal_of_small (s : Entities V) (op : Op V) (h : s.Small op) : s.Legal op := by
  refine ⟨h.1, fun s' hexec ↦ ?_⟩
  obtain ⟨hversions, hissued⟩ := h.2 s' hexec
  refine ⟨by omega, fun i ↦ ?_⟩
  have hle : s'.handedOut i ≤ s'.issued.length := List.countP_le_length
  omega

/-- A slot is destroyed twice under one id and handed out again; its old component is gone. -/
theorem consistent_of_legal_recycled :
    ∃ s : Entities ℕ, Machine.run exec {} [.create, .create, .add ⟨0, 1⟩ 3 (some 7),
        .destroy ⟨0, 1⟩, .destroy ⟨0, 1⟩, .create, .component ⟨0, 2⟩ 3] = some s ∧
      s.Consistent ∧
      ∃ id m', s.mgr.create = some (id, m') ∧ ∀ cid, m'.component id cid = some none :=
  consistent_of_legal (Machine.AllSteps.mono legal_of_small (by decide))

end Entities

end Cqy
