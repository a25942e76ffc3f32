import Cqy.Entity.Aligned

/-!
# Queries over several component types

`entities_with_components` goes through a list of ids and tests the slot of each in the pools of
the given types.  A single lookup compares the number of the type with the number of pools before
it looks for the pool; the query does not.
-/

namespace Cqy

open Foundation

namespace EntityMgr

variable {V : Type}

/-- `f_check` on `pools_[component_id<T>()]`.  The access to `pools_` comes before the test of the
pointer. -/
def fCheck (m : EntityMgr V) (cid : ℕ) (idx : UInt32) : Option Bool :=
  match m.pools[cid]? with
  | none => none
  | some none => some false
  | some (some pool) => pool[idx.toNat]?.map fun p ↦ p.join.isSome

/-- The fold of `f_check` over the types, from the first one on and with `&&`. -/
def fCheckAll (m : EntityMgr V) (idx : UInt32) : List ℕ → Option Bool
  | [] => some true
  | cid :: cids => (m.fCheck cid idx).bind fun b ↦ if b then m.fCheckAll idx cids else some false

/-- The body of the loop of `entities_with_components`. -/
def collectEntity (m : EntityMgr V) (cids : List ℕ) (res : List EntityId) (eid : EntityId) :
    Option (List EntityId) :=
  if m.check eid then (m.fCheckAll eid.idx cids).map fun b ↦ if b then res ++ [eid] else res
  else some res

/-- `entity_mgr_t::entities_with_components`. -/
def entitiesWithComponents (m : EntityMgr V) (cids : List ℕ) (entitys : List EntityId) :
    Option (List EntityId) :=
  entitys.foldlM (m.collectEntity cids) []

/-- `component<T>(id)` is not null. -/
def HasComponent (m : EntityMgr V) (id : EntityId) (cid : ℕ) : Prop :=
  ∃ v, m.component id cid = some (some v)

/-- The ids that the single lookups would select. -/
def Selected (m : EntityMgr V) (cids : List ℕ) (id : EntityId) : Prop :=
  m.check id = true ∧ ∀ cid ∈ cids, m.HasComponent id cid

instance (m : EntityMgr V) (id : EntityId) (cid : ℕ) : Decidable (m.HasComponent id cid) :=
  match h : m.component id cid with
  | some (some v) => isTrue ⟨v, h⟩
  | some none => isFalse (by simp [HasComponent, h])
  | none => isFalse (by simp [HasComponent, h])

instance (m : EntityMgr V) (cids : List ℕ) (id : EntityId) : Decidable (m.Selected cids id) :=
  inferInstanceAs (Decidable (_ ∧ _))

/-- The types whose pools are accessed for an id: up to the first that it has no component of. -/
def InRange (m : EntityMgr V) (cids : List ℕ) (id : EntityId) : Prop :=
  ∀ pre cid post, cids = pre ++ cid :: post → (∀ c ∈ pre, m.HasComponent id c) →
    cid < m.pools.length

/-! ## One id -/

section

variable {m : EntityMgr V} {id : EntityId}

theorem fCheck_eq_none {cid : ℕ} (h : ¬ cid < m.pools.length) : m.fCheck cid id.idx = none := by
  rw [fCheck, List.getElem?_eq_none (Nat.le_of_not_lt h)]

theorem hasComponent_iff (h : m.Aligned) (hlt : id.idx.toNat < m.entityVersion.length) {cid : ℕ} :
    m.HasComponent id cid ↔ (m.held id cid).isSome = true := by
  unfold HasComponent
  rw [h.component hlt, Option.isSome_iff_exists]
  simp only [Option.some_inj]

/-- Where the pool number is in range, the test agrees with the single lookup. -/
theorem fCheck_eq_some (h : m.Aligned) (hlt : id.idx.toNat < m.entityVersion.length) {cid : ℕ}
    (hcid : cid < m.pools.length) :
    m.fCheck cid id.idx = some (decide (m.HasComponent id cid)) := by
  have hget : m.pools[cid]? = some m.pools[cid] := List.getElem?_eq_getElem hcid
  have hpool : m.pool cid = m.pools[cid] := by rw [EntityMgr.pool, hget, Option.join_some]
  simp only [hasComponent_iff h hlt, held_eq, hpool, fCheck, hget]
  cases hp : m.pools[cid] with
  | none => rfl
  | some pool =>
    have hidx : id.idx.toNat < pool.length := by
      rw [h.pools cid pool (hpool.trans hp)]
      exact hlt
    simp [List.getElem?_eq_getElem hidx]

theorem inRange_nil : m.InRange [] id := by
  intro pre cid post heq
  exact absurd heq (by simp)

theorem inRange_cons {cid : ℕ} {cids : List ℕ} :
    m.InRange (cid :: cids) id ↔
      cid < m.pools.length ∧ (m.HasComponent id cid → m.InRange cids id) := by
  constructor
  · intro h
    refine ⟨h [] cid cids rfl (by simp), fun hhas pre c post heq hpre ↦ ?_⟩
    exact h (cid :: pre) c post (by rw [heq, List.cons_append])
      (List.forall_mem_cons.mpr ⟨hhas, hpre⟩)
  · rintro ⟨hlt, hrest⟩ pre c post heq hpre
    cases pre with
    | nil =>
      rw [List.nil_append, List.cons.injEq] at heq
      exact heq.1 ▸ hlt
    | cons p pre =>
      rw [List.cons_append, List.cons.injEq] at heq
      rw [List.forall_mem_cons] at hpre
      exact hrest (heq.1 ▸ hpre.1) pre c post heq.2 hpre.2

instance (m : EntityMgr V) (id : EntityId) : ∀ cids, Decidable (m.InRange cids id)
  | [] => isTrue inRange_nil
  | cid :: cids =>
    have : Decidable (m.InRange cids id) := instDecidableInRange m id cids
    decidable_of_iff (cid < m.pools.length ∧ (m.HasComponent id cid → m.InRange cids id))
      inRange_cons.symm

/-- The fold agrees with the single lookups if every access to `pools_` is in range, and has no
value otherwise. -/
theorem fCheckAll_eq (h : m.Aligned) (hlt : id.idx.toNat < m.entityVersion.length)
    (cids : List ℕ) :
    (m.InRange cids id → m.fCheckAll id.idx cids =
      some (decide (∀ cid ∈ cids, m.HasComponent id cid))) ∧
    (¬ m.InRange cids id → m.fCheckAll id.idx cids = none) := by
  induction cids with
  | nil => simp [inRange_nil, fCheckAll]
  | cons cid cids ih =>
    rw [inRange_cons, fCheckAll]
    by_cases hcid : cid < m.pools.length
    · rw [fCheck_eq_some h hlt hcid]
      by_cases hhas : m.HasComponent id cid
      · simpa [hcid, hhas] using ih
      · simp [hcid, hhas]
    · simp [hcid, fCheck_eq_none hcid]

end

/-! ## The list of ids -/

theorem collectEntity_of_inRange {m : EntityMgr V} (h : m.Aligned) {cids : List ℕ}
    {eid : EntityId} (hrange : m.check eid = true → m.InRange cids eid) (res : List EntityId) :
    m.collectEntity cids res eid = some (if m.Selected cids eid then res ++ [eid] else res) := by
  unfold collectEntity
  by_cases hcheck : m.check eid = true
  · rw [if_pos hcheck, (fCheckAll_eq h (idx_lt_of_check hcheck) cids).1 (hrange hcheck)]
    simp [Selected, hcheck]
  · rw [if_neg hcheck, if_neg fun hsel ↦ hcheck hsel.1]

theorem collectEntity_of_not_inRange {m : EntityMgr V} (h : m.Aligned) {cids : List ℕ}
    {eid : EntityId} (hcheck : m.check eid = true) (hrange : ¬ m.InRange cids eid)
    (res : List EntityId) : m.collectEntity cids res eid = none := by
  rw [collectEntity, if_pos hcheck, (fCheckAll_eq h (idx_lt_of_check hcheck) cids).2 hrange]
  rfl

theorem foldlM_collectEntity_iff {m : EntityMgr V} (h : m.Aligned) {cids : List ℕ}
    (entitys res : List EntityId) :
    entitys.foldlM (m.collectEntity cids) res =
        some (res ++ entitys.filter fun eid ↦ m.Selected cids eid) ↔
      ∀ eid ∈ entitys, m.check eid = true → m.InRange cids eid := by
  induction entitys generalizing res with
  | nil => simp
  | cons eid entitys ih =>
    rw [List.foldlM_cons, List.forall_mem_cons, List.filter_cons]
    by_cases hrange : m.check eid = true → m.InRange cids eid
    · rw [collectEntity_of_inRange h hrange, Option.bind_eq_bind, Option.bind_some,
        and_iff_right hrange, ← ih (if m.Selected cids eid then res ++ [eid] else res)]
      by_cases hsel : m.Selected cids eid
      · simp [hsel]
      · simp [hsel]
    · obtain ⟨hcheck, hnot⟩ := Classical.not_imp.mp hrange
      rw [collectEntity_of_not_inRange h hcheck hnot]
      simp [hrange]

end EntityMgr

namespace Entities

variable {V : Type}

/-- In every reachable state the query returns what the single lookups select, if for each id that
passes `check` the types up to the first without a component have numbers below the number of
pools.  Otherwise it makes an access that is out of range. -/
theorem entitiesWithComponents_iff {s : Entities V} (h : Machine.Reachable exec {} s)
    (cids : List ℕ) (entitys : List EntityId) :
    s.mgr.entitiesWithComponents cids entitys =
        some (entitys.filter fun eid ↦ s.mgr.Selected cids eid) ↔
      ∀ eid ∈ entitys, s.mgr.check eid = true → s.mgr.InRange cids eid :=
  EntityMgr.foldlM_collectEntity_iff (aligned_of_reachable h) entitys []

/-- Two entities, the first with a component. -/
def twoEntities : Entities ℕ where
  mgr := { indexCounter := 2, pools := [some [some (some 7), none]], entityVersion := [1, 1] }
  issued := [⟨0, 1⟩, ⟨1, 1⟩]

theorem twoEntities_reachable : Machine.Reachable exec {} twoEntities :=
  ⟨[.create, .create, .add ⟨0, 1⟩ 0 (some 7)], by decide⟩

/-- The id of an entity with the component is given twice, and a stale id is among them. -/
theorem entitiesWithComponents_twoEntities :
    twoEntities.mgr.entitiesWithComponents [0] [⟨0, 1⟩, ⟨1, 1⟩, ⟨0, 9⟩, ⟨0, 1⟩] =
      some ([⟨0, 1⟩, ⟨1, 1⟩, ⟨0, 9⟩, ⟨0, 1⟩].filter fun eid ↦ twoEntities.mgr.Selected [0] eid) :=
  (entitiesWithComponents_iff twoEntities_reachable _ _).mpr (by decide)

/-- The number 1 is that of a type which no entity has had. -/
theorem entitiesWithComponents_unseen :
    ¬ ∀ (s : Entities ℕ) (cids : List ℕ) (entitys : List EntityId),
      Machine.Reachable exec {} s → cids ≠ [] →
      s.mgr.entitiesWithComponents cids entitys =
        some (entitys.filter fun eid ↦ s.mgr.Selected cids eid) := by
  intro hagree
  have hquery := hagree twoEntities [1] [⟨0, 1⟩] twoEntities_reachable (by decide)
  exact absurd hquery (by decide)

end Entities

end Cqy
