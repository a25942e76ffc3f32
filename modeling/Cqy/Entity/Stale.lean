import Cqy.Entity.Query

/-!
# What can be done through a stale id

`destroy` and the queries compare the version of an id with that of its slot.  `component` and
`add` use the slot alone.  An id that does not pass `check` therefore reads and writes what the
owner of the slot has: the entity that the slot was handed out to again, or the one that it will be
handed out to next.
-/

namespace Cqy

open Foundation

namespace Entities

variable {V : Type}

/-- The slot that the operation reads or writes exists. -/
def Usable (s : Entities V) : Op V → Prop
  | .create | .destroy _ | .check _ => True
  | .add id _ _ | .component id _ => id.idx.toNat < s.mgr.entityVersion.length

/-- The same ids are live, and have the same components. -/
def SameLive (s s' : Entities V) : Prop :=
  s'.issued = s.issued ∧ ∀ id ∈ s.issued, s'.mgr.check id = s.mgr.check id ∧
    (s.mgr.check id = true → ∀ cid, s'.mgr.component id cid = s.mgr.component id cid)

/-- Whether the component is added or not, no live entity sees a difference, now or after any
operations that follow. -/
def Inert (s : Entities V) (id : EntityId) (cid : ℕ) (value : Option V) : Prop :=
  ∃ s', s.exec (.add id cid value) = some s' ∧
    ∀ ops t, Machine.AllSteps exec Usable s ops → Machine.run exec s ops = some t →
      ∃ t', Machine.run exec s' ops = some t' ∧ SameLive t t'

/-- If the id is stale, lookups through it find nothing and additions through it are inert. -/
def StaleInert (s : Entities V) (id : EntityId) : Prop :=
  s.mgr.check id = false →
    (∀ cid, s.mgr.component id cid = some none) ∧ ∀ cid value, s.Inert id cid value

/-! ## The owner of a slot -/

/-- Every slot is free or was handed out under its present version. -/
structure Owned (s : Entities V) : Prop where
  aligned : s.mgr.Aligned
  owner : ∀ id, s.mgr.check id = true → id.idx ∈ s.mgr.freeList ∨ id ∈ s.issued

theorem owned_init : Owned ({} : Entities V) where
  aligned := EntityMgr.aligned_init
  owner := by simp [EntityMgr.check]

theorem Owned.create {s : Entities V} (h : Owned s) {id : EntityId} {mgr : EntityMgr V}
    (hcreate : s.mgr.create = some (id, mgr)) :
    Owned { s with mgr := mgr, issued := s.issued ++ [id] } := by
  refine ⟨h.aligned.create hcreate, fun x hx ↦ ?_⟩
  rcases (h.aligned.check_create hcreate x).mp hx with hcheck | rfl
  · rcases h.owner x hcheck with hfree | hissued
    · rcases h.aligned.create_cases hcreate with ⟨hnil, -⟩ | ⟨free, hsplit, hid, rfl⟩
      · rw [hnil] at hfree
        exact absurd hfree List.not_mem_nil
      · rw [hsplit, List.mem_append, List.mem_singleton] at hfree
        rcases hfree with hfree | hidx
        · exact Or.inl hfree
        · -- The slot that is handed out has one version.
          have hver := (EntityMgr.check_iff.mp hcheck).symm.trans
            (hidx ▸ EntityMgr.check_iff.mp hid)
          have heq : x = id := EntityId.eq_iff.mpr ⟨hidx, by rw [Option.some.inj hver]⟩
          exact Or.inr (heq ▸ List.mem_append_right _ (List.mem_singleton.mpr rfl))
    · exact Or.inr (List.mem_append_left _ hissued)
  · exact Or.inr (List.mem_append_right _ (List.mem_singleton.mpr rfl))

theorem Owned.destroy {s : Entities V} (h : Owned s) {id : EntityId} {mgr : EntityMgr V}
    (hdestroy : s.mgr.destroy id = some mgr) (destroyed : List EntityId) :
    Owned { s with mgr := mgr, destroyed := destroyed } := by
  refine ⟨h.aligned.destroy hdestroy, fun x hx ↦ ?_⟩
  rcases h.aligned.destroy_cases id with ⟨-, hsame⟩ | ⟨hcheck, hreset⟩
  · rw [hsame, Option.some_inj] at hdestroy
    subst hdestroy
    exact h.owner x hx
  · rw [hreset, Option.some_inj] at hdestroy
    subst hdestroy
    have hlt := EntityMgr.idx_lt_of_check hcheck
    rw [EntityMgr.check_iff, EntityMgr.getElem?_set_slot hlt] at hx
    split_ifs at hx with hidx
    · exact Or.inl (List.mem_append_right _ (List.mem_singleton.mpr hidx))
    · exact (h.owner x (EntityMgr.check_iff.mpr hx)).imp_left (List.mem_append_left _)

theorem owned_exec (s : Entities V) (op : Op V) (s' : Entities V) (h : Owned s)
    (hexec : s.exec op = some s') : Owned s' := by
  cases op with
  | create =>
    obtain ⟨⟨id, mgr⟩, hcreate, rfl⟩ := Option.map_eq_some_iff.mp hexec
    exact h.create hcreate
  | destroy id =>
    obtain ⟨mgr, hdestroy, rfl⟩ := Option.map_eq_some_iff.mp hexec
    exact h.destroy hdestroy _
  | add id cid value =>
    obtain ⟨mgr, hadd, rfl⟩ := Option.map_eq_some_iff.mp hexec
    obtain ⟨-, ⟨pools, rfl⟩, -⟩ := EntityMgr.add_cases hadd
    exact ⟨h.aligned.add hadd, h.owner⟩
  | component id cid =>
    obtain ⟨-, -, rfl⟩ := Option.map_eq_some_iff.mp hexec
    exact h
  | check id => exact Option.some.inj hexec ▸ h

theorem owned_of_reachable {s : Entities V} (h : Machine.Reachable exec {} s) : Owned s :=
  h.invariant owned_exec owned_init

/-! ## Creating until a slot is handed out -/

theorem exec_create {s : Entities V} {id : EntityId} {mgr : EntityMgr V}
    (hcreate : s.mgr.create = some (id, mgr)) :
    s.exec .create = some { s with mgr := mgr, issued := s.issued ++ [id] } := by
  rw [exec, hcreate]
  rfl

/-- Creating entities changes no component. -/
theorem held_of_creates {n : ℕ} {s t : Entities V} (h : s.mgr.Aligned)
    (hrun : Machine.run exec s (List.replicate n .create) = some t) (x : EntityId) (cid : ℕ) :
    t.mgr.held x cid = s.mgr.held x cid := by
  induction n generalizing s with
  | zero =>
    rw [List.replicate_zero, Machine.run_nil, Option.some_inj] at hrun
    rw [hrun]
  | succ n ih =>
    rw [List.replicate_succ] at hrun
    obtain ⟨s', hexec, hrest⟩ := Machine.run_cons_eq_some.mp hrun
    obtain ⟨⟨id, mgr⟩, hcreate, rfl⟩ := Option.map_eq_some_iff.mp hexec
    exact (ih (h.create hcreate) hrest).trans (h.held_create hcreate x cid)

theorem usable_creates (s : Entities V) (n : ℕ) :
    Machine.AllSteps exec Usable s (List.replicate n .create) := by
  induction n generalizing s with
  | zero => exact trivial
  | succ n ih => exact ⟨trivial, fun s' _ ↦ ih s'⟩

/-- An id under which a slot was or would be handed out is live after enough new entities. -/
theorem exists_live {s : Entities V} (h : Owned s) {id : EntityId}
    (hcheck : s.mgr.check id = true) :
    ∃ n t, Machine.run exec s (List.replicate n .create) = some t ∧ id ∈ t.issued ∧
      t.mgr.check id = true := by
  induction hfree : s.mgr.freeList using List.reverseRecOn generalizing s with
  | nil =>
    have hissued := (h.owner id hcheck).resolve_left (by simp [hfree])
    exact ⟨0, s, rfl, hissued, hcheck⟩
  | append_singleton free index ih =>
    have hlt := h.aligned.free_lt index (by simp [hfree])
    have hcreate := EntityMgr.create_recycle hfree (List.getElem?_eq_getElem hlt)
    obtain ⟨n, t, hrun, ht⟩ := ih (h.create hcreate)
      ((h.aligned.check_create hcreate id).mpr (Or.inl hcheck)) rfl
    refine ⟨n + 1, t, ?_, ht⟩
    rw [List.replicate_succ]
    exact Machine.run_cons_eq_some.mpr ⟨_, exec_create hcreate, hrun⟩

/-! ## Managers that cannot be told apart -/

/-- The slots are the same and hold the same values; the pools may have been made at other times. -/
structure SameView (m m' : EntityMgr V) : Prop where
  aligned : m.Aligned
  aligned' : m'.Aligned
  counter : m'.indexCounter = m.indexCounter
  free : m'.freeList = m.freeList
  versions : m'.entityVersion = m.entityVersion
  held : ∀ id cid, m'.held id cid = m.held id cid

section SameView

variable {m m' n : EntityMgr V} {id : EntityId}

theorem SameView.check (h : SameView m m') (id : EntityId) : m'.check id = m.check id := by
  rw [EntityMgr.check, EntityMgr.check, h.versions]

theorem SameView.create (h : SameView m m') (hcreate : m.create = some (id, n)) :
    ∃ n', m'.create = some (id, n') ∧ SameView n n' := by
  have hheld (n' : EntityMgr V) (hcreate' : m'.create = some (id, n')) (x : EntityId) (cid : ℕ) :
      n'.held x cid = n.held x cid := by
    rw [h.aligned'.held_create hcreate', h.aligned.held_create hcreate, h.held]
  rcases h.aligned.create_cases hcreate with ⟨hfree, hlt, rfl, rfl⟩ | ⟨free, hfree, hcheck, rfl⟩
  · have hcreate' := EntityMgr.create_fresh (h.free.trans hfree) h.aligned'.versions
      (h.versions ▸ hlt)
    rw [h.counter] at hcreate'
    refine ⟨_, hcreate', h.aligned.create hcreate, h.aligned'.create hcreate', rfl, h.free, ?_,
      hheld _ hcreate'⟩
    rw [h.versions]
  · have hver := EntityMgr.check_iff.mp (h.check id ▸ hcheck)
    have hcreate' := EntityMgr.create_recycle (h.free.trans hfree) hver
    exact ⟨_, hcreate', h.aligned.create hcreate, h.aligned'.create hcreate', h.counter, rfl,
      h.versions, hheld _ hcreate'⟩

theorem SameView.destroy (h : SameView m m') (hdestroy : m.destroy id = some n) :
    ∃ n', m'.destroy id = some n' ∧ SameView n n' := by
  have hcheck := h.check id
  rcases h.aligned.destroy_cases id with ⟨hnot, hsame⟩ | ⟨hpass, hreset⟩
  · rw [hsame, Option.some_inj] at hdestroy
    subst hdestroy
    exact ⟨m', EntityMgr.destroy_of_not_check (by simp [hcheck, hnot]), h⟩
  · rcases h.aligned'.destroy_cases id with ⟨hnot', -⟩ | ⟨hpass', hreset'⟩
    · rw [hcheck, hpass] at hnot'
      exact absurd hnot' (by decide)
    · have hheld (n' : EntityMgr V) (hdestroy' : m'.destroy id = some n') (x : EntityId)
          (cid : ℕ) : n'.held x cid = n.held x cid := by
        rw [h.aligned'.held_destroy hpass' hdestroy', h.aligned.held_destroy hpass hdestroy, h.held]
      have haligned := h.aligned.destroy hdestroy
      rw [hreset, Option.some_inj] at hdestroy
      subst hdestroy
      exact ⟨_, hreset', haligned, h.aligned'.destroy hreset', h.counter,
        congrArg (· ++ [id.idx]) h.free, congrArg (·.set id.idx.toNat (id.ver + 1)) h.versions,
        hheld _ hreset'⟩

theorem SameView.add (h : SameView m m') {cid : ℕ} {value : Option V}
    (hadd : m.add id cid value = some n) : ∃ n', m'.add id cid value = some n' ∧ SameView n n' := by
  have hlt : id.idx.toNat < (m'.poolOrNew cid).length := by
    rw [h.aligned'.length_poolOrNew, h.versions, ← h.aligned.length_poolOrNew cid]
    exact (EntityMgr.add_cases hadd).1
  obtain ⟨n', hadd'⟩ := EntityMgr.exists_add hlt value
  have hheld (x : EntityId) (cid' : ℕ) : n'.held x cid' = n.held x cid' := by
    rw [EntityMgr.held_add hadd', EntityMgr.held_add hadd, h.held]
  have haligned := h.aligned.add hadd
  have haligned' := h.aligned'.add hadd'
  obtain ⟨-, ⟨pools, rfl⟩, -⟩ := EntityMgr.add_cases hadd
  obtain ⟨-, ⟨pools', rfl⟩, -⟩ := EntityMgr.add_cases hadd'
  exact ⟨_, hadd', haligned, haligned', h.counter, h.free, h.versions, hheld⟩

theorem SameView.component (h : SameView m m') (hlt : id.idx.toNat < m.entityVersion.length)
    (cid : ℕ) : m'.component id cid = m.component id cid := by
  rw [h.aligned.component hlt, h.aligned'.component (h.versions ▸ hlt), h.held]

end SameView

/-- The same ids were handed out by managers that cannot be told apart. -/
def Alike (s s' : Entities V) : Prop := s'.issued = s.issued ∧ SameView s.mgr s'.mgr

/-- What is usable in one goes through in the other. -/
theorem alike_exec (s : Entities V) (op : Op V) (t s' : Entities V) (h : Alike s s')
    (husable : s.Usable op) (hexec : s.exec op = some t) :
    ∃ t', s'.exec op = some t' ∧ Alike t t' := by
  obtain ⟨hissued, hview⟩ := h
  cases op with
  | create =>
    obtain ⟨⟨id, mgr⟩, hcreate, rfl⟩ := Option.map_eq_some_iff.mp hexec
    obtain ⟨mgr', hcreate', hview'⟩ := hview.create hcreate
    exact ⟨_, exec_create hcreate', congrArg (· ++ [id]) hissued, hview'⟩
  | destroy id =>
    obtain ⟨mgr, hdestroy, rfl⟩ := Option.map_eq_some_iff.mp hexec
    obtain ⟨mgr', hdestroy', hview'⟩ := hview.destroy hdestroy
    exact ⟨_, Option.map_eq_some_iff.mpr ⟨mgr', hdestroy', rfl⟩, hissued, hview'⟩
  | add id cid value =>
    obtain ⟨mgr, hadd, rfl⟩ := Option.map_eq_some_iff.mp hexec
    obtain ⟨mgr', hadd', hview'⟩ := hview.add hadd
    exact ⟨_, Option.map_eq_some_iff.mpr ⟨mgr', hadd', rfl⟩, hissued, hview'⟩
  | component id cid =>
    obtain ⟨p, hcomponent, rfl⟩ := Option.map_eq_some_iff.mp hexec
    rw [← hview.component husable] at hcomponent
    exact ⟨s', Option.map_eq_some_iff.mpr ⟨p, hcomponent, rfl⟩, hissued, hview⟩
  | check id =>
    obtain rfl := Option.some.inj hexec
    exact ⟨s', rfl, hissued, hview⟩

theorem Alike.sameLive {s s' : Entities V} (h : Alike s s') : SameLive s s' :=
  ⟨h.1, fun x _ ↦ ⟨h.2.check x, fun hcheck ↦ h.2.component (EntityMgr.idx_lt_of_check hcheck)⟩⟩

/-! ## The result -/

/-- An addition, through whatever id, can be seen unless it adds the value that the slot holds. -/
theorem inert_iff {s : Entities V} (h : Machine.Reachable exec {} s) (id : EntityId) (cid : ℕ)
    (value : Option V) : s.Inert id cid value ↔
      id.idx.toNat < s.mgr.entityVersion.length ∧ s.mgr.held id cid = value := by
  have howned := owned_of_reachable h
  constructor
  · rintro ⟨s', hadd, hsame⟩
    obtain ⟨mgr, hmgr, rfl⟩ := Option.map_eq_some_iff.mp hadd
    have hlt : id.idx.toNat < s.mgr.entityVersion.length := by
      rw [← howned.aligned.length_poolOrNew cid]
      exact (EntityMgr.add_cases hmgr).1
    refine ⟨hlt, ?_⟩
    -- The owner of the slot, now or after some new entities, looks into it.
    have hcheck : s.mgr.check ⟨id.idx, s.mgr.entityVersion[id.idx.toNat]⟩ = true :=
      EntityMgr.check_iff.mpr (List.getElem?_eq_getElem hlt)
    obtain ⟨n, t, hrun, hissued, hlive⟩ := exists_live howned hcheck
    obtain ⟨t', hrun', hview⟩ := hsame _ t (usable_creates s n) hrun
    have hcomponent := (hview.2 _ hissued).2 hlive cid
    calc s.mgr.held id cid
        = t.mgr.held ⟨id.idx, s.mgr.entityVersion[id.idx.toNat]⟩ cid :=
          (held_of_creates howned.aligned hrun _ cid).symm
      _ = t'.mgr.held ⟨id.idx, s.mgr.entityVersion[id.idx.toNat]⟩ cid :=
          congrArg Option.join hcomponent.symm
      _ = mgr.held ⟨id.idx, s.mgr.entityVersion[id.idx.toNat]⟩ cid :=
          held_of_creates (howned.aligned.add hmgr) hrun' _ cid
      _ = value := (EntityMgr.held_add hmgr _ cid).trans (if_pos ⟨rfl, rfl⟩)
  · rintro ⟨hlt, hheld⟩
    obtain ⟨mgr, hmgr⟩ := EntityMgr.exists_add
      (howned.aligned.length_poolOrNew cid ▸ hlt) value
    have hsame (x : EntityId) (cid' : ℕ) : mgr.held x cid' = s.mgr.held x cid' := by
      rw [EntityMgr.held_add hmgr]
      split_ifs with hslot
      · rw [← hheld, EntityMgr.held_eq, EntityMgr.held_eq, hslot.1, hslot.2]
      · rfl
    have hadd : s.exec (.add id cid value) = some { s with mgr := mgr } := by
      rw [exec, hmgr]
      rfl
    refine ⟨_, hadd, fun ops t husable hrun ↦ ?_⟩
    obtain ⟨-, ⟨pools, rfl⟩, -⟩ := EntityMgr.add_cases hmgr
    have halike : Alike s { s with mgr := { s.mgr with pools := pools } } :=
      ⟨rfl, howned.aligned, howned.aligned.add hmgr, rfl, rfl, rfl, hsame⟩
    obtain ⟨t', hrun', halike'⟩ := Machine.lockstep alike_exec halike husable hrun
    exact ⟨t', hrun', halike'.sameLive⟩

/-- No stale id is inert: a component of a type that no entity has had, added through it, reaches
the owner of the slot, or the slot does not exist and the access is out of range. -/
theorem staleInert_iff {s : Entities V} (h : Machine.Reachable exec {} s) (id : EntityId) (v : V) :
    s.StaleInert id ↔ s.mgr.check id = true := by
  constructor
  · intro hinert
    by_contra hcheck
    have hadd := (hinert (Bool.eq_false_iff.mpr hcheck)).2 s.mgr.pools.length (some v)
    have hheld := ((inert_iff h id _ _).mp hadd).2
    have hpool : s.mgr.pool s.mgr.pools.length = none := by
      rw [EntityMgr.pool, List.getElem?_eq_none le_rfl, Option.join_none]
    rw [EntityMgr.held_eq, hpool] at hheld
    exact Option.some_ne_none v hheld.symm
  · intro hcheck hstale
    rw [hcheck] at hstale
    exact absurd hstale (by decide)

theorem not_staleInert_twoEntities : ¬ twoEntities.StaleInert ⟨1, 0⟩ :=
  mt (staleInert_iff twoEntities_reachable ⟨1, 0⟩ 7).mp (by decide)

/-- The zero id reads the component of the entity in the first slot. -/
theorem staleInert_zeroId :
    ¬ ∀ (s : Entities ℕ) (id : EntityId), Machine.Reachable exec {} s → s.StaleInert id := by
  intro hinert
  have hzero := hinert twoEntities ⟨0, 0⟩ twoEntities_reachable (by decide)
  exact absurd (hzero.1 0) (by decide)

end Entities

end Cqy
