import Cqy.Foundation.Machine
import Cqy.Registry.CtxMgr

/-!
# Creating and stopping contexts

`cqy_app::create_ctx` draws a number, builds the id of the new context from it, runs `on_init` and
only then inserts the context into the registry; `stop_ctx` looks a context up and deletes its id
in a second step.  Each of these runs on its own thread, so the machine below lets any number of
them interleave between their accesses to the registry.  Contexts are numbered by the order in
which their ids were drawn.

The id keeps 24 bits of the counter, and insertion is a `try_emplace` whose failure is asserted,
not handled.  An id therefore belongs to the context that was created with it as long as the
contexts still in the table and the new one have different numbers modulo `2 ^ 24`, and as long as
a node with id 0 does not draw a multiple of `2 ^ 24`, which would yield the failure value 0.
-/

namespace Cqy

open Foundation Foundation.Machine

/-- The id that `create_ctx` builds from the number it drew. -/
def createdHandle (nodeid : UInt8) (newId : UInt32) : CqyHandle :=
  ((CqyHandle.mk 0).setCtxid newId).setNodeid nodeid

/-- A call of `stop_ctx` under way. -/
inductive StopCall
  /-- The id is known, by `find_name` or from the caller. -/
  | found (id : UInt32)
  /-- `get_ctx` returned a context for it. -/
  | held (id : UInt32) (ctx : ℕ)
deriving DecidableEq

/-- The registry of a node with the calls of `create_ctx` and `stop_ctx` under way, the ids that
`create_ctx` has returned for contexts it initialised, and the contexts that were stopped. -/
structure Creations where
  mgr : CtxMgr ℕ
  drawn : ℕ
  initializing : List (ℕ × CqyHandle)
  stopCalls : List StopCall
  returned : List (ℕ × CqyHandle)
  stopped : List ℕ

/-- The id of a call that holds a context has not gone to another one. -/
def StopCall.Current (m : CtxMgr ℕ) : StopCall → Prop
  | .found _ => True
  | .held id c => ∀ e ∈ m.ctxs.entries, e.1 = id → e.2 = c

instance (m : CtxMgr ℕ) : DecidablePred (StopCall.Current m)
  | .found _ => inferInstanceAs (Decidable True)
  | .held id c => inferInstanceAs (Decidable (∀ e ∈ m.ctxs.entries, e.1 = id → e.2 = c))

namespace Creations

def init : Creations := ⟨CtxMgr.empty, 0, [], [], [], []⟩

inductive Label
  /-- `create_ctx` finds no creator for the name and returns 0. -/
  | noCreator
  /-- `create_ctx` up to `attach_init`. -/
  | attachInit
  | registerName (name : Bytes) (id : UInt32)
  /-- `on_init` returns false or throws, in the call at position `k`. -/
  | initFails (k : ℕ)
  /-- `add_ctx`, after which `create_ctx` returns the id. -/
  | addCtx (k : ℕ)
  | stopId (id : UInt32)
  | stopName (name : Bytes)
  | stopGet (k : ℕ)
  | stopDel (k : ℕ)

/-- `cqy_app::create_ctx` and both overloads of `cqy_app::stop_ctx`, one access to the registry at
a time. -/
def step (nodeid : UInt8) (s : Creations) : Label → Option Creations
  | .noCreator => some s
  | .attachInit =>
    some { s with
      mgr := s.mgr.newId.2
      drawn := s.drawn + 1
      initializing := s.initializing ++ [(s.drawn, createdHandle nodeid s.mgr.newId.1)] }
  | .registerName name id =>
    match s.mgr.registerName name id with
    | .ok mgr => some { s with mgr := mgr }
    | .error _ => some s
  | .initFails k =>
    s.initializing[k]?.map fun _ ↦ { s with initializing := s.initializing.eraseIdx k }
  | .addCtx k =>
    s.initializing[k]?.map fun c ↦
      { s with
        mgr := s.mgr.addCtx c.2.id c.1
        initializing := s.initializing.eraseIdx k
        returned := s.returned ++ [c] }
  | .stopId id => some { s with stopCalls := s.stopCalls ++ [.found id] }
  | .stopName name => some { s with stopCalls := s.stopCalls ++ [.found (s.mgr.findName name)] }
  | .stopGet k =>
    match s.stopCalls[k]? with
    | some (.found id) =>
      match s.mgr.getCtx id with
      | some c => some { s with stopCalls := s.stopCalls.set k (.held id c) }
      | none => some { s with stopCalls := s.stopCalls.eraseIdx k }
    | _ => none
  | .stopDel k =>
    match s.stopCalls[k]? with
    | some (.held id c) =>
      some { s with
        mgr := s.mgr.delCtx id
        stopCalls := s.stopCalls.eraseIdx k
        stopped := s.stopped ++ [c] }
    | _ => none

/-- What `create_ctx` owes the callers it has answered: an id that is not the failure value, that
carries the node id, that the table maps to the context of that very call until it is stopped, and
that no other live context has. -/
structure UniqueIds (nodeid : UInt8) (s : Creations) : Prop where
  ne_zero : ∀ c ∈ s.returned, c.2.id ≠ 0
  node : ∀ c ∈ s.returned, c.2.nodeid = nodeid
  maps : ∀ c ∈ s.returned, c.1 ∉ s.stopped → s.mgr.getCtx c.2.id = some c.1
  distinct : ((s.returned.filter fun c ↦ c.1 ∉ s.stopped).map fun c ↦ c.2.id).Nodup

/-- The steps that keep ids unique: a context is inserted when its number is not a multiple of
`2 ^ 24` on node 0 and differs modulo `2 ^ 24` from the number of every context in the table, and
an id is deleted while it still belongs to the context that was looked up. -/
def Fresh (nodeid : UInt8) (s : Creations) : Label → Prop
  | .addCtx k => ∀ c ∈ s.initializing[k]?,
      (nodeid ≠ 0 ∨ (c.1 + 1) % 2 ^ 24 ≠ 0) ∧
        ∀ e ∈ s.mgr.ctxs.entries, e.2 % 2 ^ 24 ≠ c.1 % 2 ^ 24
  | .stopDel k => ∀ d ∈ s.stopCalls[k]?, d.Current s.mgr
  | _ => True

instance (nodeid : UInt8) (s : Creations) : DecidablePred (Fresh nodeid s)
  | .addCtx k => inferInstanceAs (Decidable (∀ c ∈ s.initializing[k]?,
      (nodeid ≠ 0 ∨ (c.1 + 1) % 2 ^ 24 ≠ 0) ∧
        ∀ e ∈ s.mgr.ctxs.entries, e.2 % 2 ^ 24 ≠ c.1 % 2 ^ 24))
  | .stopDel k => inferInstanceAs (Decidable (∀ d ∈ s.stopCalls[k]?, d.Current s.mgr))
  | .noCreator | .attachInit | .registerName _ _ | .initFails _ | .stopId _ | .stopName _
  | .stopGet _ => inferInstanceAs (Decidable True)

section Steps

variable {nodeid : UInt8} {s s' : Creations}

/-- A registration changes the names and nothing else. -/
theorem exists_names_of_registerName {name : Bytes} {id : UInt32}
    (h : step nodeid s (.registerName name id) = some s') :
    ∃ names, s' = { s with mgr := { s.mgr with names := names } } := by
  rw [step] at h
  split at h
  · rename_i mgr hreg
    obtain ⟨hnew, rfl⟩ := CtxMgr.registerName_eq_ok hreg
    exact ⟨_, (Option.some.inj h).symm⟩
  · exact ⟨s.mgr.names, (Option.some.inj h).symm⟩

theorem stopGet_eq_some_iff {k : ℕ} :
    step nodeid s (.stopGet k) = some s' ↔ ∃ id, s.stopCalls[k]? = some (.found id) ∧
      s' = { s with stopCalls := match s.mgr.getCtx id with
        | some c => s.stopCalls.set k (.held id c)
        | none => s.stopCalls.eraseIdx k } := by
  cases hk : s.stopCalls[k]? with
  | none => simp [step, hk]
  | some d =>
    cases d with
    | found id => cases hget : s.mgr.getCtx id <;> simp [step, hk, hget, eq_comm]
    | held id c => simp [step, hk]

theorem stopDel_eq_some_iff {k : ℕ} :
    step nodeid s (.stopDel k) = some s' ↔ ∃ id c, s.stopCalls[k]? = some (.held id c) ∧
      s' = { s with
        mgr := s.mgr.delCtx id
        stopCalls := s.stopCalls.eraseIdx k
        stopped := s.stopped ++ [c] } := by
  cases hk : s.stopCalls[k]? with
  | none => simp [step, hk]
  | some d => cases d <;> simp [step, hk, eq_comm]

end Steps

/-! ## The id of a context -/

theorem nodeid_createdHandle (nodeid : UInt8) (n : UInt32) :
    (createdHandle nodeid n).nodeid = nodeid :=
  CqyHandle.nodeid_setNodeid _ _

theorem ctxid_createdHandle (nodeid : UInt8) (n : UInt32) :
    (createdHandle nodeid n).ctxid.toNat = n.toNat % 2 ^ 24 := by
  rw [createdHandle, CqyHandle.ctxid_setNodeid, CqyHandle.ctxid_setCtxid, UInt32.toNat_and,
    Nat.and_comm]
  exact Nat.and_two_pow_sub_one_eq_mod n.toNat 24

/-- The handle of the context with number `i`. -/
def handleOf (nodeid : UInt8) (i : ℕ) : CqyHandle := createdHandle nodeid (1 + UInt32.ofNat i)

theorem ctxid_handleOf (nodeid : UInt8) (i : ℕ) :
    (handleOf nodeid i).ctxid.toNat = (i + 1) % 2 ^ 24 := by
  rw [handleOf, ctxid_createdHandle, UInt32.toNat_add, UInt32.toNat_ofNat']
  simp only [UInt32.toNat_one]
  omega

theorem handleOf_eq_iff {nodeid : UInt8} {i j : ℕ} :
    handleOf nodeid i = handleOf nodeid j ↔ i % 2 ^ 24 = j % 2 ^ 24 := by
  constructor
  · intro h
    have hctx := congrArg (fun h ↦ h.ctxid.toNat) h
    simp only [ctxid_handleOf] at hctx
    omega
  · intro h
    refine CqyHandle.ext_parts ?_ (UInt32.toNat_inj.mp ?_)
    · rw [handleOf, handleOf, nodeid_createdHandle, nodeid_createdHandle]
    · rw [ctxid_handleOf, ctxid_handleOf]
      omega

theorem handleOf_id_eq_zero_iff {nodeid : UInt8} {i : ℕ} :
    (handleOf nodeid i).id = 0 ↔ nodeid = 0 ∧ (i + 1) % 2 ^ 24 = 0 := by
  have hnode : (handleOf nodeid i).id.toNat / 2 ^ 24 = nodeid.toNat := by
    rw [← CqyHandle.toNat_nodeid, handleOf, nodeid_createdHandle]
  have hctx := ctxid_handleOf nodeid i
  rw [CqyHandle.toNat_ctxid] at hctx
  rw [← UInt32.toNat_inj, ← UInt8.toNat_inj]
  simp only [UInt32.toNat_zero, UInt8.toNat_zero]
  omega

/-! ## Numbers -/

/-- What holds in every run: a number is given out once, and the table maps an id to the number of a
context that was returned under it. -/
structure Numbered (s : Creations) : Prop where
  below : ∀ c ∈ s.initializing ++ s.returned, c.1 < s.drawn
  once : ((s.initializing ++ s.returned).map Prod.fst).Nodup
  table : ∀ id i, s.mgr.getCtx id = some i → (i, CqyHandle.mk id) ∈ s.returned

theorem numbered_init : Numbered init where
  below := by simp [init]
  once := by simp [init]
  table := by simp [init, CtxMgr.empty, CtxMgr.getCtx]

/-- The calls of `create_ctx` with one more. -/
theorem perm_attachInit (s : Creations) (c : ℕ × CqyHandle) :
    (s.initializing ++ [c] ++ s.returned).Perm (c :: (s.initializing ++ s.returned)) := by
  rw [List.append_assoc]
  exact List.perm_middle

/-- A call of `create_ctx` that inserts its context. -/
theorem perm_addCtx {s : Creations} {k : ℕ} {c : ℕ × CqyHandle} (hk : s.initializing[k]? = some c) :
    (s.initializing.eraseIdx k ++ (s.returned ++ [c])).Perm (s.initializing ++ s.returned) := by
  obtain ⟨hlt, rfl⟩ := List.getElem?_eq_some_iff.mp hk
  rw [← List.append_assoc]
  refine (List.perm_append_singleton _ _).trans ?_
  rw [← List.cons_append]
  exact (List.getElem_cons_eraseIdx_perm hlt).append_right _

/-- A call of `create_ctx` that fails. -/
theorem sublist_initFails (s : Creations) (k : ℕ) :
    (s.initializing.eraseIdx k ++ s.returned).Sublist (s.initializing ++ s.returned) :=
  (List.eraseIdx_sublist _ _).append_right _

theorem numbered_step {nodeid : UInt8} (s : Creations) (l : Label) (s' : Creations)
    (h : Numbered s) (hstep : step nodeid s l = some s') : Numbered s' := by
  cases l with
  | noCreator =>
    obtain rfl := Option.some.inj hstep
    exact h
  | attachInit =>
    obtain rfl := Option.some.inj hstep
    have hperm := perm_attachInit s (s.drawn, createdHandle nodeid s.mgr.newId.1)
    refine ⟨fun c hc ↦ ?_, ?_, h.table⟩
    · rcases List.mem_cons.mp (hperm.mem_iff.mp hc) with rfl | hc
      · exact Nat.lt_succ_self _
      · exact (h.below c hc).trans (Nat.lt_succ_self _)
    · rw [(hperm.map Prod.fst).nodup_iff, List.map_cons, List.nodup_cons]
      refine ⟨fun hmem ↦ ?_, h.once⟩
      obtain ⟨c, hc, hdrawn⟩ := List.mem_map.mp hmem
      exact (h.below c hc).ne hdrawn
  | registerName name id =>
    obtain ⟨names, rfl⟩ := exists_names_of_registerName hstep
    exact ⟨h.below, h.once, h.table⟩
  | initFails k =>
    obtain ⟨c, hk, rfl⟩ := Option.map_eq_some_iff.mp hstep
    have hsub := sublist_initFails s k
    exact ⟨fun d hd ↦ h.below d (hsub.subset hd), (hsub.map _).nodup h.once, h.table⟩
  | addCtx k =>
    obtain ⟨c, hk, rfl⟩ := Option.map_eq_some_iff.mp hstep
    have hperm := perm_addCtx hk
    refine ⟨fun d hd ↦ h.below d (hperm.mem_iff.mp hd), (hperm.map _).nodup_iff.mpr h.once,
      fun id i hget ↦ ?_⟩
    cases hold : s.mgr.getCtx c.2.id with
    | none =>
      rw [CtxMgr.getCtx_addCtx_of_none hold] at hget
      split_ifs at hget with hid
      · obtain rfl := Option.some.inj hget
        subst hid
        exact List.mem_append_right _ (List.mem_singleton.mpr rfl)
      · exact List.mem_append_left _ (h.table id i hget)
    | some j =>
      rw [CtxMgr.addCtx_of_some hold] at hget
      exact List.mem_append_left _ (h.table id i hget)
  | stopId id =>
    obtain rfl := Option.some.inj hstep
    exact ⟨h.below, h.once, h.table⟩
  | stopName name =>
    obtain rfl := Option.some.inj hstep
    exact ⟨h.below, h.once, h.table⟩
  | stopGet k =>
    obtain ⟨id, hk, rfl⟩ := stopGet_eq_some_iff.mp hstep
    exact ⟨h.below, h.once, h.table⟩
  | stopDel k =>
    obtain ⟨id, c, hk, rfl⟩ := stopDel_eq_some_iff.mp hstep
    refine ⟨h.below, h.once, fun id' i hget ↦ ?_⟩
    rw [CtxMgr.getCtx_delCtx] at hget
    split_ifs at hget
    exact h.table id' i hget

/-! ## The invariant -/

/-- The invariant.  Numbers are given out once and in counter order, the table holds only ids that
were returned, and every returned id that was not stopped is in it. -/
structure Inv (nodeid : UInt8) (s : Creations) : Prop where
  counter : s.mgr.allocid = UInt32.ofNat s.drawn
  below : ∀ c ∈ s.initializing ++ s.returned, c.1 < s.drawn
  handle : ∀ c ∈ s.initializing ++ s.returned, c.2 = handleOf nodeid c.1
  once : ((s.initializing ++ s.returned).map Prod.fst).Nodup
  table : ∀ id i, s.mgr.getCtx id = some i → (i, CqyHandle.mk id) ∈ s.returned
  ne_zero : ∀ c ∈ s.returned, c.2.id ≠ 0
  maps : ∀ c ∈ s.returned, c.1 ∉ s.stopped → s.mgr.getCtx c.2.id = some c.1

theorem inv_init (nodeid : UInt8) : Inv nodeid init where
  counter := rfl
  below := by simp [init]
  handle := by simp [init]
  once := by simp [init]
  table := by simp [init, CtxMgr.empty, CtxMgr.getCtx]
  ne_zero := by simp [init]
  maps := by simp [init]

theorem Inv.uniqueIds {nodeid : UInt8} {s : Creations} (h : Inv nodeid s) :
    UniqueIds nodeid s where
  ne_zero := h.ne_zero
  node c hc := by
    rw [h.handle c (List.mem_append_right _ hc), handleOf, nodeid_createdHandle]
  maps := h.maps
  distinct := by
    -- the table sends the ids to the numbers of their contexts, and these are distinct
    refine List.Nodup.of_map s.mgr.getCtx ?_
    have hnum : ((s.returned.filter fun c ↦ c.1 ∉ s.stopped).map Prod.fst).Nodup :=
      (List.filter_sublist.map _).nodup
        ((List.sublist_append_right s.initializing s.returned).map _ |>.nodup h.once)
    have hget : ((s.returned.filter fun c ↦ c.1 ∉ s.stopped).map fun c ↦ c.2.id).map s.mgr.getCtx =
        ((s.returned.filter fun c ↦ c.1 ∉ s.stopped).map Prod.fst).map some := by
      rw [List.map_map, List.map_map]
      refine List.map_congr_left fun c hc ↦ ?_
      rw [List.mem_filter, decide_eq_true_eq] at hc
      exact h.maps c hc.1 hc.2
    rw [hget]
    exact hnum.map (Option.some_injective _)

/-- A context that meets `Fresh` has an id that is not in the table. -/
theorem Inv.getCtx_eq_none {nodeid : UInt8} {s : Creations} (h : Inv nodeid s) {c : ℕ × CqyHandle}
    (hc : c ∈ s.initializing) (hfresh : ∀ e ∈ s.mgr.ctxs.entries, e.2 % 2 ^ 24 ≠ c.1 % 2 ^ 24) :
    s.mgr.getCtx c.2.id = none := by
  rw [Option.eq_none_iff_forall_ne_some]
  intro j hj
  have hret := h.table _ _ hj
  have hhandle : c.2 = handleOf nodeid j := h.handle _ (List.mem_append_right _ hret)
  rw [h.handle c (List.mem_append_left _ hc), handleOf_eq_iff] at hhandle
  exact hfresh _ (CtxMgr.getCtx_eq_some_iff.mp hj) hhandle.symm

theorem Inv.numbered {nodeid : UInt8} {s : Creations} (h : Inv nodeid s) : Numbered s :=
  ⟨h.below, h.once, h.table⟩

theorem inv_attachInit {nodeid : UInt8} {s s' : Creations} (h : Inv nodeid s)
    (hstep : step nodeid s .attachInit = some s') : Inv nodeid s' := by
  obtain ⟨hbelow, honce, htable⟩ := numbered_step s _ s' h.numbered hstep
  obtain rfl := Option.some.inj hstep
  refine ⟨?_, hbelow, fun c hc ↦ ?_, honce, htable, h.ne_zero, h.maps⟩
  · change s.mgr.allocid + 1 = UInt32.ofNat (s.drawn + 1)
    rw [h.counter, UInt32.ofNat_add]
    rfl
  · rcases List.mem_cons.mp ((perm_attachInit s _).mem_iff.mp hc) with rfl | hc
    · rw [handleOf, ← h.counter]
      rfl
    · exact h.handle c hc

theorem inv_addCtx {nodeid : UInt8} {s s' : Creations} {k : ℕ} (h : Inv nodeid s)
    (hfresh : Fresh nodeid s (.addCtx k)) (hstep : step nodeid s (.addCtx k) = some s') :
    Inv nodeid s' := by
  obtain ⟨hbelow, honce, htable⟩ := numbered_step s _ s' h.numbered hstep
  obtain ⟨c, hk, rfl⟩ := Option.map_eq_some_iff.mp hstep
  obtain ⟨hmultiple, hother⟩ := hfresh c hk
  have hmem := List.mem_of_getElem? hk
  have hnone := h.getCtx_eq_none hmem hother
  have hnz : c.2.id ≠ 0 := by
    rw [h.handle c (List.mem_append_left _ hmem), Ne, handleOf_id_eq_zero_iff]
    rintro ⟨hnode, hmul⟩
    exact hmultiple.elim (absurd hnode) (absurd hmul)
  refine ⟨?_, hbelow, fun d hd ↦ h.handle d ((perm_addCtx hk).mem_iff.mp hd), honce, htable, ?_, ?_⟩
  · change (s.mgr.addCtx c.2.id c.1).allocid = _
    rw [CtxMgr.allocid_addCtx]
    exact h.counter
  · intro d hd
    rcases List.mem_append.mp hd with hd | hd
    · exact h.ne_zero d hd
    · exact List.mem_singleton.mp hd ▸ hnz
  · intro d hd hstopped
    change (s.mgr.addCtx c.2.id c.1).getCtx d.2.id = some d.1
    rw [CtxMgr.getCtx_addCtx_of_none hnone]
    rcases List.mem_append.mp hd with hd | hd
    · have hget := h.maps d hd hstopped
      rw [if_neg (by rintro heq; rw [heq, hnone] at hget; exact absurd hget (by simp))]
      exact hget
    · obtain rfl := List.mem_singleton.mp hd
      rw [if_pos rfl]

theorem inv_stopDel {nodeid : UInt8} {s s' : Creations} {k : ℕ} (h : Inv nodeid s)
    (hfresh : Fresh nodeid s (.stopDel k)) (hstep : step nodeid s (.stopDel k) = some s') :
    Inv nodeid s' := by
  obtain ⟨hbelow, honce, htable⟩ := numbered_step s _ s' h.numbered hstep
  obtain ⟨id, c, hk, rfl⟩ := stopDel_eq_some_iff.mp hstep
  refine ⟨h.counter, hbelow, h.handle, honce, htable, h.ne_zero, fun d hd hstopped ↦ ?_⟩
  rw [List.mem_append, List.mem_singleton, not_or] at hstopped
  have hget := h.maps d hd hstopped.1
  rw [CtxMgr.getCtx_delCtx, if_neg]
  · exact hget
  · intro hid
    exact hstopped.2 (hfresh _ hk _ (CtxMgr.getCtx_eq_some_iff.mp hget) hid)

theorem inv_initFails {nodeid : UInt8} {s s' : Creations} {k : ℕ} (h : Inv nodeid s)
    (hstep : step nodeid s (.initFails k) = some s') : Inv nodeid s' := by
  obtain ⟨hbelow, honce, htable⟩ := numbered_step s _ s' h.numbered hstep
  obtain ⟨c, hk, rfl⟩ := Option.map_eq_some_iff.mp hstep
  exact ⟨h.counter, hbelow, fun d hd ↦ h.handle d ((sublist_initFails s k).subset hd), honce,
    htable, h.ne_zero, h.maps⟩

theorem inv_step {nodeid : UInt8} {s s' : Creations} {l : Label} (h : Inv nodeid s)
    (hfresh : Fresh nodeid s l) (hstep : step nodeid s l = some s') : Inv nodeid s' := by
  cases l with
  | noCreator =>
    obtain rfl := Option.some.inj hstep
    exact h
  | attachInit => exact inv_attachInit h hstep
  | registerName name id =>
    obtain ⟨names, rfl⟩ := exists_names_of_registerName hstep
    exact ⟨h.counter, h.below, h.handle, h.once, h.table, h.ne_zero, h.maps⟩
  | initFails k => exact inv_initFails h hstep
  | addCtx k => exact inv_addCtx h hfresh hstep
  | stopId id =>
    obtain rfl := Option.some.inj hstep
    exact ⟨h.counter, h.below, h.handle, h.once, h.table, h.ne_zero, h.maps⟩
  | stopName name =>
    obtain rfl := Option.some.inj hstep
    exact ⟨h.counter, h.below, h.handle, h.once, h.table, h.ne_zero, h.maps⟩
  | stopGet k =>
    obtain ⟨id, hk, rfl⟩ := stopGet_eq_some_iff.mp hstep
    exact ⟨h.counter, h.below, h.handle, h.once, h.table, h.ne_zero, h.maps⟩
  | stopDel k => exact inv_stopDel h hfresh hstep

/-- In every run of `create_ctx` and `stop_ctx` whose steps keep ids fresh, ids are unique. -/
theorem uniqueIds_of_fresh (nodeid : UInt8) (ls : List Label) (s : Creations)
    (hfresh : AllSteps (step nodeid) (Fresh nodeid) init ls)
    (hrun : run (step nodeid) init ls = some s) : UniqueIds nodeid s :=
  (run_invariant (fun _ _ _ ↦ inv_step) (inv_init nodeid) hfresh hrun).uniqueIds

/-- Two contexts of node 1 are created, the first is stopped, and a third is created. -/
theorem uniqueIds_after_stop : ∃ s,
    run (step 1) init [.attachInit, .addCtx 0, .attachInit, .addCtx 0, .stopId 0x01000001,
      .stopGet 0, .stopDel 0, .attachInit, .addCtx 0] = some s ∧
    s.returned.length = 3 ∧ s.stopped = [0] ∧ UniqueIds 1 s :=
  ⟨_, rfl, rfl, rfl, uniqueIds_of_fresh 1
    [.attachInit, .addCtx 0, .attachInit, .addCtx 0, .stopId 0x01000001, .stopGet 0, .stopDel 0,
      .attachInit, .addCtx 0] _ (by decide) rfl⟩

/-! ## The counter wraps -/

/-- Contexts whose `on_init` fails use up numbers and leave nothing else behind. -/
theorem run_failures (nodeid : UInt8) (s : Creations) (hidle : s.initializing = []) (n : ℕ) :
    run (step nodeid) s (List.replicate n [.attachInit, .initFails 0]).flatten =
      some { s with
        mgr := { s.mgr with allocid := s.mgr.allocid + UInt32.ofNat n }
        drawn := s.drawn + n } := by
  induction n with
  | zero => simp
  | succ n ih =>
    rw [List.replicate_succ', List.flatten_append, run_append, ih]
    simp [run_cons, step, hidle, CtxMgr.newId, UInt32.ofNat_add, add_assoc]

/-- A context is created, `2 ^ 24 - 1` creations fail in `on_init`, and one more context is
created. -/
def wrapAround : List Label :=
  [.attachInit, .addCtx 0] ++ (List.replicate (2 ^ 24 - 1) [.attachInit, .initFails 0]).flatten ++
    [.attachInit, .addCtx 0]

/-- Both contexts are live and have the id 0x01000001, which the table maps to the first. -/
theorem uniqueIds_wrapAround : ∃ s, run (step 1) init wrapAround = some s ∧
    s.returned = [(0, ⟨0x01000001⟩), (2 ^ 24, ⟨0x01000001⟩)] ∧ s.stopped = [] ∧
    s.mgr.getCtx 0x01000001 = some 0 ∧ ¬ UniqueIds 1 s := by
  obtain ⟨s, hfirst, hidle⟩ : ∃ s, run (step 1) init [.attachInit, .addCtx 0] = some s ∧
      s = ⟨⟨1, AList.insert 0x01000001 0 ∅, Table.empty⟩, 1, [], [], [(0, ⟨0x01000001⟩)], []⟩ :=
    ⟨_, rfl, rfl⟩
  have hfailures := run_failures 1 s (by rw [hidle]) (2 ^ 24 - 1)
  subst hidle
  have hrun := run_append_eq_some.mpr ⟨_, run_append_eq_some.mpr ⟨_, hfirst, hfailures⟩,
    show run (step 1) _ [.attachInit, .addCtx 0] = some _ from rfl⟩
  exact ⟨_, hrun, rfl, rfl, rfl, fun h ↦ absurd h.distinct (by decide)⟩

end Creations

end Cqy
