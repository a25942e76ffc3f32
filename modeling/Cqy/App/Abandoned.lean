import Cqy.App.Teardown

/-!
# Abandoned contexts

The condition under which the teardown reaches every context is exact: a step that breaks it leaves
a context that was returned and that nobody has or will look up, and from then on every call of
`stop_ctx` and `start` itself can finish without it.
-/

namespace Cqy

open Foundation

/-- The steps that a call of `stop_ctx` has still to take. -/
def StopCall.left : StopCall → ℕ
  | .found _ => 3
  | .held _ _ => 2

/-- The steps that `start` has still to take, with `n` contexts in the registry. -/
def TearPc.left (n : ℕ) : TearPc → ℕ
  | .serving => 2 * n + 3
  | .collecting => 2 * n + 2
  | .visiting ids => 2 * ids.length + 1
  | .holding _ ids => 2 * ids.length + 2
  | .returned => 0

namespace Teardown

/-- A call of `stop_ctx` that has a context had it before the step, or has looked it up. -/
theorem mem_stopCalls_of_step {nodeid : UInt8} {s s' : Creations} {l : Creations.Label}
    (hstep : Creations.step nodeid s l = some s') {d : StopCall} {c : ℕ} (hd : d ∈ s'.stopCalls)
    (hctx : d.ctx = some c) :
    d ∈ s.stopCalls ∨ ∃ id, s.mgr.getCtx id = some c ∧ .found id ∈ s.stopCalls := by
  cases l with
  | noCreator | attachInit =>
    obtain rfl := Option.some.inj hstep
    exact Or.inl hd
  | registerName name id =>
    obtain ⟨names, rfl⟩ := Creations.exists_names_of_registerName hstep
    exact Or.inl hd
  | initFails k | addCtx k =>
    obtain ⟨c, -, rfl⟩ := Option.map_eq_some_iff.mp hstep
    exact Or.inl hd
  | stopId id | stopName name =>
    obtain rfl := Option.some.inj hstep
    rcases List.mem_append.mp hd with hd | hd
    · exact Or.inl hd
    · obtain rfl := List.mem_singleton.mp hd
      exact absurd hctx.symm (Option.some_ne_none c)
  | stopGet k =>
    obtain ⟨id, hk, rfl⟩ := Creations.stopGet_eq_some_iff.mp hstep
    cases hget : s.mgr.getCtx id with
    | some c' =>
      simp only [hget] at hd
      rcases List.mem_or_eq_of_mem_set hd with hd | rfl
      · exact Or.inl hd
      · rw [StopCall.ctx] at hctx
        exact Or.inr ⟨id, hget.trans hctx, List.mem_of_getElem? hk⟩
    | none =>
      simp only [hget] at hd
      exact Or.inl (List.mem_of_mem_eraseIdx hd)
  | stopDel k =>
    obtain ⟨id, c', hk, rfl⟩ := Creations.stopDel_eq_some_iff.mp hstep
    exact Or.inl (List.mem_of_mem_eraseIdx hd)

theorem exists_call_of_mem_deleted {s : Creations} {l : Creations.Label} {c : ℕ}
    (h : c ∈ s.deleted l) : ∃ d ∈ s.stopCalls, d.ctx = some c := by
  cases l with
  | stopDel k =>
    obtain ⟨d, hk, hctx⟩ := Option.bind_eq_some_iff.mp (Option.mem_toList.mp h)
    exact ⟨d, List.mem_of_getElem? hk, hctx⟩
  | noCreator | attachInit | registerName | initFails | addCtx | stopId | stopName | stopGet =>
    exact absurd h List.not_mem_nil

/-- Somebody has the context to shut it down, or will look up an id that leads to it. -/
def Awaited (s : Teardown) (c : ℕ) : Prop :=
  s.InHand s.reg.stopCalls c ∨ ∃ id, s.reg.mgr.getCtx id = some c ∧ s.Expected id

theorem InHand.awaited {s : Teardown} {pc : TearPc} {c : ℕ}
    (h : InHand { s with pc := pc } s.reg.stopCalls c) (hpc : pc.ctx = some c → s.Awaited c) :
    s.Awaited c := by
  rcases h with hshut | hclose | hcall | hhold
  · exact Or.inl (.of_shut hshut)
  · exact Or.inl (.of_closing hclose)
  · exact Or.inl (.of_call hcall)
  · exact hpc hhold

/-- A context that is in somebody's hands was awaited before the step. -/
theorem awaited_of_inHand {nodeid : UInt8} {s s' : Teardown} {l : Label} {c : ℕ}
    (hstep : step nodeid s l = some s') (h : s'.InHand s'.reg.stopCalls c) : s.Awaited c := by
  cases l with
  | registry l =>
    obtain ⟨reg, hreg, rfl⟩ := Option.map_eq_some_iff.mp hstep
    rcases h with hshut | hclose | ⟨d, hd, hctx⟩ | hhold
    · exact Or.inl (.of_shut hshut)
    · rcases List.mem_append.mp hclose with hclose | hdeleted
      · exact Or.inl (.of_closing hclose)
      · exact Or.inl (.of_call (exists_call_of_mem_deleted hdeleted))
    · rcases mem_stopCalls_of_step hreg hd hctx with hd | ⟨id, hget, hfound⟩
      · exact Or.inl (.of_call ⟨d, hd, hctx⟩)
      · exact Or.inr ⟨id, hget, Or.inr hfound⟩
    · exact Or.inl (.of_pc hhold)
  | schedule k =>
    obtain ⟨p, hk, hstep⟩ := Option.bind_eq_some_iff.mp hstep
    split_ifs at hstep with hnew
    obtain rfl := Option.some.inj hstep
    exact Or.inl h
  | shutdown k =>
    obtain ⟨c', hk, rfl⟩ := Option.map_eq_some_iff.mp hstep
    rcases h with hshut | hclose | hcall
    · rcases List.mem_append.mp hshut with hshut | hlast
      · exact Or.inl (.of_shut hshut)
      · exact Or.inl (.of_closing (List.mem_singleton.mp hlast ▸ List.mem_of_getElem? hk))
    · exact Or.inl (.of_closing (List.mem_of_mem_eraseIdx hclose))
    · exact Or.inl (Or.inr (Or.inr hcall))
  | nodeShutdown | collect | finish =>
    simp only [step] at hstep
    split_ifs at hstep with hpc
    obtain rfl := Option.some.inj hstep
    exact h.awaited (by simp [TearPc.ctx])
  | visitGet =>
    obtain ⟨id, ids, hpc, rfl⟩ := visitGet_eq_some_iff.mp hstep
    refine h.awaited fun hctx ↦ ?_
    cases hget : s.reg.mgr.getCtx id with
    | none =>
      rw [hget, TearPc.ctx] at hctx
      exact absurd hctx.symm (Option.some_ne_none c)
    | some c' =>
      rw [hget, TearPc.ctx] at hctx
      exact Or.inr ⟨id, hget.trans hctx, Or.inl (hpc ▸ List.mem_cons_self)⟩
  | visitShutdown =>
    obtain ⟨c', ids, hpc, rfl⟩ := visitShutdown_eq_some_iff.mp hstep
    rcases h with hshut | hclose | hcall | hhold
    · rcases List.mem_append.mp hshut with hshut | hlast
      · exact Or.inl (.of_shut hshut)
      · obtain rfl := List.mem_singleton.mp hlast
        exact Or.inl (.of_pc (hpc ▸ rfl))
    · exact Or.inl (.of_closing hclose)
    · exact Or.inl (.of_call hcall)
    · exact absurd hhold.symm (Option.some_ne_none c)

/-- What holds in every run: contexts are numbered, and those in somebody's hands were returned. -/
structure Traced (s : Teardown) : Prop where
  numbered : s.reg.Numbered
  inHand : ∀ c, s.InHand s.reg.stopCalls c → ∃ p ∈ s.reg.returned, p.1 = c

theorem traced_init : Traced init where
  numbered := Creations.numbered_init
  inHand := by simp [InHand, init, Creations.init, TearPc.ctx]

theorem Traced.exists_returned {s : Teardown} (h : s.Traced) {c : ℕ} (hc : s.Awaited c) :
    ∃ p ∈ s.reg.returned, p.1 = c := by
  rcases hc with hhand | ⟨id, hget, -⟩
  · exact h.inHand c hhand
  · exact ⟨_, h.numbered.table id c hget, rfl⟩

/-- A step of the machine is a step of the registry or leaves it alone. -/
theorem reg_of_step {nodeid : UInt8} {s s' : Teardown} {l : Label}
    (hstep : step nodeid s l = some s') :
    s'.reg = s.reg ∨ ∃ r, Creations.step nodeid s.reg r = some s'.reg := by
  cases l with
  | registry r =>
    obtain ⟨reg, hreg, rfl⟩ := Option.map_eq_some_iff.mp hstep
    exact Or.inr ⟨r, hreg⟩
  | schedule k =>
    obtain ⟨p, hk, hstep⟩ := Option.bind_eq_some_iff.mp hstep
    split_ifs at hstep with hnew
    obtain rfl := Option.some.inj hstep
    exact Or.inl rfl
  | shutdown k =>
    obtain ⟨c', hk, rfl⟩ := Option.map_eq_some_iff.mp hstep
    exact Or.inl rfl
  | nodeShutdown | collect | finish =>
    simp only [step] at hstep
    split_ifs at hstep with hpc
    obtain rfl := Option.some.inj hstep
    exact Or.inl rfl
  | visitGet =>
    obtain ⟨id, ids, hpc, rfl⟩ := visitGet_eq_some_iff.mp hstep
    exact Or.inl rfl
  | visitShutdown =>
    obtain ⟨c', ids, hpc, rfl⟩ := visitShutdown_eq_some_iff.mp hstep
    exact Or.inl rfl

theorem returned_subset_of_step {nodeid : UInt8} {s s' : Creations} {l : Creations.Label}
    (hstep : Creations.step nodeid s l = some s') : s.returned ⊆ s'.returned := by
  cases l <;> simp only [Creations.step] at hstep <;> grind

theorem traced_step {nodeid : UInt8} (s : Teardown) (l : Label) (s' : Teardown) (h : Traced s)
    (hstep : step nodeid s l = some s') : Traced s' := by
  have hreg : s'.reg.Numbered ∧ s.reg.returned ⊆ s'.reg.returned := by
    rcases reg_of_step hstep with heq | ⟨r, hr⟩
    · rw [heq]
      exact ⟨h.numbered, List.Subset.refl _⟩
    · exact ⟨Creations.numbered_step _ _ _ h.numbered hr, returned_subset_of_step hr⟩
  refine ⟨hreg.1, fun c hc ↦ ?_⟩
  obtain ⟨p, hp, hpc⟩ := h.exists_returned (awaited_of_inHand hstep hc)
  exact ⟨p, hreg.2 hp, hpc⟩

/-- A context was returned, and nobody will stop its queue any more. -/
structure Abandoned (s : Teardown) (p : ℕ × CqyHandle) : Prop where
  returned : p ∈ s.reg.returned
  not_awaited : ¬ s.Awaited p.1

/-- A step that neither inserts a context nor starts a call of `stop_ctx`. -/
theorem Abandoned.step {nodeid : UInt8} {s s' : Teardown} {l : Label} {p : ℕ × CqyHandle}
    (h : s.Abandoned p) (hstep : Teardown.step nodeid s l = some s')
    (hreturned : s'.reg.returned = s.reg.returned)
    (htable : ∀ id, s'.reg.mgr.getCtx id = some p.1 → s.reg.mgr.getCtx id = some p.1)
    (hfound : ∀ id, .found id ∈ s'.reg.stopCalls → .found id ∈ s.reg.stopCalls)
    (hawaits : ∀ id, s'.pc.Awaits id → s.pc.Awaits id) : s'.Abandoned p := by
  refine ⟨hreturned ▸ h.returned, fun hc ↦ h.not_awaited ?_⟩
  rcases hc with hhand | ⟨id, hget, hexpected⟩
  · exact awaited_of_inHand hstep hhand
  · exact Or.inr ⟨id, htable id hget, hexpected.imp (hawaits id) (hfound id)⟩

/-- The calls of `stop_ctx` finish, and the context stays abandoned. -/
theorem Abandoned.exists_finished {s : Teardown} {p : ℕ × CqyHandle} (h : s.Abandoned p)
    (nodeid : UInt8) : ∃ t, Machine.Reachable (Teardown.step nodeid) s t ∧ t.Abandoned p ∧
      t.reg.stopCalls = [] ∧ t.closing = [] := by
  refine Machine.exists_reachable_of_decreasing
    (fun s ↦ (s.reg.stopCalls.map StopCall.left).sum + s.closing.length) (fun s hs hmore ↦ ?_) h
  cases hcalls : s.reg.stopCalls with
  | nil =>
    cases hclosing : s.closing with
    | nil => exact absurd ⟨hcalls, hclosing⟩ hmore
    | cons c closing =>
      have hstep : Teardown.step nodeid s (.shutdown 0) =
          some { s with closing := closing, shut := s.shut ++ [c] } := by
        simp [Teardown.step, hclosing]
      refine ⟨_, _, hstep, hs.step hstep rfl (fun _ ↦ id) (fun _ ↦ id) (fun _ ↦ id), ?_⟩
      simp [hcalls]
  | cons d calls =>
    cases d with
    | held id c =>
      have hstep : Teardown.step nodeid s (.registry (.stopDel 0)) = some { s with
          reg := { s.reg with
            mgr := s.reg.mgr.delCtx id
            stopCalls := calls
            stopped := s.reg.stopped ++ [c] }
          closing := s.closing ++ [c] } := by
        simp [Teardown.step, Creations.step, Creations.deleted, hcalls, StopCall.ctx]
      refine ⟨_, _, hstep, hs.step hstep rfl (fun id' hget ↦ ?_) (fun id' hfound ↦ ?_)
        fun _ hid ↦ hid, ?_⟩
      · rw [CtxMgr.getCtx_delCtx] at hget
        split_ifs at hget
        exact hget
      · exact hcalls ▸ List.mem_cons_of_mem _ hfound
      · simp [StopCall.left]
        omega
    | found id =>
      cases hget : s.reg.mgr.getCtx id with
      | some c =>
        have hstep : Teardown.step nodeid s (.registry (.stopGet 0)) =
            some { s with reg := { s.reg with stopCalls := .held id c :: calls } } := by
          simp [Teardown.step, Creations.step, Creations.deleted, hcalls, hget]
        refine ⟨_, _, hstep, hs.step hstep rfl (fun _ hid ↦ hid) (fun id' hfound ↦ ?_)
          fun _ hid ↦ hid, ?_⟩
        · rcases List.mem_cons.mp hfound with heq | hfound
          · exact absurd heq (by simp)
          · exact hcalls ▸ List.mem_cons_of_mem _ hfound
        · simp [StopCall.left]
      | none =>
        have hstep : Teardown.step nodeid s (.registry (.stopGet 0)) =
            some { s with reg := { s.reg with stopCalls := calls } } := by
          simp [Teardown.step, Creations.step, Creations.deleted, hcalls, hget]
        refine ⟨_, _, hstep, hs.step hstep rfl (fun _ hid ↦ hid) (fun id' hfound ↦ ?_)
          fun _ hid ↦ hid, ?_⟩
        · exact hcalls ▸ List.mem_cons_of_mem _ hfound
        · simp [StopCall.left]

/-- `start` returns, and the context stays abandoned. -/
theorem Abandoned.exists_returned {s : Teardown} {p : ℕ × CqyHandle} (h : s.Abandoned p)
    (hcalls : s.reg.stopCalls = []) (hclosing : s.closing = []) (nodeid : UInt8) :
    ∃ t, Machine.Reachable (Teardown.step nodeid) s t ∧
      (t.Abandoned p ∧ t.reg.stopCalls = [] ∧ t.closing = []) ∧ t.pc = .returned := by
  refine Machine.exists_reachable_of_decreasing (fun s ↦ s.pc.left s.reg.mgr.collectCtxids.length)
    (fun s hs hpc ↦ ?_) ⟨h, hcalls, hclosing⟩
  obtain ⟨hs, hcalls, hclosing⟩ := hs
  cases hat : s.pc with
  | serving =>
    have hstep : Teardown.step nodeid s .nodeShutdown = some { s with pc := .collecting } :=
      if_pos hat
    refine ⟨_, _, hstep, ⟨hs.step hstep rfl (fun _ ↦ id) (fun _ ↦ id) fun id hid ↦ ?_, hcalls,
      hclosing⟩, ?_⟩
    · rw [hat]
      trivial
    · simp [TearPc.left]
  | collecting =>
    have hstep : Teardown.step nodeid s .collect =
        some { s with pc := .visiting s.reg.mgr.collectCtxids } := if_pos hat
    refine ⟨_, _, hstep, ⟨hs.step hstep rfl (fun _ ↦ id) (fun _ ↦ id) fun id hid ↦ ?_, hcalls,
      hclosing⟩, ?_⟩
    · rw [hat]
      trivial
    · simp [TearPc.left]
  | visiting ids =>
    cases ids with
    | nil =>
      have hstep : Teardown.step nodeid s .finish = some { s with pc := .returned } := if_pos hat
      refine ⟨_, _, hstep, ⟨hs.step hstep rfl (fun _ ↦ id) (fun _ ↦ id) fun id ↦ False.elim, hcalls,
        hclosing⟩, ?_⟩
      simp [TearPc.left]
    | cons id ids =>
      have hstep : Teardown.step nodeid s .visitGet = some _ :=
        visitGet_eq_some_iff.mpr ⟨id, ids, hat, rfl⟩
      refine ⟨_, _, hstep, ⟨hs.step hstep rfl (fun _ hid ↦ hid) (fun _ hid ↦ hid)
        fun id' hid ↦ ?_, hcalls, hclosing⟩, ?_⟩
      · rw [hat]
        refine List.mem_cons_of_mem _ ?_
        cases hget : s.reg.mgr.getCtx id <;> rw [hget] at hid <;> exact hid
      · cases hget : s.reg.mgr.getCtx id with
        | none =>
          simp only [TearPc.left, List.length_cons]
          omega
        | some c =>
          simp only [TearPc.left, List.length_cons]
          omega
  | holding c ids =>
    have hstep : Teardown.step nodeid s .visitShutdown = some _ :=
      visitShutdown_eq_some_iff.mpr ⟨c, ids, hat, rfl⟩
    refine ⟨_, _, hstep, ⟨hs.step hstep rfl (fun _ ↦ id) (fun _ ↦ id) fun id hid ↦ ?_, hcalls,
      hclosing⟩, ?_⟩
    · rw [hat]
      exact hid
    · simp [TearPc.left]
  | returned => exact absurd hat hpc

theorem Abandoned.exists_unreached {s : Teardown} {p : ℕ × CqyHandle} (h : s.Abandoned p)
    (nodeid : UInt8) : ∃ t, Machine.Reachable (Teardown.step nodeid) s t ∧ ¬ t.Reached := by
  obtain ⟨m, hm, hmp, hcalls, hclosing⟩ := h.exists_finished nodeid
  obtain ⟨t, ht, ⟨htp, htcalls, htclosing⟩, hpc⟩ := hmp.exists_returned hcalls hclosing nodeid
  have hshut : p.1 ∉ t.shut := fun hin ↦ htp.not_awaited (Or.inl (.of_shut hin))
  by_cases hscheduled : p.1 ∈ t.scheduled
  · exact ⟨t, hm.trans ht, fun hreached ↦ hshut (hreached hpc htcalls htclosing p.1 hscheduled)⟩
  · obtain ⟨k, hk⟩ := List.mem_iff_getElem?.mp htp.returned
    have hstep : Teardown.step nodeid t (.schedule k) =
        some { t with scheduled := t.scheduled ++ [p.1] } := by
      rw [Teardown.step, hk, Option.bind_some, if_neg hscheduled]
    refine ⟨_, hm.trans (ht.trans ((Machine.Reachable.refl _).head hstep)), fun hreached ↦ ?_⟩
    exact hshut (hreached hpc htcalls htclosing p.1
      (List.mem_append_right _ (List.mem_singleton.mpr rfl)))

/-- A context that is inserted too late, or not at all, is abandoned. -/
theorem Traced.abandoned_addCtx {nodeid : UInt8} {s s' : Teardown} (h : s.Traced) {k : ℕ}
    (hintime : ¬ s.InTime (.registry (.addCtx k)))
    (hstep : Teardown.step nodeid s (.registry (.addCtx k)) = some s') :
    ∃ p, s'.Abandoned p := by
  simp only [InTime, not_forall] at hintime
  obtain ⟨c, hk, hlate⟩ := hintime
  have hnew {i : ℕ} (hi : ∃ p ∈ s.reg.returned, p.1 = i) : i ≠ c.1 := by
    rintro rfl
    obtain ⟨p, hp, hpi⟩ := hi
    have honce := h.numbered.once
    rw [List.map_append, List.nodup_append] at honce
    exact honce.2.2 c.1 (List.mem_map_of_mem (List.mem_of_getElem? hk)) p.1
      (List.mem_map_of_mem hp) hpi.symm
  obtain ⟨reg, hreg, rfl⟩ := Option.map_eq_some_iff.mp hstep
  obtain ⟨c', hk', rfl⟩ := Option.map_eq_some_iff.mp hreg
  obtain rfl : c' = c := Option.some.inj (hk'.symm.trans hk)
  refine ⟨c', List.mem_append_right _ (List.mem_singleton.mpr rfl), ?_⟩
  rintro (hhand | ⟨id, hget, hexpected⟩)
  · exact hnew (h.exists_returned (awaited_of_inHand hstep hhand)) rfl
  · have hold : s.reg.mgr.getCtx id ≠ some c'.1 :=
      fun hold ↦ hnew ⟨_, h.numbered.table id c'.1 hold, rfl⟩ rfl
    cases htable : s.reg.mgr.getCtx c'.2.id with
    | some j =>
      rw [CtxMgr.addCtx_of_some htable] at hget
      exact hold hget
    | none =>
      rw [CtxMgr.getCtx_addCtx_of_none htable] at hget
      split_ifs at hget with hid
      · exact hlate ⟨htable, hid ▸ hexpected⟩
      · exact hold hget

/-- A context whose id is deleted by a call of `stop_ctx` that got another one is abandoned. -/
theorem Traced.abandoned_stopDel {nodeid : UInt8} {s s' : Teardown} (h : s.Traced) {k : ℕ}
    (hintime : ¬ s.InTime (.registry (.stopDel k)))
    (hstep : Teardown.step nodeid s (.registry (.stopDel k)) = some s') :
    ∃ p, s'.Abandoned p := by
  simp only [InTime, not_forall, not_or] at hintime
  obtain ⟨d, hk, c, hget, hother, hhands⟩ := hintime
  obtain ⟨reg, hreg, rfl⟩ := Option.map_eq_some_iff.mp hstep
  obtain ⟨id, c', hk', rfl⟩ := Creations.stopDel_eq_some_iff.mp hreg
  obtain rfl : d = .held id c' := Option.some.inj (hk.symm.trans hk')
  have hreturned := h.numbered.table id c hget
  refine ⟨(c, CqyHandle.mk id), hreturned, ?_⟩
  rintro ((hshut | hclose | hcall | hhold) | ⟨id', hget', hexpected⟩)
  · exact hhands (.of_shut hshut)
  · rcases List.mem_append.mp hclose with hclose | hdeleted
    · exact hhands (.of_closing hclose)
    · rw [Creations.deleted, hk'] at hdeleted
      exact hother (congrArg some (List.mem_singleton.mp hdeleted).symm)
  · exact hhands (.of_call hcall)
  · exact hhands (.of_pc hhold)
  · -- the table leads to a context under one id only
    rw [CtxMgr.getCtx_delCtx] at hget'
    split_ifs at hget' with hid
    have honce := h.numbered.once
    rw [List.map_append, List.nodup_append] at honce
    have heq := List.inj_on_of_nodup_map honce.2.1 (h.numbered.table id' c hget') hreturned rfl
    exact hid (congrArg (fun p ↦ p.2.id) heq)

/-- Where the condition is broken, a receive loop is left once everybody has finished. -/
theorem exists_unreached_of_not_inTime {nodeid : UInt8} {s s' : Teardown} {l : Label}
    (h : Machine.Reachable (step nodeid) init s) (hintime : ¬ s.InTime l)
    (hstep : step nodeid s l = some s') :
    ∃ t, Machine.Reachable (step nodeid) s' t ∧ ¬ t.Reached := by
  have htraced := h.invariant traced_step traced_init
  obtain ⟨p, hp⟩ : ∃ p, s'.Abandoned p := by
    cases l with
    | registry l =>
      cases l with
      | addCtx k => exact htraced.abandoned_addCtx hintime hstep
      | stopDel k => exact htraced.abandoned_stopDel hintime hstep
      | noCreator | attachInit | registerName | initFails | stopId | stopName | stopGet =>
        exact absurd trivial hintime
    | schedule | shutdown | nodeShutdown | collect | visitGet | visitShutdown | finish =>
      exact absurd trivial hintime
  exact hp.exists_unreached nodeid

end Teardown

end Cqy
