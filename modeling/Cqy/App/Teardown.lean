import Cqy.Foundation.Vec
import Cqy.Registry.CreateCtx

/-!
# Teardown

When its server has stopped, `cqy_app::start` shuts the node down, takes the ids of the contexts in
the registry, and shuts down the context under each of them.  Handlers may still be running on the
executor, so that calls of `create_ctx` and `stop_ctx` fall between these steps.  A context waits
for messages, once `create_ctx` has scheduled it, until somebody stops its queue.
-/

namespace Cqy

open Foundation

/-- Where `cqy_app::start` stands. -/
inductive TearPc
  /-- In the `get` of the future, or before. -/
  | serving
  /-- Before `collect_ctxids`. -/
  | collecting
  /-- At the head of the loop, with the ids to come. -/
  | visiting (ids : List UInt32)
  /-- `get_ctx` has returned a context. -/
  | holding (ctx : ℕ) (ids : List UInt32)
  | returned
deriving DecidableEq

/-- The registry of a node that is torn down, and the queues of its contexts. -/
structure Teardown where
  reg : Creations
  /-- What calls of `stop_ctx` have deleted and are about to shut down. -/
  closing : List ℕ
  /-- The contexts whose receive loop `create_ctx` has scheduled. -/
  scheduled : List ℕ
  /-- The contexts whose `msg_queue` is stopped. -/
  shut : List ℕ
  pc : TearPc

/-- The context that a call of `stop_ctx` has got. -/
def StopCall.ctx : StopCall → Option ℕ
  | .found _ => none
  | .held _ c => some c

def StopCall.id : StopCall → UInt32
  | .found id | .held id _ => id

/-- The context that `start` has got. -/
def TearPc.ctx : TearPc → Option ℕ
  | .holding c _ => some c
  | .serving | .collecting | .visiting _ | .returned => none

/-- `start` will still look up the id, if it is in the registry when the ids are taken. -/
def TearPc.Awaits : TearPc → UInt32 → Prop
  | .serving, _ | .collecting, _ => True
  | .visiting ids, id | .holding _ ids, id => id ∈ ids
  | .returned, _ => False

instance (pc : TearPc) (id : UInt32) : Decidable (pc.Awaits id) :=
  match pc with
  | .serving | .collecting => inferInstanceAs (Decidable True)
  | .visiting ids | .holding _ ids => inferInstanceAs (Decidable (id ∈ ids))
  | .returned => inferInstanceAs (Decidable False)

/-- The context that a step of the registry deletes. -/
def Creations.deleted (s : Creations) : Creations.Label → List ℕ
  | .stopDel k => (s.stopCalls[k]?.bind StopCall.ctx).toList
  | _ => []

namespace Teardown

def init : Teardown := ⟨Creations.init, [], [], [], .serving⟩

inductive Label
  /-- A step of a call of `create_ctx` or `stop_ctx`, up to `shutdown`. -/
  | registry (l : Creations.Label)
  /-- `create_ctx` schedules the receive loop of the context at position `k` and returns. -/
  | schedule (k : ℕ)
  /-- `stop_ctx` shuts down the context at position `k`. -/
  | shutdown (k : ℕ)
  /-- The server has stopped: `cqy_node::shutdown`. -/
  | nodeShutdown
  | collect
  | visitGet
  | visitShutdown
  | finish

def step (nodeid : UInt8) (s : Teardown) : Label → Option Teardown
  | .registry l =>
    (Creations.step nodeid s.reg l).map fun reg ↦
      { s with reg := reg, closing := s.closing ++ s.reg.deleted l }
  | .schedule k =>
    s.reg.returned[k]?.bind fun c ↦
      if c.1 ∈ s.scheduled then none else some { s with scheduled := s.scheduled ++ [c.1] }
  | .shutdown k =>
    s.closing[k]?.map fun c ↦ { s with closing := s.closing.eraseIdx k, shut := s.shut ++ [c] }
  | .nodeShutdown => if s.pc = .serving then some { s with pc := .collecting } else none
  | .collect =>
    if s.pc = .collecting then some { s with pc := .visiting s.reg.mgr.collectCtxids } else none
  | .visitGet =>
    match s.pc with
    | .visiting (id :: ids) =>
      match s.reg.mgr.getCtx id with
      | some c => some { s with pc := .holding c ids }
      | none => some { s with pc := .visiting ids }
    | _ => none
  | .visitShutdown =>
    match s.pc with
    | .holding c ids => some { s with pc := .visiting ids, shut := s.shut ++ [c] }
    | _ => none
  | .finish => if s.pc = .visiting [] then some { s with pc := .returned } else none

/-- Once `start` has returned and the calls of `stop_ctx` have finished, every receive loop that was
scheduled has its queue stopped. -/
def Reached (s : Teardown) : Prop :=
  s.pc = .returned → s.reg.stopCalls = [] → s.closing = [] → ∀ c ∈ s.scheduled, c ∈ s.shut

/-- Somebody has the context `c` to shut it down, or has done so, where `calls` are the calls of
`stop_ctx` that have not deleted yet. -/
def InHand (s : Teardown) (calls : List StopCall) (c : ℕ) : Prop :=
  c ∈ s.shut ∨ c ∈ s.closing ∨ (∃ d ∈ calls, d.ctx = some c) ∨ s.pc.ctx = some c

namespace InHand

variable {s : Teardown} {calls : List StopCall} {c : ℕ}

theorem of_shut (h : c ∈ s.shut) : s.InHand calls c := Or.inl h

theorem of_closing (h : c ∈ s.closing) : s.InHand calls c := Or.inr (Or.inl h)

theorem of_call (h : ∃ d ∈ calls, d.ctx = some c) : s.InHand calls c := Or.inr (Or.inr (Or.inl h))

theorem of_pc (h : s.pc.ctx = some c) : s.InHand calls c := Or.inr (Or.inr (Or.inr h))

end InHand

/-- Somebody will look up the id. -/
def Expected (s : Teardown) (id : UInt32) : Prop :=
  s.pc.Awaits id ∨ .found id ∈ s.reg.stopCalls

/-- The steps that lose no context.  `create_ctx` inserts a context under an id that is free, and
that the teardown or a call of `stop_ctx` is still to look up.  `stop_ctx` deletes an id whose
context is the one it got, or is in other hands. -/
def InTime (s : Teardown) : Label → Prop
  | .registry (.addCtx k) => ∀ c ∈ s.reg.initializing[k]?,
      s.reg.mgr.getCtx c.2.id = none ∧ s.Expected c.2.id
  | .registry (.stopDel k) => ∀ d ∈ s.reg.stopCalls[k]?, ∀ c ∈ s.reg.mgr.getCtx d.id,
      d.ctx = some c ∨ s.InHand (s.reg.stopCalls.eraseIdx k) c
  | _ => True

theorem visitGet_eq_some_iff {nodeid : UInt8} {s s' : Teardown} :
    step nodeid s .visitGet = some s' ↔ ∃ id ids, s.pc = .visiting (id :: ids) ∧
      s' = { s with pc := match s.reg.mgr.getCtx id with
        | some c => .holding c ids
        | none => .visiting ids } := by
  cases hpc : s.pc with
  | visiting ids =>
    cases ids with
    | nil => simp [step, hpc]
    | cons id ids => cases hget : s.reg.mgr.getCtx id <;> simp [step, hpc, hget, eq_comm]
  | serving => simp [step, hpc]
  | collecting => simp [step, hpc]
  | holding c ids => simp [step, hpc]
  | returned => simp [step, hpc]

theorem visitShutdown_eq_some_iff {nodeid : UInt8} {s s' : Teardown} :
    step nodeid s .visitShutdown = some s' ↔ ∃ c ids, s.pc = .holding c ids ∧
      s' = { s with pc := .visiting ids, shut := s.shut ++ [c] } := by
  cases hpc : s.pc <;> simp [step, hpc, eq_comm]

/-! ## No context is lost -/

/-- The queue of a context is stopped, or somebody will stop it. -/
def Covered (s : Teardown) (p : ℕ × CqyHandle) : Prop :=
  s.InHand s.reg.stopCalls p.1 ∨
    s.reg.mgr.getCtx p.2.id = some p.1 ∧ s.Expected p.2.id

structure Tracked (s : Teardown) : Prop where
  covered : ∀ p ∈ s.reg.returned, s.Covered p
  scheduled : ∀ c ∈ s.scheduled, ∃ p ∈ s.reg.returned, p.1 = c

theorem tracked_init : Tracked init where
  covered := by simp [init, Creations.init]
  scheduled := by simp [init]

theorem Tracked.reached {s : Teardown} (h : s.Tracked) : s.Reached := by
  intro hpc hcalls hclosing c hc
  obtain ⟨p, hp, rfl⟩ := h.scheduled c hc
  rcases h.covered p hp with (hshut | hclose | ⟨d, hd, -⟩ | hhold) | ⟨-, hawait | hfound⟩
  · exact hshut
  · rw [hclosing] at hclose
    exact absurd hclose List.not_mem_nil
  · rw [hcalls] at hd
    exact absurd hd List.not_mem_nil
  · rw [hpc] at hhold
    exact absurd hhold (by simp [TearPc.ctx])
  · rw [hpc] at hawait
    exact hawait.elim
  · rw [hcalls] at hfound
    exact absurd hfound List.not_mem_nil

section Steps

variable {nodeid : UInt8} {s s' : Teardown}

/-- The registry keeps its contexts, and no call of `stop_ctx` moves on. -/
theorem Covered.of_calls {p : ℕ × CqyHandle} (h : s.Covered p)
    (hget : ∀ id, s'.reg.mgr.getCtx id = s.reg.mgr.getCtx id)
    (hcalls : s.reg.stopCalls ⊆ s'.reg.stopCalls) (hclosing : s.closing ⊆ s'.closing)
    (hshut : s'.shut = s.shut) (hpc : s'.pc = s.pc) : s'.Covered p := by
  rcases h with (hin | hclose | ⟨d, hd, hctx⟩ | hhold) | ⟨htable, hexpected⟩
  · exact Or.inl (.of_shut (hshut ▸ hin))
  · exact Or.inl (.of_closing (hclosing hclose))
  · exact Or.inl (.of_call ⟨d, hcalls hd, hctx⟩)
  · exact Or.inl (.of_pc (hpc ▸ hhold))
  · exact Or.inr ⟨(hget _).trans htable, hexpected.imp (fun hawait ↦ hpc ▸ hawait) (hcalls ·)⟩

/-- A step of `start`, or of a call of `stop_ctx` after it has deleted. -/
theorem Covered.of_hands {p : ℕ × CqyHandle} (h : s.Covered p) (hreg : s'.reg = s.reg)
    (hhand : ∀ c, c ∈ s.shut ∨ c ∈ s.closing ∨ s.pc.ctx = some c →
      c ∈ s'.shut ∨ c ∈ s'.closing ∨ s'.pc.ctx = some c)
    (hawaits : s.reg.mgr.getCtx p.2.id = some p.1 → s.pc.Awaits p.2.id →
      s'.pc.Awaits p.2.id ∨ s'.pc.ctx = some p.1) : s'.Covered p := by
  have hin (c : ℕ) (hc : c ∈ s.shut ∨ c ∈ s.closing ∨ s.pc.ctx = some c) :
      s'.InHand s'.reg.stopCalls c :=
    (hhand c hc).imp_right fun hc ↦ hc.imp_right Or.inr
  rcases h with (hshut | hclose | hcall | hhold) | ⟨htable, hawait | hfound⟩
  · exact Or.inl (hin _ (Or.inl hshut))
  · exact Or.inl (hin _ (Or.inr (Or.inl hclose)))
  · exact Or.inl (.of_call (hreg ▸ hcall))
  · exact Or.inl (hin _ (Or.inr (Or.inr hhold)))
  · rcases hawaits htable hawait with hawait' | hhold
    · exact Or.inr ⟨hreg ▸ htable, Or.inl hawait'⟩
    · exact Or.inl (.of_pc hhold)
  · exact Or.inr ⟨hreg ▸ htable, Or.inr (hreg ▸ hfound)⟩

/-- A call of `stop_ctx` gets the context of its id. -/
theorem Covered.stopGet_some {p : ℕ × CqyHandle} (h : s.Covered p) {k : ℕ} {id : UInt32} {c : ℕ}
    (hk : s.reg.stopCalls[k]? = some (.found id)) (hget : s.reg.mgr.getCtx id = some c) :
    Covered { s with reg := { s.reg with stopCalls := s.reg.stopCalls.set k (.held id c) } } p := by
  have hheld : StopCall.held id c ∈ s.reg.stopCalls.set k (.held id c) :=
    List.mem_set (List.getElem?_eq_some_iff.mp hk).1 _
  rcases h with (hshut | hclose | ⟨d, hd, hctx⟩ | hhold) | ⟨htable, hawait | hfound⟩
  · exact Or.inl (.of_shut hshut)
  · exact Or.inl (.of_closing hclose)
  · have hne : d ≠ .found id := by
      rintro rfl
      exact Option.some_ne_none _ hctx.symm
    exact Or.inl (.of_call ⟨d, Vec.mem_set_of_ne hk hd hne _, hctx⟩)
  · exact Or.inl (.of_pc hhold)
  · exact Or.inr ⟨htable, Or.inl hawait⟩
  · by_cases hid : p.2.id = id
    · rw [hid, hget, Option.some_inj] at htable
      exact Or.inl (.of_call ⟨_, hheld, congrArg some htable⟩)
    · have hne : StopCall.found p.2.id ≠ .found id := fun heq ↦ hid (StopCall.found.inj heq)
      exact Or.inr ⟨htable, Or.inr (Vec.mem_set_of_ne hk hfound hne _)⟩

/-- There is no context under the id that a call of `stop_ctx` looks up. -/
theorem Covered.stopGet_none {p : ℕ × CqyHandle} (h : s.Covered p) {k : ℕ} {id : UInt32}
    (hk : s.reg.stopCalls[k]? = some (.found id)) (hget : s.reg.mgr.getCtx id = none) :
    Covered { s with reg := { s.reg with stopCalls := s.reg.stopCalls.eraseIdx k } } p := by
  rcases h with (hshut | hclose | ⟨d, hd, hctx⟩ | hhold) | ⟨htable, hawait | hfound⟩
  · exact Or.inl (.of_shut hshut)
  · exact Or.inl (.of_closing hclose)
  · have hne : d ≠ .found id := by
      rintro rfl
      exact Option.some_ne_none _ hctx.symm
    exact Or.inl (.of_call ⟨d, Vec.mem_eraseIdx_of_ne hk hd hne, hctx⟩)
  · exact Or.inl (.of_pc hhold)
  · exact Or.inr ⟨htable, Or.inl hawait⟩
  · have hne : StopCall.found p.2.id ≠ .found id := by
      intro heq
      rw [StopCall.found.inj heq, hget] at htable
      exact Option.some_ne_none _ htable.symm
    exact Or.inr ⟨htable, Or.inr (Vec.mem_eraseIdx_of_ne hk hfound hne)⟩

/-- A call of `stop_ctx` deletes its id, in time. -/
theorem Covered.stopDel {p : ℕ × CqyHandle} (h : s.Covered p) {k : ℕ} {id : UInt32} {c : ℕ}
    (hk : s.reg.stopCalls[k]? = some (.held id c))
    (hintime : ∀ c' ∈ s.reg.mgr.getCtx id,
      c = c' ∨ s.InHand (s.reg.stopCalls.eraseIdx k) c') :
    Covered { s with
      reg := { s.reg with
        mgr := s.reg.mgr.delCtx id
        stopCalls := s.reg.stopCalls.eraseIdx k
        stopped := s.reg.stopped ++ [c] }
      closing := s.closing ++ [c] } p := by
  have hlast {calls : List StopCall} {c' : ℕ} (hc : c = c' ∨ s.InHand calls c') :
      InHand { s with closing := s.closing ++ [c] } calls c' := by
    rcases hc with rfl | hshut | hclose | hcall | hhold
    · exact .of_closing (List.mem_append_right _ (List.mem_singleton.mpr rfl))
    · exact .of_shut hshut
    · exact .of_closing (List.mem_append_left _ hclose)
    · exact .of_call hcall
    · exact .of_pc hhold
  rcases h with (hshut | hclose | ⟨d, hd, hctx⟩ | hhold) | ⟨htable, hexpected⟩
  · exact Or.inl (hlast (Or.inr (.of_shut hshut)))
  · exact Or.inl (hlast (Or.inr (.of_closing hclose)))
  · by_cases hdk : d = .held id c
    · rw [hdk, StopCall.ctx, Option.some_inj] at hctx
      exact Or.inl (hlast (Or.inl hctx))
    · have hd' := Vec.mem_eraseIdx_of_ne hk hd hdk
      exact Or.inl (hlast (Or.inr (.of_call ⟨d, hd', hctx⟩)))
  · exact Or.inl (hlast (Or.inr (.of_pc hhold)))
  · by_cases hid : p.2.id = id
    · rw [hid] at htable
      exact Or.inl (hlast (hintime p.1 htable))
    · refine Or.inr ⟨?_, hexpected.imp_right fun hfound ↦
        Vec.mem_eraseIdx_of_ne hk hfound (by simp)⟩
      calc (s.reg.mgr.delCtx id).getCtx p.2.id
          = if p.2.id = id then none else s.reg.mgr.getCtx p.2.id := CtxMgr.getCtx_delCtx _ _ _
        _ = s.reg.mgr.getCtx p.2.id := if_neg hid
        _ = some p.1 := htable

/-- A context is inserted in time, and the others stay where they are. -/
theorem Covered.addCtx {p : ℕ × CqyHandle} (h : s.Covered p) {c : ℕ × CqyHandle}
    (hnone : s.reg.mgr.getCtx c.2.id = none) {initializing returned : List (ℕ × CqyHandle)} :
    Covered { s with reg := { s.reg with
      mgr := s.reg.mgr.addCtx c.2.id c.1
      initializing := initializing
      returned := returned } } p := by
  rcases h with hhand | ⟨htable, hexpected⟩
  · exact Or.inl hhand
  · refine Or.inr ⟨?_, hexpected⟩
    have hne : p.2.id ≠ c.2.id := by
      intro heq
      rw [heq, hnone] at htable
      exact Option.some_ne_none _ htable.symm
    calc (s.reg.mgr.addCtx c.2.id c.1).getCtx p.2.id
        = if p.2.id = c.2.id then some c.1 else s.reg.mgr.getCtx p.2.id :=
          CtxMgr.getCtx_addCtx_of_none hnone _
      _ = s.reg.mgr.getCtx p.2.id := if_neg hne
      _ = some p.1 := htable

end Steps

/-- A step of the registry that neither inserts nor looks up nor deletes. -/
theorem Tracked.of_calls {s s' : Teardown} (h : Tracked s)
    (hreturned : s'.reg.returned = s.reg.returned)
    (hget : ∀ id, s'.reg.mgr.getCtx id = s.reg.mgr.getCtx id)
    (hcalls : s.reg.stopCalls ⊆ s'.reg.stopCalls) (hclosing : s.closing ⊆ s'.closing)
    (hshut : s'.shut = s.shut) (hpc : s'.pc = s.pc) (hscheduled : s'.scheduled = s.scheduled) :
    Tracked s' where
  covered p hp := (h.covered p (hreturned ▸ hp)).of_calls hget hcalls hclosing hshut hpc
  scheduled := by
    rw [hscheduled, hreturned]
    exact h.scheduled

theorem tracked_registry {nodeid : UInt8} {s s' : Teardown} {l : Creations.Label} (h : Tracked s)
    (hintime : s.InTime (.registry l)) (hstep : step nodeid s (.registry l) = some s') :
    Tracked s' := by
  obtain ⟨reg, hreg, rfl⟩ := Option.map_eq_some_iff.mp hstep
  have hclosing := List.subset_append_left s.closing (s.reg.deleted l)
  cases l with
  | noCreator =>
    obtain rfl := Option.some.inj hreg
    exact h.of_calls rfl (fun _ ↦ rfl) (List.Subset.refl _) hclosing rfl rfl rfl
  | attachInit =>
    obtain rfl := Option.some.inj hreg
    exact h.of_calls rfl (fun _ ↦ rfl) (List.Subset.refl _) hclosing rfl rfl rfl
  | registerName name id =>
    obtain ⟨names, rfl⟩ := Creations.exists_names_of_registerName hreg
    exact h.of_calls rfl (fun _ ↦ rfl) (List.Subset.refl _) hclosing rfl rfl rfl
  | initFails k =>
    obtain ⟨c, -, rfl⟩ := Option.map_eq_some_iff.mp hreg
    exact h.of_calls rfl (fun _ ↦ rfl) (List.Subset.refl _) hclosing rfl rfl rfl
  | stopId id =>
    obtain rfl := Option.some.inj hreg
    exact h.of_calls rfl (fun _ ↦ rfl) (List.subset_append_left _ _) hclosing rfl rfl rfl
  | stopName name =>
    obtain rfl := Option.some.inj hreg
    exact h.of_calls rfl (fun _ ↦ rfl) (List.subset_append_left _ _) hclosing rfl rfl rfl
  | addCtx k =>
    obtain ⟨c, hk, rfl⟩ := Option.map_eq_some_iff.mp hreg
    obtain ⟨hnone, hexpected⟩ := hintime c hk
    refine ⟨fun p hp ↦ ?_, fun c' hc' ↦ ?_⟩
    · rcases List.mem_append.mp hp with hp | hp
      · exact ((h.covered p hp).addCtx hnone).of_calls (fun _ ↦ rfl) (List.Subset.refl _) hclosing
          rfl rfl
      · obtain rfl := List.mem_singleton.mp hp
        exact Or.inr ⟨(CtxMgr.getCtx_addCtx_of_none hnone _).trans (if_pos rfl), hexpected⟩
    · obtain ⟨p, hp, rfl⟩ := h.scheduled c' hc'
      exact ⟨p, List.mem_append_left _ hp, rfl⟩
  | stopGet k =>
    obtain ⟨id, hk, rfl⟩ := Creations.stopGet_eq_some_iff.mp hreg
    refine ⟨fun p hp ↦ ?_, h.scheduled⟩
    cases hget : s.reg.mgr.getCtx id with
    | some c =>
      exact ((h.covered p hp).stopGet_some hk hget).of_calls (fun _ ↦ rfl) (List.Subset.refl _)
        hclosing rfl rfl
    | none =>
      exact ((h.covered p hp).stopGet_none hk hget).of_calls (fun _ ↦ rfl) (List.Subset.refl _)
        hclosing rfl rfl
  | stopDel k =>
    obtain ⟨id, c, hk, rfl⟩ := Creations.stopDel_eq_some_iff.mp hreg
    have hdeleted : s.reg.deleted (.stopDel k) = [c] := by
      rw [Creations.deleted, hk]
      rfl
    have hhands (c' : ℕ) (hc' : c' ∈ s.reg.mgr.getCtx id) :
        c = c' ∨ s.InHand (s.reg.stopCalls.eraseIdx k) c' :=
      (hintime _ hk c' hc').imp_left Option.some.inj
    rw [hdeleted]
    exact ⟨fun p hp ↦ (h.covered p hp).stopDel hk hhands, h.scheduled⟩

theorem tracked_step {nodeid : UInt8} (s : Teardown) (l : Label) (s' : Teardown) (h : Tracked s)
    (hintime : s.InTime l) (hstep : step nodeid s l = some s') : Tracked s' := by
  cases l with
  | registry l => exact tracked_registry h hintime hstep
  | schedule k =>
    obtain ⟨c, hk, hstep⟩ := Option.bind_eq_some_iff.mp hstep
    split_ifs at hstep with hnew
    obtain rfl := Option.some.inj hstep
    refine ⟨h.covered, fun c' hc' ↦ ?_⟩
    rcases List.mem_append.mp hc' with hc' | hc'
    · exact h.scheduled c' hc'
    · exact ⟨c, List.mem_of_getElem? hk, (List.mem_singleton.mp hc').symm⟩
  | shutdown k =>
    obtain ⟨c, hk, rfl⟩ := Option.map_eq_some_iff.mp hstep
    refine ⟨fun p hp ↦ (h.covered p hp).of_hands rfl (fun c' hc' ↦ ?_) fun _ ↦ Or.inl, h.scheduled⟩
    rcases hc' with hshut | hclose | hhold
    · exact Or.inl (List.mem_append_left _ hshut)
    · by_cases heq : c' = c
      · exact Or.inl (heq ▸ List.mem_append_right _ (List.mem_singleton.mpr rfl))
      · exact Or.inr (Or.inl (Vec.mem_eraseIdx_of_ne hk hclose heq))
    · exact Or.inr (Or.inr hhold)
  | nodeShutdown =>
    simp only [step] at hstep
    split_ifs at hstep with hpc
    obtain rfl := Option.some.inj hstep
    exact ⟨fun p hp ↦ (h.covered p hp).of_hands rfl (fun c hc ↦ by simpa [hpc, TearPc.ctx] using hc)
      fun _ _ ↦ Or.inl trivial, h.scheduled⟩
  | collect =>
    simp only [step] at hstep
    split_ifs at hstep with hpc
    obtain rfl := Option.some.inj hstep
    exact ⟨fun p hp ↦ (h.covered p hp).of_hands rfl
      (fun c hc ↦ by simpa [hpc, TearPc.ctx] using hc)
      fun htable _ ↦ Or.inl (CtxMgr.mem_collectCtxids htable), h.scheduled⟩
  | visitGet =>
    obtain ⟨id, ids, hpc, rfl⟩ := visitGet_eq_some_iff.mp hstep
    refine ⟨fun p hp ↦ (h.covered p hp).of_hands rfl (fun c hc ↦ ?_) fun htable hawait ↦ ?_,
      h.scheduled⟩
    · rcases hc with hshut | hclose | hhold
      · exact Or.inl hshut
      · exact Or.inr (Or.inl hclose)
      · rw [hpc] at hhold
        exact absurd hhold (by simp [TearPc.ctx])
    · rw [hpc] at hawait
      rcases List.mem_cons.mp hawait with hid | hmem
      · rw [hid] at htable
        exact Or.inr (by rw [htable]; rfl)
      · left
        cases s.reg.mgr.getCtx id <;> exact hmem
  | visitShutdown =>
    obtain ⟨c, ids, hpc, rfl⟩ := visitShutdown_eq_some_iff.mp hstep
    refine ⟨fun p hp ↦ (h.covered p hp).of_hands rfl (fun c' hc' ↦ ?_) fun _ hawait ↦ ?_,
      h.scheduled⟩
    · rcases hc' with hshut | hclose | hhold
      · exact Or.inl (List.mem_append_left _ hshut)
      · exact Or.inr (Or.inl hclose)
      · rw [hpc, TearPc.ctx, Option.some_inj] at hhold
        exact Or.inl (hhold ▸ List.mem_append_right _ (List.mem_singleton.mpr rfl))
    · rw [hpc] at hawait
      exact Or.inl hawait
  | finish =>
    simp only [step] at hstep
    split_ifs at hstep with hpc
    obtain rfl := Option.some.inj hstep
    refine ⟨fun p hp ↦ (h.covered p hp).of_hands rfl
      (fun c hc ↦ by simpa [hpc, TearPc.ctx] using hc) fun _ hawait ↦ ?_, h.scheduled⟩
    rw [hpc] at hawait
    exact absurd hawait List.not_mem_nil

/-- In every run in which no step comes too late for the teardown, every receive loop that was
scheduled has its queue stopped in the end. -/
theorem reached_of_inTime (nodeid : UInt8) (ls : List Label) {s : Teardown}
    (hintime : Machine.AllSteps (step nodeid) InTime init ls)
    (hrun : Machine.run (step nodeid) init ls = some s) : s.Reached :=
  (Machine.run_invariant tracked_step tracked_init hintime hrun).reached

instance (s : Teardown) (calls : List StopCall) (c : ℕ) : Decidable (s.InHand calls c) :=
  inferInstanceAs (Decidable (_ ∨ _ ∨ (∃ d ∈ calls, d.ctx = some c) ∨ _))

instance (s : Teardown) (id : UInt32) : Decidable (s.Expected id) :=
  inferInstanceAs (Decidable (_ ∨ _))

instance (s : Teardown) : ∀ l, Decidable (s.InTime l)
  | .registry (.addCtx k) => inferInstanceAs (Decidable (∀ c ∈ s.reg.initializing[k]?, _ ∧ _))
  | .registry (.stopDel k) =>
    inferInstanceAs (Decidable (∀ d ∈ s.reg.stopCalls[k]?, ∀ c ∈ s.reg.mgr.getCtx d.id, _ ∨ _))
  | .registry .noCreator | .registry .attachInit | .registry (.registerName _ _)
  | .registry (.initFails _) | .registry (.stopId _) | .registry (.stopName _)
  | .registry (.stopGet _) | .schedule _ | .shutdown _ | .nodeShutdown | .collect | .visitGet
  | .visitShutdown | .finish => inferInstanceAs (Decidable True)

/-- A second context is inserted before the ids are taken, and the first is stopped after. -/
theorem reached_of_inTime_stopped : ∃ s,
    Machine.run (step 1) init [.registry .attachInit, .registry (.addCtx 0), .schedule 0,
      .registry .attachInit, .nodeShutdown, .registry (.addCtx 0), .collect, .schedule 1,
      .registry (.stopId 0x01000001), .registry (.stopGet 0), .visitGet, .registry (.stopDel 0),
      .shutdown 0, .visitShutdown, .visitGet, .finish] = some s ∧
    s.scheduled = [0, 1] ∧ ∀ c ∈ s.scheduled, c ∈ s.shut :=
  ⟨_, rfl, rfl, reached_of_inTime 1 [.registry .attachInit, .registry (.addCtx 0), .schedule 0,
      .registry .attachInit, .nodeShutdown, .registry (.addCtx 0), .collect, .schedule 1,
      .registry (.stopId 0x01000001), .registry (.stopGet 0), .visitGet, .registry (.stopDel 0),
      .shutdown 0, .visitShutdown, .visitGet, .finish] (by decide) rfl rfl rfl rfl⟩

/-- A handler that is still running creates a context after the ids were taken. -/
theorem not_reached_lateCreate : ∃ s,
    Machine.run (step 1) init [.registry .attachInit, .nodeShutdown, .collect,
      .registry (.addCtx 0), .schedule 0, .finish] = some s ∧ ¬ s.Reached :=
  ⟨_, rfl, fun h ↦ absurd (h rfl rfl rfl 0 (by decide)) (by decide)⟩

end Teardown

end Cqy
