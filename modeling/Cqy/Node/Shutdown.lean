import Cqy.Node.SendLoop

/-!
# Shutdown and the users of a client

The client of a peer is used by its send loop and by the remote calls of running handlers, and
`cqy_node::shutdown` resets it while any of them may be suspended.  Only `rpc_find_ctx` tests the
pointer, some steps before it uses it.  This module says at which moments the reset is harmless,
and that it is not at any other.
-/

namespace Cqy

open Foundation

namespace SendLoop

variable {M : Type}

/-- Once its queue is stopped, the loop will end without another send: it is not about to send, and
what it would fetch is nothing. -/
def PastSends (s : SendLoop M) : Prop :=
  s.pc ≠ .send ∧ s.pc ≠ .nullClient ∧
    (s.pc = .size ∨ s.pc = .fetch → s.msgs = [] ∧ s.queue.items = [])

instance [DecidableEq M] (s : SendLoop M) : Decidable s.PastSends :=
  inferInstanceAs (Decidable (_ ∧ _ ∧ (_ → _)))

/-- Only `shutdown` resets the client, after it has stopped the queue. -/
theorem client_step {s s' : SendLoop M} {l : Label M} (hstep : s.step l = some s')
    (hclient : s'.client = false) :
    s.client = false ∨ (l = .resetClient ∧ s' = { s with client := false } ∧
      s.queue.stop = true) := by
  cases l <;> simp only [step] at hstep <;> grind [CvQueue.popAll]

theorem stop_step {s s' : SendLoop M} {l : Label M} (hstep : s.step l = some s')
    (hstop : s.queue.stop = true) : s'.queue.stop = true := by
  cases l <;> simp only [step] at hstep <;>
    grind [CvQueue.shutdown, CvQueue.enqueue, CvQueue.popAll]

/-- The loop meets a null pointer only where it sends without a client. -/
theorem nullClient_step {s s' : SendLoop M} {l : Label M} (hstep : s.step l = some s')
    (hpc : s'.pc = .nullClient) : s.pc = .nullClient ∨ (s.pc = .send ∧ s.client = false) := by
  cases l <;> simp only [step] at hstep <;> grind [CvQueue.popAll]

/-- A loop that is past its sends stays so, if nothing is queued that it would still fetch. -/
theorem pastSends_step {s s' : SendLoop M} {l : Label M} (hstep : s.step l = some s')
    (hstop : s.queue.stop = true) (hpast : s.PastSends)
    (hlate : ∀ i, l = .pushEnqueue i → s.pc ≠ .size ∧ s.pc ≠ .fetch) : s'.PastSends := by
  cases l <;> simp only [step] at hstep <;>
    grind [PastSends, CvQueue.shutdown, CvQueue.enqueue, CvQueue.popAll]

end SendLoop

/-- The three kinds of remote calls. -/
inductive RemoteCall
  | ctxCall
  | ctxCallName
  | rpcFindCtx
deriving DecidableEq

/-- Whether the call tests `rpc_client` after `get_node`. -/
def RemoteCall.tests : RemoteCall → Bool
  | .ctxCall | .ctxCallName => false
  | .rpcFindCtx => true

/-- Where a remote call stands after `get_node` has returned the peer. -/
inductive RemotePc
  | looked
  | tested
  | sending
  | returned
  | nullClient
deriving DecidableEq

structure RemoteCaller where
  call : RemoteCall
  pc : RemotePc
deriving DecidableEq

/-- The next step of the call is `rpc_client->send_request`. -/
def RemoteCaller.AtUse (c : RemoteCaller) : Prop :=
  c.pc = .tested ∨ (c.pc = .looked ∧ c.call.tests = false)

instance (c : RemoteCaller) : Decidable c.AtUse := inferInstanceAs (Decidable (_ ∨ _))

/-- The users of one peer's client: its send loop and the remote calls to it. -/
structure ClientUsers (M : Type) where
  loop : SendLoop M := {}
  callers : List RemoteCaller := []
deriving DecidableEq

namespace ClientUsers

variable {M : Type}

inductive Label (M : Type) where
  /-- A step of the loop, of a `push` or of `shutdown`. -/
  | loop (l : SendLoop.Label M)
  /-- `get_node` in a remote call returns the peer. -/
  | lookUp (call : RemoteCall)
  | testClient (i : ℕ)
  | use (i : ℕ)
  | reply (i : ℕ)
deriving DecidableEq

def setPc (s : ClientUsers M) (i : ℕ) (c : RemoteCaller) (pc : RemotePc) : ClientUsers M :=
  { s with callers := s.callers.set i { c with pc := pc } }

def step (s : ClientUsers M) : Label M → Option (ClientUsers M)
  | .loop l => (s.loop.step l).map fun loop ↦ { s with loop := loop }
  | .lookUp call => some { s with callers := s.callers ++ [⟨call, .looked⟩] }
  | .testClient i => s.callers[i]?.bind fun c ↦
      if c.pc = .looked ∧ c.call.tests then
        some (s.setPc i c (if s.loop.client then .tested else .returned))
      else none
  | .use i => s.callers[i]?.bind fun c ↦
      if c.AtUse then some (s.setPc i c (if s.loop.client then .sending else .nullClient))
      else none
  | .reply i => s.callers[i]?.bind fun c ↦
      if c.pc = .sending then some (s.setPc i c .returned) else none

/-- No use of the client has met a null pointer.  A user that has stays where it is. -/
def ClientPresent (s : ClientUsers M) : Prop :=
  s.loop.pc ≠ .nullClient ∧ ∀ c ∈ s.callers, c.pc ≠ .nullClient

/-- The client is reset when the loop is past its sends and no call is about to use it; after that
no `push` that had passed its test of `stop` appends to the queue of a loop that is about to fetch,
and no call looks up the peer that does not test the client. -/
def Settled (s : ClientUsers M) : Label M → Prop
  | .loop .resetClient => s.loop.PastSends ∧ ∀ c ∈ s.callers, ¬ c.AtUse
  | .loop (.pushEnqueue _) => s.loop.client = false → s.loop.pc ≠ .size ∧ s.loop.pc ≠ .fetch
  | .lookUp call => s.loop.client = false → call.tests = true
  | _ => True

instance [DecidableEq M] (s : ClientUsers M) : ∀ l, Decidable (s.Settled l)
  | .loop l => by cases l <;> (dsimp only [Settled]; infer_instance)
  | .lookUp _ => inferInstanceAs (Decidable (_ → _))
  | .testClient _ | .use _ | .reply _ => inferInstanceAs (Decidable True)

/-- A client that is gone leaves nobody who would still use it. -/
structure Inv (s : ClientUsers M) : Prop where
  present : s.ClientPresent
  stopped : s.loop.client = false → s.loop.queue.stop = true
  past : s.loop.client = false → s.loop.PastSends
  callers : s.loop.client = false → ∀ c ∈ s.callers, ¬ c.AtUse

theorem inv_init : Inv ({} : ClientUsers M) where
  present := ⟨by simp, by simp⟩
  stopped h := absurd h (by simp)
  past h := absurd h (by simp)
  callers h := absurd h (by simp)

/-! ## One step -/

theorem mem_setPc {s : ClientUsers M} {i : ℕ} {c c' : RemoteCaller} {pc : RemotePc}
    (hc' : c' ∈ (s.setPc i c pc).callers) : c' ∈ s.callers ∨ c'.pc = pc :=
  (List.mem_or_eq_of_mem_set hc').imp_right fun h ↦ by rw [h]

/-- A call that moves on to a place that is no use of a null pointer keeps the invariant, if it is
about to use the client only while there is one. -/
theorem Inv.of_setPc {s : ClientUsers M} (h : Inv s) {i : ℕ} {c : RemoteCaller} {pc : RemotePc}
    (hpc : pc ≠ .nullClient) (hlooked : pc ≠ .looked)
    (htested : pc = .tested → s.loop.client = true) : Inv (s.setPc i c pc) where
  present := ⟨h.present.1, fun c' hc' ↦ (mem_setPc hc').elim (h.present.2 c') (· ▸ hpc)⟩
  stopped := h.stopped
  past := h.past
  callers hclient c' hc' := by
    rcases mem_setPc hc' with hmem | hpc'
    · exact h.callers hclient c' hmem
    · have hgone : s.loop.client = false := hclient
      rintro (huse | ⟨huse, -⟩)
      · exact absurd (htested (hpc'.symm.trans huse)) (by simp [hgone])
      · exact hlooked (hpc'.symm.trans huse)

theorem inv_loop {s s' : ClientUsers M} {l : SendLoop.Label M} (h : Inv s)
    (hok : s.Settled (.loop l)) (hstep : s.step (.loop l) = some s') : Inv s' := by
  obtain ⟨loop, hloop, rfl⟩ := Option.map_eq_some_iff.mp hstep
  refine ⟨⟨fun hpc ↦ ?_, h.present.2⟩, fun hclient ↦ ?_, fun hclient ↦ ?_, fun hclient ↦ ?_⟩
  · rcases SendLoop.nullClient_step hloop hpc with hnull | ⟨hsend, hclient⟩
    · exact h.present.1 hnull
    · exact (h.past hclient).1 hsend
  · rcases SendLoop.client_step hloop hclient with hgone | ⟨-, -, hstop⟩
    · exact SendLoop.stop_step hloop (h.stopped hgone)
    · exact SendLoop.stop_step hloop hstop
  · rcases SendLoop.client_step hloop hclient with hgone | ⟨rfl, rfl, -⟩
    · refine SendLoop.pastSends_step hloop (h.stopped hgone) (h.past hgone) ?_
      rintro i rfl
      exact hok hgone
    · exact hok.1
  · rcases SendLoop.client_step hloop hclient with hgone | ⟨rfl, -, -⟩
    · exact h.callers hgone
    · exact hok.2

theorem inv_step (s : ClientUsers M) (l : Label M) (s' : ClientUsers M) (h : Inv s)
    (hok : s.Settled l) (hstep : s.step l = some s') : Inv s' := by
  cases l with
  | loop l => exact inv_loop h hok hstep
  | lookUp call =>
    obtain rfl := Option.some.inj hstep
    refine ⟨⟨h.present.1, fun c hc ↦ ?_⟩, h.stopped, h.past, fun hclient c hc ↦ ?_⟩
    · rcases List.mem_append.mp hc with hc | hc
      · exact h.present.2 c hc
      · obtain rfl := List.mem_singleton.mp hc
        simp
    · rcases List.mem_append.mp hc with hc | hc
      · exact h.callers hclient c hc
      · obtain rfl := List.mem_singleton.mp hc
        simp [RemoteCaller.AtUse, hok hclient]
  | testClient i =>
    obtain ⟨c, -, hc⟩ := Option.bind_eq_some_iff.mp hstep
    split_ifs at hc with hlooked <;> obtain rfl := Option.some.inj hc
    · exact h.of_setPc (by simp) (by simp) fun _ ↦ ‹_›
    · exact h.of_setPc (by simp) (by simp) (by simp)
  | use i =>
    obtain ⟨c, hget, hc⟩ := Option.bind_eq_some_iff.mp hstep
    split_ifs at hc with huse hclient <;> obtain rfl := Option.some.inj hc
    · exact h.of_setPc (by simp) (by simp) (by simp)
    · exact absurd huse (h.callers (by simpa using hclient) c (List.mem_of_getElem? hget))
  | reply i =>
    obtain ⟨c, -, hc⟩ := Option.bind_eq_some_iff.mp hstep
    split_ifs at hc
    obtain rfl := Option.some.inj hc
    exact h.of_setPc (by simp) (by simp) (by simp)

/-- In every run in which the client is reset only when nobody is about to use it, and nobody comes
to be afterwards, every step that uses the client finds it. -/
theorem clientPresent_of_settled {ls : List (Label M)} {s : ClientUsers M}
    (hok : Machine.AllSteps step Settled {} ls) (hrun : Machine.run step {} ls = some s) :
    s.ClientPresent :=
  (Machine.run_invariant inv_step inv_init hok hrun).present

/-- `rpc_find_ctx` and the loop come after a shutdown that found the loop before its test of `stop`:
the call tests the client and returns, the loop ends. -/
theorem clientPresent_settledShutdown :
    ∃ s : ClientUsers ℕ,
      Machine.run step {} [.lookUp .rpcFindCtx, .loop (.pushTest 0), .loop .shutdownQueue,
        .loop .resetClient, .loop (.pushEnqueue 0), .testClient 0, .loop .test] = some s ∧
      s.ClientPresent ∧ s.loop.client = false ∧ s.loop.pc = .finished := by
  have hrun : Machine.run (step (M := ℕ)) {} [.lookUp .rpcFindCtx, .loop (.pushTest 0),
      .loop .shutdownQueue, .loop .resetClient, .loop (.pushEnqueue 0), .testClient 0,
      .loop .test] = some _ := rfl
  exact ⟨_, hrun, clientPresent_of_settled (by decide) hrun, rfl, rfl⟩

/-- Shutdown falls between `pop_all`, or `get_node`, and the send. -/
theorem clientPresent_betweenFetchAndSend :
    (∃ s : ClientUsers ℕ,
      Machine.run step {} [.loop (.pushTest 0), .loop (.pushEnqueue 0), .loop .test, .loop .size,
        .loop .fetch, .loop .shutdownQueue, .loop .resetClient, .loop .send] = some s ∧
      s.loop.pc = .nullClient) ∧
    ∃ s : ClientUsers ℕ,
      Machine.run step {} [.lookUp .ctxCall, .loop .shutdownQueue, .loop .resetClient,
        .use 0] = some s ∧
      s.callers = [⟨.ctxCall, .nullClient⟩] := by
  exact ⟨⟨_, rfl, rfl⟩, ⟨_, rfl, rfl⟩⟩

/-! ## The other moments -/

/-- Without a client, a loop that is not past its sends runs into the null pointer by itself. -/
theorem exists_nullClient_loop {s : ClientUsers M} (hclient : s.loop.client = false)
    (hstop : s.loop.queue.stop = true) (hpast : ¬ s.loop.PastSends) :
    ∃ t, Machine.Reachable step s t ∧ ¬ t.ClientPresent := by
  have hsend (t : ClientUsers M) (hgone : t.loop.client = false) (hpc : t.loop.pc = .send) :
      ∃ u, Machine.Reachable step t u ∧ ¬ u.ClientPresent := by
    refine ⟨{ t with loop := { t.loop with pc := .nullClient } }, ?_, by simp [ClientPresent]⟩
    refine Machine.Reachable.head (i := .loop .send) ?_ (Machine.Reachable.refl _)
    simp [step, SendLoop.step, hpc, hgone]
  have hfetch (t : ClientUsers M) (hgone : t.loop.client = false)
      (hready : t.loop.queue.stop = true) (hpc : t.loop.pc = .fetch)
      (hmsgs : ¬ (t.loop.msgs = [] ∧ t.loop.queue.items = [])) :
      ∃ u, Machine.Reachable step t u ∧ ¬ u.ClientPresent := by
    obtain ⟨loop, hloop, hclient', hpc'⟩ : ∃ loop, t.loop.step .fetch = some loop ∧
        loop.client = false ∧ loop.pc = .send := by
      by_cases hnil : t.loop.msgs = []
      · have hitems : t.loop.queue.items ≠ [] := fun h ↦ hmsgs ⟨hnil, h⟩
        simp [SendLoop.step, CvQueue.popAll, CvQueue.ready, hpc, hnil, hready, hitems, hgone]
      · simp [SendLoop.step, hpc, hnil, hgone]
    obtain ⟨u, hreach, hu⟩ := hsend { t with loop := loop } hclient' hpc'
    exact ⟨u, hreach.head (i := .loop .fetch) (by rw [step, hloop, Option.map_some]), hu⟩
  simp only [SendLoop.PastSends, not_and_or, Classical.not_imp, not_ne_iff] at hpast
  rcases hpast with hpc | hpc | ⟨hpc | hpc, hmsgs⟩
  · exact hsend s hclient hpc
  · exact ⟨s, Machine.Reachable.refl s, fun h ↦ h.1 hpc⟩
  · let warned := SendLoop.warn s.loop.warnSize s.loop.queue.size
    let t : ClientUsers M := { s with loop := { s.loop with warnSize := warned, pc := .fetch } }
    have hsize : s.step (.loop .size) = some t := by simp [step, SendLoop.step, hpc, t, warned]
    obtain ⟨u, hreach, hu⟩ := hfetch t hclient hstop rfl (by rwa [not_and_or])
    exact ⟨u, hreach.head hsize, hu⟩
  · exact hfetch s hclient hstop hpc (by rwa [not_and_or])

theorem exists_nullClient_caller {s : ClientUsers M} (hclient : s.loop.client = false)
    {c : RemoteCaller} (hc : c ∈ s.callers) (huse : c.AtUse) :
    ∃ t, Machine.Reachable step s t ∧ ¬ t.ClientPresent := by
  obtain ⟨i, hi, hget⟩ := List.mem_iff_getElem.mp hc
  refine ⟨s.setPc i c .nullClient, ?_, fun h ↦ ?_⟩
  · refine Machine.Reachable.head (i := .use i) ?_ (Machine.Reachable.refl _)
    simp [step, List.getElem?_eq_getElem hi, hget, huse, hclient]
  · exact h.2 _ (List.mem_set hi { c with pc := .nullClient }) rfl

/-- The condition is exact: from a state that it has kept, every step that breaks it can be
continued to a use of the null pointer. -/
theorem exists_nullClient_of_not_settled {s s' : ClientUsers M} {l : Label M} (h : Inv s)
    (hnot : ¬ s.Settled l) (hstep : s.step l = some s') :
    ∃ t, Machine.Reachable step s' t ∧ ¬ t.ClientPresent := by
  cases l with
  | loop l =>
    obtain ⟨loop, hloop, rfl⟩ := Option.map_eq_some_iff.mp hstep
    cases l with
    | resetClient =>
      simp only [SendLoop.step] at hloop
      split_ifs at hloop with hstop
      obtain rfl := Option.some.inj hloop
      by_cases hpast : s.loop.PastSends
      · simp only [Settled, hpast, true_and, not_forall, not_not] at hnot
        obtain ⟨c, hc, huse⟩ := hnot
        exact exists_nullClient_caller rfl hc huse
      · exact exists_nullClient_loop rfl hstop hpast
    | pushEnqueue i =>
      obtain ⟨m, -, rfl⟩ := Option.map_eq_some_iff.mp hloop
      simp only [Settled, Classical.not_imp] at hnot
      obtain ⟨hclient, hpc⟩ := hnot
      refine exists_nullClient_loop hclient (h.stopped hclient) fun hpast ↦ ?_
      have hpc' : s.loop.pc = .size ∨ s.loop.pc = .fetch := by
        rwa [not_and_or, not_ne_iff, not_ne_iff] at hpc
      exact absurd (hpast.2.2 hpc').2 (by simp [CvQueue.enqueue])
    | _ => exact absurd trivial hnot
  | lookUp call =>
    obtain rfl := Option.some.inj hstep
    simp only [Settled, Classical.not_imp, Bool.not_eq_true] at hnot
    have hmem : (⟨call, .looked⟩ : RemoteCaller) ∈ s.callers ++ [⟨call, .looked⟩] := by simp
    exact exists_nullClient_caller hnot.1 hmem (Or.inr ⟨rfl, hnot.2⟩)
  | _ => exact absurd trivial hnot

end ClientUsers

end Cqy
