import Cqy.Foundation.Machine
import Cqy.Foundation.Stutter
import Cqy.Utils.CvQueue

/-!
# The retrying send loop of a peer

`node_mq_spawn` drains the queue of one peer: it pops everything that is queued, sends the batch
and sends it again until the remote call is reported to have succeeded.  The machine interleaves
its steps with the two halves of any number of `push` calls, with `shutdown`, and with every
outcome of a send.  The fields after `pc` are history; no step reads them.
-/

namespace Cqy

open Foundation

/-- Where `node_mq_spawn` stands. -/
inductive SendPc where
  | test
  | size
  | fetch
  | send
  /-- In `send_request`, with whether the peer's `rpc_on_mq` has run in this request. -/
  | sending (executed : Bool)
  | sleeping
  | nullClient
  | finished
deriving DecidableEq

/-- One peer's `node_t`, the locals of its send loop, and the history of both. -/
structure SendLoop (M : Type) where
  queue : CvQueue M := {}
  client : Bool := true
  /-- Pushes that have passed the test of `stop` and have yet to take the mutex. -/
  pushers : List M := []
  msgs : List M := []
  warnSize : ℕ := 1024
  pc : SendPc := .test
  pushed : List M := []
  popped : List (List M) := []
  ran : List (List M) := []
  acked : List (List M) := []
deriving DecidableEq

namespace SendLoop

variable {M : Type}

inductive Label (M : Type) where
  /-- A caller of `push` reads `stop`. -/
  | pushTest (m : M)
  /-- The `i`-th waiting caller appends its message under the mutex. -/
  | pushEnqueue (i : ℕ)
  /-- `cqy_node::shutdown` stops the queue. -/
  | shutdownQueue
  /-- `cqy_node::shutdown` resets the client. -/
  | resetClient
  | test
  | size
  | fetch
  | send
  /-- The peer runs `rpc_on_mq` on the batch of the request. -/
  | execute
  /-- `send_request` returns no result. -/
  | connError
  /-- `send_request` returns a result that is an error of the remote call. -/
  | callError
  | acknowledge
  | wake
deriving DecidableEq

/-- The new value of `warn_size`, a 64-bit `size_t`. -/
def warn (warnSize curSize : ℕ) : ℕ :=
  if warnSize ≤ curSize then warnSize * 2 % 2 ^ 64 else min (max (warnSize / 2) 1024) (2 ^ 64 - 1)

def step (s : SendLoop M) : Label M → Option (SendLoop M)
  | .pushTest m => some (if s.queue.stop then s else { s with pushers := s.pushers ++ [m] })
  | .pushEnqueue i => s.pushers[i]?.map fun m ↦
      { s with
        pushers := s.pushers.eraseIdx i
        queue := s.queue.enqueue m
        pushed := s.pushed ++ [m] }
  | .shutdownQueue => some { s with queue := s.queue.shutdown.2 }
  | .resetClient => if s.queue.stop then some { s with client := false } else none
  | .test =>
      if s.pc = .test then
        some { s with pc := if s.queue.stop then .finished else .size }
      else none
  | .size =>
      if s.pc = .size then
        some { s with warnSize := warn s.warnSize s.queue.size, pc := .fetch }
      else none
  | .fetch =>
      if s.pc = .fetch then
        if s.msgs = [] then
          s.queue.popAll.map fun (res, queue) ↦
            { s with
              queue := queue
              msgs := res
              popped := if res = [] then s.popped else s.popped ++ [res]
              pc := if res = [] then .finished else .send }
        else some { s with pc := .send }
      else none
  | .send =>
      if s.pc = .send then
        some { s with pc := if s.client then .sending false else .nullClient }
      else none
  | .execute =>
      if s.pc = .sending false then
        some { s with pc := .sending true, ran := s.ran ++ [s.msgs] }
      else none
  | .connError | .callError =>
      match s.pc with
      | .sending _ => some { s with pc := .sleeping }
      | _ => none
  | .acknowledge =>
      if s.pc = .sending true then
        some { s with msgs := [], pc := .test, acked := s.acked ++ [s.msgs] }
      else none
  | .wake => if s.pc = .sleeping then some { s with pc := .test } else none

/-- The loop carries a batch, which the peer may be handling. -/
def InSend (s : SendLoop M) : Prop :=
  match s.pc with
  | .send | .sending _ | .sleeping => True
  | _ => False

/-- The batch that has been popped and not yet acknowledged, if there is one. -/
def pending (msgs : List M) : List (List M) := if msgs = [] then [] else [msgs]

/-- What ties the queue, the pending batch and the peer's log together. -/
structure Inv (s : SendLoop M) : Prop where
  account : s.pushed = s.acked.flatten ++ s.msgs ++ s.queue.items
  batches : s.popped = s.acked ++ pending s.msgs
  carries : s.InSend → s.msgs ≠ []
  /-- Each acknowledged batch ran at least once and the pending one `k` times since. -/
  runs : ∃ ks k, ks.length = s.acked.length ∧ (∀ n ∈ ks, 1 ≤ n) ∧
    s.ran = repeatEach ks s.acked ++ List.replicate k s.msgs ∧
    (s.pc = .sending true → 1 ≤ k) ∧ (s.msgs = [] → k = 0)

theorem inv_init : Inv ({} : SendLoop M) where
  account := rfl
  batches := rfl
  carries h := by simp [InSend] at h
  runs := ⟨[], 0, rfl, by simp, by simp, by simp, fun _ ↦ rfl⟩

/-! ## One step -/

/-- The steps that move control only. -/
def Label.isControl : Label M → Bool
  | .resetClient | .test | .size | .send | .connError | .callError | .wake => true
  | _ => false

/-- Control comes to a request only from one, and leaves a request that is being executed only when
it is reported to have failed. -/
theorem step_control {s s' : SendLoop M} {l : Label M} (hl : l.isControl = true)
    (hstep : s.step l = some s') :
    (∃ pc warnSize client,
      s' = { s with pc := pc, warnSize := warnSize, client := client }) ∧
    (s'.InSend → s.InSend) ∧ (s'.pc = .sending true → s.pc = .sending true) ∧
    (l ≠ .connError → l ≠ .callError → s.pc = .sending true → s'.pc = .sending true) := by
  cases l with
  | pushTest m | pushEnqueue i | shutdownQueue | fetch | execute | acknowledge =>
    exact absurd hl (by simp [Label.isControl])
  | resetClient =>
    simp only [step] at hstep
    split_ifs at hstep
    obtain rfl := Option.some.inj hstep
    exact ⟨⟨_, _, _, rfl⟩, id, id, fun _ _ ↦ id⟩
  | connError | callError =>
    simp only [step] at hstep
    split at hstep
    · rename_i executed hpc
      obtain rfl := Option.some.inj hstep
      exact ⟨⟨_, _, _, rfl⟩, by simp [InSend, hpc], by simp, by simp⟩
    · simp at hstep
  | test | size | send | wake =>
    simp only [step] at hstep
    split_ifs at hstep with hpc <;> obtain rfl := Option.some.inj hstep <;>
      exact ⟨⟨_, _, _, rfl⟩, by simp [InSend, hpc], by simp, by simp [hpc]⟩

/-- Steps after which the messages are where they were and no request was executed. -/
theorem Inv.of_control {s s' : SendLoop M} (h : Inv s) (hpushed : s'.pushed = s.pushed)
    (hacked : s'.acked = s.acked) (hmsgs : s'.msgs = s.msgs)
    (hitems : s'.queue.items = s.queue.items) (hpopped : s'.popped = s.popped)
    (hran : s'.ran = s.ran) (hcarries : s'.InSend → s.msgs ≠ [])
    (hexecuted : s'.pc = .sending true → s.pc = .sending true) : Inv s' where
  account := by rw [hpushed, hacked, hmsgs, hitems, h.account]
  batches := by rw [hpopped, hacked, hmsgs, h.batches]
  carries := by rwa [hmsgs]
  runs := by
    obtain ⟨ks, k, hlen, hpos, hlog, hcur, hnil⟩ := h.runs
    exact ⟨ks, k, by rw [hacked, hlen], hpos, by rw [hran, hacked, hmsgs, hlog],
      fun hpc ↦ hcur (hexecuted hpc), by rwa [hmsgs]⟩

theorem shutdown_items (q : CvQueue M) : q.shutdown.2.items = q.items := by
  rw [CvQueue.shutdown]
  split <;> rfl

theorem inv_pushEnqueue {s s' : SendLoop M} {i : ℕ} (h : Inv s)
    (hstep : s.step (.pushEnqueue i) = some s') : Inv s' := by
  obtain ⟨m, -, rfl⟩ := Option.map_eq_some_iff.mp hstep
  refine ⟨?_, h.batches, h.carries, h.runs⟩
  simp only [CvQueue.enqueue, h.account, List.append_assoc]

/-- A batch is popped only when none is pending, so it is the whole queue and has not run yet. -/
theorem inv_fetch {s s' : SendLoop M} (h : Inv s) (hstep : s.step .fetch = some s') : Inv s' := by
  simp only [step] at hstep
  split_ifs at hstep with hpc hmsgs
  · obtain ⟨⟨res, q⟩, hpop, rfl⟩ := Option.map_eq_some_iff.mp hstep
    obtain ⟨-, rfl, rfl⟩ := CvQueue.popAll_eq_some_iff.mp hpop
    obtain ⟨ks, k, hlen, hpos, hlog, -, hnil⟩ := h.runs
    refine ⟨?_, ?_, ?_, ks, 0, hlen, hpos, ?_, ?_, fun _ ↦ rfl⟩
    · simp only [h.account, hmsgs, List.append_nil]
    · have hpopped := h.batches
      rw [hmsgs, pending, if_pos rfl, List.append_nil] at hpopped
      by_cases hres : s.queue.items = []
      · simp [hres, hpopped, pending]
      · simp [hres, hpopped, pending]
    · by_cases hres : s.queue.items = [] <;> simp [InSend, hres]
    · rw [hnil hmsgs] at hlog
      simpa using hlog
    · by_cases hres : s.queue.items = [] <;> simp [hres]
  · rw [Option.some.injEq] at hstep
    subst hstep
    exact h.of_control rfl rfl rfl rfl rfl rfl (fun _ ↦ hmsgs) (by simp)

theorem inv_execute {s s' : SendLoop M} (h : Inv s) (hstep : s.step .execute = some s') :
    Inv s' := by
  simp only [step] at hstep
  split_ifs at hstep with hpc
  obtain rfl := Option.some.inj hstep
  have hmsgs : s.msgs ≠ [] := h.carries (by simp [InSend, hpc])
  obtain ⟨ks, k, hlen, hpos, hlog, -, -⟩ := h.runs
  refine ⟨h.account, h.batches, fun _ ↦ hmsgs, ks, k + 1, hlen, hpos, ?_, fun _ ↦ by omega,
    fun hnil ↦ absurd hnil hmsgs⟩
  rw [List.replicate_succ', ← List.append_assoc, ← hlog]

/-- Acknowledging closes the count of the pending batch, which has run at least once. -/
theorem inv_acknowledge {s s' : SendLoop M} (h : Inv s) (hstep : s.step .acknowledge = some s') :
    Inv s' := by
  simp only [step] at hstep
  split_ifs at hstep with hpc
  obtain rfl := Option.some.inj hstep
  have hmsgs : s.msgs ≠ [] := h.carries (by simp [InSend, hpc])
  obtain ⟨ks, k, hlen, hpos, hlog, hcur, -⟩ := h.runs
  refine ⟨?_, ?_, ?_, ks ++ [k], 0, by simp [hlen], ?_, ?_, by simp, fun _ ↦ rfl⟩
  · simp [h.account]
  · simp [h.batches, pending, hmsgs]
  · simp [InSend]
  · intro n hn
    rcases List.mem_append.mp hn with hn | hn
    · exact hpos n hn
    · rw [List.mem_singleton.mp hn]
      exact hcur hpc
  · rw [repeatEach_concat hlen, hlog]
    simp

theorem inv_step (s : SendLoop M) (l : Label M) (s' : SendLoop M) (h : Inv s)
    (hstep : s.step l = some s') : Inv s' := by
  cases l with
  | pushEnqueue i => exact inv_pushEnqueue h hstep
  | fetch => exact inv_fetch h hstep
  | execute => exact inv_execute h hstep
  | acknowledge => exact inv_acknowledge h hstep
  | pushTest m =>
    obtain rfl := Option.some.inj hstep
    split
    · exact h
    · exact h.of_control rfl rfl rfl rfl rfl rfl h.carries id
  | shutdownQueue =>
    obtain rfl := Option.some.inj hstep
    exact h.of_control rfl rfl rfl (shutdown_items s.queue) rfl rfl h.carries id
  | resetClient | test | size | send | connError | callError | wake =>
    obtain ⟨⟨pc, warnSize, client, rfl⟩, hin, hexecuted, -⟩ := step_control rfl hstep
    exact h.of_control rfl rfl rfl rfl rfl rfl (fun hsend ↦ h.carries (hin hsend)) hexecuted

theorem inv_of_reachable {s : SendLoop M} (h : Machine.Reachable step {} s) : Inv s :=
  h.invariant inv_step inv_init

/-! ## What the history says -/

/-- What a step puts into the queue, takes out of it, has the peer run and takes for done. -/
def enqueued (s : SendLoop M) : Label M → List M
  | .pushEnqueue i => s.pushers[i]?.toList
  | _ => []

def fetched (s : SendLoop M) : Label M → List (List M)
  | .fetch => if s.msgs = [] ∧ s.queue.items ≠ [] then [s.queue.items] else []
  | _ => []

def executed (s : SendLoop M) : Label M → List (List M)
  | .execute => [s.msgs]
  | _ => []

def acknowledged (s : SendLoop M) : Label M → List (List M)
  | .acknowledge => [s.msgs]
  | _ => []

theorem history_step {s s' : SendLoop M} {l : Label M} (hstep : s.step l = some s') :
    s'.pushed = s.pushed ++ s.enqueued l ∧ s'.popped = s.popped ++ s.fetched l ∧
    s'.ran = s.ran ++ s.executed l ∧ s'.acked = s.acked ++ s.acknowledged l := by
  cases l with
  | pushEnqueue i =>
    obtain ⟨m, hget, rfl⟩ := Option.map_eq_some_iff.mp hstep
    simp [enqueued, fetched, executed, acknowledged, hget]
  | fetch =>
    simp only [step] at hstep
    split_ifs at hstep with hpc hmsgs
    · obtain ⟨⟨res, q⟩, hpop, rfl⟩ := Option.map_eq_some_iff.mp hstep
      obtain ⟨-, rfl, rfl⟩ := CvQueue.popAll_eq_some_iff.mp hpop
      by_cases hitems : s.queue.items = [] <;>
        simp [enqueued, fetched, executed, acknowledged, hmsgs, hitems]
    · obtain rfl := Option.some.inj hstep
      simp [enqueued, fetched, executed, acknowledged, hmsgs]
  | execute | acknowledge =>
    simp only [step] at hstep
    split_ifs at hstep
    obtain rfl := Option.some.inj hstep
    simp [enqueued, fetched, executed, acknowledged]
  | pushTest m =>
    obtain rfl := Option.some.inj hstep
    split <;> simp [enqueued, fetched, executed, acknowledged]
  | shutdownQueue =>
    obtain rfl := Option.some.inj hstep
    simp [enqueued, fetched, executed, acknowledged]
  | resetClient | test | size | send | connError | callError | wake =>
    obtain ⟨⟨pc, warnSize, client, rfl⟩, -⟩ := step_control rfl hstep
    simp [enqueued, fetched, executed, acknowledged]

/-- The history fields are what the steps of the run did: `pushed` holds the messages of the
pushes, in the order in which they were appended, and `ran` the batches the peer has run. -/
theorem history_of_run {is : List (Label M)} {s : SendLoop M}
    (hrun : Machine.run step {} is = some s) :
    s.pushed = Machine.trace step enqueued {} is ∧ s.popped = Machine.trace step fetched {} is ∧
    s.ran = Machine.trace step executed {} is ∧ s.acked = Machine.trace step acknowledged {} is :=
  ⟨Machine.eq_trace (fun _ _ _ h ↦ (history_step h).1) rfl hrun,
    Machine.eq_trace (fun _ _ _ h ↦ (history_step h).2.1) rfl hrun,
    Machine.eq_trace (fun _ _ _ h ↦ (history_step h).2.2.1) rfl hrun,
    Machine.eq_trace (fun _ _ _ h ↦ (history_step h).2.2.2) rfl hrun⟩

/-! ## The messages a loop holds -/

/-- Every message that was pushed and that no acknowledged batch contains. -/
def held (s : SendLoop M) : List M := s.pushers ++ s.queue.items ++ s.msgs

def Label.incoming : Label M → List M
  | .pushTest m => [m]
  | _ => []

/-- A step holds on to messages it held before or takes the one that is being pushed. -/
theorem held_step {s s' : SendLoop M} {l : Label M} (hstep : s.step l = some s') :
    s'.held ⊆ l.incoming ++ s.held := by
  have hkeep (hpushers : s'.pushers = s.pushers) (hitems : s'.queue.items = s.queue.items)
      (hmsgs : s'.msgs ⊆ s.msgs) : s'.held ⊆ l.incoming ++ s.held := by
    intro m hm
    simp only [held, hpushers, hitems, List.mem_append] at hm ⊢
    exact Or.inr (hm.imp_right fun h ↦ hmsgs h)
  have hsame := List.Subset.refl s.msgs
  cases l with
  | pushTest m =>
    obtain rfl := Option.some.inj hstep
    split
    · exact List.subset_append_right _ _
    · intro x hx
      simp only [held, Label.incoming, List.mem_append, List.mem_singleton] at hx ⊢
      tauto
  | pushEnqueue i =>
    obtain ⟨m, hi, rfl⟩ := Option.map_eq_some_iff.mp hstep
    have hmem := List.mem_of_getElem? hi
    intro x hx
    simp only [held, CvQueue.enqueue, Label.incoming, List.mem_append, List.mem_singleton,
      List.not_mem_nil, false_or] at hx ⊢
    rcases hx with (hx | hx | rfl) | hx
    · exact Or.inl (Or.inl (List.mem_of_mem_eraseIdx hx))
    · exact Or.inl (Or.inr hx)
    · exact Or.inl (Or.inl hmem)
    · exact Or.inr hx
  | fetch =>
    simp only [step] at hstep
    split_ifs at hstep with hpc hmsgs
    · obtain ⟨⟨res, q⟩, hpop, rfl⟩ := Option.map_eq_some_iff.mp hstep
      obtain ⟨-, rfl, rfl⟩ := CvQueue.popAll_eq_some_iff.mp hpop
      intro x hx
      simp only [held, Label.incoming, List.mem_append, List.not_mem_nil, or_false,
        false_or] at hx ⊢
      exact Or.inl hx
    · obtain rfl := Option.some.inj hstep
      exact hkeep rfl rfl hsame
  | acknowledge =>
    simp only [step] at hstep
    split_ifs at hstep
    obtain rfl := Option.some.inj hstep
    exact hkeep rfl rfl (List.nil_subset _)
  | shutdownQueue =>
    obtain rfl := Option.some.inj hstep
    exact hkeep rfl (shutdown_items s.queue) hsame
  | execute =>
    simp only [step] at hstep
    split_ifs at hstep
    obtain rfl := Option.some.inj hstep
    exact hkeep rfl rfl hsame
  | resetClient | test | size | send | connError | callError | wake =>
    obtain ⟨⟨pc, warnSize, client, rfl⟩, -⟩ := step_control rfl hstep
    exact hkeep rfl rfl hsame

/-- Steps other than the execution and the end of a request leave the acknowledged batches alone,
and the batch of a request that is being executed. -/
theorem step_quiet {s s' : SendLoop M} {l : Label M} (hstep : s.step l = some s')
    (hexecute : l ≠ .execute) (hack : l ≠ .acknowledge) (hconn : l ≠ .connError)
    (hcall : l ≠ .callError) : s'.acked = s.acked ∧
      (s.pc = .sending true → s'.pc = .sending true ∧ s'.msgs = s.msgs) := by
  cases l with
  | execute => exact absurd rfl hexecute
  | acknowledge => exact absurd rfl hack
  | connError => exact absurd rfl hconn
  | callError => exact absurd rfl hcall
  | pushTest m =>
    obtain rfl := Option.some.inj hstep
    split <;> exact ⟨rfl, fun hpc ↦ ⟨hpc, rfl⟩⟩
  | pushEnqueue i =>
    obtain ⟨m, -, rfl⟩ := Option.map_eq_some_iff.mp hstep
    exact ⟨rfl, fun hpc ↦ ⟨hpc, rfl⟩⟩
  | shutdownQueue =>
    obtain rfl := Option.some.inj hstep
    exact ⟨rfl, fun hpc ↦ ⟨hpc, rfl⟩⟩
  | fetch =>
    simp only [step] at hstep
    split_ifs at hstep with hpc hmsgs
    · obtain ⟨⟨res, q⟩, -, rfl⟩ := Option.map_eq_some_iff.mp hstep
      exact ⟨rfl, fun hsending ↦ by simp [hpc] at hsending⟩
    · obtain rfl := Option.some.inj hstep
      exact ⟨rfl, fun hsending ↦ by simp [hpc] at hsending⟩
  | resetClient | test | size | send | wake =>
    obtain ⟨⟨pc, warnSize, client, rfl⟩, -, -, hkeeps⟩ := step_control rfl hstep
    exact ⟨rfl, fun hsending ↦ ⟨hkeeps hconn hcall hsending, rfl⟩⟩

/-! ## Runs in which a failed request was not executed -/

/-- A request that is reported to have failed did not run `rpc_on_mq`. -/
def FailsUnexecuted (s : SendLoop M) (l : Label M) : Prop :=
  l = .connError ∨ l = .callError → s.pc ≠ .sending true

/-- Each acknowledged batch ran once; the pending one ran if its request has executed. -/
def RanOnce (s : SendLoop M) : Prop :=
  s.ran = s.acked ++ if s.pc = .sending true then [s.msgs] else []

theorem ranOnce_step (s : SendLoop M) (l : Label M) (s' : SendLoop M) (h : RanOnce s)
    (hok : FailsUnexecuted s l) (hstep : s.step l = some s') : RanOnce s' := by
  cases l with
  | pushTest m =>
    obtain rfl := Option.some.inj hstep
    split <;> exact h
  | pushEnqueue i =>
    obtain ⟨m, -, rfl⟩ := Option.map_eq_some_iff.mp hstep
    exact h
  | shutdownQueue =>
    obtain rfl := Option.some.inj hstep
    exact h
  | execute =>
    simp only [step] at hstep
    split_ifs at hstep with hpc
    obtain rfl := Option.some.inj hstep
    simp only [RanOnce, hpc] at h ⊢
    simp [h]
  | acknowledge =>
    simp only [step] at hstep
    split_ifs at hstep with hpc
    obtain rfl := Option.some.inj hstep
    simp only [RanOnce, hpc] at h ⊢
    simp [h]
  | fetch =>
    simp only [step] at hstep
    split_ifs at hstep with hpc hmsgs
    · obtain ⟨⟨res, q⟩, -, rfl⟩ := Option.map_eq_some_iff.mp hstep
      by_cases hres : res = [] <;> simpa [RanOnce, hpc, hres] using h
    · obtain rfl := Option.some.inj hstep
      simpa [RanOnce, hpc] using h
  | resetClient | test | size | send | connError | callError | wake =>
    obtain ⟨⟨pc, warnSize, client, rfl⟩, -, hexecuted, hkeeps⟩ := step_control rfl hstep
    have hpc : pc = .sending true ↔ s.pc = .sending true := by
      refine ⟨hexecuted, fun hpc ↦ hkeeps ?_ ?_ hpc⟩
      · exact fun hl ↦ hok (Or.inl hl) hpc
      · exact fun hl ↦ hok (Or.inr hl) hpc
    simpa only [RanOnce, hpc] using h

/-! ## Whole runs -/

/-- Nothing accepted is lost or reordered, and the peer's log repeats the popped batches in
order, the acknowledged ones at least once. -/
theorem run_log (is : List (Label M)) (s : SendLoop M)
    (hrun : Machine.run step {} is = some s) :
    s.pushed = s.acked.flatten ++ s.msgs ++ s.queue.items ∧
    s.popped.flatten ++ s.queue.items = s.pushed ∧ s.acked <+: s.popped ∧
    (∃ ks : List ℕ, ks.length = s.popped.length ∧ s.ran = repeatEach ks s.popped ∧
      ∀ i, i < s.acked.length → 1 ≤ ks.getD i 0) ∧
    (Machine.AllSteps step FailsUnexecuted {} is →
      s.ran = s.acked ++ if s.pc = .sending true then [s.msgs] else []) := by
  have hinv : Inv s := inv_of_reachable ⟨is, hrun⟩
  have hpopped := hinv.batches
  refine ⟨hinv.account, ?_, ?_, ?_, fun hok ↦ ?_⟩
  · rw [hpopped, hinv.account]
    by_cases hmsgs : s.msgs = [] <;> simp [pending, hmsgs]
  · exact hpopped ▸ List.prefix_append _ _
  · obtain ⟨ks, k, hlen, hpos, hlog, -, hnil⟩ := hinv.runs
    by_cases hmsgs : s.msgs = []
    · rw [pending, if_pos hmsgs, List.append_nil] at hpopped
      refine ⟨ks, by rw [hpopped, hlen], by simp [hlog, hnil hmsgs, hpopped], fun i hi ↦ ?_⟩
      have hik : i < ks.length := hlen ▸ hi
      rw [List.getD_eq_getElem _ _ hik]
      exact hpos _ (List.getElem_mem hik)
    · rw [pending, if_neg hmsgs] at hpopped
      refine ⟨ks ++ [k], by simp [hpopped, hlen], by rw [hpopped, repeatEach_concat hlen, hlog],
        fun i hi ↦ ?_⟩
      have hik : i < ks.length := hlen ▸ hi
      rw [List.getD_append _ _ _ _ hik, List.getD_eq_getElem _ _ hik]
      exact hpos _ (List.getElem_mem hik)
  · exact Machine.run_invariant ranOnce_step (by simp [RanOnce]) hok hrun

/-- Two messages are popped together; their first request runs and is reported lost, the second
one succeeds while a third message arrives. -/
theorem run_log_retry : ∃ s : SendLoop ℕ,
    Machine.run step {} [.pushTest 1, .pushTest 2, .pushEnqueue 0, .pushEnqueue 0, .test, .size,
      .fetch, .send, .execute, .connError, .wake, .test, .size, .fetch, .pushTest 3, .send,
      .pushEnqueue 0, .execute, .acknowledge] = some s ∧
    s.pushed = [1, 2, 3] ∧ s.ran = [[1, 2], [1, 2]] ∧
    s.pushed = s.acked.flatten ++ s.msgs ++ s.queue.items ∧
    ∃ ks : List ℕ, ks.length = s.popped.length ∧ s.ran = repeatEach ks s.popped ∧
      ∀ i, i < s.acked.length → 1 ≤ ks.getD i 0 := by
  have hrun : Machine.run step ({} : SendLoop ℕ) [.pushTest 1, .pushTest 2, .pushEnqueue 0,
      .pushEnqueue 0, .test, .size, .fetch, .send, .execute, .connError, .wake, .test, .size,
      .fetch, .pushTest 3, .send, .pushEnqueue 0, .execute, .acknowledge] =
        some
          { queue := { items := [3] }
            pushed := [1, 2, 3]
            popped := [[1, 2]]
            ran := [[1, 2], [1, 2]]
            acked := [[1, 2]] } := by decide
  have hlog := run_log _ _ hrun
  exact ⟨_, hrun, rfl, rfl, hlog.1, hlog.2.2.2.1⟩

end SendLoop

end Cqy
