import Cqy.App.Passage
import Cqy.Node.Shutdown

/-!
# Everything that was sent can still arrive

Whatever has happened so far, failed requests and runs left behind included: while both queues are
open, the send loop, the runs of `rpc_on_mq` and the receive loop can bring every message that was
pushed to its handler, by steps of their own.  None of them waits for something that will not come.
-/

namespace Cqy

open Foundation

namespace SendLoop

variable {M : Type}

/-- While the queue is open, the loop has its client and has not ended. -/
structure Going (s : SendLoop M) : Prop where
  client : s.client = false → s.queue.stop = true
  nullClient : s.pc = .nullClient → s.queue.stop = true
  finished : s.pc = .finished → s.queue.stop = true

theorem going_init : Going ({} : SendLoop M) := ⟨by simp, by simp, by simp⟩

theorem finished_step {s s' : SendLoop M} {l : Label M} (hstep : s.step l = some s')
    (hpc : s'.pc = .finished) : s.pc = .finished ∨ s.queue.stop = true := by
  cases l <;> simp only [step] at hstep <;> grind [CvQueue.popAll, CvQueue.ready]

theorem Going.step {s s' : SendLoop M} (h : Going s) {l : Label M} (hstep : s.step l = some s') :
    Going s' where
  client hclient := by
    refine stop_step hstep ?_
    rcases client_step hstep hclient with hgone | ⟨-, -, hstop⟩
    · exact h.client hgone
    · exact hstop
  nullClient hpc := by
    refine stop_step hstep ?_
    rcases nullClient_step hstep hpc with hnull | ⟨-, hgone⟩
    · exact h.nullClient hnull
    · exact h.client hgone
  finished hpc := by
    refine stop_step hstep ?_
    rcases finished_step hstep hpc with hfinished | hstop
    · exact h.finished hfinished
    · exact hstop

end SendLoop

namespace Passage

/-! ## What a loop may wait for -/

/-- The loops have not ended while their queues are open, and a request that is being executed has
its run. -/
structure Ready (s : Passage) : Prop where
  send : s.send.Going
  busy : s.send.pc = .sending true → s.current ≠ none
  loop : s.ctx.pc = .finished → s.ctx.queue.stop = true

theorem ready_start (m : CtxMgr UInt32) : Ready (start m) :=
  ⟨SendLoop.going_init, by simp [start], by simp [start]⟩

theorem loop_step {ctx ctx' : Receive} {l : Receive.Label} (hstep : ctx.step l = some ctx')
    (h : ctx.pc = .finished → ctx.queue.stop = true) (hpc : ctx'.pc = .finished) :
    ctx'.queue.stop = true := by
  cases l with
  | start rpc =>
    obtain rfl := Option.some.inj hstep
    exact h hpc
  | act i a =>
    obtain ⟨-, lock, -, rfl⟩ := Receive.act_eq_some hstep
    exact h hpc
  | pushTest | pushEnqueue | shutdown | test | pop | take =>
    simp only [Receive.step, Receive.handle] at hstep
    grind [CvQueue.shutdown, CvQueue.enqueue]

/-- Handing a message over changes the queue of the context at most. -/
theorem deliver_frame {c : UInt32} {s s' : Passage} {k : ℕ} {r : MqRun Unit}
    (hdeliver : s.deliver c k r = some s') : ∃ msg rest ctx origin, r.rest = msg :: rest ∧
      s' = { s with runs := s.runs.set k ⟨(), rest, none⟩, ctx := ctx, origin := origin } ∧
      ctx.pc = s.ctx.pc ∧ ctx.queue.stop = s.ctx.queue.stop ∧
      ctx.queue.items.length ≤ s.ctx.queue.items.length + 1 := by
  unfold deliver at hdeliver
  split at hdeliver
  · rename_i id msg rest hlooked hrest
    have hpush (own : Prop) [Decidable own] (s₁ : Passage) : ∃ ctx origin,
        (if own then s₁.pushMsg msg else s₁) = { s₁ with ctx := ctx, origin := origin } ∧
        ctx.pc = s₁.ctx.pc ∧ ctx.queue.stop = s₁.ctx.queue.stop ∧
        ctx.queue.items.length ≤ s₁.ctx.queue.items.length + 1 := by
      unfold pushMsg
      split_ifs
      · exact ⟨_, _, rfl, rfl, rfl, Nat.le_succ _⟩
      · exact ⟨_, _, rfl, rfl, rfl, by simp [CvQueue.enqueue]⟩
      · exact ⟨_, _, rfl, rfl, rfl, Nat.le_succ _⟩
    split at hdeliver
    · rename_i c' _
      obtain ⟨ctx, origin, heq, hframe⟩ :=
        hpush (c' = c) { s with runs := s.runs.set k ⟨(), rest, none⟩ }
      exact ⟨msg, rest, ctx, origin, hrest, (Option.some.inj hdeliver).symm.trans heq, hframe⟩
    · exact ⟨msg, rest, _, _, hrest, (Option.some.inj hdeliver).symm, rfl, rfl, Nat.le_succ _⟩
  · exact absurd hdeliver (by simp)

/-- A step of the sender is a step of its loop; the run under way is there as long as the loop
waits for it. -/
theorem senderStep_spec {s s' : Passage} {l : SendLoop.Label CqyStr}
    (hstep : s.senderStep l = some s') : ∃ send runs current, s.send.step l = some send ∧
      s' = { s with send := send, runs := runs, current := current } ∧
      (send.pc = .sending true → current ≠ none ∨ current = s.current ∧ l ≠ .execute) := by
  have hquiet (send : SendLoop CqyStr) (hsend : s.send.step l = some send) (hl : l ≠ .execute) :
      ∃ send' runs current, s.send.step l = some send' ∧
        { s with send := send } = { s with send := send', runs := runs, current := current } ∧
        (send'.pc = .sending true → current ≠ none ∨ current = s.current ∧ l ≠ .execute) :=
    ⟨send, _, _, hsend, rfl, fun _ ↦ Or.inr ⟨rfl, hl⟩⟩
  cases l with
  | pushTest msg => exact absurd hstep (by simp [senderStep])
  | execute =>
    obtain ⟨send, hsend, rfl⟩ := Option.map_eq_some_iff.mp hstep
    exact ⟨send, _, _, hsend, rfl, fun _ ↦ Or.inl (by simp)⟩
  | acknowledge =>
    simp only [senderStep] at hstep
    split at hstep
    · obtain ⟨send, hsend, rfl⟩ := Option.map_eq_some_iff.mp hstep
      refine ⟨send, _, _, hsend, rfl, fun hpc ↦ ?_⟩
      simp only [SendLoop.step] at hsend
      split_ifs at hsend
      obtain rfl := Option.some.inj hsend
      exact absurd hpc (by simp)
    · exact absurd hstep (by simp)
  | connError | callError =>
    obtain ⟨send, hsend, rfl⟩ := Option.map_eq_some_iff.mp hstep
    refine ⟨send, _, _, hsend, rfl, fun hpc ↦ ?_⟩
    simp only [SendLoop.step] at hsend
    split at hsend
    · obtain rfl := Option.some.inj hsend
      exact absurd hpc (by simp)
    · exact absurd hsend (by simp)
  | pushEnqueue | shutdownQueue | resetClient | test | size | fetch | send | wake =>
    unfold senderStep at hstep
    obtain ⟨send, hsend, rfl⟩ := Option.map_eq_some_iff.mp hstep
    exact hquiet send hsend (by simp)

theorem sending_step {send send' : SendLoop CqyStr} {l : SendLoop.Label CqyStr}
    (hstep : send.step l = some send') (hl : l ≠ .execute) (hpc : send'.pc = .sending true) :
    send.pc = .sending true := by
  cases l <;> simp only [SendLoop.step] at hstep <;> grind [CvQueue.popAll]

theorem Ready.step {nodeid : UInt8} {c : UInt32} {s s' : Passage} (h : Ready s) {l : Label}
    (hstep : s.step nodeid c l = some s') : Ready s' := by
  cases l with
  | push frame =>
    simp only [Passage.step] at hstep
    split_ifs at hstep
    · obtain ⟨send, hsend, rfl⟩ := Option.map_eq_some_iff.mp hstep
      exact ⟨h.send.step hsend, fun hpc ↦ h.busy (sending_step hsend (by simp) hpc), h.loop⟩
    · obtain rfl := Option.some.inj hstep
      exact h
  | sender l =>
    obtain ⟨send, runs, current, hsend, rfl, hrun⟩ := senderStep_spec hstep
    refine ⟨h.send.step hsend, fun hpc ↦ ?_, h.loop⟩
    rcases hrun hpc with hcurrent | ⟨rfl, hl⟩
    · exact hcurrent
    · exact h.busy (sending_step hsend hl hpc)
  | registry m =>
    obtain rfl := Option.some.inj hstep
    exact ⟨h.send, h.busy, h.loop⟩
  | lookUp k =>
    obtain ⟨r, -, rfl⟩ := Option.map_eq_some_iff.mp hstep
    exact ⟨h.send, h.busy, h.loop⟩
  | deliver k =>
    obtain ⟨r, -, hdeliver⟩ := Option.bind_eq_some_iff.mp hstep
    obtain ⟨msg, rest, ctx, origin, -, rfl, hpc, hstop, -⟩ := deliver_frame hdeliver
    exact ⟨h.send, h.busy, by rw [hpc, hstop]; exact h.loop⟩
  | ctx l =>
    obtain ⟨ctx, hctx, rfl⟩ := Option.map_eq_some_iff.mp hstep
    exact ⟨h.send, h.busy, loop_step hctx h.loop⟩

/-! ## Going forward -/

/-- The steps that the loops and the runs take by themselves when requests succeed. -/
def Label.forward : Label → Bool
  | .sender (.pushEnqueue _) | .sender .test | .sender .size | .sender .fetch | .sender .send
  | .sender .execute | .sender .acknowledge | .sender .wake => true
  | .lookUp _ | .deliver _ | .ctx .test | .ctx .pop | .ctx .take => true
  | _ => false

/-- Everything that was pushed has been acknowledged, and the context has popped what it got. -/
def Idle (s : Passage) : Prop :=
  s.send.pushers = [] ∧ s.send.queue.items = [] ∧ s.send.msgs = [] ∧ s.ctx.queue.items = []

/-- The steps of the loop from `pc` to the end of a request, or to its next wait. -/
def pcLeft : SendPc → ℕ
  | .sleeping => 9
  | .test => 8
  | .size => 7
  | .fetch => 6
  | .send => 5
  | .sending false => 4
  | .sending true => 3
  | .nullClient | .finished => 0

/-- What a run has to do, with what the context then does with the messages. -/
def runLeft (r : MqRun Unit) : ℕ := 5 * r.rest.length - if r.looked.isSome then 1 else 0

/-- What is to be done for the batch that the loop holds. -/
def batchLeft (s : Passage) : ℕ :=
  match s.send.pc, s.current.bind (s.runs[·]?) with
  | .sending true, some r => 10 + runLeft r
  | _, _ => if s.send.msgs = [] then 0 else 10 + 5 * s.send.msgs.length

/-- The steps of the receive loop from `pc` to the point where it takes a message. -/
def receiveLeft : ReceivePc → ℕ
  | .test => 2
  | .pop => 1
  | .take | .finished => 0

def ctxLeft (ctx : Receive) : ℕ := 3 * ctx.queue.items.length + receiveLeft ctx.pc

/-- A message that is still to be fetched may take a request of its own. -/
def toDo (s : Passage) : ℕ :=
  41 * s.send.pushers.length + 40 * s.send.queue.items.length + pcLeft s.send.pc + s.batchLeft +
    ctxLeft s.ctx

section Forward

variable {nodeid : UInt8} {c : UInt32} {names : List Bytes} {s s' : Passage} {xs : List CqyStr}

/-- The receive loop pops what is in its queue. -/
theorem exists_ctx_step (hloop : s.ctx.pc ≠ .finished) (hopen : s.ctx.queue.stop = false)
    (hitems : s.ctx.queue.items ≠ []) : ∃ l s', l.forward = true ∧
      s.step nodeid c l = some s' ∧ s'.toDo < s.toDo := by
  cases hpc : s.ctx.pc with
  | finished => exact absurd hpc hloop
  | test =>
    refine ⟨.ctx .test, { s with
      ctx := { s.ctx with pc := .pop }
      origin := s.origin ++ foreign .test }, rfl, ?_, ?_⟩
    · simp [step, ctxStep, Receive.step, hpc, hopen]
    · simp [toDo, batchLeft, ctxLeft, receiveLeft, hpc]
  | pop =>
    have hready : s.ctx.queue.ready = true := by
      simp [CvQueue.ready, List.length_pos_of_ne_nil hitems]
    refine ⟨.ctx .pop, { s with
      ctx := { s.ctx with pc := .take }
      origin := s.origin ++ foreign .pop }, rfl, ?_, ?_⟩
    · simp [step, ctxStep, Receive.step, hpc, hready, hitems, hopen]
    · simp [toDo, batchLeft, ctxLeft, receiveLeft, hpc]
  | take =>
    obtain ⟨msg, rest, hqueue⟩ := List.exists_cons_of_ne_nil hitems
    refine ⟨.ctx .take, { s with
      ctx := ({ s.ctx with queue := { s.ctx.queue with items := rest } } : Receive).handle msg
      origin := s.origin ++ foreign .take }, rfl, ?_, ?_⟩
    · simp [step, ctxStep, Receive.step, hpc, hqueue]
    · have hleft : ctxLeft (({ s.ctx with queue := { s.ctx.queue with items := rest } } :
          Receive).handle msg) < ctxLeft s.ctx := by
        simp only [Receive.handle]
        split <;> simp [ctxLeft, receiveLeft, hpc, hqueue] <;> omega
      simpa [toDo, batchLeft] using hleft

/-- The run of the request under way goes on with its first message. -/
theorem exists_run_step (hpc : s.send.pc = .sending true) {k : ℕ} (hk : s.current = some k)
    {r : MqRun Unit} (hr : s.runs[k]? = some r) (hrest : r.rest ≠ []) :
    ∃ l s', l.forward = true ∧ s.step nodeid c l = some s' ∧ s'.toDo < s.toDo := by
  obtain ⟨u, msgs, looked⟩ := r
  obtain ⟨msg, rest, rfl⟩ := List.exists_cons_of_ne_nil hrest
  have hlt : k < s.runs.length := (List.getElem?_eq_some_iff.mp hr).1
  have hbatch : s.batchLeft = 10 + runLeft ⟨u, msg :: rest, looked⟩ := by
    simp [batchLeft, hpc, hk, hr]
  cases looked with
  | none =>
    obtain ⟨r', hlook, hleft⟩ : ∃ r', Network.lookUp s.mgr ⟨u, msg :: rest, none⟩ = some r' ∧
        runLeft r' < runLeft ⟨u, msg :: rest, none⟩ := by
      cases hparse : msg.parse true with
      | none => exact ⟨⟨u, [], none⟩, by simp [Network.lookUp, hparse], by simp [runLeft]⟩
      | some cmsg =>
        refine ⟨⟨u, msg :: rest, some (App.mqTarget s.mgr cmsg msg)⟩, ?_, ?_⟩
        · simp [Network.lookUp, hparse]
        · simp [runLeft]
    refine ⟨.lookUp k, { s with runs := s.runs.set k r' }, rfl, ?_, ?_⟩
    · simp [step, hr, hlook]
    · have hnew : ({ s with runs := s.runs.set k r' } : Passage).batchLeft = 10 + runLeft r' := by
        simp [batchLeft, hpc, hk, List.getElem?_set_self hlt]
      simp only [toDo, hbatch, hnew]
      omega
  | some id =>
    obtain ⟨s', hdeliver⟩ : ∃ s', s.deliver c k ⟨u, msg :: rest, some id⟩ = some s' := by
      simp only [deliver]
      split <;> exact ⟨_, rfl⟩
    refine ⟨.deliver k, s', rfl, by simp [step, hr, hdeliver], ?_⟩
    obtain ⟨msg', rest', ctx, origin, hmsgs, rfl, hctx, -, hitems⟩ := deliver_frame hdeliver
    obtain ⟨rfl, rfl⟩ := List.cons.inj hmsgs
    have hnew : ({ s with runs := s.runs.set k ⟨(), rest, none⟩, ctx := ctx, origin := origin } :
        Passage).batchLeft = 10 + runLeft ⟨(), rest, none⟩ := by
      simp [batchLeft, hpc, hk, List.getElem?_set_self hlt]
    simp only [toDo, hbatch, hnew, ctxLeft, hctx, runLeft, List.length_cons]
    simp
    omega

/-- The send loop goes on with what it holds, or fetches what is queued. -/
theorem exists_sender_step (h : SendLoop.Inv s.send) (hready : Ready s)
    (hruns : ∀ k, s.current = some k → s.runs[k]?.isSome = true)
    (hopen : s.send.queue.stop = false) (hmore : s.send.queue.items ≠ [] ∨ s.send.msgs ≠ []) :
    ∃ l s', l.forward = true ∧ s.step nodeid c l = some s' ∧ s'.toDo < s.toDo := by
  cases hpc : s.send.pc with
  | nullClient => exact absurd (hready.send.nullClient hpc) (by simp [hopen])
  | finished => exact absurd (hready.send.finished hpc) (by simp [hopen])
  | test =>
    refine ⟨.sender .test, { s with send := { s.send with pc := .size } }, rfl, ?_, ?_⟩
    · simp [step, senderStep, SendLoop.step, hpc, hopen]
    · simp [toDo, batchLeft, pcLeft, hpc]
  | size =>
    refine ⟨.sender .size, { s with send := { s.send with
      warnSize := SendLoop.warn s.send.warnSize s.send.queue.size
      pc := .fetch } }, rfl, ?_, ?_⟩
    · simp [step, senderStep, SendLoop.step, hpc]
    · simp [toDo, batchLeft, pcLeft, hpc]
  | fetch =>
    by_cases hmsgs : s.send.msgs = []
    · have hitems : s.send.queue.items ≠ [] := hmore.resolve_right (not_not_intro hmsgs)
      have hlength : 0 < s.send.queue.items.length := List.length_pos_of_ne_nil hitems
      refine ⟨.sender .fetch, { s with send := { s.send with
        queue := { s.send.queue with items := [] }
        msgs := s.send.queue.items
        popped := s.send.popped ++ [s.send.queue.items]
        pc := .send } }, rfl, ?_, ?_⟩
      · simp [step, senderStep, SendLoop.step, hpc, hmsgs, CvQueue.popAll, CvQueue.ready, hitems,
          hlength]
      · simp [toDo, batchLeft, pcLeft, hpc, hmsgs, hitems]
        omega
    · refine ⟨.sender .fetch, { s with send := { s.send with pc := .send } }, rfl, ?_, ?_⟩
      · simp [step, senderStep, SendLoop.step, hpc, hmsgs]
      · simp [toDo, batchLeft, pcLeft, hpc]
  | send =>
    have hclient : s.send.client = true := by
      by_contra hgone
      exact absurd (hready.send.client (by simpa using hgone)) (by simp [hopen])
    refine ⟨.sender .send, { s with send := { s.send with pc := .sending false } }, rfl, ?_, ?_⟩
    · simp [step, senderStep, SendLoop.step, hpc, hclient]
    · simp [toDo, batchLeft, pcLeft, hpc]
  | sleeping =>
    refine ⟨.sender .wake, { s with send := { s.send with pc := .test } }, rfl, ?_, ?_⟩
    · simp [step, senderStep, SendLoop.step, hpc]
    · simp [toDo, batchLeft, pcLeft, hpc]
  | sending executed =>
    have hmsgs : s.send.msgs ≠ [] := h.carries (by simp [SendLoop.InSend, hpc])
    cases executed with
    | false =>
      refine ⟨.sender .execute, { s with
        send := { s.send with pc := .sending true, ran := s.send.ran ++ [s.send.msgs] }
        runs := s.runs ++ [⟨(), s.send.msgs, none⟩]
        current := some s.runs.length }, rfl, ?_, ?_⟩
      · simp [step, senderStep, SendLoop.step, hpc]
      · simp [toDo, batchLeft, pcLeft, hpc, hmsgs, runLeft]
    | true =>
      obtain ⟨k, hk⟩ := Option.ne_none_iff_exists'.mp (hready.busy hpc)
      obtain ⟨⟨u, rest, looked⟩, hr⟩ := Option.isSome_iff_exists.mp (hruns k hk)
      by_cases hrest : rest = []
      · subst hrest
        refine ⟨.sender .acknowledge, { s with
          send := { s.send with
            msgs := []
            pc := .test
            acked := s.send.acked ++ [s.send.msgs] }
          current := none }, rfl, ?_, ?_⟩
        · simp [step, senderStep, SendLoop.step, hpc, hk, hr]
        · simp [toDo, batchLeft, pcLeft, hpc, hk, hr]
          omega
      · exact exists_run_step hpc hk hr hrest

/-- Short of the end some loop or run can go on. -/
theorem exists_step (h : Inv c names False s xs) (hready : Ready s)
    (hsend : s.send.queue.stop = false) (hctx : s.ctx.queue.stop = false) (hmore : ¬ s.Idle) :
    ∃ l s', l.forward = true ∧ s.step nodeid c l = some s' ∧ s'.toDo < s.toDo := by
  have hloop : s.ctx.pc ≠ .finished := fun hpc ↦ absurd (hready.loop hpc) (by simp [hctx])
  by_cases hpushers : s.send.pushers = []
  · by_cases hitems : s.ctx.queue.items = []
    · have hleft : s.send.queue.items ≠ [] ∨ s.send.msgs ≠ [] := by
        by_contra hnone
        push Not at hnone
        exact hmore ⟨hpushers, hnone.1, hnone.2, hitems⟩
      refine exists_sender_step h.send hready (fun k hk ↦ ?_) hsend hleft
      obtain ⟨-, r, -, hr, -⟩ := h.current k hk
      simp [hr]
    · exact exists_ctx_step hloop hctx hitems
  · obtain ⟨msg, rest, hcons⟩ := List.exists_cons_of_ne_nil hpushers
    refine ⟨.sender (.pushEnqueue 0), { s with send := { s.send with
      pushers := rest
      queue := s.send.queue.enqueue msg
      pushed := s.send.pushed ++ [msg] } }, rfl, ?_, ?_⟩
    · simp [step, senderStep, SendLoop.step, hcons]
    · simp only [toDo, batchLeft, hcons, CvQueue.enqueue, List.length_append, List.length_cons,
        List.length_nil]
      omega

/-- Going forward changes neither the registry nor what is pushed, and stops nothing. -/
theorem forward_step {l : Label} (hl : l.forward = true)
    (hstep : s.step nodeid c l = some s') :
    s'.send.queue.stop = s.send.queue.stop ∧ s'.ctx.queue.stop = s.ctx.queue.stop ∧
      (s'.send.pushed ++ s'.send.pushers).Perm (s.send.pushed ++ s.send.pushers) := by
  have hsend {l : SendLoop.Label CqyStr} (hl : Label.forward (.sender l) = true)
      {send : SendLoop CqyStr} (hstep : s.send.step l = some send) :
      send.queue.stop = s.send.queue.stop ∧
        (send.pushed ++ send.pushers).Perm (s.send.pushed ++ s.send.pushers) := by
    cases l with
    | pushTest | shutdownQueue | resetClient | connError | callError =>
      exact absurd hl (by simp [Label.forward])
    | pushEnqueue i =>
      obtain ⟨msg, hget, rfl⟩ := Option.map_eq_some_iff.mp hstep
      have hmove : (msg :: s.send.pushers.eraseIdx i).Perm s.send.pushers := by
        obtain ⟨hi, rfl⟩ := List.getElem?_eq_some_iff.mp hget
        exact List.getElem_cons_eraseIdx_perm hi
      refine ⟨rfl, ?_⟩
      rw [List.append_assoc]
      exact hmove.append_left s.send.pushed
    | fetch =>
      simp only [SendLoop.step] at hstep
      split_ifs at hstep
      · obtain ⟨⟨res, q⟩, hpop, rfl⟩ := Option.map_eq_some_iff.mp hstep
        obtain ⟨-, -, rfl⟩ := CvQueue.popAll_eq_some_iff.mp hpop
        exact ⟨rfl, List.Perm.refl _⟩
      · obtain rfl := Option.some.inj hstep
        exact ⟨rfl, List.Perm.refl _⟩
    | test | size | send | execute | acknowledge | wake =>
      simp only [SendLoop.step] at hstep
      split_ifs at hstep <;> obtain rfl := Option.some.inj hstep <;> exact ⟨rfl, List.Perm.refl _⟩
  cases l with
  | push | registry => exact absurd hl (by simp [Label.forward])
  | sender l =>
    obtain ⟨send, runs, current, hl', rfl, -⟩ := senderStep_spec hstep
    obtain ⟨hstop, hperm⟩ := hsend hl hl'
    exact ⟨hstop, rfl, hperm⟩
  | lookUp k =>
    obtain ⟨r, -, rfl⟩ := Option.map_eq_some_iff.mp hstep
    exact ⟨rfl, rfl, List.Perm.refl _⟩
  | deliver k =>
    obtain ⟨r, -, hdeliver⟩ := Option.bind_eq_some_iff.mp hstep
    obtain ⟨msg, rest, ctx, origin, -, rfl, -, hstop, -⟩ := deliver_frame hdeliver
    exact ⟨rfl, hstop, List.Perm.refl _⟩
  | ctx l =>
    obtain ⟨ctx, hctx, rfl⟩ := Option.map_eq_some_iff.mp hstep
    refine ⟨rfl, ?_, List.Perm.refl _⟩
    cases l with
    | pushTest | pushEnqueue | shutdown | start | act => exact absurd hl (by simp [Label.forward])
    | test | pop | take =>
      simp only [Receive.step, Receive.handle] at hctx
      grind

/-- When the loops are idle, all that was pushed for the context has been handled. -/
theorem Inv.redelivery_of_idle (h : Inv c names False s xs) (hidle : s.Idle)
    (hopen : s.ctx.queue.stop = false) :
    Redelivery (s.send.pushed.filter (isFor c names)) s.handled := by
  obtain ⟨-, hitems, hmsgs, hqueue⟩ := hidle
  have hpushed : s.send.pushed = s.send.acked.flatten := by
    rw [h.pushed_eq, hitems, hmsgs, List.append_nil, List.append_nil]
  have hxs : s.send.pushed.filter (isFor c names) = xs :=
    (hpushed ▸ h.acked hopen).eq_of_length_le h.sent.length_le
  have hpopped : s.ctx.pushed.length ≤ s.ctx.popped := by
    rw [← List.drop_eq_nil_iff, h.ctx.queue, hqueue]
  have hhandled : s.handled = s.log := by
    rw [handled_eq_take h.ctx h.origin fun _ ↦ h.parse_log, List.take_of_length_le, Passage.log]
    rw [List.length_zip, h.origin, Nat.min_self]
    exact hpopped
  rw [hxs, hhandled]
  exact h.log

end Forward

/-- From every state of every run in which both queues are open, steps forward alone lead to one
where every message that was pushed has been handled, in order and at least once. -/
theorem exists_handled {nodeid : UInt8} {c : UInt32} {names : List Bytes} {m : CtxMgr UInt32}
    (hm : Settled c names m) {ls : List Label} {s : Passage}
    (hregistry : ∀ m', .registry m' ∈ ls → Settled c names m')
    (hrun : Machine.run (step nodeid c) (start m) ls = some s)
    (hsend : s.send.queue.stop = false) (hctx : s.ctx.queue.stop = false) :
    ∃ more t, (∀ l ∈ more, l.forward = true) ∧
      Machine.run (step nodeid c) (start m) (ls ++ more) = some t ∧
      t.send.pushed.Perm (s.send.pushed ++ s.send.pushers) ∧
      Redelivery (t.send.pushed.filter (isFor c names)) t.handled := by
  obtain ⟨xs, h⟩ := follows_of_run hm hrun hregistry
  have hready : Ready s :=
    Machine.Reachable.invariant (fun _ _ _ h ↦ h.step) ⟨ls, hrun⟩ (ready_start m)
  let inv (u : Passage) : Prop := (∃ xs, Inv c names False u xs) ∧ Ready u ∧
    u.send.queue.stop = false ∧ u.ctx.queue.stop = false ∧
    (u.send.pushed ++ u.send.pushers).Perm (s.send.pushed ++ s.send.pushers)
  have hprogress (u : Passage) (hu : inv u) (hmore : ¬ u.Idle) :
      ∃ l u', Machine.restrict Label.forward (step nodeid c) u l = some u' ∧ inv u' ∧
        u'.toDo < u.toDo := by
    obtain ⟨⟨xs, hxs⟩, hr, hopen, hctxOpen, hperm⟩ := hu
    obtain ⟨l, u', hl, hstep, hlt⟩ := exists_step hxs hr hopen hctxOpen hmore
    obtain ⟨hsame, hctxSame, hkeep⟩ := forward_step hl hstep
    have hregistry (m' : CtxMgr UInt32) (heq : l = .registry m') : Settled c names m' := by
      rw [heq] at hl
      exact absurd hl (by simp [Label.forward])
    refine ⟨l, u', by rw [Machine.restrict, if_pos hl]; exact hstep, ?_, hlt⟩
    exact ⟨hxs.step hregistry False.elim hstep, hr.step hstep, hsame.trans hopen,
      hctxSame.trans hctxOpen, hkeep.trans hperm⟩
  obtain ⟨t, ⟨more, hmore⟩, ⟨⟨xs', ht⟩, -, -, hopen, hperm⟩, hidle⟩ :=
    Machine.exists_reachable_of_decreasing toDo hprogress
      (⟨⟨xs, h.mono False.elim⟩, hready, hsend, hctx, List.Perm.refl _⟩ : inv s)
  obtain ⟨hforward, hrest⟩ := Machine.run_restrict.mp hmore
  refine ⟨more, t, hforward, Machine.run_append_eq_some.mpr ⟨s, hrun, hrest⟩, ?_,
    ht.redelivery_of_idle hidle hopen⟩
  rwa [hidle.1, List.append_nil] at hperm

/-- Two requests have failed, the second message is still on its way into the queue. -/
theorem exists_handled_failed : ∃ more t,
    Machine.run (step 1 0x01000001) (start oneName) ([.push toId, .sender (.pushEnqueue 0),
      .sender .test, .sender .size, .sender .fetch, .sender .send, .sender .connError,
      .sender .wake, .sender .test, .sender .size, .sender .fetch, .sender .send, .sender .execute,
      .lookUp 1, .sender .callError, .push toName] ++ more) = some t ∧
    t.send.pushed.Perm [toId, toName] ∧
    Redelivery (t.send.pushed.filter (isFor 0x01000001 [[120]])) t.handled := by
  have hrun : (Machine.run (step 1 0x01000001) (start oneName) [.push toId,
      .sender (.pushEnqueue 0), .sender .test, .sender .size, .sender .fetch, .sender .send,
      .sender .connError, .sender .wake, .sender .test, .sender .size, .sender .fetch,
      .sender .send, .sender .execute, .lookUp 1, .sender .callError, .push toName]).map
      (fun s ↦ (s.send.queue.stop, s.ctx.queue.stop, s.send.pushed ++ s.send.pushers)) =
      some (false, false, [toId, toName]) := by decide
  obtain ⟨s, hs, heq⟩ := Option.map_eq_some_iff.mp hrun
  simp only [Prod.mk.injEq] at heq
  obtain ⟨hsend, hctx, hpushed⟩ := heq
  obtain ⟨more, t, -, hmore, hperm, hred⟩ :=
    exists_handled settled_oneName (by simp) hs hsend hctx
  exact ⟨more, t, hmore, hpushed ▸ hperm, hred⟩

end Passage

end Cqy
