import Cqy.App.Network
import Cqy.Ctx.Receive
import Cqy.Foundation.Redelivery
import Cqy.Node.StartUp

/-!
# From the queue of a peer to the handlers of a context

The send loop of one node, the runs of `rpc_on_mq` that its requests cause on the peer, and the
receive loop of one context of the peer, in any interleaving.  The request that is reported to have
succeeded has returned, but a request that failed may run later, or go on while it is sent again.
The registry of the peer changes at any time, and other senders push into the same queue.
-/

namespace Cqy

open Foundation

structure Passage where
  send : SendLoop CqyStr := {}
  mgr : CtxMgr UInt32
  /-- All runs of `rpc_on_mq`, and the position of the one for the request under way. -/
  runs : List (MqRun Unit) := []
  current : Option ℕ := none
  ctx : Receive := {}
  /-- Of each message that entered the queue of the context, whether such a run pushed it. -/
  origin : List Bool := []

namespace Passage

inductive Label where
  /-- `node_mq_push` of a frame on the sending node. -/
  | push (frame : CqyStr)
  | sender (l : SendLoop.Label CqyStr)
  /-- Contexts of the peer are created, named and stopped. -/
  | registry (m : CtxMgr UInt32)
  | lookUp (k : ℕ)
  | deliver (k : ℕ)
  /-- The context takes a step, or another sender pushes into its queue. -/
  | ctx (l : Receive.Label)

/-- The request under way is reported to have failed. -/
def Label.fails : Label → Bool
  | .sender .connError | .sender .callError => true
  | _ => false

def start (m : CtxMgr UInt32) : Passage := { mgr := m }

def senderStep (s : Passage) (l : SendLoop.Label CqyStr) : Option Passage :=
  match l with
  | .pushTest _ => none
  | .execute => (s.send.step .execute).map fun send ↦
      { s with
        send := send
        runs := s.runs ++ [⟨(), s.send.msgs, none⟩]
        current := some s.runs.length }
  | .acknowledge =>
    match s.current.bind (s.runs[·]?) with
    | some ⟨_, [], _⟩ =>
      (s.send.step .acknowledge).map fun send ↦ { s with send := send, current := none }
    | _ => none
  | .connError => (s.send.step .connError).map fun send ↦
      { s with
        send := send
        runs := if s.current = none then s.runs ++ [⟨(), s.send.msgs, none⟩] else s.runs
        current := none }
  | .callError => (s.send.step .callError).map fun send ↦
      { s with
        send := send
        runs := if s.current = none then s.runs ++ [⟨(), s.send.msgs, none⟩] else s.runs
        current := none }
  | l => (s.send.step l).map fun send ↦ { s with send := send }

/-- `node_push_msg` by a run of `rpc_on_mq`, the test of `stop` and the push in one step. -/
def pushMsg (s : Passage) (msg : CqyStr) : Passage :=
  if s.ctx.queue.stop then s
  else
    { s with
      ctx := { s.ctx with queue := s.ctx.queue.enqueue msg, pushed := s.ctx.pushed ++ [msg] }
      origin := s.origin ++ [true] }

/-- The loop body of `rpc_on_mq` from `get_ctx` on; other contexts have queues of their own. -/
def deliver (c : UInt32) (s : Passage) (k : ℕ) (r : MqRun Unit) : Option Passage :=
  match r.looked, r.rest with
  | some id, msg :: rest =>
    let s' := { s with runs := s.runs.set k { r with rest := rest, looked := none } }
    match s.mgr.getCtx id with
    | some c' => some (if c' = c then s'.pushMsg msg else s')
    | none => some s'
  | _, _ => none

/-- What a step of the context adds to `origin`. -/
def foreign : Receive.Label → List Bool
  | .pushEnqueue _ => [false]
  | _ => []

def ctxStep (s : Passage) (l : Receive.Label) : Option Passage :=
  (s.ctx.step l).map fun ctx ↦ { s with ctx := ctx, origin := s.origin ++ foreign l }

/-- One step of the node that sends to the node `nodeid`, of that node, or of its context `c`. -/
def step (nodeid : UInt8) (c : UInt32) (s : Passage) : Label → Option Passage
  | .push frame =>
    if StartUp.accepts nodeid frame then
      (s.send.step (.pushTest frame)).map fun send ↦ { s with send := send }
    else some s
  | .sender l => s.senderStep l
  | .registry m => some { s with mgr := m }
  | .lookUp k => (s.runs[k]?.bind (Network.lookUp s.mgr)).map fun r ↦
      { s with runs := s.runs.set k r }
  | .deliver k => s.runs[k]?.bind (s.deliver c k)
  | .ctx l => s.ctxStep l

/-- The messages that the runs pushed into the queue of the context. -/
def log (s : Passage) : List CqyStr :=
  (s.ctx.pushed.zip s.origin).filterMap fun (msg, own) ↦ if own then some msg else none

/-- The messages of the log whose handlers the receive loop has started. -/
def handled (s : Passage) : List CqyStr :=
  s.ctx.started.filterMap fun (n, msg) ↦ if s.origin[n]? = some true then some msg else none

/-- A frame for the context `c` under its id or one of its names. -/
def isFor (c : UInt32) (names : List Bytes) (msg : CqyStr) : Bool :=
  if msg.name.size ≠ 0 then names.contains (msg.name.read msg) else decide (msg.msg.toId = c)

/-- The registry knows contexts by their ids, and `c`, which is live, by these names. -/
structure Settled (c : UInt32) (names : List Bytes) (m : CtxMgr UInt32) : Prop where
  byId : ∀ id c', m.getCtx id = some c' → c' = id
  live : m.getCtx c = some c
  named : ∀ name, m.findName name = c ↔ name ∈ names

/-! ## What the parts do -/

/-- A message enters the queue of the peer from one of the calls of `push` under way. -/
theorem pushed_step {send send' : SendLoop CqyStr} {l : SendLoop.Label CqyStr}
    (hstep : send.step l = some send') : send.pushed <+: send'.pushed ∧
      send'.pushers ++ send'.pushed ⊆ l.incoming ++ (send.pushers ++ send.pushed) := by
  have hsame (hpushers : send'.pushers = send.pushers) (hpushed : send'.pushed = send.pushed) :
      send.pushed <+: send'.pushed ∧
        send'.pushers ++ send'.pushed ⊆ l.incoming ++ (send.pushers ++ send.pushed) := by
    rw [hpushers, hpushed]
    exact ⟨List.prefix_rfl, List.subset_append_right _ _⟩
  cases l with
  | pushTest m =>
    obtain rfl := Option.some.inj hstep
    split
    · exact ⟨List.prefix_rfl, List.subset_append_right _ _⟩
    · refine ⟨List.prefix_rfl, fun x hx ↦ ?_⟩
      simp only [SendLoop.Label.incoming, List.mem_append] at hx ⊢
      tauto
  | pushEnqueue i =>
    obtain ⟨m, hget, rfl⟩ := Option.map_eq_some_iff.mp hstep
    refine ⟨List.prefix_append _ _, fun x hx ↦ ?_⟩
    simp only [SendLoop.Label.incoming, List.mem_append, List.mem_singleton, List.not_mem_nil,
      false_or] at hx ⊢
    rcases hx with hx | hx | rfl
    · exact Or.inl (List.mem_of_mem_eraseIdx hx)
    · exact Or.inr hx
    · exact Or.inl (List.mem_of_getElem? hget)
  | shutdownQueue =>
    obtain rfl := Option.some.inj hstep
    exact hsame rfl rfl
  | fetch =>
    simp only [SendLoop.step] at hstep
    split_ifs at hstep
    · obtain ⟨⟨res, q⟩, -, rfl⟩ := Option.map_eq_some_iff.mp hstep
      exact hsame rfl rfl
    · obtain rfl := Option.some.inj hstep
      exact hsame rfl rfl
  | execute | acknowledge =>
    simp only [SendLoop.step] at hstep
    split_ifs at hstep
    obtain rfl := Option.some.inj hstep
    exact hsame rfl rfl
  | resetClient | test | size | send | connError | callError | wake =>
    obtain ⟨⟨pc, warnSize, client, rfl⟩, -⟩ := SendLoop.step_control rfl hstep
    exact hsame rfl rfl

/-- A step of the context leaves a closed queue closed, and appends what another sender pushes. -/
theorem ctx_step {ctx ctx' : Receive} {l : Receive.Label} (hstep : ctx.step l = some ctx') :
    (ctx'.queue.stop = false → ctx.queue.stop = false) ∧
      ∃ new, ctx'.pushed = ctx.pushed ++ new ∧ new.length = (foreign l).length := by
  have hsame : ∃ new, ctx.pushed = ctx.pushed ++ new ∧ new.length = 0 :=
    ⟨[], (List.append_nil _).symm, rfl⟩
  cases l with
  | pushTest msg =>
    obtain rfl := Option.some.inj hstep
    split <;> exact ⟨id, hsame⟩
  | pushEnqueue i =>
    obtain ⟨msg, -, rfl⟩ := Option.map_eq_some_iff.mp hstep
    exact ⟨id, [msg], rfl, rfl⟩
  | shutdown =>
    obtain rfl := Option.some.inj hstep
    refine ⟨fun hstop ↦ ?_, hsame⟩
    rw [CvQueue.shutdown] at hstop
    split at hstop <;> simp_all
  | test =>
    simp only [Receive.step] at hstep
    split_ifs at hstep <;> obtain rfl := Option.some.inj hstep <;> exact ⟨id, hsame⟩
  | pop =>
    obtain ⟨-, -, rfl⟩ := Receive.pop_eq_some_iff.mp hstep
    exact ⟨id, hsame⟩
  | take =>
    obtain ⟨msg, rest, -, -, rfl⟩ := Receive.take_eq_some_iff.mp hstep
    simp only [Receive.handle]
    split <;> exact ⟨id, hsame⟩
  | start rpc =>
    obtain rfl := Option.some.inj hstep
    exact ⟨id, hsame⟩
  | act i a =>
    obtain ⟨-, lock, -, rfl⟩ := Receive.act_eq_some hstep
    exact ⟨id, hsame⟩

theorem log_pushMsg {s : Passage} (horigin : s.origin.length = s.ctx.pushed.length)
    (msg : CqyStr) : (s.pushMsg msg).log = if s.ctx.queue.stop then s.log else s.log ++ [msg] := by
  unfold pushMsg
  split_ifs with hstop
  · rfl
  · simp only [log]
    rw [List.zip_append horigin.symm, List.filterMap_append]
    rfl

theorem log_ctxStep {s s' : Passage} {l : Receive.Label}
    (horigin : s.origin.length = s.ctx.pushed.length) (hstep : s.ctxStep l = some s') :
    s'.log = s.log ∧ s'.origin.length = s'.ctx.pushed.length := by
  obtain ⟨ctx, hctx, rfl⟩ := Option.map_eq_some_iff.mp hstep
  obtain ⟨-, new, hpushed, hlength⟩ := ctx_step hctx
  have hlabel : ∀ own ∈ foreign l, own = false := by cases l <;> simp [foreign]
  have hforeign : (new.zip (foreign l)).filterMap
      (fun (msg, own) ↦ if own then some msg else none) = [] := by
    refine List.filterMap_eq_nil_iff.mpr fun p hp ↦ ?_
    simp [hlabel p.2 (List.of_mem_zip hp).2]
  refine ⟨?_, ?_⟩
  · simp only [log, hpushed]
    rw [List.zip_append horigin.symm, List.filterMap_append, hforeign, List.append_nil]
  · simp only [hpushed, List.length_append, horigin, hlength]

theorem pushMsg_frame {s : Passage} (horigin : s.origin.length = s.ctx.pushed.length)
    (msg : CqyStr) : (s.pushMsg msg).runs = s.runs ∧ (s.pushMsg msg).mgr = s.mgr ∧
      (s.pushMsg msg).ctx.queue.stop = s.ctx.queue.stop ∧
      (s.pushMsg msg).origin.length = (s.pushMsg msg).ctx.pushed.length := by
  unfold pushMsg
  split_ifs
  · exact ⟨rfl, rfl, rfl, horigin⟩
  · exact ⟨rfl, rfl, rfl, by simp [horigin]⟩

/-- A run that nobody interrupts makes the pushes of `rpc_on_mq`. -/
theorem exists_run_rpcOnMq {nodeid : UInt8} {c : UInt32} {s : Passage} {k : ℕ}
    {msgs : List CqyStr} (hr : s.runs[k]? = some ⟨(), msgs, none⟩)
    (hopen : s.ctx.queue.stop = false) (horigin : s.origin.length = s.ctx.pushed.length) :
    ∃ ls t, Machine.run (step nodeid c) s ls = some t ∧ t.runs[k]? = some ⟨(), [], none⟩ ∧
      t.log = s.log ++ (App.rpcOnMq s.mgr msgs).filterMap
        fun (c', msg) ↦ if c' = c then some msg else none := by
  induction msgs generalizing s with
  | nil => exact ⟨[], s, rfl, hr, by simp [App.rpcOnMq]⟩
  | cons msg msgs ih =>
    have hlt : k < s.runs.length := (List.getElem?_eq_some_iff.mp hr).1
    cases hparse : msg.parse true with
    | none =>
      refine ⟨[.lookUp k], { s with runs := s.runs.set k ⟨(), [], none⟩ }, ?_,
        List.getElem?_set_self hlt, ?_⟩
      · simp [Machine.run_cons, step, hr, Network.lookUp, hparse]
      · simp [log, App.rpcOnMq, hparse]
    | some cmsg =>
      let r : MqRun Unit := ⟨(), msg :: msgs, some (App.mqTarget s.mgr cmsg msg)⟩
      let s₁ : Passage := { s with runs := s.runs.set k r }
      let s₂ : Passage := { s with runs := s.runs.set k ⟨(), msgs, none⟩ }
      have hlook : s.step nodeid c (.lookUp k) = some s₁ := by
        simp [step, hr, Network.lookUp, hparse, r, s₁]
      have hget : s₁.runs[k]? = some r := List.getElem?_set_self hlt
      have hset : s₁.runs.set k ⟨(), msgs, none⟩ = s₂.runs := List.set_set ..
      have hstart : s₂.runs[k]? = some ⟨(), msgs, none⟩ := List.getElem?_set_self hlt
      -- The message is handed over, and the rest follows.
      have hrest (s₃ : Passage) (new : List CqyStr)
          (hdeliver : s₁.step nodeid c (.deliver k) = some s₃) (hruns : s₃.runs = s₂.runs)
          (hmgr : s₃.mgr = s.mgr) (hopen₃ : s₃.ctx.queue.stop = false)
          (horigin₃ : s₃.origin.length = s₃.ctx.pushed.length) (hlog₃ : s₃.log = s.log ++ new) :
          ∃ ls t, Machine.run (step nodeid c) s ls = some t ∧ t.runs[k]? = some ⟨(), [], none⟩ ∧
            t.log = s.log ++ (new ++ (App.rpcOnMq s.mgr msgs).filterMap
              fun (c', msg) ↦ if c' = c then some msg else none) := by
        obtain ⟨ls, t, hrun, ht, hlog⟩ := ih (hruns ▸ hstart) hopen₃ horigin₃
        refine ⟨.lookUp k :: .deliver k :: ls, t, ?_, ht, ?_⟩
        · exact Machine.run_cons_eq_some.mpr
            ⟨s₁, hlook, Machine.run_cons_eq_some.mpr ⟨s₃, hdeliver, hrun⟩⟩
        · rw [hlog, hlog₃, hmgr, List.append_assoc]
      rw [App.rpcOnMq, hparse]
      dsimp only
      cases hctx : s.mgr.getCtx (App.mqTarget s.mgr cmsg msg) with
      | none =>
        refine hrest s₂ [] ?_ rfl rfl hopen horigin (List.append_nil _).symm
        simp [step, deliver, hget, r, hctx, hset, s₁, s₂]
      | some c' =>
        rw [List.filterMap_cons]
        have hdeliver : s₁.step nodeid c (.deliver k) =
            some (if c' = c then s₂.pushMsg msg else s₂) := by
          simp [step, deliver, hget, r, hctx, s₁, s₂]
        by_cases hc : c' = c
        · rw [if_pos hc] at hdeliver
          obtain ⟨hruns, hmgr, hstop, horigin₃⟩ := pushMsg_frame (s := s₂) horigin msg
          have hlog := log_pushMsg (s := s₂) horigin msg
          rw [if_neg (by simpa [s₂] using hopen)] at hlog
          simpa [hc] using hrest _ [msg] hdeliver hruns hmgr (hstop.trans hopen) horigin₃ hlog
        · rw [if_neg hc] at hdeliver
          simpa [hc] using hrest _ [] hdeliver rfl rfl hopen horigin (List.append_nil _).symm

/-! ## The invariant -/

section Invariant

variable {c : UInt32} {names : List Bytes} {clean : Prop} {s s' : Passage} {xs : List CqyStr}

/-- A run that has dealt with the messages `done`, of which those for the context have arrived
unless its queue was stopped. -/
structure At (c : UInt32) (names : List Bytes) (s : Passage) (xs : List CqyStr) (r : MqRun Unit)
    (done : List CqyStr) : Prop where
  pushed : done ++ r.rest <+: s.send.pushed
  passed : s.ctx.queue.stop = false → done.filter (isFor c names) <+: xs
  looked : ∀ id ∈ r.looked, ∀ msg ∈ r.rest.head?, id = c ↔ isFor c names msg = true

/-- `xs` are the messages for the context that have arrived, each where it arrived first; as long
as no request has failed (`clean`), they have arrived once. -/
structure Inv (c : UInt32) (names : List Bytes) (clean : Prop) (s : Passage) (xs : List CqyStr) :
    Prop where
  send : SendLoop.Inv s.send
  frames : ∀ msg ∈ s.send.pushers ++ s.send.pushed, (msg.parse true).isSome
  settled : Settled c names s.mgr
  ctx : Receive.Inv s.ctx
  origin : s.origin.length = s.ctx.pushed.length
  sent : xs <+: s.send.pushed.filter (isFor c names)
  log : Redelivery xs s.log
  acked : s.ctx.queue.stop = false → s.send.acked.flatten.filter (isFor c names) <+: xs
  runs : ∀ r ∈ s.runs, ∃ done, At c names s xs r done
  current : ∀ k, s.current = some k → s.send.pc = .sending true ∧ ∃ r done, s.runs[k]? = some r ∧
    done ++ r.rest = s.send.acked.flatten ++ s.send.msgs ∧ At c names s xs r done ∧
    (clean → s.ctx.queue.stop = false → xs = done.filter (isFor c names))
  between : s.current = none → clean → s.ctx.queue.stop = false →
    xs = s.send.acked.flatten.filter (isFor c names)
  once : clean → s.log = xs ∧
    ∀ k r, s.runs[k]? = some r → r.rest ≠ [] → s.current = some k

theorem inv_start {m : CtxMgr UInt32} (hm : Settled c names m) :
    Inv c names clean (start m) [] where
  send := SendLoop.inv_init
  frames := by simp [start]
  settled := hm
  ctx := Receive.inv_init
  origin := rfl
  sent := List.nil_prefix
  log := .nil
  acked _ := List.nil_prefix
  runs := by simp [start]
  current := by simp [start]
  between _ _ _ := rfl
  once _ := ⟨rfl, by simp [start]⟩

theorem Inv.pushed_eq (h : Inv c names clean s xs) :
    s.send.pushed = s.send.acked.flatten ++ s.send.msgs ++ s.send.queue.items :=
  h.send.account

/-- Others go on, and the run is where it was. -/
theorem At.keep {r : MqRun Unit} {done xs' : List CqyStr} (h : At c names s xs r done)
    (hpushed : s.send.pushed <+: s'.send.pushed)
    (hopen : s'.ctx.queue.stop = false → s.ctx.queue.stop = false) (hxs : xs <+: xs') :
    At c names s' xs' r done :=
  ⟨h.pushed.trans hpushed, fun hstop ↦ (h.passed (hopen hstop)).trans hxs, h.looked⟩

theorem Inv.runs_keep (h : Inv c names clean s xs) (hpushed : s.send.pushed <+: s'.send.pushed)
    (hopen : s'.ctx.queue.stop = false → s.ctx.queue.stop = false) :
    ∀ r ∈ s.runs, ∃ done, At c names s' xs r done := by
  intro r hr
  obtain ⟨done, hat⟩ := h.runs r hr
  exact ⟨done, hat.keep hpushed hopen List.prefix_rfl⟩

/-- Steps of the sender that neither execute nor end a request. -/
theorem Inv.sends (h : Inv c names clean s xs) {l : SendLoop.Label CqyStr}
    {send : SendLoop CqyStr} (hstep : s.send.step l = some send)
    (hin : ∀ msg ∈ l.incoming, (msg.parse true).isSome) (hexecute : l ≠ .execute)
    (hack : l ≠ .acknowledge) (hconn : l ≠ .connError) (hcall : l ≠ .callError) :
    Inv c names clean { s with send := send } xs := by
  obtain ⟨hpushed, hframes⟩ := pushed_step hstep
  obtain ⟨hacked, hsending⟩ := SendLoop.step_quiet hstep hexecute hack hconn hcall
  refine ⟨SendLoop.inv_step _ _ _ h.send hstep, fun msg hmsg ↦ ?_, h.settled, h.ctx, h.origin,
    h.sent.trans (hpushed.filter _), h.log, ?_, h.runs_keep hpushed id, fun k hk ↦ ?_, ?_, h.once⟩
  · exact (List.mem_append.mp (hframes hmsg)).elim (hin msg) (h.frames msg)
  · simpa only [hacked] using h.acked
  · obtain ⟨hpc, r, done, hr, hbatch, hat, hexact⟩ := h.current k hk
    obtain ⟨hpc', hmsgs⟩ := hsending hpc
    refine ⟨hpc', r, done, hr, ?_, hat.keep hpushed id List.prefix_rfl, hexact⟩
    rw [hbatch, hacked, hmsgs]
  · simpa only [hacked] using h.between

/-- A new run begins with the whole batch, behind everything that was acknowledged. -/
theorem Inv.at_batch (h : Inv c names clean s xs) :
    At c names s xs ⟨(), s.send.msgs, none⟩ s.send.acked.flatten where
  pushed := by
    rw [h.pushed_eq]
    exact List.prefix_append _ _
  passed := h.acked
  looked := by simp

theorem Inv.runs_new (h : Inv c names clean s xs) (hpushed : s'.send.pushed = s.send.pushed)
    (hctx : s'.ctx = s.ctx) :
    ∀ r ∈ s.runs ++ [⟨(), s.send.msgs, none⟩], ∃ done, At c names s' xs r done := by
  intro r hr
  have hkeep {u : MqRun Unit} {done : List CqyStr} (hat : At c names s xs u done) :
      At c names s' xs u done :=
    hat.keep (hpushed ▸ List.prefix_rfl) (hctx ▸ id) List.prefix_rfl
  rcases List.mem_append.mp hr with hr | hr
  · obtain ⟨done, hat⟩ := h.runs r hr
    exact ⟨done, hkeep hat⟩
  · rw [List.mem_singleton.mp hr]
    exact ⟨_, hkeep h.at_batch⟩

theorem Inv.execute (h : Inv c names clean s xs) (hstep : s.senderStep .execute = some s') :
    Inv c names clean s' xs := by
  obtain ⟨send, hsend, rfl⟩ := Option.map_eq_some_iff.mp hstep
  have hinv := SendLoop.inv_step _ _ _ h.send hsend
  simp only [SendLoop.step] at hsend
  split_ifs at hsend with hpc
  obtain rfl := Option.some.inj hsend
  have hnone : s.current = none := by
    by_contra hne
    obtain ⟨k, hk⟩ := Option.ne_none_iff_exists'.mp hne
    exact absurd (hpc.symm.trans (h.current k hk).1) (by simp)
  refine ⟨hinv, h.frames, h.settled, h.ctx, h.origin, h.sent, h.log, h.acked, h.runs_new rfl rfl,
    fun k hk ↦ ?_, by simp, fun hclean ↦ ⟨(h.once hclean).1, fun k r hr hrest ↦ ?_⟩⟩
  · obtain rfl := Option.some.inj hk
    exact ⟨rfl, _, _, by simp, rfl, h.at_batch.keep List.prefix_rfl id List.prefix_rfl,
      h.between hnone⟩
  · -- no earlier run has anything left
    by_cases hlt : k < s.runs.length
    · rw [List.getElem?_append_left hlt] at hr
      exact absurd (hnone.symm.trans ((h.once hclean).2 k r hr hrest)) (by simp)
    · have hle : k < s.runs.length + 1 := by simpa using (List.getElem?_eq_some_iff.mp hr).1
      rw [show k = s.runs.length by omega]

/-- Acknowledging: the run has dealt with the whole batch. -/
theorem Inv.acknowledge (h : Inv c names clean s xs)
    (hstep : s.senderStep .acknowledge = some s') : Inv c names clean s' xs := by
  simp only [senderStep] at hstep
  split at hstep
  · rename_i looked hfinished
    obtain ⟨k, hk, hget⟩ := Option.bind_eq_some_iff.mp hfinished
    obtain ⟨send, hsend, rfl⟩ := Option.map_eq_some_iff.mp hstep
    have hinv := SendLoop.inv_step _ _ _ h.send hsend
    obtain ⟨-, r, done, hr, hbatch, hat, hexact⟩ := h.current k hk
    obtain rfl := Option.some.inj (hget.symm.trans hr)
    simp only [SendLoop.step] at hsend
    split_ifs at hsend with hpc
    obtain rfl := Option.some.inj hsend
    have hdone : (s.send.acked ++ [s.send.msgs]).flatten = done := by
      rw [List.flatten_concat, ← hbatch, List.append_nil]
    refine ⟨hinv, h.frames, h.settled, h.ctx, h.origin, h.sent, h.log, ?_,
      h.runs_keep List.prefix_rfl id, by simp, fun _ ↦ ?_,
      fun hclean ↦ ⟨(h.once hclean).1, fun j r hj hrest ↦ ?_⟩⟩
    · simpa only [hdone] using hat.passed
    · simpa only [hdone] using hexact
    · obtain rfl := Option.some.inj (hk.symm.trans ((h.once hclean).2 j r hj hrest))
      obtain rfl := Option.some.inj (hget.symm.trans hj)
      exact absurd rfl hrest
  · exact absurd hstep (by simp)

/-- A request that fails leaves its run behind, or one that has yet to start. -/
theorem Inv.fail (h : Inv c names clean s xs) (hfail : ¬ clean) {l : SendLoop.Label CqyStr}
    (hl : l = .connError ∨ l = .callError) (hstep : s.senderStep l = some s') :
    Inv c names clean s' xs := by
  obtain ⟨send, hsend, rfl⟩ : ∃ send, s.send.step l = some send ∧
      { s with
        send := send
        runs := if s.current = none then s.runs ++ [⟨(), s.send.msgs, none⟩] else s.runs
        current := none } = s' := by
    rcases hl with rfl | rfl <;> exact Option.map_eq_some_iff.mp hstep
  have hinv := SendLoop.inv_step _ _ _ h.send hsend
  obtain ⟨⟨pc, warnSize, client, rfl⟩, -⟩ :=
    SendLoop.step_control (by rcases hl with rfl | rfl <;> rfl) hsend
  refine ⟨hinv, h.frames, h.settled, h.ctx, h.origin, h.sent, h.log, h.acked, fun r hr ↦ ?_,
    by simp, fun _ hclean ↦ absurd hclean hfail, fun hclean ↦ absurd hclean hfail⟩
  dsimp only at hr
  split_ifs at hr
  · refine h.runs_new ?_ ?_ r hr <;> rfl
  · refine h.runs_keep ?_ ?_ r hr
    · exact List.prefix_rfl
    · exact id

theorem Inv.sender (h : Inv c names clean s xs) {l : SendLoop.Label CqyStr}
    (hok : clean → Label.fails (.sender l) = false) (hstep : s.senderStep l = some s') :
    Inv c names clean s' xs := by
  cases l with
  | pushTest msg => exact absurd hstep (by simp [senderStep])
  | execute => exact h.execute hstep
  | acknowledge => exact h.acknowledge hstep
  | connError =>
    exact h.fail (fun hclean ↦ absurd (hok hclean) (by simp [Label.fails])) (Or.inl rfl) hstep
  | callError =>
    exact h.fail (fun hclean ↦ absurd (hok hclean) (by simp [Label.fails])) (Or.inr rfl) hstep
  | pushEnqueue i =>
    obtain ⟨send, hsend, rfl⟩ := Option.map_eq_some_iff.mp hstep
    exact h.sends hsend (by simp [SendLoop.Label.incoming]) (by simp) (by simp) (by simp) (by simp)
  | shutdownQueue | resetClient | test | size | fetch | send | wake =>
    unfold senderStep at hstep
    obtain ⟨send, hsend, rfl⟩ := Option.map_eq_some_iff.mp hstep
    exact h.sends hsend (by simp [SendLoop.Label.incoming]) (by simp) (by simp) (by simp) (by simp)

theorem mqTarget_eq_iff {m : CtxMgr UInt32} (hm : Settled c names m) {msg : CqyStr}
    {cmsg : CqyMsg} (hparse : msg.parse true = some cmsg) :
    App.mqTarget m cmsg msg = c ↔ isFor c names msg = true := by
  rw [App.mqTarget, isFor]
  split_ifs
  · rw [hm.named, List.contains_iff_mem]
  · rw [decide_eq_true_iff, CqyStr.eq_msg_of_parse hparse]

/-- What the current run and any other one have in common. -/
theorem Inv.exists_at (h : Inv c names clean s xs) {k : ℕ} {r : MqRun Unit}
    (hr : s.runs[k]? = some r) :
    ∃ done, At c names s xs r done ∧ (s.current = some k →
      done ++ r.rest = s.send.acked.flatten ++ s.send.msgs ∧
        (clean → s.ctx.queue.stop = false → xs = done.filter (isFor c names))) := by
  by_cases hk : s.current = some k
  · obtain ⟨-, r', done, hr', hbatch, hat, hexact⟩ := h.current k hk
    obtain rfl := Option.some.inj (hr.symm.trans hr')
    exact ⟨done, hat, fun _ ↦ ⟨hbatch, hexact⟩⟩
  · obtain ⟨done, hat⟩ := h.runs r (List.mem_of_getElem? hr)
    exact ⟨done, hat, fun hk' ↦ absurd hk' hk⟩

/-- One run moves on; a message that it pushes on the way may be new. -/
theorem Inv.setRun (h : Inv c names clean s xs) {k : ℕ} {r r' : MqRun Unit}
    (hr : s.runs[k]? = some r) {done done' xs' : List CqyStr} {ctx : Receive} {origin : List Bool}
    (hctx : Receive.Inv ctx) (horigin : origin.length = ctx.pushed.length)
    (hstop : ctx.queue.stop = s.ctx.queue.stop) (hxs : xs <+: xs')
    (hsent : xs' <+: s.send.pushed.filter (isFor c names))
    (hlog : Redelivery xs'
      { s with runs := s.runs.set k r', ctx := ctx, origin := origin : Passage }.log)
    (hat : At c names { s with runs := s.runs.set k r', ctx := ctx, origin := origin } xs' r' done')
    (hcur : s.current = some k → done ++ r.rest = s.send.acked.flatten ++ s.send.msgs ∧
      (clean → s.ctx.queue.stop = false → xs = done.filter (isFor c names)))
    (hbatch : done' ++ r'.rest = done ++ r.rest) (hrest : r'.rest ≠ [] → r.rest ≠ [])
    (hsame : clean → s.current ≠ some k → xs' = xs)
    (hexact : clean → s.ctx.queue.stop = false → xs = done.filter (isFor c names) →
      xs' = done'.filter (isFor c names))
    (honce : clean → s.log = xs →
      { s with runs := s.runs.set k r', ctx := ctx, origin := origin : Passage }.log = xs') :
    Inv c names clean { s with runs := s.runs.set k r', ctx := ctx, origin := origin } xs' := by
  have hlt : k < s.runs.length := (List.getElem?_eq_some_iff.mp hr).1
  have hother {u : MqRun Unit} {d : List CqyStr} (hat : At c names s xs u d) :
      At c names { s with runs := s.runs.set k r', ctx := ctx, origin := origin } xs' u d :=
    hat.keep List.prefix_rfl (fun hopen ↦ hstop ▸ hopen) hxs
  refine ⟨h.send, h.frames, h.settled, hctx, horigin, hsent, hlog,
    fun hopen ↦ (h.acked (hstop ▸ hopen)).trans hxs, fun u hu ↦ ?_, fun j hj ↦ ?_,
    fun hnone hclean hopen ↦ ?_, fun hclean ↦ ⟨honce hclean (h.once hclean).1, fun j u hu hne ↦ ?_⟩⟩
  · rcases List.mem_or_eq_of_mem_set hu with hu | rfl
    · obtain ⟨d, hd⟩ := h.runs u hu
      exact ⟨d, hother hd⟩
    · exact ⟨done', hat⟩
  · obtain ⟨hpc, u, d, hu, hd, hatd, hexactd⟩ := h.current j hj
    by_cases hjk : j = k
    · subst hjk
      refine ⟨hpc, r', done', List.getElem?_set_self hlt, hbatch.trans (hcur hj).1, hat, ?_⟩
      exact fun hclean hopen ↦ hexact hclean (hstop ▸ hopen) ((hcur hj).2 hclean (hstop ▸ hopen))
    · refine ⟨hpc, u, d, (List.getElem?_set_ne (Ne.symm hjk)).trans hu, hd, hother hatd, ?_⟩
      intro hclean hopen
      rw [hsame hclean fun hk ↦ hjk (Option.some.inj (hj.symm.trans hk))]
      exact hexactd hclean (hstop ▸ hopen)
  · rw [hsame hclean (by simp [show s.current = none from hnone])]
    exact h.between hnone hclean (hstop ▸ hopen)
  · by_cases hjk : j = k
    · subst hjk
      obtain rfl := Option.some.inj ((List.getElem?_set_self hlt).symm.trans hu)
      exact (h.once hclean).2 j r hr (hrest hne)
    · exact (h.once hclean).2 j u ((List.getElem?_set_ne (Ne.symm hjk)).symm.trans hu) hne

theorem Inv.lookUp (h : Inv c names clean s xs) {k : ℕ} {r r' : MqRun Unit}
    (hr : s.runs[k]? = some r) (hlook : Network.lookUp s.mgr r = some r') :
    Inv c names clean { s with runs := s.runs.set k r' } xs := by
  obtain ⟨done, hat, hcur⟩ := h.exists_at hr
  obtain ⟨hrest, hlooked⟩ : r'.rest = r.rest ∧
      ∀ id ∈ r'.looked, ∀ msg ∈ r'.rest.head?, id = c ↔ isFor c names msg = true := by
    unfold Network.lookUp at hlook
    split at hlook
    · rename_i msg rest _ hmsg
      have hframe : (msg.parse true).isSome := by
        refine h.frames msg (List.mem_append_right _ (hat.pushed.subset ?_))
        simp [hmsg]
      obtain ⟨cmsg, hparse⟩ := Option.isSome_iff_exists.mp hframe
      rw [hparse] at hlook
      obtain rfl := Option.some.inj hlook
      refine ⟨rfl, fun id hid msg' hmsg' ↦ ?_⟩
      obtain rfl := Option.some.inj hid
      obtain rfl : msg = msg' := by simpa [hmsg] using hmsg'
      exact mqTarget_eq_iff h.settled hparse
    · exact absurd hlook (by simp)
  exact h.setRun hr h.ctx h.origin rfl List.prefix_rfl h.sent h.log
    ⟨hrest ▸ hat.pushed, hat.passed, hlooked⟩ hcur (by rw [hrest]) (by rw [hrest]; exact id)
    (fun _ _ ↦ rfl) (fun _ _ ↦ id) fun _ ↦ id

/-- The run hands the message over if it is for the context, whose queue takes it if it is open. -/
theorem deliver_spec (hm : Settled c names s.mgr) {k : ℕ} {r : MqRun Unit}
    (hdeliver : s.deliver c k r = some s') :
    ∃ id msg rest, r = ⟨(), msg :: rest, some id⟩ ∧
      s' = if id = c then { s with runs := s.runs.set k ⟨(), rest, none⟩ : Passage }.pushMsg msg
        else { s with runs := s.runs.set k ⟨(), rest, none⟩ } := by
  obtain ⟨u, msgs, looked⟩ := r
  unfold deliver at hdeliver
  split at hdeliver
  · rename_i id msg rest hlooked hrest
    obtain rfl : looked = some id := hlooked
    obtain rfl : msgs = msg :: rest := hrest
    refine ⟨id, msg, rest, rfl, ?_⟩
    split at hdeliver
    · rename_i c' hget
      obtain rfl := hm.byId id c' hget
      exact (Option.some.inj hdeliver).symm
    · rename_i hget
      have hne : id ≠ c := by
        rintro rfl
        exact absurd (hget.symm.trans hm.live) (by simp)
      rw [if_neg hne]
      exact (Option.some.inj hdeliver).symm
  · exact absurd hdeliver (by simp)

/-- A run leaves a message behind that is not for the context, or that its queue refuses. -/
theorem Inv.pass (h : Inv c names clean s xs) {k : ℕ} {msg : CqyStr} {rest : List CqyStr}
    {looked : Option UInt32} (hr : s.runs[k]? = some ⟨(), msg :: rest, looked⟩)
    (hmsg : s.ctx.queue.stop = false → isFor c names msg = false) :
    Inv c names clean { s with runs := s.runs.set k ⟨(), rest, none⟩ } xs := by
  obtain ⟨done, hat, hcur⟩ := h.exists_at hr
  have hbatch : (done ++ [msg]) ++ rest = done ++ (msg :: rest) := by simp
  have hfilter (hopen : s.ctx.queue.stop = false) :
      (done ++ [msg]).filter (isFor c names) = done.filter (isFor c names) := by
    rw [List.filter_append, List.filter_singleton, hmsg hopen]
    exact List.append_nil _
  refine h.setRun hr h.ctx h.origin rfl List.prefix_rfl h.sent h.log
    ⟨hbatch ▸ hat.pushed, fun hopen ↦ ?_, by simp⟩ hcur hbatch (by simp) (fun _ _ ↦ rfl)
    (fun _ hopen heq ↦ ?_) fun _ ↦ id
  · rw [hfilter hopen]
    exact hat.passed hopen
  · rw [hfilter hopen]
    exact heq

/-- A run pushes a message into the open queue of the context, where it is the next one, or one
that has been there before. -/
theorem Inv.arrive (h : Inv c names clean s xs) {k : ℕ} {msg : CqyStr} {rest : List CqyStr}
    {looked : Option UInt32} (hr : s.runs[k]? = some ⟨(), msg :: rest, looked⟩)
    (hmsg : isFor c names msg = true) (hopen : s.ctx.queue.stop = false) :
    ∃ xs', Inv c names clean
      ({ s with runs := s.runs.set k ⟨(), rest, none⟩ : Passage }.pushMsg msg) xs' := by
  obtain ⟨done, hat, hcur⟩ := h.exists_at hr
  have hbatch : (done ++ [msg]) ++ rest = done ++ (msg :: rest) := by simp
  have hpushed : (done ++ [msg]) ++ rest <+: s.send.pushed := hbatch ▸ hat.pushed
  have hfilter :
      (done ++ [msg]).filter (isFor c names) = done.filter (isFor c names) ++ [msg] := by
    rw [List.filter_append, List.filter_singleton, hmsg]
    rfl
  have hnext : done.filter (isFor c names) ++ [msg] <+: s.send.pushed.filter (isFor c names) := by
    rw [← hfilter]
    exact ((List.prefix_append _ rest).trans hpushed).filter _
  obtain ⟨xs', hle, hsent, hdone, hred, hfresh⟩ :=
    h.log.exists_next h.sent (hat.passed hopen) hnext
  have hstop : ¬ s.ctx.queue.stop = true := by simp [hopen]
  have hlog := log_pushMsg (s := { s with runs := s.runs.set k ⟨(), rest, none⟩ }) h.origin msg
  rw [if_neg hstop, pushMsg, if_neg hstop] at hlog
  have hcurrent (hclean : clean) : s.current = some k := (h.once hclean).2 k _ hr (by simp)
  refine ⟨xs', ?_⟩
  rw [pushMsg, if_neg hstop]
  have hctx : Receive.Inv
      { s.ctx with queue := s.ctx.queue.enqueue msg, pushed := s.ctx.pushed ++ [msg] } :=
    h.ctx.of_queue rfl rfl rfl ⟨[msg], rfl, rfl⟩ (by simp [CvQueue.enqueue])
  refine h.setRun hr hctx ?_ rfl hle hsent (hlog ▸ hred)
    ⟨hpushed, fun _ ↦ hfilter ▸ hdone, by simp⟩ hcur hbatch (by simp)
    (fun hclean hne ↦ absurd (hcurrent hclean) hne) (fun _ _ heq ↦ ?_) fun hclean hxs ↦ ?_
  · simp [h.origin]
  · rw [hfilter]
    exact hfresh heq
  · have heq := (hcur (hcurrent hclean)).2 hclean hopen
    rw [hlog, hfresh heq, ← heq, ← hxs]
    rfl

theorem Inv.deliver (h : Inv c names clean s xs) {k : ℕ} {r : MqRun Unit}
    (hr : s.runs[k]? = some r) (hdeliver : s.deliver c k r = some s') :
    ∃ xs', Inv c names clean s' xs' := by
  obtain ⟨toId, msg, rest, rfl, rfl⟩ := deliver_spec h.settled hdeliver
  obtain ⟨done, hat, -⟩ := h.exists_at hr
  have hfor : toId = c ↔ isFor c names msg = true := hat.looked toId rfl msg rfl
  by_cases hid : toId = c
  · rw [if_pos hid]
    by_cases hstop : s.ctx.queue.stop = true
    · refine ⟨xs, ?_⟩
      rw [pushMsg, if_pos hstop]
      exact h.pass hr fun hopen ↦ absurd (hstop.symm.trans hopen) (by simp)
    · exact h.arrive hr (hfor.mp hid) (by simpa using hstop)
  · rw [if_neg hid]
    exact ⟨xs, h.pass hr fun _ ↦ Bool.eq_false_iff.mpr (mt hfor.mpr hid)⟩

/-- The context goes on, or another sender pushes into its queue. -/
theorem Inv.ctxStep (h : Inv c names clean s xs) {l : Receive.Label}
    (hstep : s.ctxStep l = some s') : Inv c names clean s' xs := by
  obtain ⟨hlog, horigin⟩ := log_ctxStep h.origin hstep
  obtain ⟨ctx, hctx, rfl⟩ := Option.map_eq_some_iff.mp hstep
  have hopen := (ctx_step hctx).1
  refine ⟨h.send, h.frames, h.settled, Receive.inv_step _ _ _ h.ctx hctx, horigin, h.sent,
    hlog ▸ h.log, fun h' ↦ h.acked (hopen h'), h.runs_keep List.prefix_rfl hopen, fun k hk ↦ ?_,
    fun hnone hclean h' ↦ h.between hnone hclean (hopen h'), fun hclean ↦ ?_⟩
  · obtain ⟨hpc, r, done, hr, hbatch, hat, hexact⟩ := h.current k hk
    exact ⟨hpc, r, done, hr, hbatch, hat.keep List.prefix_rfl hopen List.prefix_rfl,
      fun hclean h' ↦ hexact hclean (hopen h')⟩
  · rw [hlog]
    exact h.once hclean

theorem Inv.step {nodeid : UInt8} (h : Inv c names clean s xs) {l : Label}
    (hregistry : ∀ m, l = .registry m → Settled c names m) (hok : clean → l.fails = false)
    (hstep : s.step nodeid c l = some s') : ∃ xs', Inv c names clean s' xs' := by
  cases l with
  | push frame =>
    simp only [Passage.step] at hstep
    split_ifs at hstep with haccept
    · obtain ⟨send, hsend, rfl⟩ := Option.map_eq_some_iff.mp hstep
      refine ⟨xs, h.sends hsend (fun msg hmsg ↦ ?_) (by simp) (by simp) (by simp) (by simp)⟩
      rw [List.mem_singleton.mp hmsg]
      unfold StartUp.accepts at haccept
      split at haccept
      · rename_i cmsg hparse
        simp [hparse]
      · exact absurd haccept (by simp)
    · obtain rfl := Option.some.inj hstep
      exact ⟨xs, h⟩
  | sender l => exact ⟨xs, h.sender hok hstep⟩
  | registry m =>
    obtain rfl := Option.some.inj hstep
    refine ⟨xs, h.send, h.frames, hregistry m rfl, h.ctx, h.origin, h.sent, h.log, h.acked,
      h.runs_keep List.prefix_rfl id, fun k hk ↦ ?_, h.between, h.once⟩
    obtain ⟨hpc, r, done, hr, hbatch, hat, hexact⟩ := h.current k hk
    exact ⟨hpc, r, done, hr, hbatch, hat.keep List.prefix_rfl id List.prefix_rfl, hexact⟩
  | lookUp k =>
    obtain ⟨r', hbind, rfl⟩ := Option.map_eq_some_iff.mp hstep
    obtain ⟨r, hr, hlook⟩ := Option.bind_eq_some_iff.mp hbind
    exact ⟨xs, h.lookUp hr hlook⟩
  | deliver k =>
    obtain ⟨r, hr, hdeliver⟩ := Option.bind_eq_some_iff.mp hstep
    exact h.deliver hr hdeliver
  | ctx l => exact ⟨xs, h.ctxStep hstep⟩

/-! ## Whole runs -/

theorem Inv.mono {clean' : Prop} (h : Inv c names clean s xs) (hclean : clean' → clean) :
    Inv c names clean' s xs where
  send := h.send
  frames := h.frames
  settled := h.settled
  ctx := h.ctx
  origin := h.origin
  sent := h.sent
  log := h.log
  acked := h.acked
  runs := h.runs
  current k hk := by
    obtain ⟨hpc, r, done, hr, hbatch, hat, hexact⟩ := h.current k hk
    exact ⟨hpc, r, done, hr, hbatch, hat, fun h' ↦ hexact (hclean h')⟩
  between hnone h' := h.between hnone (hclean h')
  once h' := h.once (hclean h')

/-- What a run whose registries are all settled leads to. -/
def Follows (c : UInt32) (names : List Bytes) (ls : List Label) (s : Passage) : Prop :=
  (∀ m, .registry m ∈ ls → Settled c names m) →
    ∃ xs, Inv c names (∀ l ∈ ls, l.fails = false) s xs

theorem follows_step {nodeid : UInt8} (ls : List Label) (s : Passage) (l : Label) (s' : Passage)
    (h : Follows c names ls s) (hstep : s.step nodeid c l = some s') :
    Follows c names (ls ++ [l]) s' := by
  intro hregistry
  obtain ⟨xs, hxs⟩ := h fun m hm ↦ hregistry m (List.mem_append_left _ hm)
  have hlater : Inv c names (∀ l' ∈ ls ++ [l], l'.fails = false) s xs :=
    hxs.mono fun hclean l' hl' ↦ hclean l' (List.mem_append_left _ hl')
  refine hlater.step (fun m hm ↦ hregistry m ?_) (fun hclean ↦ hclean l (by simp)) hstep
  simp [hm]

theorem follows_of_run {nodeid : UInt8} {m : CtxMgr UInt32} (hm : Settled c names m)
    {ls : List Label} (hrun : Machine.run (step nodeid c) (start m) ls = some s) :
    Follows c names ls s :=
  Machine.run_history follows_step (fun _ ↦ ⟨[], inv_start hm⟩) hrun

/-- Picking out of the numbered handlers the ones whose messages are of these runs. -/
theorem filterMap_owed {ps : List CqyStr} {os : List Bool} (hlength : os.length = ps.length)
    (hparse : ∀ msg, (msg, true) ∈ ps.zip os → (msg.parse true).isSome) {n : ℕ}
    {own : ℕ → Option Bool} (hown : ∀ i, i < ps.length → own (n + i) = os[i]?) :
    ((ps.zipIdx n).filterMap fun (msg, i) ↦
        if (msg.parse true).isSome then some (i, msg) else none).filterMap
      (fun (i, msg) ↦ if own i = some true then some msg else none) =
    (ps.zip os).filterMap fun (msg, b) ↦ if b then some msg else none := by
  induction ps generalizing os n with
  | nil => rfl
  | cons msg ps ih =>
    obtain _ | ⟨b, os⟩ := os
    · exact absurd hlength (by simp)
    · have hn : own n = some b := hown 0 (by simp)
      have hown' : ∀ i, i < ps.length → own (n + 1 + i) = os[i]? := fun i hi ↦ by
        simpa [Nat.add_assoc, Nat.add_comm 1 i] using hown (i + 1) (by simpa using hi)
      have hrest := ih (by simpa using hlength)
        (fun m hm ↦ hparse m (List.mem_cons_of_mem _ hm)) hown'
      rw [List.zipIdx_cons, List.zip_cons_cons, List.filterMap_cons, List.filterMap_cons, ← hrest]
      cases b with
      | false => by_cases hmsg : (msg.parse true).isSome <;> simp [hn, hmsg]
      | true => simp [hparse msg (by simp), hn]

/-- The handlers are those of the messages that the loop has popped. -/
theorem handled_eq_take (hctx : Receive.Inv s.ctx)
    (horigin : s.origin.length = s.ctx.pushed.length)
    (hparse : ∀ msg ∈ s.log, (msg.parse true).isSome) :
    s.handled = ((s.ctx.pushed.zip s.origin).take s.ctx.popped).filterMap
      fun (msg, own) ↦ if own then some msg else none := by
  have hlog (msg : CqyStr) (hmsg : (msg, true) ∈ s.ctx.pushed.zip s.origin) : msg ∈ s.log :=
    List.mem_filterMap.mpr ⟨(msg, true), hmsg, rfl⟩
  have hzip : (s.ctx.pushed.zip s.origin).take s.ctx.popped =
      (s.ctx.pushed.take s.ctx.popped).zip (s.origin.take s.ctx.popped) := List.take_zipWith
  rw [handled, hctx.started, Receive.owed, hzip]
  refine filterMap_owed ?_ (fun msg hmsg ↦ hparse msg (hlog msg ?_)) fun i hi ↦ ?_
  · rw [List.length_take, List.length_take, horigin]
  · rw [← hzip] at hmsg
    exact List.mem_of_mem_take hmsg
  · rw [Nat.zero_add, List.getElem?_take_of_lt]
    exact hi.trans_le (List.length_take_le _ _)

theorem Inv.parse_log (h : Inv c names clean s xs) {msg : CqyStr} (hmsg : msg ∈ s.log) :
    (msg.parse true).isSome :=
  h.frames msg (List.mem_append_right _
    (List.mem_of_mem_filter (h.sent.subset (h.log.mem_iff.mp hmsg))))

theorem Inv.handled_prefix (h : Inv c names clean s xs) : s.handled <+: s.log := by
  rw [handled_eq_take h.ctx h.origin fun _ ↦ h.parse_log]
  exact (List.take_prefix _ _).filterMap _

/-- In every run in which the context is live under its names, what reaches its queue through the
link is what was pushed for it on the sending node: in that order, with every message at least once
that was acknowledged before the queue was stopped, and exactly once as long as no request has
failed, although a failed request may run in part, late, or beside its repetition.  The handlers of
the context are started in the same way. -/
theorem handled_in_order {nodeid : UInt8} {m : CtxMgr UInt32} (hm : Settled c names m)
    {ls : List Label} (hregistry : ∀ m', .registry m' ∈ ls → Settled c names m')
    (hrun : Machine.run (step nodeid c) (start m) ls = some s) :
    ∃ xs ys, ys <+: xs ∧ xs <+: s.send.pushed.filter (isFor c names) ∧
      Redelivery xs s.log ∧ Redelivery ys s.handled ∧
      (s.ctx.queue.stop = false → s.send.acked.flatten.filter (isFor c names) <+: xs) ∧
      ((∀ l ∈ ls, l.fails = false) → s.log = xs ∧ s.handled = ys) := by
  obtain ⟨xs, h⟩ := follows_of_run hm hrun hregistry
  by_cases hclean : ∀ l ∈ ls, l.fails = false
  · have hlog := (h.once hclean).1
    exact ⟨xs, s.handled, hlog ▸ h.handled_prefix, h.sent, h.log, .refl _, h.acked,
      fun _ ↦ ⟨hlog, rfl⟩⟩
  · obtain ⟨ys, hys, hred⟩ := h.log.exists_prefix h.handled_prefix
    exact ⟨xs, ys, hys, h.sent, h.log, hred, h.acked, fun h' ↦ absurd h' hclean⟩

end Invariant

/-- A registry with one context, which has the name `x`. -/
def oneName : CtxMgr UInt32 where
  allocid := 1
  ctxs := AList.insert 0x01000001 0x01000001 ∅
  names := Table.empty.insert [120] 0x01000001 (by decide)

theorem settled_oneName : Settled 0x01000001 [[120]] oneName where
  byId id c' h := by
    rw [CtxMgr.getCtx, oneName] at h
    by_cases hid : id = 0x01000001
    · rw [hid, AList.lookup_insert] at h
      exact hid ▸ (Option.some.inj h).symm
    · rw [AList.lookup_insert_ne hid] at h
      exact absurd h (by simp)
  live := rfl
  named name := by
    have hregister : CtxMgr.registerName ⟨1, AList.insert 0x01000001 0x01000001 ∅, Table.empty⟩
        [120] 0x01000001 = .ok oneName := rfl
    rw [CtxMgr.findName_registerName hregister, List.mem_singleton]
    split_ifs with hname
    · exact iff_of_true rfl hname
    · exact iff_of_false (by decide : (0 : UInt32) ≠ 0x01000001) hname

/-- Two messages for the context, one under its id and one under its name. -/
def toId : CqyStr := CqyStr.make (fun _ ↦ 0) [] 0x02000001 0x01000001 1 1 false [97]

def toName : CqyStr := CqyStr.makeRouted (fun _ ↦ 0) [] 0x02000001 1 [120] 2 1 false [98]

/-- The request fails after the first message has arrived and is sent again; the first run goes on
when the second has ended. -/
def retriedRun : List Label :=
  [.push toId, .sender (.pushEnqueue 0), .push toName, .sender (.pushEnqueue 0), .sender .test,
    .sender .size, .sender .fetch, .sender .send, .sender .execute, .lookUp 0, .deliver 0,
    .sender .connError, .sender .wake, .sender .test, .sender .size, .sender .fetch, .sender .send,
    .sender .execute, .lookUp 1, .deliver 1, .lookUp 1, .deliver 1, .sender .acknowledge,
    .lookUp 0, .deliver 0, .ctx .test, .ctx .pop, .ctx .take, .ctx .test, .ctx .pop, .ctx .take]

theorem handled_in_order_retried : ∃ s xs ys,
    Machine.run (step 1 0x01000001) (start oneName) retriedRun = some s ∧
      s.log = [toId, toId, toName, toName] ∧ s.handled = [toId, toId] ∧
      Redelivery xs s.log ∧ Redelivery ys s.handled ∧ ys <+: xs := by
  have hrun : (Machine.run (step 1 0x01000001) (start oneName) retriedRun).isSome = true := by
    decide
  obtain ⟨s, hs⟩ := Option.isSome_iff_exists.mp hrun
  obtain ⟨xs, ys, hle, -, hlog, hhandled, -⟩ :=
    handled_in_order settled_oneName (by simp [retriedRun]) hs
  refine ⟨s, xs, ys, hs, ?_, ?_, hlog, hhandled, hle⟩
  · have h : (Machine.run (step 1 0x01000001) (start oneName) retriedRun).map log =
        some [toId, toId, toName, toName] := by decide
    simpa [hs] using h
  · have h : (Machine.run (step 1 0x01000001) (start oneName) retriedRun).map handled =
        some [toId, toId] := by decide
    simpa [hs] using h

end Passage

end Cqy
