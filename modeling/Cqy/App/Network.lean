import Cqy.Ctx.Dispatch
import Cqy.Foundation.Machine
import Cqy.Node.SendLoop

/-!
# Nodes that exchange messages

Any number of nodes run their send loops, their runs of `rpc_on_mq` and their contexts side by
side.  A context is known by its id, which no other context has; registries change at any time, as
long as they map an id to the context that has it.  Messages enter only through `dispatch` and
`response`, and a request of a send loop may be executed once, several times or long after it
failed.  `received`, `produced` and `delivered` are history, except that a context may answer the
messages it has received.
-/

namespace Cqy

open Foundation

/-- A node: its configuration and the nodes it knows. -/
structure Site where
  config : Config
  node : CqyNode

/-- A dispatch that produced a message: the context, the session it returned, the type and the
frame. -/
structure Produced where
  ctx : UInt32
  session : UInt32
  type : UInt8
  frame : CqyStr
deriving DecidableEq

/-- A run of `rpc_on_mq` on a node: the messages to come and the id looked up for the first. -/
structure MqRun (ι : Type) where
  node : ι
  rest : List CqyStr
  looked : Option UInt32

structure Network (ι : Type) where
  mgr : ι → CtxMgr UInt32
  session : UInt32 → UInt32
  /-- Calls of `node_mq_push` under way. -/
  calls : List (ι × CqyStr)
  /-- The send loop of a node for the peer with an id. -/
  links : ι → UInt8 → SendLoop CqyStr
  runs : List (MqRun ι)
  inbox : UInt32 → CvQueue CqyStr
  /-- Messages that `wait_msg_spawn` has popped and handed to `on_msg`. -/
  received : List (UInt32 × CqyStr)
  produced : List Produced
  /-- Pushes into the queues of contexts. -/
  delivered : List (UInt32 × CqyStr)

namespace Network

variable {ι : Type}

def init : Network ι where
  mgr _ := CtxMgr.empty
  session _ := 0
  calls := []
  links _ _ := {}
  runs := []
  inbox _ := {}
  received := []
  produced := []
  delivered := []

inductive Label (ι : Type) where
  /-- Contexts are created, named and stopped on a node. -/
  | registry (i : ι) (m : CtxMgr UInt32)
  | dispatch (fill : ℕ → UInt8) (c toId : UInt32) (t : UInt8) (data : Bytes)
  | dispatchName (fill : ℕ → UInt8) (c : UInt32) (nodectx : Bytes) (t : UInt8) (data : Bytes)
  /-- The context that received the `k`-th message answers it. -/
  | respond (fill : ℕ → UInt8) (k : ℕ) (data : Bytes)
  | mqPush (k : ℕ)
  | link (i : ι) (n : UInt8) (l : SendLoop.Label CqyStr)
  | lookUp (k : ℕ)
  | deliver (k : ℕ)
  | receive (c : UInt32)
  | shutdown (c : UInt32)

/-- The labels of a send loop that may set off a run of `rpc_on_mq`: the request is executed, or it
is given up and may still be executed later. -/
def spawns : SendLoop.Label CqyStr → Bool
  | .execute | .connError | .callError => true
  | _ => false

section Step

variable [DecidableEq ι] (site : ι → Site) (home : UInt32 → ι) (connect : ι → UInt8 → ι)

def app (s : Network ι) (i : ι) : App UInt32 := ⟨(site i).config, (site i).node, s.mgr i⟩

/-- What a `dispatch` of `c` leaves behind. -/
def produce (s : Network ι) (c : UInt32) (t : UInt8) (d : Dispatched) : Network ι :=
  match d.msg with
  | none => s
  | some frame =>
    { s with
      session := Function.update s.session c d.session
      calls := s.calls ++ [(home c, frame)]
      produced := s.produced ++ [⟨c, d.ret, t, frame⟩] }

/-- `node_push_msg` of the context `c`. -/
def pushMsg (s : Network ι) (c : UInt32) (msg : CqyStr) : Network ι :=
  if (s.inbox c).stop then s
  else
    { s with
      inbox := Function.update s.inbox c ((s.inbox c).push msg)
      delivered := s.delivered ++ [(c, msg)] }

/-- `node_mq_push` on the node `i`; none when the queue of the peer refuses the step. -/
def nodeMqPush (s : Network ι) (i : ι) (msg : CqyStr) : Option (Network ι) :=
  match (s.app site i).nodeMqPush msg with
  | .drop => some s
  | .ctx c => some (s.pushMsg c msg)
  | .peer t =>
    let n := t.info.nodeid.toUInt8
    ((s.links i n).step (.pushTest msg)).map fun link ↦
      { s with links := Function.update s.links i (Function.update (s.links i) n link) }

def linkStep (s : Network ι) (i : ι) (n : UInt8) (l : SendLoop.Label CqyStr) :
    Option (Network ι) :=
  match l with
  | .pushTest _ => none
  | l => ((s.links i n).step l).map fun link ↦
    { s with
      links := Function.update s.links i (Function.update (s.links i) n link)
      runs := if spawns l then s.runs ++ [⟨connect i n, (s.links i n).msgs, none⟩] else s.runs }

/-- The loop body of `rpc_on_mq` up to `find_name`. -/
def lookUp (m : CtxMgr UInt32) (r : MqRun ι) : Option (MqRun ι) :=
  match r.looked, r.rest with
  | none, msg :: _ =>
    match msg.parse true with
    | none => some { r with rest := [] }
    | some cmsg => some { r with looked := some (App.mqTarget m cmsg msg) }
  | _, _ => none

/-- The rest of the loop body, by the run at position `k`. -/
def deliver (s : Network ι) (k : ℕ) (r : MqRun ι) : Option (Network ι) :=
  match r.looked, r.rest with
  | some id, msg :: rest =>
    let s' := { s with runs := s.runs.set k { r with rest := rest, looked := none } }
    match (s.mgr r.node).getCtx id with
    | some c => some (s'.pushMsg c msg)
    | none => some s'
  | _, _ => none

/-- The loop body of `wait_msg_spawn` of the context `c`. -/
def receive (s : Network ι) (c : UInt32) : Option (Network ι) :=
  (s.inbox c).pop.map fun (res, queue) ↦
    { s with
      inbox := Function.update s.inbox c queue
      received :=
        match res with
        | none => s.received
        | some msg => if (msg.parse true).isSome then s.received ++ [(c, msg)] else s.received }

def step (s : Network ι) : Label ι → Option (Network ι)
  | .registry i m =>
    if m.ctxs.entries.all fun e ↦ e.2 = e.1 then some { s with mgr := Function.update s.mgr i m }
    else none
  | .dispatch fill c toId t data =>
    some (s.produce home c t (Cqy.dispatch fill c (s.session c) toId t data))
  | .dispatchName fill c nodectx t data =>
    some (s.produce home c t
      (Cqy.dispatchName (s.app site (home c)) fill c (s.session c) nodectx t data))
  | .respond fill k data =>
    s.received[k]?.bind fun (c, msg) ↦
      if msg.msg.response then none
      else some { s with calls := s.calls ++ [(home c, response fill c msg.msg data)] }
  | .mqPush k =>
    s.calls[k]?.bind fun (i, msg) ↦ nodeMqPush site { s with calls := s.calls.eraseIdx k } i msg
  | .link i n l => linkStep connect s i n l
  | .lookUp k => (s.runs[k]?.bind fun r ↦ lookUp (s.mgr r.node) r).map fun r ↦
      { s with runs := s.runs.set k r }
  | .deliver k => s.runs[k]?.bind (s.deliver k)
  | .receive c => s.receive c
  | .shutdown c =>
    some { s with inbox := Function.update s.inbox c (s.inbox c).shutdown.2 }

end Step

end Network

end Cqy
