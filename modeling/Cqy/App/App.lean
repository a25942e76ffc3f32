import Cqy.Algo.Split
import Cqy.Node.Nodes
import Cqy.Registry.CtxMgr
import Cqy.Wire.Message

/-!
# The application of a node: handles, messages and lookups by name

A `cqy_app` owns the list of nodes and the registry of contexts.  The functions here read both and
change neither: they say to which context or to which peer a message or a lookup goes.
-/

namespace Cqy

open Foundation

/-- `cqy_app_t`, over the type of the context pointers. -/
structure App (C : Type*) where
  config : Config
  node : CqyNode
  mgr : CtxMgr C

/-- What `node_mq_push` does with a message. -/
inductive MqPush (C : Type*)
  | drop
  /-- `node_push_msg` of a context of this node. -/
  | ctx (ctx : C)
  /-- `coro_queue.push` of another node. -/
  | peer (node : NodeT)

/-- What `rpc_find_ctx` does with a query. -/
inductive FindCtx
  | answer (id : UInt32)
  /-- The same query, sent to another node. -/
  | forward (node : NodeT)

namespace App

variable {C : Type*}

/-- The separator between the name of a node and the name of a context. -/
def dot : Bytes := [46]

/-- `cqy_app::get_handle`. -/
def getHandle (a : App C) (name : Bytes) : Option (CqyHandle × Bytes) :=
  let p := Algo.splitOne name dot
  if p.2 = [] then none
  else
    match a.node.getNodeByName p.1 with
    | none => none
    | some t => some ((⟨0⟩ : CqyHandle).setNodeid t.info.nodeid.toUInt8, p.2)

/-- `cqy_app::node_mq_push`. -/
def nodeMqPush (a : App C) (msg : CqyStr) : MqPush C :=
  match msg.parse true with
  | none => .drop
  | some cmsg =>
    let toId : CqyHandle := ⟨cmsg.toId⟩
    if toId.nodeid = a.config.nodeid then
      match a.mgr.getCtx toId.id with
      | some ctx => .ctx ctx
      | none => .drop
    else
      match a.node.getNode toId.nodeid with
      | some t => .peer t
      | none => .drop

/-- The id under which `rpc_on_mq` looks for the target of a message with the header `cmsg`. -/
def mqTarget (m : CtxMgr C) (cmsg : CqyMsg) (msg : CqyStr) : UInt32 :=
  if msg.name.size ≠ 0 then m.findName (msg.name.read msg) else cmsg.toId

/-- `cqy_app::rpc_on_mq` on a registry that does not change meanwhile: the pushes it makes, in
order.  A malformed message ends the call. -/
def rpcOnMq (m : CtxMgr C) : List CqyStr → List (C × CqyStr)
  | [] => []
  | msg :: msgs =>
    match msg.parse true with
    | none => []
    | some cmsg =>
      match m.getCtx (mqTarget m cmsg msg) with
      | some ctx => (ctx, msg) :: rpcOnMq m msgs
      | none => rpcOnMq m msgs

/-- `cqy_app::rpc_find_ctx`, up to the remote call. -/
def rpcFindCtx (a : App C) (nodectx : Bytes) : FindCtx :=
  match a.getHandle nodectx with
  | none => .answer 0
  | some (h, name) =>
    if a.config.nodeid = h.nodeid then .answer (a.mgr.findName name)
    else
      match a.node.getNode h.nodeid with
      | none => .answer 0
      | some t => if t.rpcClient then .forward t else .answer 0

end App

end Cqy
