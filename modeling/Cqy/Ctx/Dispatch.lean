import Cqy.App.App

/-!
# Sending messages from a context

`dispatch` draws a session from the counter of the context, builds a frame and hands it to
`node_mq_push`; `response` copies the session of the message it answers.
-/

namespace Cqy

open Foundation

/-- What a call of `dispatch` returns, the session counter it leaves and the frame it hands to
`node_mq_push`. -/
structure Dispatched where
  ret : UInt32
  session : UInt32
  msg : Option CqyStr
deriving DecidableEq

/-- `cqy_ctx::dispatch` to an id, by the context `self` whose counter stands at `session`. -/
def dispatch (fill : ℕ → UInt8) (self session toId : UInt32) (t : UInt8) (data : Bytes) :
    Dispatched :=
  let sessionid := session + 1
  ⟨sessionid, sessionid, some (CqyStr.make fill [] self toId sessionid t false data)⟩

/-- `cqy_ctx::dispatch` to a name, with the assertion on its length compiled out. -/
def dispatchName {C : Type*} (a : App C) (fill : ℕ → UInt8) (self session : UInt32)
    (nodectx : Bytes) (t : UInt8) (data : Bytes) : Dispatched :=
  match a.getHandle nodectx with
  | none => ⟨-1, session, none⟩
  | some (h, ctxname) =>
    if h.nodeid = a.config.nodeid ∨ h.nodeid = 0 then
      dispatch fill self session (a.mgr.findName ctxname) t data
    else
      let sessionid := session + 1
      ⟨sessionid, sessionid,
        some (CqyStr.makeRouted fill [] self h.nodeid ctxname sessionid t false data)⟩

/-- `cqy_ctx::response` by the context `self`: the frame it hands to `node_mq_push`. -/
def response (fill : ℕ → UInt8) (self : UInt32) (msg : CqyMsg) (data : Bytes) : CqyStr :=
  CqyStr.make fill [] self msg.fromId msg.session msg.type true data

end Cqy
