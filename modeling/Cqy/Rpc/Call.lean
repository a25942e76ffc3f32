import Cqy.App.App

/-!
# Remote procedure calls

A context registers functions under names; a call names a context, a function and the encoded
arguments.  A coroutine may change the world it runs in and may throw, so it is an action over a
state with exceptions.  What a registered function does, how its arguments are decoded and how its
result is encoded are parameters.
-/

namespace Cqy

open Foundation

/-- `Lazy`: a coroutine over the world `W` that may throw an `Exn`. -/
abbrev Lazy (W Exn : Type) := ExceptT Exn (StateM W)

/-- `rpc_result_t`, without its reserved bytes. -/
structure RpcResult where
  status : Int8
  res : Bytes
deriving DecidableEq

/-- The parameters of a registered function: none, or a tuple and its decoder. -/
inductive ParamType (α : Type)
  | void
  | tuple (deserialize : Bytes → Option α)

/-- The result of a registered function: none, or a value and its encoder. -/
inductive ReturnType (β : Type)
  | void
  | value (serialize : β → Bytes)

/-- An entry of the router. -/
abbrev RpcCall (W Exn : Type) := Bytes → Lazy W Exn RpcResult

/-- What the RPC functions use of a `cqy_ctx`. -/
structure RpcCtx (W Exn : Type) where
  id : UInt32
  router : AList fun _ : Bytes ↦ RpcCall W Exn

/-- What `send_request` returns: no result, an error of the remote call, or its value. -/
inductive Reply (α : Type)
  | connError
  | callError
  | value (a : α)

variable {W Exn α β : Type}

/-- The text of a string literal. -/
def text (s : String) : Bytes := s.toUTF8.toList

/-- The decimal digits of a number, as `std::format` writes them for `{}`. -/
def decimal (n : ℕ) : Bytes := text (toString n)

/-- The hexadecimal digits of a number, as `std::format` writes them for `{:0x}`. -/
def hexadecimal (n : ℕ) : Bytes := text (String.ofList (Nat.toDigits 16 n))

/-- `rpc_call_func`. -/
def rpcCallFunc (ret : ReturnType β) (param : ParamType α) (func : Option α → Lazy W Exn β)
    (str : Bytes) : Lazy W Exn RpcResult :=
  match ret, param with
  | .void, .void => do
    let _ ← func none
    return ⟨0, []⟩
  | .void, .tuple deserialize =>
    match deserialize str with
    | none => return ⟨-3, []⟩
    | some args => do
      let _ ← func (some args)
      return ⟨0, []⟩
  | .value serialize, .void => do
    let out ← func none
    return ⟨0, serialize out⟩
  | .value serialize, .tuple deserialize =>
    match deserialize str with
    | none => return ⟨-3, []⟩
    | some args => do
      let out ← func (some args)
      return ⟨0, serialize out⟩

/-- `cqy_ctx::register_rpc_func`, for a function whose own name is `funcName`. -/
def RpcCtx.registerRpcFunc (c : RpcCtx W Exn) (name funcName : Bytes) (call : RpcCall W Exn) :
    RpcCtx W Exn :=
  { c with router := c.router.insert (if name = [] then funcName else name) call }

/-- Registering a function leaves the functions under other names alone. -/
theorem RpcCtx.lookup_registerRpcFunc (c : RpcCtx W Exn) (name funcName : Bytes)
    (call : RpcCall W Exn) (n : Bytes) :
    (c.registerRpcFunc name funcName call).router.lookup n =
      if n = (if name = [] then funcName else name) then some call else c.router.lookup n := by
  rw [registerRpcFunc]
  by_cases hn : n = if name = [] then funcName else name
  · rw [if_pos hn, hn, AList.lookup_insert]
  · rw [if_neg hn]
    exact AList.lookup_insert_ne hn

/-- `cqy_ctx::rpc_on_call`: the result it stores, or none when it returns false. -/
def RpcCtx.rpcOnCall (c : RpcCtx W Exn) (funcName paramData : Bytes) :
    Lazy W Exn (Option RpcResult) :=
  match c.router.lookup funcName with
  | some call => do
    let result ← call paramData
    return some result
  | none => return none

namespace App

def idMiss (toId : UInt32) : RpcResult := ⟨-1, text "id:" ++ hexadecimal toId.toNat ++ text " miss"⟩

def funcNameMiss (funcName : Bytes) : RpcResult :=
  ⟨-1, text "func_name:" ++ funcName ++ text " miss"⟩

def nodeidConfigMiss (nodeid : UInt8) : RpcResult :=
  ⟨-2, text "nodeid:" ++ decimal nodeid.toNat ++ text " config miss"⟩

/-- The end that `rpc_ctx_call` and `rpc_ctx_call_name` share. -/
def callOn (ctx : RpcCtx W Exn) (funcName paramData : Bytes) : Lazy W Exn RpcResult := do
  match ← ctx.rpcOnCall funcName paramData with
  | some result => return result
  | none => return funcNameMiss funcName

/-- `cqy_app::rpc_ctx_call`. -/
def rpcCtxCall (a : App (RpcCtx W Exn)) (toId : UInt32) (funcName paramData : Bytes) :
    Lazy W Exn RpcResult :=
  let h : CqyHandle := ⟨toId⟩
  if h.nodeid ≠ a.config.nodeid then return idMiss toId
  else
    match a.mgr.getCtx toId with
    | none => return idMiss toId
    | some ctx => callOn ctx funcName paramData

/-- `cqy_app::rpc_ctx_call_name`, up to the context it calls or the error it returns. -/
def rpcCtxCallNameTarget {C : Type*} (a : App C) (nodectx : Bytes) : Except RpcResult C :=
  match a.getHandle nodectx with
  | none => .error ⟨-1, text "nodectx:" ++ nodectx ++ text " miss"⟩
  | some (h, name) =>
    if h.nodeid ≠ a.config.nodeid then
      .error ⟨-1, text "nodectx:" ++ nodectx ++ text " not self"⟩
    else
      match a.mgr.getCtx (a.mgr.findName name) with
      | none => .error ⟨-1, text "nodectx:" ++ nodectx ++ text " ctx miss"⟩
      | some ctx => .ok ctx

/-- `cqy_app::rpc_ctx_call_name`. -/
def rpcCtxCallName (a : App (RpcCtx W Exn)) (nodectx funcName paramData : Bytes) :
    Lazy W Exn RpcResult :=
  match a.rpcCtxCallNameTarget nodectx with
  | .error result => return result
  | .ok ctx => callOn ctx funcName paramData

/-- A call served by another process over a transport that does not fail: what the coroutine there
throws arrives as an error of the remote call. -/
def remote (x : Lazy W Exn α) : Lazy W Exn (Reply α) :=
  tryCatch (Reply.value <$> x) fun _ ↦ return .callError

/-- What `ctx_call_nolock` and `ctx_call_name_nolock` make of a reply. -/
def ofReply : Reply RpcResult → RpcResult
  | .connError | .callError => ⟨-4, []⟩
  | .value result => result

/-- `cqy_ctx::ctx_call_nolock` on the node `a`, where `peers` are the processes that the clients
are connected to. -/
def ctxCallNolock (a : App (RpcCtx W Exn)) (peers : NodeT → App (RpcCtx W Exn)) (toId : UInt32)
    (funcName paramData : Bytes) : Lazy W Exn RpcResult :=
  let h : CqyHandle := ⟨toId⟩
  if h.nodeid = a.config.nodeid then a.rpcCtxCall toId funcName paramData
  else
    match a.node.getNode h.nodeid with
    | none => return nodeidConfigMiss h.nodeid
    | some t => do
      let r ← remote ((peers t).rpcCtxCall toId funcName paramData)
      return ofReply r

/-- Where `ctx_call_name_nolock` goes: to this node, to another one, or nowhere. -/
def ctxCallNameRoute {C : Type*} (a : App C) (nodectx : Bytes) : Except RpcResult (Option NodeT) :=
  match a.getHandle nodectx with
  | none => .error ⟨-1, text "nodectx:" ++ nodectx ++ text " miss"⟩
  | some (h, _) =>
    if h.nodeid = a.config.nodeid then .ok none
    else
      match a.node.getNode h.nodeid with
      | none => .error (nodeidConfigMiss h.nodeid)
      | some t => .ok (some t)

/-- `cqy_ctx::ctx_call_name_nolock`. -/
def ctxCallNameNolock (a : App (RpcCtx W Exn)) (peers : NodeT → App (RpcCtx W Exn))
    (nodectx funcName paramData : Bytes) : Lazy W Exn RpcResult :=
  match a.ctxCallNameRoute nodectx with
  | .error result => return result
  | .ok none => a.rpcCtxCallName nodectx funcName paramData
  | .ok (some t) => do
    let r ← remote ((peers t).rpcCtxCallName nodectx funcName paramData)
    return ofReply r

end App

end Cqy
