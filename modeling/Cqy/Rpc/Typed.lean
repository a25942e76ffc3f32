import Cqy.App.Resolution
import Cqy.Rpc.Transparency

/-!
# Typed calls

`rpc_encode` packs the arguments of a call, `rpc_call_func` unpacks them for the registered function
and packs what it returns, and `rpc_result_t::as` unpacks that for the caller.  On any node of a
cluster the whole way amounts to a call of the function itself: it has the effects of that call, and
its value reaches the caller.  Only an exception is seen differently, when the function runs on
another node.
-/

namespace Cqy

open Foundation

variable {W Exn α β γ : Type}

/-- `struct_pack` for one type: an encoder and a decoder, which may report an error. -/
structure Packed (α : Type) where
  serialize : α → Bytes
  deserialize : Bytes → Except Bytes α
  deserialize_serialize : ∀ a, deserialize (serialize a) = .ok a

/-- The parameters of a function with its codec, if it has any. -/
inductive Params (α : Type)
  | void
  | tuple (codec : Packed α)

def Params.type : Params α → ParamType α
  | .void => .void
  | .tuple codec => .tuple fun str ↦ (codec.deserialize str).toOption

/-- `rpc_encode`: the arguments are converted to the types of the parameters and packed, if there
are any. -/
def rpcEncode (wrap : γ → α) : Params α → Option γ → Bytes
  | .tuple codec, some args => codec.serialize (wrap args)
  | _, _ => []

/-- The call passes arguments where the function has parameters. -/
def Params.Accepts (p : Params α) (args : Option γ) : Prop :=
  match p with
  | .void => args = none
  | .tuple _ => args.isSome

/-- The text of the exception of `as` for a result without a value. -/
def RpcResult.asError (r : RpcResult) (typeName : Bytes) : Bytes :=
  text "as type:" ++ typeName ++ text " error:" ++ text (toString r.status.toInt) ++
    text " msg:" ++ r.res

/-- `rpc_result_t::as`; `runtimeError` is the exception with a text. -/
def RpcResult.as (r : RpcResult) (typeName : Bytes) (codec : Packed β)
    (runtimeError : Bytes → Exn) : Lazy W Exn β :=
  if r.status ≠ 0 then throw (runtimeError (r.asError typeName))
  else
    match codec.deserialize r.res with
    | .error e => throw (runtimeError e)
    | .ok b => pure b

/-- What the caller sees of a function that ran on its own node, or on another one. -/
def seen (here : Prop) [Decidable here] (fail : Exn) (p : Except Exn β × W) : Except Exn β × W :=
  match p with
  | (.ok b, w) => (.ok b, w)
  | (.error e, w) => (.error (if here then e else fail), w)

/-! ## The two ends -/

/-- The bytes of `rpc_encode` give the function the converted arguments. -/
theorem exec_rpcCallFunc (codec : Packed β) (p : Params α) (func : Option α → Lazy W Exn β)
    (wrap : γ → α) {args : Option γ} (hargs : p.Accepts args) (w : W) :
    Lazy.exec (rpcCallFunc (.value codec.serialize) p.type func (rpcEncode wrap p args)) w =
      match Lazy.exec (func (args.map wrap)) w with
      | (.ok b, w') => (.ok ⟨0, codec.serialize b⟩, w')
      | (.error e, w') => (.error e, w') := by
  have hrun (x : Lazy W Exn β) :
      Lazy.exec (do let out ← x; return (⟨0, codec.serialize out⟩ : RpcResult)) w =
        match Lazy.exec x w with
        | (.ok b, w') => (.ok ⟨0, codec.serialize b⟩, w')
        | (.error e, w') => (.error e, w') := by
    rw [exec_bind]
    rcases Lazy.exec x w with ⟨_ | _, w'⟩ <;> rfl
  cases p with
  | void =>
    obtain rfl : args = none := hargs
    exact hrun (func none)
  | tuple pack =>
    obtain ⟨a, rfl⟩ := Option.isSome_iff_exists.mp hargs
    have hdecode : (pack.deserialize (rpcEncode wrap (.tuple pack) (some a))).toOption =
        some (wrap a) := by
      rw [rpcEncode, pack.deserialize_serialize]
      rfl
    simp only [Params.type, rpcCallFunc, hdecode]
    exact hrun (func (some (wrap a)))

/-- `as` gives back the value that was packed. -/
theorem as_serialize (codec : Packed β) (b : β) (typeName : Bytes) (runtimeError : Bytes → Exn) :
    (⟨0, codec.serialize b⟩ : RpcResult).as typeName codec runtimeError =
      (pure b : Lazy W Exn β) := by
  rw [RpcResult.as, if_neg (by simp), codec.deserialize_serialize]

/-! ## The way through the cluster -/

/-- What `ctx_call` returns of a run on the own node, or on another one. -/
def replied (here : Prop) [Decidable here] (p : Except Exn RpcResult × W) :
    Except Exn RpcResult × W :=
  match p with
  | (.ok r, w) => (.ok r, w)
  | (.error e, w) => (if here then .error e else .ok ⟨-4, []⟩, w)

theorem replied_here {here : Prop} [Decidable here] (h : here) (p : Except Exn RpcResult × W) :
    replied here p = p := by
  rcases p with ⟨_ | _, w⟩ <;> simp [replied, h]

/-- What a client of the own node makes of a call that is executed on another one. -/
theorem exec_ofReply {here : Prop} [Decidable here] (h : ¬ here) (x : Lazy W Exn RpcResult) (w : W) :
    Lazy.exec (do let r ← App.remote x; return App.ofReply r) w = replied here (x.exec w) := by
  rw [exec_bind, exec_remote]
  rcases x.exec w with ⟨_ | _, w'⟩
  · simp [replied, h, exec_pure, App.ofReply]
  · simp [replied, exec_pure, App.ofReply]

/-- `rpc_ctx_call_name` on the node that the string names. -/
theorem rpcCtxCallName_eq {cl : Cluster (RpcCtx W Exn)} {b : App (RpcCtx W Exn)} {nodectx : Bytes}
    {h : CqyHandle} {name : Bytes} {ctx : RpcCtx W Exn} (hb : cl.app h.nodeid = .ok b)
    (hh : b.getHandle nodectx = some (h, name))
    (hlive : (cl.mgr h.nodeid).getCtx ((cl.mgr h.nodeid).findName name) = some ctx)
    (funcName paramData : Bytes) :
    b.rpcCtxCallName nodectx funcName paramData = App.callOn ctx funcName paramData := by
  obtain ⟨hconfig, hmgr, -⟩ := Cluster.app_eq_ok hb
  have htarget : b.rpcCtxCallNameTarget nodectx = .ok ctx := by
    rw [App.rpcCtxCallNameTarget, hh]
    dsimp only
    rw [if_neg (by rw [hconfig]; exact not_not.mpr rfl), hmgr, hlive]
  rw [App.rpcCtxCallName, htarget]

section

variable {cl : Cluster (RpcCtx W Exn)} (hd : CqyNode.Distinct cl.nodes) {k : UInt8}
  {a : App (RpcCtx W Exn)} (ha : cl.app k = .ok a) {peers : NodeT → App (RpcCtx W Exn)}
  (hpeers : ∀ t b, cl.peer t = .ok b → peers t = b) {ctx : RpcCtx W Exn}

include hd ha hpeers

/-- `ctx_call` of a live context of a configured node. -/
theorem exec_ctxCallNolock {toId : UInt32}
    (hnode : ∃ i ∈ cl.nodes, i.nodeid = (CqyHandle.mk toId).nodeid.toUInt32)
    (hlive : (cl.mgr (CqyHandle.mk toId).nodeid).getCtx toId = some ctx)
    (funcName paramData : Bytes) (w : W) :
    Lazy.exec (a.ctxCallNolock peers toId funcName paramData) w =
      replied ((CqyHandle.mk toId).nodeid = k) (Lazy.exec (App.callOn ctx funcName paramData) w) := by
  obtain ⟨hconfig, hmgr, -⟩ := Cluster.app_eq_ok ha
  by_cases hhere : (CqyHandle.mk toId).nodeid = k
  · have hself : (CqyHandle.mk toId).nodeid = a.config.nodeid := by rw [hconfig, hhere]
    rw [ctxCallNolock_home peers hself (by rw [hmgr, ← hhere, hlive]), replied_here hhere]
  · obtain ⟨t, b, hget, -, hpeer, hb⟩ := Cluster.getNode_away hd ha hnode hhere
    obtain ⟨hbconfig, hbmgr, -⟩ := Cluster.app_eq_ok hb
    have hcall : b.rpcCtxCall toId funcName paramData = App.callOn ctx funcName paramData := by
      rw [App.rpcCtxCall, if_neg (by rw [hbconfig]; exact not_not.mpr rfl), hbmgr, hlive]
    rw [App.ctxCallNolock, if_neg (by rw [hconfig]; exact hhere), hget]
    dsimp only
    rw [hpeers t b hpeer, exec_ofReply hhere, hcall]

/-- `ctx_call_name` of a name that is bound to a live context of the node that the string names. -/
theorem exec_ctxCallNameNolock {nodectx : Bytes} {h : CqyHandle} {name : Bytes}
    (hh : a.getHandle nodectx = some (h, name))
    (hlive : (cl.mgr h.nodeid).getCtx ((cl.mgr h.nodeid).findName name) = some ctx)
    (funcName paramData : Bytes) (w : W) :
    Lazy.exec (a.ctxCallNameNolock peers nodectx funcName paramData) w =
      replied (h.nodeid = k) (Lazy.exec (App.callOn ctx funcName paramData) w) := by
  obtain ⟨hconfig, -, -⟩ := Cluster.app_eq_ok ha
  by_cases hhere : h.nodeid = k
  · have hroute : a.ctxCallNameRoute nodectx = .ok none := by
      rw [App.ctxCallNameRoute, hh]
      dsimp only
      rw [if_pos (by rw [hconfig]; exact hhere)]
    rw [App.ctxCallNameNolock, hroute]
    dsimp only
    rw [rpcCtxCallName_eq (hhere ▸ ha) hh hlive, replied_here hhere]
  · obtain ⟨t, b, hget, -, hpeer, hb⟩ :=
      Cluster.getNode_away hd ha (Cluster.getHandle_node hd ha hh).1 hhere
    have hroute : a.ctxCallNameRoute nodectx = .ok (some t) := by
      rw [App.ctxCallNameRoute, hh]
      dsimp only
      rw [if_neg (by rw [hconfig]; exact hhere), hget]
    rw [App.ctxCallNameNolock, hroute]
    dsimp only
    rw [hpeers t b hpeer, exec_ofReply hhere,
      rpcCtxCallName_eq hb (Cluster.getHandle_peer hd ha hb hh hhere) hlive]

end

/-! ## A call of the function -/

/-- A caller that awaits a call with the bytes of `rpc_encode` and takes the value with `as`. -/
def callAs (call : Bytes → Lazy W Exn RpcResult) (p : Params α) (wrap : γ → α) (args : Option γ)
    (typeName : Bytes) (codec : Packed β) (runtimeError : Bytes → Exn) : Lazy W Exn β := do
  let r ← call (rpcEncode wrap p args)
  r.as typeName codec runtimeError

/-- The exception of `as` when the call was executed on another node and threw. -/
def awayError (typeName : Bytes) (runtimeError : Bytes → Exn) : Exn :=
  runtimeError ((⟨-4, []⟩ : RpcResult).asError typeName)

theorem exec_callAs {here : Prop} [Decidable here] {call : Bytes → Lazy W Exn RpcResult}
    {ctx : RpcCtx W Exn} {funcName : Bytes}
    (hcall : ∀ paramData w, Lazy.exec (call paramData) w =
      replied here (Lazy.exec (App.callOn ctx funcName paramData) w))
    {p : Params α} {codec : Packed β} {func : Option α → Lazy W Exn β}
    (hfunc : ctx.router.lookup funcName = some (rpcCallFunc (.value codec.serialize) p.type func))
    (wrap : γ → α) {args : Option γ} (hargs : p.Accepts args) (typeName : Bytes)
    (runtimeError : Bytes → Exn) (w : W) :
    Lazy.exec (callAs call p wrap args typeName codec runtimeError) w =
      seen here (awayError typeName runtimeError) (Lazy.exec (func (args.map wrap)) w) := by
  rw [callAs, exec_bind, hcall, exec_callOn, hfunc]
  dsimp only
  rw [exec_rpcCallFunc codec p func wrap hargs w]
  rcases Lazy.exec (func (args.map wrap)) w with ⟨e | b, w'⟩
  · by_cases hhere : here
    · simp [replied, seen, hhere]
    · simp only [replied, seen, hhere, if_false]
      rfl
  · dsimp only [replied, seen]
    rw [as_serialize]
    rfl

/-- On every node of a cluster, a typed call of a function that is registered in a live context is a
call of the function: it has its effects on the world and returns its value.  An exception reaches a
caller on the node of the context as it is, and a caller on another node as the error of `as` for
the status -4.  The context is given by its id or by the name it is bound to. -/
theorem typed_call (cl : Cluster (RpcCtx W Exn)) (hd : CqyNode.Distinct cl.nodes) (k : UInt8)
    (a : App (RpcCtx W Exn)) (ha : cl.app k = .ok a) (peers : NodeT → App (RpcCtx W Exn))
    (hpeers : ∀ t b, cl.peer t = .ok b → peers t = b) (ctx : RpcCtx W Exn) (funcName : Bytes)
    (p : Params α) (codec : Packed β) (func : Option α → Lazy W Exn β)
    (hfunc : ctx.router.lookup funcName = some (rpcCallFunc (.value codec.serialize) p.type func))
    (wrap : γ → α) (args : Option γ) (hargs : p.Accepts args) (typeName : Bytes)
    (runtimeError : Bytes → Exn) (w : W) :
    (∀ toId, (∃ i ∈ cl.nodes, i.nodeid = (CqyHandle.mk toId).nodeid.toUInt32) →
      (cl.mgr (CqyHandle.mk toId).nodeid).getCtx toId = some ctx →
      Lazy.exec (callAs (a.ctxCallNolock peers toId funcName) p wrap args typeName codec
          runtimeError) w =
        seen ((CqyHandle.mk toId).nodeid = k) (awayError typeName runtimeError)
          (Lazy.exec (func (args.map wrap)) w)) ∧
      ∀ nodectx h name, a.getHandle nodectx = some (h, name) →
        (cl.mgr h.nodeid).getCtx ((cl.mgr h.nodeid).findName name) = some ctx →
        Lazy.exec (callAs (a.ctxCallNameNolock peers nodectx funcName) p wrap args typeName codec
            runtimeError) w =
          seen (h.nodeid = k) (awayError typeName runtimeError)
            (Lazy.exec (func (args.map wrap)) w) := by
  refine ⟨fun toId hnode hlive ↦ ?_, fun nodectx h name hh hlive ↦ ?_⟩
  · exact exec_callAs (exec_ctxCallNolock hd ha hpeers hnode hlive funcName) hfunc wrap hargs
      typeName runtimeError w
  · exact exec_callAs (exec_ctxCallNameNolock hd ha hpeers hh hlive funcName) hfunc wrap hargs
      typeName runtimeError w

/-- A byte, packed as itself. -/
def packedByte : Packed UInt8 where
  serialize b := [b]
  deserialize
    | [b] => .ok b
    | _ => .error (text "size")
  deserialize_serialize _ := rfl

/-- Counts its calls in the world, refuses 255 and otherwise adds one. -/
def countingNext (n : Option UInt8) : Lazy ℕ Bytes UInt8 := do
  modify (· + 1)
  match n with
  | some n => if n = 255 then throw (text "refused") else return n + 1
  | none => return 0

/-- A context that has registered the function under the name `f`. -/
def countingCtx : RpcCtx ℕ Bytes :=
  RpcCtx.registerRpcFunc ⟨0x01000001, ∅⟩ [102] (text "countingNext")
    (rpcCallFunc (.value packedByte.serialize) (Params.tuple packedByte).type countingNext)

theorem lookup_countingCtx : countingCtx.router.lookup [102] = some
    (rpcCallFunc (.value packedByte.serialize) (Params.tuple packedByte).type countingNext) := by
  rw [countingCtx, RpcCtx.lookup_registerRpcFunc]
  rfl

/-- The nodes 1 and 2; node 1 has this context, which is named `x`. -/
def countingCluster : Cluster (RpcCtx ℕ Bytes) where
  nodes := [⟨[110, 49], 1⟩, ⟨[110, 50], 2⟩]
  mgr n :=
    if n = 1 then
      ⟨1, AList.insert 0x01000001 countingCtx ∅,
        ⟨[([120], 0x01000001)], List.pairwise_singleton _ _⟩⟩
    else CtxMgr.empty

/-- Node 2 calls `n1.x`: the argument 4 comes back as 5, and 255 as the error of `as`. -/
theorem typed_call_counting : ∃ a, countingCluster.app 2 = .ok a ∧
    ∃ peers : NodeT → App (RpcCtx ℕ Bytes), (∀ t b, countingCluster.peer t = .ok b → peers t = b) ∧
      Lazy.exec (callAs (a.ctxCallNameNolock peers [110, 49, 46, 120] [102]) (.tuple packedByte) id
        (some 4) (text "h") packedByte id) 7 = (.ok 5, 8) ∧
      Lazy.exec (callAs (a.ctxCallNameNolock peers [110, 49, 46, 120] [102]) (.tuple packedByte) id
        (some 255) (text "h") packedByte id) 7 = (.error (awayError (text "h") id), 8) := by
  obtain ⟨b, hb⟩ : ∃ b, countingCluster.app 1 = .ok b := ⟨_, rfl⟩
  let peers : NodeT → App (RpcCtx ℕ Bytes) := fun t ↦ ((countingCluster.peer t).toOption).getD b
  have hpeers (t : NodeT) (c : App (RpcCtx ℕ Bytes)) (h : countingCluster.peer t = .ok c) :
      peers t = c := by
    simp [peers, h, Except.toOption]
  have hcall (n : UInt8) := (typed_call countingCluster ⟨by decide, by decide, by decide⟩ 2 _ rfl
    peers hpeers countingCtx [102] (.tuple packedByte) packedByte countingNext lookup_countingCtx id
    (some n) rfl (text "h") id 7).2 [110, 49, 46, 120] _ [120] rfl rfl
  exact ⟨_, rfl, peers, hpeers, (hcall 4).trans rfl, (hcall 255).trans rfl⟩

end Cqy
