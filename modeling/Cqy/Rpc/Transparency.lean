import Cqy.Rpc.Call

/-!
# Local and remote calls compared

`ctx_call_nolock` runs `rpc_ctx_call` inside the coroutine of the caller when the context is on the
caller's node, and through a client otherwise.  A context that is not there, a function that is not
registered and arguments that do not decode look the same on both ways.  An exception of the
function does not: locally it reaches the caller, remotely it becomes the status -4.
-/

namespace Cqy

open Foundation

variable {W Exn α β : Type}

/-- The outcome of a coroutine started in the world `w`, and the world it leaves. -/
def Lazy.exec (x : Lazy W Exn α) (w : W) : Except Exn α × W := StateT.run (ExceptT.run x) w

/-- What the caller of an RPC function sees: an exception, or a result, whose bytes count when its
status is 0. -/
inductive Observed (Exn : Type)
  | threw (e : Exn)
  | failed (status : Int8)
  | returned (res : Bytes)
deriving DecidableEq

def RpcResult.observed (r : RpcResult) : Observed Exn :=
  if r.status = 0 then .returned r.res else .failed r.status

def observe (x : Lazy W Exn RpcResult) (w : W) : Observed Exn :=
  match (x.exec w).1 with
  | .ok r => r.observed
  | .error e => .threw e

/-- The function registered under `funcName` throws on these bytes. -/
def RpcCtx.Throws (ctx : RpcCtx W Exn) (funcName paramData : Bytes) (w : W) : Prop :=
  ∃ call, ctx.router.lookup funcName = some call ∧ ∃ e, (Lazy.exec (call paramData) w).1 = .error e

/-! ## Running a coroutine -/

theorem exec_pure (a : α) (w : W) : Lazy.exec (pure a : Lazy W Exn α) w = (.ok a, w) := rfl

theorem exec_bind (x : Lazy W Exn α) (f : α → Lazy W Exn β) (w : W) :
    Lazy.exec (x >>= f) w =
      match x.exec w with
      | (.ok a, w') => (f a).exec w'
      | (.error e, w') => (.error e, w') := by
  rw [Lazy.exec, ExceptT.run_bind, StateT.run_bind]
  rcases h : x.exec w with ⟨_ | _, w'⟩ <;> rw [Lazy.exec] at h <;> rw [h] <;> rfl

theorem exec_remote (x : Lazy W Exn α) (w : W) :
    Lazy.exec (App.remote x) w =
      match x.exec w with
      | (.ok a, w') => (.ok (.value a), w')
      | (.error _, w') => (.ok .callError, w') := by
  have hvalue : Lazy.exec (Reply.value <$> x) w =
      match x.exec w with
      | (.ok a, w') => (.ok (.value a), w')
      | (.error e, w') => (.error e, w') := by
    rw [map_eq_pure_bind, exec_bind]
    rfl
  have hcatch : Lazy.exec (App.remote x) w =
      match Lazy.exec (Reply.value <$> x) w with
      | (.ok a, w') => (.ok a, w')
      | (.error _, w') => (.ok .callError, w') := by
    rw [Lazy.exec, App.remote, ExceptT.run_tryCatch, StateT.run_bind]
    rcases h : Lazy.exec (Reply.value <$> x) w with ⟨_ | _, w'⟩ <;>
      rw [Lazy.exec] at h <;> rw [h] <;> rfl
  rw [hcatch, hvalue]
  rcases x.exec w with ⟨_ | _, w'⟩ <;> rfl

theorem exec_callOn (ctx : RpcCtx W Exn) (funcName paramData : Bytes) (w : W) :
    Lazy.exec (App.callOn ctx funcName paramData) w =
      match ctx.router.lookup funcName with
      | some call => Lazy.exec (call paramData) w
      | none => (.ok (App.funcNameMiss funcName), w) := by
  rw [App.callOn, exec_bind, RpcCtx.rpcOnCall]
  cases ctx.router.lookup funcName with
  | none => rfl
  | some call =>
    dsimp only
    rw [exec_bind]
    rcases Lazy.exec (call paramData) w with ⟨_ | _, w'⟩ <;> rfl

/-- A registered function throws on bytes that decode, when the function itself does. -/
theorem rpcCallFunc_throws_iff (ret : ReturnType β) (param : ParamType α)
    (func : Option α → Lazy W Exn β) (str : Bytes) (w : W) (e : Exn) :
    (Lazy.exec (rpcCallFunc ret param func str) w).1 = .error e ↔
      ∃ args, (match param with
        | .void => args = none
        | .tuple deserialize => ∃ a, deserialize str = some a ∧ args = some a) ∧
      (Lazy.exec (func args) w).1 = .error e := by
  have hrun (args : Option α) (g : β → RpcResult) :
      (Lazy.exec (g <$> func args) w).1 = .error e ↔ (Lazy.exec (func args) w).1 = .error e := by
    rw [map_eq_pure_bind, exec_bind]
    rcases Lazy.exec (func args) w with ⟨_ | _, w'⟩ <;> simp [exec_pure]
  cases param with
  | void => cases ret <;> simp [rpcCallFunc, hrun]
  | tuple deserialize =>
    cases hargs : deserialize str with
    | none => cases ret <;> simp [rpcCallFunc, hargs, exec_pure]
    | some args => cases ret <;> simp [rpcCallFunc, hargs, hrun]

/-! ## The two ways -/

theorem ctxCallNolock_home {a : App (RpcCtx W Exn)} (peers : NodeT → App (RpcCtx W Exn))
    {toId : UInt32} {ctx : RpcCtx W Exn} (hnode : (CqyHandle.mk toId).nodeid = a.config.nodeid)
    (hlive : a.mgr.getCtx toId = some ctx) (funcName paramData : Bytes) :
    a.ctxCallNolock peers toId funcName paramData = App.callOn ctx funcName paramData := by
  rw [App.ctxCallNolock, if_pos hnode, App.rpcCtxCall, if_neg (not_not.mpr hnode), hlive]

theorem exec_ctxCallNolock_away {a : App (RpcCtx W Exn)} {peers : NodeT → App (RpcCtx W Exn)}
    {toId : UInt32} {ctx : RpcCtx W Exn} {t : NodeT}
    (haway : (CqyHandle.mk toId).nodeid ≠ a.config.nodeid)
    (hpeer : a.node.getNode (CqyHandle.mk toId).nodeid = some t)
    (hnode : (CqyHandle.mk toId).nodeid = (peers t).config.nodeid)
    (hlive : (peers t).mgr.getCtx toId = some ctx) (funcName paramData : Bytes) (w : W) :
    Lazy.exec (a.ctxCallNolock peers toId funcName paramData) w =
      match Lazy.exec (App.callOn ctx funcName paramData) w with
      | (.ok r, w') => (.ok r, w')
      | (.error _, w') => (.ok ⟨-4, []⟩, w') := by
  rw [App.ctxCallNolock, if_neg haway, hpeer]
  dsimp only
  rw [exec_bind, exec_remote, App.rpcCtxCall, if_neg (not_not.mpr hnode), hlive]
  dsimp only
  rcases Lazy.exec (App.callOn ctx funcName paramData) w with ⟨_ | _, w'⟩ <;> rfl

/-- The caller sees the same on the node of a live context and on another node that reaches it,
exactly when the called function does not throw. -/
theorem ctxCall_transparent_iff (home away : App (RpcCtx W Exn))
    (peers peers' : NodeT → App (RpcCtx W Exn)) (toId : UInt32) (ctx : RpcCtx W Exn) (t : NodeT)
    (hhome : (CqyHandle.mk toId).nodeid = home.config.nodeid)
    (hlive : home.mgr.getCtx toId = some ctx)
    (haway : away.config.nodeid ≠ home.config.nodeid)
    (hnode : away.node.getNode home.config.nodeid = some t) (hpeer : peers' t = home)
    (funcName paramData : Bytes) (w : W) :
    observe (home.ctxCallNolock peers toId funcName paramData) w =
        observe (away.ctxCallNolock peers' toId funcName paramData) w ↔
      ¬ ctx.Throws funcName paramData w := by
  subst hpeer
  have hlocal := ctxCallNolock_home peers hhome hlive funcName paramData
  have hremote := exec_ctxCallNolock_away (by rw [hhome]; exact haway.symm)
    (by rw [hhome]; exact hnode) hhome hlive funcName paramData w
  rw [observe, observe, hlocal, hremote, exec_callOn, RpcCtx.Throws]
  cases hcall : ctx.router.lookup funcName with
  | none => simp
  | some call =>
    rcases hexec : Lazy.exec (call paramData) w with ⟨e | r, w'⟩
    · simp [hexec, RpcResult.observed]
    · simp [hexec]

/-! ## A function that throws -/

/-- Node 1 with one context, whose function `f` throws and whose function `g` returns a byte. -/
def throwingHome : App (RpcCtx Unit String) where
  config := ⟨1, [⟨[110, 49], 1⟩, ⟨[110, 50], 2⟩]⟩
  node := ⟨1, [⟨⟨[110, 50], 2⟩, true⟩, ⟨⟨[110, 49], 1⟩, false⟩]⟩
  mgr := CtxMgr.empty.addCtx 0x01000001
    ⟨0x01000001, (AList.insert [102] (rpcCallFunc (β := Unit) (α := Unit) .void .void
      fun _ ↦ throw "refused") ∅).insert [103] (rpcCallFunc (α := Unit) (.value fun b ↦ [b]) .void
        fun _ ↦ return 7)⟩

/-- Node 2 of the same configuration. -/
def throwingAway : App (RpcCtx Unit String) where
  config := ⟨2, [⟨[110, 49], 1⟩, ⟨[110, 50], 2⟩]⟩
  node := ⟨2, [⟨⟨[110, 49], 1⟩, true⟩, ⟨⟨[110, 50], 2⟩, false⟩]⟩
  mgr := CtxMgr.empty

/-- On its own node the exception of `f` reaches the caller, from node 2 the call returns the status
-4. -/
theorem ctxCall_throwing :
    observe (throwingHome.ctxCallNolock (fun _ ↦ throwingAway) 0x01000001 [102] []) () =
      .threw "refused" ∧
    observe (throwingAway.ctxCallNolock (fun _ ↦ throwingHome) 0x01000001 [102] []) () =
      .failed (-4) ∧
    observe (throwingHome.ctxCallNolock (fun _ ↦ throwingAway) 0x01000001 [102] []) () ≠
      observe (throwingAway.ctxCallNolock (fun _ ↦ throwingHome) 0x01000001 [102] []) () :=
  ⟨rfl, rfl, fun h ↦ nomatch (show Observed.threw "refused" = .failed (-4) from h)⟩

/-- The result of `g` is the same for both. -/
theorem ctxCall_transparent_returning :
    observe (throwingHome.ctxCallNolock (fun _ ↦ throwingAway) 0x01000001 [103] []) () =
      observe (throwingAway.ctxCallNolock (fun _ ↦ throwingHome) 0x01000001 [103] []) () := by
  refine (ctxCall_transparent_iff throwingHome throwingAway _ _ 0x01000001 _ _ rfl rfl (by decide)
    rfl rfl [103] [] ()).mpr ?_
  rintro ⟨call, hcall, e, he⟩
  obtain rfl := Option.some.inj hcall
  exact nomatch (show Except.ok _ = .error e from he)

end Cqy
