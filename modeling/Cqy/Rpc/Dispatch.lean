import Cqy.Foundation.Keys
import Cqy.Rpc.Transparency

/-!
# When a handler runs

A call of a registered function goes through the address of the context, the function table of the
context and the decoder of the parameters.  Here a function leaves an entry in a log when it is run,
so that the outcome of `rpc_ctx_call` and `rpc_ctx_call_name` can be compared with what the call
asked for.
-/

namespace Cqy

open Foundation

/-- A function that `register_rpc_func` takes. -/
structure RpcFunc (W Exn : Type) where
  {α : Type}
  {β : Type}
  ret : ReturnType β
  param : ParamType α
  func : Option α → Lazy W Exn β

/-- A `cqy_ctx` with its function table. -/
structure FuncCtx (W Exn : Type) where
  id : UInt32
  funcs : AList fun _ : Bytes ↦ RpcFunc W Exn

/-- An entry of the log: the id of a context and the name of a function in its table. -/
abbrev CallTag := UInt32 × Bytes

variable {W Exn α β : Type}

/-- A coroutine that is logged when it runs. -/
def traced (tag : CallTag) (x : Lazy W Exn α) : Lazy (W × List CallTag) Exn α :=
  ExceptT.mk fun p ↦ ((x.exec p.1).1, ((x.exec p.1).2, p.2 ++ [tag]))

namespace RpcFunc

/-- The router entry of a function. -/
def call (F : RpcFunc W Exn) (tag : CallTag) : RpcCall (W × List CallTag) Exn :=
  rpcCallFunc F.ret F.param fun args ↦ traced tag (F.func args)

/-- The bytes encode the parameters: for a function without parameters there are none. -/
def Decodes (F : RpcFunc W Exn) (bytes : Bytes) : Prop :=
  match F.param with
  | .void => bytes = []
  | .tuple deserialize => (deserialize bytes).isSome

/-- `rpc_call_func` goes on to the function: it has no parameters, or the bytes decode. -/
def Accepts (F : RpcFunc W Exn) (bytes : Bytes) : Prop :=
  match F.param with
  | .void => True
  | .tuple deserialize => (deserialize bytes).isSome

def HasParams (F : RpcFunc W Exn) : Prop :=
  match F.param with
  | .void => False
  | .tuple _ => True

instance (F : RpcFunc W Exn) (bytes : Bytes) : Decidable (F.Decodes bytes) :=
  match h : F.param with
  | .void => decidable_of_iff (bytes = []) (by rw [Decodes, h])
  | .tuple deserialize => decidable_of_iff (deserialize bytes).isSome (by rw [Decodes, h])

instance (F : RpcFunc W Exn) (bytes : Bytes) : Decidable (F.Accepts bytes) :=
  match h : F.param with
  | .void => decidable_of_iff True (by rw [Accepts, h])
  | .tuple deserialize => decidable_of_iff (deserialize bytes).isSome (by rw [Accepts, h])

theorem decodes_iff (F : RpcFunc W Exn) (bytes : Bytes) :
    F.Decodes bytes ↔ F.Accepts bytes ∧ (F.HasParams ∨ bytes = []) := by
  rw [Decodes, Accepts, HasParams]
  cases F.param <;> simp

end RpcFunc

/-- The context as `rpc_on_call` sees it. -/
def FuncCtx.toRpc (c : FuncCtx W Exn) : RpcCtx (W × List CallTag) Exn :=
  ⟨c.id, mapValues (fun name F ↦ F.call (c.id, name)) c.funcs⟩

/-- The registry with other context pointers. -/
def CtxMgr.map {C D : Type*} (f : C → D) (m : CtxMgr C) : CtxMgr D :=
  ⟨m.allocid, mapValues (fun _ ↦ f) m.ctxs, m.names⟩

/-- The application as the RPC functions see it. -/
def App.toRpc (a : App (FuncCtx W Exn)) : App (RpcCtx (W × List CallTag) Exn) :=
  ⟨a.config, a.node, a.mgr.map FuncCtx.toRpc⟩

namespace App

variable {C : Type*}

/-- The context that an id means: one of this node. -/
def idTarget (a : App C) (toId : UInt32) : Option C :=
  if (CqyHandle.mk toId).nodeid = a.config.nodeid then a.mgr.getCtx toId else none

/-- The context that a string means: one of this node, whose id the name is bound to. -/
def nameTarget (a : App C) (nodectx : Bytes) : Option C :=
  match a.getHandle nodectx with
  | none => none
  | some (h, name) =>
    if h.nodeid = a.config.nodeid then (a.mgr.names.find name).bind a.mgr.getCtx else none

/-- The context that a call with a name of this node that is bound to nothing reaches. -/
def zeroTarget (a : App C) (nodectx : Bytes) : Option C :=
  match a.getHandle nodectx with
  | none => none
  | some (h, name) =>
    if h.nodeid = a.config.nodeid ∧ a.mgr.names.find name = none then a.mgr.getCtx 0 else none

end App

/-- The run that a call asks for: the one of the function that is registered under the name in the
context that is meant, if the bytes encode its parameters. -/
def due (target : Option (FuncCtx W Exn)) (funcName bytes : Bytes) : List CallTag :=
  match target with
  | none => []
  | some ctx =>
    match ctx.funcs.lookup funcName with
    | none => []
    | some F => if F.Decodes bytes then [(ctx.id, funcName)] else []

/-- What is promised of the outcome of a call: the run that it asks for took place and no other; if
it asks for none, the status is not 0; and the status is 0 exactly if a function ran and
returned. -/
structure RunsAsDue (target : Option (FuncCtx W Exn)) (funcName bytes : Bytes)
    (outcome : Except Exn RpcResult × W × List CallTag) : Prop where
  log : outcome.2.2 = due target funcName bytes
  refused : due target funcName bytes = [] → ∃ result, outcome.1 = .ok result ∧ result.status ≠ 0
  status : ∀ result, outcome.1 = .ok result → (result.status = 0 ↔ outcome.2.2 ≠ [])

/-! ## Running a logged function -/

theorem CtxMgr.getCtx_map {C D : Type*} (f : C → D) (m : CtxMgr C) (id : UInt32) :
    (m.map f).getCtx id = (m.getCtx id).map f :=
  lookup_mapValues _ _ id

theorem exec_traced (tag : CallTag) (x : Lazy W Exn α) (w : W) (log : List CallTag) :
    Lazy.exec (traced tag x) (w, log) = ((x.exec w).1, (x.exec w).2, log ++ [tag]) := rfl

/-- A function that is called runs once if `rpc_call_func` goes on to it, and then the status is 0
unless it throws; otherwise nothing runs and the status is -3. -/
theorem RpcFunc.exec_call (F : RpcFunc W Exn) (tag : CallTag) (bytes : Bytes) (w : W) :
    (F.Accepts bytes ∧ (Lazy.exec (F.call tag bytes) (w, [])).2.2 = [tag] ∧
      ∀ result, (Lazy.exec (F.call tag bytes) (w, [])).1 = .ok result → result.status = 0) ∨
    (¬ F.Accepts bytes ∧ Lazy.exec (F.call tag bytes) (w, []) = (.ok ⟨-3, []⟩, w, [])) := by
  have hrun (args : Option F.α) (g : F.β → RpcResult) (hg : ∀ out, (g out).status = 0) :
      (Lazy.exec (g <$> traced tag (F.func args)) (w, [])).2.2 = [tag] ∧
        ∀ result, (Lazy.exec (g <$> traced tag (F.func args)) (w, [])).1 = .ok result →
          result.status = 0 := by
    rw [map_eq_pure_bind, exec_bind, exec_traced]
    rcases Lazy.exec (F.func args) w with ⟨e | out, w'⟩
    · exact ⟨rfl, fun result hresult ↦ absurd hresult (by simp)⟩
    · refine ⟨rfl, fun result hresult ↦ ?_⟩
      obtain rfl := Except.ok.inj hresult
      exact hg out
  rw [call, Accepts]
  cases F.param with
  | void =>
    refine Or.inl ⟨trivial, ?_⟩
    cases F.ret with
    | void => exact hrun none (fun _ ↦ ⟨0, []⟩) fun _ ↦ rfl
    | value serialize => exact hrun none (fun out ↦ ⟨0, serialize out⟩) fun _ ↦ rfl
  | tuple deserialize =>
    cases hargs : deserialize bytes with
    | none =>
      refine Or.inr ⟨by simp [hargs], ?_⟩
      cases F.ret <;> rw [rpcCallFunc, hargs] <;> rfl
    | some args =>
      refine Or.inl ⟨by simp [hargs], ?_⟩
      cases F.ret with
      | void =>
        rw [rpcCallFunc, hargs]
        exact hrun (some args) (fun _ ↦ ⟨0, []⟩) fun _ ↦ rfl
      | value serialize =>
        rw [rpcCallFunc, hargs]
        exact hrun (some args) (fun out ↦ ⟨0, serialize out⟩) fun _ ↦ rfl

/-! ## The two entry points -/

theorem due_of_lookup {ctx : FuncCtx W Exn} {funcName : Bytes} {F : RpcFunc W Exn}
    (hF : ctx.funcs.lookup funcName = some F) (bytes : Bytes) :
    due (some ctx) funcName bytes = if F.Decodes bytes then [(ctx.id, funcName)] else [] := by
  rw [due, hF]

theorem App.getCtx_toRpc (a : App (FuncCtx W Exn)) (id : UInt32) :
    a.toRpc.mgr.getCtx id = (a.mgr.getCtx id).map FuncCtx.toRpc :=
  a.mgr.getCtx_map _ id

theorem runsAsDue_error {target : Option (FuncCtx W Exn)} {funcName bytes : Bytes}
    (hdue : due target funcName bytes = []) {result : RpcResult} (hstatus : result.status ≠ 0)
    (w : W) : RunsAsDue target funcName bytes (.ok result, w, []) where
  log := hdue.symm
  refused _ := ⟨result, rfl, hstatus⟩
  status result' heq := by
    obtain rfl := Except.ok.inj heq
    exact iff_of_false hstatus (not_not.mpr rfl)

/-- A call that reaches a context is right if the function that runs there, if one does, is the one
that was asked for, on bytes that encode its parameters. -/
theorem runsAsDue_callOn {target : Option (FuncCtx W Exn)} {ctx : FuncCtx W Exn}
    (htarget : target = some ctx ∨ target = none) (funcName bytes : Bytes) (w : W) :
    RunsAsDue target funcName bytes
        (Lazy.exec (App.callOn ctx.toRpc funcName bytes) (w, [])) ↔
      ∀ F ∈ ctx.funcs.lookup funcName, F.Accepts bytes → target = some ctx ∧ F.Decodes bytes := by
  rw [exec_callOn, FuncCtx.toRpc, lookup_mapValues]
  cases hF : ctx.funcs.lookup funcName with
  | none =>
    refine iff_of_true (runsAsDue_error ?_ (by simp [App.funcNameMiss]) w) (by simp)
    rcases htarget with rfl | rfl
    · rw [due, hF]
    · rfl
  | some F =>
    simp only [Option.map_some, Option.mem_some_iff, forall_eq']
    rcases F.exec_call (ctx.id, funcName) bytes w with ⟨hacc, hlog, hok⟩ | ⟨hacc, hexec⟩
    · rw [imp_iff_right hacc]
      constructor
      · intro h
        have hdue := hlog.symm.trans h.log
        rcases htarget with rfl | rfl
        · rw [due_of_lookup hF] at hdue
          split_ifs at hdue with hdec
          exact ⟨rfl, hdec⟩
        · exact absurd hdue (by simp [due])
      · rintro ⟨rfl, hdec⟩
        have hdue : due (some ctx) funcName bytes = [(ctx.id, funcName)] := by
          rw [due_of_lookup hF, if_pos hdec]
        refine ⟨hlog.trans hdue.symm, fun hnil ↦ absurd (hdue.symm.trans hnil) (by simp),
          fun result hresult ↦ iff_of_true (hok result hresult) ?_⟩
        rw [hlog]
        exact List.cons_ne_nil _ _
    · rw [hexec]
      refine iff_of_true (runsAsDue_error ?_ (by decide) w) fun h ↦ absurd h hacc
      rcases htarget with rfl | rfl
      · rw [due_of_lookup hF, if_neg fun hdec ↦ hacc ((F.decodes_iff bytes).mp hdec).1]
      · rfl

/-- The function that is asked for has parameters, or there are no bytes. -/
def NoStrayBytes (target : Option (FuncCtx W Exn)) (funcName bytes : Bytes) : Prop :=
  ∀ ctx ∈ target, ∀ F ∈ ctx.funcs.lookup funcName, F.HasParams ∨ bytes = []

/-- The context has no function of that name that accepts the bytes. -/
def Declines (reached : Option (FuncCtx W Exn)) (funcName bytes : Bytes) : Prop :=
  ∀ ctx ∈ reached, ∀ F ∈ ctx.funcs.lookup funcName, ¬ F.Accepts bytes

/-- A call that reaches no context, where none is meant. -/
theorem runsAsDue_none {result : RpcResult} (hstatus : result.status ≠ 0) (funcName bytes : Bytes)
    (w : W) : RunsAsDue (none : Option (FuncCtx W Exn)) funcName bytes
      (Lazy.exec (pure result) (w, [])) :=
  runsAsDue_error rfl hstatus w

@[simp] theorem noStrayBytes_none (funcName bytes : Bytes) :
    NoStrayBytes (none : Option (FuncCtx W Exn)) funcName bytes := by
  simp [NoStrayBytes]

@[simp] theorem declines_none (funcName bytes : Bytes) :
    Declines (none : Option (FuncCtx W Exn)) funcName bytes := by
  simp [Declines]

theorem accepts_imp_iff (F : RpcFunc W Exn) (bytes : Bytes) :
    (F.Accepts bytes → F.Decodes bytes) ↔ F.HasParams ∨ bytes = [] := by
  rw [RpcFunc.decodes_iff, RpcFunc.Accepts, RpcFunc.HasParams]
  cases F.param <;> simp

theorem runsAsDue_target (ctx : FuncCtx W Exn) (funcName bytes : Bytes) (w : W) :
    RunsAsDue (some ctx) funcName bytes
        (Lazy.exec (App.callOn ctx.toRpc funcName bytes) (w, [])) ↔
      NoStrayBytes (some ctx) funcName bytes := by
  rw [runsAsDue_callOn (Or.inl rfl), NoStrayBytes]
  simp only [true_and, accepts_imp_iff, Option.mem_some_iff, forall_eq']

namespace App

theorem rpcCtxCall_runsAsDue_iff (a : App (FuncCtx W Exn)) (toId : UInt32) (funcName bytes : Bytes)
    (w : W) :
    RunsAsDue (a.idTarget toId) funcName bytes
        (Lazy.exec (a.toRpc.rpcCtxCall toId funcName bytes) (w, [])) ↔
      NoStrayBytes (a.idTarget toId) funcName bytes := by
  have hmiss : RunsAsDue (none : Option (FuncCtx W Exn)) funcName bytes
      (Lazy.exec (pure (idMiss toId)) (w, [])) :=
    runsAsDue_none (by simp [idMiss]) funcName bytes w
  rw [rpcCtxCall, idTarget]
  by_cases hnode : (CqyHandle.mk toId).nodeid = a.config.nodeid
  · have hnode' : ¬ (CqyHandle.mk toId).nodeid ≠ a.toRpc.config.nodeid := not_not.mpr hnode
    rw [if_pos hnode, if_neg hnode', a.getCtx_toRpc]
    cases a.mgr.getCtx toId with
    | none => exact iff_of_true hmiss (noStrayBytes_none _ _)
    | some ctx => exact runsAsDue_target ctx funcName bytes w
  · have hnode' : (CqyHandle.mk toId).nodeid ≠ a.toRpc.config.nodeid := hnode
    rw [if_neg hnode, if_pos hnode']
    exact iff_of_true hmiss (noStrayBytes_none _ _)

theorem rpcCtxCallName_runsAsDue_iff (a : App (FuncCtx W Exn)) (nodectx funcName bytes : Bytes)
    (w : W) :
    RunsAsDue (a.nameTarget nodectx) funcName bytes
        (Lazy.exec (a.toRpc.rpcCtxCallName nodectx funcName bytes) (w, [])) ↔
      NoStrayBytes (a.nameTarget nodectx) funcName bytes ∧
        Declines (a.zeroTarget nodectx) funcName bytes := by
  have hmiss (text : Bytes) :
      RunsAsDue (none : Option (FuncCtx W Exn)) funcName bytes
          (Lazy.exec (pure ⟨-1, text⟩) (w, [])) ↔
        NoStrayBytes (none : Option (FuncCtx W Exn)) funcName bytes ∧
          Declines (none : Option (FuncCtx W Exn)) funcName bytes :=
    iff_of_true (runsAsDue_none (by simp) funcName bytes w) (by simp)
  have hhandle : a.toRpc.getHandle nodectx = a.getHandle nodectx := rfl
  rw [rpcCtxCallName, rpcCtxCallNameTarget, nameTarget, zeroTarget, hhandle]
  cases a.getHandle nodectx with
  | none => exact hmiss _
  | some p =>
    obtain ⟨h, name⟩ := p
    dsimp only
    by_cases hnode : h.nodeid = a.config.nodeid
    · have hnode' : ¬ h.nodeid ≠ a.toRpc.config.nodeid := not_not.mpr hnode
      have hname : a.toRpc.mgr.findName name = a.mgr.findName name := rfl
      rw [if_neg hnode', a.getCtx_toRpc, hname, if_pos hnode, CtxMgr.findName]
      cases hfind : a.mgr.names.find name with
      | some id =>
        rw [Option.getD_some, Option.bind_some, if_neg (by simp)]
        cases a.mgr.getCtx id with
        | none => exact hmiss _
        | some ctx =>
          refine (runsAsDue_target ctx funcName bytes w).trans ?_
          rw [and_iff_left (declines_none _ _)]
      | none =>
        rw [Option.getD_none, Option.bind_none, if_pos ⟨hnode, rfl⟩]
        cases a.mgr.getCtx 0 with
        | none => exact hmiss _
        | some ctx =>
          refine (runsAsDue_callOn (Or.inr rfl) funcName bytes w).trans ?_
          simp [NoStrayBytes, Declines]
    · have hnode' : h.nodeid ≠ a.toRpc.config.nodeid := hnode
      rw [if_pos hnode', if_neg hnode, if_neg fun hboth ↦ hnode hboth.1]
      exact hmiss _

/-- For every registry, every function table and every call: `rpc_ctx_call` and `rpc_ctx_call_name`
run what the call asks for, and answer accordingly, exactly if a function without parameters gets no
bytes and a name that is bound to nothing does not lead to a function of a context with the id 0. -/
theorem rpc_runsAsDue_iff (a : App (FuncCtx W Exn)) (toId : UInt32)
    (nodectx funcName bytes : Bytes) (w : W) :
    (RunsAsDue (a.idTarget toId) funcName bytes
        (Lazy.exec (a.toRpc.rpcCtxCall toId funcName bytes) (w, [])) ↔
      NoStrayBytes (a.idTarget toId) funcName bytes) ∧
    (RunsAsDue (a.nameTarget nodectx) funcName bytes
        (Lazy.exec (a.toRpc.rpcCtxCallName nodectx funcName bytes) (w, [])) ↔
      NoStrayBytes (a.nameTarget nodectx) funcName bytes ∧
        Declines (a.zeroTarget nodectx) funcName bytes) :=
  ⟨a.rpcCtxCall_runsAsDue_iff toId funcName bytes w,
    a.rpcCtxCallName_runsAsDue_iff nodectx funcName bytes w⟩

/-- Node 1 with one context, whose function `f` takes no parameters. -/
def pingApp : App (FuncCtx Unit String) where
  config := ⟨1, [⟨[110, 49], 1⟩]⟩
  node := ⟨1, [⟨⟨[110, 49], 1⟩, false⟩]⟩
  mgr := CtxMgr.empty.addCtx 0x01000001 ⟨0x01000001, AList.insert [102]
    { α := Unit, β := Unit, ret := .void, param := .void, func := fun _ ↦ return () } ∅⟩

/-- A byte that is no parameter of `f` does not keep `f` from running: the status is 0. -/
theorem rpc_strayByte :
    Lazy.exec (pingApp.toRpc.rpcCtxCall 0x01000001 [102] [7]) ((), []) =
      (.ok ⟨0, []⟩, (), [(0x01000001, [102])]) ∧
    due (pingApp.idTarget 0x01000001) [102] [7] = [] ∧
    ¬ RunsAsDue (pingApp.idTarget 0x01000001) [102] [7]
      (Lazy.exec (pingApp.toRpc.rpcCtxCall 0x01000001 [102] [7]) ((), [])) :=
  ⟨rfl, rfl, fun h ↦ nomatch
    (show [((0x01000001 : UInt32), ([102] : Bytes))] = [] from h.log)⟩

end App

end Cqy
