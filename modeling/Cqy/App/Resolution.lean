import Cqy.Ctx.Dispatch
import Cqy.Registry.CreateCtx
import Cqy.Rpc.Call
import Cqy.Wire.RoundTrip

/-!
# Three ways to resolve a name

A string `node.ctx` is resolved by `dispatch`, by `rpc_find_ctx` and by `ctx_call_name`.  Each has
its own test for the own node: `dispatch` also treats node 0 as the own one, and it sends a missing
name to the id 0, which belongs to node 0; on the way to another node it cuts the length of the name
to eight bits.  The cluster below is a set of nodes that share one configuration, over a transport
that delivers, and this module says for which inputs the three agree.
-/

namespace Cqy

open Foundation Foundation.Bytes

/-- Nodes that run with the same list of nodes, each with its own registry. -/
structure Cluster (C : Type*) where
  nodes : List NodeInfo
  mgr : UInt8 → CtxMgr C

namespace Cluster

variable {C : Type*}

/-- The application that `start` sets up with the own id `k`. -/
def app (cl : Cluster C) (k : UInt8) : Except String (App C) :=
  match CqyNode.start ⟨k, cl.nodes⟩ with
  | .ok node => .ok ⟨⟨k, cl.nodes⟩, node, cl.mgr k⟩
  | .error e => .error e

/-- The application that the client of a node is connected to. -/
def peer (cl : Cluster C) (t : NodeT) : Except String (App C) := cl.app t.info.nodeid.toUInt8

/-- The context whose queue gets a message that `node_mq_push` takes on the node `a`. -/
def deliver (cl : Cluster C) (a : App C) (msg : CqyStr) : Option C :=
  match a.nodeMqPush msg with
  | .drop => none
  | .ctx ctx => some ctx
  | .peer n =>
    match cl.peer n with
    | .error _ => none
    | .ok b => ((App.rpcOnMq b.mgr [msg]).head?).map Prod.fst

/-- The context whose queue gets the message of a `dispatch` on the node `a`, by the context `self`
whose counter stands at `session`. -/
def viaDispatch (cl : Cluster C) (a : App C) (fill : ℕ → UInt8) (self session : UInt32)
    (nodectx : Bytes) (t : UInt8) (data : Bytes) : Option C :=
  (dispatchName a fill self session nodectx t data).msg.bind (cl.deliver a)

/-- The id that `rpc_find_ctx` returns on the node `a`, unless the query is still being forwarded
after `hops` nodes. -/
def findCtx (cl : Cluster C) : (hops : ℕ) → App C → Bytes → Option UInt32
  | 0, _, _ => none
  | hops + 1, a, nodectx =>
    match a.rpcFindCtx nodectx with
    | .answer id => some id
    | .forward n =>
      match cl.peer n with
      | .error _ => some 0
      | .ok b => findCtx cl hops b nodectx

/-- The context with an id that `rpc_find_ctx` returned, where 0 stands for none. -/
def ctxOf (cl : Cluster C) (id : UInt32) : Option C :=
  if id = 0 then none else (cl.mgr (CqyHandle.mk id).nodeid).getCtx id

/-- The context on which a `ctx_call_name` on the node `a` looks up the function. -/
def viaCall (cl : Cluster C) (a : App C) (nodectx : Bytes) : Option C :=
  match a.ctxCallNameRoute nodectx with
  | .error _ => none
  | .ok none => (a.rpcCtxCallNameTarget nodectx).toOption
  | .ok (some n) =>
    match cl.peer n with
    | .error _ => none
    | .ok b => (b.rpcCtxCallNameTarget nodectx).toOption

/-- Every name is bound to the id of a live context, and ids carry their node and belong to one
context. -/
structure Bound (cl : Cluster C) (getid : C → UInt32) : Prop where
  live : ∀ n name id, (name, id) ∈ (cl.mgr n).names.entries → ((cl.mgr n).getCtx id).isSome
  id : ∀ n id c, (cl.mgr n).getCtx id = some c → getid c = id ∧ (CqyHandle.mk id).nodeid = n

/-- The context that a message to the id 0 reaches: the one with it, if node 0 is configured. -/
def zeroCtx (cl : Cluster C) : Option C :=
  if ∃ i ∈ cl.nodes, i.nodeid = 0 then (cl.mgr 0).getCtx 0 else none

/-- The id under which node `n` looks for a name that arrived with its length cut to eight bits. -/
def cutTarget (cl : Cluster C) (n : UInt8) (name : Bytes) : UInt32 :=
  if name.length % 256 = 0 then ((⟨0⟩ : CqyHandle).setNodeid n).id
  else (cl.mgr n).findName (name.take (name.length % 256))

/-- What has to hold of the name `name` on node `n`, used on node `k`.  On the own node: the name
is bound to an id other than 0, or nothing has the id 0.  For node 0: the name is bound to no such
id, here or there, and nothing has the id 0.  For any other node: the name has less than 256 bytes,
or leads to the same context when it is cut. -/
def Unambiguous (cl : Cluster C) (k n : UInt8) (name : Bytes) : Prop :=
  if n = k then (cl.mgr k).findName name = 0 → cl.zeroCtx = none
  else if n = 0 then
    (cl.mgr k).findName name = 0 ∧ (cl.mgr 0).findName name = 0 ∧ cl.zeroCtx = none
  else
    name.length < 256 ∨
      (cl.mgr n).getCtx (cl.cutTarget n name) = (cl.mgr n).getCtx ((cl.mgr n).findName name)

/-! ## Handles -/

theorem app_eq_ok {cl : Cluster C} {k : UInt8} {a : App C} (ha : cl.app k = .ok a) :
    a.config = ⟨k, cl.nodes⟩ ∧ a.mgr = cl.mgr k ∧ CqyNode.start ⟨k, cl.nodes⟩ = .ok a.node := by
  rw [app] at ha
  split at ha
  · rename_i node hnode
    obtain rfl := Except.ok.inj ha
    exact ⟨rfl, rfl, hnode⟩
  · exact absurd ha (by simp)

theorem exists_app {cl : Cluster C} {i : NodeInfo} (h : CqyNode.Distinct cl.nodes)
    (hi : i ∈ cl.nodes) : ∃ b, cl.app i.nodeid.toUInt8 = .ok b := by
  have hid := CqyNode.toUInt32_toUInt8 (h.small i hi)
  obtain ⟨n, hn⟩ : ∃ n, CqyNode.start ⟨i.nodeid.toUInt8, cl.nodes⟩ = .ok n :=
    CqyNode.exists_start hi hid.symm
  exact ⟨_, by rw [app, hn]⟩

/-- `get_handle` splits the string and finds the configured node of that name, or the own one. -/
theorem getHandle_eq_some_iff {cl : Cluster C} (hd : CqyNode.Distinct cl.nodes) {k : UInt8}
    {a : App C} (ha : cl.app k = .ok a) {nodectx : Bytes} {h : CqyHandle} {name : Bytes} :
    a.getHandle nodectx = some (h, name) ↔
      (Algo.splitOne nodectx App.dot).2 = name ∧ name ≠ [] ∧ ∃ i ∈ cl.nodes,
        (if (Algo.splitOne nodectx App.dot).1 = [] then i.nodeid = k.toUInt32
          else i.name = (Algo.splitOne nodectx App.dot).1) ∧
        h = (⟨0⟩ : CqyHandle).setNodeid i.nodeid.toUInt8 := by
  obtain ⟨-, -, hstart⟩ := app_eq_ok ha
  have hinfo := CqyNode.getNodeByName_info hd hstart (Algo.splitOne nodectx App.dot).1
  rw [App.getHandle]
  by_cases hname : (Algo.splitOne nodectx App.dot).2 = []
  · rw [if_pos hname]
    simp only [reduceCtorEq, false_iff]
    rintro ⟨rfl, hne, -⟩
    exact hne hname
  rw [if_neg hname]
  cases hget : a.node.getNodeByName (Algo.splitOne nodectx App.dot).1 with
  | none =>
    rw [hget, Option.map_none, eq_comm, List.find?_eq_none] at hinfo
    simp only [reduceCtorEq, false_iff]
    rintro ⟨-, -, i, hi, hkey, -⟩
    exact hinfo i hi (by simpa using hkey)
  | some u =>
    rw [hget, Option.map_some, eq_comm] at hinfo
    have hu : u.info ∈ cl.nodes := List.mem_of_find?_eq_some hinfo
    have hkey : if (Algo.splitOne nodectx App.dot).1 = [] then u.info.nodeid = k.toUInt32
        else u.info.name = (Algo.splitOne nodectx App.dot).1 := by
      have hfound := List.find?_some hinfo
      split_ifs at hfound ⊢ <;> simpa using hfound
    simp only [Option.some.injEq, Prod.mk.injEq]
    constructor
    · rintro ⟨rfl, rfl⟩
      exact ⟨rfl, hname, u.info, hu, hkey, rfl⟩
    · rintro ⟨rfl, -, i, hi, hikey, rfl⟩
      obtain rfl : i = u.info := by
        by_cases hnode : (Algo.splitOne nodectx App.dot).1 = []
        · rw [if_pos hnode] at hkey hikey
          exact List.inj_on_of_nodup_map hd.ids hi hu (hikey.trans hkey.symm)
        · rw [if_neg hnode] at hkey hikey
          exact List.inj_on_of_nodup_map hd.names hi hu (hikey.trans hkey.symm)
      exact ⟨rfl, rfl⟩

/-- The node of a handle is configured, and without a node name it is the own one. -/
theorem getHandle_node {cl : Cluster C} (hd : CqyNode.Distinct cl.nodes) {k : UInt8} {a : App C}
    (ha : cl.app k = .ok a) {nodectx : Bytes} {h : CqyHandle} {name : Bytes}
    (hh : a.getHandle nodectx = some (h, name)) :
    (∃ i ∈ cl.nodes, i.nodeid = h.nodeid.toUInt32) ∧
      ((Algo.splitOne nodectx App.dot).1 = [] → h.nodeid = k) := by
  obtain ⟨-, -, i, hi, hkey, rfl⟩ := (getHandle_eq_some_iff hd ha).mp hh
  rw [CqyHandle.nodeid_setNodeid, CqyNode.toUInt32_toUInt8 (hd.small i hi)]
  refine ⟨⟨i, hi, rfl⟩, fun hnode ↦ ?_⟩
  rw [if_pos hnode] at hkey
  rw [hkey, CqyNode.toUInt8_toUInt32]

/-- A configured node other than the own one: it is found by its id, it has a client, and the
application behind the client runs with that id. -/
theorem getNode_away {cl : Cluster C} (hd : CqyNode.Distinct cl.nodes) {k n : UInt8} {a : App C}
    (ha : cl.app k = .ok a) (hn : ∃ i ∈ cl.nodes, i.nodeid = n.toUInt32) (hne : n ≠ k) :
    ∃ t b, a.node.getNode n = some t ∧ t.rpcClient = true ∧ cl.peer t = .ok b ∧
      cl.app n = .ok b := by
  obtain ⟨-, -, hstart⟩ := app_eq_ok ha
  obtain ⟨i, hi, hid⟩ := hn
  have hinfo := CqyNode.getNode_info hd.ids hstart n
  have hsome : (cl.nodes.find? fun i ↦ i.nodeid = n.toUInt32).isSome := by
    rw [List.find?_isSome]
    exact ⟨i, hi, by simpa using hid⟩
  rw [← hinfo, Option.isSome_map] at hsome
  obtain ⟨t, ht⟩ := Option.isSome_iff_exists.mp hsome
  have htid : t.info.nodeid = n.toUInt32 := by simpa using List.find?_some ht
  have happ : cl.peer t = cl.app n := by rw [peer, htid, CqyNode.toUInt8_toUInt32]
  obtain ⟨b, hb⟩ := exists_app hd hi
  rw [hid, CqyNode.toUInt8_toUInt32] at hb
  refine ⟨t, b, ht, ?_, happ.trans hb, hb⟩
  rw [(CqyNode.start_spec hd.ids hstart).2.2 t (List.mem_of_find?_eq_some ht), htid,
    decide_eq_true_eq, Ne, CqyNode.toUInt32_inj]
  exact hne

/-- All nodes split a string into the same handle, when it names a node. -/
theorem getHandle_peer {cl : Cluster C} (hd : CqyNode.Distinct cl.nodes) {k n : UInt8}
    {a b : App C} (ha : cl.app k = .ok a) (hb : cl.app n = .ok b) {nodectx : Bytes} {h : CqyHandle}
    {name : Bytes} (hh : a.getHandle nodectx = some (h, name)) (hne : h.nodeid ≠ k) :
    b.getHandle nodectx = some (h, name) := by
  have hnode := mt (getHandle_node hd ha hh).2 hne
  obtain ⟨hname, hnil, i, hi, hkey, rfl⟩ := (getHandle_eq_some_iff hd ha).mp hh
  rw [if_neg hnode] at hkey
  exact (getHandle_eq_some_iff hd hb).mpr ⟨hname, hnil, i, hi, by rwa [if_neg hnode], rfl⟩

/-! ## Names and ids -/

/-- A name that `find_name` finds is the name of a live context of the node. -/
theorem Bound.of_findName {cl : Cluster C} {getid : C → UInt32} (hb : cl.Bound getid) {n : UInt8}
    {name : Bytes} (h : (cl.mgr n).findName name ≠ 0) :
    ∃ ctx, (cl.mgr n).getCtx ((cl.mgr n).findName name) = some ctx ∧
      (CqyHandle.mk ((cl.mgr n).findName name)).nodeid = n := by
  cases hfind : (cl.mgr n).names.find name with
  | none =>
    rw [CtxMgr.findName, hfind] at h
    exact absurd rfl h
  | some id =>
    have hid : (cl.mgr n).findName name = id := by rw [CtxMgr.findName, hfind, Option.getD_some]
    obtain ⟨ctx, hctx⟩ := Option.isSome_iff_exists.mp
      (hb.live n name id (Table.find_eq_some_iff.mp hfind))
    rw [hid]
    exact ⟨ctx, hctx, (hb.id n id ctx hctx).2⟩

/-- Only node 0 has a context with the id 0. -/
theorem Bound.getCtx_zero {cl : Cluster C} {getid : C → UInt32} (hb : cl.Bound getid) {n : UInt8}
    (hn : n ≠ 0) : (cl.mgr n).getCtx 0 = none := by
  rw [Option.eq_none_iff_forall_ne_some]
  intro ctx hctx
  exact hn (hb.id n 0 ctx hctx).2.symm

/-- On a node other than 0, what `rpc_find_ctx` returns and what a call looks up are the same. -/
theorem ctxOf_findName {cl : Cluster C} {getid : C → UInt32} (hb : cl.Bound getid) {n : UInt8}
    {name : Bytes} (h : n ≠ 0 ∨ (cl.mgr n).findName name ≠ 0) :
    cl.ctxOf ((cl.mgr n).findName name) = (cl.mgr n).getCtx ((cl.mgr n).findName name) := by
  rw [ctxOf]
  by_cases hfind : (cl.mgr n).findName name = 0
  · rw [if_pos hfind, hfind, hb.getCtx_zero (h.resolve_right (not_not.mpr hfind))]
  · obtain ⟨ctx, -, hnode⟩ := hb.of_findName hfind
    rw [if_neg hfind, hnode]

/-! ## The three ways -/

/-- `rpc_find_ctx` is forwarded at most once and answers from the table of the named node. -/
theorem findCtx_eq {cl : Cluster C} (hd : CqyNode.Distinct cl.nodes) {k : UInt8} {a : App C}
    (ha : cl.app k = .ok a) {nodectx : Bytes} {h : CqyHandle} {name : Bytes}
    (hh : a.getHandle nodectx = some (h, name)) (hops : ℕ) :
    cl.findCtx (hops + 2) a nodectx = some ((cl.mgr h.nodeid).findName name) := by
  obtain ⟨hconfig, hmgr, -⟩ := app_eq_ok ha
  have hanswer {b : App C} (hb : cl.app h.nodeid = .ok b)
      (hbh : b.getHandle nodectx = some (h, name)) (hops : ℕ) :
      cl.findCtx (hops + 1) b nodectx = some ((cl.mgr h.nodeid).findName name) := by
    obtain ⟨hbconfig, hbmgr, -⟩ := app_eq_ok hb
    have hfind : b.rpcFindCtx nodectx = .answer ((cl.mgr h.nodeid).findName name) := by
      rw [App.rpcFindCtx, hbh, ← hbmgr]
      dsimp only
      rw [if_pos (by rw [hbconfig])]
    rw [findCtx, hfind]
  by_cases hnode : h.nodeid = k
  · exact hanswer (hnode ▸ ha) hh _
  · obtain ⟨t, b, hget, hclient, hpeer, hb⟩ :=
      getNode_away hd ha (getHandle_node hd ha hh).1 hnode
    have hfind : a.rpcFindCtx nodectx = .forward t := by
      rw [App.rpcFindCtx, hh]
      dsimp only
      rw [if_neg (by rw [hconfig]; exact Ne.symm hnode), hget]
      dsimp only
      rw [if_pos hclient]
    rw [findCtx, hfind]
    dsimp only
    rw [hpeer]
    exact hanswer hb (getHandle_peer hd ha hb hh hnode) hops

/-- `ctx_call_name` looks the name up on the named node. -/
theorem viaCall_eq {cl : Cluster C} (hd : CqyNode.Distinct cl.nodes) {k : UInt8} {a : App C}
    (ha : cl.app k = .ok a) {nodectx : Bytes} {h : CqyHandle} {name : Bytes}
    (hh : a.getHandle nodectx = some (h, name)) :
    cl.viaCall a nodectx = (cl.mgr h.nodeid).getCtx ((cl.mgr h.nodeid).findName name) := by
  obtain ⟨hconfig, -, -⟩ := app_eq_ok ha
  have htarget {b : App C} (hb : cl.app h.nodeid = .ok b)
      (hbh : b.getHandle nodectx = some (h, name)) :
      (b.rpcCtxCallNameTarget nodectx).toOption =
        (cl.mgr h.nodeid).getCtx ((cl.mgr h.nodeid).findName name) := by
    obtain ⟨hbconfig, hbmgr, -⟩ := app_eq_ok hb
    rw [App.rpcCtxCallNameTarget, hbh, ← hbmgr]
    dsimp only
    rw [if_neg (by rw [hbconfig]; exact not_not.mpr rfl)]
    cases b.mgr.getCtx (b.mgr.findName name) <;> rfl
  by_cases hnode : h.nodeid = k
  · have hroute : a.ctxCallNameRoute nodectx = .ok none := by
      rw [App.ctxCallNameRoute, hh]
      dsimp only
      rw [if_pos (by rw [hconfig]; exact hnode)]
    rw [viaCall, hroute]
    exact htarget (hnode ▸ ha) hh
  · obtain ⟨t, b, hget, -, hpeer, hb⟩ := getNode_away hd ha (getHandle_node hd ha hh).1 hnode
    have hroute : a.ctxCallNameRoute nodectx = .ok (some t) := by
      rw [App.ctxCallNameRoute, hh]
      dsimp only
      rw [if_neg (by rw [hconfig]; exact hnode), hget]
    rw [viaCall, hroute]
    dsimp only
    rw [hpeer]
    exact htarget hb (getHandle_peer hd ha hb hh hnode)

/-- One message reaches the context under its target id. -/
theorem rpcOnMq_singleton {m : CtxMgr C} {msg : CqyStr} {cmsg : CqyMsg}
    (hparse : msg.parse true = some cmsg) :
    ((App.rpcOnMq m [msg]).head?).map Prod.fst = m.getCtx (App.mqTarget m cmsg msg) := by
  rw [App.rpcOnMq, hparse]
  dsimp only
  cases m.getCtx (App.mqTarget m cmsg msg) <;> rfl

/-- A plain message reaches its destination id on the node that the id names. -/
theorem deliver_make {cl : Cluster C} (hd : CqyNode.Distinct cl.nodes) {k : UInt8} {a : App C}
    (ha : cl.app k = .ok a) (fill : ℕ → UInt8) (self toId session : UInt32) (t : UInt8)
    (data : Bytes)
    (hn : (CqyHandle.mk toId).nodeid = k ∨
      ∃ i ∈ cl.nodes, i.nodeid = (CqyHandle.mk toId).nodeid.toUInt32) :
    cl.deliver a (CqyStr.make fill [] self toId session t false data) =
      (cl.mgr (CqyHandle.mk toId).nodeid).getCtx toId := by
  obtain ⟨hconfig, hmgr, -⟩ := app_eq_ok ha
  have hparse := CqyStr.parse_make fill [] self toId session t false data
  rw [deliver, App.nodeMqPush, hparse]
  dsimp only [CqyStr.plainHeader]
  by_cases hnode : (CqyHandle.mk toId).nodeid = k
  · rw [if_pos (by rw [hconfig]; exact hnode), hmgr, hnode]
    cases (cl.mgr k).getCtx toId <;> rfl
  · obtain ⟨u, b, hget, -, hpeer, hb⟩ := getNode_away hd ha (hn.resolve_left hnode) hnode
    obtain ⟨-, hbmgr, -⟩ := app_eq_ok hb
    rw [if_neg (by rw [hconfig]; exact hnode), hget]
    dsimp only
    rw [hpeer]
    dsimp only
    rw [rpcOnMq_singleton hparse, hbmgr, App.mqTarget, CqyStr.name_make, if_neg (by decide)]
    rfl

/-- A plain message to a node that is not configured is dropped. -/
theorem deliver_make_drop {cl : Cluster C} (hd : CqyNode.Distinct cl.nodes) {k : UInt8} {a : App C}
    (ha : cl.app k = .ok a) (fill : ℕ → UInt8) (self toId session : UInt32) (t : UInt8)
    (data : Bytes) (hk : (CqyHandle.mk toId).nodeid ≠ k)
    (hn : ¬ ∃ i ∈ cl.nodes, i.nodeid = (CqyHandle.mk toId).nodeid.toUInt32) :
    cl.deliver a (CqyStr.make fill [] self toId session t false data) = none := by
  obtain ⟨hconfig, -, hstart⟩ := app_eq_ok ha
  have hinfo := CqyNode.getNode_info hd.ids hstart (CqyHandle.mk toId).nodeid
  have hnone : cl.nodes.find? (fun i ↦ i.nodeid = (CqyHandle.mk toId).nodeid.toUInt32) = none := by
    rw [List.find?_eq_none]
    intro i hi
    simpa using fun hid ↦ hn ⟨i, hi, hid⟩
  rw [hnone, Option.map_eq_none_iff] at hinfo
  rw [deliver, App.nodeMqPush, CqyStr.parse_make]
  dsimp only [CqyStr.plainHeader]
  rw [if_neg (by rw [hconfig]; exact hk), hinfo]

/-- A routed message reaches the context that its cut name leads to on the named node. -/
theorem deliver_makeRouted {cl : Cluster C} (hd : CqyNode.Distinct cl.nodes) {k n : UInt8}
    {a : App C} (ha : cl.app k = .ok a) (hn : ∃ i ∈ cl.nodes, i.nodeid = n.toUInt32) (hne : n ≠ k)
    (fill : ℕ → UInt8) (self : UInt32) (name : Bytes) (session : UInt32) (t : UInt8)
    (data : Bytes) :
    cl.deliver a (CqyStr.makeRouted fill [] self n name session t false data) =
      (cl.mgr n).getCtx (cl.cutTarget n name) := by
  obtain ⟨hconfig, -, -⟩ := app_eq_ok ha
  obtain ⟨u, b, hget, -, hpeer, hb⟩ := getNode_away hd ha hn hne
  obtain ⟨-, hbmgr, -⟩ := app_eq_ok hb
  have hparse := CqyStr.parse_makeRouted fill [] self n name session t false data
  have hname := CqyStr.name_makeRouted fill [] self n name session t false data
  have hnode : (CqyHandle.mk ((⟨0⟩ : CqyHandle).setNodeid n).id).nodeid = n :=
    CqyHandle.nodeid_setNodeid _ _
  rw [deliver, App.nodeMqPush, hparse]
  dsimp only [CqyStr.routedHeader]
  rw [if_neg (by rw [hnode, hconfig]; exact hne), hnode, hget]
  dsimp only
  rw [hpeer]
  dsimp only
  rw [rpcOnMq_singleton hparse, hbmgr, App.mqTarget, hname.1, hname.2, cutTarget, ite_not]
  rfl

/-- `dispatch` resolves a name of the own node, or of node 0, in the own table. -/
theorem viaDispatch_here {cl : Cluster C} {getid : C → UInt32} (hd : CqyNode.Distinct cl.nodes)
    (hb : cl.Bound getid) {k : UInt8} {a : App C} (ha : cl.app k = .ok a) {nodectx : Bytes}
    {h : CqyHandle} {name : Bytes} (hh : a.getHandle nodectx = some (h, name))
    (hnode : h.nodeid = k ∨ h.nodeid = 0) (fill : ℕ → UInt8) (self session : UInt32) (t : UInt8)
    (data : Bytes) :
    cl.viaDispatch a fill self session nodectx t data =
      if (cl.mgr k).findName name = 0 then cl.zeroCtx
      else (cl.mgr k).getCtx ((cl.mgr k).findName name) := by
  obtain ⟨hconfig, hmgr, hstart⟩ := app_eq_ok ha
  have hmsg : (dispatchName a fill self session nodectx t data).msg =
      some (CqyStr.make fill [] self ((cl.mgr k).findName name) (session + 1) t false data) := by
    rw [dispatchName, hh]
    dsimp only
    rw [if_pos (by rw [hconfig]; exact hnode), hmgr]
    rfl
  rw [viaDispatch, hmsg, Option.bind_some]
  by_cases hfind : (cl.mgr k).findName name = 0
  · rw [if_pos hfind, hfind, zeroCtx]
    by_cases hzero : ∃ i ∈ cl.nodes, i.nodeid = 0
    · rw [if_pos hzero]
      exact deliver_make hd ha fill self 0 (session + 1) t data (Or.inr hzero)
    · rw [if_neg hzero]
      refine deliver_make_drop hd ha fill self 0 (session + 1) t data ?_ hzero
      rintro rfl
      exact hzero (CqyNode.self_of_start hstart)
  · obtain ⟨ctx, hctx, hown⟩ := hb.of_findName hfind
    rw [if_neg hfind, deliver_make hd ha fill self _ (session + 1) t data (Or.inl hown), hown]

theorem viaDispatch_away {cl : Cluster C} (hd : CqyNode.Distinct cl.nodes) {k : UInt8} {a : App C}
    (ha : cl.app k = .ok a) {nodectx : Bytes} {h : CqyHandle} {name : Bytes}
    (hh : a.getHandle nodectx = some (h, name)) (hk : h.nodeid ≠ k) (hzero : h.nodeid ≠ 0)
    (fill : ℕ → UInt8) (self session : UInt32) (t : UInt8) (data : Bytes) :
    cl.viaDispatch a fill self session nodectx t data =
      (cl.mgr h.nodeid).getCtx (cl.cutTarget h.nodeid name) := by
  obtain ⟨hconfig, -, -⟩ := app_eq_ok ha
  have hmsg : (dispatchName a fill self session nodectx t data).msg =
      some (CqyStr.makeRouted fill [] self h.nodeid name (session + 1) t false data) := by
    rw [dispatchName, hh]
    dsimp only
    rw [if_neg (by rw [hconfig]; exact not_or.mpr ⟨hk, hzero⟩)]
  rw [viaDispatch, hmsg, Option.bind_some]
  exact deliver_makeRouted hd ha (getHandle_node hd ha hh).1 hk fill self name (session + 1) t data

/-- A name that fits its length byte is not cut. -/
theorem cutTarget_of_lt {cl : Cluster C} {n : UInt8} {name : Bytes} (hname : name ≠ [])
    (hlt : name.length < 256) : cl.cutTarget n name = (cl.mgr n).findName name := by
  have hpos := List.length_pos_of_ne_nil hname
  rw [cutTarget, Nat.mod_eq_of_lt hlt, if_neg hpos.ne', List.take_length]

/-! ## Agreement -/

/-- The three ways select the same context, or all of them none. -/
def Agree (cl : Cluster C) (a : App C) (fill : ℕ → UInt8) (self session : UInt32) (nodectx : Bytes)
    (t : UInt8) (data : Bytes) (found : UInt32) : Prop :=
  cl.viaDispatch a fill self session nodectx t data = cl.ctxOf found ∧
    cl.viaCall a nodectx = cl.ctxOf found

/-- The own node: the three agree unless a missing name leads to a context with the id 0. -/
theorem agree_own_iff {cl : Cluster C} {getid : C → UInt32} (hd : CqyNode.Distinct cl.nodes)
    (hb : cl.Bound getid) {k : UInt8} {a : App C} (ha : cl.app k = .ok a) {nodectx : Bytes}
    {h : CqyHandle} {name : Bytes} (hh : a.getHandle nodectx = some (h, name))
    (hk : h.nodeid = k) (fill : ℕ → UInt8) (self session : UInt32) (t : UInt8) (data : Bytes) :
    cl.Agree a fill self session nodectx t data ((cl.mgr k).findName name) ↔
      ((cl.mgr k).findName name = 0 → cl.zeroCtx = none) := by
  obtain ⟨-, -, hstart⟩ := app_eq_ok ha
  rw [Agree, viaDispatch_here hd hb ha hh (Or.inl hk), viaCall_eq hd ha hh, hk]
  by_cases hfind : (cl.mgr k).findName name = 0
  · have hnone : cl.ctxOf 0 = none := if_pos rfl
    rw [if_pos hfind, hfind, hnone]
    refine ⟨fun hagree _ ↦ hagree.1, fun hzero ↦ ⟨hzero rfl, ?_⟩⟩
    by_cases hk0 : k = 0
    · have hconf : ∃ i ∈ cl.nodes, i.nodeid = 0 := by
        obtain ⟨i, hi, hid⟩ := CqyNode.self_of_start hstart
        exact ⟨i, hi, hid.trans (congrArg UInt8.toUInt32 hk0)⟩
      have hctx := hzero rfl
      rwa [zeroCtx, if_pos hconf, ← hk0] at hctx
    · exact hb.getCtx_zero hk0
  · rw [if_neg hfind, ctxOf_findName hb (Or.inr hfind)]
    exact ⟨fun _ hz ↦ absurd hz hfind, fun _ ↦ ⟨rfl, rfl⟩⟩

/-- Node 0, from another node: `dispatch` looks in the wrong table, so the three agree only when
none of them selects anything. -/
theorem agree_zero_iff {cl : Cluster C} {getid : C → UInt32} (hd : CqyNode.Distinct cl.nodes)
    (hb : cl.Bound getid) {k : UInt8} {a : App C} (ha : cl.app k = .ok a) {nodectx : Bytes}
    {h : CqyHandle} {name : Bytes} (hh : a.getHandle nodectx = some (h, name))
    (hk : h.nodeid ≠ k) (hzero : h.nodeid = 0) (fill : ℕ → UInt8) (self session : UInt32)
    (t : UInt8) (data : Bytes) :
    cl.Agree a fill self session nodectx t data ((cl.mgr 0).findName name) ↔
      (cl.mgr k).findName name = 0 ∧ (cl.mgr 0).findName name = 0 ∧ cl.zeroCtx = none := by
  have hconf : ∃ i ∈ cl.nodes, i.nodeid = 0 := by
    obtain ⟨i, hi, hid⟩ := (getHandle_node hd ha hh).1
    exact ⟨i, hi, by rw [hid, hzero]; rfl⟩
  have hzctx : cl.zeroCtx = (cl.mgr 0).getCtx 0 := if_pos hconf
  have hnone : cl.ctxOf 0 = none := if_pos rfl
  rw [Agree, viaDispatch_here hd hb ha hh (Or.inr hzero), viaCall_eq hd ha hh, hzero]
  constructor
  · rintro ⟨hdispatch, hcall⟩
    by_cases hk0 : (cl.mgr k).findName name = 0
    · rw [if_pos hk0] at hdispatch
      by_cases h0 : (cl.mgr 0).findName name = 0
      · rw [h0, hnone] at hdispatch
        exact ⟨hk0, h0, hdispatch⟩
      · -- a context with the id 0 would have to have another id as well
        obtain ⟨ctx, hctx, -⟩ := hb.of_findName h0
        rw [ctxOf_findName hb (Or.inr h0), hctx, hzctx] at hdispatch
        exact absurd ((hb.id 0 _ ctx hctx).1.symm.trans (hb.id 0 0 ctx hdispatch).1) h0
    · -- a context of the own node would have to be one of node 0
      obtain ⟨ctx, hctx, hown⟩ := hb.of_findName hk0
      rw [if_neg hk0, hctx] at hdispatch
      by_cases h0 : (cl.mgr 0).findName name = 0
      · rw [h0, hnone] at hdispatch
        exact absurd hdispatch (by simp)
      · rw [ctxOf_findName hb (Or.inr h0)] at hdispatch
        have hid := (hb.id k _ ctx hctx).1.symm.trans (hb.id 0 _ ctx hdispatch.symm).1
        have hnode := (hb.id 0 _ ctx hdispatch.symm).2
        rw [← hid, hown] at hnode
        exact absurd (hzero.trans hnode.symm) hk
  · rintro ⟨hk0, h0, hz⟩
    rw [if_pos hk0, h0, hnone, hz, ← hzctx, hz]
    exact ⟨rfl, rfl⟩

/-- Any other node: the three agree when the cut name leads where the name leads. -/
theorem agree_away_iff {cl : Cluster C} {getid : C → UInt32} (hd : CqyNode.Distinct cl.nodes)
    (hb : cl.Bound getid) {k : UInt8} {a : App C} (ha : cl.app k = .ok a) {nodectx : Bytes}
    {h : CqyHandle} {name : Bytes} (hh : a.getHandle nodectx = some (h, name))
    (hk : h.nodeid ≠ k) (hzero : h.nodeid ≠ 0) (fill : ℕ → UInt8) (self session : UInt32)
    (t : UInt8) (data : Bytes) :
    cl.Agree a fill self session nodectx t data ((cl.mgr h.nodeid).findName name) ↔
      name.length < 256 ∨ (cl.mgr h.nodeid).getCtx (cl.cutTarget h.nodeid name) =
        (cl.mgr h.nodeid).getCtx ((cl.mgr h.nodeid).findName name) := by
  obtain ⟨-, hnil, -⟩ := (getHandle_eq_some_iff hd ha).mp hh
  rw [Agree, viaDispatch_away hd ha hh hk hzero, viaCall_eq hd ha hh,
    ctxOf_findName hb (Or.inl hzero)]
  constructor
  · exact fun hagree ↦ Or.inr hagree.1
  · rintro (hlt | hcut)
    · exact ⟨by rw [cutTarget_of_lt hnil hlt], rfl⟩
    · exact ⟨hcut, rfl⟩

/-- `rpc_find_ctx` answers after at most one forward, and the three ways agree exactly for the
names that are unambiguous. -/
theorem agree_iff_unambiguous (cl : Cluster C) (getid : C → UInt32)
    (hd : CqyNode.Distinct cl.nodes) (hb : cl.Bound getid) (k : UInt8) (a : App C)
    (ha : cl.app k = .ok a) (fill : ℕ → UInt8) (self session : UInt32) (nodectx : Bytes)
    (t : UInt8) (data : Bytes) (hops : ℕ) :
    ∃ found, cl.findCtx (hops + 2) a nodectx = some found ∧
      (cl.Agree a fill self session nodectx t data found ↔
        ∀ h name, a.getHandle nodectx = some (h, name) → cl.Unambiguous k h.nodeid name) := by
  cases hh : a.getHandle nodectx with
  | none =>
    have hfind : cl.findCtx (hops + 2) a nodectx = some 0 := by
      rw [findCtx, App.rpcFindCtx, hh]
    have hnone : cl.ctxOf 0 = none := if_pos rfl
    refine ⟨0, hfind, fun _ _ _ h ↦ absurd h (by simp), fun _ ↦ ?_⟩
    rw [Agree, viaDispatch, dispatchName, hh, viaCall, App.ctxCallNameRoute, hh, hnone]
    exact ⟨rfl, rfl⟩
  | some p =>
    obtain ⟨h, name⟩ := p
    refine ⟨_, findCtx_eq hd ha hh hops, ?_⟩
    have hone : (∀ h' name', some (h, name) = some (h', name') →
        cl.Unambiguous k h'.nodeid name') ↔ cl.Unambiguous k h.nodeid name := by
      constructor
      · exact fun hall ↦ hall h name rfl
      · rintro hone h' name' heq
        obtain ⟨rfl, rfl⟩ := Prod.mk.inj (Option.some.inj heq)
        exact hone
    rw [hone, Unambiguous]
    by_cases hk : h.nodeid = k
    · rw [if_pos hk, hk]
      exact agree_own_iff hd hb ha hh hk fill self session t data
    · rw [if_neg hk]
      by_cases hzero : h.nodeid = 0
      · rw [if_pos hzero, hzero]
        exact agree_zero_iff hd hb ha hh hk hzero fill self session t data
      · rw [if_neg hzero]
        exact agree_away_iff hd hb ha hh hk hzero fill self session t data

/-! ## Two nodes with a context of the same name -/

/-- A registry with one context, which is called `x`. -/
def oneCtx (id : UInt32) : CtxMgr UInt32 :=
  ⟨1, AList.insert id id ∅, ⟨[([120], id)], List.pairwise_singleton _ _⟩⟩

/-- The nodes `n0` and `n1`, with the given ids; a context stands for its id. -/
def twoNodes (n0 n1 : UInt8) : Cluster UInt32 where
  nodes := [⟨[110, 48], n0.toUInt32⟩, ⟨[110, 49], n1.toUInt32⟩]
  mgr n := if n = n0 ∨ n = n1 then oneCtx (createdHandle n 1).id else CtxMgr.empty

theorem mgr_twoNodes (n0 n1 n : UInt8) : (twoNodes n0 n1).mgr n =
    if n = n0 ∨ n = n1 then oneCtx (createdHandle n 1).id else CtxMgr.empty := rfl

theorem bound_twoNodes (n0 n1 : UInt8) : (twoNodes n0 n1).Bound id := by
  have hget (n : UInt8) (id c : UInt32) (h : ((twoNodes n0 n1).mgr n).getCtx id = some c) :
      c = id ∧ id = (createdHandle n 1).id := by
    rw [mgr_twoNodes] at h
    split_ifs at h
    · rw [oneCtx, CtxMgr.getCtx] at h
      by_cases hid : id = (createdHandle n 1).id
      · subst hid
        rw [AList.lookup_insert] at h
        exact ⟨(Option.some.inj h).symm, rfl⟩
      · rw [AList.lookup_insert_ne hid] at h
        exact absurd h (by simp)
    · exact absurd h (by simp [CtxMgr.empty, CtxMgr.getCtx])
  refine ⟨fun n name id hmem ↦ ?_, fun n id c h ↦ ?_⟩
  · rw [mgr_twoNodes] at hmem ⊢
    split_ifs at hmem ⊢
    · obtain ⟨-, rfl⟩ := Prod.mk.inj (List.mem_singleton.mp hmem)
      rw [oneCtx, CtxMgr.getCtx, AList.lookup_insert]
      rfl
    · exact absurd hmem (by simp [CtxMgr.empty, Table.empty])
  · obtain ⟨rfl, rfl⟩ := hget n id c h
    exact ⟨rfl, Creations.nodeid_createdHandle n 1⟩

/-- Node 1 addresses `n0.x` where `n0` has the id 0: `dispatch` reaches the context `x` of node 1,
the other two ways select the one of node 0. -/
theorem disagree_nodeZero : ∃ a, (twoNodes 0 1).app 1 = .ok a ∧
    CqyNode.Distinct (twoNodes 0 1).nodes ∧ (twoNodes 0 1).Bound id ∧
    (twoNodes 0 1).viaDispatch a (fun _ ↦ 0) 0x01000001 0 [110, 48, 46, 120] 0 [] =
      some 0x01000001 ∧
    (twoNodes 0 1).findCtx 2 a [110, 48, 46, 120] = some 0x00000001 ∧
    (twoNodes 0 1).viaCall a [110, 48, 46, 120] = some 0x00000001 ∧
    ¬ (twoNodes 0 1).Agree a (fun _ ↦ 0) 0x01000001 0 [110, 48, 46, 120] 0 [] 0x00000001 := by
  refine ⟨_, rfl, ⟨by decide, by decide, by decide⟩, bound_twoNodes 0 1, rfl, rfl, rfl, ?_⟩
  rintro ⟨hdispatch, -⟩
  exact absurd hdispatch (by decide)

/-- Node 1 addresses `n1.x` where `n1` has the id 2. -/
theorem agree_nodeTwo : ∃ a, (twoNodes 1 2).app 1 = .ok a ∧
    ∃ found, (twoNodes 1 2).findCtx 2 a [110, 49, 46, 120] = some found ∧
      (twoNodes 1 2).Agree a (fun _ ↦ 0) 0x01000001 0 [110, 49, 46, 120] 0 [] found := by
  refine ⟨_, rfl, ?_⟩
  obtain ⟨found, hfind, hagree⟩ := agree_iff_unambiguous (twoNodes 1 2) id
    ⟨by decide, by decide, by decide⟩ (bound_twoNodes 1 2) 1 _ rfl (fun _ ↦ 0) 0x01000001 0
    [110, 49, 46, 120] 0 [] 0
  refine ⟨found, hfind, hagree.mpr ?_⟩
  intro h name hh
  obtain ⟨rfl, rfl⟩ := Prod.mk.inj (Option.some.inj hh)
  exact Or.inl (by decide)

end Cluster

end Cqy
