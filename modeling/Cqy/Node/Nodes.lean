import Cqy.Foundation.Bytes
import Cqy.Wire.Handle

/-!
# The nodes a process knows

`cqy_app::start` walks over the configured nodes, makes a client for every node but its own, and
appends its own node last.  Nodes are then looked up by a scan, by id or by name.  An id in the
configuration has 32 bits, an id in a handle has eight.
-/

namespace Cqy

open Foundation

/-- `node_info`, without the address the client connects to. -/
structure NodeInfo where
  name : Bytes
  nodeid : UInt32
deriving DecidableEq

/-- `config_t`, as far as nodes are concerned. -/
structure Config where
  nodeid : UInt8
  nodes : List NodeInfo
deriving DecidableEq

/-- `cqy_node::node_t`: a node and whether a client was made for it. -/
structure NodeT where
  info : NodeInfo
  rpcClient : Bool
deriving DecidableEq

/-- `cqy_node_t`. -/
structure CqyNode where
  selfNodeid : UInt8
  nodes : List NodeT
deriving DecidableEq

namespace CqyNode

/-- `cqy_node::get_node` by id. -/
def getNode (n : CqyNode) (nodeid : UInt8) : Option NodeT :=
  n.nodes.find? fun t ↦ t.info.nodeid = nodeid.toUInt32

/-- `cqy_node::get_node` by name. -/
def getNodeByName (n : CqyNode) (name : Bytes) : Option NodeT :=
  if name = [] then n.getNode n.selfNodeid else n.nodes.find? fun t ↦ t.info.name = name

/-- The part of `cqy_app::start` that fills the node list: the clients in configuration order,
then the own node, which is the last one with the own id. -/
def start (config : Config) : Except String CqyNode :=
  let clients := config.nodes.filter fun info ↦ info.nodeid ≠ config.nodeid.toUInt32
  match (config.nodes.filter fun info ↦ info.nodeid = config.nodeid.toUInt32).getLast? with
  | none =>
    let nodeid := config.nodeid.toNat
    .error s!"self node:{nodeid} not config"
  | some self => .ok ⟨self.nodeid.toUInt8, clients.map (⟨·, true⟩) ++ [⟨self, false⟩]⟩

/-! ## Distinct nodes -/

/-- A list of nodes told apart by name, and by the eight bits a handle keeps of an id. -/
structure Distinct (nodes : List NodeInfo) : Prop where
  names : (nodes.map NodeInfo.name).Nodup
  ids : (nodes.map NodeInfo.nodeid).Nodup
  small : ∀ i ∈ nodes, i.nodeid.toNat < 256

theorem toUInt32_toUInt8 {i : UInt32} (h : i.toNat < 256) : i.toUInt8.toUInt32 = i := by
  apply UInt32.toNat_inj.mp
  rw [UInt8.toNat_toUInt32, UInt32.toNat_toUInt8]
  exact Nat.mod_eq_of_lt h

theorem toUInt8_toUInt32 (k : UInt8) : k.toUInt32.toUInt8 = k := by
  apply UInt8.toNat_inj.mp
  rw [UInt32.toNat_toUInt8, UInt8.toNat_toUInt32]
  exact Nat.mod_eq_of_lt k.toNat_lt

theorem toUInt32_inj {k k' : UInt8} : k.toUInt32 = k'.toUInt32 ↔ k = k' := by
  constructor
  · intro h
    rw [← toUInt8_toUInt32 k, h, toUInt8_toUInt32]
  · exact congrArg _

/-- A scan for the key of a node finds that node, when the key tells the nodes apart. -/
theorem find_info_of_mem {β : Type*} [DecidableEq β] {ts : List NodeT} {nodes : List NodeInfo}
    (f : NodeInfo → β) (hmem : ∀ t ∈ ts, t.info ∈ nodes) (hinj : (nodes.map f).Nodup) {t : NodeT}
    (ht : t ∈ ts) {x : β} (hx : f t.info = x) :
    (ts.find? fun u ↦ f u.info = x).map NodeT.info = some t.info := by
  have hsome : (ts.find? fun u ↦ f u.info = x).isSome := by
    rw [List.find?_isSome]
    exact ⟨t, ht, by simpa using hx⟩
  obtain ⟨u, hu⟩ := Option.isSome_iff_exists.mp hsome
  have hux : f u.info = x := by simpa using List.find?_some hu
  have humem : u.info ∈ nodes := hmem u (List.mem_of_find?_eq_some hu)
  rw [hu, Option.map_some]
  exact congrArg some (List.inj_on_of_nodup_map hinj humem (hmem t ht) (hux.trans hx.symm))

/-- A scan finds the same node in any list with the same nodes, when the key tells them apart. -/
theorem find_info {β : Type*} [DecidableEq β] {ts : List NodeT} {nodes : List NodeInfo}
    (f : NodeInfo → β) (hmem : ∀ i, i ∈ nodes ↔ ∃ t ∈ ts, t.info = i)
    (hinj : (nodes.map f).Nodup) (x : β) :
    (ts.find? fun t ↦ f t.info = x).map NodeT.info = nodes.find? fun i ↦ f i = x := by
  cases hfind : nodes.find? fun i ↦ f i = x with
  | none =>
    rw [Option.map_eq_none_iff, List.find?_eq_none]
    intro t ht
    exact List.find?_eq_none.mp hfind _ ((hmem _).mpr ⟨t, ht, rfl⟩)
  | some i =>
    have hx : f i = x := by simpa using List.find?_some hfind
    obtain ⟨t, ht, rfl⟩ := (hmem i).mp (List.mem_of_find?_eq_some hfind)
    exact find_info_of_mem f (fun u hu ↦ (hmem _).mpr ⟨u, hu, rfl⟩) hinj ht hx

/-- What `start` makes of a configuration with distinct ids: the own id and the configured nodes,
each with a client unless it is the own one. -/
theorem start_spec {config : Config} (hids : (config.nodes.map NodeInfo.nodeid).Nodup) {n : CqyNode}
    (hstart : start config = .ok n) :
    n.selfNodeid = config.nodeid ∧ (∀ i, i ∈ config.nodes ↔ ∃ t ∈ n.nodes, t.info = i) ∧
      ∀ t ∈ n.nodes, t.rpcClient = decide (t.info.nodeid ≠ config.nodeid.toUInt32) := by
  rw [start] at hstart
  dsimp only at hstart
  split at hstart
  · exact absurd hstart (by simp)
  rename_i self hself
  obtain rfl := Except.ok.inj hstart
  have hlast := List.mem_of_getLast? hself
  rw [List.mem_filter, decide_eq_true_eq] at hlast
  refine ⟨?_, fun i ↦ ?_, fun t ht ↦ ?_⟩
  · rw [hlast.2]
    exact toUInt8_toUInt32 _
  · constructor
    · intro hi
      by_cases hid : i.nodeid = config.nodeid.toUInt32
      · obtain rfl := List.inj_on_of_nodup_map hids hi hlast.1 (hid.trans hlast.2.symm)
        exact ⟨⟨i, false⟩, by simp, rfl⟩
      · exact ⟨⟨i, true⟩, by simp [hi, hid], rfl⟩
    · rintro ⟨t, ht, rfl⟩
      rcases List.mem_append.mp ht with ht | ht
      · obtain ⟨i, hi, rfl⟩ := List.mem_map.mp ht
        exact (List.mem_filter.mp hi).1
      · obtain rfl := List.mem_singleton.mp ht
        exact hlast.1
  · rcases List.mem_append.mp ht with ht | ht
    · obtain ⟨i, hi, rfl⟩ := List.mem_map.mp ht
      have hne := (List.mem_filter.mp hi).2
      simpa using hne
    · obtain rfl := List.mem_singleton.mp ht
      simp [hlast.2]

theorem getNode_info {config : Config} (hids : (config.nodes.map NodeInfo.nodeid).Nodup)
    {n : CqyNode} (hstart : start config = .ok n) (nodeid : UInt8) :
    (n.getNode nodeid).map NodeT.info =
      config.nodes.find? fun i ↦ i.nodeid = nodeid.toUInt32 :=
  find_info NodeInfo.nodeid (start_spec hids hstart).2.1 hids nodeid.toUInt32

theorem getNodeByName_info {config : Config} (h : Distinct config.nodes) {n : CqyNode}
    (hstart : start config = .ok n) (name : Bytes) :
    (n.getNodeByName name).map NodeT.info = config.nodes.find? fun i ↦
      if name = [] then i.nodeid = config.nodeid.toUInt32 else i.name = name := by
  rw [getNodeByName]
  by_cases hname : name = []
  · simp only [hname, if_true]
    rw [getNode_info h.ids hstart, (start_spec h.ids hstart).1]
  · simp only [hname, if_false]
    exact find_info NodeInfo.name (start_spec h.ids hstart).2.1 h.names name

/-- `start` throws unless the own id is configured. -/
theorem self_of_start {config : Config} {n : CqyNode} (hstart : start config = .ok n) :
    ∃ i ∈ config.nodes, i.nodeid = config.nodeid.toUInt32 := by
  rw [start] at hstart
  dsimp only at hstart
  split at hstart
  · exact absurd hstart (by simp)
  · rename_i self hself
    have hlast := List.mem_of_getLast? hself
    rw [List.mem_filter, decide_eq_true_eq] at hlast
    exact ⟨self, hlast⟩

theorem exists_start {config : Config} {i : NodeInfo} (hi : i ∈ config.nodes)
    (hid : i.nodeid = config.nodeid.toUInt32) : ∃ n, start config = .ok n := by
  have hmem : i ∈ config.nodes.filter fun i ↦ i.nodeid = config.nodeid.toUInt32 := by
    simp [hi, hid]
  obtain ⟨self, hself⟩ : ∃ self,
      (config.nodes.filter fun i ↦ i.nodeid = config.nodeid.toUInt32).getLast? = some self :=
    ⟨_, List.getLast?_eq_some_getLast (List.ne_nil_of_mem hmem)⟩
  rw [start, hself]
  exact ⟨_, rfl⟩

end CqyNode

end Cqy
