import Cqy.App.App
import Cqy.Foundation.Keys

/-!
# The identity of nodes

A configuration names each node twice, by a string and by an id.  `get_handle` goes from the string
to a handle, which keeps eight bits of the id, and `get_node` goes back; every client starts a send
loop, which finds its node by the same eight bits.  This module says for which nodes the way back
leads to the node it started from.
-/

namespace Cqy

open Foundation

namespace CqyNode

/-- The nodes for which `start` makes a client, and each client a loop. -/
def peers (config : Config) : List NodeInfo :=
  config.nodes.filter fun info ↦ info.nodeid ≠ config.nodeid.toUInt32

/-- The node that the loop of the client for `info` finds, if `node_mq_spawn` starts when the list
has `k` nodes. -/
def loopNode (n : CqyNode) (k : ℕ) (info : NodeInfo) : Option NodeT :=
  { n with nodes := n.nodes.take k }.getNode info.nodeid.toUInt8

/-- The loop finds its own client in the list, whatever `start` has appended after it. -/
theorem loopNode_eq {config : Config} (hids : (config.nodes.map NodeInfo.nodeid).Nodup)
    {n : CqyNode} (hstart : start config = .ok n) {k : ℕ} {info : NodeInfo}
    (hk : info ∈ (n.nodes.take k).map NodeT.info) (hsmall : info.nodeid.toNat < 256) :
    (n.loopNode k info).map NodeT.info = some info := by
  obtain ⟨t, ht, rfl⟩ := List.mem_map.mp hk
  refine find_info_of_mem NodeInfo.nodeid (fun u hu ↦ ?_) hids ht ?_
  · exact ((start_spec hids hstart).2.1 _).mpr ⟨u, List.mem_of_mem_take hu, rfl⟩
  · exact (toUInt32_toUInt8 hsmall).symm

/-- A loop finds a node by the eight bits of the id it was started with. -/
theorem toUInt8_of_loopNode {n : CqyNode} {k : ℕ} {info i : NodeInfo}
    (hfound : (n.loopNode k info).map NodeT.info = some i) :
    info.nodeid.toUInt8 = i.nodeid.toUInt8 := by
  obtain ⟨t, ht, rfl⟩ := Option.map_eq_some_iff.mp hfound
  have hid : t.info.nodeid = info.nodeid.toUInt8.toUInt32 := by simpa using List.find?_some ht
  rw [hid, toUInt8_toUInt32]

/-- A configured node is found by its id, if the id has eight bits. -/
theorem getNode_of_mem {config : Config} (hids : (config.nodes.map NodeInfo.nodeid).Nodup)
    {n : CqyNode} (hstart : start config = .ok n) {i : NodeInfo} (hi : i ∈ config.nodes)
    (hsmall : i.nodeid.toNat < 256) : (n.getNode i.nodeid.toUInt8).map NodeT.info = some i := by
  obtain ⟨t, ht, rfl⟩ := ((start_spec hids hstart).2.1 i).mp hi
  have hloop := loopNode_eq hids hstart (k := n.nodes.length) (List.mem_map.mpr ⟨t, ?_, rfl⟩) hsmall
  · rwa [loopNode, List.take_length] at hloop
  · rwa [List.take_length]

end CqyNode

namespace App

variable {C : Type*}

/-- The name of a node, a dot and the name of a context lead to the node. -/
theorem getHandle_append {a : App C} (hstart : CqyNode.start a.config = .ok a.node)
    (hnames : (a.config.nodes.map NodeInfo.name).Nodup)
    (hids : (a.config.nodes.map NodeInfo.nodeid).Nodup) {i : NodeInfo} (hi : i ∈ a.config.nodes)
    (hname : i.name ≠ []) (hdot : 46 ∉ i.name) {c : Bytes} (hc : c ≠ []) :
    a.getHandle (i.name ++ dot ++ c) = some ((⟨0⟩ : CqyHandle).setNodeid i.nodeid.toUInt8, c) := by
  have hsplit : Algo.splitOne (i.name ++ dot ++ c) dot = (i.name, c) := by
    rw [List.append_assoc]
    exact Algo.splitOne_append_of_notMem hdot c
  have hmem := (CqyNode.start_spec hids hstart).2.1
  obtain ⟨t, ht, hti⟩ := (hmem i).mp hi
  have hfind := CqyNode.find_info_of_mem NodeInfo.name (fun u hu ↦ (hmem _).mpr ⟨u, hu, rfl⟩) hnames
    ht rfl
  rw [hti] at hfind
  obtain ⟨u, hu, hui⟩ := Option.map_eq_some_iff.mp hfind
  rw [getHandle, hsplit]
  dsimp only
  rw [if_neg hc, CqyNode.getNodeByName, if_neg hname, hu]
  dsimp only
  rw [hui]

/-- For every configuration that `start` accepts, with nodes that have distinct non-empty names and
distinct ids: the handle of a node leads back to it, if the name has no dot and the id eight bits;
the loop of a client finds its node, if the id has eight bits; and no other loop finds this node
unless its id has the same eight bits.  Each loop reads the list at a moment of its own, when its
client is in it. -/
theorem node_identity {a : App C} (hstart : CqyNode.start a.config = .ok a.node)
    (hnonempty : ∀ i ∈ a.config.nodes, i.name ≠ [])
    (hnames : (a.config.nodes.map NodeInfo.name).Nodup)
    (hids : (a.config.nodes.map NodeInfo.nodeid).Nodup) (moment : NodeInfo → ℕ)
    (hmoment : ∀ i ∈ CqyNode.peers a.config,
      i ∈ (a.node.nodes.take (moment i)).map NodeT.info) :
    (∀ i ∈ a.config.nodes, i.nodeid.toNat < 256 → 46 ∉ i.name → ∀ c ≠ [],
      ∃ h t, a.getHandle (i.name ++ dot ++ c) = some (h, c) ∧ a.node.getNode h.nodeid = some t ∧
        t.info = i) ∧
    (∀ i ∈ CqyNode.peers a.config, i.nodeid.toNat < 256 →
      (a.node.loopNode (moment i) i).map NodeT.info = some i) ∧
    (∀ i ∈ CqyNode.peers a.config, i.nodeid.toNat < 256 →
      (∀ j ∈ CqyNode.peers a.config, j.nodeid.toUInt8 = i.nodeid.toUInt8 → j = i) →
      ((CqyNode.peers a.config).filter fun j ↦
        (a.node.loopNode (moment j) j).map NodeT.info = some i) = [i]) := by
  have hloop (i : NodeInfo) (hi : i ∈ CqyNode.peers a.config) (hsmall : i.nodeid.toNat < 256) :
      (a.node.loopNode (moment i) i).map NodeT.info = some i :=
    CqyNode.loopNode_eq hids hstart (hmoment i hi) hsmall
  refine ⟨fun i hi hsmall hdot c hc ↦ ?_, hloop, fun i hi hsmall halone ↦ ?_⟩
  · have hget := CqyNode.getNode_of_mem hids hstart hi hsmall
    obtain ⟨t, ht, hti⟩ := Option.map_eq_some_iff.mp hget
    refine ⟨_, t, getHandle_append hstart hnames hids hi (hnonempty i hi) hdot hc, ?_, hti⟩
    rw [CqyHandle.nodeid_setNodeid]
    exact ht
  · have hnodup : ((CqyNode.peers a.config).map id).Nodup := by
      rw [List.map_id]
      exact (List.Nodup.of_map _ hids).filter _
    rw [← filter_key_eq_singleton hnodup hi]
    refine List.filter_congr fun j hj ↦ decide_eq_decide.mpr ⟨fun hfound ↦ ?_, ?_⟩
    · exact halone j hj (CqyNode.toUInt8_of_loopNode hfound)
    · rintro rfl
      exact hloop j hj hsmall

/-- The own node 1, the node 2 and the node 3. -/
def threeNodes : App Unit :=
  let n1 : NodeInfo := ⟨[110, 49], 1⟩
  let n2 : NodeInfo := ⟨[110, 50], 2⟩
  let n3 : NodeInfo := ⟨[110, 51], 3⟩
  ⟨⟨1, [n1, n2, n3]⟩, ⟨1, [⟨n2, true⟩, ⟨n3, true⟩, ⟨n1, false⟩]⟩, CtxMgr.empty⟩

/-- The loop of node 3 starts before the own node is in the list, the one of node 2 after. -/
theorem node_identity_threeNodes :
    (∃ h t, threeNodes.getHandle [110, 51, 46, 120] = some (h, [120]) ∧
      threeNodes.node.getNode h.nodeid = some t ∧ t.info = ⟨[110, 51], 3⟩) ∧
    (threeNodes.node.loopNode 2 ⟨[110, 51], 3⟩).map NodeT.info = some ⟨[110, 51], 3⟩ ∧
    ((CqyNode.peers threeNodes.config).filter fun j ↦
      (threeNodes.node.loopNode (if j.nodeid = 3 then 2 else 3) j).map NodeT.info =
        some ⟨[110, 50], 2⟩) = [⟨[110, 50], 2⟩] := by
  have h := node_identity (a := threeNodes) rfl (by decide) (by decide) (by decide)
    (fun i ↦ if i.nodeid = 3 then 2 else 3) (by decide)
  exact ⟨h.1 ⟨[110, 51], 3⟩ (by decide) (by decide) (by decide) [120] (by decide),
    h.2.1 ⟨[110, 51], 3⟩ (by decide) (by decide),
    h.2.2 ⟨[110, 50], 2⟩ (by decide) (by decide) (by decide)⟩

/-- The own node 1, a node `m` with the id 257 and a node `a.b` with the id 2. -/
def wideNodes : App Unit :=
  let n1 : NodeInfo := ⟨[110, 49], 1⟩
  let m : NodeInfo := ⟨[109], 257⟩
  let ab : NodeInfo := ⟨[97, 46, 98], 2⟩
  ⟨⟨1, [n1, m, ab]⟩, ⟨1, [⟨m, true⟩, ⟨ab, true⟩, ⟨n1, false⟩]⟩, CtxMgr.empty⟩

/-- `start` accepts the configuration and names and ids are distinct.  The string `a.b.x` has no
handle, since it is cut at the first dot; the handle of `m.x` and the loop of the client of `m` lead
to the own node, and no loop finds `m`. -/
theorem node_identity_wideNodes :
    CqyNode.start wideNodes.config = .ok wideNodes.node ∧
    (∀ i ∈ wideNodes.config.nodes, i.name ≠ []) ∧
    (wideNodes.config.nodes.map NodeInfo.name).Nodup ∧
    (wideNodes.config.nodes.map NodeInfo.nodeid).Nodup ∧
    wideNodes.getHandle ([97, 46, 98] ++ dot ++ [120]) = none ∧
    (wideNodes.getHandle ([109] ++ dot ++ [120])).bind (fun p ↦
      (wideNodes.node.getNode p.1.nodeid).map NodeT.info) = some ⟨[110, 49], 1⟩ ∧
    (wideNodes.node.loopNode 3 ⟨[109], 257⟩).map NodeT.info = some ⟨[110, 49], 1⟩ ∧
    ((CqyNode.peers wideNodes.config).filter fun j ↦
      (wideNodes.node.loopNode 3 j).map NodeT.info = some ⟨[109], 257⟩) = [] := by
  decide

end App

end Cqy
