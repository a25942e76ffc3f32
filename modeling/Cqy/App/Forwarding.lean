import Cqy.App.App
import Cqy.Foundation.Chain

/-!
# How often a lookup is forwarded

`rpc_find_ctx` is the remote handler and the local entry point at once: a node that gets a query
from another one resolves the string again, in its own configuration, and may send it on.  With one
configuration for all nodes the second node is the one that was named.  Here every node has its own,
and a client is connected to whichever node listens at the address that is configured for it.
-/

namespace Cqy

open Foundation

/-- Nodes that have been started, each with its own configuration. -/
structure Deployment (ι : Type) (C : Type*) where
  app : ι → App C
  started : ∀ i, CqyNode.start (app i).config = .ok (app i).node
  /-- The node that the client for a configured node reaches. -/
  link : ι → NodeT → Option ι

/-- The string names a node other than the own one, and there is a client for it. -/
def App.NamesPeer {C : Type*} (a : App C) (nodectx : Bytes) (t : NodeT) : Prop :=
  ∃ h name, a.getHandle nodectx = some (h, name) ∧ a.config.nodeid ≠ h.nodeid ∧
    a.node.getNode h.nodeid = some t ∧ t.rpcClient = true

theorem App.rpcFindCtx_eq_forward_iff {C : Type*} {a : App C} {nodectx : Bytes} {t : NodeT} :
    a.rpcFindCtx nodectx = .forward t ↔ a.NamesPeer nodectx t := by
  constructor
  · intro hfind
    unfold App.rpcFindCtx at hfind
    cases hhandle : a.getHandle nodectx with
    | none => simp [hhandle] at hfind
    | some p =>
      obtain ⟨h, name⟩ := p
      simp only [hhandle] at hfind
      split_ifs at hfind with hself
      cases hnode : a.node.getNode h.nodeid with
      | none => simp [hnode] at hfind
      | some u =>
        simp only [hnode] at hfind
        split_ifs at hfind with hclient
        obtain rfl := FindCtx.forward.inj hfind
        exact ⟨h, name, hhandle, hself, hnode, hclient⟩
  · rintro ⟨h, name, hhandle, hself, hnode, hclient⟩
    rw [App.rpcFindCtx, hhandle]
    dsimp only
    rw [if_neg hself, hnode]
    dsimp only
    rw [if_pos hclient]

namespace Deployment

variable {ι : Type} {C : Type*}

/-- The id that `rpc_find_ctx` returns on the node `i` and how often the query is forwarded, unless
it is still on its way after `hops` nodes.  A remote call that fails returns 0. -/
def findCtx (d : Deployment ι C) (nodectx : Bytes) : (hops : ℕ) → ι → Option (UInt32 × ℕ)
  | 0, _ => none
  | hops + 1, i =>
    match (d.app i).rpcFindCtx nodectx with
    | .answer id => some (id, 0)
    | .forward t =>
      match d.link i t with
      | none => some (0, 1)
      | some j => (d.findCtx nodectx hops j).map fun p ↦ (p.1, p.2 + 1)

/-- The lookup that starts on the node `i` ends after at most one forward. -/
def Direct (d : Deployment ι C) (nodectx : Bytes) (i : ι) : Prop :=
  ∃ hops id n, d.findCtx nodectx hops i = some (id, n) ∧ n ≤ 1

/-- The node `i` sends the query to the node `j`. -/
def Sends (d : Deployment ι C) (nodectx : Bytes) (i j : ι) : Prop :=
  ∃ t, (d.app i).NamesPeer nodectx t ∧ d.link i t = some j

variable {d : Deployment ι C} {nodectx : Bytes} {i j : ι}

theorem findCtx_of_sends (h : d.Sends nodectx i j) (hops : ℕ) :
    d.findCtx nodectx (hops + 1) i =
      (d.findCtx nodectx hops j).map fun p ↦ (p.1, p.2 + 1) := by
  obtain ⟨t, hpeer, hlink⟩ := h
  rw [findCtx, App.rpcFindCtx_eq_forward_iff.mpr hpeer]
  dsimp only
  rw [hlink]

/-- Nobody listens at the address. -/
theorem findCtx_of_link_eq_none {t : NodeT} (hpeer : (d.app i).NamesPeer nodectx t)
    (hlink : d.link i t = none) (hops : ℕ) : d.findCtx nodectx (hops + 1) i = some (0, 1) := by
  rw [findCtx, App.rpcFindCtx_eq_forward_iff.mpr hpeer]
  dsimp only
  rw [hlink]

/-- A node that names no peer answers at once. -/
theorem findCtx_of_not_namesPeer (h : ∀ t, ¬ (d.app i).NamesPeer nodectx t) (hops : ℕ) :
    ∃ id, d.findCtx nodectx (hops + 1) i = some (id, 0) := by
  rw [findCtx]
  cases hfind : (d.app i).rpcFindCtx nodectx with
  | answer id => exact ⟨id, rfl⟩
  | forward t => exact absurd (App.rpcFindCtx_eq_forward_iff.mp hfind) (h t)

/-- A query that is not sent to another node ends after at most one forward. -/
theorem findCtx_of_not_sends (h : ∀ j, ¬ d.Sends nodectx i j) (hops : ℕ) :
    ∃ id n, d.findCtx nodectx (hops + 1) i = some (id, n) ∧ n ≤ 1 := by
  by_cases hpeer : ∃ t, (d.app i).NamesPeer nodectx t
  · obtain ⟨t, hpeer⟩ := hpeer
    have hlink : d.link i t = none :=
      Option.eq_none_iff_forall_ne_some.mpr fun j hlink ↦ h j ⟨t, hpeer, hlink⟩
    exact ⟨0, 1, findCtx_of_link_eq_none hpeer hlink hops, le_rfl⟩
  · obtain ⟨id, hfind⟩ := findCtx_of_not_namesPeer (not_exists.mp hpeer) hops
    exact ⟨id, 0, hfind, Nat.zero_le 1⟩

/-- A node that names a peer forwards at least once. -/
theorem pos_of_namesPeer {t : NodeT} (h : (d.app i).NamesPeer nodectx t) {hops : ℕ} {id : UInt32}
    {n : ℕ} (hfind : d.findCtx nodectx hops i = some (id, n)) : 0 < n := by
  cases hops with
  | zero => exact absurd hfind (by simp [findCtx])
  | succ hops =>
    cases hlink : d.link i t with
    | none =>
      rw [findCtx_of_link_eq_none h hlink, Option.some_inj, Prod.mk.injEq] at hfind
      exact hfind.2 ▸ Nat.one_pos
    | some j =>
      rw [findCtx_of_sends ⟨t, h, hlink⟩, Option.map_eq_some_iff] at hfind
      obtain ⟨⟨id', n'⟩, -, heq⟩ := hfind
      have hcount : n' + 1 = n := congrArg Prod.snd heq
      exact hcount ▸ Nat.succ_pos n'

/-- A lookup ends after at most one forward if and only if the node that gets it names no peer of
its own. -/
theorem direct_iff (d : Deployment ι C) (nodectx : Bytes) (i : ι) :
    d.Direct nodectx i ↔
      ∀ j, d.Sends nodectx i j → ∀ t, ¬ (d.app j).NamesPeer nodectx t := by
  constructor
  · rintro ⟨hops, id, n, hfind, hn⟩ j hsends t hpeer
    cases hops with
    | zero => exact absurd hfind (by simp [findCtx])
    | succ hops =>
      rw [findCtx_of_sends hsends, Option.map_eq_some_iff] at hfind
      obtain ⟨⟨id', n'⟩, hfind', heq⟩ := hfind
      have hpos := pos_of_namesPeer hpeer hfind'
      have hcount : n' + 1 = n := congrArg Prod.snd heq
      omega
  · intro hnext
    by_cases hsends : ∃ j, d.Sends nodectx i j
    · obtain ⟨j, hij⟩ := hsends
      obtain ⟨id, hfind⟩ := findCtx_of_not_namesPeer (hnext j hij) 0
      exact ⟨2, id, 1, by rw [findCtx_of_sends hij, hfind]; rfl, le_rfl⟩
    · obtain ⟨id, n, hfind, hn⟩ := findCtx_of_not_sends (not_exists.mp hsends) 0
      exact ⟨1, id, n, hfind, hn⟩

/-! ## Lookups that never end -/

theorem exists_findCtx_of_acc (h : Acc (flip (d.Sends nodectx)) i) :
    ∃ hops, (d.findCtx nodectx hops i).isSome := by
  induction h with
  | intro i _ ih =>
    by_cases hsends : ∃ j, d.Sends nodectx i j
    · obtain ⟨j, hij⟩ := hsends
      obtain ⟨hops, hfind⟩ := ih j hij
      exact ⟨hops + 1, by rw [findCtx_of_sends hij, Option.isSome_map]; exact hfind⟩
    · obtain ⟨id, n, hfind, -⟩ := findCtx_of_not_sends (not_exists.mp hsends) 0
      exact ⟨1, by rw [hfind]; rfl⟩

theorem acc_of_findCtx {hops : ℕ} (h : (d.findCtx nodectx hops i).isSome) :
    Acc (flip (d.Sends nodectx)) i := by
  induction hops generalizing i with
  | zero => exact absurd h (by simp [findCtx])
  | succ hops ih =>
    refine Acc.intro i fun j hij ↦ ih ?_
    rwa [findCtx_of_sends hij, Option.isSome_map] at h

/-- Among finitely many nodes a lookup ends, if and only if the query cannot come back to a node
that had it before. -/
theorem ends_iff [Finite ι] (d : Deployment ι C) (nodectx : Bytes) (i : ι) :
    (∃ hops, (d.findCtx nodectx hops i).isSome) ↔ Chain.Acyclic (d.Sends nodectx) i := by
  rw [← Chain.acc_iff_acyclic]
  constructor
  · rintro ⟨hops, hfind⟩
    exact acc_of_findCtx hfind
  · exact exists_findCtx_of_acc

/-- Two nodes that know the name `x` as the name of the other. -/
def crossed : Deployment Bool Unit where
  app i := if i then ⟨⟨2, [⟨[98], 2⟩, ⟨[120], 1⟩]⟩, ⟨2, [⟨⟨[120], 1⟩, true⟩, ⟨⟨[98], 2⟩, false⟩]⟩,
      CtxMgr.empty⟩
    else ⟨⟨1, [⟨[97], 1⟩, ⟨[120], 2⟩]⟩, ⟨1, [⟨⟨[120], 2⟩, true⟩, ⟨⟨[97], 1⟩, false⟩]⟩,
      CtxMgr.empty⟩
  started i := by cases i <;> rfl
  link i _ := some !i

theorem crossed_namesPeer (i : Bool) : ∃ t, (crossed.app i).NamesPeer [120, 46, 99] t := by
  cases i with
  | false => exact ⟨⟨⟨[120], 2⟩, true⟩, ⟨0x02000000⟩, [99], by decide⟩
  | true => exact ⟨⟨⟨[120], 1⟩, true⟩, ⟨0x01000000⟩, [99], by decide⟩

/-- The lookup of `x.c` goes back and forth for ever. -/
theorem not_direct_crossed :
    (∀ hops, crossed.findCtx [120, 46, 99] hops false = none) ∧
      ¬ crossed.Direct [120, 46, 99] false := by
  have hnone (hops : ℕ) (i : Bool) : crossed.findCtx [120, 46, 99] hops i = none := by
    induction hops generalizing i with
    | zero => rfl
    | succ hops ih =>
      obtain ⟨t, hpeer⟩ := crossed_namesPeer i
      rw [findCtx_of_sends ⟨t, hpeer, rfl⟩, ih, Option.map_none]
  refine ⟨fun hops ↦ hnone hops false, ?_⟩
  rintro ⟨hops, id, n, hfind, -⟩
  rw [hnone] at hfind
  exact Option.some_ne_none _ hfind.symm

end Deployment

end Cqy
