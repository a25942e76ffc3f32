import Cqy.App.App

/-!
# Delivery of a batch

A peer sends a batch in one call of `rpc_on_mq` and drops it when the call returns.  The call skips
a message whose target is missing, but ends at one that is malformed, and it takes a name that is
bound to nothing for the id 0.  This module compares it with delivery message by message.
-/

namespace Cqy.App

open Foundation

variable {C : Type*}

/-- The context a message is for: the one whose id its name is bound to, or without a name the one
whose id is in the header. -/
def mqContext (m : CtxMgr C) (msg : CqyStr) : Option C :=
  match msg.parse true with
  | none => none
  | some cmsg =>
    if msg.name.size ≠ 0 then (m.names.find (msg.name.read msg)).bind m.getCtx
    else m.getCtx cmsg.toId

/-- Delivery message by message, in batch order. -/
def messageWise (m : CtxMgr C) (msgs : List CqyStr) : List (C × CqyStr) :=
  msgs.filterMap fun msg ↦ (mqContext m msg).map (·, msg)

/-- A message whose name is bound to nothing, where a context has the id 0. -/
def Misnamed (m : CtxMgr C) (msg : CqyStr) : Prop :=
  msg.name.size ≠ 0 ∧ m.names.find (msg.name.read msg) = none ∧ (m.getCtx 0).isSome

instance (m : CtxMgr C) (msg : CqyStr) : Decidable (Misnamed m msg) :=
  inferInstanceAs (Decidable (_ ∧ _ ∧ _))

/-- No message after a malformed one has a context, and none before the first malformed one is
misnamed. -/
def Separable (m : CtxMgr C) (msgs : List CqyStr) : Prop :=
  msgs.Pairwise (fun msg later ↦ msg.parse true = none → mqContext m later = none) ∧
    ∀ msg ∈ msgs.takeWhile fun msg ↦ (msg.parse true).isSome, ¬ Misnamed m msg

theorem mem_messageWise {m : CtxMgr C} {msgs : List CqyStr} {ctx : C} {msg : CqyStr} :
    (ctx, msg) ∈ messageWise m msgs ↔ msg ∈ msgs ∧ mqContext m msg = some ctx := by
  rw [messageWise, List.mem_filterMap]
  constructor
  · rintro ⟨msg', hmem, hmap⟩
    obtain ⟨ctx', hctx, heq⟩ := Option.map_eq_some_iff.mp hmap
    obtain ⟨rfl, rfl⟩ := Prod.mk.inj heq
    exact ⟨hmem, hctx⟩
  · rintro ⟨hmem, hctx⟩
    exact ⟨msg, hmem, by rw [hctx, Option.map_some]⟩

theorem messageWise_eq_nil_iff {m : CtxMgr C} {msgs : List CqyStr} :
    messageWise m msgs = [] ↔ ∀ msg ∈ msgs, mqContext m msg = none := by
  simp [messageWise, List.filterMap_eq_nil_iff]

theorem Misnamed.mqContext_eq_none {m : CtxMgr C} {msg : CqyStr} (h : Misnamed m msg) :
    mqContext m msg = none := by
  rw [mqContext]
  split
  · rfl
  · rw [if_pos h.1, h.2.1, Option.bind_none]

theorem Misnamed.isSome_mqTarget {m : CtxMgr C} {msg : CqyStr} (h : Misnamed m msg)
    (cmsg : CqyMsg) : (m.getCtx (mqTarget m cmsg msg)).isSome := by
  rw [mqTarget, if_pos h.1, CtxMgr.findName, h.2.1, Option.getD_none]
  exact h.2.2

/-- A well-formed message goes to its context, unless it is misnamed. -/
theorem getCtx_mqTarget {m : CtxMgr C} {msg : CqyStr} {cmsg : CqyMsg}
    (hparse : msg.parse true = some cmsg) (hnamed : ¬ Misnamed m msg) :
    m.getCtx (mqTarget m cmsg msg) = mqContext m msg := by
  rw [mqContext, hparse, mqTarget]
  dsimp only
  by_cases hname : msg.name.size ≠ 0
  · rw [if_pos hname, if_pos hname, CtxMgr.findName]
    cases hfind : m.names.find (msg.name.read msg) with
    | some id => rfl
    | none =>
      rw [Option.getD_none, Option.bind_none, ← Option.not_isSome_iff_eq_none]
      exact fun hzero ↦ hnamed ⟨hname, hfind, hzero⟩
  · rw [if_neg hname, if_neg hname]

theorem separable_cons {m : CtxMgr C} {msg : CqyStr} {cmsg : CqyMsg}
    (hparse : msg.parse true = some cmsg) (msgs : List CqyStr) :
    Separable m (msg :: msgs) ↔ ¬ Misnamed m msg ∧ Separable m msgs := by
  rw [Separable, Separable, List.pairwise_cons, List.takeWhile_cons_of_pos (by simp [hparse]),
    List.forall_mem_cons]
  simp only [hparse, reduceCtorEq, false_imp_iff, implies_true, true_and]
  exact and_left_comm

/-- After a malformed message nothing is delivered. -/
theorem separable_cons_of_malformed {m : CtxMgr C} {msg : CqyStr}
    (hparse : msg.parse true = none) (msgs : List CqyStr) :
    Separable m (msg :: msgs) ↔ ∀ later ∈ msgs, mqContext m later = none := by
  rw [Separable, List.pairwise_cons, List.takeWhile_cons_of_neg (by simp [hparse])]
  constructor
  · exact fun h later hlater ↦ h.1.1 later hlater hparse
  · refine fun h ↦ ⟨⟨fun later hlater _ ↦ h later hlater, ?_⟩, by simp⟩
    exact List.pairwise_of_forall_mem_list fun _ _ later hlater _ ↦ h later hlater

/-- For every batch and every registry: `rpc_on_mq` delivers message by message exactly if no
message after a malformed one has a context and none before the first malformed one is misnamed. -/
theorem rpcOnMq_messageWise_iff (m : CtxMgr C) (msgs : List CqyStr) :
    rpcOnMq m msgs = messageWise m msgs ↔ Separable m msgs := by
  induction msgs with
  | nil => simp [rpcOnMq, messageWise, Separable]
  | cons msg msgs ih =>
    cases hparse : msg.parse true with
    | none =>
      have hnone : mqContext m msg = none := by rw [mqContext, hparse]
      rw [rpcOnMq, hparse, separable_cons_of_malformed hparse, eq_comm, messageWise_eq_nil_iff,
        List.forall_mem_cons, and_iff_right hnone]
    | some cmsg =>
      rw [rpcOnMq, hparse, separable_cons hparse]
      dsimp only
      by_cases hmis : Misnamed m msg
      · -- The context with the id 0 gets a message that is not for it.
        obtain ⟨ctx, hctx⟩ := Option.isSome_iff_exists.mp (hmis.isSome_mqTarget cmsg)
        rw [hctx]
        refine iff_of_false (fun heq ↦ ?_) fun h ↦ h.1 hmis
        have hmem : (ctx, msg) ∈ messageWise m (msg :: msgs) := heq ▸ List.mem_cons_self
        rw [mem_messageWise, hmis.mqContext_eq_none] at hmem
        exact absurd hmem.2 (by simp)
      · rw [getCtx_mqTarget hparse hmis, and_iff_right hmis, ← ih, messageWise, messageWise]
        cases hctx : mqContext m msg with
        | none => simp [hctx]
        | some ctx => simp [hctx]

/-- A registry with one context, `true`, and no names. -/
def oneContext : CtxMgr Bool := ⟨1, AList.insert 0x01000001 true ∅, Table.empty⟩

/-- A message to the one context. -/
def toOneContext : CqyStr := CqyStr.make (fun _ ↦ 0) [] 0x02000001 0x01000001 1 1 false [104, 105]

/-- The message to the context comes after an empty string, and is lost. -/
theorem rpcOnMq_afterMalformed :
    mqContext oneContext toOneContext = some true ∧
    rpcOnMq oneContext [[], toOneContext] = [] ∧
    messageWise oneContext [[], toOneContext] = [(true, toOneContext)] := by
  refine ⟨rfl, rfl, rfl⟩

end Cqy.App
