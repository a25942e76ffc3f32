import Cqy.Ctx.Lock

/-!
# Contexts that call each other

The activations of any number of contexts, on any nodes, call functions of other contexts and of
their own.  A call starts an activation that has to take the lock of its context, and returns when
that activation has finished; meanwhile the caller has given its own lock back, and it takes the
lock again before it goes on.  Activations wait for a lock or for the activation they have called,
and for nothing else: a plain await is over when the executor says so.

Whoever holds a lock is not waiting, and an activation is called by an older one, so the youngest
unfinished activation waits at most for a lock whose holder can go on.
-/

namespace Cqy

open Foundation

/-- An activation on the context `ctx`, with the activation its releasing call waits for. -/
structure Caller (K M : Type) where
  ctx : K
  kind : ActivationKind M
  phase : Phase
  callee : Option ℕ := none
deriving DecidableEq

/-- The locks of all contexts and every activation that was ever started. -/
structure Calls (K M : Type) where
  locked : K → Bool := fun _ ↦ false
  acts : List (Caller K M) := []

namespace Calls

variable {K M : Type}

inductive Label (K M : Type) where
  /-- A message, an RPC from outside or `async_call` starts an activation on a context. -/
  | start (c : K) (k : ActivationKind M)
  | act (i : ℕ) (a : Action)
  /-- The call that activation `i` makes reaches a function of the context `c`. -/
  | invoke (i : ℕ) (c : K)

/-- The call that waits for `callee` may return. -/
def calleeDone (s : Calls K M) : Option ℕ → Bool
  | none => true
  | some j => s.acts[j]?.any fun act ↦ act.phase = .finished

def isCallEnd : Action → Bool
  | .callEnd _ => true
  | _ => false

def step [DecidableEq K] (s : Calls K M) : Label K M → Option (Calls K M)
  | .start c k => some { s with acts := s.acts ++ [{ ctx := c, kind := k, phase := .starting }] }
  | .act i a => s.acts[i]?.bind fun act ↦
      if isCallEnd a && !s.calleeDone act.callee then none
      else (advance (s.locked act.ctx) a act.phase).map fun (locked, phase) ↦
        { locked := Function.update s.locked act.ctx locked
          acts := s.acts.set i
            { act with phase := phase, callee := if isCallEnd a then none else act.callee } }
  | .invoke i c => s.acts[i]?.bind fun act ↦
      match act.phase with
      | .calling _ =>
        if s.calleeDone act.callee then
          some { s with
            acts := s.acts.set i { act with callee := some s.acts.length } ++
              [{ ctx := c, kind := .rpcFunc, phase := .starting }] }
        else none
      | _ => none

/-- Activation `i` stands in a locked section of the context `c`. -/
def Holds (s : Calls K M) (c : K) (i : ℕ) : Prop :=
  ∃ act, s.acts[i]? = some act ∧ act.ctx = c ∧ act.phase.holds = true

/-- A lock that is taken has a holder, and a callee is younger than its caller. -/
structure Inv (s : Calls K M) : Prop where
  holder : ∀ c, s.locked c = true → ∃ i, s.Holds c i
  callee : ∀ i (act : Caller K M) j, s.acts[i]? = some act → act.callee = some j →
    i < j ∧ j < s.acts.length

theorem inv_init : Inv ({} : Calls K M) where
  holder c h := absurd h (by simp)
  callee i act j h := absurd h (by simp)

/-! ## One step -/

theorem step_act_eq_some [DecidableEq K] {s s' : Calls K M} {i : ℕ} {a : Action} :
    s.step (.act i a) = some s' ↔ ∃ act locked phase, s.acts[i]? = some act ∧
      (isCallEnd a = true → s.calleeDone act.callee = true) ∧
      advance (s.locked act.ctx) a act.phase = some (locked, phase) ∧
      s' =
        { locked := Function.update s.locked act.ctx locked
          acts := s.acts.set i
            { act with phase := phase, callee := if isCallEnd a then none else act.callee } } := by
  simp only [step, Option.bind_eq_some_iff]
  constructor
  · rintro ⟨act, hact, hstep⟩
    by_cases hwait : (isCallEnd a && !s.calleeDone act.callee) = true
    · rw [if_pos hwait] at hstep
      exact absurd hstep (by simp)
    · rw [if_neg hwait] at hstep
      obtain ⟨⟨locked, phase⟩, hadv, rfl⟩ := Option.map_eq_some_iff.mp hstep
      refine ⟨act, locked, phase, hact, fun hend ↦ ?_, hadv, rfl⟩
      simpa [hend] using hwait
  · rintro ⟨act, locked, phase, hact, hdone, hadv, rfl⟩
    refine ⟨act, hact, ?_⟩
    rw [if_neg, hadv]
    · rfl
    · simpa using hdone

theorem step_invoke_eq_some [DecidableEq K] {s s' : Calls K M} {i : ℕ} {c : K} :
    s.step (.invoke i c) = some s' ↔ ∃ act call, s.acts[i]? = some act ∧
      act.phase = .calling call ∧ s.calleeDone act.callee = true ∧
      s' =
        { s with
          acts := s.acts.set i { act with callee := some s.acts.length } ++
            [{ ctx := c, kind := .rpcFunc, phase := .starting }] } := by
  simp only [step, Option.bind_eq_some_iff]
  constructor
  · rintro ⟨act, hact, hstep⟩
    split at hstep
    · rename_i call hphase
      split_ifs at hstep with hdone
      exact ⟨act, call, hact, hphase, hdone, (Option.some.inj hstep).symm⟩
    · exact absurd hstep (by simp)
  · rintro ⟨act, call, hact, hphase, hdone, rfl⟩
    refine ⟨act, hact, ?_⟩
    simp [hphase, hdone]

/-- Replacing an activation changes who holds a lock only at its own position. -/
theorem holds_set {s : Calls K M} {i j : ℕ} {act new : Caller K M} {locked : K → Bool} {c : K}
    (hact : s.acts[i]? = some act) :
    Holds ⟨locked, s.acts.set i new⟩ c j ↔
      if j = i then new.ctx = c ∧ new.phase.holds = true else s.Holds c j := by
  simp only [Holds, Vec.getElem?_set_of_some hact]
  split_ifs <;> simp

/-- A holder of the lock of `c` still holds it, unless it is the activation that was replaced by one
that does not. -/
theorem Holds.set {s : Calls K M} {c : K} {i j : ℕ} {act new : Caller K M} (h : s.Holds c j)
    (hact : s.acts[i]? = some act) (hctx : new.ctx = act.ctx)
    (hphase : act.ctx = c → act.phase.holds = true → new.phase.holds = true) (locked : K → Bool) :
    Holds ⟨locked, s.acts.set i new⟩ c j := by
  rw [holds_set hact]
  split_ifs with hji
  · subst hji
    obtain ⟨act', hact', hc, hholds⟩ := h
    obtain rfl := Option.some.inj (hact'.symm.trans hact)
    exact ⟨hctx.trans hc, hphase hc hholds⟩
  · exact h

theorem Holds.append {s : Calls K M} {c : K} {i : ℕ} (h : s.Holds c i) (acts : List (Caller K M)) :
    Holds { s with acts := s.acts ++ acts } c i := by
  obtain ⟨act, hact, hctx, hphase⟩ := h
  have hi : i < s.acts.length := (List.getElem?_eq_some_iff.mp hact).1
  exact ⟨act, by rwa [List.getElem?_append_left hi], hctx, hphase⟩

theorem inv_act [DecidableEq K] {s s' : Calls K M} {i : ℕ} {a : Action} (h : Inv s)
    (hstep : s.step (.act i a) = some s') : Inv s' := by
  obtain ⟨act, locked, phase, hact, -, hadv, rfl⟩ := step_act_eq_some.mp hstep
  refine ⟨fun c hlocked ↦ ?_, fun j new k hnew hk ↦ ?_⟩
  · dsimp only at hlocked
    by_cases hc : c = act.ctx
    · subst hc
      rw [Function.update_self] at hlocked
      rcases CtxLock.advance_cases i hadv with
        ⟨-, -, -, -, hafter⟩ | ⟨-, hfree, -⟩ | ⟨-, hsame, hphase⟩
      · exact ⟨i, by simp [holds_set hact, hafter]⟩
      · rw [hfree] at hlocked
        exact absurd hlocked (by simp)
      · -- the lock was taken before, and its holder still stands where it stood
        obtain ⟨j, hj⟩ := h.holder act.ctx (hsame ▸ hlocked)
        refine ⟨j, hj.set hact ?_ ?_ _⟩
        · rfl
        · exact fun _ hholds ↦ hphase.trans hholds
    · rw [Function.update_of_ne hc] at hlocked
      obtain ⟨j, hj⟩ := h.holder c hlocked
      refine ⟨j, hj.set hact ?_ ?_ _⟩
      · rfl
      · exact fun hctx ↦ absurd hctx.symm hc
  · rw [List.length_set]
    rw [Vec.getElem?_set_of_some hact] at hnew
    by_cases hji : j = i
    · rw [if_pos hji] at hnew
      obtain rfl := Option.some.inj hnew
      dsimp only at hk
      split_ifs at hk
      exact h.callee j act k (hji ▸ hact) hk
    · rw [if_neg hji] at hnew
      exact h.callee j new k hnew hk

/-- Activations that are added at the end, without callees, wait for nothing and hold nothing. -/
theorem Inv.append {s : Calls K M} (h : Inv s) (new : Caller K M) (hnew : new.callee = none) :
    Inv { s with acts := s.acts ++ [new] } := by
  refine ⟨fun c hlocked ↦ ?_, fun i act j hact hj ↦ ?_⟩
  · obtain ⟨i, hi⟩ := h.holder c hlocked
    exact ⟨i, hi.append [new]⟩
  · rw [List.length_append, List.length_singleton]
    by_cases hi : i < s.acts.length
    · dsimp only at hact
      rw [List.getElem?_append_left hi] at hact
      obtain ⟨hlt, hbound⟩ := h.callee i act j hact hj
      exact ⟨hlt, by omega⟩
    · dsimp only at hact
      rw [List.getElem?_append_right (by omega)] at hact
      obtain rfl := List.mem_singleton.mp (List.mem_of_getElem? hact)
      rw [hnew] at hj
      exact absurd hj (by simp)

/-- A caller that is about to wait for the next activation, which is started at once. -/
theorem inv_invoke [DecidableEq K] {s s' : Calls K M} {i : ℕ} {c : K} (h : Inv s)
    (hstep : s.step (.invoke i c) = some s') : Inv s' := by
  obtain ⟨act, call, hact, hphase, -, rfl⟩ := step_invoke_eq_some.mp hstep
  have hi : i < s.acts.length := (List.getElem?_eq_some_iff.mp hact).1
  let new : Caller K M := { ctx := c, kind := .rpcFunc, phase := .starting }
  refine ⟨fun c' hlocked ↦ ?_, fun j act' k hact' hk ↦ ?_⟩
  · obtain ⟨j, hj⟩ := h.holder c' hlocked
    have hset : Holds ⟨s.locked, s.acts.set i { act with callee := some s.acts.length }⟩ c' j := by
      refine hj.set hact ?_ ?_ _
      · rfl
      · exact fun _ hholds ↦ hholds
    exact ⟨j, hset.append [new]⟩
  · dsimp only at hact'
    rw [List.length_append, List.length_set, List.length_singleton]
    by_cases hj : j < s.acts.length
    · rw [List.getElem?_append_left (by rwa [List.length_set]),
        Vec.getElem?_set_of_some hact] at hact'
      split_ifs at hact' with hji
      · obtain rfl := Option.some.inj hact'
        obtain rfl := Option.some.inj hk
        omega
      · obtain ⟨hlt, hbound⟩ := h.callee j act' k hact' hk
        omega
    · rw [List.getElem?_append_right (by rw [List.length_set]; omega)] at hact'
      obtain rfl := List.mem_singleton.mp (List.mem_of_getElem? hact')
      exact absurd hk (by simp)

theorem inv_step [DecidableEq K] (s : Calls K M) (l : Label K M) (s' : Calls K M) (h : Inv s)
    (hstep : s.step l = some s') : Inv s' := by
  cases l with
  | start c k =>
    obtain rfl := Option.some.inj hstep
    exact h.append _ rfl
  | act i a => exact inv_act h hstep
  | invoke i c => exact inv_invoke h hstep

/-! ## Progress -/

/-- How many actions an activation needs at least from a phase to the end. -/
def remaining : Phase → ℕ
  | .finished => 0
  | .running _ => 1
  | .starting | .awaiting | .relocking _ _ => 2
  | .calling _ => 3

/-- The actions that all activations still need. -/
def work (s : Calls K M) : ℕ := (s.acts.map fun act ↦ remaining act.phase).sum

/-- The action that brings an activation closer to its end, whatever becomes of its awaits. -/
def next : Phase → Action
  | .starting => .acquire
  | .running _ | .finished => .leave
  | .awaiting => .resume false
  | .calling _ => .callEnd false
  | .relocking _ _ => .relock

/-- The phases that go on by taking the lock. -/
def takesLock : Phase → Bool
  | .starting | .relocking _ _ => true
  | _ => false

theorem advance_next {p : Phase} {locked : Bool} (hp : p ≠ .finished)
    (hfree : takesLock p = true → locked = false) :
    ∃ locked' p', advance locked (next p) p = some (locked', p') ∧ remaining p' < remaining p := by
  cases p with
  | finished => exact absurd rfl hp
  | starting =>
    rw [hfree rfl]
    exact ⟨true, .running false, rfl, by decide⟩
  | relocking c threw =>
    rw [hfree rfl]
    exact ⟨true, .running threw, rfl, by simp [remaining]⟩
  | running raised => exact ⟨false, .finished, rfl, by simp [remaining]⟩
  | awaiting => exact ⟨locked, .running false, rfl, by decide⟩
  | calling c => exact ⟨locked, .relocking c false, rfl, by simp [remaining]⟩

theorem isCallEnd_next {p : Phase} : isCallEnd (next p) = true ↔ ∃ c, p = .calling c := by
  cases p <;> simp [next, isCallEnd]

theorem sum_set_lt {l : List (Caller K M)} {i : ℕ} {act new : Caller K M} (hact : l[i]? = some act)
    (hlt : remaining new.phase < remaining act.phase) :
    ((l.set i new).map fun act ↦ remaining act.phase).sum <
      (l.map fun act ↦ remaining act.phase).sum := by
  obtain ⟨hi, rfl⟩ := List.getElem?_eq_some_iff.mp hact
  have hsplit : l = l.take i ++ l[i] :: l.drop (i + 1) := by simp
  rw [List.set_eq_take_append_cons_drop, if_pos hi]
  conv_rhs => rw [hsplit]
  simp only [List.map_append, List.map_cons, List.sum_append, List.sum_cons]
  omega

/-- An activation goes on when the lock it takes is free and the activation it waits for has
finished. -/
theorem exists_act [DecidableEq K] {s : Calls K M} {i : ℕ} {act : Caller K M}
    (hact : s.acts[i]? = some act) (hp : act.phase ≠ .finished)
    (hfree : takesLock act.phase = true → s.locked act.ctx = false)
    (hdone : ∀ c, act.phase = .calling c → s.calleeDone act.callee = true) :
    ∃ s', s.step (.act i (next act.phase)) = some s' ∧ work s' < work s := by
  obtain ⟨locked, phase, hadv, hlt⟩ := advance_next hp hfree
  refine ⟨_, step_act_eq_some.mpr ⟨act, locked, phase, hact, fun hend ↦ ?_, hadv, rfl⟩,
    sum_set_lt hact hlt⟩
  obtain ⟨c, hc⟩ := isCallEnd_next.mp hend
  exact hdone c hc

/-- The holder of a lock can go on: it is in its body. -/
theorem exists_act_of_holds [DecidableEq K] {s : Calls K M} {c : K} {i : ℕ} (h : s.Holds c i) :
    ∃ a s', s.step (.act i a) = some s' ∧ work s' < work s := by
  obtain ⟨act, hact, -, hholds⟩ := h
  have hbody : act.phase ≠ .finished ∧ takesLock act.phase = false ∧
      ∀ c, act.phase ≠ .calling c := by
    cases hphase : act.phase <;> simp [hphase, Phase.holds, takesLock] at hholds ⊢
  obtain ⟨s', hstep, hlt⟩ := exists_act hact hbody.1 (fun h ↦ absurd h (by simp [hbody.2.1]))
    fun c hc ↦ absurd hc (hbody.2.2 c)
  exact ⟨_, s', hstep, hlt⟩

/-- Some activation can go on when activation `i` is unfinished: itself, the holder of the lock it
takes, or one that it waits for, directly or through others.  Callees are younger than their
callers, so the induction is on the number of activations that are younger. -/
theorem exists_act_of_unfinished [DecidableEq K] {s : Calls K M} (h : Inv s) (n i : ℕ)
    (act : Caller K M) (hn : s.acts.length - i = n) (hact : s.acts[i]? = some act)
    (hp : act.phase ≠ .finished) :
    ∃ j a s', s.step (.act j a) = some s' ∧ work s' < work s := by
  induction n using Nat.strong_induction_on generalizing i act with
  | h n ih =>
    by_cases hlock : takesLock act.phase = true ∧ s.locked act.ctx = true
    · obtain ⟨j, hj⟩ := h.holder act.ctx hlock.2
      exact ⟨j, exists_act_of_holds hj⟩
    have hfree (htakes : takesLock act.phase = true) : s.locked act.ctx = false := by
      simpa using not_and.mp hlock htakes
    by_cases hdone : s.calleeDone act.callee = true
    · exact ⟨i, _, exists_act hact hp hfree fun _ _ ↦ hdone⟩
    · -- the callee is a younger activation that has not finished
      cases hcallee : act.callee with
      | none =>
        rw [hcallee] at hdone
        exact absurd rfl hdone
      | some j =>
        obtain ⟨hlt, hbound⟩ := h.callee i act j hact hcallee
        refine ih (s.acts.length - j) (by omega) j s.acts[j] rfl
          (List.getElem?_eq_getElem hbound) ?_
        simpa [hcallee, calleeDone, List.getElem?_eq_getElem hbound] using hdone

/-- In every reachable state with an unfinished activation, some activation can take a step.  By
`can_finish` below, they can even all come to their end. -/
theorem no_deadlock [DecidableEq K] (ls : List (Label K M)) (s : Calls K M)
    (hrun : Machine.run step {} ls = some s) (hwork : ∃ act ∈ s.acts, act.phase ≠ .finished) :
    ∃ i a s', s.step (.act i a) = some s' := by
  have hinv : Inv s := Machine.Reachable.invariant inv_step ⟨ls, hrun⟩ inv_init
  obtain ⟨act, hmem, hp⟩ := hwork
  obtain ⟨i, hact⟩ := List.mem_iff_getElem?.mp hmem
  obtain ⟨j, a, s', hstep, -⟩ := exists_act_of_unfinished hinv _ i act rfl hact hp
  exact ⟨j, a, s', hstep⟩

/-- The activation of the context `true` calls `false`, which calls back, and the third activation
calls its own context. -/
def circularCalls : List (Label Bool Unit) :=
  [.start true (.onMsg ()), .act 0 .acquire, .act 0 (.release .ctxCall), .invoke 0 false,
    .act 1 .acquire, .act 1 (.release .ctxCallName), .invoke 1 true, .act 2 .acquire,
    .act 2 (.release .ctxCall), .invoke 2 true]

theorem no_deadlock_circular : ∃ s : Calls Bool Unit,
    Machine.run step {} circularCalls = some s ∧
    (s.acts.map Caller.callee) = [some 1, some 2, some 3, none] ∧
    ∃ i a s', s.step (.act i a) = some s' :=
  ⟨_, rfl, rfl, no_deadlock circularCalls _ rfl ⟨_, List.mem_cons_self .., by decide⟩⟩

/-- No activation has to stay unfinished: from every reachable state, steps of the activations that
are there lead to a state in which all of them have finished. -/
theorem can_finish [DecidableEq K] (ls : List (Label K M)) (s : Calls K M)
    (hrun : Machine.run step {} ls = some s) :
    ∃ is s', Machine.run (fun s (p : ℕ × Action) ↦ s.step (.act p.1 p.2)) s is = some s' ∧
      ∀ act ∈ s'.acts, act.phase = .finished := by
  have hinv : Inv s := Machine.Reachable.invariant inv_step ⟨ls, hrun⟩ inv_init
  refine Machine.exists_run_of_decreasing work (fun s p s' ↦ inv_step s (.act p.1 p.2) s')
    (fun s h hgoal ↦ ?_) hinv
  simp only [not_forall] at hgoal
  obtain ⟨act, hmem, hp⟩ := hgoal
  obtain ⟨i, hact⟩ := List.mem_iff_getElem?.mp hmem
  obtain ⟨j, a, s', hstep, hlt⟩ := exists_act_of_unfinished h _ i act rfl hact hp
  exact ⟨(j, a), s', hstep, hlt⟩

end Calls

end Cqy
