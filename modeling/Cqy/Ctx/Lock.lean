import Cqy.Foundation.Machine
import Cqy.Foundation.Mutex
import Cqy.Foundation.Vec

/-!
# The context lock

Three functions run user code under `ctx_lock`: the `on_msg` wrapper of `wait_msg_spawn`, the RPC
wrapper that `register_rpc_func` installs for `muli = false`, and `coro_async_wrapper`.  Each takes
the lock with a scoped guard that is destroyed when the body ends, by return or by exception.
Inside the body, `ctx_call`, `ctx_call_name` and `sync_call` unlock by hand, and a scope-exit
action locks again before the awaited call's result or exception reaches the body.

The lock is a spin lock: one flag, cleared by whoever unlocks.  What the body does is left to the
labels, so that a run is any interleaving of any finite bodies with any outcome of every await.
-/

namespace Cqy

open Foundation

/-- What an activation runs; a handler of a message carries the message. -/
inductive ActivationKind (M : Type) where
  /-- `wrapper_on_msg` in `cqy_ctx::wait_msg_spawn`. -/
  | onMsg (msg : M)
  /-- The lambda of `cqy_ctx::register_rpc_func` with `muli = false`. -/
  | rpcFunc
  /-- `cqy_ctx::coro_async_wrapper`, started by `async_call`. -/
  | asyncCall
deriving DecidableEq

/-- The message of a message handler. -/
def ActivationKind.msg? {M : Type} : ActivationKind M → Option M
  | onMsg msg => some msg
  | _ => none

/-- The functions that release the lock around an await. -/
inductive ReleasingCall where
  | ctxCall
  | ctxCallName
  | syncCall
deriving DecidableEq

/-- Where an activation stands. -/
inductive Phase where
  /-- In `coScopedLock`. -/
  | starting
  /-- In the body; `raised` when an exception is in flight. -/
  | running (raised : Bool)
  /-- In a plain await of the body. -/
  | awaiting
  /-- In a releasing call, between `ctx_lock().unlock()` and the end of the awaited call. -/
  | calling (c : ReleasingCall)
  /-- In the scope-exit action `ctx_lock().lock()`; `threw` when the awaited call threw. -/
  | relocking (c : ReleasingCall) (threw : Bool)
  | finished
deriving DecidableEq

namespace Phase

/-- The code positions between an acquisition of the lock and the next release. -/
def holds : Phase → Bool
  | running _ | awaiting => true
  | _ => false

/-- The positions inside `ctx_call`, `ctx_call_name` and `sync_call`. -/
def inCall : Phase → Bool
  | calling _ | relocking _ _ => true
  | _ => false

end Phase

/-- What an activation does next, with the environment's answer. -/
inductive Action where
  | acquire
  | work
  | raise
  | handle
  | await
  | resume (threw : Bool)
  | release (c : ReleasingCall)
  | callEnd (threw : Bool)
  | relock
  | leave
deriving DecidableEq

/-- The lock event an action stands for. -/
def Action.event {α : Type} (i : α) : Action → Option (Mutex.Event α)
  | acquire | relock => some (.lock i)
  | release _ | leave => some (.unlock i)
  | _ => none

/-- One action of an activation: the flag of the spin lock and the position after it. -/
def advance (locked : Bool) : Action → Phase → Option (Bool × Phase)
  | .acquire, .starting => if locked then none else some (true, .running false)
  | .work, .running false => some (locked, .running false)
  | .raise, .running false => some (locked, .running true)
  | .handle, .running true => some (locked, .running false)
  | .await, .running false => some (locked, .awaiting)
  | .resume threw, .awaiting => some (locked, .running threw)
  | .release c, .running false => some (false, .calling c)
  | .callEnd threw, .calling c => some (locked, .relocking c threw)
  | .relock, .relocking _ threw => if locked then none else some (true, .running threw)
  -- the guard is destroyed when the body returns and when an exception leaves it
  | .leave, .running _ => some (false, .finished)
  | _, _ => none

structure Activation (M : Type) where
  kind : ActivationKind M
  phase : Phase
deriving DecidableEq

/-- A context's lock and every activation that was ever started on the context. -/
structure CtxLock (M : Type) where
  locked : Bool := false
  acts : List (Activation M) := []
deriving DecidableEq

namespace CtxLock

variable {M : Type}

inductive Label (M : Type) where
  | start (k : ActivationKind M)
  | act (i : ℕ) (a : Action)
deriving DecidableEq

def step (s : CtxLock M) : Label M → Option (CtxLock M)
  | .start k => some { s with acts := s.acts ++ [⟨k, .starting⟩] }
  | .act i a => s.acts[i]?.bind fun act ↦ (advance s.locked a act.phase).map fun (locked, phase) ↦
      { locked := locked, acts := s.acts.set i { act with phase := phase } }

/-- The lock events of a step. -/
def emit (_ : CtxLock M) : Label M → List (Mutex.Event ℕ)
  | .start _ => []
  | .act i a => (a.event i).toList

/-- Activation `i` stands in a section between an acquisition and a release. -/
def Holds (s : CtxLock M) (i : ℕ) : Prop := ∃ act, s.acts[i]? = some act ∧ act.phase.holds = true

/-- Activation `i` stands in `ctx_call`, `ctx_call_name` or `sync_call`. -/
def InCall (s : CtxLock M) (i : ℕ) : Prop := ∃ act, s.acts[i]? = some act ∧ act.phase.inCall = true

/-! ## One step -/

/-- All an action can do to the flag and to the section the activation stands in. -/
theorem advance_cases {locked locked' : Bool} {a : Action} {p p' : Phase} (i : ℕ)
    (h : advance locked a p = some (locked', p')) :
    (a.event i = some (.lock i) ∧ locked = false ∧ locked' = true ∧ p.holds = false ∧
      p'.holds = true) ∨
    (a.event i = some (.unlock i) ∧ locked' = false ∧ p.holds = true ∧ p'.holds = false) ∨
    (a.event i = none ∧ locked' = locked ∧ p'.holds = p.holds) := by
  unfold advance at h
  split at h <;> simp_all [Action.event, Phase.holds] <;> grind

theorem step_act_eq_some {s s' : CtxLock M} {i : ℕ} {a : Action} :
    s.step (.act i a) = some s' ↔ ∃ act locked phase, s.acts[i]? = some act ∧
      advance s.locked a act.phase = some (locked, phase) ∧
      s' = { locked := locked, acts := s.acts.set i { act with phase := phase } } := by
  simp only [step, Option.bind_eq_some_iff, Option.map_eq_some_iff, Prod.exists]
  constructor
  · rintro ⟨act, hact, locked, phase, hadv, rfl⟩
    exact ⟨act, locked, phase, hact, hadv, rfl⟩
  · rintro ⟨act, locked, phase, hact, hadv, rfl⟩
    exact ⟨act, hact, locked, phase, hadv, rfl⟩

theorem holds_set {s : CtxLock M} {i j : ℕ} {act new : Activation M} {locked : Bool}
    (hact : s.acts[i]? = some act) :
    Holds ⟨locked, s.acts.set i new⟩ j ↔
      if j = i then new.phase.holds = true else s.Holds j := by
  simp only [Holds, Vec.getElem?_set_of_some hact]
  split_ifs <;> simp

theorem holds_append {s : CtxLock M} {k : ActivationKind M} {j : ℕ} :
    Holds ⟨s.locked, s.acts ++ [⟨k, .starting⟩]⟩ j ↔ s.Holds j := by
  constructor
  · rintro ⟨act, hact, hphase⟩
    by_cases hj : j < s.acts.length
    · exact ⟨act, by rwa [List.getElem?_append_left hj] at hact, hphase⟩
    · rw [List.getElem?_append_right (by omega), List.getElem?_singleton] at hact
      split_ifs at hact
      obtain rfl := Option.some.inj hact
      simp [Phase.holds] at hphase
  · rintro ⟨act, hact, hphase⟩
    have hj : j < s.acts.length := (List.getElem?_eq_some_iff.mp hact).1
    exact ⟨act, by rwa [List.getElem?_append_left hj], hphase⟩

/-! ## The lock events are a run of the owned mutex -/

/-- The owner of the mutex is the activation that stands in a locked section. -/
def Owned (s : CtxLock M) (owner : Option ℕ) : Prop :=
  s.locked = owner.isSome ∧ ∀ i, s.Holds i ↔ owner = some i

theorem owned_init : Owned ({} : CtxLock M) none := by
  refine ⟨rfl, fun i ↦ ?_⟩
  simp [Holds]

/-- Each step is allowed by the mutex: a lock when nobody owns it, an unlock by the owner. -/
theorem owned_step (s : CtxLock M) (l : Label M) (s' : CtxLock M) (owner : Option ℕ)
    (h : Owned s owner) (hstep : s.step l = some s') :
    ∃ owner', Machine.run Mutex.step owner (s.emit l) = some owner' ∧ Owned s' owner' := by
  cases l with
  | start k =>
    obtain rfl := Option.some.inj hstep
    exact ⟨owner, rfl, Mutex.Owns.keep h fun i ↦ holds_append⟩
  | act i a =>
    obtain ⟨act, locked, phase, hact, hadv, rfl⟩ := step_act_eq_some.mp hstep
    have hbefore : s.Holds i ↔ act.phase.holds = true := by simp [Holds, hact]
    have hafter : Holds ⟨locked, s.acts.set i { act with phase := phase }⟩ i ↔
        phase.holds = true := by rw [holds_set hact, if_pos rfl]
    have hothers : ∀ j ≠ i, Holds ⟨locked, s.acts.set i { act with phase := phase }⟩ j ↔
        s.Holds j := fun j hj ↦ by rw [holds_set hact, if_neg hj]
    rcases advance_cases i hadv with ⟨hev, hfree, rfl, -, hholds⟩ | ⟨hev, rfl, hheld, hleft⟩ |
      ⟨hev, rfl, hsame⟩
    · -- a lock: the flag was clear, so there was no owner
      obtain rfl := Mutex.Owns.eq_none h hfree
      refine ⟨some i, ?_, Mutex.Owns.acquire h hfree (hafter.mpr hholds) hothers⟩
      rw [emit, hev, Option.toList_some, Machine.run_cons, Mutex.step_lock]
      rfl
    · -- an unlock: the activation stood in a section, so it was the owner
      have hmine := hbefore.mpr hheld
      obtain rfl := Mutex.Owns.eq_some h hmine
      refine ⟨none, ?_, Mutex.Owns.release h hmine (by simp [hafter, hleft]) hothers⟩
      rw [emit, hev, Option.toList_some, Machine.run_cons, Mutex.step_unlock]
      rfl
    · refine ⟨owner, by simp [emit, hev], Mutex.Owns.keep h fun j ↦ ?_⟩
      by_cases hj : j = i
      · rw [hj, hafter, hbefore, hsame]
      · exact hothers j hj

/-- Leaving one of the releasing calls means taking the lock. -/
theorem event_of_leave_call {s s' : CtxLock M} {l : Label M} {i : ℕ} (hstep : s.step l = some s')
    (hbefore : s.InCall i) (hafter : ¬ s'.InCall i) : s.emit l = [.lock i] ∧ s'.Holds i := by
  obtain ⟨act, hact, hcall⟩ := hbefore
  have hi : i < s.acts.length := (List.getElem?_eq_some_iff.mp hact).1
  cases l with
  | start k =>
    obtain rfl := Option.some.inj hstep
    exact absurd ⟨act, by rwa [List.getElem?_append_left hi], hcall⟩ hafter
  | act j a =>
    obtain ⟨act', locked, phase, hact', hadv, rfl⟩ := step_act_eq_some.mp hstep
    by_cases hij : j = i
    · subst hij
      obtain rfl := Option.some.inj (hact'.symm.trans hact)
      have hleft : phase.inCall = false := by
        by_contra hne
        exact hafter ⟨_, List.getElem?_set_self hi, by simpa using hne⟩
      have hlocks : a = .relock ∧ phase.holds = true := by
        unfold advance at hadv
        split at hadv <;> simp_all [Phase.inCall, Phase.holds] <;> grind
      refine ⟨by simp [emit, hlocks.1, Action.event], _, List.getElem?_set_self hi, hlocks.2⟩
    · exact absurd ⟨act, by rwa [List.getElem?_set_ne hij], hcall⟩ hafter

/-- Mutual exclusion on one context, over every interleaving of its activations. -/
theorem mutual_exclusion (is : List (Label M)) (s : CtxLock M)
    (hrun : Machine.run step {} is = some s) :
    (∃ owner, Machine.run Mutex.step none (Machine.trace step emit {} is) = some owner ∧
      s.locked = owner.isSome ∧ ∀ i, s.Holds i ↔ owner = some i) ∧
    (∀ i j, s.Holds i → s.Holds j → i = j) ∧
    (∀ l s' i, s.step l = some s' → .unlock i ∈ s.emit l → s.locked = true ∧ s.Holds i) ∧
    (∀ l s' i, s.step l = some s' → s.InCall i → ¬ s'.InCall i →
      s.emit l = [.lock i] ∧ s'.locked = true ∧ s'.Holds i) ∧
    ((∀ act ∈ s.acts, act.phase = .finished) → s.locked = false) := by
  obtain ⟨owner, htrace, howned⟩ := Machine.simulation owned_step owned_init hrun
  obtain ⟨hlocked, howner⟩ := howned
  refine ⟨⟨owner, htrace, hlocked, howner⟩, ?_, ?_, ?_, ?_⟩
  · intro i j hi hj
    rw [howner] at hi hj
    exact Option.some.inj (hi.symm.trans hj)
  · intro l s' i hstep hmem
    have hholds : s.Holds i := by
      cases l with
      | start k => simp [emit] at hmem
      | act j a =>
        obtain ⟨act, locked, phase, hact, hadv, rfl⟩ := step_act_eq_some.mp hstep
        rcases advance_cases j hadv with ⟨hev, -⟩ | ⟨hev, -, hbefore, -⟩ | ⟨hev, -⟩ <;>
          simp [emit, hev] at hmem
        exact ⟨act, hmem ▸ hact, hbefore⟩
    exact ⟨by rw [hlocked, (howner i).mp hholds]; rfl, hholds⟩
  · intro l s' i hstep hbefore hafter
    obtain ⟨hev, hholds⟩ := event_of_leave_call hstep hbefore hafter
    obtain ⟨owner', -, hlocked', howner'⟩ := owned_step s l s' owner ⟨hlocked, howner⟩ hstep
    exact ⟨hev, by rw [hlocked', (howner' i).mp hholds]; rfl, hholds⟩
  · intro hall
    cases hown : owner with
    | none => rw [hlocked, hown]; rfl
    | some i =>
      obtain ⟨act, hact, hphase⟩ := (howner i).mpr hown
      rw [hall act (List.mem_of_getElem? hact)] at hphase
      simp [Phase.holds] at hphase

/-- A message handler calls another context while a task runs; the call throws, and the handler
ends with the exception after it has taken the lock back. -/
theorem mutual_exclusion_throwing : ∃ s : CtxLock Unit,
    Machine.run step {} [.start (.onMsg ()), .start .asyncCall, .act 0 .acquire,
      .act 0 (.release .ctxCall), .act 1 .acquire, .act 0 (.callEnd true), .act 1 .leave,
      .act 0 .relock, .act 0 .leave] = some s ∧ s.locked = false := by
  have hrun : Machine.run step ({} : CtxLock Unit) [.start (.onMsg ()), .start .asyncCall,
      .act 0 .acquire, .act 0 (.release .ctxCall), .act 1 .acquire, .act 0 (.callEnd true),
      .act 1 .leave, .act 0 .relock, .act 0 .leave] =
        some { acts := [⟨.onMsg (), .finished⟩, ⟨.asyncCall, .finished⟩] } := by decide
  exact ⟨_, hrun, (mutual_exclusion _ _ hrun).2.2.2.2 (by decide)⟩

end CtxLock

end Cqy
