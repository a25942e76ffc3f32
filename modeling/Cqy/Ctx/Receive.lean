import Cqy.Ctx.Lock
import Cqy.Utils.CvQueue
import Cqy.Wire.Message

/-!
# The receive loop of a context

`wait_msg_spawn` pops one message after the other and starts a coroutine for each of them on the
global block executor.  The coroutine takes the context lock and enters `on_msg`.  The loop does
not wait for it, so the order of the entries is left to the executor and to the lock.

The machine adds the loop and its queue to the context lock; RPC handlers and tasks of the same
context compete for the lock too.  Messages are numbered in the order in which they entered the
queue; `pushed`, `popped` and `entered` are history.  A wait in `pop` may end when its predicate
holds; nothing says that it does, since the notification can be lost.  What a handler does with the
closure it was started from once the loop has ended, and the closure with it, is undefined, and the
machine refuses it.
-/

namespace Cqy

open Foundation

/-- Where `wait_msg_spawn` stands. -/
inductive ReceivePc where
  | test
  | pop
  /-- `pop` has found a message, and `stop` clear. -/
  | take
  | finished
deriving DecidableEq

structure Receive where
  queue : CvQueue CqyStr := {}
  /-- Pushes that have passed the test of `stop` and have yet to take the mutex. -/
  pushers : List CqyStr := []
  pc : ReceivePc := .test
  lock : CtxLock (ℕ × CqyStr) := {}
  pushed : List CqyStr := []
  popped : ℕ := 0
  entered : List ℕ := []
deriving DecidableEq

namespace Receive

inductive Label where
  /-- `node_push_msg` reads `stop`. -/
  | pushTest (msg : CqyStr)
  | pushEnqueue (i : ℕ)
  | shutdown
  | test
  /-- The wait of `pop` ends, and it tests once more. -/
  | pop
  /-- `pop` takes the front, and the loop goes on with it. -/
  | take
  /-- An RPC call or `async_call` starts an activation of its own. -/
  | start (rpc : Bool)
  /-- An activation of the context takes a step. -/
  | act (i : ℕ) (a : Action)
deriving DecidableEq

/-- The message number an activation enters `on_msg` with when it does `a`. -/
def entry (s : Receive) (i : ℕ) (a : Action) : List ℕ :=
  match a, s.lock.acts[i]? with
  | .acquire, some ⟨.onMsg (n, _), _⟩ => [n]
  | _, _ => []

/-- The loop body after `pop` has returned `msg`. -/
def handle (s : Receive) (msg : CqyStr) : Receive :=
  let n := s.popped
  let s := { s with pc := .test, popped := n + 1 }
  if (msg.parse true).isSome then
    { s with lock := { s.lock with acts := s.lock.acts ++ [⟨.onMsg (n, msg), .starting⟩] } }
  else s

def step (s : Receive) : Label → Option Receive
  | .pushTest msg => some (if s.queue.stop then s else { s with pushers := s.pushers ++ [msg] })
  | .pushEnqueue i => s.pushers[i]?.map fun msg ↦
      { s with
        pushers := s.pushers.eraseIdx i
        queue := s.queue.enqueue msg
        pushed := s.pushed ++ [msg] }
  | .shutdown => some { s with queue := s.queue.shutdown.2 }
  | .test =>
      if s.pc = .test then some { s with pc := if s.queue.stop then .finished else .pop } else none
  | .pop =>
      if s.pc = .pop ∧ s.queue.ready = true then
        -- the exception `queue stop` is caught by the loop
        some { s with pc := if s.queue.items.isEmpty || s.queue.stop then .test else .take }
      else none
  | .take =>
      match s.pc, s.queue.items with
      | .take, msg :: rest => some (handle { s with queue := { s.queue with items := rest } } msg)
      | _, _ => none
  | .start rpc =>
      (s.lock.step (.start (if rpc then .rpcFunc else .asyncCall))).map fun lock ↦
        { s with lock := lock }
  | .act i a =>
      if s.pc = .finished ∧ s.entry i a ≠ [] then none
      else (s.lock.step (.act i a)).map fun lock ↦
        { s with lock := lock, entered := s.entered ++ s.entry i a }

/-- The numbered messages of the handlers that were started, in the order of their start. -/
def started (s : Receive) : List (ℕ × CqyStr) :=
  (s.lock.acts.map Activation.kind).filterMap ActivationKind.msg?

/-- Entries in push order, and therefore at most one for each message. -/
def InOrder (s : Receive) : Prop := s.entered.Pairwise (· < ·)

instance (s : Receive) : Decidable s.InOrder := by
  unfold InOrder
  infer_instance

section Steps

variable {s s' : Receive} {i : ℕ} {a : Action}

theorem pop_eq_some_iff : s.step .pop = some s' ↔ s.pc = .pop ∧ s.queue.ready = true ∧
    s' = { s with pc := if s.queue.items.isEmpty || s.queue.stop then .test else .take } := by
  rw [step]
  by_cases h : s.pc = .pop ∧ s.queue.ready = true
  · rw [if_pos h, Option.some_inj, eq_comm]
    exact ⟨fun heq ↦ ⟨h.1, h.2, heq⟩, fun heq ↦ heq.2.2⟩
  · rw [if_neg h]
    exact iff_of_false (by simp) fun heq ↦ h ⟨heq.1, heq.2.1⟩

theorem take_eq_some_iff : s.step .take = some s' ↔ ∃ msg rest, s.pc = .take ∧
    s.queue.items = msg :: rest ∧
    s' = handle { s with queue := { s.queue with items := rest } } msg := by
  cases hpc : s.pc <;> cases hitems : s.queue.items <;> simp [step, hpc, hitems, eq_comm]

theorem act_eq_some (hstep : s.step (.act i a) = some s') :
    (s.pc = .finished → s.entry i a = []) ∧ ∃ lock, s.lock.step (.act i a) = some lock ∧
      s' = { s with lock := lock, entered := s.entered ++ s.entry i a } := by
  simp only [step] at hstep
  split_ifs at hstep with hgone
  obtain ⟨lock, hlock, rfl⟩ := Option.map_eq_some_iff.mp hstep
  exact ⟨fun hpc ↦ by simpa [hpc] using hgone, lock, hlock, rfl⟩

end Steps

/-! ## Handlers overtake each other -/

/-- Two messages of the same sender to the same context. -/
def firstMsg : CqyStr := CqyStr.make (fun _ ↦ 0) [] 0x01000001 0x01000002 1 0 false [97]

def secondMsg : CqyStr := CqyStr.make (fun _ ↦ 0) [] 0x01000001 0x01000002 2 0 false [98]

/-- Both messages are popped, and the handler of the second one gets the lock first. -/
def overtakingRun : List Label :=
  [.pushTest firstMsg, .pushEnqueue 0, .pushTest secondMsg, .pushEnqueue 0, .test, .pop, .take,
    .test, .pop, .take, .act 1 .acquire, .act 1 .leave, .act 0 .acquire]

theorem overtaking : ∃ s, Machine.run step {} overtakingRun = some s ∧
    s.pushed = [firstMsg, secondMsg] ∧ (∀ msg ∈ s.pushed, (msg.parse true).isSome) ∧
    s.queue.stop = false ∧ s.entered = [1, 0] ∧ ¬ s.InOrder := by
  have hrun : Machine.run step {} overtakingRun = some
      { pc := .test
        lock :=
          { locked := true
            acts := [⟨.onMsg (0, firstMsg), .running false⟩, ⟨.onMsg (1, secondMsg), .finished⟩] }
        pushed := [firstMsg, secondMsg]
        popped := 2
        entered := [1, 0] } := by decide
  exact ⟨_, hrun, rfl, by decide, rfl, rfl, by decide⟩

/-! ## What the loop does guarantee -/

/-- The handlers the loop owes the first `popped` messages, in push order. -/
def owed (pushed : List CqyStr) (popped : ℕ) : List (ℕ × CqyStr) :=
  (pushed.take popped).zipIdx.filterMap fun (msg, n) ↦
    if (msg.parse true).isSome then some (n, msg) else none

/-- Activation `i` is the handler of message number `n`. -/
def HandlerAt (s : Receive) (i n : ℕ) (msg : CqyStr) (p : Phase) : Prop :=
  s.lock.acts[i]? = some { kind := .onMsg (n, msg), phase := p }

structure Inv (s : Receive) : Prop where
  queue : s.pushed.drop s.popped = s.queue.items
  popped : s.popped ≤ s.pushed.length
  take : s.pc = .take → s.queue.items ≠ []
  started : s.started = owed s.pushed s.popped
  /-- A message number belongs to one activation. -/
  unique : ∀ i j n m m' p p', s.HandlerAt i n m p → s.HandlerAt j n m' p' → i = j
  bound : ∀ i n m p, s.HandlerAt i n m p → n < s.popped
  entered : ∀ n, n ∈ s.entered ↔ ∃ i m p, s.HandlerAt i n m p ∧ p ≠ .starting
  nodup : s.entered.Nodup

theorem inv_init : Inv {} where
  queue := rfl
  popped := Nat.le_refl 0
  take := by simp
  started := rfl
  unique := by simp [HandlerAt]
  bound := by simp [HandlerAt]
  entered := by simp [HandlerAt]
  nodup := List.nodup_nil

/-- Steps that leave the activations alone and pop nothing. -/
theorem Inv.of_queue {s s' : Receive} (h : Inv s) (hlock : s'.lock = s.lock)
    (hpopped : s'.popped = s.popped) (hentered : s'.entered = s.entered)
    (hqueue : ∃ new, s'.pushed = s.pushed ++ new ∧ s'.queue.items = s.queue.items ++ new)
    (hpc : s'.pc = .take → s'.queue.items ≠ []) : Inv s' := by
  obtain ⟨new, hpushed, hitems⟩ := hqueue
  have htake : s'.pushed.take s'.popped = s.pushed.take s.popped := by
    rw [hpushed, hpopped, List.take_append_of_le_length h.popped]
  refine ⟨?_, ?_, hpc, ?_, ?_, ?_, ?_, ?_⟩
  · rw [hpushed, hpopped, hitems, List.drop_append_of_le_length h.popped, h.queue]
  · rw [hpushed, hpopped, List.length_append]
    exact Nat.le_add_right_of_le h.popped
  · rw [Receive.started, hlock, owed, htake]
    exact h.started
  · simpa only [HandlerAt, hlock] using h.unique
  · simpa only [HandlerAt, hlock, hpopped] using h.bound
  · simpa only [HandlerAt, hlock, hentered] using h.entered
  · rw [hentered]
    exact h.nodup

/-- Popping the front message makes its handler the next one that is owed. -/
theorem owed_succ {s : Receive} {msg : CqyStr} {rest : List CqyStr} (h : Inv s)
    (hfront : s.queue.items = msg :: rest) :
    s.popped + 1 ≤ s.pushed.length ∧ s.pushed.drop (s.popped + 1) = rest ∧
      owed s.pushed (s.popped + 1) = owed s.pushed s.popped ++
        if (msg.parse true).isSome then [(s.popped, msg)] else [] := by
  have hdrop := h.queue.trans hfront
  have hlt : s.popped < s.pushed.length := by
    by_contra hge
    rw [List.drop_eq_nil_of_le (by omega)] at hdrop
    exact absurd hdrop (by simp)
  have hget : s.pushed[s.popped]? = some msg := by
    rw [← List.head?_drop, hdrop]
    rfl
  have htake : s.pushed.take (s.popped + 1) = s.pushed.take s.popped ++ [msg] := by
    rw [List.take_add_one, hget]
    rfl
  refine ⟨hlt, ?_, ?_⟩
  · rw [← List.tail_drop, hdrop]
    rfl
  · rw [owed, htake, List.zipIdx_append, List.filterMap_append, List.length_take,
      Nat.min_eq_left h.popped]
    by_cases hparse : (msg.parse true).isSome <;> simp [owed, hparse]

theorem handlerAt_append {s s' : Receive} {act : Activation (ℕ × CqyStr)}
    (hacts : s'.lock.acts = s.lock.acts ++ [act]) {i n : ℕ} {m : CqyStr} {p : Phase} :
    s'.HandlerAt i n m p ↔ s.HandlerAt i n m p ∨
      (i = s.lock.acts.length ∧ act = { kind := .onMsg (n, m), phase := p }) := by
  rw [HandlerAt, HandlerAt, hacts]
  by_cases hi : i < s.lock.acts.length
  · rw [List.getElem?_append_left hi]
    simp [Nat.ne_of_lt hi]
  · have hnone : s.lock.acts[i]? = none := List.getElem?_eq_none (by omega)
    rw [List.getElem?_append_right (by omega), List.getElem?_singleton, hnone]
    by_cases heq : i = s.lock.acts.length
    · simp [heq]
    · have hpos : ¬ i - s.lock.acts.length = 0 := by omega
      simp [heq, hpos]

/-- The front message is popped, and its handler is started if the frame is well formed. -/
theorem inv_handle {s : Receive} {msg : CqyStr} {queue : CvQueue CqyStr} (h : Inv s)
    (hfront : s.queue.items = msg :: queue.items) : Inv (handle { s with queue := queue } msg) := by
  obtain ⟨hlt, hrest, howed⟩ := owed_succ h hfront
  by_cases hparse : (msg.parse true).isSome
  · have hacts : (handle { s with queue := queue } msg).lock.acts =
        s.lock.acts ++ [⟨.onMsg (s.popped, msg), .starting⟩] := by simp [handle, hparse]
    have hpopped : (handle { s with queue := queue } msg).popped = s.popped + 1 := by
      simp [handle, hparse]
    have hentered : (handle { s with queue := queue } msg).entered = s.entered := by
      simp [handle, hparse]
    have hat {i n : ℕ} {m : CqyStr} {p : Phase} :
        (handle { s with queue := queue } msg).HandlerAt i n m p ↔ s.HandlerAt i n m p ∨
          (i = s.lock.acts.length ∧ s.popped = n ∧ msg = m ∧ Phase.starting = p) := by
      rw [handlerAt_append hacts]
      simp [and_assoc]
    rw [if_pos hparse] at howed
    refine ⟨?_, ?_, ?_, ?_, ?_, ?_, ?_, ?_⟩
    · simpa [handle, hparse] using hrest
    · simpa [handle, hparse] using hlt
    · simp [handle, hparse]
    · rw [hpopped]
      have hpushed : (handle { s with queue := queue } msg).pushed = s.pushed := by
        simp [handle, hparse]
      rw [hpushed, howed, ← h.started, started, started, hacts, List.map_append,
        List.filterMap_append]
      rfl
    · intro i j n m m' p p' hi hj
      rcases hat.mp hi with hi | ⟨rfl, rfl, -, -⟩
      · rcases hat.mp hj with hj | ⟨-, rfl, -, -⟩
        · exact h.unique i j n m m' p p' hi hj
        · exact absurd (h.bound i _ m p hi) (Nat.lt_irrefl _)
      · rcases hat.mp hj with hj | ⟨rfl, -, -, -⟩
        · exact absurd (h.bound j _ m' p' hj) (Nat.lt_irrefl _)
        · rfl
    · intro i n m p hi
      rw [hpopped]
      rcases hat.mp hi with hi | ⟨-, rfl, -, -⟩
      · exact Nat.lt_succ_of_lt (h.bound i n m p hi)
      · exact Nat.lt_succ_self _
    · intro n
      rw [hentered, h.entered]
      constructor
      · rintro ⟨i, m, p, hi, hp⟩
        exact ⟨i, m, p, hat.mpr (Or.inl hi), hp⟩
      · rintro ⟨i, m, p, hi, hp⟩
        rcases hat.mp hi with hi | ⟨-, -, -, hstart⟩
        · exact ⟨i, m, p, hi, hp⟩
        · exact absurd hstart.symm hp
    · rw [hentered]
      exact h.nodup
  · have hstate : handle { s with queue := queue } msg =
        { s with queue := queue, pc := .test, popped := s.popped + 1 } := by simp [handle, hparse]
    rw [if_neg hparse, List.append_nil] at howed
    rw [hstate]
    exact ⟨hrest, hlt, by simp, h.started.trans howed.symm, h.unique,
      fun i n m p hi ↦ Nat.lt_succ_of_lt (h.bound i n m p hi), h.entered, h.nodup⟩

theorem map_kind_set {acts : List (Activation (ℕ × CqyStr))} {i : ℕ}
    {act : Activation (ℕ × CqyStr)} (hact : acts[i]? = some act) (p : Phase) :
    (acts.set i { act with phase := p }).map Activation.kind = acts.map Activation.kind := by
  have hkind : (acts.map Activation.kind)[i]? = some act.kind := by
    rw [List.getElem?_map, hact]
    rfl
  rw [List.map_set]
  apply List.ext_getElem?
  intro j
  rw [Vec.getElem?_set_of_some hkind]
  split_ifs with hj
  · rw [hj, hkind]
  · rfl

theorem handlerAt_set {s s' : Receive} {i : ℕ} {act : Activation (ℕ × CqyStr)} {p : Phase}
    (hact : s.lock.acts[i]? = some act)
    (hacts : s'.lock.acts = s.lock.acts.set i { act with phase := p })
    {j n : ℕ} {m : CqyStr} {q : Phase} :
    s'.HandlerAt j n m q ↔
      if j = i then act.kind = .onMsg (n, m) ∧ p = q else s.HandlerAt j n m q := by
  rw [HandlerAt, HandlerAt, hacts, Vec.getElem?_set_of_some hact]
  split_ifs
  · simp
  · rfl

/-- Only acquiring the lock leaves `coScopedLock`, and no action goes back into it. -/
theorem advance_starting {locked locked' : Bool} {a : Action} {p p' : Phase}
    (h : advance locked a p = some (locked', p')) :
    p' ≠ .starting ∧ (p = .starting ↔ a = .acquire) := by
  unfold advance at h
  split at h <;> simp_all <;> grind

/-- The entry of a step, as a set: the message of the handler that leaves `coScopedLock`. -/
theorem mem_entry {s : Receive} {i n : ℕ} {a : Action} {act : Activation (ℕ × CqyStr)}
    (hact : s.lock.acts[i]? = some act) (hstart : act.phase = .starting ↔ a = .acquire) :
    n ∈ s.entry i a ↔ ∃ m, act.kind = .onMsg (n, m) ∧ act.phase = .starting := by
  unfold entry
  rw [hstart, hact]
  by_cases ha : a = .acquire
  · subst ha
    obtain ⟨kind, p⟩ := act
    cases kind with
    | onMsg msg =>
      obtain ⟨k, m⟩ := msg
      simp [eq_comm]
    | rpcFunc | asyncCall => simp
  · cases a <;> simp_all

/-- A step of an activation: if it is a handler that gets the lock, its message is entered. -/
theorem inv_act {s s' : Receive} {i : ℕ} {a : Action} (h : Inv s)
    (hstep : s.step (.act i a) = some s') : Inv s' := by
  obtain ⟨-, lock, hlock, rfl⟩ := act_eq_some hstep
  obtain ⟨act, locked, phase, hact, hadv, rfl⟩ := CtxLock.step_act_eq_some.mp hlock
  obtain ⟨hphase, hstart⟩ := advance_starting hadv
  let s' : Receive :=
    { s with
      lock := { locked := locked, acts := s.lock.acts.set i { act with phase := phase } }
      entered := s.entered ++ s.entry i a }
  have hat {j n : ℕ} {m : CqyStr} {q : Phase} : s'.HandlerAt j n m q ↔
      if j = i then act.kind = .onMsg (n, m) ∧ phase = q else s.HandlerAt j n m q :=
    handlerAt_set hact rfl
  have hbefore {n : ℕ} {m : CqyStr} (hkind : act.kind = .onMsg (n, m)) :
      s.HandlerAt i n m act.phase := by
    rw [HandlerAt, hact, ← hkind]
  have hentry (n : ℕ) := mem_entry (n := n) hact hstart
  have hfresh (n : ℕ) (hn : n ∈ s.entry i a) : n ∉ s.entered := by
    obtain ⟨m, hkind, hp⟩ := (hentry n).mp hn
    intro hin
    obtain ⟨j, m', p', hj, hne⟩ := (h.entered n).mp hin
    obtain rfl := h.unique i j n m m' _ _ (hbefore hkind) hj
    have heq := (hbefore hkind).symm.trans hj
    simp only [Option.some.injEq, Activation.mk.injEq] at heq
    exact hne (heq.2 ▸ hp)
  refine ⟨h.queue, h.popped, h.take, ?_, ?_, ?_, ?_, ?_⟩
  · rw [started, map_kind_set hact]
    exact h.started
  · intro j k n m m' p p' hj hk
    rw [hat] at hj hk
    split_ifs at hj hk with hji hki hki
    · rw [hji, hki]
    · rw [hji]
      exact h.unique i k n m m' _ p' (hbefore hj.1) hk
    · rw [hki]
      exact h.unique j i n m m' p _ hj (hbefore hk.1)
    · exact h.unique j k n m m' p p' hj hk
  · intro j n m p hj
    rw [hat] at hj
    split_ifs at hj
    · exact h.bound i n m _ (hbefore hj.1)
    · exact h.bound j n m p hj
  · intro n
    rw [List.mem_append, hentry, h.entered]
    constructor
    · rintro (⟨j, m, p, hj, hp⟩ | ⟨m, hkind, -⟩)
      · by_cases hji : j = i
        · have hkind : act.kind = .onMsg (n, m) := by
            rw [hji, HandlerAt, hact, Option.some.injEq] at hj
            rw [hj]
          exact ⟨i, m, phase, hat.mpr (by rw [if_pos rfl]; exact ⟨hkind, rfl⟩), hphase⟩
        · exact ⟨j, m, p, hat.mpr (by rwa [if_neg hji]), hp⟩
      · exact ⟨i, m, phase, hat.mpr (by rw [if_pos rfl]; exact ⟨hkind, rfl⟩), hphase⟩
    · rintro ⟨j, m, p, hj, hp⟩
      rw [hat] at hj
      split_ifs at hj with hji
      · by_cases hs : act.phase = .starting
        · exact Or.inr ⟨m, hj.1, hs⟩
        · exact Or.inl ⟨i, m, _, hbefore hj.1, hs⟩
      · exact Or.inl ⟨j, m, p, hj, hp⟩
  · have hsingle : (s.entry i a).Nodup := by
      unfold entry
      split <;> simp
    exact List.nodup_append.mpr ⟨h.nodup, hsingle,
      fun n hn n' hn' heq ↦ hfresh n' hn' (heq ▸ hn)⟩

theorem inv_start {s s' : Receive} {rpc : Bool} (h : Inv s)
    (hstep : s.step (.start rpc) = some s') : Inv s' := by
  obtain rfl := Option.some.inj hstep
  have hat {i n : ℕ} {m : CqyStr} {p : Phase} : ({ s with
      lock := { s.lock with acts := s.lock.acts ++
        [⟨if rpc then .rpcFunc else .asyncCall, .starting⟩] } } : Receive).HandlerAt i n m p ↔
        s.HandlerAt i n m p := by
    rw [handlerAt_append rfl]
    cases rpc <;> simp
  refine ⟨h.queue, h.popped, h.take, ?_, ?_, ?_, ?_, h.nodup⟩
  · rw [← h.started]
    cases rpc <;> simp [started, ActivationKind.msg?]
  · intro i j n m m' p p' hi hj
    exact h.unique i j n m m' p p' (hat.mp hi) (hat.mp hj)
  · intro i n m p hi
    exact h.bound i n m p (hat.mp hi)
  · intro n
    exact (h.entered n).trans ⟨fun ⟨i, m, p, hi, hp⟩ ↦ ⟨i, m, p, hat.mpr hi, hp⟩,
      fun ⟨i, m, p, hi, hp⟩ ↦ ⟨i, m, p, hat.mp hi, hp⟩⟩

theorem inv_pop {s s' : Receive} (h : Inv s) (hstep : s.step .pop = some s') : Inv s' := by
  obtain ⟨-, -, rfl⟩ := pop_eq_some_iff.mp hstep
  refine h.of_queue rfl rfl rfl ⟨[], by simp⟩ fun hpc ↦ ?_
  dsimp only at hpc
  split_ifs at hpc with hend
  simp only [Bool.or_eq_true, List.isEmpty_iff, not_or] at hend
  exact hend.1

theorem inv_step (s : Receive) (l : Label) (s' : Receive) (h : Inv s)
    (hstep : s.step l = some s') : Inv s' := by
  cases l with
  | pop => exact inv_pop h hstep
  | take =>
    obtain ⟨msg, rest, -, hitems, rfl⟩ := take_eq_some_iff.mp hstep
    exact inv_handle h hitems
  | start rpc => exact inv_start h hstep
  | act i a => exact inv_act h hstep
  | pushEnqueue i =>
    obtain ⟨msg, -, rfl⟩ := Option.map_eq_some_iff.mp hstep
    exact h.of_queue rfl rfl rfl ⟨[msg], rfl, rfl⟩ fun _ ↦ by simp [CvQueue.enqueue]
  | pushTest msg =>
    obtain rfl := Option.some.inj hstep
    split
    · exact h
    · exact h.of_queue rfl rfl rfl ⟨[], by simp⟩ h.take
  | shutdown =>
    obtain rfl := Option.some.inj hstep
    have hitems : s.queue.shutdown.2.items = s.queue.items := by
      rw [CvQueue.shutdown]
      split <;> rfl
    refine h.of_queue rfl rfl rfl ⟨[], by simp, by simp [hitems]⟩ fun hpc ↦ ?_
    rw [hitems]
    exact h.take hpc
  | test =>
    simp only [step] at hstep
    split_ifs at hstep <;> obtain rfl := Option.some.inj hstep <;>
      exact h.of_queue rfl rfl rfl ⟨[], by simp⟩ (by simp)

theorem inv_of_run {is : List Label} {s : Receive} (hrun : Machine.run step {} is = some s) :
    Inv s :=
  Machine.Reachable.invariant inv_step ⟨is, hrun⟩ inv_init

/-! ## Which orders of entry there are -/

/-- The list of entries only grows at its end. -/
theorem entered_step {s s' : Receive} {l : Label} (hstep : s.step l = some s') :
    s.entered <+: s'.entered := by
  cases l with
  | act i a =>
    obtain ⟨-, lock, -, rfl⟩ := act_eq_some hstep
    exact List.prefix_append _ _
  | start rpc =>
    obtain rfl := Option.some.inj hstep
    exact List.prefix_refl _
  | pop =>
    obtain ⟨-, -, rfl⟩ := pop_eq_some_iff.mp hstep
    exact List.prefix_refl _
  | take =>
    obtain ⟨msg, rest, -, -, rfl⟩ := take_eq_some_iff.mp hstep
    simp only [handle]
    split <;> exact List.prefix_refl _
  | pushEnqueue i =>
    obtain ⟨msg, -, rfl⟩ := Option.map_eq_some_iff.mp hstep
    exact List.prefix_refl _
  | pushTest msg =>
    obtain rfl := Option.some.inj hstep
    split <;> exact List.prefix_refl _
  | shutdown =>
    obtain rfl := Option.some.inj hstep
    exact List.prefix_refl _
  | test =>
    simp only [step] at hstep
    split_ifs at hstep <;> obtain rfl := Option.some.inj hstep <;> exact List.prefix_refl _

theorem entered_prefix {is : List Label} {s s' : Receive} (hrun : Machine.run step s is = some s') :
    s.entered <+: s'.entered := by
  have hgrow : ∀ t l t', s.entered <+: t.entered → step t l = some t' →
      s.entered <+: t'.entered :=
    fun t l t' ht hstep ↦ ht.trans (entered_step hstep)
  exact Machine.Reachable.invariant hgrow ⟨is, hrun⟩ (List.prefix_refl _)

/-- A message that was entered before a later one was popped stays in front of it. -/
theorem entered_before {pre post : List Label} {mid s : Receive}
    (hpre : Machine.run step {} pre = some mid) (hpost : Machine.run step mid post = some s)
    {i j : ℕ} (hi : i ∈ mid.entered) (hj : mid.popped ≤ j) (hjs : j ∈ s.entered) :
    [i, j].Sublist s.entered := by
  obtain ⟨rest, hrest⟩ := entered_prefix hpost
  have hlater : j ∉ mid.entered := by
    intro hin
    obtain ⟨k, m, p, hat, -⟩ := ((inv_of_run hpre).entered j).mp hin
    exact absurd ((inv_of_run hpre).bound k j m p hat) (by omega)
  have hjrest : j ∈ rest := by
    rw [← hrest, List.mem_append] at hjs
    exact hjs.resolve_left hlater
  rw [← hrest]
  exact (List.singleton_sublist.mpr hi).append (List.singleton_sublist.mpr hjrest)

/-- All of `msgs` pushed, the first `k` popped, and the handlers in `entered` over. -/
def snapshot (msgs : List CqyStr) (k : ℕ) (entered : List ℕ) : Receive where
  queue := { items := msgs.drop k }
  lock :=
    { acts := (List.range k).map fun n ↦
        { kind := .onMsg (n, msgs.getD n [])
          phase := if n ∈ entered then .finished else .starting } }
  pushed := msgs
  popped := k
  entered := entered

theorem run_push (msgs : List CqyStr) :
    ∃ is, Machine.run step {} is = some (snapshot msgs 0 []) := by
  induction msgs using List.reverseRecOn with
  | nil => exact ⟨[], rfl⟩
  | append_singleton msgs msg ih =>
    obtain ⟨is, hrun⟩ := ih
    exact ⟨is ++ [.pushTest msg, .pushEnqueue 0], Machine.run_append_eq_some.mpr ⟨_, hrun, rfl⟩⟩

theorem run_pop {msgs : List CqyStr} (hparse : ∀ msg ∈ msgs, (msg.parse true).isSome) {k : ℕ}
    (hk : k ≤ msgs.length) : ∃ is, Machine.run step {} is = some (snapshot msgs k []) := by
  induction k with
  | zero => exact run_push msgs
  | succ k ih =>
    obtain ⟨is, hrun⟩ := ih (by omega)
    have hlt : k < msgs.length := hk
    have hdrop : msgs.drop k = msgs[k] :: msgs.drop (k + 1) := List.drop_eq_getElem_cons hlt
    have hitems : (snapshot msgs k []).queue.items = msgs[k] :: msgs.drop (k + 1) := hdrop
    have hwell := hparse msgs[k] (List.getElem_mem hlt)
    refine ⟨is ++ [.test, .pop, .take], Machine.run_append_eq_some.mpr ⟨_, hrun, ?_⟩⟩
    rw [Machine.run_cons_eq_some]
    refine ⟨{ snapshot msgs k [] with pc := .pop }, rfl, ?_⟩
    rw [Machine.run_cons_eq_some]
    refine ⟨{ snapshot msgs k [] with pc := .take }, ?_, ?_⟩
    · rw [pop_eq_some_iff]
      refine ⟨rfl, by simp [CvQueue.ready, hitems, hlt], ?_⟩
      rw [hitems]
      rfl
    · rw [Machine.run_cons_eq_some]
      refine ⟨snapshot msgs (k + 1) [], ?_, rfl⟩
      rw [take_eq_some_iff]
      refine ⟨msgs[k], msgs.drop (k + 1), rfl, hitems, ?_⟩
      simp [handle, hwell, snapshot, List.range_succ, hlt]

/-- Finishing handler `n` makes the snapshot one in which `n` has been entered. -/
theorem snapshot_set {msgs : List CqyStr} {entered : List ℕ} {n : ℕ} :
    (snapshot msgs msgs.length entered).lock.acts.set n
        { kind := .onMsg (n, msgs.getD n []), phase := .finished } =
      (snapshot msgs msgs.length (entered ++ [n])).lock.acts := by
  apply List.ext_getElem
  · simp [snapshot]
  · intro i hi hi'
    rw [List.getElem_set]
    by_cases hin : n = i
    · simp [snapshot, hin]
    · simp [snapshot, hin, Ne.symm hin]

theorem run_handle {msgs : List CqyStr} {entered : List ℕ} {n : ℕ} (hn : n < msgs.length)
    (hfresh : n ∉ entered) :
    Machine.run step (snapshot msgs msgs.length entered) [.act n .acquire, .act n .leave] =
      some (snapshot msgs msgs.length (entered ++ [n])) := by
  let msg := msgs.getD n []
  let acts := (snapshot msgs msgs.length entered).lock.acts
  have hlength : n < acts.length := by simpa [acts, snapshot] using hn
  have hact : acts[n]? = some { kind := .onMsg (n, msg), phase := .starting } := by
    simp [acts, snapshot, msg, hn, hfresh]
  rw [Machine.run_cons_eq_some]
  refine ⟨{ snapshot msgs msgs.length entered with
    lock :=
      { locked := true
        acts := acts.set n { kind := .onMsg (n, msg), phase := .running false } }
    entered := entered ++ [n] }, ?_, ?_⟩
  · have hlock : (snapshot msgs msgs.length entered).lock.step (.act n .acquire) = some
        { locked := true
          acts := acts.set n { kind := .onMsg (n, msg), phase := .running false } } :=
      CtxLock.step_act_eq_some.mpr ⟨_, _, _, hact, rfl, rfl⟩
    have hentry : (snapshot msgs msgs.length entered).entry n .acquire = [n] := by
      unfold entry
      change (match Action.acquire, acts[n]? with
        | .acquire, some ⟨.onMsg (n, _), _⟩ => [n]
        | _, _ => []) = [n]
      rw [hact]
    simp only [step, hlock, hentry]
    rfl
  · have hset : (acts.set n { kind := .onMsg (n, msg), phase := .running false })[n]? =
        some { kind := .onMsg (n, msg), phase := .running false } := List.getElem?_set_self hlength
    have hlock : CtxLock.step
        { locked := true
          acts := acts.set n { kind := .onMsg (n, msg), phase := .running false } }
        (.act n .leave) = some (snapshot msgs msgs.length (entered ++ [n])).lock := by
      refine CtxLock.step_act_eq_some.mpr ⟨_, _, _, hset, rfl, ?_⟩
      rw [List.set_set, snapshot_set]
      rfl
    rw [Machine.run_cons_eq_some]
    refine ⟨snapshot msgs msgs.length (entered ++ [n]), ?_, rfl⟩
    simp only [step, hlock, entry, List.append_nil]
    rfl

theorem run_order {msgs : List CqyStr} (hparse : ∀ msg ∈ msgs, (msg.parse true).isSome)
    {order : List ℕ} (hnodup : order.Nodup) (hbound : ∀ n ∈ order, n < msgs.length) :
    ∃ is, Machine.run step {} is = some (snapshot msgs msgs.length order) := by
  induction order using List.reverseRecOn with
  | nil => exact run_pop hparse (Nat.le_refl _)
  | append_singleton order n ih =>
    rw [List.nodup_append] at hnodup
    obtain ⟨is, hrun⟩ := ih hnodup.1 fun m hm ↦ hbound m (List.mem_append_left _ hm)
    have hfresh : n ∉ order := fun hin ↦ hnodup.2.2 n hin n (by simp) rfl
    exact ⟨is ++ [.act n .acquire, .act n .leave], Machine.run_append_eq_some.mpr
      ⟨_, hrun, run_handle (hbound n (by simp)) hfresh⟩⟩

/-- Each message is entered at most once and handlers are started in push order; a message that
was entered before a later one was popped is in front of it.  Nothing more holds: every order of
every queue content is the order of entries of some run. -/
theorem entry_order :
    (∀ is s, Machine.run step {} is = some s → s.entered.Nodup ∧
      s.started = owed s.pushed s.popped ∧
      (∀ n ∈ s.entered, n < s.popped ∧ ∃ msg, (n, msg) ∈ s.started) ∧
      ∀ pre post mid, is = pre ++ post → Machine.run step {} pre = some mid →
        ∀ i ∈ mid.entered, ∀ j, mid.popped ≤ j → j ∈ s.entered → [i, j].Sublist s.entered) ∧
    ∀ msgs : List CqyStr, (∀ msg ∈ msgs, (msg.parse true).isSome) →
      ∀ order : List ℕ, order.Perm (List.range msgs.length) →
        ∃ is s, Machine.run step {} is = some s ∧ s.pushed = msgs ∧ s.queue.stop = false ∧
          s.entered = order := by
  constructor
  · intro is s hrun
    have hinv := inv_of_run hrun
    refine ⟨hinv.nodup, hinv.started, fun n hn ↦ ?_, ?_⟩
    · obtain ⟨i, m, p, hat, -⟩ := (hinv.entered n).mp hn
      refine ⟨hinv.bound i n m p hat, m, ?_⟩
      rw [started, List.mem_filterMap]
      exact ⟨.onMsg (n, m), List.mem_map.mpr ⟨_, List.mem_of_getElem? hat, rfl⟩, rfl⟩
    · intro pre post mid hsplit hpre i hi j hj hjs
      rw [hsplit] at hrun
      obtain ⟨mid', hmid', hpost⟩ := Machine.run_append_eq_some.mp hrun
      obtain rfl := Option.some.inj (hmid'.symm.trans hpre)
      exact entered_before hpre hpost hi hj hjs
  · intro msgs hparse order hperm
    have hnodup : order.Nodup := hperm.nodup_iff.mpr List.nodup_range
    have hbound (n : ℕ) (hn : n ∈ order) : n < msgs.length :=
      List.mem_range.mp (hperm.mem_iff.mp hn)
    obtain ⟨is, hrun⟩ := run_order hparse hnodup hbound
    exact ⟨is, _, hrun, rfl, rfl, rfl⟩

/-- The two messages again, handled in the reverse of their push order. -/
theorem entry_order_reversed : ∃ is s, Machine.run step {} is = some s ∧
    s.pushed = [firstMsg, secondMsg] ∧ s.entered = [1, 0] ∧ s.entered.Nodup ∧
    s.started = owed s.pushed s.popped := by
  obtain ⟨is, s, hrun, hpushed, -, hentered⟩ :=
    entry_order.2 [firstMsg, secondMsg] (by decide) [1, 0] (by decide)
  have hrunOrder := entry_order.1 is s hrun
  exact ⟨is, s, hrun, hpushed, hentered, hrunOrder.1, hrunOrder.2.1⟩

end Receive

end Cqy
