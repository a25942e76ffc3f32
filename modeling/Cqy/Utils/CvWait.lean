import Cqy.Foundation.Machine
import Cqy.Foundation.Mutex
import Cqy.Foundation.Vec
import Cqy.Utils.CvQueue

/-!
# Waiting on a queue

The operations of a `cqy_cv_queue_t`, in their atomic steps.  One consumer calls `pop` and
`pop_all`, any number of producers call `push`, and `shutdown` may be called.  A wait tests its
predicate under the mutex; when it is false it enqueues the waiter and gives the mutex back in one
step.  A notification wakes the waiter that is enqueued at that moment, and is lost when there is
none.  `push` changes the predicate under the mutex; `shutdown` does not take it.
-/

namespace Cqy

open Foundation

/-- What the consumer calls. -/
inductive CvOp
  | pop
  | popAll
deriving DecidableEq

/-- Where the consumer stands. -/
inductive ConsumerPc
  | idle
  /-- Before `coScopedLock`. -/
  | locking (op : CvOp)
  /-- With the mutex, before the predicate of the wait. -/
  | testing (op : CvOp)
  /-- The predicate was false. -/
  | enqueueing (op : CvOp)
  /-- Enqueued, without the mutex. -/
  | parked (op : CvOp)
  /-- Notified, and to take the mutex again. -/
  | woken (op : CvOp)
  /-- The wait is over. -/
  | taking (op : CvOp)
  /-- `pop` has found an element, and `stop` clear. -/
  | popping
  /-- Before the mutex is given back. -/
  | leaving
deriving DecidableEq

/-- Where a call of `push` stands. -/
inductive PushPc
  /-- It has found `stop` clear. -/
  | tested
  | locked
  | appended
  /-- The mutex is given back, `notify` is to come. -/
  | unlocked
  | finished
deriving DecidableEq

/-- A `cqy_cv_queue_t` and the calls under way. -/
structure CvWait (T : Type) where
  queue : CvQueue T := {}
  locked : Bool := false
  consumer : ConsumerPc := .idle
  pushes : List (T × PushPc) := []
  /-- A call of `shutdown` has set `stop`, and `notifyAll` is to come. -/
  notifying : Bool := false
deriving DecidableEq

/-- The effect of a notification on the consumer. -/
def ConsumerPc.wake : ConsumerPc → ConsumerPc
  | .parked op => .woken op
  | pc => pc

namespace CvWait

variable {T : Type}

inductive Label (T : Type)
  | call (op : CvOp)
  | lock
  | test
  | enqueue
  /-- What follows the wait: the second test of `pop`, or the move out of the deque. -/
  | take
  /-- `pop` takes the front. -/
  | remove
  | unlock
  | push (t : T)
  | pushLock (i : ℕ)
  | pushAppend (i : ℕ)
  | pushUnlock (i : ℕ)
  | notify (i : ℕ)
  /-- `stop.exchange(true)`; a call that finds it set returns. -/
  | exchange
  | notifyAll
deriving DecidableEq

def step (s : CvWait T) : Label T → Option (CvWait T)
  | .call op => if s.consumer = .idle then some { s with consumer := .locking op } else none
  | .lock =>
    match s.consumer with
    | .locking op | .woken op =>
      if s.locked then none else some { s with locked := true, consumer := .testing op }
    | _ => none
  | .test =>
    match s.consumer with
    | .testing op =>
      some { s with consumer := if s.queue.ready then .taking op else .enqueueing op }
    | _ => none
  | .enqueue =>
    match s.consumer with
    | .enqueueing op => some { s with locked := false, consumer := .parked op }
    | _ => none
  | .take =>
    match s.consumer with
    | .taking .pop =>
      some { s with
        consumer := if s.queue.items.isEmpty || s.queue.stop then .leaving else .popping }
    | .taking .popAll =>
      some { s with queue := { s.queue with items := [] }, consumer := .leaving }
    | _ => none
  | .remove =>
    if s.consumer = .popping then
      some { s with queue := { s.queue with items := s.queue.items.tail }, consumer := .leaving }
    else none
  | .unlock =>
    if s.consumer = .leaving then some { s with locked := false, consumer := .idle } else none
  | .push t =>
    some { s with pushes := s.pushes ++ [(t, if s.queue.stop then .finished else .tested)] }
  | .pushLock i =>
    match s.pushes[i]? with
    | some (t, .tested) =>
      if s.locked then none
      else some { s with pushes := s.pushes.set i (t, .locked), locked := true }
    | _ => none
  | .pushAppend i =>
    match s.pushes[i]? with
    | some (t, .locked) =>
      some { s with pushes := s.pushes.set i (t, .appended), queue := s.queue.enqueue t }
    | _ => none
  | .pushUnlock i =>
    match s.pushes[i]? with
    | some (t, .appended) =>
      some { s with pushes := s.pushes.set i (t, .unlocked), locked := false }
    | _ => none
  | .notify i =>
    match s.pushes[i]? with
    | some (t, .unlocked) =>
      some { s with pushes := s.pushes.set i (t, .finished), consumer := s.consumer.wake }
    | _ => none
  | .exchange =>
    if s.queue.stop then some s
    else some { s with queue := { s.queue with stop := true }, notifying := true }
  | .notifyAll =>
    if s.notifying then some { s with notifying := false, consumer := s.consumer.wake } else none

/-! ## What each step does -/

section Steps

variable {s s' : CvWait T} {i : ℕ}

theorem lock_eq_some_iff : s.step .lock = some s' ↔
    ∃ op, (s.consumer = .locking op ∨ s.consumer = .woken op) ∧ s.locked = false ∧
      s' = { s with locked := true, consumer := .testing op } := by
  cases hpc : s.consumer <;> cases hlocked : s.locked <;> simp [step, hpc, hlocked, @eq_comm _ s']

theorem test_eq_some_iff : s.step .test = some s' ↔
    ∃ op, s.consumer = .testing op ∧
      s' = { s with consumer := if s.queue.ready then .taking op else .enqueueing op } := by
  cases hpc : s.consumer <;> simp [step, hpc, @eq_comm _ s']

theorem enqueue_eq_some_iff : s.step .enqueue = some s' ↔
    ∃ op, s.consumer = .enqueueing op ∧
      s' = { s with locked := false, consumer := .parked op } := by
  cases hpc : s.consumer <;> simp [step, hpc, eq_comm]

/-- `pop` ends with its exception or goes on, `pop_all` ends with all elements. -/
theorem take_cases (h : s.step .take = some s') :
    (s.consumer = .taking .pop ∧ (s.queue.items = [] ∨ s.queue.stop = true) ∧
      s' = { s with consumer := .leaving }) ∨
    (s.consumer = .taking .pop ∧ s.queue.items ≠ [] ∧ s.queue.stop = false ∧
      s' = { s with consumer := .popping }) ∨
    (s.consumer = .taking .popAll ∧
      s' = { s with queue := { s.queue with items := [] }, consumer := .leaving }) := by
  simp only [step] at h
  split at h
  · rename_i hpc
    obtain rfl := Option.some.inj h
    by_cases hend : s.queue.items = [] ∨ s.queue.stop = true
    · exact Or.inl ⟨hpc, hend, by simp [hend]⟩
    · obtain ⟨hitems, hopen⟩ := not_or.mp hend
      exact Or.inr (Or.inl ⟨hpc, hitems, by simpa using hopen, by simp [hend]⟩)
  · rename_i hpc
    exact Or.inr (Or.inr ⟨hpc, (Option.some.inj h).symm⟩)
  · exact absurd h (by simp)

theorem remove_eq_some_iff : s.step .remove = some s' ↔ s.consumer = .popping ∧
    s' = { s with
      queue := { s.queue with items := s.queue.items.tail }
      consumer := .leaving } := by
  cases hpc : s.consumer <;> simp [step, hpc, eq_comm]

theorem pushLock_eq_some_iff : s.step (.pushLock i) = some s' ↔
    ∃ t, s.pushes[i]? = some (t, .tested) ∧ s.locked = false ∧
      s' = { s with pushes := s.pushes.set i (t, .locked), locked := true } := by
  cases hget : s.pushes[i]? with
  | none => simp [step, hget]
  | some p =>
    obtain ⟨t, pc⟩ := p
    cases pc <;> cases hlocked : s.locked <;> simp [step, hget, hlocked, eq_comm]

theorem pushAppend_eq_some_iff : s.step (.pushAppend i) = some s' ↔
    ∃ t, s.pushes[i]? = some (t, .locked) ∧
      s' = { s with pushes := s.pushes.set i (t, .appended), queue := s.queue.enqueue t } := by
  cases hget : s.pushes[i]? with
  | none => simp [step, hget]
  | some p =>
    obtain ⟨t, pc⟩ := p
    cases pc <;> simp [step, hget, eq_comm]

theorem pushUnlock_eq_some_iff : s.step (.pushUnlock i) = some s' ↔
    ∃ t, s.pushes[i]? = some (t, .appended) ∧
      s' = { s with pushes := s.pushes.set i (t, .unlocked), locked := false } := by
  cases hget : s.pushes[i]? with
  | none => simp [step, hget]
  | some p =>
    obtain ⟨t, pc⟩ := p
    cases pc <;> simp [step, hget, eq_comm]

theorem notify_eq_some_iff : s.step (.notify i) = some s' ↔
    ∃ t, s.pushes[i]? = some (t, .unlocked) ∧
      s' = { s with pushes := s.pushes.set i (t, .finished), consumer := s.consumer.wake } := by
  cases hget : s.pushes[i]? with
  | none => simp [step, hget]
  | some p =>
    obtain ⟨t, pc⟩ := p
    cases pc <;> simp [step, hget, eq_comm]

end Steps

/-! ## Who has the mutex -/

end CvWait

def ConsumerPc.holds : ConsumerPc → Bool
  | .testing _ | .enqueueing _ | .taking _ | .popping | .leaving => true
  | .idle | .locking _ | .parked _ | .woken _ => false

def PushPc.holds : PushPc → Bool
  | .locked | .appended => true
  | .tested | .unlocked | .finished => false

@[simp] theorem ConsumerPc.holds_wake (c : ConsumerPc) : c.wake.holds = c.holds := by
  cases c <;> rfl

namespace CvWait

variable {T : Type}

/-- Whether the consumer, or a call of `push`, has the mutex where it stands. -/
def Holds (s : CvWait T) : Option ℕ → Prop
  | none => s.consumer.holds = true
  | some i => ∃ p, s.pushes[i]? = some p ∧ p.2.holds = true

/-- The flag says whether the mutex has an owner, and nobody else is where one has the mutex. -/
def Exclusive (s : CvWait T) : Prop :=
  ∃ owner, s.locked = owner.isSome ∧ ∀ w, s.Holds w ↔ owner = some w

section Exclusive

variable {s s' : CvWait T} {w w' : Option ℕ}

theorem exclusive_init : Exclusive ({} : CvWait T) := by
  refine ⟨none, rfl, fun w ↦ ?_⟩
  cases w <;> simp [Holds, ConsumerPc.holds]

theorem Exclusive.not_holds (h : Exclusive s) (hfree : s.locked = false) : ¬ s.Holds w := by
  obtain ⟨owner, howner⟩ := h
  exact Mutex.Owns.not_holds howner hfree w

theorem Exclusive.eq (h : Exclusive s) (hw : s.Holds w) (hw' : s.Holds w') : w = w' := by
  obtain ⟨owner, howner⟩ := h
  exact Mutex.Owns.eq howner hw hw'

theorem Exclusive.keep (h : Exclusive s) (hothers : ∀ w' ≠ w, s'.Holds w' ↔ s.Holds w')
    (hw : s'.Holds w ↔ s.Holds w) (hlocked : s'.locked = s.locked) : Exclusive s' := by
  obtain ⟨owner, howner⟩ := h
  have hkeep : Mutex.Owns s.locked s'.Holds owner := Mutex.Owns.keep howner fun w' ↦ by
    by_cases hw' : w' = w
    · rw [hw', hw]
    · exact hothers w' hw'
  exact ⟨owner, hlocked ▸ hkeep⟩

theorem Exclusive.acquire (h : Exclusive s) (hothers : ∀ w' ≠ w, s'.Holds w' ↔ s.Holds w')
    (hw : s'.Holds w) (hfree : s.locked = false) (hlocked : s'.locked = true) : Exclusive s' := by
  obtain ⟨owner, howner⟩ := h
  exact ⟨some w, hlocked ▸ Mutex.Owns.acquire howner hfree hw hothers⟩

theorem Exclusive.release (h : Exclusive s) (hothers : ∀ w' ≠ w, s'.Holds w' ↔ s.Holds w')
    (hw : s.Holds w) (hw' : ¬ s'.Holds w) (hlocked : s'.locked = false) : Exclusive s' := by
  obtain ⟨owner, howner⟩ := h
  exact ⟨none, hlocked ▸ Mutex.Owns.release howner hw hw' hothers⟩

/-- A step of the consumer. -/
theorem holds_iff_of_consumer (hpushes : s'.pushes = s.pushes) :
    ∀ w ≠ none, s'.Holds w ↔ s.Holds w
  | none, hw => absurd rfl hw
  | some i, _ => by rw [Holds, Holds, hpushes]

/-- A step of a call of `push`. -/
theorem holds_iff_of_push {i : ℕ} {p : T × PushPc} (hpushes : s'.pushes = s.pushes.set i p)
    (hconsumer : s'.consumer.holds = s.consumer.holds) :
    ∀ w ≠ some i, s'.Holds w ↔ s.Holds w
  | none, _ => by rw [Holds, Holds, hconsumer]
  | some j, hj => by
    rw [Holds, Holds, hpushes, List.getElem?_set_ne fun hij ↦ hj (congrArg some hij.symm)]

theorem holds_push {i : ℕ} {p : T × PushPc} (hget : s.pushes[i]? = some p) :
    s.Holds (some i) ↔ p.2.holds = true := by
  rw [Holds, hget]
  simp

theorem holds_of_set {i : ℕ} {p p' : T × PushPc} (hget : s.pushes[i]? = some p)
    (hpushes : s'.pushes = s.pushes.set i p') : s'.Holds (some i) ↔ p'.2.holds = true :=
  holds_push (hpushes ▸ List.getElem?_set_self (List.getElem?_eq_some_iff.mp hget).1)

end Exclusive

theorem exclusive_step (s : CvWait T) (l : Label T) (s' : CvWait T) (h : Exclusive s)
    (hstep : s.step l = some s') : Exclusive s' := by
  cases l with
  | call op =>
    simp only [step] at hstep
    split_ifs at hstep with hpc
    obtain rfl := Option.some.inj hstep
    exact h.keep (holds_iff_of_consumer rfl) (by simp [Holds, hpc, ConsumerPc.holds]) rfl
  | lock =>
    obtain ⟨op, -, hfree, rfl⟩ := lock_eq_some_iff.mp hstep
    exact h.acquire (holds_iff_of_consumer rfl) rfl hfree rfl
  | test =>
    obtain ⟨op, hpc, rfl⟩ := test_eq_some_iff.mp hstep
    refine h.keep (holds_iff_of_consumer rfl) ?_ rfl
    cases hready : s.queue.ready <;> simp [Holds, hpc, ConsumerPc.holds]
  | enqueue =>
    obtain ⟨op, hpc, rfl⟩ := enqueue_eq_some_iff.mp hstep
    exact h.release (holds_iff_of_consumer rfl) (by simp [Holds, hpc, ConsumerPc.holds])
      (by simp [Holds, ConsumerPc.holds]) rfl
  | take =>
    obtain ⟨hpc, -, rfl⟩ | ⟨hpc, -, -, rfl⟩ | ⟨hpc, rfl⟩ := take_cases hstep <;>
      exact h.keep (holds_iff_of_consumer rfl) (by simp [Holds, hpc, ConsumerPc.holds]) rfl
  | remove =>
    obtain ⟨hpc, rfl⟩ := remove_eq_some_iff.mp hstep
    exact h.keep (holds_iff_of_consumer rfl) (by simp [Holds, hpc, ConsumerPc.holds]) rfl
  | unlock =>
    simp only [step] at hstep
    split_ifs at hstep with hpc
    obtain rfl := Option.some.inj hstep
    exact h.release (holds_iff_of_consumer rfl) (by simp [Holds, hpc, ConsumerPc.holds])
      (by simp [Holds, ConsumerPc.holds]) rfl
  | push t =>
    obtain rfl := Option.some.inj hstep
    refine h.keep (w := some s.pushes.length) (fun w hw ↦ ?_) ?_ rfl
    · cases w with
      | none => rfl
      | some j =>
        have hj : j ≠ s.pushes.length := fun heq ↦ hw (congrArg some heq)
        simp only [Holds]
        rcases Nat.lt_or_gt_of_ne hj with hlt | hgt
        · rw [List.getElem?_append_left hlt]
        · rw [List.getElem?_eq_none (by simp; omega), List.getElem?_eq_none hgt.le]
    · cases hstop : s.queue.stop <;> simp [Holds, PushPc.holds]
  | pushLock i =>
    obtain ⟨t, hget, hfree, rfl⟩ := pushLock_eq_some_iff.mp hstep
    exact h.acquire (holds_iff_of_push rfl rfl) ((holds_of_set hget rfl).mpr rfl) hfree rfl
  | pushAppend i =>
    obtain ⟨t, hget, rfl⟩ := pushAppend_eq_some_iff.mp hstep
    refine h.keep (holds_iff_of_push rfl rfl) ?_ rfl
    rw [holds_of_set hget rfl, holds_push hget]
    rfl
  | pushUnlock i =>
    obtain ⟨t, hget, rfl⟩ := pushUnlock_eq_some_iff.mp hstep
    refine h.release (holds_iff_of_push rfl rfl) ((holds_push hget).mpr rfl) ?_ rfl
    rw [holds_of_set hget rfl]
    exact Bool.false_ne_true
  | notify i =>
    obtain ⟨t, hget, rfl⟩ := notify_eq_some_iff.mp hstep
    refine h.keep (holds_iff_of_push rfl (ConsumerPc.holds_wake _)) ?_ rfl
    rw [holds_of_set hget rfl, holds_push hget]
    rfl
  | exchange =>
    simp only [step] at hstep
    split_ifs at hstep
    · exact Option.some.inj hstep ▸ h
    · obtain rfl := Option.some.inj hstep
      exact h.keep (holds_iff_of_consumer rfl) Iff.rfl rfl
  | notifyAll =>
    simp only [step] at hstep
    split_ifs at hstep
    obtain rfl := Option.some.inj hstep
    exact h.keep (holds_iff_of_consumer rfl) (by simp [Holds]) rfl

/-- While a call of `push` has the mutex, the consumer does not. -/
theorem Exclusive.consumer_holds {s : CvWait T} (h : s.Exclusive) {i : ℕ} {p : T × PushPc}
    (hget : s.pushes[i]? = some p) (hholds : p.2.holds = true) : s.consumer.holds = false := by
  by_contra hconsumer
  have hnone : s.Holds none := by simpa [Holds] using hconsumer
  exact Option.some_ne_none i (h.eq ((holds_push hget).mpr hholds) hnone)

/-! ## The queue as one object -/

/-- The operations of `CvQueue`, each of them one step. -/
inductive QueueOp (T : Type)
  | enqueue (t : T)
  | shutdown
  | pop
  | popAll

def queueStep (q : CvQueue T) : QueueOp T → Option (CvQueue T)
  | .enqueue t => some (q.enqueue t)
  | .shutdown => some q.shutdown.2
  | .pop => q.pop.map Prod.snd
  | .popAll => q.popAll.map Prod.snd

/-- The queue as its callers see it: a `pop` that has passed its second test has its element. -/
def object (s : CvWait T) : CvQueue T :=
  if s.consumer = .popping then { s.queue with items := s.queue.items.tail } else s.queue

/-- After the wait the predicate still holds: items come and go under the mutex, and `stop` is never
cleared. -/
structure Ready (s : CvWait T) : Prop where
  exclusive : s.Exclusive
  taking : ∀ op, s.consumer = .taking op → s.queue.ready = true
  popping : s.consumer = .popping → s.queue.items ≠ []

theorem ready_init : Ready ({} : CvWait T) := ⟨exclusive_init, by simp, by simp⟩

theorem wake_eq_taking {c : ConsumerPc} {op : CvOp} (h : c.wake = .taking op) :
    c = .taking op := by
  cases c <;> simp_all [ConsumerPc.wake]

@[simp] theorem wake_eq_popping {c : ConsumerPc} : c.wake = .popping ↔ c = .popping := by
  cases c <;> simp [ConsumerPc.wake]

theorem ready_step (s : CvWait T) (l : Label T) (s' : CvWait T) (h : Ready s)
    (hstep : s.step l = some s') : Ready s' := by
  have hexclusive := exclusive_step s l s' h.exclusive hstep
  cases l with
  | test =>
    obtain ⟨op', -, rfl⟩ := test_eq_some_iff.mp hstep
    refine ⟨hexclusive, fun op hpc ↦ ?_, fun hpc ↦ ?_⟩ <;> dsimp only at hpc <;>
      split_ifs at hpc with hready
    exact hready
  | take =>
    obtain ⟨-, -, rfl⟩ | ⟨-, hitems, -, rfl⟩ | ⟨-, rfl⟩ := take_cases hstep
    · exact ⟨hexclusive, by simp, by simp⟩
    · exact ⟨hexclusive, by simp, fun _ ↦ hitems⟩
    · exact ⟨hexclusive, by simp, by simp⟩
  | pushAppend i =>
    obtain ⟨t, hget, rfl⟩ := pushAppend_eq_some_iff.mp hstep
    have hholds := h.exclusive.consumer_holds hget rfl
    refine ⟨hexclusive, fun op hpc ↦ ?_, fun hpc ↦ ?_⟩ <;> change s.consumer = _ at hpc <;>
      rw [hpc] at hholds <;> exact absurd hholds (by simp [ConsumerPc.holds])
  | notify i =>
    obtain ⟨t, hget, rfl⟩ := notify_eq_some_iff.mp hstep
    exact ⟨hexclusive, fun op hpc ↦ h.taking op (wake_eq_taking hpc),
      fun hpc ↦ h.popping (wake_eq_popping.mp hpc)⟩
  | exchange =>
    simp only [step] at hstep
    split_ifs at hstep
    · exact Option.some.inj hstep ▸ h
    · obtain rfl := Option.some.inj hstep
      exact ⟨hexclusive, fun op hpc ↦ by simp [CvQueue.ready], h.popping⟩
  | notifyAll =>
    simp only [step] at hstep
    split_ifs at hstep
    obtain rfl := Option.some.inj hstep
    exact ⟨hexclusive, fun op hpc ↦ h.taking op (wake_eq_taking hpc),
      fun hpc ↦ h.popping (wake_eq_popping.mp hpc)⟩
  | call | lock | enqueue | remove | unlock | push | pushLock | pushUnlock =>
    have htaking := h.taking
    have hpopping := h.popping
    refine ⟨hexclusive, fun op hpc ↦ ?_, fun hpc ↦ ?_⟩ <;> simp only [step] at hstep <;> grind

/-- Where the second test of `pop` goes on, `CvQueue` takes the front. -/
theorem queueStep_pop {q : CvQueue T} (hready : q.ready = true) :
    queueStep q .pop = some (if q.items = [] ∨ q.stop = true then q
      else { q with items := q.items.tail }) := by
  rw [queueStep, CvQueue.pop, if_pos hready]
  cases hitems : q.items with
  | nil => simp
  | cons front rest => cases hstop : q.stop <;> simp

/-- Every step of the calls is one operation of the queue, or leaves it alone. -/
theorem object_step {s s' : CvWait T} {l : Label T} (h : Ready s) (hstep : s.step l = some s') :
    s'.object = s.object ∨ ∃ o, queueStep s.object o = some s'.object := by
  cases l with
  | take =>
    obtain ⟨hpc, hend, rfl⟩ | ⟨hpc, hitems, hopen, rfl⟩ | ⟨hpc, rfl⟩ := take_cases hstep
    · exact Or.inl (by simp [object, hpc])
    · refine Or.inr ⟨.pop, ?_⟩
      have hobject : s.object = s.queue := by simp [object, hpc]
      rw [hobject, queueStep_pop (h.taking .pop hpc)]
      simp [object, hitems, hopen]
    · refine Or.inr ⟨.popAll, ?_⟩
      have hobject : s.object = s.queue := by simp [object, hpc]
      rw [hobject, queueStep, CvQueue.popAll, if_pos (h.taking .popAll hpc)]
      simp [object]
  | remove =>
    obtain ⟨hpc, rfl⟩ := remove_eq_some_iff.mp hstep
    exact Or.inl (by simp [object, hpc])
  | pushAppend i =>
    obtain ⟨t, hget, rfl⟩ := pushAppend_eq_some_iff.mp hstep
    have hpc : s.consumer ≠ .popping := fun hpc ↦ by
      have hholds := h.exclusive.consumer_holds hget rfl
      rw [hpc] at hholds
      exact absurd hholds (by simp [ConsumerPc.holds])
    exact Or.inr ⟨.enqueue t, by simp [queueStep, object, hpc]⟩
  | exchange =>
    right
    refine ⟨.shutdown, ?_⟩
    simp only [step] at hstep
    split_ifs at hstep with hset <;> obtain rfl := Option.some.inj hstep <;>
      simp only [object, queueStep, CvQueue.shutdown] <;> split_ifs <;> simp_all
  | test =>
    obtain ⟨op, hpc, rfl⟩ := test_eq_some_iff.mp hstep
    left
    simp only [object, hpc]
    split_ifs <;> simp_all
  | notify i =>
    obtain ⟨t, -, rfl⟩ := notify_eq_some_iff.mp hstep
    exact Or.inl (by simp [object])
  | notifyAll =>
    simp only [step] at hstep
    split_ifs at hstep
    obtain rfl := Option.some.inj hstep
    exact Or.inl (by simp [object])
  | call | lock | enqueue | unlock | push | pushLock | pushUnlock =>
    simp only [step] at hstep
    simp only [object]
    grind

/-- Whatever the interleaving, the queue is where a run of whole operations leads. -/
theorem object_reachable {s : CvWait T} (h : Machine.Reachable step {} s) :
    Machine.Reachable queueStep {} s.object :=
  h.project CvWait.object ready_step (fun _ _ _ ↦ object_step) ready_init

end CvWait

end Cqy
