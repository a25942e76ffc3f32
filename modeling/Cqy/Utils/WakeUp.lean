import Cqy.Utils.CvWait

/-!
# Lost notifications

`push` makes the predicate of the waits true under the mutex and notifies afterwards, so that a
consumer that saw it false is enqueued before.  `shutdown` does not take the mutex: both its steps
may fall between the test of the consumer and its enqueueing, and then nobody wakes it any more.
-/

namespace Cqy

open Foundation

namespace CvWait

variable {T : Type}

/-- Every call of `push` and `shutdown` has finished, there is something to wake up for, and the
consumer is parked. -/
def Stranded (s : CvWait T) : Prop :=
  (∀ p ∈ s.pushes, p.2 = .finished) ∧ s.notifying = false ∧ s.queue.ready = true ∧
    ∃ op, s.consumer = .parked op

/-- `notifyAll` does not come between the test of the consumer and its enqueueing, unless a call of
`push` that has found `stop` clear is still to take the mutex. -/
def Heard (s : CvWait T) : Label T → Prop
  | .notifyAll => ∀ op, s.consumer = .enqueueing op → ∃ p ∈ s.pushes, p.2 = .tested
  | _ => True

/-! ## Nobody is stranded -/

/-- Some call of `push` stands where `P` says. -/
def SomePush (pushes : List (T × PushPc)) (P : PushPc → Prop) : Prop := ∃ p ∈ pushes, P p.2

section SomePush

variable {pushes : List (T × PushPc)} {P Q : PushPc → Prop} {i : ℕ} {t : T} {old pc : PushPc}

theorem SomePush.mono (h : SomePush pushes P) (hpq : ∀ pc, P pc → Q pc) : SomePush pushes Q := by
  obtain ⟨p, hp, hpc⟩ := h
  exact ⟨p, hp, hpq _ hpc⟩

theorem SomePush.append (h : SomePush pushes P) (more : List (T × PushPc)) :
    SomePush (pushes ++ more) P := by
  obtain ⟨p, hp, hpc⟩ := h
  exact ⟨p, List.mem_append_left _ hp, hpc⟩

/-- Another call moves, or the same one to a place where `P` still holds. -/
theorem SomePush.set (h : SomePush pushes P) (hget : pushes[i]? = some (t, old))
    (hpc : P old → P pc) : SomePush (pushes.set i (t, pc)) P := by
  obtain ⟨p, hp, hP⟩ := h
  obtain ⟨j, hj⟩ := List.mem_iff_getElem?.mp hp
  have hset := Vec.getElem?_set_of_some hget (t, pc) j
  by_cases hji : j = i
  · rw [hji, hget, Option.some_inj] at hj
    subst hj
    rw [if_pos hji] at hset
    exact ⟨(t, pc), List.mem_of_getElem? hset, hpc hP⟩
  · rw [if_neg hji, hj] at hset
    exact ⟨p, List.mem_of_getElem? hset, hP⟩

theorem somePush_set (hget : pushes[i]? = some (t, old)) (hpc : P pc) :
    SomePush (pushes.set i (t, pc)) P :=
  ⟨(t, pc), List.mem_set (List.getElem?_eq_some_iff.mp hget).1 _, hpc⟩

end SomePush

/-- What keeps the consumer from being stranded.  Before it is enqueued: there are no items, and if
`stop` is set, `notifyAll` is to come, or a `push` that has not taken the mutex and will notify.
Once it is parked: whoever made the predicate true has still to notify. -/
structure Attended (s : CvWait T) : Prop where
  exclusive : s.Exclusive
  window : ∀ op, s.consumer = .enqueueing op → s.queue.items = [] ∧
    (s.queue.stop = true → s.notifying = true ∨ SomePush s.pushes (· = .tested))
  parked : ∀ op, s.consumer = .parked op →
    (s.queue.items ≠ [] → SomePush s.pushes fun pc ↦ pc = .appended ∨ pc = .unlocked) ∧
    (s.queue.stop = true → s.notifying = true ∨ SomePush s.pushes (· ≠ .finished))

theorem attended_init : Attended ({} : CvWait T) where
  exclusive := exclusive_init
  window := by simp
  parked := by simp

theorem Attended.not_stranded {s : CvWait T} (h : s.Attended) : ¬ s.Stranded := by
  rintro ⟨hfinished, hnotifying, hready, op, hparked⟩
  have hno {P : PushPc → Prop} (hP : ¬ P .finished) : ¬ SomePush s.pushes P := by
    rintro ⟨p, hp, hpc⟩
    exact hP (hfinished p hp ▸ hpc)
  obtain ⟨hitems, hstop⟩ := h.parked op hparked
  rw [CvQueue.ready, Bool.or_eq_true, decide_eq_true_eq, List.length_pos_iff] at hready
  rcases hready with hne | hset
  · exact hno (by simp) (hitems hne)
  · rcases hstop hset with hcall | hpush
    · rw [hnotifying] at hcall
      exact Bool.false_ne_true hcall
    · exact hno (by simp) hpush

/-- In the window between test and enqueueing no call of `push` has the mutex. -/
theorem Exclusive.not_enqueueing {s : CvWait T} (h : s.Exclusive) {i : ℕ} {p : T × PushPc}
    (hget : s.pushes[i]? = some p) (hholds : p.2.holds = true) (op : CvOp) :
    s.consumer ≠ .enqueueing op := by
  intro hpc
  have hconsumer := h.consumer_holds hget hholds
  rw [hpc] at hconsumer
  exact absurd hconsumer (by simp [ConsumerPc.holds])

theorem wake_ne_parked (c : ConsumerPc) (op : CvOp) : c.wake ≠ .parked op := by
  cases c <;> simp [ConsumerPc.wake]

theorem wake_eq_enqueueing {c : ConsumerPc} {op : CvOp} (h : c.wake = .enqueueing op) :
    c = .enqueueing op := by
  cases c <;> simp_all [ConsumerPc.wake]

theorem attended_step (s : CvWait T) (l : Label T) (s' : CvWait T) (h : Attended s)
    (hheard : s.Heard l) (hstep : s.step l = some s') : Attended s' := by
  have hexclusive := exclusive_step s l s' h.exclusive hstep
  cases l with
  | call op =>
    simp only [step] at hstep
    split_ifs at hstep
    obtain rfl := Option.some.inj hstep
    exact ⟨hexclusive, by simp, by simp⟩
  | lock =>
    obtain ⟨op, -, -, rfl⟩ := lock_eq_some_iff.mp hstep
    exact ⟨hexclusive, by simp, by simp⟩
  | test =>
    obtain ⟨op, -, rfl⟩ := test_eq_some_iff.mp hstep
    refine ⟨hexclusive, fun op' hpc ↦ ?_, fun op' hpc ↦ ?_⟩
    · dsimp only at hpc
      split_ifs at hpc with hready
      have hempty : s.queue.items = [] ∧ s.queue.stop = false := by
        simpa [CvQueue.ready] using hready
      refine ⟨hempty.1, fun hset ↦ ?_⟩
      exact absurd (hset.symm.trans hempty.2) (by decide)
    · dsimp only at hpc
      split_ifs at hpc
  | enqueue =>
    obtain ⟨op, hpc, rfl⟩ := enqueue_eq_some_iff.mp hstep
    obtain ⟨hitems, hstop⟩ := h.window op hpc
    refine ⟨hexclusive, by simp, fun _ _ ↦ ⟨absurd hitems, fun hset ↦ ?_⟩⟩
    exact (hstop hset).imp_right fun hpush ↦ hpush.mono fun pc hpc ↦ by simp [hpc]
  | take =>
    obtain ⟨-, -, rfl⟩ | ⟨-, -, -, rfl⟩ | ⟨-, rfl⟩ := take_cases hstep <;>
      exact ⟨hexclusive, by simp, by simp⟩
  | remove =>
    obtain ⟨-, rfl⟩ := remove_eq_some_iff.mp hstep
    exact ⟨hexclusive, by simp, by simp⟩
  | unlock =>
    simp only [step] at hstep
    split_ifs at hstep
    obtain rfl := Option.some.inj hstep
    exact ⟨hexclusive, by simp, by simp⟩
  | push t =>
    obtain rfl := Option.some.inj hstep
    refine ⟨hexclusive, fun op hpc ↦ ?_, fun op hpc ↦ ?_⟩
    · exact (h.window op hpc).imp_right fun hstop hset ↦ (hstop hset).imp_right (·.append _)
    · exact (h.parked op hpc).imp (fun hitems hne ↦ (hitems hne).append _)
        fun hstop hset ↦ (hstop hset).imp_right (·.append _)
  | pushLock i =>
    obtain ⟨t, hget, hfree, rfl⟩ := pushLock_eq_some_iff.mp hstep
    refine ⟨hexclusive, fun op hpc ↦ ?_, fun op hpc ↦ ?_⟩
    · -- The consumer has the mutex that the call takes.
      have hnone : s.Holds none := by
        change s.consumer = _ at hpc
        simp [Holds, hpc, ConsumerPc.holds]
      exact absurd hnone (h.exclusive.not_holds hfree)
    · exact (h.parked op hpc).imp (fun hitems hne ↦ (hitems hne).set hget (by simp))
        fun hstop hset ↦ (hstop hset).imp_right (·.set hget (by simp))
  | pushAppend i =>
    obtain ⟨t, hget, rfl⟩ := pushAppend_eq_some_iff.mp hstep
    refine ⟨hexclusive, fun op hpc ↦ absurd hpc (h.exclusive.not_enqueueing hget rfl op),
      fun op hpc ↦ ⟨fun _ ↦ somePush_set hget (Or.inl rfl), fun hset ↦ ?_⟩⟩
    exact ((h.parked op hpc).2 hset).imp_right (·.set hget (by simp))
  | pushUnlock i =>
    obtain ⟨t, hget, rfl⟩ := pushUnlock_eq_some_iff.mp hstep
    refine ⟨hexclusive, fun op hpc ↦ absurd hpc (h.exclusive.not_enqueueing hget rfl op),
      fun op hpc ↦ ?_⟩
    exact (h.parked op hpc).imp (fun hitems hne ↦ (hitems hne).set hget (by simp))
      fun hstop hset ↦ (hstop hset).imp_right (·.set hget (by simp))
  | notify i =>
    obtain ⟨t, hget, rfl⟩ := notify_eq_some_iff.mp hstep
    refine ⟨hexclusive, fun op hpc ↦ ?_, fun op hpc ↦ absurd hpc (wake_ne_parked _ op)⟩
    exact (h.window op (wake_eq_enqueueing hpc)).imp_right
      fun hstop hset ↦ (hstop hset).imp_right (·.set hget (by simp))
  | exchange =>
    simp only [step] at hstep
    split_ifs at hstep
    · exact Option.some.inj hstep ▸ h
    · obtain rfl := Option.some.inj hstep
      exact ⟨hexclusive, fun op hpc ↦ ⟨(h.window op hpc).1, fun _ ↦ Or.inl rfl⟩,
        fun op hpc ↦ ⟨(h.parked op hpc).1, fun _ ↦ Or.inl rfl⟩⟩
  | notifyAll =>
    simp only [step] at hstep
    split_ifs at hstep
    obtain rfl := Option.some.inj hstep
    refine ⟨hexclusive, fun op hpc ↦ ?_, fun op hpc ↦ absurd hpc (wake_ne_parked _ op)⟩
    have hwindow := wake_eq_enqueueing hpc
    exact ⟨(h.window op hwindow).1, fun _ ↦ Or.inr (hheard op hwindow)⟩

/-- In every run in which `notifyAll` does not fall between the test and the enqueueing of the
consumer, unless a `push` will notify after it, the consumer is never stranded. -/
theorem not_stranded_of_heard (ls : List (Label T)) {s : CvWait T}
    (hheard : Machine.AllSteps step Heard {} ls) (hrun : Machine.run step {} ls = some s) :
    ¬ s.Stranded :=
  (Machine.run_invariant attended_step attended_init hheard hrun).not_stranded

instance (s : CvWait T) : ∀ l, Decidable (s.Heard l)
  | .notifyAll =>
    match h : s.consumer with
    | .enqueueing op => decidable_of_iff (∃ p ∈ s.pushes, p.2 = .tested) (by simp [Heard, h])
    | .idle | .locking _ | .testing _ | .parked _ | .woken _ | .taking _ | .popping | .leaving =>
      isTrue (by simp [Heard, h])
  | .call _ | .lock | .test | .enqueue | .take | .remove | .unlock | .push _ | .pushLock _
  | .pushAppend _ | .pushUnlock _ | .notify _ | .exchange => isTrue trivial

/-- A consumer that is parked, a `push`, and a `shutdown` while the consumer takes the item. -/
theorem not_stranded_of_heard_pushed :
    ¬ (⟨⟨[], true⟩, true, .leaving, [(7, .finished)], false⟩ : CvWait ℕ).Stranded :=
  not_stranded_of_heard [.call .popAll, .lock, .test, .enqueue, .push 7, .pushLock 0,
    .pushAppend 0, .pushUnlock 0, .notify 0, .lock, .test, .exchange, .notifyAll, .take]
    (by decide) (by decide)

/-- `shutdown` sets the flag and notifies after the consumer has tested the predicate and before it
is enqueued. -/
theorem stranded_of_lostShutdown : ∃ s : CvWait ℕ,
    Machine.run step {} [.call .pop, .lock, .test, .exchange, .notifyAll, .enqueue] = some s ∧
      s.Stranded :=
  ⟨⟨⟨[], true⟩, false, .parked .pop, [], false⟩, by decide, by simp, rfl, rfl, .pop, rfl⟩

/-! ## The condition is exact -/

/-- `notifyAll` is to come only after `stop` has been set, which nothing clears. -/
theorem stop_of_notifying_step (s : CvWait T) (l : Label T) (s' : CvWait T)
    (h : s.notifying = true → s.queue.stop = true) (hstep : s.step l = some s') :
    s'.notifying = true → s'.queue.stop = true := by
  intro hset
  cases l with
  | take =>
    obtain ⟨-, -, rfl⟩ | ⟨-, -, -, rfl⟩ | ⟨-, rfl⟩ := take_cases hstep <;> exact h hset
  | remove =>
    obtain ⟨-, rfl⟩ := remove_eq_some_iff.mp hstep
    exact h hset
  | exchange =>
    simp only [step] at hstep
    split_ifs at hstep with hstop
    · exact Option.some.inj hstep ▸ hstop
    · obtain rfl := Option.some.inj hstep
      rfl
  | notifyAll =>
    simp only [step] at hstep
    split_ifs at hstep
    obtain rfl := Option.some.inj hstep
    exact absurd hset Bool.false_ne_true
  | pushAppend i =>
    obtain ⟨t, -, rfl⟩ := pushAppend_eq_some_iff.mp hstep
    exact h hset
  | lock =>
    obtain ⟨op, -, -, rfl⟩ := lock_eq_some_iff.mp hstep
    exact h hset
  | test =>
    obtain ⟨op, -, rfl⟩ := test_eq_some_iff.mp hstep
    exact h hset
  | enqueue =>
    obtain ⟨op, -, rfl⟩ := enqueue_eq_some_iff.mp hstep
    exact h hset
  | pushLock i =>
    obtain ⟨t, -, -, rfl⟩ := pushLock_eq_some_iff.mp hstep
    exact h hset
  | pushUnlock i =>
    obtain ⟨t, -, rfl⟩ := pushUnlock_eq_some_iff.mp hstep
    exact h hset
  | notify i =>
    obtain ⟨t, -, rfl⟩ := notify_eq_some_iff.mp hstep
    exact h hset
  | push t =>
    obtain rfl := Option.some.inj hstep
    exact h hset
  | call | unlock =>
    simp only [step] at hstep
    split_ifs at hstep
    obtain rfl := Option.some.inj hstep
    exact h hset

/-- The consumer is about to be enqueued, nobody will look at it any more, and all calls that are
under way have given the mutex back. -/
structure Missed (s : CvWait T) (op : CvOp) : Prop where
  consumer : s.consumer = .enqueueing op
  stop : s.queue.stop = true
  notifying : s.notifying = false
  pushes : ∀ p ∈ s.pushes, p.2 = .unlocked ∨ p.2 = .finished

/-- The calls under way notify while nobody is enqueued. -/
theorem Missed.exists_finished {s : CvWait T} {op : CvOp} (h : s.Missed op) :
    ∃ t, Machine.Reachable step s t ∧ t.Missed op ∧ ∀ p ∈ t.pushes, p.2 = .finished := by
  refine Machine.exists_reachable_of_decreasing
    (fun s ↦ s.pushes.countP fun p ↦ p.2 ≠ .finished) (fun s hs hmore ↦ ?_) h
  simp only [not_forall] at hmore
  obtain ⟨⟨t, pc⟩, hp, hpc⟩ := hmore
  obtain ⟨i, hi⟩ := List.mem_iff_getElem?.mp hp
  have hunlocked : pc = .unlocked := (hs.pushes _ hp).resolve_right hpc
  rw [hunlocked] at hi
  refine ⟨.notify i, _, notify_eq_some_iff.mpr ⟨t, hi, rfl⟩, ?_, ?_⟩
  · refine ⟨by rw [hs.consumer]; rfl, hs.stop, hs.notifying, fun p hp ↦ ?_⟩
    rcases List.mem_or_eq_of_mem_set hp with hp | rfl
    · exact hs.pushes p hp
    · exact Or.inr rfl
  · have hlt := (List.getElem?_eq_some_iff.mp hi).1
    have hget : s.pushes[i] = (t, .unlocked) := Option.some.inj
      ((List.getElem?_eq_getElem hlt).symm.trans hi)
    have hpos : 0 < s.pushes.countP fun p ↦ p.2 ≠ .finished :=
      List.countP_pos_iff.mpr ⟨_, hp, by simpa using hpc⟩
    rw [List.countP_set hlt, hget, if_pos (by simp), if_neg (by simp)]
    omega

/-- Where the condition is broken, the consumer is stranded once it is enqueued and all calls have
finished. -/
theorem exists_stranded_of_not_heard {s s' : CvWait T} {l : Label T}
    (h : Machine.Reachable step {} s) (hheard : ¬ s.Heard l) (hstep : s.step l = some s') :
    ∃ t, Machine.Reachable step s' t ∧ t.Stranded := by
  have hstop := h.invariant stop_of_notifying_step (by simp)
  have hexclusive := h.invariant exclusive_step exclusive_init
  cases l with
  | notifyAll =>
    simp only [Heard, not_forall] at hheard
    obtain ⟨op, hpc, hnone⟩ := hheard
    simp only [step] at hstep
    split_ifs at hstep with hnotifying
    obtain rfl := Option.some.inj hstep
    have hmissed : Missed { s with notifying := false, consumer := s.consumer.wake } op := by
      refine ⟨by rw [hpc]; rfl, hstop hnotifying, rfl, fun p hp ↦ ?_⟩
      obtain ⟨i, hi⟩ := List.mem_iff_getElem?.mp hp
      have hfree : p.2.holds = false := by
        by_contra hholds
        exact hexclusive.not_enqueueing hi (by simpa using hholds) op hpc
      have htested : p.2 ≠ .tested := fun hpc' ↦ hnone ⟨p, hp, hpc'⟩
      cases hp2 : p.2 <;> simp [hp2, PushPc.holds] at hfree htested ⊢
    obtain ⟨t, hreach, ht, hfinished⟩ := hmissed.exists_finished
    have henqueue := enqueue_eq_some_iff.mpr ⟨op, ht.consumer, rfl⟩
    refine ⟨_, hreach.trans ((Machine.Reachable.refl _).head henqueue), hfinished, ht.notifying, ?_,
      op, rfl⟩
    simp [CvQueue.ready, ht.stop]
  | call | lock | test | enqueue | take | remove | unlock | push | pushLock | pushAppend
  | pushUnlock | notify | exchange => exact absurd trivial hheard

end CvWait

end Cqy
