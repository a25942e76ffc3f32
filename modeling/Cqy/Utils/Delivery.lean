import Cqy.Utils.WakeUp

/-!
# What goes in and what comes out

The calls of a queue seen from outside: which call of `push` put its element in and which one came
too late, what the consumer was given, and when the queue was closed.  Whatever the interleaving,
the elements leave in the order in which they went in, each of them once, and as long as the queue
is open none of them can get stuck in it.  A `pop` that has found `stop` clear may return its
element after `shutdown`, since `shutdown` does not wait for the mutex.
-/

namespace Cqy

open Foundation

namespace CvWait

variable {T : Type}

inductive Event (T : Type)
  /-- Call `i` of `push` has appended its element. -/
  | accepted (i : ℕ)
  /-- Call `i` of `push` has found `stop` set. -/
  | refused (i : ℕ)
  | closed
  | popped (t : T)
  /-- `pop` throws `queue stop`. -/
  | threw
  | poppedAll (ts : List T)
deriving DecidableEq

def Event.accepted? : Event T → Option ℕ
  | .accepted i => some i
  | _ => none

/-- What the consumer is given. -/
def Event.elements : Event T → List T
  | .popped t => [t]
  | .poppedAll ts => ts
  | _ => []

def Event.popped? : Event T → Option T
  | .popped t => some t
  | _ => none

def Event.isClosed : Event T → Bool
  | .closed => true
  | _ => false

/-- What may stand before what: nothing is refused before the queue is closed, which it is once. -/
def Event.Before : Event T → Event T → Prop
  | .refused _, .closed | .closed, .closed => False
  | _, _ => True

/-- The calls of `push` that put their element in, in order. -/
def accepted (es : List (Event T)) : List ℕ := es.filterMap Event.accepted?

/-- All that the consumer was given, in order. -/
def delivered (es : List (Event T)) : List T := es.flatMap Event.elements

/-- What `pop` returned after the queue was closed. -/
def late (es : List (Event T)) : List T :=
  (es.dropWhile fun e ↦ !e.isClosed).filterMap Event.popped?

def emit (s : CvWait T) : Label T → List (Event T)
  | .push _ => if s.queue.stop then [.refused s.pushes.length] else []
  | .pushAppend i => [.accepted i]
  | .exchange => if s.queue.stop then [] else [.closed]
  | .take =>
    match s.consumer with
    | .taking .pop => if s.queue.items.isEmpty || s.queue.stop then [.threw] else []
    | .taking .popAll => [.poppedAll s.queue.items]
    | _ => []
  | .remove => s.queue.items.head?.toList.map .popped
  | _ => []

/-- What the events say of a call of `push` that stands at `pc`. -/
def Settled (es : List (Event T)) (i : ℕ) : PushPc → Prop
  | .tested | .locked => .accepted i ∉ es ∧ .refused i ∉ es
  | .appended | .unlocked => .accepted i ∈ es ∧ .refused i ∉ es
  | .finished => (.accepted i ∈ es ↔ .refused i ∉ es)

/-- The events account for the queue and for every call of `push`. -/
structure Ledger (es : List (Event T)) (s : CvWait T) : Prop where
  order : (accepted es).map (fun i ↦ s.pushes[i]?.map Prod.fst) =
    (delivered es ++ s.queue.items).map some
  nodup : (accepted es).Nodup
  settled : ∀ i p, s.pushes[i]? = some p → Settled es i p.2
  called : ∀ i, .accepted i ∈ es ∨ .refused i ∈ es → i < s.pushes.length
  closed : .closed ∈ es ↔ s.queue.stop = true
  refused : ∀ i, .refused i ∈ es → s.queue.stop = true
  before : es.Pairwise Event.Before
  /-- Only a `pop` that has found `stop` clear returns an element after `shutdown`. -/
  late : s.queue.stop = true → (late es).length + (if s.consumer = .popping then 1 else 0) ≤ 1

section Ledger

variable {es : List (Event T)} {s s' : CvWait T} {i : ℕ} {t : T} {pc pc' : PushPc}

theorem mem_accepted : i ∈ accepted es ↔ .accepted i ∈ es := by
  rw [accepted, List.mem_filterMap]
  constructor
  · rintro ⟨e, he, hi⟩
    cases e <;> simp [Event.accepted?] at hi
    exact hi ▸ he
  · exact fun h ↦ ⟨_, h, rfl⟩

theorem ledger_init : Ledger [] ({} : CvWait T) where
  order := rfl
  nodup := List.nodup_nil
  settled := by simp
  called := by simp
  closed := by simp
  refused := by simp
  before := List.Pairwise.nil
  late := by simp

theorem late_append (hclosed : .closed ∈ es) (es' : List (Event T)) :
    late (es ++ es') = late es ++ es'.filterMap Event.popped? := by
  have hne : es.dropWhile (fun e ↦ !e.isClosed) ≠ [] := fun hnil ↦ by
    have hall := List.dropWhile_eq_nil_iff.mp hnil .closed hclosed
    exact absurd hall (by simp [Event.isClosed])
  rw [late, List.dropWhile_append, if_neg (by simpa using hne), List.filterMap_append, late]

theorem late_eq_of_notMem (hopen : .closed ∉ es) (es' : List (Event T)) :
    late (es ++ .closed :: es') = es'.filterMap Event.popped? := by
  have hdrop : es.dropWhile (fun e ↦ !e.isClosed) = [] := by
    refine List.dropWhile_eq_nil_iff.mpr fun e he ↦ ?_
    cases e with
    | closed => exact absurd he hopen
    | accepted | refused | popped | threw | poppedAll => rfl
  rw [late, List.dropWhile_append, hdrop]
  rfl

/-- The consumer is not about to take an element when it was not, and nothing was popped. -/
theorem Ledger.late_of (h : Ledger es s) (es' : List (Event T)) (hnone : es'.filterMap
      Event.popped? = []) (hstop : s'.queue.stop = s.queue.stop)
    (hpopping : s.queue.stop = true → s'.consumer = .popping → s.consumer = .popping) :
    s'.queue.stop = true →
      (CvWait.late (es ++ es')).length + (if s'.consumer = .popping then 1 else 0) ≤ 1 := by
  intro hset
  rw [hstop] at hset
  have hlate := h.late hset
  rw [late_append (h.closed.mpr hset), hnone, List.append_nil]
  split_ifs with hpc
  · rwa [if_pos (hpopping hset hpc)] at hlate
  · omega

/-- A step of the consumer other than the end of its call, or of `shutdown` after the exchange. -/
theorem Ledger.keep (h : Ledger es s) (hpushes : s'.pushes = s.pushes)
    (hqueue : s'.queue = s.queue)
    (hpopping : s.queue.stop = true → s'.consumer = .popping → s.consumer = .popping) :
    Ledger (es ++ []) s' := by
  have hlate := h.late_of [] rfl (by rw [hqueue]) hpopping
  rw [List.append_nil] at hlate ⊢
  refine ⟨?_, h.nodup, ?_, ?_, ?_, ?_, h.before, hlate⟩
  · rw [hpushes, hqueue]
    exact h.order
  · rw [hpushes]
    exact h.settled
  · rw [hpushes]
    exact h.called
  · rw [hqueue]
    exact h.closed
  · rw [hqueue]
    exact h.refused

/-- The elements of the calls do not change when one of them moves. -/
theorem map_fst_set (hget : s.pushes[i]? = some (t, pc)) (j : ℕ) :
    (s.pushes.set i (t, pc'))[j]?.map Prod.fst = s.pushes[j]?.map Prod.fst := by
  rw [Vec.getElem?_set_of_some hget]
  split_ifs with hj
  · rw [hj, hget]
    rfl
  · rfl

/-- A call of `push` moves and leaves the queue alone. -/
theorem Ledger.move (h : Ledger es s) (hget : s.pushes[i]? = some (t, pc))
    (hpushes : s'.pushes = s.pushes.set i (t, pc')) (hqueue : s'.queue = s.queue)
    (hpopping : s'.consumer = .popping → s.consumer = .popping)
    (hpc : Settled es i pc → Settled es i pc') : Ledger (es ++ []) s' := by
  have hlate := h.late_of [] rfl (by rw [hqueue]) fun _ ↦ hpopping
  rw [List.append_nil] at hlate ⊢
  refine ⟨?_, h.nodup, fun j p hj ↦ ?_, ?_, ?_, ?_, h.before, hlate⟩
  · simp only [hpushes, hqueue, map_fst_set hget]
    exact h.order
  · rw [hpushes, Vec.getElem?_set_of_some hget] at hj
    split_ifs at hj with hji
    · obtain rfl := Option.some.inj hj
      exact hji ▸ hpc (h.settled i _ hget)
    · exact h.settled j p hj
  · rw [hpushes, List.length_set]
    exact h.called
  · rw [hqueue]
    exact h.closed
  · rw [hqueue]
    exact h.refused

/-- A call of `push` appends its element. -/
theorem Ledger.accept (h : Ledger es s) (hget : s.pushes[i]? = some (t, .locked))
    (hpushes : s'.pushes = s.pushes.set i (t, .appended))
    (hqueue : s'.queue = s.queue.enqueue t) (hconsumer : s'.consumer = s.consumer) :
    Ledger (es ++ [.accepted i]) s' := by
  have hlt := (List.getElem?_eq_some_iff.mp hget).1
  obtain ⟨hnew, hkeep⟩ : Event.accepted i ∉ es ∧ Event.refused i ∉ es := h.settled i _ hget
  have haccepted : accepted (es ++ [.accepted i]) = accepted es ++ [i] := by
    rw [accepted, List.filterMap_append]
    rfl
  have hdelivered : delivered (es ++ [.accepted i]) = delivered es := by
    rw [delivered, List.flatMap_append]
    exact List.append_nil _
  refine ⟨?_, ?_, fun j p hj ↦ ?_, ?_, ?_, ?_, ?_,
    h.late_of _ rfl (by rw [hqueue]; rfl) fun _ hpc ↦ hconsumer.symm.trans hpc⟩
  · simp only [hpushes, hqueue, haccepted, hdelivered, map_fst_set hget, List.map_append, h.order,
      CvQueue.enqueue, List.map_cons, hget, Option.map_some, List.map_nil, List.append_assoc]
  · rw [haccepted, List.nodup_append]
    refine ⟨h.nodup, List.nodup_singleton i, fun j hj k hk ↦ ?_⟩
    rw [List.mem_singleton.mp hk]
    exact fun hji ↦ hnew (mem_accepted.mp (hji ▸ hj))
  · rw [hpushes, Vec.getElem?_set_of_some hget] at hj
    split_ifs at hj with hji
    · obtain rfl := Option.some.inj hj
      subst hji
      simp [Settled, hkeep]
    · have hold := h.settled j p hj
      cases hpc : p.2 <;> rw [hpc] at hold <;> simpa [Settled, hji] using hold
  · rw [hpushes, List.length_set]
    intro j hj
    simp only [List.mem_append, List.mem_singleton, Event.accepted.injEq, reduceCtorEq,
      or_false] at hj
    rcases hj with (hj | rfl) | hj
    · exact h.called j (Or.inl hj)
    · exact hlt
    · exact h.called j (Or.inr hj)
  · simpa [hqueue, CvQueue.enqueue] using h.closed
  · simpa [hqueue, CvQueue.enqueue] using h.refused
  · refine List.pairwise_append.mpr ⟨h.before, List.pairwise_singleton _ _, fun e _ b hb ↦ ?_⟩
    rw [List.mem_singleton.mp hb]
    cases e <;> trivial

/-- A new call of `push`. -/
theorem Ledger.call (h : Ledger es s) (hpushes : s'.pushes = s.pushes ++
      [(t, if s.queue.stop then .finished else .tested)]) (hqueue : s'.queue = s.queue)
    (hconsumer : s'.consumer = s.consumer) :
    Ledger (es ++ if s.queue.stop then [.refused s.pushes.length] else []) s' := by
  set more : List (Event T) := if s.queue.stop then [.refused s.pushes.length] else []
    with hmore
  have hnew : Event.accepted s.pushes.length ∉ es ∧ Event.refused s.pushes.length ∉ es :=
    ⟨fun he ↦ (h.called _ (Or.inl he)).false, fun he ↦ (h.called _ (Or.inr he)).false⟩
  have hmem (e : Event T) : e ∈ more ↔ s.queue.stop = true ∧ e = .refused s.pushes.length := by
    cases hstop : s.queue.stop <;> simp [hmore, hstop]
  have haccepted : accepted (es ++ more) = accepted es := by
    rw [accepted, List.filterMap_append, hmore]
    split_ifs <;> exact List.append_nil _
  have hdelivered : delivered (es ++ more) = delivered es := by
    rw [delivered, List.flatMap_append, hmore]
    split_ifs <;> exact List.append_nil _
  have hnone : more.filterMap Event.popped? = [] := by
    rw [hmore]
    split_ifs <;> rfl
  refine ⟨?_, ?_, fun j p hj ↦ ?_, fun j hj ↦ ?_, ?_, ?_, ?_,
    h.late_of _ hnone (by rw [hqueue]) fun _ hpc ↦ hconsumer.symm.trans hpc⟩
  · rw [haccepted, hdelivered, hqueue, ← h.order]
    refine List.map_congr_left fun j hj ↦ ?_
    rw [hpushes, List.getElem?_append_left (h.called j (Or.inl (mem_accepted.mp hj)))]
  · rw [haccepted]
    exact h.nodup
  · rw [hpushes] at hj
    rcases Nat.lt_or_ge j s.pushes.length with hlt | hge
    · rw [List.getElem?_append_left hlt] at hj
      have hold := h.settled j p hj
      cases hpc : p.2 <;> rw [hpc] at hold <;> simpa [Settled, hmem, hlt.ne] using hold
    · rw [List.getElem?_append_right hge, List.getElem?_eq_some_iff] at hj
      obtain ⟨hj', rfl⟩ := hj
      obtain rfl : j = s.pushes.length := by
        rw [List.length_singleton] at hj'
        omega
      cases hstop : s.queue.stop <;> simp [Settled, hmem, hnew, hstop]
  · rw [hpushes, List.length_append, List.length_singleton]
    simp only [List.mem_append, hmem, reduceCtorEq, and_false, or_false, Event.refused.injEq] at hj
    rcases hj with hj | hj | ⟨-, rfl⟩
    · exact (h.called j (Or.inl hj)).trans_le (Nat.le_add_right _ _)
    · exact (h.called j (Or.inr hj)).trans_le (Nat.le_add_right _ _)
    · exact Nat.lt_add_one _
  · simpa [hmem, hqueue] using h.closed
  · intro j hj
    rw [hqueue]
    rcases List.mem_append.mp hj with hj | hj
    · exact h.refused j hj
    · exact ((hmem _).mp hj).1
  · refine List.pairwise_append.mpr ⟨h.before, ?_, fun e _ b hb ↦ ?_⟩
    · rw [hmore]
      split_ifs
      · exact List.pairwise_singleton _ _
      · exact List.Pairwise.nil
    · rw [((hmem b).mp hb).2]
      cases e <;> trivial

/-- The first call of `shutdown`. -/
theorem Ledger.close (h : Ledger es s) (hopen : s.queue.stop = false)
    (hpushes : s'.pushes = s.pushes) (hqueue : s'.queue = { s.queue with stop := true }) :
    Ledger (es ++ [.closed]) s' := by
  have hnew : Event.closed ∉ es := fun he ↦ by simp [h.closed.mp he] at hopen
  have haccepted : accepted (es ++ [.closed]) = accepted es := by
    rw [accepted, List.filterMap_append]
    exact List.append_nil _
  have hdelivered : delivered (es ++ [.closed]) = delivered es := by
    rw [delivered, List.flatMap_append]
    exact List.append_nil _
  refine ⟨?_, ?_, fun j p hj ↦ ?_, fun j hj ↦ ?_, ?_, fun _ _ ↦ by rw [hqueue], ?_,
    fun _ ↦ ?_⟩
  · rw [haccepted, hdelivered, hpushes, hqueue]
    exact h.order
  · rw [haccepted]
    exact h.nodup
  · have hold := h.settled j p (hpushes ▸ hj)
    cases hpc : p.2 <;> rw [hpc] at hold <;> simpa [Settled] using hold
  · rw [hpushes]
    exact h.called j (by simpa using hj)
  · simp [hqueue]
  · refine List.pairwise_append.mpr ⟨h.before, List.pairwise_singleton _ _, fun e he b hb ↦ ?_⟩
    rw [List.mem_singleton.mp hb]
    have hstop : ¬ s.queue.stop = true := by simp [hopen]
    cases e with
    | refused j => exact absurd (h.refused j he) hstop
    | closed => exact absurd (h.closed.mp he) hstop
    | accepted | popped | threw | poppedAll => trivial
  · rw [late_eq_of_notMem hnew]
    split_ifs <;> simp

/-- How a call of the consumer ends. -/
def Event.Returned : Event T → Prop
  | .popped _ | .threw | .poppedAll _ => True
  | _ => False

/-- The call of the consumer ends, and returns what it takes out. -/
theorem Ledger.give (h : Ledger es s) {e : Event T} (he : e.Returned)
    (hpushes : s'.pushes = s.pushes) (hstop : s'.queue.stop = s.queue.stop)
    (hitems : e.elements ++ s'.queue.items = s.queue.items) (hpc' : s'.consumer ≠ .popping)
    (hpc : e.popped? ≠ none → s.consumer = .popping) : Ledger (es ++ [e]) s' := by
  have hnone : e.accepted? = none := by cases e <;> first | rfl | exact he.elim
  have haccepted : accepted (es ++ [e]) = accepted es := by
    rw [accepted, List.filterMap_append, List.filterMap_cons_none hnone]
    exact List.append_nil _
  have hdelivered : delivered (es ++ [e]) = delivered es ++ e.elements := by
    rw [delivered, List.flatMap_append, List.flatMap_singleton]
    rfl
  have hother : (∀ j, .accepted j ≠ e) ∧ (∀ j, .refused j ≠ e) ∧ .closed ≠ e := by
    cases e <;> first | exact he.elim | simp
  refine ⟨?_, ?_, fun j p hj ↦ ?_, fun j hj ↦ ?_, ?_, fun j hj ↦ ?_, ?_, fun hset ↦ ?_⟩
  · rw [haccepted, hdelivered, hpushes, List.append_assoc, hitems]
    exact h.order
  · rw [haccepted]
    exact h.nodup
  · have hsettled := h.settled j p (hpushes ▸ hj)
    cases hp : p.2 <;> rw [hp] at hsettled <;> simpa [Settled, hother] using hsettled
  · rw [hpushes]
    exact h.called j (by simpa [hother] using hj)
  · simpa [hother, hstop] using h.closed
  · rw [hstop]
    exact h.refused j (by simpa [hother] using hj)
  · refine List.pairwise_append.mpr ⟨h.before, List.pairwise_singleton _ _, fun e' _ b hb ↦ ?_⟩
    rw [List.mem_singleton.mp hb]
    cases e <;> cases e' <;> first | exact he.elim | trivial
  · -- a `pop` that was about to take its element has now taken it
    rw [hstop] at hset
    have hlate := h.late hset
    rw [late_append (h.closed.mpr hset), if_neg hpc']
    cases hpopped : e.popped? with
    | none =>
      rw [List.filterMap_cons_none hpopped, List.filterMap_nil, List.append_nil]
      omega
    | some t =>
      rw [if_pos (hpc (by simp [hpopped]))] at hlate
      rw [List.filterMap_cons_some hpopped, List.filterMap_nil, List.length_append,
        List.length_singleton]
      exact hlate

theorem ledger_step (es : List (Event T)) (s : CvWait T) (l : Label T) (s' : CvWait T)
    (h : Ledger es s) (hstep : s.step l = some s') : Ledger (es ++ s.emit l) s' := by
  cases l with
  | take =>
    obtain ⟨hpc, hend, rfl⟩ | ⟨hpc, hitems, hopen, rfl⟩ | ⟨hpc, rfl⟩ := take_cases hstep
    · have hemit : s.emit .take = [.threw] := by simp [emit, hpc, hend]
      rw [hemit]
      exact h.give trivial rfl rfl rfl (by simp) (by simp [Event.popped?])
    · have hemit : s.emit .take = [] := by simp [emit, hpc, hitems, hopen]
      rw [hemit]
      exact h.keep rfl rfl fun hset ↦ absurd (hset.symm.trans hopen) (by simp)
    · have hemit : s.emit .take = [.poppedAll s.queue.items] := by simp [emit, hpc]
      rw [hemit]
      exact h.give trivial rfl rfl (List.append_nil _) (by simp) (by simp [Event.popped?])
  | remove =>
    obtain ⟨hpc, rfl⟩ := remove_eq_some_iff.mp hstep
    cases hitems : s.queue.items with
    | nil =>
      have hemit : s.emit .remove = [] := by simp [emit, hitems]
      have hsame : { s.queue with items := ([] : List T) } = s.queue := by rw [← hitems]
      rw [hemit]
      exact h.keep rfl hsame (by simp)
    | cons t rest =>
      have hemit : s.emit .remove = [.popped t] := by simp [emit, hitems]
      rw [hemit]
      exact h.give trivial rfl rfl hitems.symm (by simp) fun _ ↦ hpc
  | push t =>
    obtain rfl := Option.some.inj hstep
    exact h.call rfl rfl rfl
  | pushAppend i =>
    obtain ⟨t, hget, rfl⟩ := pushAppend_eq_some_iff.mp hstep
    exact h.accept hget rfl rfl rfl
  | pushLock i =>
    obtain ⟨t, hget, -, rfl⟩ := pushLock_eq_some_iff.mp hstep
    exact h.move hget rfl rfl id id
  | pushUnlock i =>
    obtain ⟨t, hget, rfl⟩ := pushUnlock_eq_some_iff.mp hstep
    exact h.move hget rfl rfl id id
  | notify i =>
    obtain ⟨t, hget, rfl⟩ := notify_eq_some_iff.mp hstep
    exact h.move hget rfl rfl wake_eq_popping.mp fun ⟨hin, hout⟩ ↦ iff_of_true hin hout
  | exchange =>
    simp only [step] at hstep
    split_ifs at hstep with hstop
    · obtain rfl := Option.some.inj hstep
      have hemit : s.emit .exchange = [] := by simp [emit, hstop]
      rw [hemit]
      exact h.keep rfl rfl fun _ ↦ id
    · obtain rfl := Option.some.inj hstep
      have hopen : s.queue.stop = false := by simpa using hstop
      have hemit : s.emit .exchange = [.closed] := by simp [emit, hopen]
      rw [hemit]
      exact h.close hopen rfl rfl
  | lock =>
    obtain ⟨op, -, -, rfl⟩ := lock_eq_some_iff.mp hstep
    exact h.keep rfl rfl (by simp)
  | test =>
    obtain ⟨op, -, rfl⟩ := test_eq_some_iff.mp hstep
    exact h.keep rfl rfl fun _ hpc ↦ by dsimp only at hpc; split_ifs at hpc
  | enqueue =>
    obtain ⟨op, -, rfl⟩ := enqueue_eq_some_iff.mp hstep
    exact h.keep rfl rfl (by simp)
  | notifyAll =>
    simp only [step] at hstep
    split_ifs at hstep
    obtain rfl := Option.some.inj hstep
    exact h.keep rfl rfl fun _ ↦ wake_eq_popping.mp
  | call | unlock =>
    simp only [step] at hstep
    split_ifs at hstep
    obtain rfl := Option.some.inj hstep
    exact h.keep rfl rfl (by simp)

theorem ledger_of_run {ls : List (Label T)} (hrun : Machine.run step {} ls = some s) :
    Ledger (Machine.trace step emit {} ls) s :=
  Machine.run_trace (fun es s l s' h _ hstep ↦ ledger_step es s l s' h hstep) ledger_init
    (Machine.allSteps_of_forall (fun _ _ ↦ trivial) _ _) hrun

end Ledger

/-- In every run, the calls of `push` put their elements in once each, and the consumer was given
these elements in this order, except for those that are still in the queue.  A call that has
finished put its element in unless it came after `shutdown`; and after `shutdown` at most one `pop`
still returns an element. -/
theorem delivered_in_order {ls : List (Label T)} {s : CvWait T}
    (hrun : Machine.run step {} ls = some s) :
    let es := Machine.trace step emit {} ls
    (accepted es).map (fun i ↦ s.pushes[i]?.map Prod.fst) =
      (delivered es ++ s.queue.items).map some ∧
    (accepted es).Nodup ∧
    (∀ i t, s.pushes[i]? = some (t, .finished) → (i ∈ accepted es ↔ .refused i ∉ es)) ∧
    es.Pairwise Event.Before ∧
    ∀ pre post, es = pre ++ .closed :: post → (post.filterMap Event.popped?).length ≤ 1 := by
  have h := ledger_of_run hrun
  refine ⟨h.order, h.nodup, fun i t hget ↦ ?_, h.before, fun pre post hes ↦ ?_⟩
  · rw [mem_accepted]
    exact h.settled i _ hget
  · have hbefore := h.before
    have hset : s.queue.stop = true := h.closed.mp (by simp [hes])
    have hlate := h.late hset
    rw [hes] at hbefore hlate
    have hpre : Event.closed ∉ pre := fun hin ↦
      (List.pairwise_append.mp hbefore).2.2 _ hin .closed (by simp)
    rw [late_eq_of_notMem hpre] at hlate
    omega

/-- Two calls of `push`, the second of which appends first; `pop` is about to take its element when
`shutdown` comes, a third call of `push` is refused, and `pop_all` gets the rest. -/
theorem delivered_in_order_overtaken :
    let es := Machine.trace step emit ({} : CvWait ℕ) [.push 7, .push 8, .pushLock 1, .pushAppend 1,
      .pushUnlock 1, .call .pop, .lock, .test, .take, .exchange, .remove, .unlock, .pushLock 0,
      .pushAppend 0, .pushUnlock 0, .notify 0, .push 9, .call .popAll, .lock, .test, .take]
    es = [.accepted 1, .closed, .popped 8, .accepted 0, .refused 2, .poppedAll [7]] ∧
      es.Pairwise Event.Before :=
  ⟨by decide, (delivered_in_order (s := ⟨⟨[], true⟩, true, .leaving,
    [(7, .finished), (8, .unlocked), (9, .finished)], true⟩) (by decide)).2.2.2.1⟩

/-! ## An open queue can be drained -/

/-- The labels of calls that are under way. -/
def Label.Internal : Label T → Prop
  | .push _ | .exchange | .notifyAll => False
  | _ => True

theorem internal_step {s s' : CvWait T} {l : Label T} (hl : l.Internal)
    (hstep : s.step l = some s') :
    s'.queue.stop = s.queue.stop ∧ s'.pushes.map Prod.fst = s.pushes.map Prod.fst := by
  have hset {i : ℕ} {t : T} {pc pc' : PushPc} (hget : s.pushes[i]? = some (t, pc)) :
      (s.pushes.set i (t, pc')).map Prod.fst = s.pushes.map Prod.fst := by
    refine List.ext_getElem? fun j ↦ ?_
    rw [List.getElem?_map, List.getElem?_map, map_fst_set hget]
  cases l with
  | push | exchange | notifyAll => exact hl.elim
  | take =>
    obtain ⟨-, -, rfl⟩ | ⟨-, -, -, rfl⟩ | ⟨-, rfl⟩ := take_cases hstep <;> exact ⟨rfl, rfl⟩
  | remove =>
    obtain ⟨-, rfl⟩ := remove_eq_some_iff.mp hstep
    exact ⟨rfl, rfl⟩
  | lock =>
    obtain ⟨op, -, -, rfl⟩ := lock_eq_some_iff.mp hstep
    exact ⟨rfl, rfl⟩
  | test =>
    obtain ⟨op, -, rfl⟩ := test_eq_some_iff.mp hstep
    exact ⟨rfl, rfl⟩
  | enqueue =>
    obtain ⟨op, -, rfl⟩ := enqueue_eq_some_iff.mp hstep
    exact ⟨rfl, rfl⟩
  | pushLock i =>
    obtain ⟨t, hget, -, rfl⟩ := pushLock_eq_some_iff.mp hstep
    exact ⟨rfl, hset hget⟩
  | pushAppend i =>
    obtain ⟨t, hget, rfl⟩ := pushAppend_eq_some_iff.mp hstep
    exact ⟨rfl, hset hget⟩
  | pushUnlock i =>
    obtain ⟨t, hget, rfl⟩ := pushUnlock_eq_some_iff.mp hstep
    exact ⟨rfl, hset hget⟩
  | notify i =>
    obtain ⟨t, hget, rfl⟩ := notify_eq_some_iff.mp hstep
    exact ⟨rfl, hset hget⟩
  | call | unlock =>
    simp only [step] at hstep
    split_ifs at hstep
    obtain rfl := Option.some.inj hstep
    exact ⟨rfl, rfl⟩

end CvWait

/-- The steps a call of `push` has before it. -/
def PushPc.left : PushPc → ℕ
  | .tested => 4
  | .locked => 3
  | .appended => 2
  | .unlocked => 1
  | .finished => 0

/-- The steps the consumer has before it when there is an element to take. -/
def ConsumerPc.left : ConsumerPc → ℕ
  | .leaving => 7
  | .idle => 6
  | .locking _ | .woken _ => 5
  | .testing _ => 4
  | .taking _ => 3
  | .popping => 2
  | .enqueueing _ => 1
  | .parked _ => 0

namespace CvWait

variable {T : Type}

/-- A step of `push` may add an element and wake the consumer. -/
def toDrain (s : CvWait T) : ℕ :=
  20 * (s.pushes.map fun p ↦ p.2.left).sum + 10 * s.queue.items.length + s.consumer.left

structure Open (s : CvWait T) : Prop where
  attended : s.Attended
  ready : s.Ready
  stop : s.queue.stop = false
  notifying : s.notifying = false

def Drained (s : CvWait T) : Prop :=
  (∀ p ∈ s.pushes, p.2 = .finished) ∧ s.queue.items = []

section Drain

variable {s : CvWait T} {i : ℕ} {t : T} {pc pc' : PushPc}

theorem toDrain_push {queue : CvQueue T} {consumer : ConsumerPc} {locked : Bool}
    (hget : s.pushes[i]? = some (t, pc)) (hpc : pc'.left + 1 = pc.left)
    (hother : 10 * queue.items.length + consumer.left <
      10 * s.queue.items.length + s.consumer.left + 20) :
    toDrain ⟨queue, locked, consumer, s.pushes.set i (t, pc'), s.notifying⟩ < s.toDrain := by
  have hsum : ((s.pushes.set i (t, pc')).map fun p ↦ p.2.left).sum + pc.left =
      (s.pushes.map fun p ↦ p.2.left).sum + pc'.left :=
    Vec.sum_map_set (fun p ↦ p.2.left) hget (t, pc')
  simp only [toDrain]
  omega

/-- A call of `push` that is under way moves, unless it waits for the mutex. -/
theorem exists_push_step (hget : s.pushes[i]? = some (t, pc)) (hpc : pc ≠ .finished)
    (hfree : pc = .tested → s.locked = false) :
    ∃ l s', s.step l = some s' ∧ l.Internal ∧ s'.toDrain < s.toDrain := by
  cases pc with
  | tested =>
    exact ⟨.pushLock i, _, pushLock_eq_some_iff.mpr ⟨t, hget, hfree rfl, rfl⟩, trivial,
      toDrain_push hget rfl (by omega)⟩
  | locked =>
    refine ⟨.pushAppend i, _, pushAppend_eq_some_iff.mpr ⟨t, hget, rfl⟩, trivial,
      toDrain_push hget rfl ?_⟩
    rw [CvQueue.enqueue, List.length_append, List.length_singleton]
    omega
  | appended =>
    exact ⟨.pushUnlock i, _, pushUnlock_eq_some_iff.mpr ⟨t, hget, rfl⟩, trivial,
      toDrain_push hget rfl (by omega)⟩
  | unlocked =>
    refine ⟨.notify i, _, notify_eq_some_iff.mpr ⟨t, hget, rfl⟩, trivial,
      toDrain_push hget rfl ?_⟩
    cases hconsumer : s.consumer <;> simp only [ConsumerPc.wake, ConsumerPc.left] <;> omega
  | finished => exact absurd rfl hpc

/-- With the mutex, the consumer moves. -/
theorem Open.exists_consumer_step (h : s.Open) (hholds : s.consumer.holds = true) :
    ∃ l s', s.step l = some s' ∧ l.Internal ∧ s'.toDrain < s.toDrain := by
  cases hpc : s.consumer with
  | testing op =>
    refine ⟨.test, _, test_eq_some_iff.mpr ⟨op, hpc, rfl⟩, trivial, ?_⟩
    simp only [toDrain, hpc]
    split_ifs <;> simp [ConsumerPc.left]
  | enqueueing op =>
    refine ⟨.enqueue, _, enqueue_eq_some_iff.mpr ⟨op, hpc, rfl⟩, trivial, ?_⟩
    simp [toDrain, hpc, ConsumerPc.left]
  | taking op =>
    have hready := h.ready.taking op hpc
    rw [CvQueue.ready, h.stop, Bool.or_false, decide_eq_true_eq] at hready
    have hne : s.queue.items ≠ [] := List.length_pos_iff.mp hready
    cases op with
    | pop =>
      refine ⟨.take, { s with consumer := .popping }, ?_, trivial, ?_⟩
      · simp [step, hpc, hne, h.stop]
      · simp [toDrain, hpc, ConsumerPc.left]
    | popAll =>
      refine ⟨.take, { s with queue := { s.queue with items := [] }, consumer := .leaving }, ?_,
        trivial, ?_⟩
      · simp [step, hpc]
      · simp only [toDrain, hpc, ConsumerPc.left, List.length_nil]
        omega
  | popping =>
    refine ⟨.remove, _, remove_eq_some_iff.mpr ⟨hpc, rfl⟩, trivial, ?_⟩
    have hpos := List.length_pos_iff.mpr (h.ready.popping hpc)
    simp only [toDrain, hpc, ConsumerPc.left, List.length_tail]
    omega
  | leaving =>
    refine ⟨.unlock, { s with locked := false, consumer := .idle }, by simp [step, hpc], trivial,
      ?_⟩
    simp [toDrain, hpc, ConsumerPc.left]
  | idle | locking | parked | woken =>
    rw [hpc] at hholds
    exact absurd hholds Bool.false_ne_true

/-- Short of the end, somebody can move: the one that has the mutex, or when it is free a call of
`push`, or the consumer, which is not stranded. -/
theorem Open.exists_step (h : s.Open) (hmore : ¬ s.Drained) :
    ∃ l s', s.step l = some s' ∧ l.Internal ∧ s'.toDrain < s.toDrain := by
  by_cases hpush : ∃ p ∈ s.pushes, p.2 ≠ .finished ∧ (p.2 = .tested → s.locked = false)
  · obtain ⟨p, hp, hpc, hfree⟩ := hpush
    obtain ⟨i, hi⟩ := List.mem_iff_getElem?.mp hp
    exact exists_push_step hi hpc hfree
  by_cases hholds : s.consumer.holds = true
  · exact h.exists_consumer_step hholds
  -- Nobody has the mutex, and so no call of `push` waits for it.
  have hwaiting (p : T × PushPc) (hp : p ∈ s.pushes) (hpc : p.2 ≠ .finished) :
      p.2 = .tested ∧ s.locked = true := by
    have hblocked := not_and.mp (not_exists.mp hpush p) hp
    simpa using not_and.mp hblocked hpc
  have hfree : s.locked = false := by
    obtain ⟨owner, hlocked, howner⟩ := h.attended.exclusive
    cases owner with
    | none => exact hlocked
    | some w =>
      have hw : s.Holds w := (howner w).mpr rfl
      cases w with
      | none => exact absurd hw hholds
      | some i =>
        obtain ⟨p, hi, hp⟩ := hw
        have hpc : p.2 ≠ .finished := fun hpc ↦ by simp [hpc, PushPc.holds] at hp
        obtain ⟨htested, -⟩ := hwaiting p (List.mem_of_getElem? hi) hpc
        simp [htested, PushPc.holds] at hp
  have hfinished (p : T × PushPc) (hp : p ∈ s.pushes) : p.2 = .finished := by
    by_contra hpc
    exact Bool.false_ne_true (hfree.symm.trans (hwaiting p hp hpc).2)
  have hitems : s.queue.items ≠ [] := fun hitems ↦ hmore ⟨hfinished, hitems⟩
  cases hpc : s.consumer with
  | idle =>
    refine ⟨.call .pop, { s with consumer := .locking .pop }, by simp [step, hpc], trivial, ?_⟩
    simp [toDrain, hpc, ConsumerPc.left]
  | locking op =>
    refine ⟨.lock, _, lock_eq_some_iff.mpr ⟨op, Or.inl hpc, hfree, rfl⟩, trivial, ?_⟩
    simp [toDrain, hpc, ConsumerPc.left]
  | woken op =>
    refine ⟨.lock, _, lock_eq_some_iff.mpr ⟨op, Or.inr hpc, hfree, rfl⟩, trivial, ?_⟩
    simp [toDrain, hpc, ConsumerPc.left]
  | parked op =>
    refine absurd ⟨hfinished, h.notifying, ?_, op, hpc⟩ h.attended.not_stranded
    simpa [CvQueue.ready, List.length_pos_iff] using Or.inl hitems
  | testing | enqueueing | taking | popping | leaving =>
    rw [hpc] at hholds
    exact absurd rfl hholds

theorem open_step {s' : CvWait T} {l : Label T} (h : s.Open) (hl : l.Internal)
    (hstep : s.step l = some s') : s'.Open where
  attended := attended_step s l s' h.attended (by cases l <;> first | exact hl.elim | trivial) hstep
  ready := ready_step s l s' h.ready hstep
  stop := (internal_step hl hstep).1.trans h.stop
  notifying := by
    have hnotifying := h.notifying
    cases l with
    | push | exchange | notifyAll => exact hl.elim
    | call | lock | test | enqueue | take | remove | unlock | pushLock | pushAppend | pushUnlock
    | notify =>
      simp only [step] at hstep
      grind

/-- Nothing clears `stop`. -/
theorem stop_of_step {s' : CvWait T} {l : Label T} (hstep : s.step l = some s')
    (hopen : s'.queue.stop = false) : s.queue.stop = false := by
  by_cases hl : l.Internal
  · exact (internal_step hl hstep).1.symm.trans hopen
  cases l with
  | push t =>
    obtain rfl := Option.some.inj hstep
    exact hopen
  | exchange =>
    simp only [step] at hstep
    split_ifs at hstep with hstop
    · exact Option.some.inj hstep ▸ hopen
    · simpa using hstop
  | notifyAll =>
    simp only [step] at hstep
    split_ifs at hstep
    obtain rfl := Option.some.inj hstep
    exact hopen
  | call | lock | test | enqueue | take | remove | unlock | pushLock | pushAppend | pushUnlock
  | notify => exact absurd trivial hl

theorem open_of_reachable (h : Machine.Reachable step {} s) (hopen : s.queue.stop = false) :
    s.Open := by
  have hstop := h.invariant stop_of_notifying_step (by simp)
  have hquiet {s : CvWait T} (hstop : s.notifying = true → s.queue.stop = true)
      (hopen : s.queue.stop = false) : s.notifying = false := by
    by_contra hset
    exact Bool.false_ne_true (hopen.symm.trans (hstop (by simpa using hset)))
  have hboth (s : CvWait T) (l : Label T) (s' : CvWait T)
      (h : (s.notifying = true → s.queue.stop = true) ∧ (s.queue.stop = false → s.Attended))
      (hstep : s.step l = some s') :
      (s'.notifying = true → s'.queue.stop = true) ∧ (s'.queue.stop = false → s'.Attended) := by
    refine ⟨stop_of_notifying_step s l s' h.1 hstep, fun hopen' ↦ ?_⟩
    have hopen := stop_of_step hstep hopen'
    refine attended_step s l s' (h.2 hopen) ?_ hstep
    cases l with
    | notifyAll => simp [step, hquiet h.1 hopen] at hstep
    | call | lock | test | enqueue | take | remove | unlock | push | pushLock | pushAppend
    | pushUnlock | notify | exchange => trivial
  exact ⟨(h.invariant hboth ⟨by simp, fun _ ↦ attended_init⟩).2 hopen,
    h.invariant ready_step ready_init, hopen, hquiet hstop hopen⟩

end Drain

/-- As long as the queue is open, whatever the calls have done so far, those that are under way can
finish and the consumer can get every element that was ever pushed. -/
theorem exists_drained {ls : List (Label T)} {s : CvWait T}
    (hrun : Machine.run step {} ls = some s) (hopen : s.queue.stop = false) :
    ∃ more t, Machine.run step {} (ls ++ more) = some t ∧ t.Drained ∧ t.queue.stop = false ∧
      (delivered (Machine.trace step emit {} (ls ++ more))).Perm (s.pushes.map Prod.fst) := by
  have hprogress (u : CvWait T) (hu : u.Open ∧ u.pushes.map Prod.fst = s.pushes.map Prod.fst)
      (hmore : ¬ u.Drained) : ∃ l u', u.step l = some u' ∧
        (u'.Open ∧ u'.pushes.map Prod.fst = s.pushes.map Prod.fst) ∧ u'.toDrain < u.toDrain := by
    obtain ⟨l, u', hstep, hl, hlt⟩ := hu.1.exists_step hmore
    exact ⟨l, u', hstep, ⟨open_step hu.1 hl hstep, (internal_step hl hstep).2.trans hu.2⟩, hlt⟩
  obtain ⟨t, ⟨more, hrest⟩, ⟨ht, helements⟩, hdrained⟩ :=
    Machine.exists_reachable_of_decreasing toDrain hprogress
      ⟨open_of_reachable ⟨ls, hrun⟩ hopen, rfl⟩
  have hall := Machine.run_append_eq_some.mpr ⟨s, hrun, hrest⟩
  refine ⟨more, t, hall, hdrained, ht.stop, ?_⟩
  have hledger := ledger_of_run hall
  generalize Machine.trace step emit {} (ls ++ more) = es at hledger
  have hcalls : (accepted es).Perm (List.range t.pushes.length) := by
    refine (List.perm_ext_iff_of_nodup hledger.nodup List.nodup_range).mpr fun i ↦ ?_
    rw [List.mem_range, mem_accepted]
    refine ⟨fun hi ↦ hledger.called i (Or.inl hi), fun hi ↦ ?_⟩
    have hget := List.getElem?_eq_getElem hi
    have hsettled := hledger.settled i _ hget
    rw [hdrained.1 _ (List.getElem_mem hi)] at hsettled
    refine hsettled.mpr fun hrefused ↦ ?_
    exact Bool.false_ne_true (ht.stop.symm.trans (hledger.refused i hrefused))
  have helem : (List.range t.pushes.length).map (fun i ↦ t.pushes[i]?.map Prod.fst) =
      (s.pushes.map Prod.fst).map some := by
    rw [← helements]
    refine List.ext_getElem (by simp) fun i hi hi' ↦ ?_
    simp at hi
    simp [hi]
  rw [← List.map_perm_map_iff (Option.some_injective T), ← helem]
  have horder := hledger.order
  rw [hdrained.2, List.append_nil] at horder
  exact horder ▸ hcalls.map _

/-- A consumer that is parked, and a call that has the mutex. -/
theorem exists_drained_parked : ∃ more t, Machine.run step ({} : CvWait ℕ)
      ([.call .pop, .lock, .test, .enqueue, .push 7, .push 8, .pushLock 1] ++ more) = some t ∧
    t.Drained ∧ t.queue.stop = false ∧
    (delivered (Machine.trace step emit {}
      ([.call .pop, .lock, .test, .enqueue, .push 7, .push 8, .pushLock 1] ++ more))).Perm [7, 8] :=
  exists_drained (s := ⟨⟨[], false⟩, true, .parked .pop, [(7, .tested), (8, .locked)], false⟩)
    (by decide) rfl

end CvWait

end Cqy
