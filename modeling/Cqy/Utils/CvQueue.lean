import Mathlib

/-!
# The queue of a context or of a peer

`cqy_cv_queue_t` guards a deque with a coroutine mutex.  Each operation here is what its source
does between taking and giving back the mutex; a wait on the condition variable is an operation
that is refused until the predicate holds.
-/

namespace Cqy

/-- The state of a `cqy_cv_queue_t`. -/
structure CvQueue (T : Type) where
  items : List T := []
  stop : Bool := false
deriving DecidableEq

namespace CvQueue

variable {T : Type}

/-- `cqy_cv_queue_t::shutdown`, with what it returns. -/
def shutdown (q : CvQueue T) : Bool × CvQueue T :=
  if q.stop then (false, q) else (true, { q with stop := true })

/-- `cqy_cv_queue_t::size`. -/
def size (q : CvQueue T) : ℕ := q.items.length

/-- The predicate of both waits. -/
def ready (q : CvQueue T) : Bool := decide (0 < q.items.length) || q.stop

/-- `cqy_cv_queue_t::pop`: `none` while it waits, and no element when it throws `queue stop`. -/
def pop (q : CvQueue T) : Option (Option T × CvQueue T) :=
  if q.ready then
    match q.items with
    | [] => some (none, q)
    | front :: rest =>
      if q.stop then some (none, q) else some (some front, { q with items := rest })
  else none

/-- `cqy_cv_queue_t::pop_all`: `none` while it waits.  The deque moved from is empty. -/
def popAll (q : CvQueue T) : Option (List T × CvQueue T) :=
  if q.ready then some (q.items, { q with items := [] }) else none

/-- The part of `cqy_cv_queue_t::push` under the mutex. -/
def enqueue (q : CvQueue T) (t : T) : CvQueue T := { q with items := q.items ++ [t] }

/-- `cqy_cv_queue_t::push`, run in one piece. -/
def push (q : CvQueue T) (t : T) : CvQueue T := if q.stop then q else q.enqueue t

theorem popAll_eq_some_iff {q q' : CvQueue T} {res : List T} :
    q.popAll = some (res, q') ↔
      q.ready = true ∧ res = q.items ∧ q' = { q with items := [] } := by
  rw [popAll]
  split_ifs with h
  · simp only [h, Option.some.injEq, Prod.mk.injEq, true_and]
    exact and_congr eq_comm eq_comm
  · simp [h]

/-- `pop` throws and leaves the queue alone, or takes the front. -/
theorem pop_cases {q q' : CvQueue T} {r : Option T} (h : q.pop = some (r, q')) :
    (r = none ∧ q' = q) ∨
      ∃ front, q.items = front :: q'.items ∧ r = some front ∧ q'.stop = q.stop := by
  rw [pop] at h
  split_ifs at h with _ hstop
  · have hthrow : r = none ∧ q' = q := by
      cases hitems : q.items <;> simp_all
    exact Or.inl hthrow
  · cases hitems : q.items with
    | nil =>
      rw [hitems] at h
      obtain ⟨rfl, rfl⟩ := Prod.mk.inj (Option.some.inj h)
      exact Or.inl ⟨rfl, rfl⟩
    | cons front rest =>
      rw [hitems] at h
      obtain ⟨rfl, rfl⟩ := Prod.mk.inj (Option.some.inj h)
      exact Or.inr ⟨front, rfl, rfl, rfl⟩

end CvQueue

end Cqy
