import Cqy.Ctx.Receive

/-!
# A context that is shut down

`shutdown` sets `stop` and nothing else.  The loop may stand anywhere, handlers may wait for the
context lock, and calls of `node_push_msg` that have seen `stop` clear have yet to append.  A pop
that has found `stop` clear too still takes its message, and that is the last one: whatever the
loop has not popped by then stays in the queue.
-/

namespace Cqy

open Foundation

namespace Receive

/-- What the loop still takes when `stop` is set: the message that `pop` has found. -/
def held (s : Receive) : ℕ := if s.pc = .take then 1 else 0

/-- How `s` follows on `m`, in which the queue had been stopped. -/
structure Stopped (m s : Receive) : Prop where
  stop : s.queue.stop = true
  popped : m.popped ≤ s.popped
  left : s.popped + s.held ≤ m.popped + m.held
  /-- Only a push that had passed the test in `m` can still append its message. -/
  late : ∃ late, s.pushed = m.pushed ++ late ∧ (late ++ s.pushers).Perm m.pushers

section Stopped

variable {m s s' : Receive}

theorem Stopped.refl (hstop : s.queue.stop = true) : Stopped s s :=
  ⟨hstop, Nat.le_refl _, Nat.le_refl _, [], by simp⟩

/-- A step that takes nothing out of the queue and puts nothing in. -/
theorem Stopped.keep (h : Stopped m s) (hstop : s'.queue.stop = s.queue.stop)
    (hpopped : s'.popped = s.popped) (hheld : s'.held ≤ s.held) (hpushed : s'.pushed = s.pushed)
    (hpushers : s'.pushers = s.pushers) : Stopped m s' where
  stop := hstop.trans h.stop
  popped := hpopped ▸ h.popped
  left := by
    rw [hpopped]
    exact (Nat.add_le_add_left hheld _).trans h.left
  late := by
    rw [hpushed, hpushers]
    exact h.late

theorem handle_popped (s : Receive) (msg : CqyStr) : (handle s msg).popped = s.popped + 1 ∧
    (handle s msg).held = 0 ∧ (handle s msg).queue = s.queue ∧ (handle s msg).pushed = s.pushed ∧
    (handle s msg).pushers = s.pushers := by
  unfold handle
  split <;> exact ⟨rfl, rfl, rfl, rfl, rfl⟩

theorem stopped_step (s : Receive) (l : Label) (s' : Receive) (h : Stopped m s)
    (hstep : s.step l = some s') : Stopped m s' := by
  cases l with
  | pushTest msg =>
    simp only [step, h.stop, if_pos, Option.some.injEq] at hstep
    exact hstep ▸ h
  | pushEnqueue i =>
    obtain ⟨msg, hget, rfl⟩ := Option.map_eq_some_iff.mp hstep
    obtain ⟨late, hpushed, hperm⟩ := h.late
    refine ⟨h.stop, h.popped, h.left, late ++ [msg], ?_, ?_⟩
    · rw [← List.append_assoc, ← hpushed]
    · have hmove : (msg :: s.pushers.eraseIdx i).Perm s.pushers := by
        obtain ⟨hi, rfl⟩ := List.getElem?_eq_some_iff.mp hget
        exact List.getElem_cons_eraseIdx_perm hi
      rw [List.append_assoc]
      exact (hmove.append_left late).trans hperm
  | shutdown =>
    obtain rfl := Option.some.inj hstep
    have hsame : s.queue.shutdown.2 = s.queue := by rw [CvQueue.shutdown, if_pos h.stop]
    exact h.keep (congrArg CvQueue.stop hsame) rfl (Nat.le_refl _) rfl rfl
  | test =>
    simp only [step] at hstep
    split_ifs at hstep <;> obtain rfl := Option.some.inj hstep <;>
      exact h.keep rfl rfl (by simp [held]) rfl rfl
  | pop =>
    obtain ⟨-, -, rfl⟩ := pop_eq_some_iff.mp hstep
    -- The second test sees `stop`, and `pop` throws.
    exact h.keep rfl rfl (by simp [held, h.stop]) rfl rfl
  | take =>
    obtain ⟨msg, rest, hpc, -, rfl⟩ := take_eq_some_iff.mp hstep
    obtain ⟨hpopped, hheld, hqueue, hpushed, hpushers⟩ :=
      handle_popped { s with queue := { s.queue with items := rest } } msg
    have hone : s.held = 1 := if_pos hpc
    refine ⟨by rw [hqueue]; exact h.stop, ?_, ?_, ?_⟩
    · rw [hpopped]
      exact h.popped.trans (Nat.le_succ _)
    · rw [hpopped, hheld]
      exact hone ▸ h.left
    · rw [hpushed, hpushers]
      exact h.late
  | start rpc =>
    obtain rfl := Option.some.inj hstep
    exact h.keep rfl rfl (Nat.le_refl _) rfl rfl
  | act i a =>
    obtain ⟨-, lock, -, rfl⟩ := act_eq_some hstep
    exact h.keep rfl rfl (Nat.le_refl _) rfl rfl

/-- What the loop still takes has been pushed. -/
theorem Inv.held_le (h : Inv m) : m.popped + m.held ≤ m.pushed.length := by
  unfold held
  split_ifs with hpc
  · obtain ⟨msg, rest, hitems⟩ := List.exists_cons_of_ne_nil (h.take hpc)
    exact (owed_succ h hitems).1
  · exact h.popped

end Stopped

/-- From the moment `stop` is set, in every run: at most one more message is popped, and only by a
pop that had already found `stop` clear.  The handlers that are started are those of the messages
popped, one for each that is well formed, and only they can enter `on_msg`.  All other messages stay
in the queue, together with those of the pushes that had passed the test. -/
theorem discarded_of_stop {is js : List Label} {m s : Receive}
    (hrun : Machine.run step {} is = some m) (hstop : m.queue.stop = true)
    (hrest : Machine.run step m js = some s) :
    (m.popped ≤ s.popped ∧ s.popped ≤ m.popped + if m.pc = .take then 1 else 0) ∧
    s.started = owed m.pushed s.popped ∧
    (s.entered.Nodup ∧ m.entered <+: s.entered ∧ ∀ n ∈ s.entered, n < s.popped) ∧
    ∃ late, s.queue.items = m.pushed.drop s.popped ++ late ∧
      (late ++ s.pushers).Perm m.pushers := by
  have hm := inv_of_run hrun
  have hs := inv_of_run (Machine.run_append_eq_some.mpr ⟨m, hrun, hrest⟩)
  have h : Stopped m s :=
    Machine.Reachable.invariant stopped_step ⟨js, hrest⟩ (Stopped.refl hstop)
  obtain ⟨late, hpushed, hperm⟩ := h.late
  have hpopped : s.popped ≤ m.popped + m.held := (Nat.le_add_right _ _).trans h.left
  have hlength : s.popped ≤ m.pushed.length := hpopped.trans hm.held_le
  refine ⟨⟨h.popped, hpopped⟩, ?_, ⟨hs.nodup, entered_prefix hrest, fun n hn ↦ ?_⟩, late, ?_, hperm⟩
  · rw [hs.started, hpushed, owed, List.take_append_of_le_length hlength]
    rfl
  · obtain ⟨i, msg, p, hat, -⟩ := (hs.entered n).mp hn
    exact hs.bound i n msg p hat
  · rw [← hs.queue, hpushed, List.drop_append_of_le_length hlength]

/-- When `stop` is set, the handler of the first message waits for the lock, `pop` has found the
second one, the third one is in the queue, and the push of the fourth one has passed the test. -/
def stoppedRun : List Label :=
  [.pushTest firstMsg, .pushEnqueue 0, .test, .pop, .take, .pushTest secondMsg, .pushEnqueue 0,
    .pushTest firstMsg, .pushEnqueue 0, .pushTest secondMsg, .test, .pop, .shutdown]

/-- The second message is the last one that is handled. -/
def lastSteps : List Label := [.pushEnqueue 0, .take, .act 1 .acquire, .test]

theorem discarded_of_stop_waiting :
    ∃ s, Machine.run step {} (stoppedRun ++ lastSteps) = some s ∧
      s.started = [(0, firstMsg), (1, secondMsg)] ∧ s.entered = [1] ∧
      s.queue.items = [firstMsg] ++ [secondMsg] ∧ s.pc = .finished := by
  let m : Receive :=
    { queue := { items := [secondMsg, firstMsg], stop := true }
      pushers := [secondMsg]
      pc := .take
      lock := { acts := [⟨.onMsg (0, firstMsg), .starting⟩] }
      pushed := [firstMsg, secondMsg, firstMsg]
      popped := 1 }
  let s : Receive :=
    { queue := { items := [firstMsg, secondMsg], stop := true }
      pc := .finished
      lock :=
        { locked := true
          acts := [⟨.onMsg (0, firstMsg), .starting⟩, ⟨.onMsg (1, secondMsg), .running false⟩] }
      pushed := [firstMsg, secondMsg, firstMsg, secondMsg]
      popped := 2
      entered := [1] }
  have hrun : Machine.run step {} stoppedRun = some m := by decide
  have hrest : Machine.run step m lastSteps = some s := by decide
  obtain ⟨-, hstarted, -, -⟩ := discarded_of_stop hrun rfl hrest
  exact ⟨s, Machine.run_append_eq_some.mpr ⟨m, hrun, hrest⟩, hstarted.trans (by decide), rfl, rfl,
    rfl⟩

end Receive

end Cqy
