import Cqy.Coro.Iteration

/-!
# What the consumer of a generator can rely on
-/

namespace Cqy.Coro

open Foundation Foundation.Machine Relation

variable {σ V E : Type} {body : σ → Stmt σ V E} {root : Address} {s : σ} {st : State σ V E}

/-! ## A recursive generator -/

/-- The locals of `visit`, which yields the elements of the left subtree, the value and the elements
of the right subtree. -/
inductive Visit
  | start (left : BinaryTree ℕ) (value : ℕ) (right : BinaryTree ℕ)
  | value (value : ℕ) (right : BinaryTree ℕ)
  | right (right : BinaryTree ℕ)
  | leave
  | rethrow (e : String)

def visit : Visit → Stmt Visit ℕ String
  | .start .nil v r => .coYield v (.right r)
  | .start (.node v' l' r') v r =>
    .elementsOf (some (.start l' v' r')) fun e ↦ e.elim (.value v r) .rethrow
  | .value v r => .coYield v (.right r)
  | .right .nil => .coReturn
  | .right (.node v l r) => .elementsOf (some (.start l v r)) fun e ↦ e.elim .leave .rethrow
  | .leave => .coReturn
  | .rethrow e => .throw e

def inorder : BinaryTree ℕ → List ℕ
  | .nil => []
  | .node v l r => inorder l ++ v :: inorder r

open Delegation in
theorem visit_emits {v : ℕ} {t : Visit} {r : BinaryTree ℕ} (hbody : visit t = .coYield v (.right r))
    (hr : Produces (produce visit) (.right r) (inorder r) r.numNodes (.ended none)) :
    Produces (produce visit) t (v :: inorder r) r.numNodes (.ended none) :=
  .emit (by rw [produce, hbody, Stmt.act]) hr

open Delegation in
/-- A left subtree, before the value and the right one, and a right subtree. -/
theorem visit_subtree (t : BinaryTree ℕ) :
    (∀ v r, Produces (produce visit) (.right r) (inorder r) r.numNodes (.ended none) →
      Produces (produce visit) (.start t v r) (inorder t ++ v :: inorder r)
        (t.numNodes + r.numNodes) (.ended none)) ∧
      Produces (produce visit) (.right t) (inorder t) t.numNodes (.ended none) := by
  induction t with
  | nil =>
    refine ⟨fun v r hr ↦ ?_, .finish rfl⟩
    rw [BinaryTree.numNodes, Nat.zero_add]
    exact visit_emits rfl hr
  | node v' l' r' ihl ihr =>
    have hnested := ihl.1 v' r' ihr.2
    refine ⟨fun v r hr ↦ ?_, ?_⟩
    · have hafter : Produces (produce visit) (.start (.node v' l' r') v r) _ _ _ :=
        .after rfl hnested (visit_emits (t := .value v r) rfl hr)
      simpa [inorder, Nat.add_right_comm] using hafter
    · have hafter : Produces (produce visit) (.right (.node v' l' r')) _ _ _ :=
        .after rfl hnested (.finish (s := Visit.leave) rfl)
      simpa [inorder] using hafter

/-- `visit` yields the values of a tree in order, with one nested generator for every node below the
root. -/
theorem visit_produces (l : BinaryTree ℕ) (v : ℕ) (r : BinaryTree ℕ) :
    Delegation.Produces (produce visit) (.start l v r) (inorder (.node v l r))
      (l.numNodes + r.numNodes) (.ended none) :=
  (visit_subtree l).1 v r (visit_subtree r).2

/-- The consumer of a tree with a left subtree has read the value of that subtree. -/
def visited : State Visit ℕ String :=
  (run (State.step visit) (State.call 10 (.start (.node 1 .nil .nil) 2 .nil))
    [.begin, .run 11, .run 0]).getD (State.call 10 .leave)

theorem visited_reachable : Reachable (State.step visit)
    (State.call 10 (.start (.node 1 .nil .nil) 2 .nil)) visited :=
  ⟨[.begin, .run 11, .run 0], rfl⟩

/-! ## Reading -/

/-- What the consumer can find when it has control and has not destroyed the generator. -/
theorem Phase.of_client {c : Delegation.Config σ V E} (hp : Phase root st c)
    (hclient : st.control = .client) (hcoro : st.coro = some root) :
    (st.begun = false ∧ ∃ s, Active st.heap root root s none [] []) ∨
      (∃ top s ps v, Inside root st top s ps [] ∧ (st.heap top).bind Frame.value = some v ∧
        st.yielded.getLast? = some v) ∨
      (c = ⟨.back st.raised [], st.yielded, c.started⟩ ∧ st.begun = true ∧ Ended st.heap root ∧
        st.resumed = st.yielded.length + 1 + 2 * c.started) := by
  cases hp with
  | called _ _ hbegun _ ha => exact .inl ⟨hbegun, _, ha⟩
  | running hcontrol => simp [hcontrol] at hclient
  | returning hcontrol => simp [hcontrol] at hclient
  | cleaning hcontrol => simp [hcontrol] at hclient
  | destroying hcontrol => simp [hcontrol] at hclient
  | gone _ hnone => simp [hnone] at hcoro
  | yielded _ hin hvalue hlast => exact .inr (.inl ⟨_, _, _, _, hin, hvalue, hlast⟩)
  | ended _ _ hbegun hraised he hcount => exact .inr (.inr ⟨by rw [hraised], hbegun, he, hcount⟩)

theorem Inside.atEnd {top : Address} {ps : List (Waiting σ E)} (hin : Inside root st top s ps []) :
    st.atEnd = false := by
  obtain ⟨f, hf, hdone, -⟩ := hin.active.root_frame
  simp [State.atEnd, hin.coro, hf, hdone]

theorem Ended.atEnd (he : Ended st.heap root) (hcoro : st.coro = some root) : st.atEnd = true := by
  obtain ⟨f, hf, hdone⟩ := he.done
  simp [State.atEnd, hcoro, hf, hdone]

/-- Dereferencing reads the promise of the innermost coroutine. -/
theorem Inside.deref {top : Address} {ps : List (Waiting σ E)} (hin : Inside root st top s ps []) :
    st.deref = (st.heap top).bind Frame.value := by
  obtain ⟨f, hf, hdone, htop⟩ := hin.active.root_frame
  simp [State.deref, State.topFrame, hin.coro, hf, hdone, htop]

/-- In every state of every run the values read are an initial part of what the bodies produce; the
iterator refers to the last of them, and at its end they are all there is, with the exception the
consumer gets. -/
theorem reads_what_is_produced
    (h : Reachable (State.step body) (State.call root s) st) :
    (∃ n, Delegation.Produces (produce body) s st.yielded n .paused) ∧
      (st.control = .client → st.coro = some root → st.begun = true →
        (st.atEnd = false → ∃ v, st.deref = some v ∧ st.yielded.getLast? = some v) ∧
        (st.atEnd = true →
          ∃ n, Delegation.Produces (produce body) s st.yielded n (.ended st.raised))) := by
  obtain ⟨c, hreach, hp⟩ := exists_phase h
  refine ⟨⟨c.started, hp.out_eq ▸ Delegation.produces_paused_of_reaches hreach⟩, ?_⟩
  intro hclient hcoro hbegun
  rcases hp.of_client hclient hcoro with
    ⟨hnot, -⟩ | ⟨top, s', ps, v, hin, hvalue, hlast⟩ | ⟨hc, -, he, -⟩
  · simp [hnot] at hbegun
  · refine ⟨fun _ ↦ ⟨v, hin.deref.trans hvalue, hlast⟩, fun hend ↦ ?_⟩
    simp [hin.atEnd] at hend
  · refine ⟨fun hend ↦ ?_, fun _ ↦ ?_⟩
    · simp [he.atEnd hcoro] at hend
    · rw [hc] at hreach
      exact ⟨_, Delegation.produces_ended_of_reaches hreach⟩

theorem reads_what_is_produced_visited :
    (∃ n, Delegation.Produces (produce visit) (.start (.node 1 .nil .nil) 2 .nil) [1] n .paused) ∧
      ∃ v, visited.deref = some v ∧ visited.yielded.getLast? = some v :=
  ⟨(reads_what_is_produced visited_reachable).1,
    ((reads_what_is_produced visited_reachable).2 rfl rfl rfl).1 rfl⟩

/-! ## No frame is missing -/

theorem Live.exists_fresh {h : Heap σ V E} {as : List Address} (hlive : Live h as) :
    ∃ a, h a = none := by
  obtain ⟨a, ha⟩ := Infinite.exists_notMem_finset as.toFinset
  rw [List.mem_toFinset, ← hlive.mem, Bool.not_eq_true, Option.isSome_eq_false_iff,
    Option.isNone_iff_eq_none] at ha
  exact ⟨a, ha⟩

theorem Doomed.exists_live {h : Heap σ V E} {frames : List Address} (hd : Doomed h frames) :
    ∃ as, Live h as := by
  cases frames with
  | nil => exact ⟨_, hd⟩
  | cons a as =>
    obtain ⟨-, cs, -, hlive⟩ := hd
    exact ⟨_, hlive⟩

theorem Phase.exists_live {c : Delegation.Config σ V E} (hp : Phase root st c) :
    ∃ as, Live st.heap as := by
  cases hp with
  | called _ _ _ _ ha => exact ⟨_, ha.live⟩
  | running _ hin => exact ⟨_, hin.active.live⟩
  | returning _ _ _ _ hr => exact ⟨_, hr.live⟩
  | cleaning _ hin => exact ⟨_, hin.active.live⟩
  | yielded _ hin => exact ⟨_, hin.active.live⟩
  | ended _ _ _ _ he => exact ⟨_, he.live⟩
  | destroying _ _ hd => exact hd.exists_live
  | gone _ _ hlive => exact ⟨_, hlive⟩

theorem Active.step_begin (ha : Active st.heap root root s none [] [])
    (hclient : st.control = .client) (hcoro : st.coro = some root) (hbegun : st.begun = false) :
    st.step body .begin = some { st with
      control := .running root, begun := true, resumed := st.resumed + 1 } := by
  obtain ⟨f, hf, hdone, -⟩ := ha.root_frame
  simp [State.step, State.resume, hclient, hcoro, hbegun, hf, hdone]

theorem Inside.step_increment {top : Address} {ps : List (Waiting σ E)}
    (hin : Inside root st top s ps []) (hclient : st.control = .client) :
    st.step body .increment =
      some { st with control := .running top, resumed := st.resumed + 1 } := by
  obtain ⟨f, hf, hdone, rfl⟩ := hin.active.root_frame
  obtain ⟨f', hf'⟩ := Option.isSome_iff_exists.mp (hin.active.isSome_of_mem List.mem_cons_self)
  have hdone' := Frame.done_eq_false (hin.active.frame_eq hf').1
  simp [State.step, State.resume, hclient, hin.coro, hin.begun, hf, hdone, hf', hdone']

/-- No step reads or resumes a frame that is not there: what runs can go on at every free address,
and the consumer can start, read, increment and destroy where the iterator's contract lets it. -/
theorem never_stuck (h : Reachable (State.step body) (State.call root s) st) :
    (∃ a, st.heap a = none) ∧
      (st.control ≠ .client → ∀ fresh, st.heap fresh = none →
        (st.step body (.run fresh)).isSome) ∧
      (st.control = .client → st.coro = some root →
        (st.step body .destroy).isSome ∧
        (st.begun = false → (st.step body .begin).isSome) ∧
        (st.begun = true → st.atEnd = false →
          st.deref.isSome ∧ (st.step body .increment).isSome)) := by
  obtain ⟨c, -, hp⟩ := exists_phase h
  obtain ⟨as, hlive⟩ := hp.exists_live
  refine ⟨hlive.exists_fresh, fun hcontrol fresh hfresh ↦ ?_, fun hclient hcoro ↦ ?_⟩
  · have hrun : Follows _ root c st fresh (st.step body (.run fresh)) := hp.run hcontrol fresh
    rcases hrun with ⟨st', c', hnext, -⟩ | ⟨hused, -⟩
    · simp [hnext]
    · simp [hfresh] at hused
  · refine ⟨by simp [State.step, hclient, hcoro], ?_⟩
    rcases hp.of_client hclient hcoro with
      ⟨hbegun, s', ha⟩ | ⟨top, s', ps, v, hin, hvalue, -⟩ | ⟨-, hbegun, he, -⟩
    · refine ⟨fun _ ↦ ?_, fun hyes ↦ by simp [hbegun] at hyes⟩
      rw [ha.step_begin hclient hcoro hbegun, Option.isSome_some]
    · refine ⟨fun hnot ↦ by simp [hin.begun] at hnot, fun _ _ ↦ ⟨?_, ?_⟩⟩
      · rw [hin.deref, hvalue, Option.isSome_some]
      · rw [hin.step_increment hclient, Option.isSome_some]
    · exact ⟨fun hnot ↦ by simp [hbegun] at hnot, fun _ hend ↦ by simp [he.atEnd hcoro] at hend⟩

theorem never_stuck_visited :
    visited.deref.isSome ∧ (visited.step visit .increment).isSome :=
  (((never_stuck visited_reachable).2.2 rfl rfl).2.2 rfl rfl)

/-! ## The frames are destroyed -/

/-- Coroutines or destructors run, without the consumer. -/
def Internal (body : σ → Stmt σ V E) (st st' : State σ V E) : Prop :=
  ∃ fresh, st.step body (.run fresh) = some st'

theorem Internal.of_destruct {frames : List Address} {back : Option Address} {st' : State σ V E}
    (hcontrol : st.control = .destroying frames back) (h : st.destruct frames back = some st') :
    Internal body st st' :=
  ⟨0, by rw [State.step, hcontrol]; exact h⟩

theorem Live.heap_eq_none {h : Heap σ V E} (hlive : Live h []) (a : Address) : h a = none := by
  have hnot : ¬ (h a).isSome := fun hsome ↦ by simpa using (hlive.mem a).mp hsome
  simpa using hnot

/-- The way up: no frame owns another one any more. -/
theorem exists_freed {as : List Address} (hcontrol : st.control = .destroying as none)
    (has : ∀ b ∈ as, (st.heap b).map Frame.awaiter = some none) (hlive : Live st.heap as) :
    ∃ st', ReflTransGen (Internal body) st st' ∧ st'.control = .client ∧
      ∀ a, st'.heap a = none := by
  induction as generalizing st with
  | nil => exact ⟨_, .single (.of_destruct hcontrol rfl), rfl, hlive.heap_eq_none⟩
  | cons a as ih =>
    let st₁ : State σ V E :=
      { st with heap := st.heap.write a none, control := .destroying as none }
    have hstep : Internal body st st₁ :=
      .of_destruct hcontrol (destruct_free (has a List.mem_cons_self) none)
    have has₁ : ∀ b ∈ as, (st₁.heap b).map Frame.awaiter = some none := fun b hb ↦ by
      have hne : b ≠ a := ne_of_mem_of_not_mem hb (List.nodup_cons.mp hlive.nodup).1
      exact (congrArg _ (Heap.write_ne _ _ hne)).trans (has b (List.mem_cons_of_mem _ hb))
    obtain ⟨st', hrun, hfreed⟩ := @ih st₁ rfl has₁ hlive.free
    exact ⟨st', .head hstep hrun, hfreed⟩

/-- The way down, to the innermost frame. -/
theorem exists_destroyed {a : Address} {as cs : List Address}
    (hcontrol : st.control = .destroying (a :: as) none)
    (has : ∀ b ∈ as, (st.heap b).map Frame.awaiter = some none) (ha : Owns st.heap a cs)
    (hlive : Live st.heap (cs ++ a :: as)) :
    ∃ st', ReflTransGen (Internal body) st st' ∧ st'.control = .client ∧
      ∀ a, st'.heap a = none := by
  induction cs generalizing st a as with
  | nil => exact exists_freed hcontrol (List.forall_mem_cons.mpr ⟨ha, has⟩) hlive
  | cons c cs ih =>
    obtain ⟨h', hnext, has', ha', hlive'⟩ := destruct_down has ha hlive
    obtain ⟨st', hrun, hfreed⟩ := @ih { st with
      heap := h', control := .destroying (c :: a :: as) none } c (a :: as) rfl has' ha' hlive'
    exact ⟨st', .head (.of_destruct hcontrol hnext) hrun, hfreed⟩

theorem Phase.doomed {c : Delegation.Config σ V E} (hp : Phase root st c)
    (hclient : st.control = .client) (hcoro : st.coro = some root) : Doomed st.heap [root] := by
  rcases hp.of_client hclient hcoro with ⟨-, s', ha⟩ | ⟨_, _, _, _, hin, -⟩ | ⟨-, -, he, -⟩
  · exact ha.doomed
  · exact hin.active.doomed
  · exact he.doomed

/-- Wherever the consumer stops, destroying the generator frees the frames of all coroutines that
wait in it, and a generator that is gone has left none behind. -/
theorem destroy_frees_all (h : Reachable (State.step body) (State.call root s) st)
    (hclient : st.control = .client) :
    (st.coro = none → ∀ a, st.heap a = none) ∧
      (st.coro = some root → ∃ st₁ st₂, st.step body .destroy = some st₁ ∧
        ReflTransGen (Internal body) st₁ st₂ ∧ st₂.control = .client ∧
        ∀ a, st₂.heap a = none) := by
  obtain ⟨c, -, hp⟩ := exists_phase h
  refine ⟨fun hnone ↦ ?_, fun hcoro ↦ ?_⟩
  · cases hp with
    | called _ hcoro => simp [hnone] at hcoro
    | running hcontrol => simp [hcontrol] at hclient
    | returning hcontrol => simp [hcontrol] at hclient
    | cleaning hcontrol => simp [hcontrol] at hclient
    | destroying hcontrol => simp [hcontrol] at hclient
    | yielded _ hin => simp [hin.coro] at hnone
    | ended _ hcoro => simp [hnone] at hcoro
    | gone _ _ hlive => exact hlive.heap_eq_none
  · obtain ⟨has, cs, howns, hlive⟩ := hp.doomed hclient hcoro
    let st₁ : State σ V E := { st with control := .destroying [root] none, coro := none }
    obtain ⟨st₂, hrun, hfreed⟩ : ∃ st₂, ReflTransGen (Internal body) st₁ st₂ ∧
        st₂.control = .client ∧ ∀ a, st₂.heap a = none := exists_destroyed rfl has howns hlive
    exact ⟨st₁, st₂, by simp [State.step, hclient, hcoro, st₁], hrun, hfreed⟩

theorem destroy_frees_all_visited :
    ∃ st₁ st₂, visited.step visit .destroy = some st₁ ∧
      ReflTransGen (Internal visit) st₁ st₂ ∧ st₂.control = .client ∧ ∀ a, st₂.heap a = none :=
  (destroy_frees_all visited_reachable rfl).2 rfl

/-! ## To the end -/

/-- Where a coroutine executes, the next step is one of the stack machine. -/
theorem Phase.advance {c : Delegation.Config σ V E} {a : Address} (hp : Phase root st c)
    (hrunning : st.control = .running a) :
    ∃ l st' c', st.step body l = some st' ∧ Delegation.Step (produce body) c c' ∧
      Phase root st' c' ∧ st'.coro = st.coro := by
  obtain ⟨as, hlive⟩ := hp.exists_live
  obtain ⟨fresh, hfresh⟩ := hlive.exists_fresh
  have hrun : Follows (Delegation.Step (produce body)) root c st fresh
      (st.step body (.run fresh)) := by
    cases hp with
    | called hcontrol => simp [hrunning] at hcontrol
    | yielded hcontrol => simp [hrunning] at hcontrol
    | ended hcontrol => simp [hrunning] at hcontrol
    | gone hcontrol => simp [hrunning] at hcontrol
    | cleaning hcontrol => simp [hrunning] at hcontrol
    | destroying hcontrol => simp [hrunning] at hcontrol
    | running hcontrol hin hcount =>
      rw [State.step, hcontrol]
      exact hin.execute hcontrol hcount fresh
    | returning hcontrol hcoro hbegun hraised hr hcount =>
      rw [State.step, hcontrol]
      exact hr.execute hcoro hbegun hraised hcount fresh
  rcases hrun with ⟨st', c', hnext, hstep, hp', hcoro⟩ | ⟨hused, -⟩
  · exact ⟨.run fresh, st', c', hnext, hstep, hp', hcoro⟩
  · simp [hfresh] at hused

theorem Inside.exists_running {top : Address} {ps : List (Waiting σ E)} {n : ℕ}
    (hin : Inside root st top s ps []) (hcontrol : st.control = .destroying [] (some top))
    (hcount : st.resumed + ps.length = st.yielded.length + 1 + 2 * n) :
    ∃ st' a, Reachable (State.step body) st st' ∧
      Phase root st' ⟨.run s (ps.map Prod.snd), st.yielded, n⟩ ∧ st'.coro = some root ∧
      st'.control = .running a := by
  obtain ⟨hcoro, hbegun, hraised, ha⟩ := hin
  have hstep : st.step body (.run 0) = some { st with control := .running top } := by
    rw [State.step, hcontrol]
    rfl
  exact ⟨_, top, (Reachable.refl _).head hstep, .running rfl ⟨hcoro, hbegun, hraised, ha⟩ hcount,
    hcoro, rfl⟩

/-- Unless the outermost coroutine has ended, some coroutine comes to execute while the stack machine
waits. -/
theorem Phase.exists_running {c : Delegation.Config σ V E} (hp : Phase root st c)
    (hcoro : st.coro = some root) (hc : ∀ r, c.control ≠ .back r []) :
    ∃ st' a, Reachable (State.step body) st st' ∧ Phase root st' c ∧ st'.coro = some root ∧
      st'.control = .running a := by
  cases hp with
  | running hcontrol hin hcount =>
    exact ⟨st, _, .refl st, .running hcontrol hin hcount, hcoro, hcontrol⟩
  | returning hcontrol hcoro hbegun hraised hr hcount =>
    exact ⟨st, _, .refl st, .returning hcontrol hcoro hbegun hraised hr hcount, hcoro, hcontrol⟩
  | ended => exact absurd rfl (hc _)
  | destroying _ hnone => simp [hcoro] at hnone
  | gone _ hnone => simp [hcoro] at hnone
  | called hcontrol _ hbegun hraised ha hyielded hcount =>
    have hstep : st.step body .begin = _ := ha.step_begin hcontrol hcoro hbegun
    have hp := (Phase.called hcontrol hcoro hbegun hraised ha hyielded hcount).begin hstep
    exact ⟨_, root, (Reachable.refl _).head hstep, hp, hcoro, rfl⟩
  | yielded hcontrol hin hvalue hlast hcount =>
    have hstep : st.step body .increment = _ := hin.step_increment hcontrol
    have hp := (Phase.yielded hcontrol hin hvalue hlast hcount).increment hstep
    exact ⟨_, _, (Reachable.refl _).head hstep, hp, hcoro, rfl⟩
  | @cleaning top s ps n spare hcontrol hin hspare hcount =>
    match spare with
    | [] => exact hin.exists_running hcontrol hcount
    | [c] =>
      obtain ⟨hcoro, hbegun, hraised, ha⟩ := hin
      have hstep : st.step body (.run 0) = some { st with
          heap := st.heap.write c none, control := .destroying [] (some top) } := by
        rw [State.step, hcontrol]
        exact destruct_free (ha.spare c List.mem_cons_self) _
      have hin' : Inside root { st with
          heap := st.heap.write c none, control := .destroying [] (some top) } top s ps [] :=
        ⟨hcoro, hbegun, hraised, ha.freeSpare⟩
      obtain ⟨st', a, hreach, hrest⟩ := hin'.exists_running rfl hcount
      exact ⟨st', a, hreach.head hstep, hrest⟩

theorem Phase.exists_end {c : Delegation.Config σ V E} {r : Option E} {vs : List V} {n : ℕ}
    (hreach : ReflTransGen (Delegation.Step (produce body)) c ⟨.back r [], vs, n⟩)
    (hp : Phase root st c) (hcoro : st.coro = some root) :
    ∃ st', Reachable (State.step body) st st' ∧ Phase root st' ⟨.back r [], vs, n⟩ ∧
      st'.coro = some root := by
  induction hreach using ReflTransGen.head_induction_on generalizing st with
  | refl => exact ⟨st, .refl st, hp, hcoro⟩
  | @head c c' hstep _ ih =>
    have hc : ∀ r, c.control ≠ .back r [] := by
      rintro r hr
      obtain ⟨ctl, out, m⟩ := c
      obtain rfl : ctl = .back r [] := hr
      cases hstep
    obtain ⟨st₁, a, hreach₁, hp₁, hcoro₁, hrunning⟩ := hp.exists_running hcoro hc
    obtain ⟨l, st₂, c'', hnext, hstep', hp₂, hcoro₂⟩ := hp₁.advance hrunning
    obtain rfl : c'' = c' := Delegation.step_rightUnique hstep' hstep
    obtain ⟨st₃, hreach₃, hp₃, hcoro₃⟩ := ih hp₂ (hcoro₂.trans hcoro₁)
    exact ⟨st₃, hreach₁.trans (hreach₃.head hnext), hp₃, hcoro₃⟩

/-- When the bodies produce the values `vs` with `n` nested generators and end, every run that has not
destroyed the generator can be continued to the end; there the consumer has read `vs`, gets what the
outermost body ended with, and `vs.length + 1 + 2 * n` coroutines have been resumed, whatever the
depth of the nesting. -/
theorem iteration_completes {vs : List V} {n : ℕ} {r : Option E}
    (hvs : Delegation.Produces (produce body) s vs n (.ended r))
    (h : Reachable (State.step body) (State.call root s) st) (hcoro : st.coro = some root) :
    ∃ st', Reachable (State.step body) st st' ∧ st'.control = .client ∧ st'.atEnd = true ∧
      st'.yielded = vs ∧ st'.raised = r ∧ st'.resumed = vs.length + 1 + 2 * n := by
  obtain ⟨c, hreach, hp⟩ := exists_phase h
  obtain ⟨st', hreach', hp', hcoro'⟩ := hp.exists_end (hvs.reaches_of_reaches hreach) hcoro
  refine ⟨st', hreach', ?_⟩
  cases hp' with
  | ended hcontrol _ hbegun hraised he hcount =>
    exact ⟨hcontrol, he.atEnd hcoro', rfl, hraised, hcount⟩
  | destroying _ hnone => simp [hcoro'] at hnone
  | gone _ hnone => simp [hcoro'] at hnone

theorem iteration_completes_visited :
    ∃ st', Reachable (State.step visit) visited st' ∧ st'.control = .client ∧ st'.atEnd = true ∧
      st'.yielded = [1, 2] ∧ st'.raised = none ∧ st'.resumed = 5 :=
  iteration_completes (visit_produces (.node 1 .nil .nil) 2 .nil) visited_reachable rfl

end Cqy.Coro
