import Cqy.Coro.Links

/-!
# Iterating over a generator

The machine of the frames simulates the stack machine of delegation, whatever addresses the frames
get and wherever the consumer stops.  What the consumer reads is therefore what the bodies produce
by their nesting, every frame that is read or resumed is there, and the frames are all destroyed
with the generator.
-/

namespace Cqy.Coro

open Foundation Foundation.Machine Relation

variable {σ V E : Type}

/-- What a statement produces. -/
def Stmt.act : Stmt σ V E → Delegation.Act σ V E
  | .coReturn => .finish
  | .throw e => .fail e
  | .coYield v s => .emit v s
  | .elementsOf gen k => .delegate gen k

def produce (body : σ → Stmt σ V E) (s : σ) : Delegation.Act σ V E := (body s).act

/-- The generator has been started, the coroutine at `top` is at `s` and `ps` wait. -/
structure Inside (root : Address) (st : State σ V E) (top : Address) (s : σ)
    (ps : List (Waiting σ E)) (spare : List Address) : Prop where
  coro : st.coro = some root
  begun : st.begun = true
  raised : st.raised = none
  active : Active st.heap root top s none ps spare

/-- The states of a consumer and its generator, beside those of the stack machine.  In each the
coroutines resumed are counted: one for every start of the body by the consumer, one for every
nested generator entered and one for every nested generator left. -/
inductive Phase (root : Address) : State σ V E → Delegation.Config σ V E → Prop
  | called {st : State σ V E} {s : σ} (hcontrol : st.control = .client)
      (hcoro : st.coro = some root) (hbegun : st.begun = false) (hraised : st.raised = none)
      (ha : Active st.heap root root s none [] []) (hyielded : st.yielded = [])
      (hcount : st.resumed = 0) : Phase root st ⟨.run s [], st.yielded, 0⟩
  | running {st : State σ V E} {top : Address} {s : σ} {ps : List (Waiting σ E)} {n : ℕ}
      (hcontrol : st.control = .running top) (hin : Inside root st top s ps [])
      (hcount : st.resumed + ps.length = st.yielded.length + 1 + 2 * n) :
      Phase root st ⟨.run s (ps.map Prod.snd), st.yielded, n⟩
  | returning {st : State σ V E} {child a : Address} {r : Option E} {k : Option E → σ}
      {ps : List (Waiting σ E)} {n : ℕ} (hcontrol : st.control = .running a)
      (hcoro : st.coro = some root) (hbegun : st.begun = true) (hraised : st.raised = none)
      (hr : Returning st.heap root child r a k ps)
      (hcount : st.resumed + ps.length = st.yielded.length + 1 + 2 * n) :
      Phase root st ⟨.back r (k :: ps.map Prod.snd), st.yielded, n⟩
  | cleaning {st : State σ V E} {top : Address} {s : σ} {ps : List (Waiting σ E)} {n : ℕ}
      {spare : List Address} (hcontrol : st.control = .destroying spare (some top))
      (hin : Inside root st top s ps spare) (hspare : spare.length ≤ 1)
      (hcount : st.resumed + ps.length = st.yielded.length + 1 + 2 * n) :
      Phase root st ⟨.run s (ps.map Prod.snd), st.yielded, n⟩
  | yielded {st : State σ V E} {top : Address} {s : σ} {ps : List (Waiting σ E)} {n : ℕ} {v : V}
      (hcontrol : st.control = .client) (hin : Inside root st top s ps [])
      (hvalue : (st.heap top).bind Frame.value = some v) (hlast : st.yielded.getLast? = some v)
      (hcount : st.resumed + ps.length = st.yielded.length + 2 * n) :
      Phase root st ⟨.run s (ps.map Prod.snd), st.yielded, n⟩
  | ended {st : State σ V E} {r : Option E} {n : ℕ} (hcontrol : st.control = .client)
      (hcoro : st.coro = some root) (hbegun : st.begun = true) (hraised : st.raised = r)
      (he : Ended st.heap root) (hcount : st.resumed = st.yielded.length + 1 + 2 * n) :
      Phase root st ⟨.back r [], st.yielded, n⟩
  | destroying {st : State σ V E} {frames : List Address} {ctl : Delegation.Control σ E} {n : ℕ}
      (hcontrol : st.control = .destroying frames none) (hcoro : st.coro = none)
      (hd : Doomed st.heap frames) : Phase root st ⟨ctl, st.yielded, n⟩
  | gone {st : State σ V E} {ctl : Delegation.Control σ E} {n : ℕ}
      (hcontrol : st.control = .client) (hcoro : st.coro = none) (hlive : Live st.heap []) :
      Phase root st ⟨ctl, st.yielded, n⟩

theorem Phase.out_eq {root : Address} {st : State σ V E} {c : Delegation.Config σ V E}
    (h : Phase root st c) : c.out = st.yielded := by
  cases h with
  | called => rfl
  | running => rfl
  | returning => rfl
  | cleaning => rfl
  | yielded => rfl
  | ended => rfl
  | destroying => rfl
  | gone => rfl

/-- The call of the generator function. -/
theorem Phase.call (r : Address) (s : σ) :
    Phase r (State.call r s : State σ V E) (.init V E s) := by
  have hlinks : ((State.call r s : State σ V E).heap r).map Frame.links =
      some (.stmt s, none, none) := by
    simp [State.call, Frame.initial, Frame.links]
  refine .called rfl rfl rfl rfl ⟨hlinks, rfl, ?_, ⟨by simp, fun a ↦ ?_⟩, by simp⟩ rfl rfl
  · simp [State.call, Frame.initial]
  · by_cases ha : a = r <;> simp [State.call, ha]

/-! ## One step -/

section

variable {body : σ → Stmt σ V E} {root : Address} {st : State σ V E}

/-- The step `run fresh` is taken and the stack machine goes with it as `R` says, or `fresh` is the
address of a live frame and the step is refused. -/
def Follows (R : Delegation.Config σ V E → Delegation.Config σ V E → Prop) (root : Address)
    (c : Delegation.Config σ V E) (st : State σ V E) (fresh : Address)
    (next : Option (State σ V E)) : Prop :=
  (∃ st' c', next = some st' ∧ R c c' ∧ Phase root st' c' ∧ st'.coro = st.coro) ∨
    ((st.heap fresh).isSome ∧ next = none)

theorem Follows.of_step {R : Delegation.Config σ V E → Delegation.Config σ V E → Prop}
    {c c' : Delegation.Config σ V E} {st' : State σ V E} {fresh : Address}
    {next : Option (State σ V E)} (hnext : next = some st') (hR : R c c') (hp : Phase root st' c')
    (hcoro : st'.coro = st.coro) : Follows R root c st fresh next :=
  .inl ⟨st', c', hnext, hR, hp, hcoro⟩

theorem Follows.mono {R R' : Delegation.Config σ V E → Delegation.Config σ V E → Prop}
    (hR : ∀ c c', R c c' → R' c c') {c : Delegation.Config σ V E} {fresh : Address}
    {next : Option (State σ V E)} (h : Follows R root c st fresh next) :
    Follows R' root c st fresh next := by
  rcases h with ⟨st', c', hnext, hc, hp, hcoro⟩ | hrefused
  · exact .inl ⟨st', c', hnext, hR c c' hc, hp, hcoro⟩
  · exact .inr hrefused

/-- The final suspend point, of an outermost or of a nested generator. -/
theorem Active.finalSuspend {h : Heap σ V E} {top : Address} {s : σ} {r : Option E}
    {ps : List (Waiting σ E)} (ha : Active h root top s r ps []) (st : State σ V E) :
    ∃ h', match ps with
      | [] => Ended h' root ∧ st.finalSuspend h top = some { st with heap := h', control := .client }
      | (a, k) :: ps => Returning h' root top r a k ps ∧
        st.finalSuspend h top =
          some { st with heap := h', control := .running a, resumed := st.resumed + 1 } := by
  obtain ⟨f, hf⟩ := Option.isSome_iff_exists.mp (ha.isSome_of_mem List.mem_cons_self)
  cases ps with
  | nil =>
    obtain ⟨hsuspend, hended⟩ := ha.suspend_root hf
    refine ⟨_, hended, ?_⟩
    simp [State.finalSuspend, Heap.modify_eq_some hf, hsuspend]
  | cons p ps =>
    obtain ⟨h', hsuspend, hret⟩ := ha.suspend_nested hf
    refine ⟨h', hret, ?_⟩
    simp [State.finalSuspend, Heap.modify_eq_some hf, hsuspend]

/-- A coroutine that ends hands its outcome on, to the coroutine that waits or to the consumer. -/
theorem Active.leave {h : Heap σ V E} {top : Address} {s : σ} {r : Option E}
    {ps : List (Waiting σ E)} {c : Delegation.Config σ V E} {n : ℕ}
    (ha : Active h root top s r ps []) (hcoro : st.coro = some root) (hbegun : st.begun = true)
    (hraised : st.raised = none) (hr : ps = [] → r = none)
    (hcount : st.resumed + ps.length = st.yielded.length + 1 + 2 * n)
    (hstep : Delegation.Step (produce body) c ⟨.back r (ps.map Prod.snd), st.yielded, n⟩)
    (fresh : Address) :
    Follows (Delegation.Step (produce body)) root c st fresh (st.finalSuspend h top) := by
  obtain ⟨h', hsuspend⟩ := ha.finalSuspend st
  cases ps with
  | nil =>
    have hnone := hr rfl
    subst hnone
    exact .of_step hsuspend.2 hstep (.ended rfl hcoro hbegun hraised hsuspend.1 hcount) rfl
  | cons p ps =>
    refine .of_step hsuspend.2 hstep (.returning rfl hcoro hbegun hraised hsuspend.1 ?_) rfl
    rw [List.length_cons] at hcount
    change st.resumed + 1 + ps.length = st.yielded.length + 1 + 2 * n
    omega

/-- The coroutine that executes comes to its next statement. -/
theorem Inside.execute {top : Address} {s : σ} {ps : List (Waiting σ E)} {n : ℕ}
    (hin : Inside root st top s ps []) (hcontrol : st.control = .running top)
    (hcount : st.resumed + ps.length = st.yielded.length + 1 + 2 * n) (fresh : Address) :
    Follows (Delegation.Step (produce body)) root ⟨.run s (ps.map Prod.snd), st.yielded, n⟩ st
      fresh (st.execute body top fresh) := by
  obtain ⟨hcoro, hbegun, hraised, ha⟩ := hin
  obtain ⟨f, hf⟩ := Option.isSome_iff_exists.mp (ha.isSome_of_mem List.mem_cons_self)
  obtain ⟨hpoint, -, hinfo⟩ := ha.frame_eq hf
  cases hbody : body s with
  | coReturn =>
    have hnext : st.execute body top fresh = st.finalSuspend st.heap top := by
      simp [State.execute, hf, hpoint, hbody]
    rw [hnext]
    refine ha.leave hcoro hbegun hraised (fun _ ↦ rfl) hcount ?_ fresh
    simp [Delegation.Step, Delegation.next, produce, hbody, Stmt.act]
  | throw e =>
    cases ps with
    | nil =>
      -- The exception leaves the resumption, and the coroutine is at its final suspend point.
      have hnext : st.execute body top fresh = some { st with
          heap := st.heap.write top (some { f with point := .final })
          control := .client
          raised := some e } := by
        simp [State.execute, hf, hpoint, hbody, Heap.unhandledException, hinfo, parentOf,
          Heap.modify_eq_some hf]
      refine .of_step hnext ?_
        (.ended rfl hcoro hbegun rfl (ha.suspend_root hf).2 hcount) rfl
      simp [Delegation.Step, Delegation.next, produce, hbody, Stmt.act]
    | cons p ps =>
      obtain ⟨h', hunhandled, ha'⟩ := ha.unhandled e
      have hnext : st.execute body top fresh = st.finalSuspend h' top := by
        simp [State.execute, hf, hpoint, hbody, hunhandled]
      rw [hnext]
      refine ha'.leave hcoro hbegun hraised (fun h ↦ by cases h) hcount ?_ fresh
      simp [Delegation.Step, Delegation.next, produce, hbody, Stmt.act]
  | coYield v s' =>
    have hnext : st.execute body top fresh = some { st with
        heap := st.heap.write top (some { f with point := .stmt s', value := some v })
        control := .client
        yielded := st.yielded ++ [v] } := by
      simp [State.execute, hf, hpoint, hbody]
    refine .of_step hnext ?_
      (.yielded (v := v) (n := n) rfl ⟨hcoro, hbegun, hraised, ha.write_stmt hf s' (some v)⟩ ?_ ?_
        ?_) rfl
    · simp [Delegation.Step, Delegation.next, produce, hbody, Stmt.act]
    · simp
    · simp
    · simp only [List.length_append, List.length_singleton]
      exact hcount
  | elementsOf gen k =>
    cases gen with
    | none =>
      have hnext : st.execute body top fresh = some { st with
          heap := st.heap.write top (some { f with point := .stmt (k none) }) } := by
        simp [State.execute, hf, hpoint, hbody]
      refine .of_step hnext ?_
        (.running hcontrol ⟨hcoro, hbegun, hraised, ha.write_stmt hf (k none) f.value⟩ hcount) rfl
      simp [Delegation.Step, Delegation.next, produce, hbody, Stmt.act]
    | some g =>
      cases hfresh : st.heap fresh with
      | some f' =>
        refine .inr ⟨by simp [hfresh], ?_⟩
        simp [State.execute, hf, hpoint, hbody, hfresh]
      | none =>
        obtain ⟨h', henter, ha'⟩ := ha.enter hf hfresh g k
        have hnext : st.execute body top fresh = some { st with
            heap := h', control := .running fresh, resumed := st.resumed + 1 } := by
          simp [State.execute, hf, hpoint, hbody, hfresh, henter]
        refine .of_step hnext ?_ (.running rfl ⟨hcoro, hbegun, hraised, ha'⟩ (n := n + 1) ?_) rfl
        · simp [Delegation.Step, Delegation.next, produce, hbody, Stmt.act]
        · simp only [List.length_cons]
          omega

/-- `await_resume` of the coroutine that waited. -/
theorem Returning.execute {child a : Address} {r : Option E} {k : Option E → σ}
    {ps : List (Waiting σ E)} {n : ℕ} (hcoro : st.coro = some root) (hbegun : st.begun = true)
    (hraised : st.raised = none) (hr : Returning st.heap root child r a k ps)
    (hcount : st.resumed + ps.length = st.yielded.length + 1 + 2 * n) (fresh : Address) :
    Follows (Delegation.Step (produce body)) root ⟨.back r (k :: ps.map Prod.snd), st.yielded, n⟩
      st fresh (st.execute body a fresh) := by
  obtain ⟨f, hf, hlinks⟩ := Option.map_eq_some_iff.mp hr.waits.1
  have hpoint : f.point = .awaiting k := congrArg Prod.fst hlinks
  have hawaiter : f.awaiter = some ⟨⟨r, some a, some root⟩, child⟩ :=
    congrArg (fun l ↦ l.2.1) hlinks
  have hnext : st.execute body a fresh = some { st with
      heap := st.heap.write a (some { f with point := .stmt (k r), awaiter := none })
      control := .destroying [child] (some a) } := by
    simp [State.execute, hf, hpoint, hawaiter]
  exact .of_step hnext rfl
    (.cleaning rfl ⟨hcoro, hbegun, hraised, hr.awaitResume hf⟩ (by simp) hcount) rfl

/-- A destructor without a temporary to destroy frees its frame. -/
theorem destruct_free {a : Address} {as : List Address}
    (ha : (st.heap a).map Frame.awaiter = some none) (back : Option Address) :
    st.destruct (a :: as) back =
      some { st with heap := st.heap.write a none, control := .destroying as back } := by
  obtain ⟨f, hf, hawaiter⟩ := Option.map_eq_some_iff.mp ha
  simp [State.destruct, hf, hawaiter]

/-- The temporary of the coroutine that goes on is destroyed. -/
theorem Inside.destruct {top : Address} {s : σ} {ps : List (Waiting σ E)} {n : ℕ}
    {spare : List Address} (hin : Inside root st top s ps spare) (hspare : spare.length ≤ 1)
    (hcount : st.resumed + ps.length = st.yielded.length + 1 + 2 * n) (fresh : Address) :
    Follows Eq root ⟨.run s (ps.map Prod.snd), st.yielded, n⟩ st fresh
      (st.destruct spare (some top)) := by
  obtain ⟨hcoro, hbegun, hraised, ha⟩ := hin
  match spare with
  | [] =>
    exact .of_step rfl rfl (.running rfl ⟨hcoro, hbegun, hraised, ha⟩ hcount) rfl
  | [c] =>
    exact .of_step (destruct_free (ha.spare c List.mem_cons_self) _) rfl
      (.cleaning rfl ⟨hcoro, hbegun, hraised, ha.freeSpare⟩ (by simp) hcount) rfl

theorem Doomed.free {h : Heap σ V E} {a : Address} {as : List Address}
    (has : ∀ b ∈ as, (h b).map Frame.awaiter = some none) (hlive : Live h (a :: as)) :
    Doomed (h.write a none) as := by
  match as with
  | [] => exact hlive.free
  | b :: bs =>
    have hkeep : ∀ x ∈ b :: bs, (h.write a none x).map Frame.awaiter = some none := fun x hx ↦ by
      rw [Heap.write_ne _ _ (ne_of_mem_of_not_mem hx (List.nodup_cons.mp hlive.nodup).1), has x hx]
    exact ⟨fun x hx ↦ hkeep x (List.mem_cons_of_mem _ hx), [], hkeep b List.mem_cons_self,
      hlive.free⟩

/-- A destructor with a temporary calls the one of the nested generator. -/
theorem destruct_down {a c : Address} {as cs : List Address}
    (has : ∀ b ∈ as, (st.heap b).map Frame.awaiter = some none) (ha : Owns st.heap a (c :: cs))
    (hlive : Live st.heap (c :: cs ++ a :: as)) :
    ∃ h', st.destruct (a :: as) none =
        some { st with heap := h', control := .destroying (c :: a :: as) none } ∧
      (∀ b ∈ a :: as, (h' b).map Frame.awaiter = some none) ∧ Owns h' c cs ∧
      Live h' (cs ++ c :: a :: as) := by
  obtain ⟨⟨nested, hmap⟩, hc⟩ := ha
  obtain ⟨f, hf, hawaiter⟩ := Option.map_eq_some_iff.mp hmap
  obtain ⟨-, hnodup, hdisjoint⟩ := List.nodup_append.mp hlive.nodup
  refine ⟨st.heap.write a (some { f with awaiter := none }), ?_, ?_, ?_, ?_⟩
  · simp [State.destruct, hf, hawaiter]
  · intro b hb
    rcases List.mem_cons.mp hb with rfl | hb
    · simp
    · rw [Heap.write_ne _ _ (ne_of_mem_of_not_mem hb (List.nodup_cons.mp hnodup).1), has b hb]
  · exact hc.congr fun b hb ↦ Heap.write_ne _ _ (hdisjoint b hb a List.mem_cons_self)
  · exact (hlive.of_isSome (Heap.isSome_write hf _)).perm List.perm_middle.symm

/-- A destructor of the chain goes on. -/
theorem Doomed.destruct {frames : List Address} {c : Delegation.Config σ V E}
    (hcoro : st.coro = none) (hd : Doomed st.heap frames) (hout : c.out = st.yielded)
    (fresh : Address) : Follows Eq root c st fresh (st.destruct frames none) := by
  obtain ⟨ctl, out, n⟩ := c
  obtain rfl : out = st.yielded := hout
  match frames with
  | [] => exact .of_step rfl rfl (.gone rfl hcoro hd) rfl
  | a :: as =>
    obtain ⟨has, cs, howns, hlive⟩ := hd
    match cs with
    | [] =>
      exact .of_step (destruct_free howns none) rfl (.destroying rfl hcoro (.free has hlive)) rfl
    | c :: cs =>
      obtain ⟨h', hnext, has', howns', hlive'⟩ := destruct_down has howns hlive
      exact .of_step hnext rfl (.destroying rfl hcoro ⟨has', cs, howns', hlive'⟩) rfl

/-- Coroutines and destructors run. -/
theorem Phase.run {c : Delegation.Config σ V E} (hp : Phase root st c)
    (hcontrol : st.control ≠ .client) (fresh : Address) :
    Follows (ReflTransGen (Delegation.Step (produce body))) root c st fresh
      (st.step body (.run fresh)) := by
  cases hp with
  | called hclient => exact absurd hclient hcontrol
  | yielded hclient => exact absurd hclient hcontrol
  | ended hclient => exact absurd hclient hcontrol
  | gone hclient => exact absurd hclient hcontrol
  | running hrunning hin hcount =>
    rw [State.step, hrunning]
    exact (hin.execute hrunning hcount fresh).mono fun _ _ ↦ .single
  | returning hrunning hcoro hbegun hraised hr hcount =>
    rw [State.step, hrunning]
    exact (hr.execute hcoro hbegun hraised hcount fresh).mono fun _ _ ↦ .single
  | cleaning hdestroying hin hspare hcount =>
    rw [State.step, hdestroying]
    exact (hin.destruct hspare hcount fresh).mono fun _ _ heq ↦ heq ▸ .refl
  | destroying hdestroying hcoro hd =>
    rw [State.step, hdestroying]
    exact (hd.destruct hcoro rfl fresh).mono fun _ _ heq ↦ heq ▸ .refl

/-! ## The consumer -/

theorem Frame.done_eq_false {f : Frame σ V E} {s : σ} (h : f.point = .stmt s) :
    f.done = false := by
  simp [Frame.done, h]

theorem Ended.done {h : Heap σ V E} (he : Ended h root) :
    ∃ f, h root = some f ∧ f.done = true := by
  obtain ⟨f, hf, hlinks⟩ := Option.map_eq_some_iff.mp he.frame
  have hpoint : f.point = .final := congrArg Prod.fst hlinks
  exact ⟨f, hf, by simp [Frame.done, hpoint]⟩

/-- The outermost frame of a chain: not done, and `top_` is the innermost one. -/
theorem Active.root_frame {h : Heap σ V E} {top : Address} {s : σ} {ps : List (Waiting σ E)}
    (ha : Active h root top s none ps []) :
    ∃ f, h root = some f ∧ f.done = false ∧ f.top = top := by
  obtain ⟨f, hf, htop⟩ := Option.map_eq_some_iff.mp ha.top_eq
  refine ⟨f, hf, ?_, htop⟩
  rcases List.mem_cons.mp ha.waits.root_mem with rfl | hmem
  · exact Frame.done_eq_false (ha.frame_eq hf).1
  · obtain ⟨k, hk⟩ := ha.waits.awaiting hmem
    rw [hf, Option.map_some, Option.some.injEq] at hk
    simp [Frame.done, hk]

/-- The consumer starts the body of a generator that was called. -/
theorem Phase.begin {c : Delegation.Config σ V E} {st' : State σ V E} (hp : Phase root st c)
    (hstep : st.step body .begin = some st') : Phase root st' c := by
  cases hp with
  | called hcontrol hcoro hbegun hraised ha hyielded hcount =>
    obtain ⟨f, hf, hdone, -⟩ := ha.root_frame
    obtain rfl : _ = st' := by simpa [State.step, State.resume, hcontrol, hcoro, hbegun, hf, hdone]
      using hstep
    have hin : Inside root ({ st with
        control := .running root, begun := true, resumed := st.resumed + 1 } : State σ V E) root _ []
        [] := ⟨hcoro, rfl, hraised, ha⟩
    have hrun := Phase.running (n := 0) rfl hin (by simp [hyielded, hcount])
    simpa [hcoro] using hrun
  | running hcontrol hin => simp [State.step, hcontrol] at hstep
  | returning hcontrol => simp [State.step, hcontrol] at hstep
  | cleaning hcontrol => simp [State.step, hcontrol] at hstep
  | yielded hcontrol hin => simp [State.step, hcontrol, hin.coro, hin.begun] at hstep
  | ended hcontrol hcoro hbegun => simp [State.step, hcontrol, hcoro, hbegun] at hstep
  | destroying hcontrol => simp [State.step, hcontrol] at hstep
  | gone hcontrol hcoro => simp [State.step, hcontrol, hcoro] at hstep

/-- The consumer goes on behind the value it has read. -/
theorem Phase.increment {c : Delegation.Config σ V E} {st' : State σ V E} (hp : Phase root st c)
    (hstep : st.step body .increment = some st') : Phase root st' c := by
  cases hp with
  | called hcontrol hcoro hbegun => simp [State.step, hcontrol, hcoro, hbegun] at hstep
  | running hcontrol hin => simp [State.step, hcontrol] at hstep
  | returning hcontrol => simp [State.step, hcontrol] at hstep
  | cleaning hcontrol => simp [State.step, hcontrol] at hstep
  | yielded hcontrol hin hvalue hlast hcount =>
    obtain ⟨hcoro, hbegun, hraised, ha⟩ := hin
    obtain ⟨f, hf, hdone, rfl⟩ := ha.root_frame
    obtain ⟨f', hf'⟩ := Option.isSome_iff_exists.mp (ha.isSome_of_mem List.mem_cons_self)
    have hdone' := Frame.done_eq_false (ha.frame_eq hf').1
    obtain rfl : _ = st' := by
      simpa [State.step, State.resume, hcontrol, hcoro, hbegun, hf, hdone, hf', hdone'] using hstep
    refine .running rfl ⟨rfl, rfl, hraised, ha⟩ ?_
    change st.resumed + 1 + _ = st.yielded.length + 1 + _
    omega
  | ended hcontrol hcoro hbegun hraised he =>
    obtain ⟨f, hf, hdone⟩ := he.done
    simp [State.step, hcontrol, hcoro, hf, hdone] at hstep
  | destroying hcontrol => simp [State.step, hcontrol] at hstep
  | gone hcontrol hcoro => simp [State.step, hcontrol, hcoro] at hstep

theorem Phase.destroy {c : Delegation.Config σ V E} {st' : State σ V E} (hp : Phase root st c)
    (hstep : st.step body .destroy = some st') : Phase root st' c := by
  cases hp with
  | called hcontrol hcoro hbegun hraised ha =>
    obtain rfl : _ = st' := by simpa [State.step, hcontrol, hcoro] using hstep
    exact .destroying rfl rfl ha.doomed
  | running hcontrol hin => simp [State.step, hcontrol] at hstep
  | returning hcontrol => simp [State.step, hcontrol] at hstep
  | cleaning hcontrol => simp [State.step, hcontrol] at hstep
  | yielded hcontrol hin =>
    obtain rfl : _ = st' := by simpa [State.step, hcontrol, hin.coro] using hstep
    exact .destroying rfl rfl hin.active.doomed
  | ended hcontrol hcoro hbegun hraised he =>
    obtain rfl : _ = st' := by simpa [State.step, hcontrol, hcoro] using hstep
    exact .destroying rfl rfl he.doomed
  | destroying hcontrol => simp [State.step, hcontrol] at hstep
  | gone hcontrol hcoro => simp [State.step, hcontrol, hcoro] at hstep

/-- Forward simulation: the stack machine follows every step. -/
theorem Phase.step {c : Delegation.Config σ V E} {l : State.Label} {st' : State σ V E}
    (hp : Phase root st c) (hstep : st.step body l = some st') :
    ∃ c', ReflTransGen (Delegation.Step (produce body)) c c' ∧ Phase root st' c' := by
  cases l with
  | begin => exact ⟨c, .refl, hp.begin hstep⟩
  | increment => exact ⟨c, .refl, hp.increment hstep⟩
  | destroy => exact ⟨c, .refl, hp.destroy hstep⟩
  | run fresh =>
    have hcontrol : st.control ≠ .client := fun h ↦ by simp [State.step, h] at hstep
    rcases hp.run hcontrol fresh with ⟨st'', c', hnext, hreach, hp', -⟩ | ⟨-, hnone⟩
    · obtain rfl : st'' = st' := Option.some.inj (hnext.symm.trans hstep)
      exact ⟨c', hreach, hp'⟩
    · rw [hnone] at hstep
      cases hstep

/-- Every run from the call of a generator function, beside the stack machine. -/
theorem exists_phase {s : σ} {st : State σ V E}
    (h : Reachable (State.step body) (State.call root s) st) :
    ∃ c, ReflTransGen (Delegation.Step (produce body)) (.init V E s) c ∧ Phase root st c := by
  have hinv (st : State σ V E) (l : State.Label) (st' : State σ V E)
      (hp : ∃ c, ReflTransGen (Delegation.Step (produce body)) (.init V E s) c ∧ Phase root st c)
      (hstep : st.step body l = some st') :
      ∃ c, ReflTransGen (Delegation.Step (produce body)) (.init V E s) c ∧ Phase root st' c := by
    obtain ⟨c, hreach, hp⟩ := hp
    obtain ⟨c', hreach', hp'⟩ := hp.step hstep
    exact ⟨c', hreach.trans hreach', hp'⟩
  exact h.invariant hinv ⟨_, .refl, .call root s⟩

end

end Cqy.Coro
