import Mathlib

/-!
# Machines and their runs

A machine takes a state and a label to the next state, or refuses the label.  The label says which
component moves and how the environment answers, so that a list of labels is one interleaving and
quantifying over lists quantifies over all of them.  An invariant is proved for one step, given a
condition on that step, and holds in every state of every run whose steps meet the condition.
-/

namespace Foundation.Machine

variable {σ ι τ κ : Type*}

/-- The state after the labels, when none of them is refused. -/
def run (step : σ → ι → Option σ) : σ → List ι → Option σ
  | s, [] => some s
  | s, i :: is => (step s i).bind fun s' ↦ run step s' is

/-- Every step of the run from `s` along the labels meets `ok`. -/
def AllSteps (step : σ → ι → Option σ) (ok : σ → ι → Prop) : σ → List ι → Prop
  | _, [] => True
  | s, i :: is => ok s i ∧ ∀ s', step s i = some s' → AllSteps step ok s' is

def Reachable (step : σ → ι → Option σ) (s s' : σ) : Prop := ∃ is, run step s is = some s'

variable {step : σ → ι → Option σ}

@[simp] theorem run_nil (s : σ) : run step s [] = some s := rfl

theorem run_cons (s : σ) (i : ι) (is : List ι) :
    run step s (i :: is) = (step s i).bind fun s' ↦ run step s' is := rfl

theorem run_cons_eq_some {s t : σ} {i : ι} {is : List ι} :
    run step s (i :: is) = some t ↔ ∃ s', step s i = some s' ∧ run step s' is = some t := by
  rw [run_cons, Option.bind_eq_some_iff]

theorem run_append (s : σ) (is js : List ι) :
    run step s (is ++ js) = (run step s is).bind fun s' ↦ run step s' js := by
  induction is generalizing s with
  | nil => rfl
  | cons i is ih =>
    rw [List.cons_append, run_cons, run_cons, Option.bind_assoc]
    exact congrArg _ (funext ih)

theorem run_append_eq_some {s t : σ} {is js : List ι} :
    run step s (is ++ js) = some t ↔ ∃ m, run step s is = some m ∧ run step m js = some t := by
  rw [run_append, Option.bind_eq_some_iff]

theorem AllSteps.mono {ok ok' : σ → ι → Prop} (h : ∀ s i, ok s i → ok' s i) {s : σ} {is : List ι}
    (hok : AllSteps step ok s is) : AllSteps step ok' s is := by
  induction is generalizing s with
  | nil => exact trivial
  | cons i is ih => exact ⟨h s i hok.1, fun s' hs' ↦ ih (hok.2 s' hs')⟩

theorem allSteps_of_forall {ok : σ → ι → Prop} (h : ∀ s i, ok s i) (s : σ) (is : List ι) :
    AllSteps step ok s is := by
  induction is generalizing s with
  | nil => exact trivial
  | cons i is ih => exact ⟨h s i, fun s' _ ↦ ih s'⟩

theorem Reachable.refl (s : σ) : Reachable step s s := ⟨[], rfl⟩

theorem Reachable.head {s s' t : σ} {i : ι} (hstep : step s i = some s')
    (h : Reachable step s' t) : Reachable step s t := by
  obtain ⟨is, hrun⟩ := h
  exact ⟨i :: is, run_cons_eq_some.mpr ⟨s', hstep, hrun⟩⟩

theorem Reachable.trans {s t u : σ} (hst : Reachable step s t) (htu : Reachable step t u) :
    Reachable step s u := by
  obtain ⟨is, hrun⟩ := hst
  obtain ⟨js, hrest⟩ := htu
  exact ⟨is ++ js, run_append_eq_some.mpr ⟨t, hrun, hrest⟩⟩

/-- The invariant rule: what each step that meets `ok` preserves holds after every run whose steps
all meet it. -/
theorem run_invariant {inv : σ → Prop} {ok : σ → ι → Prop}
    (hstep : ∀ s i s', inv s → ok s i → step s i = some s' → inv s') {s t : σ} {is : List ι}
    (hs : inv s) (hok : AllSteps step ok s is) (hrun : run step s is = some t) : inv t := by
  induction is generalizing s with
  | nil =>
    rw [run_nil, Option.some.injEq] at hrun
    exact hrun ▸ hs
  | cons i is ih =>
    obtain ⟨s', hfirst, hrest⟩ := run_cons_eq_some.mp hrun
    exact ih (hstep s i s' hs hok.1 hfirst) (hok.2 s' hfirst) hrest

/-- The totality rule: when no step that meets `ok` is refused where the invariant holds, a run
whose steps all meet it goes through. -/
theorem exists_run_of_total {inv : σ → Prop} {ok : σ → ι → Prop}
    (hstep : ∀ s i, inv s → ok s i → ∃ s', step s i = some s' ∧ inv s') {s : σ} {is : List ι}
    (hs : inv s) (hok : AllSteps step ok s is) : ∃ t, run step s is = some t ∧ inv t := by
  induction is generalizing s with
  | nil => exact ⟨s, rfl, hs⟩
  | cons i is ih =>
    obtain ⟨s', hfirst, hs'⟩ := hstep s i hs hok.1
    obtain ⟨t, hrest, ht⟩ := ih hs' (hok.2 s' hfirst)
    exact ⟨t, run_cons_eq_some.mpr ⟨s', hfirst, hrest⟩, ht⟩

/-- The invariant rule for machines that need no condition. -/
theorem Reachable.invariant {inv : σ → Prop}
    (hstep : ∀ s i s', inv s → step s i = some s' → inv s') {s t : σ}
    (h : Reachable step s t) (hs : inv s) : inv t := by
  obtain ⟨is, hrun⟩ := h
  induction is generalizing s with
  | nil =>
    rw [run_nil, Option.some.injEq] at hrun
    exact hrun ▸ hs
  | cons i is ih =>
    obtain ⟨s', hfirst, hrest⟩ := run_cons_eq_some.mp hrun
    exact ih (hstep s i s' hs hfirst) hrest

/-- The invariant rule for what a state owes to the labels before it. -/
theorem run_history {inv : List ι → σ → Prop} {s t : σ} {is : List ι}
    (hstep : ∀ is s i s', inv is s → step s i = some s' → inv (is ++ [i]) s') (hs : inv [] s)
    (hrun : run step s is = some t) : inv is t := by
  induction is using List.reverseRecOn generalizing t with
  | nil =>
    rw [run_nil, Option.some.injEq] at hrun
    exact hrun ▸ hs
  | append_singleton is i ih =>
    obtain ⟨m, hfirst, hlast⟩ := run_append_eq_some.mp hrun
    obtain ⟨t', hi, hnil⟩ := run_cons_eq_some.mp hlast
    rw [run_nil, Option.some.injEq] at hnil
    exact hstep is m i t (ih hfirst) (hnil ▸ hi)

/-- Whether every step of a run meets a decidable condition can be computed along the run. -/
instance decidableAllSteps {ok : σ → ι → Prop} [∀ s i, Decidable (ok s i)] :
    ∀ s is, Decidable (AllSteps step ok s is)
  | _, [] => inferInstanceAs (Decidable True)
  | s, i :: is =>
    match h : step s i with
    | none => decidable_of_iff (ok s i) (by simp [AllSteps, h])
    | some s' =>
      have : Decidable (AllSteps step ok s' is) := decidableAllSteps s' is
      decidable_of_iff (ok s i ∧ AllSteps step ok s' is) (by simp [AllSteps, h])

/-- The machine that takes only the allowed steps. -/
def restrict (allowed : ι → Bool) (step : σ → ι → Option σ) (s : σ) (i : ι) : Option σ :=
  if allowed i then step s i else none

theorem run_restrict {allowed : ι → Bool} {s t : σ} {is : List ι} :
    run (restrict allowed step) s is = some t ↔
      (∀ i ∈ is, allowed i = true) ∧ run step s is = some t := by
  induction is generalizing s with
  | nil => simp
  | cons i is ih =>
    rw [run_cons_eq_some, run_cons_eq_some, List.forall_mem_cons]
    by_cases hi : allowed i = true
    · simp only [restrict, hi, if_true, ih, true_and]
      exact exists_congr (fun _ ↦ and_left_comm) |>.trans exists_and_left
    · simp [restrict, hi]

/-- The progress rule: when every state short of the goal has a step that keeps the invariant and
decreases a measure, the goal can be reached. -/
theorem exists_reachable_of_decreasing {inv goal : σ → Prop} (measure : σ → ℕ)
    (hprogress : ∀ s, inv s → ¬ goal s →
      ∃ i s', step s i = some s' ∧ inv s' ∧ measure s' < measure s)
    {s : σ} (hs : inv s) : ∃ t, Reachable step s t ∧ inv t ∧ goal t := by
  induction hn : measure s using Nat.strong_induction_on generalizing s with
  | h n ih =>
    by_cases hgoal : goal s
    · exact ⟨s, Reachable.refl s, hs, hgoal⟩
    · obtain ⟨i, s', hfirst, hs', hlt⟩ := hprogress s hs hgoal
      obtain ⟨t, hreach, ht⟩ := ih (measure s') (hn ▸ hlt) hs' rfl
      exact ⟨t, hreach.head hfirst, ht⟩

/-- The progress rule for an invariant that every step keeps. -/
theorem exists_run_of_decreasing {inv goal : σ → Prop} (measure : σ → ℕ)
    (hstep : ∀ s i s', inv s → step s i = some s' → inv s')
    (hprogress : ∀ s, inv s → ¬ goal s → ∃ i s', step s i = some s' ∧ measure s' < measure s)
    {s : σ} (hs : inv s) : ∃ is t, run step s is = some t ∧ goal t := by
  obtain ⟨t, ⟨is, hrun⟩, -, ht⟩ : ∃ t, Reachable step s t ∧ inv t ∧ goal t := by
    refine exists_reachable_of_decreasing measure (fun s hs hgoal ↦ ?_) hs
    obtain ⟨i, s', hfirst, hlt⟩ := hprogress s hs hgoal
    exact ⟨i, s', hfirst, hstep s i s' hs hfirst, hlt⟩
  exact ⟨is, t, hrun, ht⟩

/-! ## Simulation -/

/-- Lockstep simulation: when each step that meets `ok` is matched under its own label, so is every
run whose steps all meet it. -/
theorem lockstep {step' : τ → ι → Option τ} {ok : σ → ι → Prop} {rel : σ → τ → Prop}
    (hsim : ∀ s i s' t, rel s t → ok s i → step s i = some s' →
      ∃ t', step' t i = some t' ∧ rel s' t')
    {s s' : σ} {t : τ} {is : List ι} (hrel : rel s t) (hok : AllSteps step ok s is)
    (hrun : run step s is = some s') : ∃ t', run step' t is = some t' ∧ rel s' t' := by
  induction is generalizing s t with
  | nil =>
    rw [run_nil, Option.some.injEq] at hrun
    exact ⟨t, rfl, hrun ▸ hrel⟩
  | cons i is ih =>
    obtain ⟨m, hfirst, hrest⟩ := run_cons_eq_some.mp hrun
    obtain ⟨u, hu, hmu⟩ := hsim s i m t hrel hok.1 hfirst
    obtain ⟨t', ht', hrel'⟩ := ih hmu (hok.2 m hfirst) hrest
    exact ⟨t', run_cons_eq_some.mpr ⟨u, hu, ht'⟩, hrel'⟩

/-- A component: when each step of the whole is a step of the component or leaves it alone, the
component of a reachable state is reachable. -/
theorem Reachable.project {step' : τ → κ → Option τ} {inv : σ → Prop} (f : σ → τ)
    (hstep : ∀ s i s', inv s → step s i = some s' → inv s')
    (hproject : ∀ s i s', inv s → step s i = some s' →
      f s' = f s ∨ ∃ k, step' (f s) k = some (f s')) {s t : σ}
    (h : Reachable step s t) (hs : inv s) : Reachable step' (f s) (f t) := by
  have hboth (u : σ) (i : ι) (u' : σ) (hu : inv u ∧ Reachable step' (f s) (f u))
      (hfirst : step u i = some u') : inv u' ∧ Reachable step' (f s) (f u') := by
    refine ⟨hstep u i u' hu.1 hfirst, ?_⟩
    rcases hproject u i u' hu.1 hfirst with hsame | ⟨k, hk⟩
    · rw [hsame]
      exact hu.2
    · exact hu.2.trans ((Reachable.refl _).head hk)
  exact (h.invariant hboth ⟨hs, Reachable.refl _⟩).2

/-- The labels of another machine that the steps of a run stand for, in order. -/
def trace (step : σ → ι → Option σ) (emit : σ → ι → List κ) : σ → List ι → List κ
  | _, [] => []
  | s, i :: is => emit s i ++ ((step s i).map fun s' ↦ trace step emit s' is).getD []

/-- The invariant rule for what a state owes to the labels that the steps before it emitted. -/
theorem run_trace {emit : σ → ι → List κ} {inv : List κ → σ → Prop} {ok : σ → ι → Prop}
    (hstep : ∀ ks s i s', inv ks s → ok s i → step s i = some s' → inv (ks ++ emit s i) s')
    {s t : σ} {is : List ι} (hs : inv [] s) (hok : AllSteps step ok s is)
    (hrun : run step s is = some t) : inv (trace step emit s is) t := by
  have hfrom (ks : List κ) (s : σ) (is : List ι) (hs : inv ks s) (hok : AllSteps step ok s is)
      (hrun : run step s is = some t) : inv (ks ++ trace step emit s is) t := by
    induction is generalizing ks s with
    | nil =>
      rw [run_nil, Option.some.injEq] at hrun
      rw [trace, List.append_nil]
      exact hrun ▸ hs
    | cons i is ih =>
      obtain ⟨m, hfirst, hrest⟩ := run_cons_eq_some.mp hrun
      rw [trace, hfirst, Option.map_some, Option.getD_some, ← List.append_assoc]
      exact ih _ m (hstep ks s i m hs hok.1 hfirst) (hok.2 m hfirst) hrest
  exact hfrom [] s is hs hok hrun

/-- A history field that every step extends by what it emits holds the trace of the run. -/
theorem eq_trace {emit : σ → ι → List κ} {history : σ → List κ}
    (hstep : ∀ s i s', step s i = some s' → history s' = history s ++ emit s i) {s t : σ}
    {is : List ι} (hs : history s = []) (hrun : run step s is = some t) :
    history t = trace step emit s is := by
  have hkeep (ks : List κ) (u : σ) (i : ι) (u' : σ) (hu : history u = ks) (_ : True)
      (hfirst : step u i = some u') : history u' = ks ++ emit u i := by
    rw [hstep u i u' hfirst, hu]
  exact run_trace hkeep hs (allSteps_of_forall (fun _ _ ↦ trivial) s is) hrun

/-- Forward simulation: when each step is matched by the abstract labels it emits, every run is
matched by a run along its trace. -/
theorem simulation {step' : τ → κ → Option τ} {emit : σ → ι → List κ} {rel : σ → τ → Prop}
    (hsim : ∀ s i s' t, rel s t → step s i = some s' →
      ∃ t', run step' t (emit s i) = some t' ∧ rel s' t')
    {s s' : σ} {t : τ} {is : List ι} (hrel : rel s t) (hrun : run step s is = some s') :
    ∃ t', run step' t (trace step emit s is) = some t' ∧ rel s' t' := by
  induction is generalizing s t with
  | nil =>
    rw [run_nil, Option.some.injEq] at hrun
    exact ⟨t, rfl, hrun ▸ hrel⟩
  | cons i is ih =>
    obtain ⟨m, hfirst, hrest⟩ := run_cons_eq_some.mp hrun
    obtain ⟨u, hu, hmu⟩ := hsim s i m t hrel hfirst
    obtain ⟨t', ht', hrel'⟩ := ih hmu hrest
    refine ⟨t', ?_, hrel'⟩
    rw [trace, hfirst, Option.map_some, Option.getD_some, run_append_eq_some]
    exact ⟨u, hu, ht'⟩

end Foundation.Machine
