import Cqy.Foundation.Machine
import Cqy.Foundation.Vec
import Cqy.Node.Nodes

/-!
# Starting and stopping

`cqy_app::stop` sets a flag and closes the rpc server if there is one; whoever finds the flag set
returns at once.  `cqy_app::start` makes the server some steps after it has begun, and nothing tells
it of a flag that was set before.  The machine interleaves one `start` with any number of calls of
`stop`.  Closing a server that runs ends it, and closing one that does not run yet keeps it from
running.
-/

namespace Cqy

open Foundation

/-- The `coro_rpc_server` behind `cqy_node_t::server`, which is `absent` until it is made. -/
inductive RpcServer
  | absent
  | created
  | running
  /-- `async_start` could not listen. -/
  | failed
  | closed
deriving DecidableEq

/-- Where `cqy_app::start` stands. -/
inductive StartPc
  | createClients
  | createRpcServer
  | rpcServerStart
  | bootstrap
  /-- In the `get` of the future. -/
  | wait
  | returned
  | thrown
deriving DecidableEq

/-- Where a call of `cqy_app::stop` stands. -/
inductive StopPc
  /-- It has found the flag clear. -/
  | latched
  /-- `rpc_server_close` has found a server. -/
  | closing
  /-- `rpc_server_close` is done. -/
  | joining
  | returned
deriving DecidableEq

structure StartStop where
  bstop : Bool := false
  server : RpcServer := .absent
  start : StartPc := .createClients
  stops : List StopPc := []
deriving DecidableEq

namespace StartStop

inductive Label
  /-- The loop over the nodes, and the test whether the own one is among them. -/
  | createClients
  | createRpcServer
  | rpcServerStart (listens : Bool)
  | bootstrap (throws : Bool)
  | wake
  /-- A call of `stop` exchanges the flag. -/
  | exchange
  | look (i : ℕ)
  | close (i : ℕ)
  | join (i : ℕ)
deriving DecidableEq

/-- The configuration has the own node, so that `start` goes on to make the server. -/
def Accepted (config : Config) : Prop := ∃ n, CqyNode.start config = .ok n

instance (config : Config) : Decidable (Accepted config) :=
  match h : CqyNode.start config with
  | .ok n => isTrue ⟨n, h⟩
  | .error _ => isFalse fun ⟨_, hn⟩ ↦ absurd (h.symm.trans hn) (by simp)

def setStop (s : StartStop) (i : ℕ) (pc : StopPc) : StartStop :=
  { s with stops := s.stops.set i pc }

def step (config : Config) (s : StartStop) : Label → Option StartStop
  | .createClients =>
      if s.start = .createClients then
        some { s with start := if Accepted config then .createRpcServer else .thrown }
      else none
  | .createRpcServer =>
      if s.start = .createRpcServer then
        some { s with server := .created, start := .rpcServerStart }
      else none
  | .rpcServerStart listens =>
      if s.start = .rpcServerStart then
        some { s with
          server :=
            if s.server = .closed then .closed else if listens then .running else .failed
          start := .bootstrap }
      else none
  | .bootstrap throws =>
      if s.start = .bootstrap then some { s with start := if throws then .thrown else .wait }
      else none
  | .wake =>
      if s.start = .wait ∧ s.server ≠ .running then some { s with start := .returned } else none
  | .exchange =>
      some { s with
        bstop := true
        stops := s.stops ++ [if s.bstop then .returned else .latched] }
  | .look i =>
      if s.stops[i]? = some .latched then
        some (s.setStop i (if s.server = .absent then .joining else .closing))
      else none
  | .close i =>
      if s.stops[i]? = some .closing then
        some { s.setStop i .joining with server := .closed }
      else none
  | .join i => if s.stops[i]? = some .joining then some (s.setStop i .returned) else none

/-- A request is lost: a call of `stop` has returned, the server can come to run (or runs), and
whatever happens from here on, nobody closes it. -/
def Lost (config : Config) (s : StartStop) : Prop :=
  .returned ∈ s.stops ∧ (∃ t, Machine.Reachable (step config) s t ∧ t.server = .running) ∧
    ∀ t, Machine.Reachable (step config) s t → t.server ≠ .closed

/-- The call of `stop` that found the flag clear looks for the server when there is one, unless
there will be none. -/
def Timely (config : Config) (s : StartStop) : Label → Prop
  | .look _ => s.server ≠ .absent ∨ ¬ Accepted config
  | _ => True

instance (config : Config) (s : StartStop) : ∀ l, Decidable (s.Timely config l)
  | .look _ => inferInstanceAs (Decidable (_ ∨ _))
  | .createClients | .createRpcServer | .rpcServerStart _ | .bootstrap _ | .wake | .exchange
  | .close _ | .join _ => inferInstanceAs (Decidable True)

/-- What holds in every run: whether the server is made depends on where `start` stands, and at most
one call of `stop` is on its way, the one that found the flag clear. -/
structure Inv (config : Config) (s : StartStop) : Prop where
  early : s.start = .createClients ∨ s.start = .createRpcServer → s.server = .absent
  made : Accepted config → s.server = .absent →
    s.start = .createClients ∨ s.start = .createRpcServer
  refused : ¬ Accepted config → s.server = .absent ∧ (s.start = .createClients ∨ s.start = .thrown)
  closing : .closing ∈ s.stops → s.server ≠ .absent
  flag : s.bstop = false → s.stops = []
  one : ∀ (i j : ℕ) (pc pc' : StopPc), s.stops[i]? = some pc → s.stops[j]? = some pc' →
    pc ≠ .returned → pc' ≠ .returned → i = j

theorem inv_init (config : Config) : Inv config {} where
  early _ := rfl
  made _ _ := Or.inl rfl
  refused _ := ⟨rfl, Or.inl rfl⟩
  closing := by simp
  flag _ := rfl
  one := by simp

/-- A step of `start`. -/
theorem Inv.of_start {config : Config} {s : StartStop} (h : Inv config s) {server : RpcServer}
    {start : StartPc}
    (hearly : start = .createClients ∨ start = .createRpcServer → server = .absent)
    (hmade : Accepted config → server = .absent →
      start = .createClients ∨ start = .createRpcServer)
    (hrefused : ¬ Accepted config →
      server = .absent ∧ (start = .createClients ∨ start = .thrown))
    (hserver : s.server ≠ .absent → server ≠ .absent) :
    Inv config { s with server := server, start := start } where
  early := hearly
  made := hmade
  refused := hrefused
  closing hmem := hserver (h.closing hmem)
  flag := h.flag
  one := h.one

/-- Past the making of the server there is one. -/
theorem Inv.late {config : Config} {s : StartStop} (h : Inv config s)
    (hclients : s.start ≠ .createClients) (hcreate : s.start ≠ .createRpcServer)
    (hthrown : s.start ≠ .thrown) : Accepted config ∧ s.server ≠ .absent := by
  have hacc : Accepted config := by
    by_contra href
    exact (h.refused href).2.elim hclients hthrown
  exact ⟨hacc, fun habsent ↦ (h.made hacc habsent).elim hclients hcreate⟩

theorem getElem?_setStop {s : StartStop} {i j : ℕ} {pc pc' : StopPc}
    (h : (s.setStop i pc).stops[j]? = some pc') : j = i ∨ s.stops[j]? = some pc' := by
  rw [setStop, List.getElem?_set] at h
  split_ifs at h with hij
  · exact Or.inl hij.symm
  · exact Or.inr h

/-- The one call of `stop` that is on its way moves on. -/
theorem Inv.of_setStop {config : Config} {s : StartStop} (h : Inv config s) {i : ℕ}
    {old pc : StopPc} (hget : s.stops[i]? = some old) (hold : old ≠ .returned)
    (hclosing : pc = .closing → s.server ≠ .absent) : Inv config (s.setStop i pc) where
  early := h.early
  made := h.made
  refused := h.refused
  closing hmem := by
    rcases List.mem_or_eq_of_mem_set hmem with hmem | hpc
    · exact h.closing hmem
    · exact hclosing hpc.symm
  flag hflag := by
    rw [h.flag hflag] at hget
    exact absurd hget (by simp)
  one j k pcj pck hj hk hjr hkr := by
    have hmoved {j : ℕ} {pcj : StopPc} (hj : (s.setStop i pc).stops[j]? = some pcj)
        (hjr : pcj ≠ .returned) : j = i :=
      (getElem?_setStop hj).elim id fun hj ↦ h.one j i pcj old hj hget hjr hold
    rw [hmoved hj hjr, hmoved hk hkr]

theorem inv_exchange {config : Config} {s s' : StartStop} (h : Inv config s)
    (hstep : s.step config .exchange = some s') : Inv config s' := by
  obtain rfl := Option.some.inj hstep
  refine ⟨h.early, h.made, h.refused, fun hmem ↦ ?_, by simp, fun j k pcj pck hj hk hjr hkr ↦ ?_⟩
  · rcases List.mem_append.mp hmem with hmem | hmem
    · exact h.closing hmem
    · split_ifs at hmem <;> simp at hmem
  · cases hflag : s.bstop with
    | false =>
      have hfirst {j : ℕ} {pcj : StopPc}
          (hj : (s.stops ++ [if s.bstop then StopPc.returned else .latched])[j]? = some pcj) :
          j = 0 := by
        obtain ⟨hlt, -⟩ := List.getElem?_eq_some_iff.mp hj
        rw [h.flag hflag, List.nil_append, List.length_singleton] at hlt
        omega
      rw [hfirst hj, hfirst hk]
    | true =>
      have hold {j : ℕ} {pcj : StopPc}
          (hj : (s.stops ++ [if s.bstop then StopPc.returned else .latched])[j]? = some pcj)
          (hjr : pcj ≠ .returned) : s.stops[j]? = some pcj := by
        rw [List.getElem?_append, hflag, if_pos rfl] at hj
        split_ifs at hj with hlt
        · exact hj
        · obtain ⟨-, rfl⟩ := List.mem_singleton.mp (List.mem_of_getElem? hj)
          exact absurd rfl hjr
      exact h.one j k pcj pck (hold hj hjr) (hold hk hkr) hjr hkr

theorem inv_step (config : Config) (s : StartStop) (l : Label) (s' : StartStop) (h : Inv config s)
    (hstep : s.step config l = some s') : Inv config s' := by
  cases l with
  | exchange => exact inv_exchange h hstep
  | look i =>
    simp only [step] at hstep
    rw [Option.ite_none_right_eq_some] at hstep
    obtain ⟨hget, hstep⟩ := hstep
    obtain rfl := Option.some.inj hstep
    refine h.of_setStop hget (by simp) fun hpc ↦ ?_
    split_ifs at hpc with habsent
    exact habsent
  | close i =>
    simp only [step] at hstep
    split_ifs at hstep with hget
    obtain rfl := Option.some.inj hstep
    have hserver := h.closing (List.mem_of_getElem? hget)
    have hmoved : Inv config (s.setStop i .joining) := h.of_setStop hget (by simp) (by simp)
    exact hmoved.of_start (fun hpc ↦ absurd (h.early hpc) hserver) (by simp)
      (fun href ↦ absurd (h.refused href).1 hserver) (by simp)
  | join i =>
    simp only [step] at hstep
    split_ifs at hstep with hget
    obtain rfl := Option.some.inj hstep
    exact h.of_setStop hget (by simp) (by simp)
  | createClients =>
    simp only [step] at hstep
    rw [Option.ite_none_right_eq_some] at hstep
    obtain ⟨hpc, hstep⟩ := hstep
    obtain rfl := Option.some.inj hstep
    have habsent := h.early (Or.inl hpc)
    refine h.of_start (fun _ ↦ habsent) (fun hacc _ ↦ ?_) (fun href ↦ ⟨habsent, ?_⟩) id
    · rw [if_pos hacc]
      exact Or.inr rfl
    · rw [if_neg href]
      exact Or.inr rfl
  | createRpcServer =>
    simp only [step] at hstep
    split_ifs at hstep with hpc
    obtain rfl := Option.some.inj hstep
    refine h.of_start (by simp) (by simp) (fun href ↦ ?_) (by simp)
    exact absurd (h.refused href).2 (by simp [hpc])
  | rpcServerStart listens =>
    simp only [step] at hstep
    rw [Option.ite_none_right_eq_some] at hstep
    obtain ⟨hpc, hstep⟩ := hstep
    obtain rfl := Option.some.inj hstep
    obtain ⟨hacc, -⟩ := h.late (by simp [hpc]) (by simp [hpc]) (by simp [hpc])
    refine h.of_start (by simp) (fun _ habsent ↦ ?_) (absurd hacc) fun _ ↦ ?_
    · split_ifs at habsent
    · split_ifs <;> simp
  | bootstrap throws =>
    simp only [step] at hstep
    rw [Option.ite_none_right_eq_some] at hstep
    obtain ⟨hpc, hstep⟩ := hstep
    obtain rfl := Option.some.inj hstep
    obtain ⟨hacc, hserver⟩ := h.late (by simp [hpc]) (by simp [hpc]) (by simp [hpc])
    exact h.of_start (by cases throws <;> simp) (fun _ habsent ↦ absurd habsent hserver)
      (absurd hacc) id
  | wake =>
    simp only [step] at hstep
    split_ifs at hstep with hpc
    obtain rfl := Option.some.inj hstep
    obtain ⟨hacc, hserver⟩ := h.late (by simp [hpc.1]) (by simp [hpc.1]) (by simp [hpc.1])
    exact h.of_start (by simp) (fun _ habsent ↦ absurd habsent hserver) (absurd hacc) id

/-! ## No request is lost -/

/-- The call that found the flag clear will still close the server, or has. -/
def Pending (s : StartStop) : Prop :=
  s.server = .closed ∨ ∃ i : ℕ, s.stops[i]? = some .latched ∨ s.stops[i]? = some .closing

theorem closed_step {config : Config} {s s' : StartStop} {l : Label} (h : Inv config s)
    (hstep : s.step config l = some s') (hclosed : s.server = .closed) : s'.server = .closed := by
  have hearly := h.early
  cases l <;> simp only [step] at hstep <;> grind [setStop]

/-- A call that is on its way stays so until it has closed the server. -/
theorem pending_step {config : Config} {s s' : StartStop} {l : Label} (h : Inv config s)
    (hacc : Accepted config) (hok : s.Timely config l) (hstep : s.step config l = some s')
    (hpending : s.Pending) : s'.Pending := by
  rcases hpending with hclosed | ⟨i, hi⟩
  · exact Or.inl (closed_step h hstep hclosed)
  have hlt : i < s.stops.length := by
    rcases hi with hi | hi <;> exact (List.getElem?_eq_some_iff.mp hi).1
  have heq {j : ℕ} {pc : StopPc} (hj : s.stops[j]? = some pc) (hpc : pc ≠ .returned) : j = i := by
    rcases hi with hi | hi <;> exact h.one j i pc _ hj hi hpc (by simp)
  cases l with
  | look j =>
    simp only [step] at hstep
    rw [Option.ite_none_right_eq_some] at hstep
    obtain ⟨hget, hstep⟩ := hstep
    obtain rfl := Option.some.inj hstep
    obtain rfl := heq hget (by simp)
    refine Or.inr ⟨j, Or.inr ?_⟩
    rw [if_neg (hok.resolve_right (not_not.mpr hacc)), setStop, List.getElem?_set_self hlt]
  | close j =>
    simp only [step] at hstep
    split_ifs at hstep
    obtain rfl := Option.some.inj hstep
    exact Or.inl rfl
  | join j =>
    simp only [step] at hstep
    split_ifs at hstep with hget
    obtain rfl := heq hget (by simp)
    rw [hget] at hi
    exact absurd hi (by simp)
  | exchange =>
    obtain rfl := Option.some.inj hstep
    refine Or.inr ⟨i, ?_⟩
    dsimp only
    rwa [List.getElem?_append_left hlt]
  | _ =>
    simp only [step] at hstep
    split_ifs at hstep <;> obtain rfl := Option.some.inj hstep <;> exact Or.inr ⟨i, hi⟩

theorem bstop_step {config : Config} {s s' : StartStop} {l : Label}
    (hstep : s.step config l = some s') : l = .exchange ∨ s'.bstop = s.bstop := by
  cases l <;> simp only [step] at hstep <;> grind [setStop]

/-- What holds in every run whose steps are timely. -/
structure Served (config : Config) (s : StartStop) : Prop where
  inv : Inv config s
  pending : Accepted config → s.bstop = true → s.Pending

theorem served_step (config : Config) (s : StartStop) (l : Label) (s' : StartStop)
    (h : Served config s) (hok : s.Timely config l) (hstep : s.step config l = some s') :
    Served config s' := by
  refine ⟨inv_step config s l s' h.inv hstep, fun hacc hflag' ↦ ?_⟩
  cases hflag : s.bstop with
  | true => exact pending_step h.inv hacc hok hstep (h.pending hacc hflag)
  | false =>
    -- Only an exchange sets the flag, and here it is the first one.
    rcases bstop_step hstep with rfl | hkeep
    · obtain rfl := Option.some.inj hstep
      exact Or.inr ⟨0, Or.inl (by simp [h.inv.flag hflag, hflag])⟩
    · exact absurd (hflag'.symm.trans (hkeep.trans hflag)) (by simp)

/-- A call that is on its way finds the server, made or still to be made, and closes it. -/
theorem exists_closed {config : Config} {s : StartStop} (h : Inv config s)
    (hacc : Accepted config) (hpending : s.Pending) :
    ∃ t, Machine.Reachable (step config) s t ∧ t.server = .closed := by
  have hclosing (s : StartStop) (i : ℕ) (hi : s.stops[i]? = some .closing) :
      ∃ t, Machine.Reachable (step config) s t ∧ t.server = .closed := by
    refine ⟨{ s.setStop i .joining with server := .closed }, ?_, rfl⟩
    refine Machine.Reachable.head (i := .close i) ?_ (Machine.Reachable.refl _)
    rw [step, if_pos hi]
  have hlatched (s : StartStop) (i : ℕ) (hi : s.stops[i]? = some .latched)
      (hserver : s.server ≠ .absent) :
      ∃ t, Machine.Reachable (step config) s t ∧ t.server = .closed := by
    have hlook : s.step config (.look i) = some (s.setStop i .closing) := by
      rw [step, if_pos hi, if_neg hserver]
    obtain ⟨t, hreach, ht⟩ := hclosing (s.setStop i .closing) i
      (List.getElem?_set_self (List.getElem?_eq_some_iff.mp hi).1)
    exact ⟨t, hreach.head hlook, ht⟩
  have hcreate (s : StartStop) (i : ℕ) (hi : s.stops[i]? = some .latched)
      (hpc : s.start = .createRpcServer) :
      ∃ t, Machine.Reachable (step config) s t ∧ t.server = .closed := by
    obtain ⟨t, hreach, ht⟩ :=
      hlatched { s with server := .created, start := .rpcServerStart } i hi (by simp)
    exact ⟨t, hreach.head (i := .createRpcServer) (by rw [step, if_pos hpc]), ht⟩
  rcases hpending with hclosed | ⟨i, hi | hi⟩
  · exact ⟨s, Machine.Reachable.refl s, hclosed⟩
  · by_cases hserver : s.server = .absent
    · rcases h.made hacc hserver with hpc | hpc
      · obtain ⟨t, hreach, ht⟩ := hcreate { s with start := .createRpcServer } i hi rfl
        refine ⟨t, hreach.head (i := .createClients) ?_, ht⟩
        rw [step, if_pos hpc, if_pos hacc]
      · exact hcreate s i hi hpc
    · exact hlatched s i hi hserver
  · exact hclosing s i hi

/-- In every run in which the call that finds the flag clear looks for the server when there is one,
no request to stop is lost. -/
theorem not_lost_of_timely {config : Config} {ls : List Label} {s : StartStop}
    (hok : Machine.AllSteps (step config) (Timely config) {} ls)
    (hrun : Machine.run (step config) {} ls = some s) : ¬ s.Lost config := by
  have hinit : Served config {} := ⟨inv_init config, by simp⟩
  have hserved : Served config s := Machine.run_invariant (served_step config) hinit hok hrun
  rintro ⟨hreturned, ⟨t, hreach, hrunning⟩, hnever⟩
  by_cases hacc : Accepted config
  · have hflag : s.bstop = true := by
      by_contra hflag
      rw [hserved.inv.flag (by simpa using hflag)] at hreturned
      exact absurd hreturned (by simp)
    obtain ⟨u, hu, hclosed⟩ := exists_closed hserved.inv hacc (hserved.pending hacc hflag)
    exact hnever u hu hclosed
  · have hinv : Inv config t := hreach.invariant (inv_step config) hserved.inv
    exact absurd ((hinv.refused hacc).1.symm.trans hrunning) (by simp)

/-- A configuration with the own node only. -/
def oneNode : Config := ⟨1, [⟨[110, 49], 1⟩]⟩

/-- The first call finds the server before it has started, the second one returns at once. -/
theorem not_lost_beforeStart :
    ∃ s, Machine.run (step oneNode) {} [.createClients, .createRpcServer, .exchange, .exchange,
        .look 0, .close 0, .rpcServerStart true, .join 0] = some s ∧
      ¬ s.Lost oneNode ∧ s.stops = [.returned, .returned] := by
  have hrun : Machine.run (step oneNode) {} [.createClients, .createRpcServer, .exchange,
      .exchange, .look 0, .close 0, .rpcServerStart true, .join 0] = some _ := rfl
  exact ⟨_, hrun, not_lost_of_timely (by decide) hrun, rfl⟩

/-! ## An early call -/

/-- The flag is set and no call is on its way: the server will not be closed. -/
structure Spent (s : StartStop) : Prop where
  flag : s.bstop = true
  stops : ∀ pc ∈ s.stops, pc = .joining ∨ pc = .returned
  server : s.server ≠ .closed

theorem spent_step (config : Config) (s : StartStop) (l : Label) (s' : StartStop) (h : Spent s)
    (hstep : s.step config l = some s') : Spent s' := by
  cases l with
  | look i | close i =>
    simp only [step] at hstep
    rw [Option.ite_none_right_eq_some] at hstep
    exact absurd (h.stops _ (List.mem_of_getElem? hstep.1)) (by simp)
  | join i =>
    simp only [step] at hstep
    split_ifs at hstep
    obtain rfl := Option.some.inj hstep
    refine ⟨h.flag, fun pc hpc ↦ ?_, h.server⟩
    exact (List.mem_or_eq_of_mem_set hpc).elim (h.stops pc) Or.inr
  | exchange =>
    obtain rfl := Option.some.inj hstep
    refine ⟨rfl, fun pc hpc ↦ ?_, h.server⟩
    rw [h.flag, if_pos rfl] at hpc
    rcases List.mem_append.mp hpc with hpc | hpc
    · exact h.stops pc hpc
    · exact Or.inr (List.mem_singleton.mp hpc)
  | createClients | createRpcServer | bootstrap throws | wake =>
    simp only [step] at hstep
    rw [Option.ite_none_right_eq_some] at hstep
    obtain rfl := Option.some.inj hstep.2
    exact ⟨h.flag, h.stops, by simp [h.server]⟩
  | rpcServerStart listens =>
    simp only [step] at hstep
    rw [Option.ite_none_right_eq_some] at hstep
    obtain rfl := Option.some.inj hstep.2
    refine ⟨h.flag, h.stops, ?_⟩
    dsimp only
    rw [if_neg h.server]
    split_ifs <;> simp

/-- A call of `stop` returns before the server is made; then `start` waits for good, and another
call changes nothing. -/
theorem lost_beforeServer :
    ∃ s, Machine.run (step oneNode) {} [.exchange, .look 0, .join 0, .createClients,
        .createRpcServer, .rpcServerStart true, .bootstrap false, .exchange] = some s ∧
      s.start = .wait ∧ s.Lost oneNode := by
  refine ⟨_, rfl, rfl, by decide, ⟨_, Machine.Reachable.refl _, rfl⟩, fun t ht ↦ ?_⟩
  exact (ht.invariant (spent_step oneNode) ⟨rfl, by decide, by decide⟩).server

theorem exists_running {config : Config} {s : StartStop} (hacc : Accepted config)
    (hpc : s.start = .createClients ∨ s.start = .createRpcServer) :
    ∃ t, Machine.Reachable (step config) s t ∧ t.server = .running := by
  have hcreate (s : StartStop) (hpc : s.start = .createRpcServer) :
      ∃ t, Machine.Reachable (step config) s t ∧ t.server = .running := by
    refine ⟨{ s with server := .running, start := .bootstrap }, ?_, rfl⟩
    refine Machine.Reachable.head (i := .createRpcServer) (by rw [step, if_pos hpc]) ?_
    refine Machine.Reachable.head (i := .rpcServerStart true) ?_ (Machine.Reachable.refl _)
    simp [step]
  rcases hpc with hpc | hpc
  · obtain ⟨t, hreach, ht⟩ := hcreate { s with start := .createRpcServer } rfl
    refine ⟨t, hreach.head (i := .createClients) ?_, ht⟩
    rw [step, if_pos hpc, if_pos hacc]
  · exact hcreate s hpc

/-- The condition is exact: from a reachable state, a call that looks for the server too early
returns and is lost. -/
theorem exists_lost_of_not_timely {config : Config} {s s' : StartStop} {l : Label}
    (h : Inv config s) (hnot : ¬ s.Timely config l) (hstep : s.step config l = some s') :
    ∃ t, Machine.Reachable (step config) s' t ∧ t.Lost config := by
  cases l with
  | look i =>
    simp only [Timely, not_or, not_not] at hnot
    obtain ⟨habsent, hacc⟩ := hnot
    simp only [step] at hstep
    rw [Option.ite_none_right_eq_some, if_pos habsent] at hstep
    obtain ⟨hget, hstep⟩ := hstep
    obtain rfl := Option.some.inj hstep
    have hlt : i < s.stops.length := (List.getElem?_eq_some_iff.mp hget).1
    set t := (s.setStop i .joining).setStop i .returned
    have hself : (s.setStop i .joining).stops[i]? = some .joining := List.getElem?_set_self hlt
    have hjoin : (s.setStop i .joining).step config (.join i) = some t := by
      rw [step, if_pos hself]
    have hflag : s.bstop = true := by
      by_contra hflag
      rw [h.flag (by simpa using hflag)] at hlt
      exact absurd hlt (by simp)
    have hspent : Spent t := by
      refine ⟨hflag, fun pc hpc ↦ ?_, ?_⟩
      · obtain ⟨j, hj⟩ := List.mem_iff_getElem?.mp hpc
        have hstops : t.stops = s.stops.set i .returned := List.set_set ..
        rw [hstops, Vec.getElem?_set_of_some hget] at hj
        split_ifs at hj with hji
        · exact Or.inr (Option.some.inj hj).symm
        · by_contra hactive
          rw [not_or] at hactive
          exact hji (h.one j i pc _ hj hget hactive.2 (by simp))
      · exact fun hclosed ↦ absurd (habsent.symm.trans hclosed) (by simp)
    refine ⟨t, (Machine.Reachable.refl t).head hjoin, ?_, ?_, fun u hu ↦ ?_⟩
    · exact List.mem_set (by simpa [setStop] using hlt) _
    · exact exists_running hacc (h.made hacc habsent)
    · exact (hu.invariant (spent_step config) hspent).server
  | _ => exact absurd trivial hnot

end StartStop

end Cqy
