import Cqy.Foundation.Machine
import Cqy.Foundation.Vec
import Cqy.Demo.Tables

/-!
# The game server

`ws_server`, the gate, the world and the game together.  What one context dispatches to another is
in flight until it is handled, in any order: the handlers of a context overtake each other.  The
handlers of a context exclude each other except where they wait for another context, so that each
step here is what one of them does between two waits.  A client may open and close connections and
send whatever it likes.  The step in which `co_login` would write to a player that has been erased
is undefined, and is refused.
-/

namespace Cqy.Demo

open Foundation

structure Server where
  gate : Gate := {}
  /-- `ws_server_t::conns`. -/
  conns : List UInt64 := []
  logins : List LoginCall := []
  world : World := {}
  game : Game := {}
  toGate : List Inbound := []
  /-- The messages of type `close` on their way to the world. -/
  toWorld : List UInt64 := []
  toGame : List UInt64 := []
deriving DecidableEq

namespace Server

inductive Label
  /-- `co_ws_handle` gets an id and announces the connection. -/
  | accept
  | read (connid : UInt64) (msg : ClientMsg)
  /-- The connection is closed, by whichever end. -/
  | hangUp (connid : UInt64)
  /-- Another context dispatches to the gate. -/
  | notify (src : UInt32) (n : Notice)
  | deliver (k : ℕ)
  | worldLogin (i : ℕ)
  /-- The call of the world fails before its function runs. -/
  | worldFail (i : ℕ)
  | answer (i : ℕ)
  | gameAdd (i : ℕ)
  | gameFail (i : ℕ)
  | worldClose (k : ℕ)
  | gameClose (k : ℕ)
deriving DecidableEq

def setPhase (s : Server) (i : ℕ) (call : LoginCall) (phase : LoginPhase) : Server :=
  { s with logins := s.logins.set i { call with phase := phase } }

/-- The gate takes what `m` says off its queue. -/
def react (ids : Ids) (s : Server) (k : ℕ) (m : Inbound) : Server :=
  let r := s.gate.onMsg ids m
  { s with
    gate := r.gate
    logins := s.logins ++ r.call.toList
    toGate := s.toGate.eraseIdx k
    toWorld := s.toWorld ++ r.stopped.toList
    toGame := s.toGame ++ r.stopped.toList }

/-- The world serves call `i`. -/
def serve (ids : Ids) (s : Server) (i : ℕ) (call : LoginCall) : Server :=
  let (world, notices, rsp) := s.world.rpcPlayerLogin call.connid call.login
  { s.setPhase i call (.answered (some rsp)) with
    world := world
    toGate := s.toGate ++ notices.map (.notice ids.world) }

def step (ids : Ids) (s : Server) : Label → Option Server
  | .accept =>
    let (connid, gate) := s.gate.rpcGetAllocid
    if connid = 0 then some { s with gate := gate }
    else some { s with
      gate := gate
      conns := s.conns.insert connid
      toGate := s.toGate ++ [.wsStart ids.wsServer connid] }
  | .read connid msg =>
    if connid ∈ s.conns then some { s with toGate := s.toGate ++ [.wsMsg connid msg] } else none
  | .hangUp connid =>
    if connid ∈ s.conns then
      some { s with conns := s.conns.erase connid, toGate := s.toGate ++ [.wsStop connid] }
    else none
  | .notify src n => some { s with toGate := s.toGate ++ [.notice src n] }
  | .deliver k => s.toGate[k]?.map (s.react ids k)
  | .worldLogin i => s.logins[i]?.bind fun call ↦
      if call.phase = .asking then some (s.serve ids i call) else none
  | .worldFail i => s.logins[i]?.bind fun call ↦
      if call.phase = .asking then some (s.setPhase i call (.answered none)) else none
  | .answer i => s.logins[i]?.bind fun call ↦
      match call.phase with
      | .answered rsp => (s.gate.coLoginAnswered call rsp).map fun (gate, _, phase) ↦
          { s.setPhase i call phase with gate := gate }
      | _ => none
  | .gameAdd i => s.logins[i]?.bind fun call ↦
      if call.phase = .adding then
        some { s.setPhase i call .finished with
          game := s.game.rpcAddPlayer call.connid call.login }
      else none
  | .gameFail i => s.logins[i]?.bind fun call ↦
      if call.phase = .adding then some (s.setPhase i call .finished) else none
  | .worldClose k => s.toWorld[k]?.map fun connid ↦
      { s with toWorld := s.toWorld.eraseIdx k, world := s.world.onClose connid }
  | .gameClose k => s.toGame[k]?.map fun connid ↦
      { s with toGame := s.toGame.eraseIdx k, game := s.game.onClose connid }

/-- What a step dispatches to `ws_server`. -/
def emit (ids : Ids) (s : Server) : Label → List Sent
  | .deliver k => (s.toGate[k]?.map fun m ↦ (s.gate.onMsg ids m).sent).getD []
  | .answer i => (s.logins[i]?.bind fun call ↦
      match call.phase with
      | .answered rsp => (s.gate.coLoginAnswered call rsp).map fun (_, sent, _) ↦ sent
      | _ => none).getD []
  | _ => []

/-- The counter of the connection ids does not wrap around. -/
def Counts (s : Server) : Label → Prop
  | .accept => s.gate.connAlloc + 1 ≠ 0
  | _ => True

instance (s : Server) : ∀ l, Decidable (s.Counts l)
  | .accept => inferInstanceAs (Decidable (s.gate.connAlloc + 1 ≠ 0))
  | .read .. | .hangUp .. | .notify .. | .deliver .. | .worldLogin .. | .worldFail ..
  | .answer .. | .gameAdd .. | .gameFail .. | .worldClose .. | .gameClose .. => isTrue trivial

/-- A login, and the broadcast of the world that it leads to. -/
def loginRun : List Label :=
  [.accept, .deliver 0, .read 1 (.login 1 (some ⟨"ann", "", 3⟩)), .deliver 0, .worldLogin 0,
    .answer 0, .deliver 0, .gameAdd 0]

/-! ## What each step does -/

section Steps

variable {ids : Ids} {s s' : Server} {i k : ℕ}

theorem accept_eq_some_iff (hcounts : s.gate.connAlloc + 1 ≠ 0) :
    s.step ids .accept = some s' ↔ s' = { s with
      gate := { s.gate with connAlloc := s.gate.connAlloc + 1 }
      conns := s.conns.insert (s.gate.connAlloc + 1)
      toGate := s.toGate ++ [.wsStart ids.wsServer (s.gate.connAlloc + 1)] } := by
  have hstep : s.step ids .accept = if s.gate.connAlloc + 1 = 0
      then some { s with gate := { s.gate with connAlloc := s.gate.connAlloc + 1 } }
      else some { s with
        gate := { s.gate with connAlloc := s.gate.connAlloc + 1 }
        conns := s.conns.insert (s.gate.connAlloc + 1)
        toGate := s.toGate ++ [.wsStart ids.wsServer (s.gate.connAlloc + 1)] } := rfl
  rw [hstep, if_neg hcounts, Option.some.injEq, eq_comm]

theorem accept_of_zero (hcounts : s.gate.connAlloc + 1 = 0) : s.step ids .accept =
    some { s with gate := { s.gate with connAlloc := s.gate.connAlloc + 1 } } := if_pos hcounts

/-- A connection is refused, or it is there and announced. -/
theorem accept_opens (hstep : s.step ids .accept = some s') :
    (s'.conns = s.conns ∧ s'.toGate = s.toGate) ∨ ∃ connid, s'.conns = s.conns.insert connid ∧
      s'.toGate = s.toGate ++ [.wsStart ids.wsServer connid] := by
  by_cases hcounts : s.gate.connAlloc + 1 = 0
  · rw [accept_of_zero hcounts, Option.some_inj] at hstep
    exact Or.inl (hstep ▸ ⟨rfl, rfl⟩)
  · obtain rfl := (accept_eq_some_iff hcounts).mp hstep
    exact Or.inr ⟨_, rfl, rfl⟩

/-- The gate hears of a new connection later. -/
theorem accept_frame (hstep : s.step ids .accept = some s') :
    s'.gate.players = s.gate.players ∧ s'.logins = s.logins ∧ s'.world = s.world ∧
      s'.game = s.game ∧ s'.toWorld = s.toWorld ∧ s'.toGame = s.toGame := by
  by_cases hcounts : s.gate.connAlloc + 1 = 0
  · rw [accept_of_zero hcounts, Option.some_inj] at hstep
    obtain rfl := hstep
    exact ⟨rfl, rfl, rfl, rfl, rfl, rfl⟩
  · obtain rfl := (accept_eq_some_iff hcounts).mp hstep
    exact ⟨rfl, rfl, rfl, rfl, rfl, rfl⟩

theorem deliver_eq_some_iff : s.step ids (.deliver k) = some s' ↔
    ∃ m, s.toGate[k]? = some m ∧ s' = s.react ids k m := by
  simp only [step, Option.map_eq_some_iff, @eq_comm _ s']

theorem worldLogin_eq_some_iff : s.step ids (.worldLogin i) = some s' ↔
    ∃ call, s.logins[i]? = some call ∧ call.phase = .asking ∧ s' = s.serve ids i call := by
  simp [step, Option.bind_eq_some_iff, @eq_comm _ s']

theorem worldFail_eq_some_iff : s.step ids (.worldFail i) = some s' ↔
    ∃ call, s.logins[i]? = some call ∧ call.phase = .asking ∧
      s' = s.setPhase i call (.answered none) := by
  simp [step, Option.bind_eq_some_iff, @eq_comm _ s']

theorem answer_eq_some_iff : s.step ids (.answer i) = some s' ↔
    ∃ call rsp gate sent phase, s.logins[i]? = some call ∧ call.phase = .answered rsp ∧
      s.gate.coLoginAnswered call rsp = some (gate, sent, phase) ∧
      s' = { s.setPhase i call phase with gate := gate } := by
  rw [step, Option.bind_eq_some_iff]
  constructor
  · rintro ⟨call, hget, h⟩
    split at h
    · next rsp hphase =>
      obtain ⟨⟨gate, sent, phase⟩, hanswer, rfl⟩ := Option.map_eq_some_iff.mp h
      exact ⟨call, rsp, gate, sent, phase, hget, hphase, hanswer, rfl⟩
    · exact absurd h (by simp)
  · rintro ⟨call, rsp, gate, sent, phase, hget, hphase, hanswer, rfl⟩
    exact ⟨call, hget, by simp [hphase, hanswer]⟩

theorem gameAdd_eq_some_iff : s.step ids (.gameAdd i) = some s' ↔
    ∃ call, s.logins[i]? = some call ∧ call.phase = .adding ∧
      s' = { s.setPhase i call .finished with
        game := s.game.rpcAddPlayer call.connid call.login } := by
  simp [step, Option.bind_eq_some_iff, @eq_comm _ s']

theorem gameFail_eq_some_iff : s.step ids (.gameFail i) = some s' ↔
    ∃ call, s.logins[i]? = some call ∧ call.phase = .adding ∧
      s' = s.setPhase i call .finished := by
  simp [step, Option.bind_eq_some_iff, @eq_comm _ s']

theorem worldClose_eq_some_iff : s.step ids (.worldClose k) = some s' ↔
    ∃ connid, s.toWorld[k]? = some connid ∧
      s' = { s with toWorld := s.toWorld.eraseIdx k, world := s.world.onClose connid } := by
  simp [step, @eq_comm _ s']

theorem gameClose_eq_some_iff : s.step ids (.gameClose k) = some s' ↔
    ∃ connid, s.toGame[k]? = some connid ∧
      s' = { s with toGame := s.toGame.eraseIdx k, game := s.game.onClose connid } := by
  simp [step, @eq_comm _ s']

theorem emit_deliver {m : Inbound} (hget : s.toGate[k]? = some m) :
    s.emit ids (.deliver k) = (s.gate.onMsg ids m).sent := by
  simp [emit, hget]

theorem emit_answer {call : LoginCall} {rsp : Option MsgLoginResponce} {gate : Gate}
    {sent : List Sent} {phase : LoginPhase} (hget : s.logins[i]? = some call)
    (hphase : call.phase = .answered rsp)
    (hanswer : s.gate.coLoginAnswered call rsp = some (gate, sent, phase)) :
    s.emit ids (.answer i) = sent := by
  simp [emit, hget, hphase, hanswer]

end Steps

end Server

/-- What a call keeps when it moves. -/
def LoginCall.who (call : LoginCall) : UInt64 × ℕ × MsgLogin := (call.connid, call.addr, call.login)

def Inbound.start? : Inbound → Option UInt64
  | .wsStart _ connid => some connid
  | _ => none

namespace Server

/-- The connections that the gate has yet to hear of. -/
def starts (s : Server) : List UInt64 := s.toGate.filterMap Inbound.start?

section Frame

variable {ids : Ids} {s s' : Server} {i k : ℕ}

theorem map_who_set {logins : List LoginCall} {call : LoginCall} (hget : logins[i]? = some call)
    (phase : LoginPhase) :
    (logins.set i { call with phase := phase }).map LoginCall.who = logins.map LoginCall.who := by
  rw [List.map_set]
  refine List.ext_getElem? fun j ↦ ?_
  have hwho : (logins.map LoginCall.who)[i]? = some call.who := by
    rw [List.getElem?_map, hget, Option.map_some]
  rw [Vec.getElem?_set_of_some hwho]
  split_ifs with hj
  · rw [hj, hwho]
    rfl
  · rfl

/-- The other steps leave the nodes alone, announce no connection, and start no call. -/
theorem step_frame {l : Label} (hstep : s.step ids l = some s') (haccept : l ≠ .accept)
    (hdeliver : ∀ k, l ≠ .deliver k) : Gate.SameNodes s.gate s'.gate ∧
      (∃ more, s'.toGate = s.toGate ++ more ∧ ∀ m ∈ more, m.start? = none) ∧
      s'.logins.map LoginCall.who = s.logins.map LoginCall.who := by
  have hquiet : ∃ more, s.toGate = s.toGate ++ more ∧ ∀ m ∈ more, m.start? = none :=
    ⟨[], by simp, by simp⟩
  cases l with
  | accept => exact absurd rfl haccept
  | deliver k => exact absurd rfl (hdeliver k)
  | read connid msg | hangUp connid =>
    simp only [step] at hstep
    split_ifs at hstep
    obtain rfl := Option.some.inj hstep
    exact ⟨Gate.SameNodes.refl _, ⟨_, rfl, by simp [Inbound.start?]⟩, rfl⟩
  | notify src n =>
    obtain rfl := Option.some.inj hstep
    exact ⟨Gate.SameNodes.refl _, ⟨_, rfl, by simp [Inbound.start?]⟩, rfl⟩
  | worldLogin i =>
    obtain ⟨call, hget, -, rfl⟩ := worldLogin_eq_some_iff.mp hstep
    refine ⟨Gate.SameNodes.refl _, ⟨_, rfl, fun m hm ↦ ?_⟩, map_who_set hget _⟩
    obtain ⟨n, -, rfl⟩ := List.mem_map.mp hm
    rfl
  | worldFail i =>
    obtain ⟨call, hget, -, rfl⟩ := worldFail_eq_some_iff.mp hstep
    exact ⟨Gate.SameNodes.refl _, hquiet, map_who_set hget _⟩
  | answer i =>
    obtain ⟨call, rsp, gate, sent, phase, hget, -, hanswer, rfl⟩ := answer_eq_some_iff.mp hstep
    exact ⟨(Gate.coLoginAnswered_spec hanswer).1, hquiet, map_who_set hget _⟩
  | gameAdd i =>
    obtain ⟨call, hget, -, rfl⟩ := gameAdd_eq_some_iff.mp hstep
    exact ⟨Gate.SameNodes.refl _, hquiet, map_who_set hget _⟩
  | gameFail i =>
    obtain ⟨call, hget, -, rfl⟩ := gameFail_eq_some_iff.mp hstep
    exact ⟨Gate.SameNodes.refl _, hquiet, map_who_set hget _⟩
  | worldClose k =>
    obtain ⟨connid, -, rfl⟩ := worldClose_eq_some_iff.mp hstep
    exact ⟨Gate.SameNodes.refl _, hquiet, rfl⟩
  | gameClose k =>
    obtain ⟨connid, -, rfl⟩ := gameClose_eq_some_iff.mp hstep
    exact ⟨Gate.SameNodes.refl _, hquiet, rfl⟩

theorem starts_append {more : List Inbound} (htoGate : s'.toGate = s.toGate ++ more)
    (hmore : ∀ m ∈ more, m.start? = none) : s'.starts = s.starts := by
  rw [starts, htoGate, List.filterMap_append, List.filterMap_eq_nil_iff.mpr hmore,
    List.append_nil, starts]

theorem starts_react (ids : Ids) {m : Inbound} (hget : s.toGate[k]? = some m) :
    (m.start?.toList ++ (s.react ids k m).starts).Perm s.starts := by
  obtain ⟨hk, rfl⟩ := List.getElem?_eq_some_iff.mp hget
  have hperm := (List.getElem_cons_eraseIdx_perm hk).filterMap Inbound.start?
  rw [List.filterMap_cons] at hperm
  cases hstart : Inbound.start? s.toGate[k] <;> simpa [hstart, starts, react] using hperm

end Frame

/-! ## Connection ids -/

/-- A connection that the gate has yet to hear of is new to it, and the counter is past the ids of
all connections. -/
structure Fresh (s : Server) : Prop where
  nodup : s.starts.Nodup
  player : ∀ c ∈ s.starts, s.gate.players.lookup c = none
  call : ∀ c ∈ s.starts, ∀ call ∈ s.logins, call.connid ≠ c
  startIssued : ∀ c ∈ s.starts, c.toNat ≤ s.gate.connAlloc.toNat
  playerIssued : ∀ c node, s.gate.players.lookup c = some node →
    c.toNat ≤ s.gate.connAlloc.toNat
  callIssued : ∀ call ∈ s.logins, call.connid.toNat ≤ s.gate.connAlloc.toNat

theorem fresh_init : Fresh {} where
  nodup := List.nodup_nil
  player := by simp [starts]
  call := by simp
  startIssued := by simp [starts]
  playerIssued := fun c node h ↦ absurd h (by simp [AList.lookup_empty])
  callIssued := by simp

section Fresh

variable {ids : Ids} {s s' : Server} {i k : ℕ}

theorem toNat_add_one {a : UInt64} (h : a + 1 ≠ 0) : (a + 1).toNat = a.toNat + 1 := by
  have hlt := a.toNat_lt
  have hone : (1 : UInt64).toNat = 1 := rfl
  have hne : (a + 1).toNat ≠ 0 := fun h0 ↦ h (UInt64.toNat_inj.mp h0)
  rw [UInt64.toNat_add, hone] at hne ⊢
  omega

theorem Fresh.accept (h : s.Fresh) (hcounts : s.gate.connAlloc + 1 ≠ 0)
    (hstep : s.step ids .accept = some s') : s'.Fresh ∧
      s'.gate = { s.gate with connAlloc := s.gate.connAlloc + 1 } ∧ s'.logins = s.logins ∧
      s'.starts = s.starts ++ [s.gate.connAlloc + 1] := by
  obtain rfl := (accept_eq_some_iff hcounts).mp hstep
  have hsucc := toNat_add_one hcounts
  refine ⟨?_, rfl, rfl, by simp [starts, Inbound.start?]⟩
  constructor
  · simp only [starts, List.filterMap_append]
    refine List.nodup_append.mpr ⟨h.nodup, List.nodup_singleton _, fun c hc c' hc' ↦ ?_⟩
    rintro rfl
    have hle := h.startIssued c hc
    rw [List.mem_singleton.mp hc'] at hle
    omega
  all_goals simp only [starts, List.filterMap_append, List.mem_append]
  · rintro c (hc | hc)
    · exact h.player c hc
    · cases hget : s.gate.players.lookup c with
      | none => rfl
      | some node =>
        have hle := h.playerIssued c node hget
        rw [List.mem_singleton.mp hc] at hle
        omega
  · rintro c (hc | hc) call hcall
    · exact h.call c hc call hcall
    · rintro rfl
      have hle := h.callIssued call hcall
      rw [List.mem_singleton.mp hc] at hle
      omega
  · rintro c (hc | hc)
    · exact (h.startIssued c hc).trans (by omega)
    · rw [List.mem_singleton.mp hc]
  · exact fun c node hget ↦ (h.playerIssued c node hget).trans (by omega)
  · exact fun call hcall ↦ (h.callIssued call hcall).trans (by omega)

theorem lookup_onConnStart {g : Gate} {src : UInt32} {connid c : UInt64} (hc : c ≠ connid) :
    (g.onConnStart src connid).players.lookup c = g.players.lookup c := by
  rw [Gate.onConnStart]
  cases g.players.lookup connid with
  | none => exact AList.lookup_insert_ne hc
  | some node => exact AList.lookup_insert_ne hc

theorem connAlloc_onConnStart {g : Gate} {src : UInt32} {connid : UInt64} :
    (g.onConnStart src connid).connAlloc = g.connAlloc := by
  rw [Gate.onConnStart]
  cases g.players.lookup connid <;> rfl

theorem lookup_onConnStop {g : Gate} {connid c : UInt64} :
    (g.onConnStop connid).players.lookup c =
      if c = connid then none else g.players.lookup c := by
  rw [Gate.onConnStop]
  split_ifs with hc
  · rw [hc, AList.lookup_erase]
  · rw [AList.lookup_erase_ne hc]

theorem Fresh.start (h : s.Fresh) {src : UInt32} {connid : UInt64}
    (hget : s.toGate[k]? = some (.wsStart src connid)) :
    (s.react ids k (.wsStart src connid)).Fresh ∧
      connid ∉ (s.react ids k (.wsStart src connid)).starts := by
  have hperm := starts_react ids hget
  have hnodup := hperm.nodup_iff.mpr h.nodup
  simp only [Inbound.start?, Option.toList_some, List.singleton_append] at hperm hnodup
  obtain ⟨hnew, hnodup⟩ := List.nodup_cons.mp hnodup
  have hold (c : UInt64) (hc : c ∈ (s.react ids k (.wsStart src connid)).starts) :
      c ∈ s.starts ∧ c ≠ connid :=
    ⟨hperm.subset (List.mem_cons_of_mem _ hc), fun heq ↦ hnew (heq ▸ hc)⟩
  have hlogins : (s.react ids k (.wsStart src connid)).logins = s.logins := List.append_nil _
  have hgate : (s.react ids k (.wsStart src connid)).gate = s.gate.onConnStart src connid := rfl
  refine ⟨⟨hnodup, fun c hc ↦ ?_, ?_, fun c hc ↦ ?_, fun c node hc ↦ ?_, ?_⟩, hnew⟩
  · rw [hgate, lookup_onConnStart (hold c hc).2]
    exact h.player c (hold c hc).1
  · rw [hlogins]
    exact fun c hc ↦ h.call c (hold c hc).1
  · rw [hgate, connAlloc_onConnStart]
    exact h.startIssued c (hold c hc).1
  · rw [hgate] at hc
    rw [hgate, connAlloc_onConnStart]
    by_cases heq : c = connid
    · rw [heq]
      exact h.startIssued connid (hperm.subset List.mem_cons_self)
    · rw [lookup_onConnStart heq] at hc
      exact h.playerIssued c node hc
  · rw [hlogins, hgate, connAlloc_onConnStart]
    exact h.callIssued

theorem Fresh.stop (h : s.Fresh) {connid : UInt64}
    (hget : s.toGate[k]? = some (.wsStop connid)) :
    (s.react ids k (.wsStop connid)).Fresh := by
  have hperm := starts_react ids hget
  simp only [Inbound.start?, Option.toList_none, List.nil_append] at hperm
  have hlogins : (s.react ids k (.wsStop connid)).logins = s.logins := List.append_nil _
  have hgate : (s.react ids k (.wsStop connid)).gate = s.gate.onConnStop connid := rfl
  refine ⟨hperm.nodup_iff.mpr h.nodup, fun c hc ↦ ?_, ?_, fun c hc ↦ ?_, fun c node hc ↦ ?_, ?_⟩
  · rw [hgate, lookup_onConnStop]
    split_ifs
    · rfl
    · exact h.player c (hperm.subset hc)
  · rw [hlogins]
    exact fun c hc ↦ h.call c (hperm.subset hc)
  · exact h.startIssued c (hperm.subset hc)
  · rw [hgate, lookup_onConnStop] at hc
    split_ifs at hc
    exact h.playerIssued c node hc
  · rw [hlogins]
    exact h.callIssued

theorem Fresh.react (h : s.Fresh) {m : Inbound} (hget : s.toGate[k]? = some m) :
    (s.react ids k m).Fresh := by
  by_cases hstart : ∃ src c, m = .wsStart src c
  · obtain ⟨src, c, rfl⟩ := hstart
    exact (h.start hget).1
  by_cases hstop : ∃ c, m = .wsStop c
  · obtain ⟨c, rfl⟩ := hstop
    exact h.stop hget
  simp only [not_exists] at hstart hstop
  obtain ⟨hsame, -, hcall⟩ := Gate.onMsg_spec s.gate ids m hstart hstop
  have hperm := starts_react ids hget
  have hnone : m.start? = none := by
    cases m with
    | wsStart src c => exact absurd rfl (hstart src c)
    | wsMsg | wsStop | notice => rfl
  rw [hnone, Option.toList_none, List.nil_append] at hperm
  have hlogins (call : LoginCall) (hmem : call ∈ (s.react ids k m).logins) :
      call ∈ s.logins ∨ ∃ node, s.gate.players.lookup call.connid = some node := by
    refine (List.mem_append.mp hmem).imp_right fun hnew ↦ ?_
    obtain ⟨-, node, -, hnode, -⟩ := hcall call (Option.mem_toList.mp hnew)
    exact ⟨node, hnode⟩
  have hgate : (s.react ids k m).gate = (s.gate.onMsg ids m).gate := rfl
  refine ⟨hperm.nodup_iff.mpr h.nodup, fun c hc ↦ ?_, fun c hc call hmem ↦ ?_, fun c hc ↦ ?_,
    fun c node hc ↦ ?_, fun call hmem ↦ ?_⟩
  · exact hsame.none c (h.player c (hperm.subset hc))
  · rcases hlogins call hmem with hold | ⟨node, hnode⟩
    · exact h.call c (hperm.subset hc) call hold
    · rintro rfl
      exact absurd ((h.player _ (hperm.subset hc)).symm.trans hnode) (by simp)
  · rw [hgate, hsame.connAlloc]
    exact h.startIssued c (hperm.subset hc)
  · obtain ⟨node', hc', -⟩ := hsame.lookup_of_some hc
    rw [hgate, hsame.connAlloc]
    exact h.playerIssued c node' hc'
  · rw [hgate, hsame.connAlloc]
    rcases hlogins call hmem with hold | ⟨node, hnode⟩
    · exact h.callIssued call hold
    · exact h.playerIssued _ node hnode

theorem fresh_step (s : Server) (l : Label) (s' : Server) (h : s.Fresh) (hcounts : s.Counts l)
    (hstep : s.step ids l = some s') : s'.Fresh := by
  by_cases haccept : l = .accept
  · subst haccept
    exact (h.accept hcounts hstep).1
  by_cases hdeliver : ∃ k, l = .deliver k
  · obtain ⟨k, rfl⟩ := hdeliver
    obtain ⟨m, hget, rfl⟩ := deliver_eq_some_iff.mp hstep
    exact h.react hget
  obtain ⟨hsame, ⟨more, htoGate, hmore⟩, hwho⟩ :=
    step_frame hstep haccept (not_exists.mp hdeliver)
  have hstarts := starts_append htoGate hmore
  have hcalls (call : LoginCall) (hmem : call ∈ s'.logins) :
      ∃ call' ∈ s.logins, call'.connid = call.connid := by
    have hmap := hwho ▸ List.mem_map_of_mem (f := LoginCall.who) hmem
    obtain ⟨call', hmem', heq⟩ := List.mem_map.mp hmap
    exact ⟨call', hmem', congrArg Prod.fst heq⟩
  refine ⟨hstarts ▸ h.nodup, fun c hc ↦ ?_, fun c hc call hmem ↦ ?_, fun c hc ↦ ?_,
    fun c node hc ↦ ?_, fun call hmem ↦ ?_⟩
  · exact hsame.none c (h.player c (hstarts ▸ hc))
  · obtain ⟨call', hmem', heq⟩ := hcalls call hmem
    exact heq ▸ h.call c (hstarts ▸ hc) call' hmem'
  · rw [hsame.connAlloc]
    exact h.startIssued c (hstarts ▸ hc)
  · obtain ⟨node', hc', -⟩ := hsame.lookup_of_some hc
    rw [hsame.connAlloc]
    exact h.playerIssued c node' hc'
  · obtain ⟨call', hmem', heq⟩ := hcalls call hmem
    rw [hsame.connAlloc, ← heq]
    exact h.callIssued call' hmem'

end Fresh

end Server

end Cqy.Demo
