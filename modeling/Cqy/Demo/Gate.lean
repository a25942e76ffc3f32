import Mathlib

/-!
# The gate of the game server

`gate_t` keeps a player for every connection that `ws_server` has announced, numbers what it sends
to a client, and passes a client's login on to the world and then to the game.  Here is what each of
its handlers does between two awaits.  `co_login` holds a reference to a player over the call of the
world; to tell whether it is still good, a node of the hash map has an address that no other node
ever has.
-/

namespace Cqy.Demo

/-- `gate_t::player`, with `from` as `src`. -/
structure Player where
  login : Bool := false
  src : UInt32
  connid : UInt64
  sendSign : UInt32 := 0
  recvSign : UInt32 := 0
deriving DecidableEq

/-- A node of `gate_t::players`. -/
structure Node where
  addr : ℕ
  player : Player
deriving DecidableEq

/-- `game_def::MsgLogin` without its head. -/
structure MsgLogin where
  name : String
  pwd : String
  uVer : UInt32
deriving DecidableEq

/-- `game_def::MsgLoginResponce::Error`. -/
inductive LoginError
  | ok
  | busy
  | pwdErr
  | nameErr
  | verionErr
deriving DecidableEq

/-- `game_def::MsgLoginResponce` without its head. -/
structure MsgLoginResponce where
  result : LoginError := .ok
  tip : String := ""
deriving DecidableEq

/-- What the world and the game give the gate to send on. -/
inductive Payload
  /-- `game_def::MsgOnline`. -/
  | online (u16count : UInt16) (vecPlayerNickName : List String)
  | bytes (data : List UInt8)
deriving DecidableEq

/-- What `write_rsp` packs, without the head that it numbers. -/
inductive Packet
  | loginResponce (rsp : MsgLoginResponce)
  | fromWorld (vecByte : Payload)
  | fromGame (vecByte : Payload)
deriving DecidableEq

/-- What `msg_code_t` makes of a client's message. -/
inductive ClientMsg
  /-- `unpack` or `head` throws. -/
  | malformed
  /-- The head says `Login` and has number `sn`; `as<MsgLogin>` throws when there is no body. -/
  | login (sn : UInt32) (body : Option MsgLogin)
  | other
deriving DecidableEq

/-- What the gate dispatches to `ws_server`. -/
inductive Sent
  | write (dst : UInt32) (connid : UInt64) (sn : UInt32) (packet : Packet)
  | close (dst : UInt32) (connid : UInt64)
deriving DecidableEq

/-- What the world and the game dispatch to the gate. -/
inductive Notice
  | write (connid : UInt64) (data : Payload)
  | broad (data : Payload)
  | close (connid : UInt64)
deriving DecidableEq

inductive Inbound
  | wsStart (src : UInt32) (connid : UInt64)
  | wsMsg (connid : UInt64) (msg : ClientMsg)
  | wsStop (connid : UInt64)
  | notice (src : UInt32) (n : Notice)
deriving DecidableEq

/-- Where `co_login` stands after it has called the world. -/
inductive LoginPhase
  | asking
  /-- The reply is on its way; `r.as` throws when there is none. -/
  | answered (rsp : Option MsgLoginResponce)
  /-- It has called the game. -/
  | adding
  | failed
  | finished
deriving DecidableEq

/-- A run of `co_login` that has called the world, with the address of its player. -/
structure LoginCall where
  connid : UInt64
  addr : ℕ
  login : MsgLogin
  phase : LoginPhase := .asking
deriving DecidableEq

/-- The ids of the contexts. -/
structure Ids where
  wsServer : UInt32
  world : UInt32
  game : UInt32
deriving DecidableEq

structure Gate where
  connAlloc : UInt64 := 0
  players : AList fun _ : UInt64 ↦ Node := ∅
  nextAddr : ℕ := 0
deriving DecidableEq

/-- What a handler does until it returns or waits. -/
structure Reaction where
  gate : Gate
  sent : List Sent := []
  call : Option LoginCall := none
  /-- The connection whose end is dispatched to the world and to the game. -/
  stopped : Option UInt64 := none
deriving DecidableEq

namespace Gate

def nVerMax : UInt32 := 8

def nVerMin : UInt32 := 0

/-- `gate_t::rpc_get_allocid`. -/
def rpcGetAllocid (g : Gate) : UInt64 × Gate :=
  (g.connAlloc + 1, { g with connAlloc := g.connAlloc + 1 })

def setPlayer (g : Gate) (connid : UInt64) (node : Node) : Gate :=
  { g with players := g.players.insert connid node }

/-- `gate_t::write_rsp`. -/
def writeRsp (g : Gate) (connid : UInt64) (packet : Packet) : Gate × List Sent :=
  match g.players.lookup connid with
  | none => (g, [])
  | some node =>
    let p := { node.player with recvSign := node.player.recvSign + 1 }
    (g.setPlayer connid { node with player := p }, [.write p.src connid p.recvSign packet])

/-- `gate_t::close_con`. -/
def closeCon (g : Gate) (connid : UInt64) : List Sent :=
  ((g.players.lookup connid).map fun node ↦ .close node.player.src connid).toList

/-- `gate_t::on_conn_start`: an assignment to `players[connid]`. -/
def onConnStart (g : Gate) (src : UInt32) (connid : UInt64) : Gate :=
  match g.players.lookup connid with
  | some node => g.setPlayer connid { node with player := { src := src, connid := connid } }
  | none =>
    { g.setPlayer connid ⟨g.nextAddr, { src := src, connid := connid }⟩ with
      nextAddr := g.nextAddr + 1 }

/-- `gate_t::on_conn_stop`: a player that `players[connid]` makes is erased at once. -/
def onConnStop (g : Gate) (connid : UInt64) : Gate := { g with players := g.players.erase connid }

/-- `gate_t::co_login` up to the call of the world, inside the `try` of `on_conn_msg`. -/
def coLogin (g : Gate) (connid : UInt64) (sn : UInt32) (body : Option MsgLogin) : Reaction :=
  match g.players.lookup connid with
  -- `players.at` throws
  | none => { gate := g, sent := g.closeCon connid }
  | some node =>
    if node.player.login then
      let (g, sent) := g.writeRsp connid (.loginResponce {})
      { gate := g, sent := sent }
    else
      let p := { node.player with sendSign := node.player.sendSign + 1 }
      let g := g.setPlayer connid { node with player := p }
      if p.sendSign ≠ sn then { gate := g, sent := g.closeCon connid }
      else
        match body with
        | none => { gate := g, sent := g.closeCon connid }
        | some login =>
          if login.uVer < nVerMin || login.uVer > nVerMax then
            let (g, sent) := g.writeRsp connid (.loginResponce { result := .verionErr })
            { gate := g, sent := sent ++ g.closeCon connid }
          else { gate := g, call := some { connid := connid, addr := node.addr, login := login } }

/-- `gate_t::on_conn_msg`; what becomes of `on_client` is not looked at. -/
def onConnMsg (g : Gate) (connid : UInt64) : ClientMsg → Reaction
  | .malformed => { gate := g, sent := g.closeCon connid }
  | .login sn body => g.coLogin connid sn body
  | .other => { gate := g }

/-- The packet that the text of a context is wrapped in. -/
def wrap (ids : Ids) (src : UInt32) (data : Payload) : Option Packet :=
  if src = ids.world then some (.fromWorld data)
  else if src = ids.game then some (.fromGame data)
  else none

/-- `write_rsp` to each of the connections in turn. -/
def writeAll (packet : Packet) : List UInt64 → Gate → Gate × List Sent
  | [], g => (g, [])
  | connid :: rest, g =>
    let (g, sent) := g.writeRsp connid packet
    let (g, more) := writeAll packet rest g
    (g, sent ++ more)

/-- `gate_t::on_msg` with what it starts; a message of type `close` has no branch. -/
def onMsg (ids : Ids) (g : Gate) : Inbound → Reaction
  | .wsStart src connid => { gate := g.onConnStart src connid }
  | .wsMsg connid msg => g.onConnMsg connid msg
  | .wsStop connid => { gate := g.onConnStop connid, stopped := some connid }
  | .notice src (.write connid data) =>
    match wrap ids src data with
    | some packet =>
      let (g, sent) := g.writeRsp connid packet
      { gate := g, sent := sent }
    | none => { gate := g }
  | .notice src (.broad data) =>
    match wrap ids src data with
    | some packet =>
      let (g, sent) := writeAll packet g.players.keys g
      { gate := g, sent := sent }
    | none => { gate := g }
  | .notice _ (.close _) => { gate := g }

/-- `gate_t::co_login` after the call of the world: `none` when the player that the reference names
has been erased. -/
def coLoginAnswered (g : Gate) (call : LoginCall) :
    Option MsgLoginResponce → Option (Gate × List Sent × LoginPhase)
  | none => some (g, g.closeCon call.connid, .failed)
  | some rsp =>
    let (g, sent) := g.writeRsp call.connid (.loginResponce rsp)
    if rsp.result = .ok then
      match g.players.lookup call.connid with
      | some node =>
        if node.addr = call.addr then
          let p := { node.player with login := true }
          some (g.setPlayer call.connid { node with player := p }, sent, .adding)
        else none
      | none => none
    else some (g, sent ++ g.closeCon call.connid, .failed)

/-! ## What a handler leaves of the players -/

section Lookup

variable {g : Gate} {c connid : UInt64} {node : Node} {packet : Packet} {ids : Ids}

@[simp] theorem lookup_setPlayer : (g.setPlayer connid node).players.lookup c =
    if c = connid then some node else g.players.lookup c := by
  rw [setPlayer]
  split_ifs with hc
  · rw [hc, AList.lookup_insert]
  · rw [AList.lookup_insert_ne hc]

@[simp] theorem connAlloc_setPlayer : (g.setPlayer connid node).connAlloc = g.connAlloc := rfl

@[simp] theorem nextAddr_setPlayer : (g.setPlayer connid node).nextAddr = g.nextAddr := rfl

/-- The same node, and who has logged in stays so. -/
def Kept (node node' : Node) : Prop :=
  node'.addr = node.addr ∧ node'.player.src = node.player.src ∧
    (node.player.login = true → node'.player.login = true)

theorem Kept.refl (node : Node) : Kept node node := ⟨rfl, rfl, id⟩

theorem Kept.trans {node node' node'' : Node} (h : Kept node node') (h' : Kept node' node'') :
    Kept node node'' :=
  ⟨h'.1.trans h.1, h'.2.1.trans h.2.1, h'.2.2 ∘ h.2.2⟩

/-- The same nodes at the same connections. -/
structure SameNodes (g g' : Gate) : Prop where
  connAlloc : g'.connAlloc = g.connAlloc
  nextAddr : g'.nextAddr = g.nextAddr
  kept : ∀ c node, g.players.lookup c = some node →
    ∃ node', g'.players.lookup c = some node' ∧ Kept node node'
  none : ∀ c, g.players.lookup c = none → g'.players.lookup c = none

theorem SameNodes.refl (g : Gate) : SameNodes g g :=
  ⟨rfl, rfl, fun _ node h ↦ ⟨node, h, Kept.refl node⟩, fun _ h ↦ h⟩

theorem SameNodes.trans {g' g'' : Gate} (h : SameNodes g g') (h' : SameNodes g' g'') :
    SameNodes g g'' where
  connAlloc := h'.connAlloc.trans h.connAlloc
  nextAddr := h'.nextAddr.trans h.nextAddr
  kept := fun c node hc ↦ by
    obtain ⟨node', hc', hkept⟩ := h.kept c node hc
    obtain ⟨node'', hc'', hkept'⟩ := h'.kept c node' hc'
    exact ⟨node'', hc'', hkept.trans hkept'⟩
  none := fun c hc ↦ h'.none c (h.none c hc)

/-- A node of the one is a node of the other. -/
theorem SameNodes.lookup_of_some {g' : Gate} (h : SameNodes g g') {node' : Node}
    (hc : g'.players.lookup c = some node') :
    ∃ node, g.players.lookup c = some node ∧ Kept node node' := by
  cases hold : g.players.lookup c with
  | none => exact absurd ((h.none c hold).symm.trans hc) (by simp)
  | some node =>
    obtain ⟨node'', hc'', hkept⟩ := h.kept c node hold
    rw [hc, Option.some_inj] at hc''
    exact ⟨node, rfl, hc'' ▸ hkept⟩

/-- A player that is there is changed. -/
theorem sameNodes_setPlayer {node' : Node} (hget : g.players.lookup connid = some node)
    (hkept : Kept node node') : SameNodes g (g.setPlayer connid node') where
  connAlloc := rfl
  nextAddr := rfl
  kept := fun c old hc ↦ by
    rw [lookup_setPlayer]
    split_ifs with heq
    · rw [heq, hget, Option.some_inj] at hc
      exact ⟨node', rfl, hc ▸ hkept⟩
    · exact ⟨old, hc, Kept.refl old⟩
  none := fun c hc ↦ by
    have hne : c ≠ connid := by
      rintro rfl
      exact absurd (hc.symm.trans hget) (by simp)
    rw [lookup_setPlayer, if_neg hne]
    exact hc

theorem sameNodes_writeRsp : SameNodes g (g.writeRsp connid packet).1 := by
  rw [writeRsp]
  cases hget : g.players.lookup connid with
  | none => exact SameNodes.refl g
  | some node => exact sameNodes_setPlayer hget ⟨rfl, rfl, id⟩

theorem sameNodes_writeAll (connids : List UInt64) :
    SameNodes g (writeAll packet connids g).1 := by
  induction connids generalizing g with
  | nil => exact SameNodes.refl g
  | cons connid rest ih => exact sameNodes_writeRsp.trans ih

/-- What `co_login` does before the call of the world: it changes no nodes, and it calls the world
only for a player that is there, has not logged in, and sent the right number. -/
theorem coLogin_spec (g : Gate) (connid : UInt64) (sn : UInt32) (body : Option MsgLogin) :
    SameNodes g (g.coLogin connid sn body).gate ∧ (g.coLogin connid sn body).stopped = none ∧
    ∀ call, (g.coLogin connid sn body).call = some call →
      call.connid = connid ∧ call.phase = .asking ∧ body = some call.login ∧
        ∃ node, g.players.lookup connid = some node ∧ call.addr = node.addr ∧
          node.player.login = false ∧ sn = node.player.sendSign + 1 := by
  rw [coLogin]
  cases hget : g.players.lookup connid with
  | none => exact ⟨SameNodes.refl g, rfl, by simp⟩
  | some node =>
    dsimp only
    have hsame : SameNodes g (g.setPlayer connid
        { node with player := { node.player with sendSign := node.player.sendSign + 1 } }) :=
      sameNodes_setPlayer hget ⟨rfl, rfl, id⟩
    split_ifs with hlogin hsn
    · exact ⟨sameNodes_writeRsp, rfl, by simp⟩
    · exact ⟨hsame, rfl, by simp⟩
    · cases body with
      | none => exact ⟨hsame, rfl, by simp⟩
      | some login =>
        dsimp only
        split_ifs with hver
        · exact ⟨hsame.trans sameNodes_writeRsp, rfl, by simp⟩
        · refine ⟨hsame, rfl, fun call hcall ↦ ?_⟩
          obtain rfl := Option.some.inj hcall
          exact ⟨rfl, rfl, rfl, node, rfl, rfl, by simpa using hlogin, (not_not.mp hsn).symm⟩

/-- A handler that neither starts nor ends a connection changes no nodes; it calls the world only
for a login. -/
theorem onMsg_spec (g : Gate) (ids : Ids) (m : Inbound) (hstart : ∀ src c, m ≠ .wsStart src c)
    (hstop : ∀ c, m ≠ .wsStop c) :
    SameNodes g (g.onMsg ids m).gate ∧ (g.onMsg ids m).stopped = none ∧
    ∀ call, (g.onMsg ids m).call = some call → call.phase = .asking ∧
      ∃ node, m = .wsMsg call.connid (.login (node.player.sendSign + 1) (some call.login)) ∧
        g.players.lookup call.connid = some node ∧ call.addr = node.addr ∧
        node.player.login = false := by
  cases m with
  | wsStart src c => exact absurd rfl (hstart src c)
  | wsStop c => exact absurd rfl (hstop c)
  | wsMsg c msg =>
    cases msg with
    | malformed | other => exact ⟨SameNodes.refl g, rfl, by simp [onMsg, onConnMsg]⟩
    | login sn body =>
      obtain ⟨hsame, hstopped, hcall⟩ := coLogin_spec g c sn body
      refine ⟨hsame, hstopped, fun call hc ↦ ?_⟩
      obtain ⟨rfl, hphase, rfl, node, hget, haddr, hlogin, rfl⟩ := hcall call hc
      exact ⟨hphase, node, rfl, hget, haddr, hlogin⟩
  | notice src n =>
    cases n with
    | write c data =>
      rw [onMsg]
      cases wrap ids src data with
      | none => exact ⟨SameNodes.refl g, rfl, by simp⟩
      | some packet => exact ⟨sameNodes_writeRsp, rfl, by simp⟩
    | broad data =>
      rw [onMsg]
      cases wrap ids src data with
      | none => exact ⟨SameNodes.refl g, rfl, by simp⟩
      | some packet => exact ⟨sameNodes_writeAll _, rfl, by simp⟩
    | close c => exact ⟨SameNodes.refl g, rfl, by simp [onMsg]⟩

/-- After the call of the world: no nodes change, and a run of `co_login` that goes on has marked
its player. -/
theorem coLoginAnswered_spec {call : LoginCall} {rsp : Option MsgLoginResponce} {g' : Gate}
    {sent : List Sent} {phase : LoginPhase}
    (h : g.coLoginAnswered call rsp = some (g', sent, phase)) : SameNodes g g' ∧
      (phase = .failed ∨ phase = .adding ∧ ∃ node, g'.players.lookup call.connid = some node ∧
        node.addr = call.addr ∧ node.player.login = true) := by
  cases rsp with
  | none =>
    obtain ⟨rfl, -, rfl⟩ := h
    exact ⟨SameNodes.refl g, Or.inl rfl⟩
  | some rsp =>
    have hwrite : SameNodes g (g.writeRsp call.connid (.loginResponce rsp)).1 := sameNodes_writeRsp
    simp only [coLoginAnswered] at h
    split_ifs at h with hok
    · split at h
      · next node hget =>
        split_ifs at h with haddr
        simp only [Option.some.injEq, Prod.mk.injEq] at h
        obtain ⟨rfl, -, rfl⟩ := h
        refine ⟨hwrite.trans (sameNodes_setPlayer hget ⟨rfl, rfl, fun _ ↦ rfl⟩), Or.inr ⟨rfl, ?_⟩⟩
        exact ⟨{ node with player := { node.player with login := true } },
          by rw [lookup_setPlayer, if_pos rfl], haddr, rfl⟩
      · exact absurd h (by simp)
    · simp only [Option.some.injEq, Prod.mk.injEq] at h
      obtain ⟨rfl, -, rfl⟩ := h
      exact ⟨hwrite, Or.inl rfl⟩

/-- The reference is good exactly when the player has not been erased. -/
theorem coLoginAnswered_isSome (g : Gate) (call : LoginCall) (rsp : Option MsgLoginResponce) :
    (g.coLoginAnswered call rsp).isSome = true ↔
      ((∃ r, rsp = some r ∧ r.result = .ok) →
        ∃ node, g.players.lookup call.connid = some node ∧ node.addr = call.addr) := by
  have hwrite : SameNodes g (g.writeRsp call.connid (.loginResponce (rsp.getD {}))).1 :=
    sameNodes_writeRsp
  cases rsp with
  | none => simp [coLoginAnswered]
  | some rsp =>
    simp only [coLoginAnswered, Option.getD_some] at hwrite ⊢
    by_cases hok : rsp.result = .ok
    · rw [if_pos hok]
      cases hget : g.players.lookup call.connid with
      | none => simp [hwrite.none _ hget, hok]
      | some node =>
        obtain ⟨node', hget', hkept⟩ := hwrite.kept _ node hget
        by_cases haddr : node.addr = call.addr <;> simp [hget', hkept.1, haddr, hok]
    · simp [hok]

end Lookup

end Gate

end Cqy.Demo
