import Cqy.Demo.Server

/-!
# The numbers of what a client is sent

The packets of the gate reach `ws_server` as messages, and each is written by a task of its own, so
a client needs the numbers to put them in order.  Replies to logins, broadcasts and packets of the
world and the game all count: whatever the interleaving, a connection is sent 1, 2, 3 and so on.
-/

namespace Cqy.Demo

open Foundation

def Sent.connid : Sent → UInt64
  | .write _ connid _ _ | .close _ connid => connid

def Sent.dst : Sent → UInt32
  | .write dst _ _ _ | .close dst _ => dst

/-- The number of a packet for `c`. -/
def Sent.number? (c : UInt64) : Sent → Option UInt32
  | .write _ connid sn _ => if connid = c then some sn else none
  | .close _ _ => none

/-- The numbers that `c` was sent. -/
def numbers (c : UInt64) (es : List Sent) : List UInt32 := es.filterMap (Sent.number? c)

/-- 1, 2, 3 and so on. -/
def countUp (n : ℕ) : List UInt32 := (List.range n).map fun i ↦ UInt32.ofNat (i + 1)

theorem countUp_succ (n : ℕ) : countUp (n + 1) = countUp n ++ [UInt32.ofNat (n + 1)] := by
  simp [countUp, List.range_succ]

theorem numbers_append (c : UInt64) (es es' : List Sent) :
    numbers c (es ++ es') = numbers c es ++ numbers c es' := List.filterMap_append

/-- Every connection was sent as many packets as its player says, numbered in sequence. -/
structure Numbered (es : List Sent) (g : Gate) : Prop where
  sequence : ∀ c, numbers c es = countUp (numbers c es).length
  player : ∀ c node, g.players.lookup c = some node →
    node.player.recvSign = UInt32.ofNat (numbers c es).length

/-- What is sent goes to a connection that has a player, by way of its `ws_server`. -/
def Directed (g : Gate) (es : List Sent) : Prop :=
  ∀ e ∈ es, ∃ node, g.players.lookup e.connid = some node ∧ e.dst = node.player.src

section Gate

variable {es es' : List Sent} {g g' : Gate} {c connid : UInt64} {node node' : Node} {packet : Packet}

theorem Directed.append (h : Directed g es) (h' : Directed g es') : Directed g (es ++ es') :=
  fun e he ↦ (List.mem_append.mp he).elim (h e) (h' e)

/-- Connections and their `ws_server` do not change. -/
theorem Directed.of_sameNodes (h : Directed g' es) (hsame : Gate.SameNodes g g') :
    Directed g es := by
  intro e he
  obtain ⟨node', hget, hdst⟩ := h e he
  obtain ⟨node, hget', hkept⟩ := hsame.lookup_of_some hget
  exact ⟨node, hget', hdst.trans hkept.2.1⟩

/-- What is sent to connections with a player leaves the others as they are. -/
theorem Directed.numbers_eq (h : Directed g es') (hnone : g.players.lookup c = none) :
    numbers c (es ++ es') = numbers c es := by
  have hnil : numbers c es' = [] := by
    refine List.filterMap_eq_nil_iff.mpr fun e he ↦ ?_
    obtain ⟨node, hget, -⟩ := h e he
    cases e with
    | write dst connid sn packet =>
      have hne : connid ≠ c := fun heq ↦ by
        change g.players.lookup connid = some node at hget
        rw [heq, hnone] at hget
        exact absurd hget (by simp)
      exact if_neg hne
    | close dst connid => rfl
  rw [numbers_append, hnil, List.append_nil]

theorem directed_writeRsp : Directed g (g.writeRsp connid packet).2 := by
  rw [Gate.writeRsp]
  cases hget : g.players.lookup connid with
  | none => simp [Directed]
  | some node =>
    intro e he
    rw [List.mem_singleton.mp he]
    exact ⟨node, hget, rfl⟩

theorem directed_closeCon : Directed g (g.closeCon connid) := by
  rw [Gate.closeCon]
  cases hget : g.players.lookup connid with
  | none => simp [Directed]
  | some node =>
    intro e he
    rw [List.mem_singleton.mp he]
    exact ⟨node, hget, rfl⟩

theorem numbers_closeCon : numbers c (g.closeCon connid) = [] := by
  rw [Gate.closeCon]
  cases g.players.lookup connid <;> rfl

theorem Numbered.closeCon (h : Numbered es g) : Numbered (es ++ g'.closeCon connid) g where
  sequence := fun c ↦ by
    rw [numbers_append, numbers_closeCon, List.append_nil]
    exact h.sequence c
  player := fun c node hget ↦ by
    rw [numbers_append, numbers_closeCon, List.append_nil]
    exact h.player c node hget

/-- Other fields of a player change. -/
theorem Numbered.setPlayer (h : Numbered es g) (hget : g.players.lookup connid = some node)
    (hrecv : node'.player.recvSign = node.player.recvSign) :
    Numbered es (g.setPlayer connid node') where
  sequence := h.sequence
  player := fun c new hc ↦ by
    rw [Gate.lookup_setPlayer] at hc
    split_ifs at hc with heq
    · obtain rfl := Option.some.inj hc
      rw [hrecv, heq]
      exact h.player connid node hget
    · exact h.player c new hc

theorem Numbered.writeRsp (h : Numbered es g) :
    Numbered (es ++ (g.writeRsp connid packet).2) (g.writeRsp connid packet).1 := by
  rw [Gate.writeRsp]
  cases hget : g.players.lookup connid with
  | none =>
    rw [List.append_nil]
    exact h
  | some node =>
    have hrecv : node.player.recvSign + 1 = UInt32.ofNat ((numbers connid es).length + 1) := by
      rw [h.player connid node hget, UInt32.ofNat_add]
      rfl
    have hnumbers (c : UInt64) : numbers c (es ++ [.write node.player.src connid
        (node.player.recvSign + 1) packet]) = numbers c es ++
          if connid = c then [UInt32.ofNat ((numbers connid es).length + 1)] else [] := by
      rw [numbers_append, hrecv]
      refine congrArg _ ?_
      split_ifs with hc
      · exact List.filterMap_cons_some (by rw [Sent.number?, if_pos hc])
      · exact List.filterMap_cons_none (by rw [Sent.number?, if_neg hc])
    constructor
    · intro c
      dsimp only
      rw [hnumbers]
      split_ifs with hc
      · rw [hc, List.length_append, List.length_singleton, countUp_succ, ← h.sequence]
      · rw [List.append_nil]
        exact h.sequence c
    · intro c new hc
      dsimp only at hc ⊢
      rw [Gate.lookup_setPlayer] at hc
      rw [hnumbers]
      split_ifs at hc with heq
      · obtain rfl := Option.some.inj hc
        rw [if_pos heq.symm, List.length_append, List.length_singleton, heq, hrecv]
      · rw [if_neg (Ne.symm heq), List.append_nil]
        exact h.player c new hc

theorem directed_writeAll (connids : List UInt64) :
    Directed g (Gate.writeAll packet connids g).2 := by
  induction connids generalizing g with
  | nil => simp [Gate.writeAll, Directed]
  | cons connid rest ih =>
    exact directed_writeRsp.append (ih.of_sameNodes Gate.sameNodes_writeRsp)

theorem Numbered.writeAll (connids : List UInt64) (h : Numbered es g) :
    Numbered (es ++ (Gate.writeAll packet connids g).2) (Gate.writeAll packet connids g).1 := by
  induction connids generalizing es g with
  | nil =>
    rw [Gate.writeAll, List.append_nil]
    exact h
  | cons connid rest ih =>
    rw [Gate.writeAll]
    dsimp only
    rw [← List.append_assoc]
    exact ih h.writeRsp

theorem Numbered.coLogin (h : Numbered es g) (sn : UInt32) (body : Option MsgLogin) :
    Numbered (es ++ (g.coLogin connid sn body).sent) (g.coLogin connid sn body).gate ∧
      Directed g (g.coLogin connid sn body).sent := by
  rw [Gate.coLogin]
  cases hget : g.players.lookup connid with
  | none => exact ⟨h.closeCon, directed_closeCon⟩
  | some node =>
    dsimp only
    have hset : Numbered es (g.setPlayer connid
        { node with player := { node.player with sendSign := node.player.sendSign + 1 } }) :=
      h.setPlayer hget rfl
    have hsame : Gate.SameNodes g (g.setPlayer connid
        { node with player := { node.player with sendSign := node.player.sendSign + 1 } }) :=
      Gate.sameNodes_setPlayer hget ⟨rfl, rfl, id⟩
    split_ifs with hlogin hsn
    · exact ⟨h.writeRsp, directed_writeRsp⟩
    · exact ⟨hset.closeCon, directed_closeCon.of_sameNodes hsame⟩
    · cases body with
      | none => exact ⟨hset.closeCon, directed_closeCon.of_sameNodes hsame⟩
      | some login =>
        dsimp only
        split_ifs
        · rw [← List.append_assoc]
          exact ⟨hset.writeRsp.closeCon, (directed_writeRsp.append
            (directed_closeCon.of_sameNodes Gate.sameNodes_writeRsp)).of_sameNodes hsame⟩
        · rw [List.append_nil]
          exact ⟨hset, by simp [Directed]⟩

theorem Numbered.coLoginAnswered (h : Numbered es g) {call : LoginCall}
    {rsp : Option MsgLoginResponce} {sent : List Sent} {phase : LoginPhase}
    (hanswer : g.coLoginAnswered call rsp = some (g', sent, phase)) :
    Numbered (es ++ sent) g' ∧ Directed g sent := by
  cases rsp with
  | none =>
    obtain ⟨rfl, rfl, -⟩ := hanswer
    exact ⟨h.closeCon, directed_closeCon⟩
  | some rsp =>
    have hwrite : Numbered (es ++ (g.writeRsp call.connid (.loginResponce rsp)).2)
        (g.writeRsp call.connid (.loginResponce rsp)).1 := h.writeRsp
    simp only [Gate.coLoginAnswered] at hanswer
    split_ifs at hanswer
    · split at hanswer
      · next node hget =>
        split_ifs at hanswer
        simp only [Option.some.injEq, Prod.mk.injEq] at hanswer
        obtain ⟨rfl, rfl, -⟩ := hanswer
        exact ⟨hwrite.setPlayer hget rfl, directed_writeRsp⟩
      · exact absurd hanswer (by simp)
    · simp only [Option.some.injEq, Prod.mk.injEq] at hanswer
      obtain ⟨rfl, rfl, -⟩ := hanswer
      rw [← List.append_assoc]
      exact ⟨hwrite.closeCon, directed_writeRsp.append
        (directed_closeCon.of_sameNodes Gate.sameNodes_writeRsp)⟩

/-- Every handler keeps the numbers, provided that a connection that starts is new. -/
theorem Numbered.onMsg (h : Numbered es g) (ids : Ids) (m : Inbound)
    (hstart : ∀ src c, m = .wsStart src c → g.players.lookup c = none ∧ numbers c es = []) :
    Numbered (es ++ (g.onMsg ids m).sent) (g.onMsg ids m).gate ∧
      Directed g (g.onMsg ids m).sent := by
  have hnothing : Directed g [] := by simp [Directed]
  have hnil : Numbered (es ++ []) g := by
    rw [List.append_nil]
    exact h
  cases m with
  | wsStart src c =>
    obtain ⟨hnone, hempty⟩ := hstart src c rfl
    refine ⟨?_, hnothing⟩
    rw [Gate.onMsg, List.append_nil]
    refine ⟨h.sequence, fun c' new hc ↦ ?_⟩
    by_cases heq : c' = c
    · subst heq
      rw [hempty]
      simp only [Gate.onConnStart, hnone] at hc
      rw [Gate.lookup_setPlayer, if_pos rfl, Option.some_inj] at hc
      rw [← hc]
      rfl
    · exact h.player c' new (Server.lookup_onConnStart heq ▸ hc)
  | wsStop c =>
    refine ⟨?_, hnothing⟩
    rw [Gate.onMsg, List.append_nil]
    refine ⟨h.sequence, fun c' new hc ↦ h.player c' new ?_⟩
    rw [Server.lookup_onConnStop] at hc
    split_ifs at hc
    exact hc
  | wsMsg c msg =>
    cases msg with
    | malformed => exact ⟨h.closeCon, directed_closeCon⟩
    | other => exact ⟨hnil, hnothing⟩
    | login sn body => exact h.coLogin sn body
  | notice src n =>
    cases n with
    | write c data =>
      rw [Gate.onMsg]
      cases Gate.wrap ids src data with
      | none => exact ⟨hnil, hnothing⟩
      | some packet => exact ⟨h.writeRsp, directed_writeRsp⟩
    | broad data =>
      rw [Gate.onMsg]
      cases Gate.wrap ids src data with
      | none => exact ⟨hnil, hnothing⟩
      | some packet => exact ⟨h.writeAll _, directed_writeAll _⟩
    | close c => exact ⟨hnil, hnothing⟩

end Gate

namespace Server

/-- The numbers add up, and nothing was sent to a connection that the gate has yet to hear of. -/
structure Sequenced (ids : Ids) (es : List Sent) (s : Server) : Prop where
  fresh : s.Fresh
  numbered : Numbered es s.gate
  unsent : ∀ c ∈ s.starts, numbers c es = []
  issued : ∀ c, numbers c es ≠ [] → c.toNat ≤ s.gate.connAlloc.toNat
  sources : ∀ src c, .wsStart src c ∈ s.toGate → src = ids.wsServer
  players : ∀ c node, s.gate.players.lookup c = some node → node.player.src = ids.wsServer
  sent : ∀ e ∈ es, e.dst = ids.wsServer

section Run

variable {ids : Ids} {es more : List Sent} {s s' : Server}

theorem sequenced_init (ids : Ids) : Sequenced ids [] {} where
  fresh := fresh_init
  numbered := ⟨fun _ ↦ rfl, fun c node h ↦ absurd h (by simp [AList.lookup_empty])⟩
  unsent := by simp [starts]
  issued := fun c h ↦ absurd rfl h
  sources := by simp
  players := fun c node h ↦ absurd h (by simp [AList.lookup_empty])
  sent := by simp

/-- A step that sends to connections with a player, and makes no player but one for a connection
that was announced. -/
theorem Sequenced.extend (h : Sequenced ids es s) (hfresh : s'.Fresh)
    (hnumbered : Numbered (es ++ more) s'.gate) (hdirected : Directed s.gate more)
    (hstarts : ∀ c ∈ s'.starts, c ∈ s.starts)
    (hissued : s'.gate.connAlloc = s.gate.connAlloc)
    (hsources : ∀ m ∈ s'.toGate, m ∈ s.toGate ∨ m.start? = none)
    (hplayers : ∀ c node, s'.gate.players.lookup c = some node → node.player.src = ids.wsServer) :
    Sequenced ids (es ++ more) s' where
  fresh := hfresh
  numbered := hnumbered
  unsent := fun c hc ↦ by
    rw [hdirected.numbers_eq (h.fresh.player c (hstarts c hc))]
    exact h.unsent c (hstarts c hc)
  issued := fun c hne ↦ by
    rw [hissued]
    cases hget : s.gate.players.lookup c with
    | none =>
      rw [hdirected.numbers_eq hget] at hne
      exact h.issued c hne
    | some node => exact h.fresh.playerIssued c node hget
  sources := fun src c hm ↦ by
    rcases hsources _ hm with hold | hnone
    · exact h.sources src c hold
    · exact absurd hnone (by simp [Inbound.start?])
  players := hplayers
  sent := fun e he ↦ by
    rcases List.mem_append.mp he with he | he
    · exact h.sent e he
    · obtain ⟨node, hget, hdst⟩ := hdirected e he
      exact hdst.trans (h.players _ node hget)

theorem src_of_sameNodes {g g' : Gate} {dst : UInt32} (hsame : Gate.SameNodes g g')
    (h : ∀ c node, g.players.lookup c = some node → node.player.src = dst) (c : UInt64)
    (node : Node) (hget : g'.players.lookup c = some node) : node.player.src = dst := by
  obtain ⟨old, hold, hkept⟩ := hsame.lookup_of_some hget
  exact hkept.2.1.trans (h c old hold)

/-- A message is handled. -/
theorem Sequenced.react (h : Sequenced ids es s) {k : ℕ} {m : Inbound}
    (hget : s.toGate[k]? = some m) :
    Sequenced ids (es ++ (s.gate.onMsg ids m).sent) (s.react ids k m) := by
  have hperm := starts_react ids hget
  have hin : ∀ src c, m = .wsStart src c → c ∈ s.starts ∧ src = ids.wsServer := by
    rintro src c rfl
    exact ⟨List.mem_filterMap.mpr ⟨_, List.mem_of_getElem? hget, rfl⟩,
      h.sources src c (List.mem_of_getElem? hget)⟩
  obtain ⟨hnumbered, hdirected⟩ := h.numbered.onMsg ids m fun src c hm ↦
    ⟨h.fresh.player c (hin src c hm).1, h.unsent c (hin src c hm).1⟩
  have hgate : (s.react ids k m).gate = (s.gate.onMsg ids m).gate := rfl
  by_cases hstart : ∃ src c, m = .wsStart src c
  · obtain ⟨src, c, rfl⟩ := hstart
    refine h.extend (h.fresh.start hget).1 hnumbered hdirected
      (fun c hc ↦ hperm.subset (List.mem_append_right _ hc)) connAlloc_onConnStart
      (fun m hm ↦ Or.inl (List.mem_of_mem_eraseIdx hm)) fun c' node hc' ↦ ?_
    by_cases heq : c' = c
    · subst heq
      rw [hgate, Gate.onMsg, Gate.onConnStart, h.fresh.player c' (hin src c' rfl).1] at hc'
      rw [← (hin src c' rfl).2]
      dsimp only at hc'
      rw [Gate.lookup_setPlayer, if_pos rfl, Option.some_inj] at hc'
      rw [← hc']
    · rw [hgate, Gate.onMsg, lookup_onConnStart heq] at hc'
      exact h.players c' node hc'
  by_cases hstop : ∃ c, m = .wsStop c
  · obtain ⟨c, rfl⟩ := hstop
    refine h.extend (h.fresh.stop hget) hnumbered hdirected
      (fun c hc ↦ hperm.subset (List.mem_append_right _ hc)) rfl
      (fun m hm ↦ Or.inl (List.mem_of_mem_eraseIdx hm)) fun c' node hc' ↦ ?_
    rw [hgate, Gate.onMsg, lookup_onConnStop] at hc'
    split_ifs at hc'
    exact h.players c' node hc'
  simp only [not_exists] at hstart hstop
  obtain ⟨hsame, -, -⟩ := Gate.onMsg_spec s.gate ids m hstart hstop
  exact h.extend (h.fresh.react hget) hnumbered hdirected
    (fun c hc ↦ hperm.subset (List.mem_append_right _ hc)) hsame.connAlloc
    (fun m hm ↦ Or.inl (List.mem_of_mem_eraseIdx hm)) (src_of_sameNodes hsame h.players)

theorem Sequenced.accept (h : Sequenced ids es s) (hcounts : s.gate.connAlloc + 1 ≠ 0)
    (hstep : s.step ids .accept = some s') : Sequenced ids (es ++ []) s' := by
  obtain ⟨hfresh, hgate, -, hstarts⟩ := h.fresh.accept hcounts hstep
  obtain rfl := (accept_eq_some_iff hcounts).mp hstep
  have hsucc := toNat_add_one hcounts
  rw [List.append_nil]
  refine ⟨hfresh, ⟨h.numbered.sequence, h.numbered.player⟩, fun c hc ↦ ?_, fun c hne ↦ ?_,
    fun src c hm ↦ ?_, h.players, h.sent⟩
  · rw [hstarts, List.mem_append, List.mem_singleton] at hc
    rcases hc with hc | rfl
    · exact h.unsent c hc
    · by_contra hne
      have hle := h.issued _ hne
      omega
  · exact (h.issued c hne).trans (by rw [hgate, hsucc]; omega)
  · rcases List.mem_append.mp hm with hm | hm
    · exact h.sources src c hm
    · obtain ⟨rfl, -⟩ : src = ids.wsServer ∧ c = s.gate.connAlloc + 1 := by simpa using hm
      rfl

theorem emit_eq_nil {l : Label} (hdeliver : ∀ k, l ≠ .deliver k) (hanswer : ∀ i, l ≠ .answer i) :
    s.emit ids l = [] := by
  cases l with
  | deliver k => exact absurd rfl (hdeliver k)
  | answer i => exact absurd rfl (hanswer i)
  | accept | read | hangUp | notify | worldLogin | worldFail | gameAdd | gameFail | worldClose
  | gameClose => rfl

/-- The gate is where it was, or goes on with a login. -/
theorem gate_of_step {l : Label} (hstep : s.step ids l = some s') (haccept : l ≠ .accept)
    (hdeliver : ∀ k, l ≠ .deliver k) (hanswer : ∀ i, l ≠ .answer i) : s'.gate = s.gate := by
  cases l with
  | accept => exact absurd rfl haccept
  | deliver k => exact absurd rfl (hdeliver k)
  | answer i => exact absurd rfl (hanswer i)
  | read | hangUp | notify | worldLogin | worldFail | gameAdd | gameFail | worldClose
  | gameClose =>
    simp only [step, serve, setPhase] at hstep
    grind

theorem sequenced_step (es : List Sent) (s : Server) (l : Label) (s' : Server)
    (h : Sequenced ids es s) (hcounts : s.Counts l) (hstep : s.step ids l = some s') :
    Sequenced ids (es ++ s.emit ids l) s' := by
  by_cases haccept : l = .accept
  · subst haccept
    exact h.accept hcounts hstep
  by_cases hdeliver : ∃ k, l = .deliver k
  · obtain ⟨k, rfl⟩ := hdeliver
    obtain ⟨m, hget, rfl⟩ := deliver_eq_some_iff.mp hstep
    rw [emit_deliver hget]
    exact h.react hget
  rw [not_exists] at hdeliver
  have hfresh := fresh_step s l s' h.fresh hcounts hstep
  obtain ⟨hsame, ⟨added, htoGate, hadded⟩, -⟩ := step_frame hstep haccept hdeliver
  have hstarts (c : UInt64) (hc : c ∈ s'.starts) : c ∈ s.starts :=
    starts_append htoGate hadded ▸ hc
  have hsources (m : Inbound) (hm : m ∈ s'.toGate) : m ∈ s.toGate ∨ m.start? = none :=
    (List.mem_append.mp (htoGate ▸ hm)).imp_right (hadded m)
  have hplayers := src_of_sameNodes hsame h.players
  by_cases hanswer : ∃ i, l = .answer i
  · obtain ⟨i, rfl⟩ := hanswer
    obtain ⟨call, rsp, gate, sent, phase, hget, hphase, hgate, rfl⟩ := answer_eq_some_iff.mp hstep
    obtain ⟨hnumbered, hdirected⟩ := h.numbered.coLoginAnswered hgate
    rw [emit_answer hget hphase hgate]
    exact h.extend hfresh hnumbered hdirected hstarts hsame.connAlloc hsources hplayers
  rw [not_exists] at hanswer
  rw [emit_eq_nil hdeliver hanswer]
  refine h.extend hfresh ?_ (by simp [Directed]) hstarts hsame.connAlloc hsources hplayers
  rw [List.append_nil, gate_of_step hstep haccept hdeliver hanswer]
  exact h.numbered

end Run

/-- In every run, whatever the gate sends a connection is numbered 1, 2, 3 and so on, modulo 2^32,
from the first packet to the last and over all senders, and goes through `ws_server`; the player
knows the number of the last one. -/
theorem numbers_eq_countUp {ids : Ids} {ls : List Label} {s : Server}
    (hcounts : Machine.AllSteps (step ids) Counts {} ls)
    (hrun : Machine.run (step ids) {} ls = some s) (c : UInt64) :
    let es := Machine.trace (step ids) (emit ids) {} ls
    (∃ n, numbers c es = countUp n ∧
      ∀ node, s.gate.players.lookup c = some node → node.player.recvSign = UInt32.ofNat n) ∧
    ∀ e ∈ es, e.dst = ids.wsServer := by
  have h : Sequenced ids (Machine.trace (step ids) (emit ids) {} ls) s :=
    Machine.run_trace sequenced_step (sequenced_init ids) hcounts hrun
  exact ⟨⟨_, h.numbered.sequence c, h.numbered.player c⟩, h.sent⟩

theorem numbers_eq_countUp_login :
    numbers 1 (Machine.trace (step ⟨1, 2, 3⟩) (emit ⟨1, 2, 3⟩) {} loginRun) = [1, 2] ∧
      ∃ n, numbers 1 (Machine.trace (step ⟨1, 2, 3⟩) (emit ⟨1, 2, 3⟩) {} loginRun) = countUp n := by
  have hrun : (Machine.run (step ⟨1, 2, 3⟩) {} loginRun).isSome = true := by decide
  obtain ⟨s, hs⟩ := Option.isSome_iff_exists.mp hrun
  obtain ⟨⟨n, hn, -⟩, -⟩ := numbers_eq_countUp (by decide) hs 1
  exact ⟨by decide, n, hn⟩

end Server

end Cqy.Demo
