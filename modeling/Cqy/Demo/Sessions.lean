import Cqy.Demo.Server

/-!
# The end of a connection

`on_conn_stop` erases the player and tells the world and the game.  A login of the same connection
may be under way: it holds a reference to the player, and what it asks of the world and of the game
may be served after they have heard of the end.  The message of the end may also overtake the one of
the start, which then makes a player that nobody erases.  Unless one of these happens, no reference
outlives its player and no table keeps a connection that has ended.
-/

namespace Cqy.Demo

open Foundation

/-- The login goes on: it will use its player, or make an entry in a table. -/
def LoginPhase.underWay : LoginPhase → Bool
  | .asking | .answered (some _) | .adding => true
  | .answered none | .failed | .finished => false

def Inbound.stop? : Inbound → Option UInt64
  | .wsStop connid => some connid
  | _ => none

namespace Server

/-- The gate hears of the end of a connection neither before it has heard of its start nor while a
login of it is under way. -/
def Undisturbed (s : Server) : Label → Prop
  | .deliver k => ∀ c ∈ s.toGate[k]?.bind Inbound.stop?,
      c ∉ s.starts ∧ ∀ call ∈ s.logins, call.phase.underWay = true → call.connid ≠ c
  | _ => True

instance (s : Server) : ∀ l, Decidable (s.Undisturbed l)
  -- not by way of the finite type `UInt64`
  | .deliver k => Option.decidableForallMem (s.toGate[k]?.bind Inbound.stop?)
  | .accept | .read .. | .hangUp .. | .notify .. | .worldLogin .. | .worldFail .. | .answer ..
  | .gameAdd .. | .gameFail .. | .worldClose .. | .gameClose .. => isTrue trivial

/-- The player of `c` is there. -/
def Present (s : Server) (c : UInt64) : Prop := s.gate.players.lookup c ≠ none

/-- The connection is there, or the gate has yet to hear of its end. -/
def Open (s : Server) (c : UInt64) : Prop := c ∈ s.conns ∨ .wsStop c ∈ s.toGate

/-- What the gate knows of, or is about to hear of, is open. -/
def Announced (s : Server) : Prop := ∀ c, s.Present c ∨ c ∈ s.starts → s.Open c

/-- The references of the logins that are under way are good, and whoever is in a table has a player
or a message on the way that takes it out. -/
structure Tended (s : Server) : Prop where
  player : ∀ call ∈ s.logins, call.phase.underWay = true →
    ∃ node, s.gate.players.lookup call.connid = some node ∧ node.addr = call.addr
  world : ∀ c, s.world.logins.lookup c ≠ none → s.Present c ∨ c ∈ s.toWorld
  game : ∀ c, s.game.nameOf c ≠ none → s.Present c ∨ c ∈ s.toGame

section Steps

variable {ids : Ids} {s s' : Server} {i k : ℕ}

theorem Undisturbed.stop {c : UInt64} (h : s.Undisturbed (.deliver k))
    (hget : s.toGate[k]? = some (.wsStop c)) :
    c ∉ s.starts ∧ ∀ call ∈ s.logins, call.phase.underWay = true → call.connid ≠ c :=
  h c (by rw [hget]; rfl)

theorem Present.of_sameNodes {c : UInt64} (h : s.Present c)
    (hsame : Gate.SameNodes s.gate s'.gate) : s'.Present c := by
  obtain ⟨node, hget⟩ := Option.ne_none_iff_exists'.mp h
  obtain ⟨node', hget', -⟩ := hsame.kept c node hget
  exact Option.ne_none_iff_exists'.mpr ⟨node', hget'⟩

theorem Tended.player_of_sameNodes (h : s.Tended) (s' : Server)
    (hsame : Gate.SameNodes s.gate s'.gate)
    (hcalls : ∀ call ∈ s'.logins, call.phase.underWay = true →
      ∃ call' ∈ s.logins, call'.phase.underWay = true ∧ call'.who = call.who) :
    ∀ call ∈ s'.logins, call.phase.underWay = true →
      ∃ node, s'.gate.players.lookup call.connid = some node ∧ node.addr = call.addr := by
  intro call hmem hphase
  obtain ⟨call', hmem', hphase', hwho⟩ := hcalls call hmem hphase
  obtain ⟨node, hget, haddr⟩ := h.player call' hmem' hphase'
  simp only [LoginCall.who, Prod.mk.injEq] at hwho
  obtain ⟨hconnid, haddr', -⟩ := hwho
  obtain ⟨node', hget', hkept⟩ := hsame.kept _ node hget
  exact ⟨node', hconnid ▸ hget', hkept.1.trans (haddr.trans haddr')⟩

/-- A step that leaves the tables and what is on the way to them alone. -/
theorem Tended.keep (h : s.Tended) (hsame : Gate.SameNodes s.gate s'.gate)
    (hcalls : ∀ call ∈ s'.logins, call.phase.underWay = true →
      ∃ call' ∈ s.logins, call'.phase.underWay = true ∧ call'.who = call.who)
    (hworld : s'.world = s.world) (hgame : s'.game = s.game) (htoWorld : s'.toWorld = s.toWorld)
    (htoGame : s'.toGame = s.toGame) : s'.Tended where
  player := h.player_of_sameNodes s' hsame hcalls
  world := by
    rw [hworld, htoWorld]
    exact fun c hc ↦ (h.world c hc).imp_left (·.of_sameNodes hsame)
  game := by
    rw [hgame, htoGame]
    exact fun c hc ↦ (h.game c hc).imp_left (·.of_sameNodes hsame)

theorem Tended.start (h : s.Tended) {src : UInt32} {connid : UInt64} :
    (s.react ids k (.wsStart src connid)).Tended := by
  have hlookup {c : UInt64} {node : Node} (hget : s.gate.players.lookup c = some node) :
      ∃ node', (s.gate.onConnStart src connid).players.lookup c = some node' ∧
        node'.addr = node.addr := by
    by_cases hc : c = connid
    · subst hc
      rw [Gate.onConnStart, hget]
      exact ⟨{ node with player := { src := src, connid := c } },
        by rw [Gate.lookup_setPlayer, if_pos rfl], rfl⟩
    · exact ⟨node, by rw [lookup_onConnStart hc, hget], rfl⟩
  have hpresent (c : UInt64) (hc : s.Present c) :
      (s.react ids k (.wsStart src connid)).Present c := by
    obtain ⟨node, hget⟩ := Option.ne_none_iff_exists'.mp hc
    obtain ⟨node', hget', -⟩ := hlookup hget
    exact Option.ne_none_iff_exists'.mpr ⟨node', hget'⟩
  have hlogins : (s.react ids k (.wsStart src connid)).logins = s.logins := List.append_nil _
  refine ⟨?_, fun c hc ↦ ?_, fun c hc ↦ ?_⟩
  · rw [hlogins]
    intro call hmem hphase
    obtain ⟨node, hget, haddr⟩ := h.player call hmem hphase
    obtain ⟨node', hget', haddr'⟩ := hlookup hget
    exact ⟨node', hget', haddr'.trans haddr⟩
  · exact (h.world c hc).imp (hpresent c) (List.mem_append_left _)
  · exact (h.game c hc).imp (hpresent c) (List.mem_append_left _)

theorem Tended.stop (h : s.Tended) {connid : UInt64}
    (hquiet : ∀ call ∈ s.logins, call.phase.underWay = true → call.connid ≠ connid) :
    (s.react ids k (.wsStop connid)).Tended := by
  have hlookup {c : UInt64} (hc : c ≠ connid) :
      (s.react ids k (.wsStop connid)).gate.players.lookup c = s.gate.players.lookup c := by
    change (s.gate.onConnStop connid).players.lookup c = _
    rw [lookup_onConnStop, if_neg hc]
  have hleft {c : UInt64} {msgs : List UInt64} (hc : s.Present c ∨ c ∈ msgs) :
      (s.react ids k (.wsStop connid)).Present c ∨ c ∈ msgs ++ [connid] := by
    by_cases heq : c = connid
    · exact Or.inr (by simp [heq])
    · refine hc.imp (fun hp ↦ ?_) (List.mem_append_left _)
      rw [Present, hlookup heq]
      exact hp
  have hlogins : (s.react ids k (.wsStop connid)).logins = s.logins := List.append_nil _
  refine ⟨?_, fun c hc ↦ hleft (h.world c hc), fun c hc ↦ hleft (h.game c hc)⟩
  rw [hlogins]
  intro call hmem hphase
  rw [hlookup (hquiet call hmem hphase)]
  exact h.player call hmem hphase

theorem Tended.react (h : s.Tended) {m : Inbound} (hget : s.toGate[k]? = some m)
    (hquiet : s.Undisturbed (.deliver k)) : (s.react ids k m).Tended := by
  by_cases hstart : ∃ src c, m = .wsStart src c
  · obtain ⟨src, c, rfl⟩ := hstart
    exact h.start
  by_cases hstop : ∃ c, m = .wsStop c
  · obtain ⟨c, rfl⟩ := hstop
    exact h.stop (hquiet.stop hget).2
  rw [not_exists] at hstop
  simp only [not_exists] at hstart
  obtain ⟨hsame, hstopped, hcall⟩ := Gate.onMsg_spec s.gate ids m hstart hstop
  have hsame' : Gate.SameNodes s.gate (s.react ids k m).gate := hsame
  have htoWorld : (s.react ids k m).toWorld = s.toWorld := by
    change s.toWorld ++ (s.gate.onMsg ids m).stopped.toList = _
    rw [hstopped, Option.toList_none, List.append_nil]
  have htoGame : (s.react ids k m).toGame = s.toGame := by
    change s.toGame ++ (s.gate.onMsg ids m).stopped.toList = _
    rw [hstopped, Option.toList_none, List.append_nil]
  refine ⟨fun call hmem hphase ↦ ?_, ?_, ?_⟩
  · rcases List.mem_append.mp hmem with hold | hnew
    · obtain ⟨node, hnode, haddr⟩ := h.player call hold hphase
      obtain ⟨node', hnode', hkept⟩ := hsame.kept _ node hnode
      exact ⟨node', hnode', hkept.1.trans haddr⟩
    · obtain ⟨-, node, -, hnode, haddr, -⟩ := hcall call (Option.mem_toList.mp hnew)
      obtain ⟨node', hnode', hkept⟩ := hsame.kept _ node hnode
      exact ⟨node', hnode', hkept.1.trans haddr.symm⟩
  · rw [htoWorld]
    exact fun c hc ↦ (h.world c hc).imp_left (·.of_sameNodes hsame')
  · rw [htoGame]
    exact fun c hc ↦ (h.game c hc).imp_left (·.of_sameNodes hsame')

theorem Announced.keep (h : s.Announced) (hpresent : ∀ c, s'.Present c → s.Present c)
    (hstarts : s'.starts ⊆ s.starts) (hopen : ∀ c, s.Open c → s'.Open c) : s'.Announced :=
  fun c hc ↦ hopen c (h c (hc.imp (hpresent c) (hstarts ·)))

theorem starts_react_subset (ids : Ids) {m : Inbound} (hget : s.toGate[k]? = some m) :
    (s.react ids k m).starts ⊆ s.starts := fun _ hc ↦
  (starts_react ids hget).subset (List.mem_append_right _ hc)

/-- A message that does not tell of the end of `c` leaves it open. -/
theorem Open.react {c : UInt64} (h : s.Open c) {m : Inbound} (hget : s.toGate[k]? = some m)
    (hm : m ≠ .wsStop c) : (s.react ids k m).Open c :=
  h.imp_right fun hmem ↦ Vec.mem_eraseIdx_of_ne hget hmem (Ne.symm hm)

theorem Announced.start (h : s.Announced) {src : UInt32} {c : UInt64}
    (hget : s.toGate[k]? = some (.wsStart src c)) :
    (s.react ids k (.wsStart src c)).Announced := by
  intro c' hc'
  refine (h c' ?_).react hget (by simp)
  by_cases heq : c' = c
  · have hmem : c ∈ s.starts := List.mem_filterMap.mpr ⟨_, List.mem_of_getElem? hget, rfl⟩
    exact Or.inr (heq ▸ hmem)
  · refine hc'.imp (fun hp ↦ ?_) (starts_react_subset ids hget ·)
    have hsame : (s.react ids k (.wsStart src c)).gate.players.lookup c' =
        s.gate.players.lookup c' := lookup_onConnStart heq
    rwa [Present, hsame] at hp

theorem Announced.stop (h : s.Announced) {c : UInt64} (hget : s.toGate[k]? = some (.wsStop c))
    (hstarted : c ∉ s.starts) : (s.react ids k (.wsStop c)).Announced := by
  intro c' hc'
  have hstarts := starts_react_subset ids hget
  have hlookup : (s.react ids k (.wsStop c)).gate.players.lookup c' =
      if c' = c then none else s.gate.players.lookup c' := lookup_onConnStop
  have hne : c' ≠ c := by
    rintro rfl
    rw [Present, hlookup, if_pos rfl] at hc'
    exact hc'.elim (fun hnone ↦ hnone rfl) fun hmem ↦ hstarted (hstarts hmem)
  rw [Present, hlookup, if_neg hne] at hc'
  exact (h c' (hc'.imp_right (hstarts ·))).react hget (by simpa using Ne.symm hne)

theorem Announced.react (h : s.Announced) {m : Inbound} (hget : s.toGate[k]? = some m)
    (hquiet : s.Undisturbed (.deliver k)) : (s.react ids k m).Announced := by
  by_cases hstart : ∃ src c, m = .wsStart src c
  · obtain ⟨src, c, rfl⟩ := hstart
    exact h.start hget
  by_cases hstop : ∃ c, m = .wsStop c
  · obtain ⟨c, rfl⟩ := hstop
    exact h.stop hget (hquiet.stop hget).1
  rw [not_exists] at hstop
  simp only [not_exists] at hstart
  obtain ⟨hsame, -⟩ := Gate.onMsg_spec s.gate ids m hstart hstop
  have hpresent (c : UInt64) (hc : (s.react ids k m).Present c) : s.Present c :=
    fun hnone ↦ hc (hsame.none c hnone)
  exact h.keep hpresent (starts_react_subset ids hget) fun c hc ↦ hc.react hget (hstop c)

/-- A connection stays open until the gate hears of its end. -/
theorem Open.step {l : Label} {c : UInt64} (h : s.Open c) (hdeliver : ∀ k, l ≠ .deliver k)
    (hstep : s.step ids l = some s') : s'.Open c := by
  cases l with
  | accept =>
    obtain ⟨hconns, htoGate⟩ | ⟨connid, hconns, htoGate⟩ := accept_opens hstep
    · rwa [Open, hconns, htoGate]
    · rw [Open, hconns, htoGate]
      exact h.imp List.mem_insert_of_mem (List.mem_append_left _)
  | deliver k => exact absurd rfl (hdeliver k)
  | read connid msg =>
    simp only [Server.step] at hstep
    split_ifs at hstep
    obtain rfl := Option.some.inj hstep
    exact h.imp_right (List.mem_append_left _)
  | hangUp connid =>
    simp only [Server.step] at hstep
    split_ifs at hstep
    obtain rfl := Option.some.inj hstep
    by_cases heq : c = connid
    · exact Or.inr (by simp [heq])
    · exact h.imp (List.mem_erase_of_ne heq).mpr (List.mem_append_left _)
  | notify src n =>
    obtain rfl := Option.some.inj hstep
    exact h.imp_right (List.mem_append_left _)
  | worldLogin i =>
    obtain ⟨call, -, -, rfl⟩ := worldLogin_eq_some_iff.mp hstep
    exact h.imp_right (List.mem_append_left _)
  | worldFail i =>
    obtain ⟨call, -, -, rfl⟩ := worldFail_eq_some_iff.mp hstep
    exact h
  | answer i =>
    obtain ⟨call, rsp, gate, sent, phase, -, -, -, rfl⟩ := answer_eq_some_iff.mp hstep
    exact h
  | gameAdd i =>
    obtain ⟨call, -, -, rfl⟩ := gameAdd_eq_some_iff.mp hstep
    exact h
  | gameFail i =>
    obtain ⟨call, -, -, rfl⟩ := gameFail_eq_some_iff.mp hstep
    exact h
  | worldClose k =>
    obtain ⟨connid, -, rfl⟩ := worldClose_eq_some_iff.mp hstep
    exact h
  | gameClose k =>
    obtain ⟨connid, -, rfl⟩ := gameClose_eq_some_iff.mp hstep
    exact h

/-- The world has only one answer. -/
def Served (s : Server) : Prop :=
  ∀ call ∈ s.logins, ∀ rsp, call.phase = .answered (some rsp) → rsp.result = .ok

theorem Served.setPhase (h : s.Served) (i : ℕ) (call : LoginCall) (phase : LoginPhase)
    (hphase : ∀ rsp, phase = .answered (some rsp) → rsp.result = .ok) :
    (s.setPhase i call phase).Served := by
  intro call' hmem rsp hrsp
  rcases List.mem_or_eq_of_mem_set hmem with hold | rfl
  · exact h call' hold rsp hrsp
  · exact hphase rsp hrsp

theorem served_step (s : Server) (l : Label) (s' : Server) (h : s.Served)
    (hstep : s.step ids l = some s') : s'.Served := by
  cases l with
  | accept =>
    obtain ⟨-, hlogins, -⟩ := accept_frame hstep
    rw [Served, hlogins]
    exact h
  | deliver k =>
    obtain ⟨m, hget, rfl⟩ := deliver_eq_some_iff.mp hstep
    intro call hmem rsp hrsp
    rcases List.mem_append.mp hmem with hold | hnew
    · exact h call hold rsp hrsp
    · by_cases hstart : ∃ src c, m = .wsStart src c
      · obtain ⟨src, c, rfl⟩ := hstart
        exact absurd hnew (by simp [Gate.onMsg])
      by_cases hstop : ∃ c, m = .wsStop c
      · obtain ⟨c, rfl⟩ := hstop
        exact absurd hnew (by simp [Gate.onMsg])
      simp only [not_exists] at hstart hstop
      obtain ⟨-, -, hcall⟩ := Gate.onMsg_spec s.gate ids m hstart hstop
      have hphase := (hcall call (Option.mem_toList.mp hnew)).1
      exact absurd (hphase.symm.trans hrsp) (by simp)
  | read connid msg | hangUp connid =>
    simp only [step] at hstep
    split_ifs at hstep
    obtain rfl := Option.some.inj hstep
    exact h
  | notify src n =>
    obtain rfl := Option.some.inj hstep
    exact h
  | worldLogin i =>
    obtain ⟨call, -, -, rfl⟩ := worldLogin_eq_some_iff.mp hstep
    refine h.setPhase i call (.answered (some {})) fun rsp hrsp ↦ ?_
    simp only [LoginPhase.answered.injEq, Option.some.injEq] at hrsp
    exact hrsp ▸ rfl
  | worldFail i =>
    obtain ⟨call, -, -, rfl⟩ := worldFail_eq_some_iff.mp hstep
    exact h.setPhase i call _ (by simp)
  | answer i =>
    obtain ⟨call, rsp, gate, sent, phase, -, -, hanswer, rfl⟩ := answer_eq_some_iff.mp hstep
    refine h.setPhase i call phase ?_
    rcases (Gate.coLoginAnswered_spec hanswer).2 with rfl | ⟨rfl, -⟩ <;> simp
  | gameAdd i =>
    obtain ⟨call, -, -, rfl⟩ := gameAdd_eq_some_iff.mp hstep
    exact h.setPhase i call .finished (by simp)
  | gameFail i =>
    obtain ⟨call, -, -, rfl⟩ := gameFail_eq_some_iff.mp hstep
    exact h.setPhase i call _ (by simp)
  | worldClose k =>
    obtain ⟨connid, -, rfl⟩ := worldClose_eq_some_iff.mp hstep
    exact h
  | gameClose k =>
    obtain ⟨connid, -, rfl⟩ := gameClose_eq_some_iff.mp hstep
    exact h

end Steps

end Server

end Cqy.Demo
