import Cqy.Demo.Sessions

/-!
# Who plays under which name

The gate marks a player when the world has let it in, and from then on answers its logins itself.
Until then a client may send the next login, under another name.  If none does, a connection has one
name for good, and the tables of the world and of the game agree with each other and in themselves.
-/

namespace Cqy.Demo

open Foundation

/-- The login has not failed. -/
def LoginPhase.live : LoginPhase → Bool
  | .asking | .answered (some _) | .adding | .finished => true
  | .answered none | .failed => false

/-- The world has let it in. -/
def LoginPhase.served : LoginPhase → Bool
  | .answered (some _) | .adding | .finished => true
  | .asking | .answered none | .failed => false

/-- The gate has marked the player. -/
def LoginPhase.marks : LoginPhase → Bool
  | .adding | .finished => true
  | .asking | .answered _ | .failed => false

/-- How a login can move on. -/
def LoginPhase.Moves (p p' : LoginPhase) : Prop :=
  (p'.live = true → p.live = true) ∧ (p.served = true → p'.served = true)

namespace Server

/-- No login passes the checks of the gate while one of the same connection, under another name, is
under way. -/
def OneName (ids : Ids) (s : Server) : Label → Prop
  | .deliver k => ∀ new ∈ s.toGate[k]?.bind fun m ↦ (s.gate.onMsg ids m).call,
      ∀ call ∈ s.logins, call.phase.underWay = true → call.connid = new.connid →
        call.login.name = new.login.name
  | _ => True

instance (ids : Ids) (s : Server) : ∀ l, Decidable (s.OneName ids l)
  | .deliver k => inferInstanceAs (Decidable (∀ new ∈ s.toGate[k]?.bind fun m ↦
      (s.gate.onMsg ids m).call, ∀ call ∈ s.logins, call.phase.underWay = true →
        call.connid = new.connid → call.login.name = new.login.name))
  | .accept | .read .. | .hangUp .. | .notify .. | .worldLogin .. | .worldFail .. | .answer ..
  | .gameAdd .. | .gameFail .. | .worldClose .. | .gameClose .. => isTrue trivial

/-- Every connection has one name, and an entry in a table is that of a login the world has let in.
-/
structure Named (s : Server) : Prop where
  fresh : s.Fresh
  served : s.Served
  addr : ∀ call ∈ s.logins, ∀ node, s.gate.players.lookup call.connid = some node →
    node.addr = call.addr
  marked : ∀ call ∈ s.logins, call.phase.marks = true →
    ∀ node, s.gate.players.lookup call.connid = some node → node.player.login = true

/-- A login that the world has let in. -/
def LetIn (s : Server) (c : UInt64) (name : String) : Prop :=
  ∃ call ∈ s.logins, call.phase.served = true ∧ call.connid = c ∧ call.login.name = name

structure Agreed (s : Server) : Prop where
  names : ∀ call ∈ s.logins, ∀ call' ∈ s.logins, call.phase.live = true →
    call'.phase.live = true → call.connid = call'.connid → call.login.name = call'.login.name
  world : ∀ c name, s.world.logins.lookup c = some name → s.LetIn c name
  game : ∀ c name, s.game.nameOf c = some name → s.LetIn c name
  backed : s.world.Backed
  consistent : s.game.Consistent

section Steps

variable {ids : Ids} {s s' : Server} {i k : ℕ}

theorem live_of_served {p : LoginPhase} (h : p.served = true) : p.live = true := by
  cases p with
  | answered rsp => cases rsp with
    | none => exact absurd h Bool.false_ne_true
    | some rsp => rfl
  | asking | failed => exact absurd h Bool.false_ne_true
  | adding | finished => rfl

/-- The calls are the same and have moved on. -/
def Follows (old new : List LoginCall) : Prop :=
  new.length = old.length ∧ ∀ (j : ℕ) (call' : LoginCall), new[j]? = some call' →
    ∃ call, old[j]? = some call ∧ call.who = call'.who ∧ call.phase.Moves call'.phase

theorem Follows.refl (calls : List LoginCall) : Follows calls calls :=
  ⟨rfl, fun _ call' h ↦ ⟨call', h, rfl, id, id⟩⟩

theorem Follows.set {calls : List LoginCall} {call : LoginCall} {phase : LoginPhase}
    (hget : calls[i]? = some call) (hmoves : call.phase.Moves phase) :
    Follows calls (calls.set i { call with phase := phase }) := by
  refine ⟨List.length_set, fun j call' hj ↦ ?_⟩
  rw [Vec.getElem?_set_of_some hget] at hj
  split_ifs at hj with heq
  · obtain rfl := Option.some.inj hj
    exact ⟨call, heq ▸ hget, rfl, hmoves⟩
  · exact (Follows.refl calls).2 j call' hj

theorem Follows.mem {old new : List LoginCall} (h : Follows old new) {call' : LoginCall}
    (hmem : call' ∈ new) : ∃ call ∈ old, call.who = call'.who ∧ call.phase.Moves call'.phase := by
  obtain ⟨j, hj⟩ := List.mem_iff_getElem?.mp hmem
  obtain ⟨call, hget, hrest⟩ := h.2 j call' hj
  exact ⟨call, List.mem_of_getElem? hget, hrest⟩

theorem Follows.exists_mem {old new : List LoginCall} (h : Follows old new) {call : LoginCall}
    (hmem : call ∈ old) : ∃ call' ∈ new, call.who = call'.who ∧ call.phase.Moves call'.phase := by
  obtain ⟨j, hj, rfl⟩ := List.mem_iff_getElem.mp hmem
  have hj' : j < new.length := h.1 ▸ hj
  obtain ⟨call, hget, hrest⟩ := h.2 j new[j] (List.getElem?_eq_getElem hj')
  rw [List.getElem?_eq_getElem hj, Option.some_inj] at hget
  exact ⟨new[j], List.getElem_mem hj', hget ▸ hrest⟩

/-- What becomes of the calls in the steps that start none. -/
theorem calls_of_step {l : Label} (hserved : s.Served) (hstep : s.step ids l = some s')
    (hdeliver : ∀ k, l ≠ .deliver k) : Follows s.logins s'.logins := by
  cases l with
  | deliver k => exact absurd rfl (hdeliver k)
  | accept =>
    obtain ⟨-, hlogins, -⟩ := accept_frame hstep
    rw [hlogins]
    exact Follows.refl _
  | read connid msg | hangUp connid =>
    simp only [step] at hstep
    split_ifs at hstep
    obtain rfl := Option.some.inj hstep
    exact Follows.refl _
  | notify src n =>
    obtain rfl := Option.some.inj hstep
    exact Follows.refl _
  | worldLogin i =>
    obtain ⟨call, hget, hphase, rfl⟩ := worldLogin_eq_some_iff.mp hstep
    refine Follows.set hget ?_
    rw [hphase]
    exact ⟨fun _ ↦ rfl, fun h ↦ absurd h Bool.false_ne_true⟩
  | worldFail i =>
    obtain ⟨call, hget, hphase, rfl⟩ := worldFail_eq_some_iff.mp hstep
    exact Follows.set hget
      (by rw [hphase]; exact ⟨fun _ ↦ rfl, fun h ↦ absurd h Bool.false_ne_true⟩)
  | answer i =>
    obtain ⟨call, rsp, gate, sent, phase, hget, hphase, hanswer, rfl⟩ := answer_eq_some_iff.mp hstep
    refine Follows.set hget ?_
    rw [hphase]
    cases rsp with
    | none =>
      obtain ⟨-, -, rfl⟩ := hanswer
      exact ⟨fun h ↦ absurd h Bool.false_ne_true, fun h ↦ absurd h Bool.false_ne_true⟩
    | some rsp =>
      have hok := hserved call (List.mem_of_getElem? hget) rsp hphase
      rcases (Gate.coLoginAnswered_spec hanswer).2 with rfl | ⟨rfl, -⟩
      · simp only [Gate.coLoginAnswered, hok, if_pos] at hanswer
        grind
      · exact ⟨fun _ ↦ rfl, fun _ ↦ rfl⟩
  | gameAdd i =>
    obtain ⟨call, hget, hphase, rfl⟩ := gameAdd_eq_some_iff.mp hstep
    exact Follows.set hget (by rw [hphase]; exact ⟨fun _ ↦ rfl, fun _ ↦ rfl⟩)
  | gameFail i =>
    obtain ⟨call, hget, hphase, rfl⟩ := gameFail_eq_some_iff.mp hstep
    exact Follows.set hget (by rw [hphase]; exact ⟨fun _ ↦ rfl, fun _ ↦ rfl⟩)
  | worldClose k =>
    obtain ⟨connid, -, rfl⟩ := worldClose_eq_some_iff.mp hstep
    exact Follows.refl _
  | gameClose k =>
    obtain ⟨connid, -, rfl⟩ := gameClose_eq_some_iff.mp hstep
    exact Follows.refl _

theorem named_init : Named {} where
  fresh := fresh_init
  served := by simp [Served]
  addr := by simp
  marked := by simp

/-- A step that leaves the nodes alone. -/
theorem Named.keep (h : s.Named) (hfresh : s'.Fresh) (hserved : s'.Served)
    (hsame : Gate.SameNodes s.gate s'.gate) (hfollows : Follows s.logins s'.logins)
    (hmarked : ∀ call ∈ s'.logins, call.phase.marks = true →
      (∃ old ∈ s.logins, old.phase.marks = true ∧ old.connid = call.connid) ∨
      ∃ node, s'.gate.players.lookup call.connid = some node ∧ node.player.login = true) :
    s'.Named where
  fresh := hfresh
  served := hserved
  addr := fun call hmem node hget ↦ by
    obtain ⟨old, hold, hwho, -⟩ := hfollows.mem hmem
    simp only [LoginCall.who, Prod.mk.injEq] at hwho
    obtain ⟨hconnid, haddr, -⟩ := hwho
    obtain ⟨node', hget', hkept⟩ := hsame.lookup_of_some hget
    rw [← haddr, hkept.1]
    exact h.addr old hold node' (hconnid ▸ hget')
  marked := fun call hmem hmarks node hget ↦ by
    rcases hmarked call hmem hmarks with ⟨old, hold, hmarks', hconnid⟩ | ⟨node', hget', hlogin⟩
    · obtain ⟨node', hget', hkept⟩ := hsame.lookup_of_some hget
      exact hkept.2.2 (h.marked old hold hmarks' node' (hconnid ▸ hget'))
    · rw [hget, Option.some_inj] at hget'
      exact hget' ▸ hlogin

/-- A call moves to a phase in which it is not newly marked. -/
theorem marks_setPhase {call : LoginCall} {phase : LoginPhase} (hget : s.logins[i]? = some call)
    (hmarks : phase.marks = true → call.phase.marks = true) :
    ∀ call' ∈ (s.setPhase i call phase).logins, call'.phase.marks = true →
      ∃ old ∈ s.logins, old.phase.marks = true ∧ old.connid = call'.connid := by
  intro call' hmem hmarks'
  rcases List.mem_or_eq_of_mem_set hmem with hold | rfl
  · exact ⟨call', hold, hmarks', rfl⟩
  · exact ⟨call, List.mem_of_getElem? hget, hmarks hmarks', rfl⟩

theorem Named.react (h : s.Named) {m : Inbound} (hget : s.toGate[k]? = some m)
    (hserved : (s.react ids k m).Served) : (s.react ids k m).Named := by
  have hfresh : (s.react ids k m).Fresh := h.fresh.react hget
  by_cases hstart : ∃ src c, m = .wsStart src c
  · obtain ⟨src, c, rfl⟩ := hstart
    have hnew : c ∈ s.starts := List.mem_filterMap.mpr ⟨_, List.mem_of_getElem? hget, rfl⟩
    have hlogins : (s.react ids k (.wsStart src c)).logins = s.logins := List.append_nil _
    have hlookup (call : LoginCall) (hmem : call ∈ s.logins) :
        (s.react ids k (.wsStart src c)).gate.players.lookup call.connid =
          s.gate.players.lookup call.connid :=
      lookup_onConnStart (h.fresh.call c hnew call hmem)
    refine ⟨hfresh, hserved, fun call hmem ↦ ?_, fun call hmem ↦ ?_⟩
    · rw [hlogins] at hmem
      rw [hlookup call hmem]
      exact h.addr call hmem
    · rw [hlogins] at hmem
      rw [hlookup call hmem]
      exact h.marked call hmem
  by_cases hstop : ∃ c, m = .wsStop c
  · obtain ⟨c, rfl⟩ := hstop
    have hlogins : (s.react ids k (.wsStop c)).logins = s.logins := List.append_nil _
    have hold {c' : UInt64} {node : Node}
        (hc : (s.react ids k (.wsStop c)).gate.players.lookup c' = some node) :
        s.gate.players.lookup c' = some node := by
      change (s.gate.onConnStop c).players.lookup c' = _ at hc
      rw [lookup_onConnStop] at hc
      split_ifs at hc
      exact hc
    refine ⟨hfresh, hserved, fun call hmem node hc ↦ ?_, fun call hmem hmarks node hc ↦ ?_⟩
    · exact h.addr call (hlogins ▸ hmem) node (hold hc)
    · exact h.marked call (hlogins ▸ hmem) hmarks node (hold hc)
  simp only [not_exists] at hstart hstop
  obtain ⟨hsame, -, hcall⟩ := Gate.onMsg_spec s.gate ids m hstart hstop
  refine ⟨hfresh, hserved, fun call hmem node hc ↦ ?_, fun call hmem hmarks node hc ↦ ?_⟩
  · obtain ⟨node', hc', hkept⟩ := hsame.lookup_of_some hc
    rcases List.mem_append.mp hmem with hold | hnew
    · exact hkept.1.trans (h.addr call hold node' hc')
    · obtain ⟨-, node'', -, hnode, haddr, -⟩ := hcall call (Option.mem_toList.mp hnew)
      rw [hc', Option.some_inj] at hnode
      rw [hkept.1, haddr, hnode]
  · obtain ⟨node', hc', hkept⟩ := hsame.lookup_of_some hc
    rcases List.mem_append.mp hmem with hold | hnew
    · exact hkept.2.2 (h.marked call hold hmarks node' hc')
    · obtain ⟨hphase, -⟩ := hcall call (Option.mem_toList.mp hnew)
      rw [hphase] at hmarks
      exact absurd hmarks Bool.false_ne_true

theorem named_step (s : Server) (l : Label) (s' : Server) (h : s.Named) (hcounts : s.Counts l)
    (hstep : s.step ids l = some s') : s'.Named := by
  have hfresh := fresh_step s l s' h.fresh hcounts hstep
  have hserved := served_step s l s' h.served hstep
  by_cases hdeliver : ∃ k, l = .deliver k
  · obtain ⟨k, rfl⟩ := hdeliver
    obtain ⟨m, hget, rfl⟩ := deliver_eq_some_iff.mp hstep
    exact h.react hget hserved
  rw [not_exists] at hdeliver
  by_cases haccept : l = .accept
  · subst haccept
    obtain ⟨hplayers, hlogins, -⟩ := accept_frame hstep
    refine ⟨hfresh, hserved, ?_, ?_⟩
    · rw [hlogins, hplayers]
      exact h.addr
    · rw [hlogins, hplayers]
      exact h.marked
  obtain ⟨hsame, -, -⟩ := step_frame hstep haccept hdeliver
  refine h.keep hfresh hserved hsame (calls_of_step h.served hstep hdeliver)
    fun call hmem hmarks ↦ ?_
  have hsetPhase {i : ℕ} {old : LoginCall} {phase : LoginPhase} (hget : s.logins[i]? = some old)
      (hback : phase.marks = true → old.phase.marks = true)
      (hmem : call ∈ (s.setPhase i old phase).logins) :=
    marks_setPhase hget hback call hmem hmarks
  cases l with
  | accept => exact absurd rfl haccept
  | deliver k => exact absurd rfl (hdeliver k)
  | read connid msg | hangUp connid =>
    simp only [step] at hstep
    split_ifs at hstep
    obtain rfl := Option.some.inj hstep
    exact Or.inl ⟨call, hmem, hmarks, rfl⟩
  | notify src n =>
    obtain rfl := Option.some.inj hstep
    exact Or.inl ⟨call, hmem, hmarks, rfl⟩
  | worldLogin i =>
    obtain ⟨old, hget, -, rfl⟩ := worldLogin_eq_some_iff.mp hstep
    have hback (hf : (LoginPhase.answered (some {})).marks = true) : old.phase.marks = true :=
      absurd hf Bool.false_ne_true
    exact Or.inl (hsetPhase hget hback hmem)
  | worldFail i =>
    obtain ⟨old, hget, -, rfl⟩ := worldFail_eq_some_iff.mp hstep
    have hback (hf : (LoginPhase.answered none).marks = true) : old.phase.marks = true :=
      absurd hf Bool.false_ne_true
    exact Or.inl (hsetPhase hget hback hmem)
  | answer i =>
    obtain ⟨old, rsp, gate, sent, phase, hget, -, hanswer, rfl⟩ := answer_eq_some_iff.mp hstep
    rcases List.mem_or_eq_of_mem_set hmem with hold | rfl
    · exact Or.inl ⟨call, hold, hmarks, rfl⟩
    · rcases (Gate.coLoginAnswered_spec hanswer).2 with rfl | ⟨-, node, hnode, -, hlogin⟩
      · exact absurd hmarks Bool.false_ne_true
      · exact Or.inr ⟨node, hnode, hlogin⟩
  | gameAdd i =>
    obtain ⟨old, hget, hphase, rfl⟩ := gameAdd_eq_some_iff.mp hstep
    exact Or.inl (hsetPhase hget (fun _ ↦ by rw [hphase]; rfl) hmem)
  | gameFail i =>
    obtain ⟨old, hget, hphase, rfl⟩ := gameFail_eq_some_iff.mp hstep
    exact Or.inl (hsetPhase hget (fun _ ↦ by rw [hphase]; rfl) hmem)
  | worldClose k =>
    obtain ⟨connid, -, rfl⟩ := worldClose_eq_some_iff.mp hstep
    exact Or.inl ⟨call, hmem, hmarks, rfl⟩
  | gameClose k =>
    obtain ⟨connid, -, rfl⟩ := gameClose_eq_some_iff.mp hstep
    exact Or.inl ⟨call, hmem, hmarks, rfl⟩

/-! ## The tables -/

theorem agreed_init : Agreed {} where
  names := by simp
  world := fun c name h ↦ absurd h (by simp [AList.lookup_empty])
  game := fun c name h ↦ absurd h (by simp [Game.nameOf, AList.lookup_empty])
  backed := fun name c h ↦ absurd h (by simp [AList.lookup_empty])
  consistent := Game.consistent_init

theorem LetIn.of_follows {c : UInt64} {name : String} (h : s.LetIn c name)
    (hfollows : Follows s.logins s'.logins) : s'.LetIn c name := by
  obtain ⟨call, hmem, hserved, rfl, rfl⟩ := h
  obtain ⟨call', hmem', hwho, hmoves⟩ := hfollows.exists_mem hmem
  simp only [LoginCall.who, Prod.mk.injEq] at hwho
  obtain ⟨hconnid, -, hlogin⟩ := hwho
  exact ⟨call', hmem', hmoves.2 hserved, hconnid.symm, hlogin ▸ rfl⟩

theorem Agreed.names_of_follows (h : s.Agreed) (hfollows : Follows s.logins s'.logins) :
    ∀ call ∈ s'.logins, ∀ call' ∈ s'.logins, call.phase.live = true →
      call'.phase.live = true → call.connid = call'.connid →
        call.login.name = call'.login.name := by
  intro call hmem call' hmem' hlive hlive' hconnid
  obtain ⟨old, hold, hwho, hmoves⟩ := hfollows.mem hmem
  obtain ⟨old', hold', hwho', hmoves'⟩ := hfollows.mem hmem'
  simp only [LoginCall.who, Prod.mk.injEq] at hwho hwho'
  have hnames := h.names old hold old' hold' (hmoves.1 hlive) (hmoves'.1 hlive')
    (hwho.1.trans (hconnid.trans hwho'.1.symm))
  rwa [hwho.2.2, hwho'.2.2] at hnames

/-- A step that leaves the tables alone and starts no login. -/
theorem Agreed.keep (h : s.Agreed) (hfollows : Follows s.logins s'.logins)
    (hworld : s'.world = s.world) (hgame : s'.game = s.game) : s'.Agreed where
  names := h.names_of_follows hfollows
  world := by
    rw [hworld]
    exact fun c name hc ↦ (h.world c name hc).of_follows hfollows
  game := by
    rw [hgame]
    exact fun c name hc ↦ (h.game c name hc).of_follows hfollows
  backed := hworld ▸ h.backed
  consistent := hgame ▸ h.consistent

/-- Whoever has been let in under a name plays under no other. -/
theorem Agreed.name_of_letIn (h : s.Agreed) {call : LoginCall} {name : String}
    (hmem : call ∈ s.logins) (hlive : call.phase.live = true) (hin : s.LetIn call.connid name) :
    name = call.login.name := by
  obtain ⟨call', hmem', hserved, hconnid, rfl⟩ := hin
  exact h.names call' hmem' call hmem (live_of_served hserved) hlive hconnid

theorem Agreed.react (h : s.Agreed) (hnamed : s.Named) {m : Inbound}
    (hget : s.toGate[k]? = some m) (hone : s.OneName ids (.deliver k)) :
    (s.react ids k m).Agreed := by
  have hold {c : UInt64} {name : String} (hin : s.LetIn c name) :
      (s.react ids k m).LetIn c name := by
    obtain ⟨call, hmem, hrest⟩ := hin
    exact ⟨call, List.mem_append_left _ hmem, hrest⟩
  -- A login that starts has no name but that of the logins of its connection.
  have hnew (new : LoginCall) (hcall : (s.gate.onMsg ids m).call = some new) (call : LoginCall)
      (hmem : call ∈ s.logins) (hlive : call.phase.live = true)
      (hconnid : call.connid = new.connid) : call.login.name = new.login.name := by
    by_cases hstart : ∃ src c, m = .wsStart src c
    · obtain ⟨src, c, rfl⟩ := hstart
      exact absurd hcall (by simp [Gate.onMsg])
    by_cases hstop : ∃ c, m = .wsStop c
    · obtain ⟨c, rfl⟩ := hstop
      exact absurd hcall (by simp [Gate.onMsg])
    simp only [not_exists] at hstart hstop
    obtain ⟨-, -, hspec⟩ := Gate.onMsg_spec s.gate ids m hstart hstop
    obtain ⟨-, node, -, hnode, -, hlogin⟩ := hspec new hcall
    refine hone new (by simp [hget, hcall]) call hmem ?_ hconnid
    cases hphase : call.phase with
    | finished =>
      have hmarked := hnamed.marked call hmem (by rw [hphase]; rfl) node (hconnid ▸ hnode)
      exact absurd (hlogin.symm.trans hmarked) Bool.false_ne_true
    | asking | adding => rfl
    | failed =>
      rw [hphase] at hlive
      exact absurd hlive Bool.false_ne_true
    | answered rsp =>
      cases rsp with
      | none =>
        rw [hphase] at hlive
        exact absurd hlive Bool.false_ne_true
      | some rsp => rfl
  refine ⟨?_, fun c name hc ↦ hold (h.world c name hc), fun c name hc ↦ hold (h.game c name hc),
    h.backed, h.consistent⟩
  intro call hmem call' hmem' hlive hlive' hconnid
  rcases List.mem_append.mp hmem with hmem | hmem <;>
    rcases List.mem_append.mp hmem' with hmem' | hmem'
  · exact h.names call hmem call' hmem' hlive hlive' hconnid
  · exact hnew call' (Option.mem_toList.mp hmem') call hmem hlive hconnid
  · exact (hnew call (Option.mem_toList.mp hmem) call' hmem' hlive' hconnid.symm).symm
  · have heq := (Option.mem_toList.mp hmem).symm.trans (Option.mem_toList.mp hmem')
    rw [Option.some.inj heq]

theorem agreed_step (s : Server) (l : Label) (s' : Server) (h : s.Named ∧ s.Agreed)
    (hok : s.Counts l ∧ s.OneName ids l) (hstep : s.step ids l = some s') :
    s'.Named ∧ s'.Agreed := by
  obtain ⟨hnamed, h⟩ := h
  refine ⟨named_step s l s' hnamed hok.1 hstep, ?_⟩
  by_cases hdeliver : ∃ k, l = .deliver k
  · obtain ⟨k, rfl⟩ := hdeliver
    obtain ⟨m, hget, rfl⟩ := deliver_eq_some_iff.mp hstep
    exact h.react hnamed hget hok.2
  rw [not_exists] at hdeliver
  have hfollows := calls_of_step hnamed.served hstep hdeliver
  cases l with
  | deliver k => exact absurd rfl (hdeliver k)
  | accept =>
    obtain ⟨-, -, hworld, hgame, -⟩ := accept_frame hstep
    exact h.keep hfollows hworld hgame
  | read connid msg | hangUp connid =>
    simp only [step] at hstep
    split_ifs at hstep
    obtain rfl := Option.some.inj hstep
    exact h.keep hfollows rfl rfl
  | notify src n =>
    obtain rfl := Option.some.inj hstep
    exact h.keep hfollows rfl rfl
  | worldLogin i =>
    obtain ⟨call, hget, hphase, rfl⟩ := worldLogin_eq_some_iff.mp hstep
    have hmem := List.mem_of_getElem? hget
    have hname (name : String) (hin : s.LetIn call.connid name) : name = call.login.name :=
      h.name_of_letIn hmem (by rw [hphase]; rfl) hin
    have hin : (s.serve ids i call).LetIn call.connid call.login.name :=
      ⟨_, List.mem_set (List.getElem?_eq_some_iff.mp hget).1 _, rfl, rfl, rfl⟩
    refine ⟨h.names_of_follows hfollows, fun c name hc ↦ ?_,
      fun c name hc ↦ (h.game c name hc).of_follows hfollows, ?_, h.consistent⟩
    · change (s.world.rpcPlayerLogin call.connid call.login).1.logins.lookup c = some name at hc
      rw [World.logins_rpcPlayerLogin] at hc
      split_ifs at hc with heq
      · obtain rfl := Option.some.inj hc
        exact heq ▸ hin
      · exact (h.world c name hc).of_follows hfollows
    · refine h.backed.rpcPlayerLogin_iff.mpr fun name hold ↦ ?_
      exact hname name (h.world _ name (h.backed name _ hold))
  | worldFail i =>
    obtain ⟨call, -, -, rfl⟩ := worldFail_eq_some_iff.mp hstep
    exact h.keep hfollows rfl rfl
  | answer i =>
    obtain ⟨call, rsp, gate, sent, phase, -, -, -, rfl⟩ := answer_eq_some_iff.mp hstep
    exact h.keep hfollows rfl rfl
  | gameAdd i =>
    obtain ⟨call, hget, hphase, rfl⟩ := gameAdd_eq_some_iff.mp hstep
    have hmem := List.mem_of_getElem? hget
    have hin : LetIn (s.setPhase i call .finished) call.connid call.login.name :=
      ⟨_, List.mem_set (List.getElem?_eq_some_iff.mp hget).1 _, rfl, rfl, rfl⟩
    have hconsistent : (s.game.rpcAddPlayer call.connid call.login).Consistent := by
      refine h.consistent.rpcAddPlayer_iff.mpr fun name hold ↦ ?_
      exact h.name_of_letIn hmem (by rw [hphase]; rfl) (h.game _ name hold)
    refine ⟨h.names_of_follows hfollows, fun c name hc ↦ (h.world c name hc).of_follows hfollows,
      fun c name hc ↦ ?_, h.backed, hconsistent⟩
    change (s.game.rpcAddPlayer call.connid call.login).nameOf c = some name at hc
    rw [Game.nameOf_rpcAddPlayer, Function.update_apply] at hc
    split_ifs at hc with heq
    · obtain rfl := Option.some.inj hc
      exact heq ▸ hin
    · rw [h.consistent.nameOf_evict] at hc
      split_ifs at hc
      exact (h.game c name hc).of_follows hfollows
  | gameFail i =>
    obtain ⟨call, -, -, rfl⟩ := gameFail_eq_some_iff.mp hstep
    exact h.keep hfollows rfl rfl
  | worldClose k =>
    obtain ⟨connid, -, rfl⟩ := worldClose_eq_some_iff.mp hstep
    refine ⟨h.names, fun c name hc ↦ h.world c name ?_, h.game, h.backed.onClose, h.consistent⟩
    change (s.world.onClose connid).logins.lookup c = some name at hc
    rw [World.logins_onClose] at hc
    split_ifs at hc
    exact hc
  | gameClose k =>
    obtain ⟨connid, -, rfl⟩ := gameClose_eq_some_iff.mp hstep
    refine ⟨h.names, h.world, fun c name hc ↦ h.game c name ?_, h.backed, h.consistent.onClose⟩
    change (s.game.onClose connid).nameOf c = some name at hc
    rw [Game.nameOf_onClose] at hc
    split_ifs at hc
    exact hc

/-! ## Two names at once -/

/-- Call `i` has been added to the game, and nothing else has happened. -/
structure Added (s t : Server) (i : ℕ) (call : LoginCall) : Prop where
  nameOf : t.game.nameOf call.connid = some call.login.name
  connOf : t.game.connOf call.login.name = some call.connid
  others : ∀ name, name ≠ call.login.name → t.game.connOf name = s.game.connOf name
  calls : ∀ j, j ≠ i → t.logins[j]? = s.logins[j]?
  nodes : Gate.SameNodes s.gate t.gate

/-- A step of the call before it is added. -/
theorem Added.head {t : Server} {call : LoginCall} {phase : LoginPhase}
    (h : Added s' t i { call with phase := phase }) (hgame : s'.game = s.game)
    (hlogins : s'.logins = s.logins.set i { call with phase := phase })
    (hsame : Gate.SameNodes s.gate s'.gate) : Added s t i call where
  nameOf := h.nameOf
  connOf := h.connOf
  others := fun name hname ↦ (h.others name hname).trans (by rw [hgame])
  calls := fun j hj ↦ by rw [h.calls j hj, hlogins, List.getElem?_set_ne hj.symm]
  nodes := hsame.trans h.nodes

theorem exists_added_of_adding (ids : Ids) {call : LoginCall} (hget : s.logins[i]? = some call)
    (hphase : call.phase = .adding) :
    ∃ t, Machine.Reachable (step ids) s t ∧ Added s t i call := by
  have hadd : s.step ids (.gameAdd i) = some { s.setPhase i call .finished with
      game := s.game.rpcAddPlayer call.connid call.login } :=
    gameAdd_eq_some_iff.mpr ⟨call, hget, hphase, rfl⟩
  refine ⟨_, (Machine.Reachable.refl _).head hadd, ?_⟩
  refine ⟨?_, ?_, fun name hname ↦ ?_, fun j hj ↦ List.getElem?_set_ne hj.symm,
    Gate.SameNodes.refl _⟩
  · change (s.game.rpcAddPlayer call.connid call.login).nameOf call.connid = _
    rw [Game.nameOf_rpcAddPlayer, Function.update_self]
  · change (s.game.rpcAddPlayer call.connid call.login).connOf call.login.name = _
    rw [Game.connOf_rpcAddPlayer, Function.update_self]
  · change (s.game.rpcAddPlayer call.connid call.login).connOf name = _
    rw [Game.connOf_rpcAddPlayer, Function.update_of_ne hname, Game.connOf_evict,
      Function.update_of_ne hname]

theorem exists_added_of_answered (ids : Ids) {call : LoginCall} {rsp : MsgLoginResponce}
    (hget : s.logins[i]? = some call) (hphase : call.phase = .answered (some rsp))
    (hok : rsp.result = .ok)
    (hplayer : ∃ node, s.gate.players.lookup call.connid = some node ∧ node.addr = call.addr) :
    ∃ t, Machine.Reachable (step ids) s t ∧ Added s t i call := by
  have hsome : (s.gate.coLoginAnswered call (some rsp)).isSome = true :=
    (Gate.coLoginAnswered_isSome _ _ _).mpr fun _ ↦ hplayer
  obtain ⟨⟨gate, sent, phase⟩, hanswer⟩ := Option.isSome_iff_exists.mp hsome
  obtain ⟨hsame, hnext⟩ := Gate.coLoginAnswered_spec hanswer
  obtain rfl : phase = .adding := by
    rcases hnext with rfl | ⟨rfl, -⟩
    · simp only [Gate.coLoginAnswered, hok, if_pos] at hanswer
      grind
    · rfl
  have hstep : s.step ids (.answer i) = some { s.setPhase i call .adding with gate := gate } :=
    answer_eq_some_iff.mpr ⟨call, some rsp, gate, sent, .adding, hget, hphase, hanswer, rfl⟩
  obtain ⟨t, hreach, ht⟩ := exists_added_of_adding ids
    (s := { s.setPhase i call .adding with gate := gate })
    (List.getElem?_set_self (List.getElem?_eq_some_iff.mp hget).1) rfl
  exact ⟨t, hreach.head hstep, ht.head rfl rfl hsame⟩

theorem exists_added (ids : Ids) {call : LoginCall} (hget : s.logins[i]? = some call)
    (hunder : call.phase.underWay = true) (hserved : s.Served)
    (hplayer : ∃ node, s.gate.players.lookup call.connid = some node ∧ node.addr = call.addr) :
    ∃ t, Machine.Reachable (step ids) s t ∧ Added s t i call := by
  cases hphase : call.phase with
  | adding => exact exists_added_of_adding ids hget hphase
  | answered rsp =>
    cases rsp with
    | none =>
      rw [hphase] at hunder
      exact absurd hunder Bool.false_ne_true
    | some rsp =>
      exact exists_added_of_answered ids hget hphase
        (hserved call (List.mem_of_getElem? hget) rsp hphase) hplayer
  | asking =>
    have hstep : s.step ids (.worldLogin i) = some (s.serve ids i call) :=
      worldLogin_eq_some_iff.mpr ⟨call, hget, hphase, rfl⟩
    obtain ⟨t, hreach, ht⟩ := exists_added_of_answered ids (s := s.serve ids i call)
      (List.getElem?_set_self (List.getElem?_eq_some_iff.mp hget).1) rfl rfl hplayer
    exact ⟨t, hreach.head hstep, ht.head rfl rfl (Gate.SameNodes.refl _)⟩
  | failed | finished =>
    rw [hphase] at hunder
    exact absurd hunder Bool.false_ne_true

/-- Two logins of one connection, under two names, lead to tables that contradict each other. -/
theorem exists_inconsistent {l : Label} (hnamed : s.Named) (hother : ¬ s.OneName ids l)
    (hstep : s.step ids l = some s') :
    ∃ t, Machine.Reachable (step ids) s' t ∧ ¬ t.game.Consistent := by
  cases l with
  | deliver k =>
    have hnamed' := named_step s (.deliver k) s' hnamed trivial hstep
    obtain ⟨m, hget, rfl⟩ := deliver_eq_some_iff.mp hstep
    simp only [OneName, not_forall] at hother
    obtain ⟨new, hnew, call, hmem, hunder, hconnid, hname⟩ := hother
    rw [hget, Option.bind_some] at hnew
    have hcall : (s.gate.onMsg ids m).call = some new := hnew
    by_cases hstart : ∃ src c, m = .wsStart src c
    · obtain ⟨src, c, rfl⟩ := hstart
      exact absurd hcall (by simp [Gate.onMsg])
    by_cases hstop : ∃ c, m = .wsStop c
    · obtain ⟨c, rfl⟩ := hstop
      exact absurd hcall (by simp [Gate.onMsg])
    simp only [not_exists] at hstart hstop
    obtain ⟨hsame, -, hspec⟩ := Gate.onMsg_spec s.gate ids m hstart hstop
    obtain ⟨hasking, node, -, hnode, -⟩ := hspec new hcall
    obtain ⟨node', hnode', -⟩ := hsame.kept _ node hnode
    obtain ⟨i, hi⟩ := List.mem_iff_getElem?.mp hmem
    have hlt := (List.getElem?_eq_some_iff.mp hi).1
    have hlogins : (s.react ids k m).logins = s.logins ++ [new] := by
      change s.logins ++ (s.gate.onMsg ids m).call.toList = _
      rw [hcall, Option.toList_some]
    have hfirst : (s.react ids k m).logins[i]? = some call := by
      rw [hlogins, List.getElem?_append_left hlt, hi]
    have hsecond : (s.react ids k m).logins[s.logins.length]? = some new := by
      rw [hlogins, List.getElem?_concat_length]
    -- First the old login is added to the game, and then the new one.
    obtain ⟨t, hreach, ht⟩ := exists_added ids hfirst hunder hnamed'.served
      ⟨node', hconnid ▸ hnode', hnamed'.addr call (List.mem_of_getElem? hfirst) node'
        (hconnid ▸ hnode')⟩
    obtain ⟨node'', hnode'', hkept⟩ := ht.nodes.kept _ node' hnode'
    have hsecond' : t.logins[s.logins.length]? = some new := by
      rw [ht.calls _ hlt.ne', hsecond]
    obtain ⟨u, hreach', hu⟩ := exists_added ids hsecond' (by rw [hasking]; rfl)
      (hreach.invariant served_step hnamed'.served)
      ⟨node'', hnode'', hkept.1.trans (hnamed'.addr new (List.mem_of_getElem? hsecond) node' hnode')⟩
    refine ⟨u, hreach.trans hreach', fun hconsistent ↦ ?_⟩
    have hconn : u.game.connOf call.login.name = some new.connid := by
      rw [hu.others _ hname, ht.connOf, hconnid]
    have hboth := (hconsistent new.connid call.login.name).mpr hconn
    rw [hu.nameOf, Option.some_inj] at hboth
    exact hname hboth.symm
  | accept | read | hangUp | notify | worldLogin | worldFail | answer | gameAdd | gameFail
  | worldClose | gameClose => exact absurd trivial hother

end Steps

/-- In every run in which no login passes the gate while one of the same connection under another
name is under way, the tables of the game are inverse, who is registered in the world has logged in
there with that name, and the world and the game know a connection by the same name.  Wherever the
condition is broken, tables of the game that are not inverse can follow. -/
theorem consistent_iff_oneName (ids : Ids) :
    (∀ ls s, Machine.AllSteps (step ids) (fun s l ↦ s.Counts l ∧ s.OneName ids l) {} ls →
      Machine.run (step ids) {} ls = some s → s.game.Consistent ∧ s.world.Backed ∧
        ∀ c name name', s.world.logins.lookup c = some name → s.game.nameOf c = some name' →
          name = name') ∧
    ∀ ls s l s', Machine.AllSteps (step ids) Counts {} ls → Machine.run (step ids) {} ls = some s →
      ¬ s.OneName ids l → s.step ids l = some s' →
        ∃ t, Machine.Reachable (step ids) s' t ∧ ¬ t.game.Consistent := by
  constructor
  · intro ls s hok hrun
    obtain ⟨hnamed, h⟩ : s.Named ∧ s.Agreed :=
      Machine.run_invariant agreed_step ⟨named_init, agreed_init⟩ hok hrun
    refine ⟨h.consistent, h.backed, fun c name name' hworld hgame ↦ ?_⟩
    obtain ⟨call, hmem, hserved, rfl, rfl⟩ := h.world c name hworld
    exact (h.name_of_letIn hmem (live_of_served hserved) (h.game _ name' hgame)).symm
  · intro ls s l s' hcounts hrun
    exact exists_inconsistent (Machine.run_invariant named_step named_init hcounts hrun)

/-- A second connection logs in with the name of the first; and a connection sends a second login,
with another name, before the world has answered. -/
theorem consistent_iff_oneName_login :
    (∃ s, Machine.run (step ⟨1, 2, 3⟩) {} (loginRun ++ [.accept, .deliver 0,
        .read 2 (.login 1 (some ⟨"ann", "", 3⟩)), .deliver 0, .worldLogin 1, .answer 1,
        .gameAdd 1]) = some s ∧
      s.game.nameOf 2 = some "ann" ∧ s.game.Consistent ∧ s.world.Backed) ∧
    ∃ s t, Machine.Reachable (step ⟨1, 2, 3⟩) {} s ∧
      s.step ⟨1, 2, 3⟩ (.deliver 0) = some t ∧
      ∃ u, Machine.Reachable (step ⟨1, 2, 3⟩) t u ∧ ¬ u.game.Consistent := by
  constructor
  · have hrun : ((Machine.run (step ⟨1, 2, 3⟩) {} (loginRun ++ [.accept, .deliver 0,
        .read 2 (.login 1 (some ⟨"ann", "", 3⟩)), .deliver 0, .worldLogin 1, .answer 1,
        .gameAdd 1])).bind fun s ↦ s.game.nameOf 2) = some "ann" := by decide
    obtain ⟨s, hs, hname⟩ := Option.bind_eq_some_iff.mp hrun
    obtain ⟨hconsistent, hbacked, -⟩ :=
      (consistent_iff_oneName ⟨1, 2, 3⟩).1 _ s (by decide) hs
    exact ⟨s, hs, hname, hconsistent, hbacked⟩
  · have hrun : ((Machine.run (step ⟨1, 2, 3⟩) {} (loginRun.take 4 ++
        [.read 1 (.login 2 (some ⟨"bob", "", 3⟩))])).bind fun s ↦
        if s.OneName ⟨1, 2, 3⟩ (.deliver 0) then none
        else s.step ⟨1, 2, 3⟩ (.deliver 0)).isSome = true := by decide
    obtain ⟨t, ht⟩ := Option.isSome_iff_exists.mp hrun
    obtain ⟨s, hs, hlast⟩ := Option.bind_eq_some_iff.mp ht
    split_ifs at hlast with hone
    exact ⟨s, t, ⟨_, hs⟩, hlast, (consistent_iff_oneName ⟨1, 2, 3⟩).2 _ s (.deliver 0) t (by decide)
      hs hone hlast⟩

end Server

end Cqy.Demo
