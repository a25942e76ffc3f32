import Cqy.Ctx.Dispatch
import Cqy.Node.SendLoop
import Cqy.Registry.CreateCtx
import Cqy.Wire.RoundTrip

/-!
# Sending to a peer that starts up

A node keeps sending to a peer until the remote call succeeds, and the call succeeds when
`rpc_on_mq` has returned.  The peer opens its server before it creates its bootstrap context:
`on_init` registers the names of the context, and only after that is the context inserted.
`rpc_on_mq` looks each message up in the tables it finds and drops the message silently when the
name or the context is missing, so a batch that lands in between is acknowledged and lost.

The machine below interleaves the send loop with the start of the peer and with every run of
`rpc_on_mq`, one access to the registry at a time.  A request that failed may leave a run behind,
which goes on or starts at any later time.
-/

namespace Cqy

open Foundation

/-- A frame in the queue of the peer, with the name for which `dispatch` built it. -/
structure Mail where
  frame : CqyStr
  dest : Option Bytes
deriving DecidableEq

/-- The mail was dispatched to one of the names. -/
def Mail.isFor (m : Mail) (names : List Bytes) : Bool :=
  match m.dest with
  | some name => decide (name ∈ names)
  | none => false

/-- How far `cqy_app::start` has come on the peer.  While `on_init` registers names, `rest` are the
names to come. -/
inductive Boot where
  | starting
  | serving
  | registering (h : CqyHandle) (rest : List Bytes)
  | live (h : CqyHandle)
  | failed
deriving DecidableEq

namespace Boot

/-- Of the names of the bootstrap context, the ones that are registered. -/
def bound : Boot → Option Bytes → Bool
  | registering _ rest, some name => decide (name ∉ rest)
  | live _, _ => true
  | _, _ => false

def isLive : Boot → Bool
  | live _ => true
  | _ => false

def handle : Boot → Option CqyHandle
  | registering h _ | live h => some h
  | _ => none

end Boot

/-- A run of `rpc_on_mq`: the messages to come, the id looked up for the first of them, and whether
a message for the bootstrap context was looked up before its name was registered or its context
inserted. -/
structure MqTask where
  rest : List Mail
  looked : Option UInt32
  early : Bool
deriving DecidableEq

namespace MqTask

/-- The loop body of `rpc_on_mq` up to `find_name`. -/
def lookUp (names : List Bytes) (boot : Boot) (mgr : CtxMgr Unit) (t : MqTask) : Option MqTask :=
  match t.looked, t.rest with
  | none, mail :: _ =>
    match mail.frame.parse true with
    | none => some { t with rest := [] }
    | some cmsg =>
      some { t with
        looked := some (App.mqTarget mgr cmsg mail.frame)
        early := t.early || (mail.isFor names && !boot.bound mail.dest) }
  | _, _ => none

/-- The rest of the loop body: `get_ctx`, and the push when there is a context. -/
def deliver (names : List Bytes) (boot : Boot) (mgr : CtxMgr Unit) (t : MqTask) :
    Option (MqTask × List Mail) :=
  match t.looked, t.rest with
  | some id, mail :: rest =>
    some (⟨rest, none, t.early || (mail.isFor names && !boot.isLive)⟩,
      match mgr.getCtx id with
      | some _ => [mail]
      | none => [])
  | _, _ => none

end MqTask

/-- The send loop, the start of the peer, the run of `rpc_on_mq` for the request under way, the runs
that failed requests left behind, and the messages pushed into the queue of the bootstrap
context. -/
structure StartUp where
  send : SendLoop Mail := {}
  boot : Boot := .starting
  mgr : CtxMgr Unit := CtxMgr.empty
  current : Option MqTask := none
  stale : List MqTask := []
  log : List Mail := []

namespace StartUp

inductive Label where
  /-- A context of the sender dispatches to a name of the peer, which `get_ctxid` finds under
  `ctxid` in the sender's own table, or misses with 0. -/
  | dispatch (fill : ℕ → UInt8) (self session ctxid : UInt32) (name : Bytes) (t : UInt8)
    (data : Bytes)
  /-- The sender pushes any other frame for the peer. -/
  | push (frame : CqyStr)
  | sender (l : SendLoop.Label Mail)
  /-- `rpc_server_start`. -/
  | serverStart
  /-- `create_ctx` up to `attach_init`. -/
  | attachInit
  /-- `on_init` registers the next name. -/
  | registerName
  | addCtx
  /-- A step of the run of the request under way, or of a run left behind. -/
  | lookUp (i : Option ℕ)
  | deliver (i : Option ℕ)

/-- Whether `node_mq_push` takes a frame to the queue of the peer. -/
def accepts (nodeid : UInt8) (frame : CqyStr) : Bool :=
  match frame.parse true with
  | some cmsg => decide ((CqyHandle.mk cmsg.toId).nodeid = nodeid)
  | none => false

/-- The frame that `dispatch` builds for the name of a context of the node `nodeid`.  The own node
and the node 0 take the branch that looks the name up in the sender's own table. -/
def dispatchFrame (nodeid : UInt8) (fill : ℕ → UInt8) (self session ctxid : UInt32)
    (name : Bytes) (t : UInt8) (data : Bytes) : CqyStr :=
  if nodeid = (CqyHandle.mk self).nodeid ∨ nodeid = 0 then
    CqyStr.make fill [] self ctxid session t false data
  else CqyStr.makeRouted fill [] self nodeid name session t false data

/-- It is the frame of `dispatch` to the string with this handle and this name. -/
theorem msg_dispatchName {C : Type*} {a : App C} {fill : ℕ → UInt8} {self session : UInt32}
    {nodectx name : Bytes} {t : UInt8} {data : Bytes} {h : CqyHandle}
    (hself : (CqyHandle.mk self).nodeid = a.config.nodeid)
    (hhandle : a.getHandle nodectx = some (h, name)) :
    (dispatchName a fill self session nodectx t data).msg =
      some (dispatchFrame h.nodeid fill self (session + 1) (a.mgr.findName name) name t data) := by
  rw [dispatchName, hhandle, dispatchFrame, hself]
  dsimp only
  split_ifs <;> rfl

def mqPush (nodeid : UInt8) (s : StartUp) (mail : Mail) : Option StartUp :=
  if accepts nodeid mail.frame then
    (s.send.step (.pushTest mail)).map fun send ↦ { s with send := send }
  else some s

def senderStep (s : StartUp) (l : SendLoop.Label Mail) : Option StartUp :=
  match l with
  | .pushTest _ => none
  | .execute =>
    if s.boot = .starting then none
    else (s.send.step .execute).map fun send ↦
      { s with send := send, current := some ⟨s.send.msgs, none, false⟩ }
  | .acknowledge =>
    match s.current with
    | some ⟨[], _, _⟩ =>
      (s.send.step .acknowledge).map fun send ↦ { s with send := send, current := none }
    | _ => none
  | .connError =>
    (s.send.step .connError).map fun send ↦
      { s with
        send := send
        current := none
        stale := s.stale ++ [s.current.getD ⟨s.send.msgs, none, false⟩] }
  | .callError =>
    (s.send.step .callError).map fun send ↦
      { s with
        send := send
        current := none
        stale := s.stale ++ [s.current.getD ⟨s.send.msgs, none, false⟩] }
  | l => (s.send.step l).map fun send ↦ { s with send := send }

/-- One step of the two nodes; the peer has the id `nodeid`, and the `on_init` of its bootstrap
context registers `names`. -/
def step (nodeid : UInt8) (names : List Bytes) (s : StartUp) : Label → Option StartUp
  | .dispatch fill self session ctxid name t data =>
    -- the contexts of the sender are not the peer's
    if name = [] ∨ (CqyHandle.mk self).nodeid = nodeid then none
    else mqPush nodeid s ⟨dispatchFrame nodeid fill self session ctxid name t data, some name⟩
  | .push frame => mqPush nodeid s ⟨frame, none⟩
  | .sender l => senderStep s l
  | .serverStart => if s.boot = .starting then some { s with boot := .serving } else none
  | .attachInit =>
    if s.boot = .serving then
      some { s with
        boot := .registering (createdHandle nodeid s.mgr.newId.1) names
        mgr := s.mgr.newId.2 }
    else none
  | .registerName =>
    match s.boot with
    | .registering h (name :: rest) =>
      match s.mgr.registerName name h.id with
      | .ok mgr => some { s with boot := .registering h rest, mgr := mgr }
      | .error _ => some { s with boot := .failed }
    | _ => none
  | .addCtx =>
    match s.boot with
    | .registering h [] => some { s with boot := .live h, mgr := s.mgr.addCtx h.id () }
    | _ => none
  | .lookUp none =>
    (s.current.bind (MqTask.lookUp names s.boot s.mgr)).map fun t ↦ { s with current := some t }
  | .lookUp (some i) =>
    if s.boot = .starting then none
    else (s.stale[i]?.bind (MqTask.lookUp names s.boot s.mgr)).map fun t ↦
      { s with stale := s.stale.set i t }
  | .deliver none =>
    (s.current.bind (MqTask.deliver names s.boot s.mgr)).map fun (t, mails) ↦
      { s with current := some t, log := s.log ++ mails }
  | .deliver (some i) =>
    if s.boot = .starting then none
    else (s.stale[i]?.bind (MqTask.deliver names s.boot s.mgr)).map fun (t, mails) ↦
      { s with stale := s.stale.set i t, log := s.log ++ mails }

/-- The steps after which nothing acknowledged is missing: no dispatch to a bootstrap name that
`dispatch` looks up in its own table because the peer is the node 0, or that is too long for its
length byte, and no acknowledgement of a run of `rpc_on_mq` that looked up a message for the
bootstrap context too early. -/
def Timely (nodeid : UInt8) (names : List Bytes) (s : StartUp) : Label → Prop
  | .dispatch _ _ _ _ name _ _ => name ∈ names → nodeid ≠ 0 ∧ name.length < 256
  | .sender .acknowledge => ∀ t ∈ s.current, t.early = false
  | _ => True

instance (nodeid : UInt8) (names : List Bytes) (s : StartUp) :
    DecidablePred (Timely nodeid names s)
  | .dispatch _ _ _ _ name _ _ =>
    inferInstanceAs (Decidable (name ∈ names → nodeid ≠ 0 ∧ name.length < 256))
  | .sender .acknowledge => inferInstanceAs (Decidable (∀ t ∈ s.current, t.early = false))
  | .push _ | .serverStart | .attachInit | .registerName | .addCtx | .lookUp _ | .deliver _
  | .sender (.pushTest _) | .sender (.pushEnqueue _) | .sender .shutdownQueue
  | .sender .resetClient | .sender .test | .sender .size | .sender .fetch | .sender .send
  | .sender .execute | .sender .connError | .sender .callError | .sender .wake =>
    inferInstanceAs (Decidable True)

/-- Every acknowledged message for the bootstrap context is in its queue's history, in order and as
often as it was acknowledged, unless the context could not be created. -/
def Enqueued (names : List Bytes) (s : StartUp) : Prop :=
  s.boot ≠ .failed → (s.send.acked.flatten.filter fun m ↦ m.isFor names).Sublist s.log

/-! ## The invariant -/

/-- What the tables of the peer hold, by how far its start has come. -/
def BootOk (names : List Bytes) (boot : Boot) (mgr : CtxMgr Unit) : Prop :=
  match boot with
  | .starting | .serving => mgr = CtxMgr.empty
  | .registering h rest =>
    (∃ done, names = done ++ rest ∧ ∀ name ∈ done, mgr.findName name = h.id) ∧
      mgr.getCtx h.id = none
  | .live h => (∀ name ∈ names, mgr.findName name = h.id) ∧ mgr.getCtx h.id = some ()
  | .failed => True

/-- The frame of a mail is well formed and, when the mail is for a bootstrap name, carries it. -/
def MailOk (names : List Bytes) (m : Mail) : Prop :=
  (m.frame.parse true).isSome ∧ ∀ name ∈ m.dest, name ∈ names →
    m.frame.name.size ≠ 0 ∧ m.frame.name.read m.frame = name

/-- The run of the request under way has dealt with the messages `done`; if it was not early, those
for the bootstrap context are in the history, and the id it holds is the one of the context. -/
def TaskOk (names : List Bytes) (s : StartUp) (t : MqTask) : Prop :=
  ∃ done, s.send.msgs = done ++ t.rest ∧
    (t.early = false → s.boot ≠ .failed →
      ((s.send.acked.flatten ++ done).filter fun m ↦ m.isFor names).Sublist s.log ∧
      ∀ id m rest, t.looked = some id → t.rest = m :: rest → m.isFor names = true →
        ∃ h ∈ s.boot.handle, id = h.id)

structure Inv (names : List Bytes) (s : StartUp) : Prop where
  boot : BootOk names s.boot s.mgr
  mails : ∀ m ∈ s.send.held, MailOk names m
  enqueued : Enqueued names s
  current : ∀ t ∈ s.current, s.send.pc = .sending true ∧ TaskOk names s t

theorem inv_init (names : List Bytes) : Inv names {} where
  boot := rfl
  mails := by simp [SendLoop.held]
  enqueued _ := List.nil_sublist _
  current := by simp

/-! ## The registry of the peer -/

theorem bootOk_register {names : List Bytes} {h : CqyHandle} {name : Bytes} {rest : List Bytes}
    {mgr mgr' : CtxMgr Unit} (hok : BootOk names (.registering h (name :: rest)) mgr)
    (hreg : mgr.registerName name h.id = .ok mgr') : BootOk names (.registering h rest) mgr' := by
  obtain ⟨⟨done, hnames, hdone⟩, hnone⟩ := hok
  refine ⟨⟨done ++ [name], by simp [hnames], fun name' hname' ↦ ?_⟩, ?_⟩
  · rw [CtxMgr.findName_registerName hreg]
    split_ifs with heq
    · rfl
    · rw [List.mem_append, List.mem_singleton] at hname'
      exact hdone name' (hname'.resolve_right heq)
  · rw [CtxMgr.getCtx_registerName hreg, hnone]

theorem bootOk_addCtx {names : List Bytes} {h : CqyHandle} {mgr : CtxMgr Unit}
    (hok : BootOk names (.registering h []) mgr) : BootOk names (.live h) (mgr.addCtx h.id ()) := by
  obtain ⟨⟨done, hnames, hdone⟩, hnone⟩ := hok
  rw [List.append_nil] at hnames
  refine ⟨fun name hname ↦ ?_, ?_⟩
  · rw [CtxMgr.findName_addCtx]
    exact hdone name (hnames ▸ hname)
  · rw [CtxMgr.getCtx_addCtx_of_none hnone, if_pos rfl]

/-- A bound name of the bootstrap context leads to its id. -/
theorem findName_of_bound {names : List Bytes} {boot : Boot} {mgr : CtxMgr Unit}
    (hok : BootOk names boot mgr) {name : Bytes} (hname : name ∈ names)
    (hbound : boot.bound (some name) = true) : ∃ h ∈ boot.handle, mgr.findName name = h.id := by
  cases boot with
  | starting | serving | failed => exact absurd hbound (by simp [Boot.bound])
  | registering h rest =>
    obtain ⟨⟨done, rfl, hdone⟩, -⟩ := hok
    have hrest : name ∉ rest := by simpa [Boot.bound] using hbound
    exact ⟨h, rfl, hdone name ((List.mem_append.mp hname).resolve_right hrest)⟩
  | live h => exact ⟨h, rfl, hok.1 name hname⟩

theorem getCtx_of_live {names : List Bytes} {boot : Boot} {mgr : CtxMgr Unit}
    (hok : BootOk names boot mgr) (hlive : boot.isLive = true) :
    ∃ h ∈ boot.handle, mgr.getCtx h.id = some () := by
  cases boot with
  | starting | serving | failed => exact absurd hlive (by simp [Boot.isLive])
  | registering h rest => exact absurd hlive (by simp [Boot.isLive])
  | live h => exact ⟨h, rfl, hok.2⟩

/-! ## The steps of the peer -/

/-- Steps of the start: the loop, the runs and the history stay, and an id that is drawn stays. -/
theorem Inv.of_boot {names : List Bytes} {s : StartUp} (h : Inv names s) {boot : Boot}
    {mgr : CtxMgr Unit} (hok : BootOk names boot mgr)
    (hfailed : boot ≠ .failed → s.boot ≠ .failed ∧ ∀ h ∈ s.boot.handle, h ∈ boot.handle) :
    Inv names { s with boot := boot, mgr := mgr } where
  boot := hok
  mails := h.mails
  enqueued hboot := h.enqueued (hfailed hboot).1
  current t ht := by
    obtain ⟨hpc, done, hmsgs, htask⟩ := h.current t ht
    refine ⟨hpc, done, hmsgs, fun hearly hboot ↦ ?_⟩
    obtain ⟨hsub, hlooked⟩ := htask hearly (hfailed hboot).1
    refine ⟨hsub, fun id m rest hid hrest hfor ↦ ?_⟩
    obtain ⟨h', hh', heq⟩ := hlooked id m rest hid hrest hfor
    exact ⟨h', (hfailed hboot).2 h' hh', heq⟩

theorem inv_boot_step {nodeid : UInt8} {names : List Bytes} {s s' : StartUp} {l : Label}
    (hl : l = .serverStart ∨ l = .attachInit ∨ l = .registerName ∨ l = .addCtx)
    (h : Inv names s) (hstep : step nodeid names s l = some s') : Inv names s' := by
  have hok := h.boot
  rcases hl with rfl | rfl | rfl | rfl <;> rw [step] at hstep
  · split_ifs at hstep with hboot
    obtain rfl := Option.some.inj hstep
    rw [hboot] at hok
    have hserving : BootOk names .serving s.mgr := hok
    exact h.of_boot hserving fun _ ↦ by simp [hboot, Boot.handle]
  · split_ifs at hstep with hboot
    obtain rfl := Option.some.inj hstep
    rw [hboot] at hok
    refine h.of_boot ⟨⟨[], rfl, by simp⟩, ?_⟩ fun _ ↦ by simp [hboot, Boot.handle]
    rw [CtxMgr.getCtx_newId, hok]
    rfl
  · split at hstep
    · rename_i h' name rest hboot
      rw [hboot] at hok
      split at hstep <;> obtain rfl := Option.some.inj hstep
      · rename_i mgr hreg
        exact h.of_boot (bootOk_register hok hreg) fun _ ↦ by simp [hboot, Boot.handle]
      · have hfailed : BootOk names .failed s.mgr := trivial
        exact h.of_boot hfailed fun hne ↦ absurd rfl hne
    · exact absurd hstep (by simp)
  · split at hstep
    · rename_i h' hboot
      rw [hboot] at hok
      obtain rfl := Option.some.inj hstep
      exact h.of_boot (bootOk_addCtx hok) fun _ ↦ by simp [hboot, Boot.handle]
    · exact absurd hstep (by simp)

/-- Runs that failed requests left behind only add to the history. -/
theorem Inv.of_stale {names : List Bytes} {s : StartUp} (h : Inv names s) (stale : List MqTask)
    (mails : List Mail) : Inv names { s with stale := stale, log := s.log ++ mails } where
  boot := h.boot
  mails := h.mails
  enqueued hboot := (h.enqueued hboot).trans (List.sublist_append_left _ _)
  current t ht := by
    obtain ⟨hpc, done, hmsgs, htask⟩ := h.current t ht
    refine ⟨hpc, done, hmsgs, fun hearly hboot ↦ ?_⟩
    obtain ⟨hsub, hlooked⟩ := htask hearly hboot
    exact ⟨hsub.trans (List.sublist_append_left _ _), hlooked⟩

/-- A mail for a bootstrap name is looked up under that name. -/
theorem mqTarget_of_isFor {names : List Bytes} {m : Mail} (hok : MailOk names m)
    (hfor : m.isFor names = true) (mgr : CtxMgr Unit) (cmsg : CqyMsg) :
    ∃ name ∈ names, m.dest = some name ∧ App.mqTarget mgr cmsg m.frame = mgr.findName name := by
  rw [Mail.isFor] at hfor
  split at hfor
  · rename_i name hdest
    have hname : name ∈ names := of_decide_eq_true hfor
    obtain ⟨hsize, hread⟩ := hok.2 name hdest hname
    exact ⟨name, hname, hdest, by rw [App.mqTarget, if_pos hsize, hread]⟩
  · exact absurd hfor (by simp)

theorem inv_lookUp {nodeid : UInt8} {names : List Bytes} {s s' : StartUp} (h : Inv names s)
    (hstep : step nodeid names s (.lookUp none) = some s') : Inv names s' := by
  obtain ⟨t', hbind, rfl⟩ := Option.map_eq_some_iff.mp hstep
  obtain ⟨t, ht, hlook⟩ := Option.bind_eq_some_iff.mp hbind
  obtain ⟨hpc, done, hmsgs, htask⟩ := h.current t ht
  refine ⟨h.boot, h.mails, h.enqueued, fun u hu ↦ ?_⟩
  obtain rfl := Option.some.inj hu
  refine ⟨hpc, ?_⟩
  unfold MqTask.lookUp at hlook
  split at hlook
  · rename_i mail rest hlooked hrest
    have hmail : MailOk names mail := by
      refine h.mails mail (List.mem_append_right _ ?_)
      rw [hmsgs, hrest]
      exact List.mem_append_right _ (List.mem_cons_self ..)
    split at hlook
    · rename_i hparse
      exact absurd hmail.1 (by simp [hparse])
    · rename_i cmsg hparse
      obtain rfl := Option.some.inj hlook
      refine ⟨done, hmsgs, fun hearly hboot ↦ ?_⟩
      rw [Bool.or_eq_false_iff] at hearly
      obtain ⟨hsub, -⟩ := htask hearly.1 hboot
      refine ⟨hsub, fun id m rest' hid hrest' hfor ↦ ?_⟩
      obtain rfl := Option.some.inj hid
      obtain ⟨rfl, rfl⟩ := List.cons.inj (hrest.symm.trans hrest')
      obtain ⟨name, hname, hdest, htarget⟩ := mqTarget_of_isFor hmail hfor s.mgr cmsg
      have hbound : s.boot.bound (some name) = true := by
        have hnot := hearly.2
        rw [hfor, hdest] at hnot
        simpa using hnot
      rw [htarget]
      exact findName_of_bound h.boot hname hbound
  · exact absurd hlook (by simp)

theorem inv_deliver {nodeid : UInt8} {names : List Bytes} {s s' : StartUp} (h : Inv names s)
    (hstep : step nodeid names s (.deliver none) = some s') : Inv names s' := by
  obtain ⟨⟨t', mails⟩, hbind, rfl⟩ := Option.map_eq_some_iff.mp hstep
  obtain ⟨t, ht, hdeliver⟩ := Option.bind_eq_some_iff.mp hbind
  obtain ⟨hpc, done, hmsgs, htask⟩ := h.current t ht
  refine ⟨h.boot, h.mails, fun hboot ↦ (h.enqueued hboot).trans (List.sublist_append_left _ _),
    fun u hu ↦ ?_⟩
  obtain rfl := Option.some.inj hu
  refine ⟨hpc, ?_⟩
  unfold MqTask.deliver at hdeliver
  split at hdeliver
  · rename_i id mail rest hlooked hrest
    obtain ⟨rfl, rfl⟩ := Prod.mk.inj (Option.some.inj hdeliver)
    refine ⟨done ++ [mail], by simp [hmsgs, hrest], fun hearly hboot ↦ ?_⟩
    rw [Bool.or_eq_false_iff] at hearly
    obtain ⟨hsub, hid⟩ := htask hearly.1 hboot
    refine ⟨?_, fun id m rest' hnone ↦ absurd hnone (by simp)⟩
    rw [← List.append_assoc, List.filter_append]
    by_cases hfor : mail.isFor names = true
    · -- the context is there under the id that was looked up, so the mail is pushed
      have hlive : s.boot.isLive = true := by simpa [hfor] using hearly.2
      obtain ⟨h', hh', hget⟩ := getCtx_of_live h.boot hlive
      obtain ⟨h'', hh'', rfl⟩ := hid id mail rest hlooked hrest hfor
      obtain rfl := Option.some.inj (hh'.symm.trans hh'')
      simp only [hget, List.filter_cons, hfor, if_true, List.filter_nil]
      exact hsub.append (List.Sublist.refl _)
    · simp only [List.filter_cons, hfor, List.filter_nil]
      simpa using hsub.trans (List.sublist_append_left _ _)
  · exact absurd hdeliver (by simp)

/-! ## The steps of the sender -/

theorem mails_step {names : List Bytes} {s : StartUp} (h : Inv names s) {send : SendLoop Mail}
    {l : SendLoop.Label Mail} (hstep : s.send.step l = some send)
    (hin : ∀ m ∈ l.incoming, MailOk names m) : ∀ m ∈ send.held, MailOk names m := by
  intro m hm
  exact (List.mem_append.mp (SendLoop.held_step hstep hm)).elim (hin m) (h.mails m)

/-- Steps of the loop that neither execute nor end a request. -/
theorem Inv.of_quiet {names : List Bytes} {s : StartUp} (h : Inv names s) {send : SendLoop Mail}
    {l : SendLoop.Label Mail} (hstep : s.send.step l = some send)
    (hin : ∀ m ∈ l.incoming, MailOk names m) (hexecute : l ≠ .execute) (hack : l ≠ .acknowledge)
    (hconn : l ≠ .connError) (hcall : l ≠ .callError) : Inv names { s with send := send } := by
  obtain ⟨hacked, hsending⟩ := SendLoop.step_quiet hstep hexecute hack hconn hcall
  refine ⟨h.boot, mails_step h hstep hin, fun hboot ↦ ?_, fun t ht ↦ ?_⟩
  · dsimp only
    rw [hacked]
    exact h.enqueued hboot
  · obtain ⟨hpc, done, hmsgs, htask⟩ := h.current t ht
    obtain ⟨hpc', hmsgs'⟩ := hsending hpc
    refine ⟨hpc', done, hmsgs'.trans hmsgs, ?_⟩
    dsimp only
    rw [hacked]
    exact htask

/-- A request that fails leaves its run behind. -/
theorem Inv.of_error {names : List Bytes} {s : StartUp} (h : Inv names s) {send : SendLoop Mail}
    {l : SendLoop.Label Mail} (hl : l = .connError ∨ l = .callError)
    (hstep : s.send.step l = some send) (stale : List MqTask) :
    Inv names { s with send := send, current := none, stale := stale } := by
  have hacked : send.acked = s.send.acked := by
    rcases hl with rfl | rfl <;> simp only [SendLoop.step] at hstep <;> split at hstep <;>
      first
        | (obtain rfl := Option.some.inj hstep; rfl)
        | exact absurd hstep (by simp)
  refine ⟨h.boot, mails_step h hstep ?_, fun hboot ↦ ?_, by simp⟩
  · rcases hl with rfl | rfl <;> simp [SendLoop.Label.incoming]
  · dsimp only
    rw [hacked]
    exact h.enqueued hboot

theorem inv_execute {names : List Bytes} {s s' : StartUp} (h : Inv names s)
    (hstep : senderStep s .execute = some s') : Inv names s' := by
  simp only [senderStep] at hstep
  split_ifs at hstep with hboot
  obtain ⟨send, hsend, rfl⟩ := Option.map_eq_some_iff.mp hstep
  have hmails := mails_step h hsend (by simp [SendLoop.Label.incoming])
  simp only [SendLoop.step] at hsend
  split_ifs at hsend with hpc
  obtain rfl := Option.some.inj hsend
  refine ⟨h.boot, hmails, h.enqueued, fun t ht ↦ ?_⟩
  obtain rfl := Option.some.inj ht
  refine ⟨rfl, [], rfl, fun _ hne ↦ ⟨?_, by simp⟩⟩
  rw [List.append_nil]
  exact h.enqueued hne

/-- Acknowledging: the run has dealt with the whole batch, and was not early. -/
theorem inv_acknowledge {names : List Bytes} {s s' : StartUp} (h : Inv names s)
    (hok : ∀ t ∈ s.current, t.early = false) (hstep : senderStep s .acknowledge = some s') :
    Inv names s' := by
  simp only [senderStep] at hstep
  split at hstep
  · rename_i looked early hcurrent
    obtain ⟨send, hsend, rfl⟩ := Option.map_eq_some_iff.mp hstep
    have hmails := mails_step h hsend (by simp [SendLoop.Label.incoming])
    obtain ⟨-, done, hmsgs, htask⟩ := h.current _ hcurrent
    simp only [SendLoop.step] at hsend
    split_ifs at hsend with hpc
    obtain rfl := Option.some.inj hsend
    refine ⟨h.boot, hmails, fun hboot ↦ ?_, by simp⟩
    obtain ⟨hsub, -⟩ := htask (hok _ hcurrent) hboot
    rw [List.append_nil] at hmsgs
    simpa [hmsgs] using hsub
  · exact absurd hstep (by simp)

theorem inv_sender {nodeid : UInt8} {names : List Bytes} {s s' : StartUp}
    {l : SendLoop.Label Mail}
    (h : Inv names s) (hok : Timely nodeid names s (.sender l)) (hstep : senderStep s l = some s') :
    Inv names s' := by
  cases l with
  | pushTest m => exact absurd hstep (by simp [senderStep])
  | execute => exact inv_execute h hstep
  | acknowledge => exact inv_acknowledge h hok hstep
  | connError =>
    obtain ⟨send, hsend, rfl⟩ := Option.map_eq_some_iff.mp hstep
    exact h.of_error (Or.inl rfl) hsend _
  | callError =>
    obtain ⟨send, hsend, rfl⟩ := Option.map_eq_some_iff.mp hstep
    exact h.of_error (Or.inr rfl) hsend _
  | pushEnqueue i =>
    obtain ⟨send, hsend, rfl⟩ := Option.map_eq_some_iff.mp hstep
    exact h.of_quiet hsend (by simp [SendLoop.Label.incoming]) (by simp) (by simp) (by simp)
      (by simp)
  | shutdownQueue | resetClient | test | size | fetch | send | wake =>
    unfold senderStep at hstep
    obtain ⟨send, hsend, rfl⟩ := Option.map_eq_some_iff.mp hstep
    exact h.of_quiet hsend (by simp [SendLoop.Label.incoming]) (by simp) (by simp) (by simp)
      (by simp)

theorem inv_mqPush {nodeid : UInt8} {names : List Bytes} {s s' : StartUp} {mail : Mail}
    (h : Inv names s) (hmail : ∀ name ∈ mail.dest, name ∈ names →
      mail.frame.name.size ≠ 0 ∧ mail.frame.name.read mail.frame = name)
    (hstep : mqPush nodeid s mail = some s') : Inv names s' := by
  rw [mqPush] at hstep
  split_ifs at hstep with haccept
  · obtain ⟨send, hsend, rfl⟩ := Option.map_eq_some_iff.mp hstep
    have hparse : (mail.frame.parse true).isSome := by
      rw [accepts] at haccept
      split at haccept
      · rename_i cmsg hcmsg
        simp [hcmsg]
      · exact absurd haccept (by simp)
    refine h.of_quiet hsend (fun m hm ↦ ?_) (by simp) (by simp) (by simp) (by simp)
    obtain rfl := List.mem_singleton.mp hm
    exact ⟨hparse, hmail⟩
  · obtain rfl := Option.some.inj hstep
    exact h

theorem inv_step {nodeid : UInt8} {names : List Bytes} {s s' : StartUp} {l : Label}
    (h : Inv names s) (hok : Timely nodeid names s l) (hstep : step nodeid names s l = some s') :
    Inv names s' := by
  cases l with
  | dispatch fill self session ctxid name t data =>
    simp only [step] at hstep
    split_ifs at hstep with hother
    obtain ⟨hname, hself⟩ := not_or.mp hother
    refine inv_mqPush h (fun name' hname' hin ↦ ?_) hstep
    obtain rfl := Option.some.inj hname'
    obtain ⟨hzero, hlength⟩ := hok hin
    obtain ⟨hsize, hread⟩ := CqyStr.name_makeRouted fill [] self nodeid name session t false data
    rw [Nat.mod_eq_of_lt hlength] at hsize hread
    rw [dispatchFrame, if_neg (not_or.mpr ⟨Ne.symm hself, hzero⟩), hsize, hread, List.take_length]
    exact ⟨(List.length_pos_of_ne_nil hname).ne', rfl⟩
  | push frame => exact inv_mqPush h (by simp) hstep
  | sender l => exact inv_sender h hok hstep
  | serverStart => exact inv_boot_step (Or.inl rfl) h hstep
  | attachInit => exact inv_boot_step (Or.inr (Or.inl rfl)) h hstep
  | registerName => exact inv_boot_step (Or.inr (Or.inr (Or.inl rfl))) h hstep
  | addCtx => exact inv_boot_step (Or.inr (Or.inr (Or.inr rfl))) h hstep
  | lookUp i =>
    cases i with
    | none => exact inv_lookUp h hstep
    | some i =>
      simp only [step] at hstep
      split_ifs at hstep
      obtain ⟨t, -, rfl⟩ := Option.map_eq_some_iff.mp hstep
      simpa using h.of_stale (s.stale.set i t) []
  | deliver i =>
    cases i with
    | none => exact inv_deliver h hstep
    | some i =>
      simp only [step] at hstep
      split_ifs at hstep
      obtain ⟨⟨t, mails⟩, -, rfl⟩ := Option.map_eq_some_iff.mp hstep
      exact h.of_stale _ _

/-- In every run whose steps are timely, whatever the sender has cleared for the bootstrap context
is in its queue. -/
theorem enqueued_of_timely (nodeid : UInt8) (names : List Bytes) (ls : List Label) (s : StartUp)
    (hok : Machine.AllSteps (step nodeid names) (Timely nodeid names) {} ls)
    (hrun : Machine.run (step nodeid names) {} ls = some s) : Enqueued names s :=
  (Machine.run_invariant (fun _ _ _ ↦ inv_step) (inv_init names) hok hrun).enqueued

/-! ## Two starts -/

/-- A context of node 2 dispatches to the name `x` of node 1, and the loop sends the message. -/
def sendOne : List Label :=
  [.dispatch (fun _ ↦ 0) 0x02000001 0 0 [120] 0 [], .sender (.pushEnqueue 0), .sender .test,
    .sender .size, .sender .fetch, .sender .send, .sender .execute, .lookUp none, .deliver none,
    .sender .acknowledge]

/-- Node 1 creates its bootstrap context, whose `on_init` registers `x`. -/
def create : List Label := [.attachInit, .registerName, .addCtx]

/-- The server of node 1 is open, the message is handled and acknowledged, and only then `x` is
created: it is gone from the sender and never reached the queue. -/
theorem enqueued_early : ∃ s,
    Machine.run (step 1 [[120]]) {} (.serverStart :: (sendOne ++ create)) = some s ∧
    s.boot = .live ⟨0x01000001⟩ ∧ s.send.acked.flatten.length = 1 ∧ s.send.held = [] ∧
    s.log = [] ∧ ¬ Enqueued [[120]] s := by
  refine ⟨_, rfl, rfl, rfl, rfl, rfl, fun h ↦ ?_⟩
  exact absurd (h (by decide)) (by decide)

/-- The same message after `x` has been created. -/
theorem enqueued_late : ∃ s,
    Machine.run (step 1 [[120]]) {} (.serverStart :: (create ++ sendOne)) = some s ∧
    s.log.length = 1 ∧ Enqueued [[120]] s :=
  ⟨_, rfl, rfl, enqueued_of_timely 1 [[120]] (.serverStart :: (create ++ sendOne)) _ (by decide)
    rfl⟩

end StartUp

end Cqy
