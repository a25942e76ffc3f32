import Cqy.App.Network
import Cqy.Foundation.Keys
import Cqy.Wire.RoundTrip

/-!
# Responses answer dispatches

A session is drawn from the counter of the dispatching context and travels in the header, which
`response` copies into the answer together with the type; the answer goes to the id in `from`.  So
every message in flight is the frame of a dispatch or the answer to a dispatch that was delivered,
whatever is delayed, repeated or reordered on the way, and as long as the counter does not wrap its
session names one dispatch.
-/

namespace Cqy.Network

open Foundation

variable {ι : Type}

/-! ## What messages say -/

/-- The frame of a dispatch has the header that the history records. -/
def Produced.HeaderOk (d : Produced) : Prop :=
  d.frame.msg.fromId = d.ctx ∧ d.frame.msg.session = d.session ∧ d.frame.msg.type = d.type ∧
    d.frame.msg.response = false

/-- A dispatch that produces a frame returns the next session of the counter, leaves the counter
there, and writes its context, session and type into the header. -/
structure DispatchOk (c session : UInt32) (t : UInt8) (d : Dispatched) : Prop where
  counter : d.msg.isSome → d.session = session + 1
  ret : d.msg.isSome → d.ret = session + 1
  header : ∀ frame ∈ d.msg, Produced.HeaderOk ⟨c, session + 1, t, frame⟩

theorem dispatch_ok (fill : ℕ → UInt8) (c session toId : UInt32) (t : UInt8) (data : Bytes) :
    DispatchOk c session t (dispatch fill c session toId t data) := by
  refine ⟨fun _ ↦ rfl, fun _ ↦ rfl, fun frame hframe ↦ ?_⟩
  obtain rfl := Option.some.inj hframe
  rw [Produced.HeaderOk, CqyStr.msg_make]
  exact ⟨rfl, rfl, rfl, CqyStr.plainHeader_response _ _ _ _ _ _⟩

theorem dispatchName_ok (a : App UInt32) (fill : ℕ → UInt8) (c session : UInt32) (nodectx : Bytes)
    (t : UInt8) (data : Bytes) :
    DispatchOk c session t (dispatchName a fill c session nodectx t data) := by
  rw [dispatchName]
  split
  · exact ⟨fun h ↦ absurd h (by simp), fun h ↦ absurd h (by simp), by simp⟩
  · rename_i h ctxname _
    split_ifs
    · exact dispatch_ok fill c session _ t data
    · refine ⟨fun _ ↦ rfl, fun _ ↦ rfl, fun frame hframe ↦ ?_⟩
      obtain rfl := Option.some.inj hframe
      rw [Produced.HeaderOk, CqyStr.msg_makeRouted]
      exact ⟨rfl, rfl, rfl, CqyStr.routedHeader_response _ _ _ _ _ _⟩

/-! ## Genuine messages -/

/-- A response to a dispatch that was delivered to the context it comes from. -/
def Answers (produced : List Produced) (delivered : List (UInt32 × CqyStr)) (msg : CqyStr) : Prop :=
  ∃ d ∈ produced, d.ctx = msg.msg.toId ∧ d.session = msg.msg.session ∧ d.type = msg.msg.type ∧
    (msg.msg.fromId, d.frame) ∈ delivered

/-- The frame of a dispatch, or a plain frame that answers one. -/
def Genuine (s : Network ι) (msg : CqyStr) : Prop :=
  (∃ d ∈ s.produced, d.frame = msg) ∨
    (msg.msg.response = true ∧ msg.name.size = 0 ∧ Answers s.produced s.delivered msg)

theorem Genuine.mono {s s' : Network ι} {msg : CqyStr} (h : Genuine s msg)
    (hproduced : s.produced ⊆ s'.produced) (hdelivered : s.delivered ⊆ s'.delivered) :
    Genuine s' msg := by
  rcases h with ⟨d, hd, hframe⟩ | ⟨hrsp, hname, d, hd, hctx, hsession, htype, hdel⟩
  · exact Or.inl ⟨d, hproduced hd, hframe⟩
  · exact Or.inr ⟨hrsp, hname, d, hproduced hd, hctx, hsession, htype, hdelivered hdel⟩

/-- The dispatches of one context. -/
def producedBy (s : Network ι) (c : UInt32) : List Produced :=
  s.produced.filter fun d ↦ d.ctx = c

/-- The invariant.  The sessions of a context count its dispatches; every message in flight is
genuine; and a response is only ever looked up and delivered under the id it is addressed to. -/
structure Inv (s : Network ι) : Prop where
  own : ∀ i, ∀ e ∈ (s.mgr i).ctxs.entries, e.2 = e.1
  counter : ∀ c, s.session c = UInt32.ofNat (s.producedBy c).length
  sessions : ∀ c, (s.producedBy c).map Produced.session =
    (List.range (s.producedBy c).length).map fun n ↦ UInt32.ofNat (n + 1)
  headers : ∀ d ∈ s.produced, Produced.HeaderOk d
  calls : ∀ c ∈ s.calls, Genuine s c.2
  links : ∀ i n, ∀ msg ∈ (s.links i n).held, Genuine s msg
  runs : ∀ r ∈ s.runs, ∀ msg ∈ r.rest, Genuine s msg
  looked : ∀ r ∈ s.runs, ∀ id msg rest, r.looked = some id → r.rest = msg :: rest →
    msg.msg.response = true → id = msg.msg.toId
  delivered : ∀ p ∈ s.delivered, Genuine s p.2 ∧ (p.2.msg.response = true → p.1 = p.2.msg.toId)
  inbox : ∀ c, ∀ msg ∈ (s.inbox c).items, (c, msg) ∈ s.delivered
  received : s.received ⊆ s.delivered

theorem inv_init : Inv (init : Network ι) where
  own := by simp [init, CtxMgr.empty]
  counter := by simp [init, producedBy]
  sessions := by simp [init, producedBy]
  headers := by simp [init]
  calls := by simp [init]
  links := by simp [init, SendLoop.held]
  runs := by simp [init]
  looked := by simp [init]
  delivered := by simp [init]
  inbox := by simp [init]
  received := by simp [init]

/-- A genuine message is a response exactly when it is no frame of a dispatch; then it has no name
and was sent in answer to one. -/
theorem Inv.answers {s : Network ι} (h : Inv s) {msg : CqyStr} (hgen : Genuine s msg)
    (hrsp : msg.msg.response = true) :
    msg.name.size = 0 ∧ Answers s.produced s.delivered msg := by
  rcases hgen with ⟨d, hd, rfl⟩ | ⟨-, hname, hans⟩
  · rw [(h.headers d hd).2.2.2] at hrsp
    exact absurd hrsp (by decide)
  · exact ⟨hname, hans⟩

theorem Inv.getCtx_own {s : Network ι} (h : Inv s) {i : ι} {id c : UInt32}
    (hget : (s.mgr i).getCtx id = some c) : c = id :=
  h.own i _ (CtxMgr.getCtx_eq_some_iff.mp hget)

/-! ## The steps -/

/-- Messages on their way may be dropped, repeated and moved. -/
theorem Inv.of_flight {s : Network ι} (h : Inv s) {calls : List (ι × CqyStr)}
    {links : ι → UInt8 → SendLoop CqyStr} {runs : List (MqRun ι)}
    (hcalls : ∀ c ∈ calls, Genuine s c.2) (hlinks : ∀ i n, ∀ msg ∈ (links i n).held, Genuine s msg)
    (hruns : ∀ r ∈ runs, (∀ msg ∈ r.rest, Genuine s msg) ∧
      ∀ id msg rest, r.looked = some id → r.rest = msg :: rest → msg.msg.response = true →
        id = msg.msg.toId) :
    Inv { s with calls := calls, links := links, runs := runs } where
  own := h.own
  counter := h.counter
  sessions := h.sessions
  headers := h.headers
  calls := hcalls
  links := hlinks
  runs r hr := (hruns r hr).1
  looked r hr := (hruns r hr).2
  delivered := h.delivered
  inbox := h.inbox
  received := h.received

theorem Inv.run_ok {s : Network ι} (h : Inv s) (r : MqRun ι) (hr : r ∈ s.runs) :
    (∀ msg ∈ r.rest, Genuine s msg) ∧ ∀ id msg rest, r.looked = some id → r.rest = msg :: rest →
      msg.msg.response = true → id = msg.msg.toId :=
  ⟨h.runs r hr, h.looked r hr⟩

/-- A message that reaches a context is genuine, and is its own if it is a response. -/
theorem inv_pushMsg {s : Network ι} (h : Inv s) {c : UInt32} {msg : CqyStr} (hgen : Genuine s msg)
    (hto : msg.msg.response = true → c = msg.msg.toId) : Inv (s.pushMsg c msg) := by
  rw [pushMsg]
  split_ifs with hstop
  · exact h
  have hgrow {m : CqyStr} (hm : Genuine s m) :
      Genuine
        { s with
          inbox := Function.update s.inbox c ((s.inbox c).push msg)
          delivered := s.delivered ++ [(c, msg)] } m :=
    hm.mono (List.Subset.refl _) (List.subset_append_left _ _)
  refine ⟨h.own, h.counter, h.sessions, h.headers, fun p hp ↦ hgrow (h.calls p hp),
    fun i n m hm ↦ hgrow (h.links i n m hm), fun r hr m hm ↦ hgrow (h.runs r hr m hm), h.looked,
    fun p hp ↦ ?_, fun c' m hm ↦ ?_, fun p hp ↦ List.mem_append_left _ (h.received hp)⟩
  · rcases List.mem_append.mp hp with hp | hp
    · exact ⟨hgrow (h.delivered p hp).1, (h.delivered p hp).2⟩
    · obtain rfl := List.mem_singleton.mp hp
      exact ⟨hgrow hgen, hto⟩
  · revert c' m
    rw [Function.forall_update_iff s.inbox fun c' q ↦
      ∀ m ∈ q.items, (c', m) ∈ s.delivered ++ [(c, msg)]]
    refine ⟨fun m hm ↦ ?_, fun c' _ m hm ↦ List.mem_append_left _ (h.inbox c' m hm)⟩
    rw [CvQueue.push, if_neg hstop] at hm
    rcases List.mem_append.mp hm with hm | hm
    · exact List.mem_append_left _ (h.inbox c m hm)
    · obtain rfl := List.mem_singleton.mp hm
      exact List.mem_append_right _ (List.mem_singleton.mpr rfl)

theorem producedBy_append (s : Network ι) (c c' session : UInt32) (t : UInt8) (frame : CqyStr)
    (s' : Network ι) (hs' : s'.produced = s.produced ++ [⟨c, session, t, frame⟩]) :
    s'.producedBy c' =
      if c = c' then s.producedBy c' ++ [⟨c, session, t, frame⟩] else s.producedBy c' := by
  rw [producedBy, hs', List.filter_append]
  split_ifs with hc <;> simp [producedBy, hc]

/-- A dispatch draws the next session of its context. -/
theorem inv_produce {s : Network ι} (home : UInt32 → ι) (h : Inv s) {c : UInt32} {t : UInt8}
    {d : Dispatched} (hd : DispatchOk c (s.session c) t d) : Inv (s.produce home c t d) := by
  rw [produce]
  cases hmsg : d.msg with
  | none => exact h
  | some frame =>
    have hsome : d.msg.isSome := by simp [hmsg]
    have hret := hd.ret hsome
    have hsession := hd.counter hsome
    have hheader := hd.header frame hmsg
    dsimp only
    rw [hret, hsession]
    set s' : Network ι :=
      { s with
        session := Function.update s.session c (s.session c + 1)
        calls := s.calls ++ [(home c, frame)]
        produced := s.produced ++ [⟨c, s.session c + 1, t, frame⟩] } with hs'
    have hby (c' : UInt32) := producedBy_append s c c' (s.session c + 1) t frame s' rfl
    have hgrow {m : CqyStr} (hm : Genuine s m) : Genuine s' m :=
      hm.mono (List.subset_append_left _ _) (List.Subset.refl _)
    have hnext : s.session c + 1 = UInt32.ofNat ((s.producedBy c).length + 1) := by
      rw [h.counter c, UInt32.ofNat_add]
      rfl
    refine ⟨h.own, fun c' ↦ ?_, fun c' ↦ ?_, fun d' hd' ↦ ?_, fun p hp ↦ ?_,
      fun i n m hm ↦ hgrow (h.links i n m hm), fun r hr m hm ↦ hgrow (h.runs r hr m hm), h.looked,
      fun p hp ↦ ⟨hgrow (h.delivered p hp).1, (h.delivered p hp).2⟩, h.inbox, h.received⟩
    · rw [hby]
      split_ifs with hc
      · subst hc
        rw [hs', List.length_append, List.length_singleton, ← hnext]
        exact Function.update_self _ _ _
      · rw [hs', ← h.counter c']
        exact Function.update_of_ne (Ne.symm hc) _ _
    · rw [hby]
      split_ifs with hc
      · subst hc
        rw [List.map_append, h.sessions c, List.length_append, List.length_singleton,
          List.range_succ, List.map_append, List.map_singleton, List.map_singleton, hnext]
      · exact h.sessions c'
    · rcases List.mem_append.mp hd' with hd' | hd'
      · exact h.headers d' hd'
      · obtain rfl := List.mem_singleton.mp hd'
        exact hheader
    · rcases List.mem_append.mp hp with hp | hp
      · exact hgrow (h.calls p hp)
      · obtain rfl := List.mem_singleton.mp hp
        exact Or.inl ⟨_, List.mem_append_right _ (List.mem_singleton.mpr rfl), rfl⟩

/-- An answer to a message that a context received is genuine. -/
theorem genuine_response {s : Network ι} (h : Inv s) (fill : ℕ → UInt8) {c : UInt32} {msg : CqyStr}
    (hmem : (c, msg) ∈ s.received) (hclear : msg.msg.response = false) (data : Bytes) :
    Genuine s (response fill c msg.msg data) := by
  have hdel := h.received hmem
  rcases (h.delivered _ hdel).1 with ⟨d, hd, hframe⟩ | ⟨hrsp, -⟩
  · obtain ⟨hfrom, hsession, htype, -⟩ := h.headers d hd
    rw [hframe] at hfrom hsession htype
    refine Or.inr ⟨?_, ?_, d, hd, ?_⟩
    · rw [response, CqyStr.msg_make]
      exact CqyStr.plainHeader_response _ _ _ _ _ _
    · rw [response, CqyStr.name_make]
    · rw [response, CqyStr.msg_make, hframe]
      exact ⟨hfrom.symm, hsession.symm, htype.symm, hdel⟩
  · rw [hclear] at hrsp
    exact absurd hrsp (by decide)

/-- What a link holds after a step was held before, or is being pushed. -/
theorem links_step [DecidableEq ι] {s : Network ι} (h : Inv s) {i : ι} {n : UInt8}
    {l : SendLoop.Label CqyStr} {link : SendLoop CqyStr} (hstep : (s.links i n).step l = some link)
    (hin : ∀ msg ∈ l.incoming, Genuine s msg) (i' : ι) (n' : UInt8) :
    ∀ msg ∈ (Function.update s.links i (Function.update (s.links i) n link) i' n').held,
      Genuine s msg := by
  revert i'
  rw [Function.forall_update_iff s.links fun _ links ↦ ∀ msg ∈ (links n').held, Genuine s msg]
  refine ⟨?_, fun i' _ ↦ h.links i' n'⟩
  revert n'
  rw [Function.forall_update_iff (s.links i) fun _ link ↦ ∀ msg ∈ link.held, Genuine s msg]
  refine ⟨fun msg hmsg ↦ ?_, fun n' _ ↦ h.links i n'⟩
  exact (List.mem_append.mp (SendLoop.held_step hstep hmsg)).elim (hin msg) (h.links i n msg)

/-- `node_mq_push` drops a message, hands it to the context it is addressed to, or queues it. -/
theorem inv_nodeMqPush [DecidableEq ι] {site : ι → Site} {s s' : Network ι} (h : Inv s) {i : ι}
    {msg : CqyStr} (hgen : Genuine s msg) (hstep : nodeMqPush site s i msg = some s') : Inv s' := by
  rw [nodeMqPush] at hstep
  split at hstep
  · obtain rfl := Option.some.inj hstep
    exact h
  · rename_i c hpush
    obtain rfl := Option.some.inj hstep
    refine inv_pushMsg h hgen fun _ ↦ ?_
    rw [App.nodeMqPush] at hpush
    split at hpush
    · exact absurd hpush (by simp)
    · rename_i cmsg hparse
      dsimp only at hpush
      rw [CqyStr.eq_msg_of_parse hparse] at hpush
      split_ifs at hpush
      · split at hpush
        · rename_i ctx hget
          obtain rfl := MqPush.ctx.inj hpush
          exact h.getCtx_own hget
        · exact absurd hpush (by simp)
      · split at hpush <;> exact absurd hpush (by simp)
  · obtain ⟨link, hlink, rfl⟩ := Option.map_eq_some_iff.mp hstep
    refine h.of_flight h.calls (links_step h hlink ?_) h.run_ok
    simpa [SendLoop.Label.incoming] using hgen

theorem inv_linkStep [DecidableEq ι] {connect : ι → UInt8 → ι} {s s' : Network ι} (h : Inv s)
    {i : ι} {n : UInt8} {l : SendLoop.Label CqyStr} (hstep : linkStep connect s i n l = some s') :
    Inv s' := by
  have hrun (r : MqRun ι) (hr : r ∈ if spawns l then
      s.runs ++ [⟨connect i n, (s.links i n).msgs, none⟩] else s.runs) :
      (∀ msg ∈ r.rest, Genuine s msg) ∧ ∀ id msg rest, r.looked = some id → r.rest = msg :: rest →
        msg.msg.response = true → id = msg.msg.toId := by
    split_ifs at hr
    · rcases List.mem_append.mp hr with hr | hr
      · exact h.run_ok r hr
      · obtain rfl := List.mem_singleton.mp hr
        refine ⟨fun msg hmsg ↦ h.links i n msg (List.mem_append_right _ hmsg), ?_⟩
        intro id msg rest hnone
        exact absurd hnone (by simp)
    · exact h.run_ok r hr
  unfold linkStep at hstep
  split at hstep
  · exact absurd hstep (by simp)
  · rename_i hpush
    obtain ⟨link, hlink, rfl⟩ := Option.map_eq_some_iff.mp hstep
    refine h.of_flight h.calls (links_step h hlink fun msg hmsg ↦ ?_) hrun
    cases l with
    | pushTest m => exact absurd rfl (hpush m)
    | _ => exact absurd hmsg (by simp [SendLoop.Label.incoming])

/-- A response has no name, so `rpc_on_mq` looks it up under the id it is addressed to. -/
theorem inv_lookUp {s : Network ι} (h : Inv s) {k : ℕ} {r r' : MqRun ι} (hk : s.runs[k]? = some r)
    (hlook : lookUp (s.mgr r.node) r = some r') : Inv { s with runs := s.runs.set k r' } := by
  have hr : r ∈ s.runs := List.mem_of_getElem? hk
  refine h.of_flight h.calls h.links fun u hu ↦ ?_
  rcases List.mem_or_eq_of_mem_set hu with hu | rfl
  · exact h.run_ok u hu
  unfold lookUp at hlook
  split at hlook
  · rename_i msg rest hlooked hrest
    split at hlook
    · obtain rfl := Option.some.inj hlook
      exact ⟨by simp, fun id m rest' _ hnil ↦ absurd hnil (by simp)⟩
    · rename_i cmsg hparse
      obtain rfl := Option.some.inj hlook
      refine ⟨h.runs r hr, fun id m rest' hid hrest' hrsp ↦ ?_⟩
      obtain ⟨rfl, rfl⟩ := List.cons.inj (hrest.symm.trans hrest')
      obtain rfl := Option.some.inj hid
      have hgen : Genuine s msg := h.runs r hr msg (by rw [hrest]; exact List.mem_cons_self ..)
      rw [App.mqTarget, if_neg (not_not.mpr (h.answers hgen hrsp).1),
        CqyStr.eq_msg_of_parse hparse]
  · exact absurd hlook (by simp)

theorem inv_deliver {s s' : Network ι} (h : Inv s) {k : ℕ} {r : MqRun ι}
    (hk : s.runs[k]? = some r) (hstep : s.deliver k r = some s') : Inv s' := by
  have hr : r ∈ s.runs := List.mem_of_getElem? hk
  unfold deliver at hstep
  split at hstep
  · rename_i id msg rest hlooked hrest
    have hgen : Genuine s msg := h.runs r hr msg (by rw [hrest]; exact List.mem_cons_self ..)
    have hrest' : Inv { s with runs := s.runs.set k { r with rest := rest, looked := none } } := by
      refine h.of_flight h.calls h.links fun u hu ↦ ?_
      rcases List.mem_or_eq_of_mem_set hu with hu | rfl
      · exact h.run_ok u hu
      · refine ⟨fun m hm ↦ h.runs r hr m ?_, fun id' m rest' hnone ↦ absurd hnone (by simp)⟩
        rw [hrest]
        exact List.mem_cons_of_mem _ hm
    dsimp only at hstep
    split at hstep
    · rename_i c hget
      obtain rfl := Option.some.inj hstep
      refine inv_pushMsg hrest' hgen fun hrsp ↦ ?_
      rw [h.getCtx_own hget]
      exact h.looked r hr id msg rest hlooked hrest hrsp
    · obtain rfl := Option.some.inj hstep
      exact hrest'
  · exact absurd hstep (by simp)

/-- Queues of contexts may lose messages, and what was in one may be received. -/
theorem Inv.of_inbox {s : Network ι} (h : Inv s) {inbox : UInt32 → CvQueue CqyStr}
    {received : List (UInt32 × CqyStr)}
    (hinbox : ∀ c, ∀ msg ∈ (inbox c).items, (c, msg) ∈ s.delivered)
    (hreceived : received ⊆ s.delivered) :
    Inv { s with inbox := inbox, received := received } :=
  ⟨h.own, h.counter, h.sessions, h.headers, h.calls, h.links, h.runs, h.looked, h.delivered, hinbox,
    hreceived⟩

theorem inv_receive {s s' : Network ι} (h : Inv s) {c : UInt32} (hstep : s.receive c = some s') :
    Inv s' := by
  obtain ⟨⟨res, queue⟩, hpop, rfl⟩ := Option.map_eq_some_iff.mp hstep
  have hqueue : queue.items ⊆ (s.inbox c).items := by
    rcases CvQueue.pop_cases hpop with ⟨-, rfl⟩ | ⟨front, hitems, -⟩
    · exact List.Subset.refl _
    · rw [hitems]
      exact List.subset_cons_self _ _
  refine h.of_inbox (fun c' m hm ↦ ?_) ?_
  · revert c' m
    rw [Function.forall_update_iff s.inbox fun c' q ↦ ∀ m ∈ q.items, (c', m) ∈ s.delivered]
    exact ⟨fun m hm ↦ h.inbox c m (hqueue hm), fun c' _ ↦ h.inbox c'⟩
  · cases res with
    | none => exact h.received
    | some msg =>
      have hmem : msg ∈ (s.inbox c).items := by
        rcases CvQueue.pop_cases hpop with ⟨hnone, -⟩ | ⟨front, hitems, hfront, -⟩
        · exact absurd hnone (by simp)
        · obtain rfl := Option.some.inj hfront
          rw [hitems]
          exact List.mem_cons_self ..
      dsimp only
      split_ifs
      · intro p hp
        rcases List.mem_append.mp hp with hp | hp
        · exact h.received hp
        · obtain rfl := List.mem_singleton.mp hp
          exact h.inbox c msg hmem
      · exact h.received

theorem inv_step [DecidableEq ι] {site : ι → Site} {home : UInt32 → ι} {connect : ι → UInt8 → ι}
    (s : Network ι) (l : Label ι) (s' : Network ι) (h : Inv s)
    (hstep : step site home connect s l = some s') : Inv s' := by
  cases l with
  | registry i m =>
    simp only [step] at hstep
    split_ifs at hstep with hown
    obtain rfl := Option.some.inj hstep
    refine ⟨?_, h.counter, h.sessions, h.headers, h.calls, h.links, h.runs, h.looked, h.delivered,
      h.inbox, h.received⟩
    rw [Function.forall_update_iff s.mgr fun _ m ↦ ∀ e ∈ m.ctxs.entries, e.2 = e.1]
    exact ⟨fun e he ↦ of_decide_eq_true (List.all_eq_true.mp hown e he), fun i' _ ↦ h.own i'⟩
  | dispatch fill c toId t data =>
    obtain rfl := Option.some.inj hstep
    exact inv_produce home h (dispatch_ok fill c _ toId t data)
  | dispatchName fill c nodectx t data =>
    obtain rfl := Option.some.inj hstep
    exact inv_produce home h (dispatchName_ok _ fill c _ nodectx t data)
  | respond fill k data =>
    obtain ⟨⟨c, msg⟩, hk, hrespond⟩ := Option.bind_eq_some_iff.mp hstep
    dsimp only at hrespond
    split_ifs at hrespond with hclear
    obtain rfl := Option.some.inj hrespond
    refine h.of_flight (fun p hp ↦ ?_) h.links h.run_ok
    rcases List.mem_append.mp hp with hp | hp
    · exact h.calls p hp
    · obtain rfl := List.mem_singleton.mp hp
      exact genuine_response h fill (List.mem_of_getElem? hk) (by simpa using hclear) data
  | mqPush k =>
    obtain ⟨⟨i, msg⟩, hk, hpush⟩ := Option.bind_eq_some_iff.mp hstep
    have hcalls : Inv { s with calls := s.calls.eraseIdx k } :=
      h.of_flight (fun p hp ↦ h.calls p (List.mem_of_mem_eraseIdx hp)) h.links h.run_ok
    exact inv_nodeMqPush hcalls (h.calls _ (List.mem_of_getElem? hk)) hpush
  | link i n l => exact inv_linkStep h hstep
  | lookUp k =>
    obtain ⟨r', hbind, rfl⟩ := Option.map_eq_some_iff.mp hstep
    obtain ⟨r, hk, hlook⟩ := Option.bind_eq_some_iff.mp hbind
    exact inv_lookUp h hk hlook
  | deliver k =>
    obtain ⟨r, hk, hdeliver⟩ := Option.bind_eq_some_iff.mp hstep
    exact inv_deliver h hk hdeliver
  | receive c => exact inv_receive h hstep
  | shutdown c =>
    obtain rfl := Option.some.inj hstep
    refine h.of_inbox ?_ h.received
    rw [Function.forall_update_iff s.inbox fun c' q ↦ ∀ m ∈ q.items, (c', m) ∈ s.delivered,
      SendLoop.shutdown_items]
    exact ⟨h.inbox c, fun c' _ ↦ h.inbox c'⟩

/-! ## Correlation -/

theorem length_producedBy_le (s : Network ι) (c : UInt32) :
    (s.producedBy c).length ≤ s.produced.length :=
  List.length_filter_le _ _

theorem mem_producedBy {s : Network ι} {d : Produced} :
    d ∈ s.producedBy d.ctx ↔ d ∈ s.produced := by
  simp [producedBy]

/-- Sessions below the wrap are told apart. -/
theorem ofNat_succ_inj {n n' : ℕ} (hn : n < 2 ^ 32 - 1) (hn' : n' < 2 ^ 32 - 1)
    (h : UInt32.ofNat (n + 1) = UInt32.ofNat (n' + 1)) : n = n' := by
  have hnat := congrArg UInt32.toNat h
  rw [UInt32.toNat_ofNat_of_lt' (by simp only [UInt32.size]; omega),
    UInt32.toNat_ofNat_of_lt' (by simp only [UInt32.size]; omega)] at hnat
  exact Nat.succ.inj hnat

theorem Inv.sessions_nodup {s : Network ι} (h : Inv s) {c : UInt32}
    (hbound : (s.producedBy c).length < 2 ^ 32 - 1) :
    ((s.producedBy c).map Produced.session).Nodup := by
  rw [h.sessions c]
  refine List.Nodup.map_on (fun n hn n' hn' heq ↦ ?_) List.nodup_range
  rw [List.mem_range] at hn hn'
  exact ofNat_succ_inj (hn.trans hbound) (hn'.trans hbound) heq

/-- The error value is the session that a counter reaches after `2 ^ 32 - 1` dispatches. -/
theorem Inv.session_ne {s : Network ι} (h : Inv s) {c : UInt32}
    (hbound : (s.producedBy c).length < 2 ^ 32 - 1) {d : Produced} (hd : d ∈ s.producedBy c) :
    d.session ≠ -1 := by
  have hmem : d.session ∈ (s.producedBy c).map Produced.session := List.mem_map_of_mem hd
  rw [h.sessions c, List.mem_map] at hmem
  obtain ⟨n, hn, heq⟩ := hmem
  rw [List.mem_range] at hn
  intro hneg
  have hlast : (-1 : UInt32) = UInt32.ofNat (2 ^ 32 - 2 + 1) := by decide
  rw [hneg, hlast] at heq
  have hnum := ofNat_succ_inj (hn.trans hbound) (by omega) heq
  omega

/-- In every run in which the counter of no context wraps, a response that a context receives
answers exactly one of its dispatches, with the same type, which was delivered to the context it
comes from.
Applied to the run that ends where the response is received, it says that the dispatch came first.
The sessions of a context are distinct, and none is what `dispatch` returns for a name that it
cannot resolve. -/
theorem response_correlates [DecidableEq ι] (site : ι → Site) (home : UInt32 → ι)
    (connect : ι → UInt8 → ι) (ls : List (Label ι)) (s : Network ι)
    (hrun : Machine.run (step site home connect) init ls = some s)
    (hbound : ∀ c, (s.producedBy c).length < 2 ^ 32 - 1) :
    (∀ c msg, (c, msg) ∈ s.received → msg.msg.response = true →
      ∃ d, (s.produced.filter fun d ↦ d.ctx = c ∧ d.session = msg.msg.session) = [d] ∧
        d.type = msg.msg.type ∧ (msg.msg.fromId, d.frame) ∈ s.delivered) ∧
    (∀ c, ((s.producedBy c).map Produced.session).Nodup) ∧
    ∀ d ∈ s.produced, ∀ (a : App UInt32) (fill : ℕ → UInt8) (self session : UInt32)
      (nodectx : Bytes) (t : UInt8) (data : Bytes), a.getHandle nodectx = none →
        (dispatchName a fill self session nodectx t data).ret ≠ d.session := by
  have hinv : Inv s := Machine.Reachable.invariant inv_step ⟨ls, hrun⟩ inv_init
  refine ⟨fun c msg hreceived hrsp ↦ ?_, fun c ↦ hinv.sessions_nodup (hbound c), ?_⟩
  · obtain ⟨hgen, hto⟩ := hinv.delivered _ (hinv.received hreceived)
    obtain ⟨-, d, hd, hctx, hsession, htype, hdel⟩ := hinv.answers hgen hrsp
    obtain rfl : c = d.ctx := (hto hrsp).trans hctx.symm
    refine ⟨d, ?_, htype, hdel⟩
    have hone := filter_key_eq_singleton (hinv.sessions_nodup (hbound d.ctx))
      (mem_producedBy.mpr hd)
    rw [producedBy, List.filter_filter] at hone
    rw [← hone, ← hsession]
    exact List.filter_congr fun e _ ↦ by rw [Bool.decide_and, Bool.and_comm]
  · intro d hd a fill self session nodectx t data hnone
    rw [dispatchName, hnone]
    exact (hinv.session_ne (hbound d.ctx) (mem_producedBy.mpr hd)).symm

/-! ## A batch that is sent twice -/

/-- Two nodes with the ids 1 and 2. -/
def twoSites (i : Bool) : Site :=
  let nodes : List NodeInfo := [⟨[110, 49], 1⟩, ⟨[110, 50], 2⟩]
  let self : UInt8 := if i then 2 else 1
  ⟨⟨self, nodes⟩, ⟨self, nodes.map fun info ↦ ⟨info, info.nodeid ≠ self.toUInt32⟩⟩⟩

/-- A registry whose one context has the id `id`. -/
def oneId (id : UInt32) : CtxMgr UInt32 := ⟨1, AList.insert id id ∅, Table.empty⟩

/-- One message goes over the link of node `i` to the peer `n`, which executes the request. -/
def sendOne (i : Bool) (n : UInt8) : List (Label Bool) :=
  [.link i n (.pushEnqueue 0), .link i n .test, .link i n .size, .link i n .fetch,
    .link i n .send, .link i n .execute]

/-- The connection breaks and the batch is sent again. -/
def sendAgain (i : Bool) (n : UInt8) : List (Label Bool) :=
  [.link i n .connError, .link i n .wake, .link i n .test, .link i n .size, .link i n .fetch,
    .link i n .send, .link i n .execute]

/-- The context of node 1 dispatches to the one of node 2, which gets the message twice and answers
once. -/
def retriedRun : List (Label Bool) :=
  List.flatten
    [[.registry false (oneId 0x01000001), .registry true (oneId 0x02000001),
        .dispatch (fun _ ↦ 0) 0x01000001 0x02000001 7 [112, 105, 110, 103], .mqPush 0],
      sendOne false 2, sendAgain false 2,
      [.lookUp 1, .deliver 1, .lookUp 0, .deliver 0, .receive 0x02000001, .receive 0x02000001,
        .respond (fun _ ↦ 0) 1 [112, 111, 110, 103], .mqPush 0],
      sendOne true 1, [.lookUp 3, .deliver 3, .receive 0x01000001]]

theorem response_correlates_retried : ∃ s,
    Machine.run (step twoSites (fun c ↦ c = 0x02000001) fun _ n ↦ n = 2) init retriedRun =
      some s ∧
    ∃ msg, (0x01000001, msg) ∈ s.received ∧ msg.msg.response = true ∧
      ∃ d, (s.produced.filter fun d ↦ d.ctx = 0x01000001 ∧ d.session = msg.msg.session) = [d] ∧
        d.type = msg.msg.type ∧ (msg.msg.fromId, d.frame) ∈ s.delivered := by
  refine ⟨_, rfl, response (fun _ ↦ 0) 0x02000001 (CqyStr.msg (CqyStr.make (fun _ ↦ 0) []
    0x01000001 0x02000001 1 7 false [112, 105, 110, 103])) [112, 111, 110, 103], ?_, ?_, ?_⟩
  · decide
  · decide
  · refine (response_correlates twoSites (fun c ↦ c = 0x02000001) (fun _ n ↦ n = 2) retriedRun _ rfl
      fun c ↦ ?_).1 _ _ ?_ ?_
    · refine (length_producedBy_le _ c).trans_lt ?_
      decide
    · decide
    · decide

end Cqy.Network
