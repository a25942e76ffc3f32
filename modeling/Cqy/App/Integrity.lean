import Cqy.App.Correlation

/-!
# What is received was sent

Every message that a context receives, in any run of any number of nodes, was written by a call of
`dispatch` or `response` of that run and says who made the call, with which type and which data; and
a message without a name reaches the context it is addressed to and no other.
-/

namespace Cqy.Network

open Foundation

variable {ι : Type}

/-- The frames that the calls among `ls` have written; `received` are the messages that contexts may
have answered. -/
inductive SentBy (ls : List (Label ι)) (received : List (UInt32 × CqyStr)) : CqyStr → Prop
  | dispatch {fill : ℕ → UInt8} {c toId : UInt32} {t : UInt8} {data : Bytes} (session : UInt32)
      (hmem : .dispatch fill c toId t data ∈ ls) :
      SentBy ls received (CqyStr.make fill [] c toId session t false data)
  /-- The name is one of the node of the context, which has looked it up. -/
  | dispatchLocal {fill : ℕ → UInt8} {c : UInt32} {nodectx : Bytes} {t : UInt8} {data : Bytes}
      (toId session : UInt32) (hmem : .dispatchName fill c nodectx t data ∈ ls) :
      SentBy ls received (CqyStr.make fill [] c toId session t false data)
  | dispatchRouted {fill : ℕ → UInt8} {c : UInt32} {nodectx : Bytes} {t : UInt8} {data : Bytes}
      (nodeto : UInt8) (session : UInt32) (hmem : .dispatchName fill c nodectx t data ∈ ls) :
      SentBy ls received (CqyStr.makeRouted fill [] c nodeto
        (Algo.splitOne nodectx App.dot).2 session t false data)
  | response {fill : ℕ → UInt8} {k : ℕ} {data : Bytes} {c : UInt32} {request : CqyStr}
      (hmem : .respond fill k data ∈ ls) (hreceived : (c, request) ∈ received)
      (hclear : request.msg.response = false) :
      SentBy ls received (Cqy.response fill c request.msg data)

theorem SentBy.mono {ls ls' : List (Label ι)} {received received' : List (UInt32 × CqyStr)}
    {msg : CqyStr} (h : SentBy ls received msg) (hls : ls ⊆ ls') (hr : received ⊆ received') :
    SentBy ls' received' msg := by
  cases h with
  | dispatch session hmem => exact .dispatch session (hls hmem)
  | dispatchLocal toId session hmem => exact .dispatchLocal toId session (hls hmem)
  | dispatchRouted nodeto session hmem => exact .dispatchRouted nodeto session (hls hmem)
  | response hmem hreceived hclear => exact .response (hls hmem) (hr hreceived) hclear

/-- Everything on its way or delivered meets `P`, and a message without a name is looked up and
delivered under the id it is addressed to. -/
structure Carries (P : CqyStr → Prop) (s : Network ι) : Prop where
  calls : ∀ p ∈ s.calls, P p.2
  links : ∀ i n, ∀ msg ∈ (s.links i n).held, P msg
  runs : ∀ r ∈ s.runs, (∀ msg ∈ r.rest, P msg) ∧ ∀ id msg rest, r.looked = some id →
    r.rest = msg :: rest → msg.name.size = 0 → id = msg.msg.toId
  delivered : ∀ p ∈ s.delivered, P p.2 ∧ (p.2.name.size = 0 → p.1 = p.2.msg.toId)

variable {P : CqyStr → Prop} {s s' : Network ι}

theorem Carries.mono {Q : CqyStr → Prop} (h : Carries P s) (hPQ : ∀ msg, P msg → Q msg) :
    Carries Q s where
  calls p hp := hPQ _ (h.calls p hp)
  links i n msg hmsg := hPQ _ (h.links i n msg hmsg)
  runs r hr := ⟨fun msg hmsg ↦ hPQ _ ((h.runs r hr).1 msg hmsg), (h.runs r hr).2⟩
  delivered p hp := ⟨hPQ _ (h.delivered p hp).1, (h.delivered p hp).2⟩

theorem Carries.call (h : Carries P s) {i : ι} {msg : CqyStr} (hmsg : P msg) :
    Carries P { s with calls := s.calls ++ [(i, msg)] } where
  calls p hp := by
    rcases List.mem_append.mp hp with hp | hp
    · exact h.calls p hp
    · obtain rfl := List.mem_singleton.mp hp
      exact hmsg
  links := h.links
  runs := h.runs
  delivered := h.delivered

theorem Carries.pushMsg (h : Carries P s) {c : UInt32} {msg : CqyStr} (hmsg : P msg)
    (hto : msg.name.size = 0 → c = msg.msg.toId) : Carries P (s.pushMsg c msg) := by
  rw [Network.pushMsg]
  split_ifs
  · exact h
  refine ⟨h.calls, h.links, h.runs, fun p hp ↦ ?_⟩
  rcases List.mem_append.mp hp with hp | hp
  · exact h.delivered p hp
  · obtain rfl := List.mem_singleton.mp hp
    exact ⟨hmsg, hto⟩

/-- A dispatch that produces a frame puts it among the calls. -/
theorem Carries.produce (h : Carries P s) (home : UInt32 → ι) {c : UInt32} {t : UInt8}
    {d : Dispatched} (hd : ∀ frame ∈ d.msg, P frame) : Carries P (s.produce home c t d) := by
  rw [Network.produce]
  cases hmsg : d.msg with
  | none => exact h
  | some frame =>
    have hcall := h.call (i := home c) (hd frame hmsg)
    exact ⟨hcall.calls, h.links, h.runs, h.delivered⟩

theorem Carries.links_step [DecidableEq ι] (h : Carries P s) {i : ι} {n : UInt8}
    {l : SendLoop.Label CqyStr} {link : SendLoop CqyStr} (hstep : (s.links i n).step l = some link)
    (hin : ∀ msg ∈ l.incoming, P msg) (i' : ι) (n' : UInt8) :
    ∀ msg ∈ (Function.update s.links i (Function.update (s.links i) n link) i' n').held,
      P msg := by
  intro msg hmsg
  by_cases hi : i' = i
  · subst hi
    rw [Function.update_self] at hmsg
    by_cases hn : n' = n
    · subst hn
      rw [Function.update_self] at hmsg
      exact (List.mem_append.mp (SendLoop.held_step hstep hmsg)).elim (hin msg)
        (h.links i' n' msg)
    · rw [Function.update_of_ne hn] at hmsg
      exact h.links i' n' msg hmsg
  · rw [Function.update_of_ne hi] at hmsg
    exact h.links i' n' msg hmsg

/-- `node_mq_push` gives a message of this node to the context it is addressed to. -/
theorem Inv.nodeMqPush_ctx {site : ι → Site} (h : Inv s) {i : ι} {msg : CqyStr} {c : UInt32}
    (hpush : (s.app site i).nodeMqPush msg = .ctx c) : c = msg.msg.toId := by
  rw [App.nodeMqPush] at hpush
  cases hparse : msg.parse true with
  | none => simp [hparse] at hpush
  | some cmsg =>
    obtain rfl := CqyStr.eq_msg_of_parse hparse
    simp only [hparse] at hpush
    split_ifs at hpush
    · cases hget : (s.app site i).mgr.getCtx msg.msg.toId with
      | none => simp [hget] at hpush
      | some ctx =>
        rw [hget] at hpush
        obtain rfl := MqPush.ctx.inj hpush
        exact h.getCtx_own hget
    · split at hpush <;> cases hpush

theorem Carries.nodeMqPush [DecidableEq ι] {site : ι → Site} (hinv : Inv s) (h : Carries P s)
    {i : ι} {msg : CqyStr} (hmsg : P msg) (hstep : nodeMqPush site s i msg = some s') :
    Carries P s' := by
  rw [Network.nodeMqPush] at hstep
  split at hstep
  · obtain rfl := Option.some.inj hstep
    exact h
  · rename_i c hpush
    obtain rfl := Option.some.inj hstep
    exact h.pushMsg hmsg fun _ ↦ hinv.nodeMqPush_ctx hpush
  · obtain ⟨link, hlink, rfl⟩ := Option.map_eq_some_iff.mp hstep
    refine ⟨h.calls, h.links_step hlink ?_, h.runs, h.delivered⟩
    simpa [SendLoop.Label.incoming] using hmsg

theorem Carries.linkStep [DecidableEq ι] {connect : ι → UInt8 → ι} (h : Carries P s) {i : ι}
    {n : UInt8} {l : SendLoop.Label CqyStr} (hstep : linkStep connect s i n l = some s') :
    Carries P s' := by
  unfold Network.linkStep at hstep
  split at hstep
  · cases hstep
  · rename_i hpush
    obtain ⟨link, hlink, rfl⟩ := Option.map_eq_some_iff.mp hstep
    refine ⟨h.calls, h.links_step hlink fun msg hmsg ↦ ?_, fun r hr ↦ ?_, h.delivered⟩
    · cases l with
      | pushTest m => exact absurd rfl (hpush m)
      | _ => simp [SendLoop.Label.incoming] at hmsg
    · dsimp only at hr
      split_ifs at hr
      · rcases List.mem_append.mp hr with hr | hr
        · exact h.runs r hr
        · obtain rfl := List.mem_singleton.mp hr
          exact ⟨fun msg hmsg ↦ h.links i n msg (List.mem_append_right _ hmsg),
            fun id msg rest hnone ↦ by simp at hnone⟩
      · exact h.runs r hr

/-- `rpc_on_mq` looks a message without a name up under the id it is addressed to. -/
theorem Carries.lookUp (h : Carries P s) {k : ℕ} {r r' : MqRun ι} (hk : s.runs[k]? = some r)
    (hlook : lookUp (s.mgr r.node) r = some r') :
    Carries P { s with runs := s.runs.set k r' } := by
  refine ⟨h.calls, h.links, fun u hu ↦ ?_, h.delivered⟩
  rcases List.mem_or_eq_of_mem_set hu with hu | rfl
  · exact h.runs u hu
  unfold Network.lookUp at hlook
  split at hlook
  · rename_i msg rest hlooked hrest
    split at hlook
    · obtain rfl := Option.some.inj hlook
      exact ⟨by simp, fun id m rest' _ hnil ↦ by simp at hnil⟩
    · rename_i cmsg hparse
      obtain rfl := Option.some.inj hlook
      refine ⟨(h.runs r (List.mem_of_getElem? hk)).1, fun id m rest' hid hrest' hname ↦ ?_⟩
      obtain ⟨rfl, rfl⟩ := List.cons.inj (hrest.symm.trans hrest')
      obtain rfl := Option.some.inj hid
      rw [App.mqTarget, if_neg (not_not.mpr hname), CqyStr.eq_msg_of_parse hparse]
  · cases hlook

theorem Carries.deliver (hinv : Inv s) (h : Carries P s) {k : ℕ} {r : MqRun ι}
    (hk : s.runs[k]? = some r) (hstep : s.deliver k r = some s') : Carries P s' := by
  have hr := h.runs r (List.mem_of_getElem? hk)
  unfold Network.deliver at hstep
  split at hstep
  · rename_i id msg rest hlooked hrest
    have hdone : Carries P { s with runs := s.runs.set k { r with rest := rest, looked := none } } := by
      refine ⟨h.calls, h.links, fun u hu ↦ ?_, h.delivered⟩
      rcases List.mem_or_eq_of_mem_set hu with hu | rfl
      · exact h.runs u hu
      · refine ⟨fun m hm ↦ hr.1 m ?_, fun id' m rest' hnone ↦ by simp at hnone⟩
        rw [hrest]
        exact List.mem_cons_of_mem _ hm
    dsimp only at hstep
    split at hstep
    · rename_i c hget
      obtain rfl := Option.some.inj hstep
      refine hdone.pushMsg (hr.1 msg ?_) fun hname ↦ ?_
      · rw [hrest]
        exact List.mem_cons_self
      · rw [hinv.getCtx_own hget]
        exact hr.2 id msg rest hlooked hrest hname
    · obtain rfl := Option.some.inj hstep
      exact hdone
  · cases hstep

/-! ## One step and a run -/

/-- The message that a label writes, in the state before it. -/
def Writes (site : ι → Site) (home : UInt32 → ι) (s : Network ι) (msg : CqyStr) :
    Label ι → Prop
  | .dispatch fill c toId t data => msg ∈ (dispatch fill c (s.session c) toId t data).msg
  | .dispatchName fill c nodectx t data =>
    msg ∈ (dispatchName (s.app site (home c)) fill c (s.session c) nodectx t data).msg
  | .respond fill k data => ∃ c request, s.received[k]? = some (c, request) ∧
    request.msg.response = false ∧ msg = response fill c request.msg data
  | _ => False

/-- No step makes a message up. -/
theorem Carries.step [DecidableEq ι] {site : ι → Site} {home : UInt32 → ι}
    {connect : ι → UInt8 → ι} {l : Label ι} (hinv : Inv s) (h : Carries P s)
    (hwrites : ∀ msg, Writes site home s msg l → P msg)
    (hstep : step site home connect s l = some s') : Carries P s' := by
  cases l with
  | registry i m =>
    simp only [Network.step] at hstep
    split_ifs at hstep
    obtain rfl := Option.some.inj hstep
    exact ⟨h.calls, h.links, h.runs, h.delivered⟩
  | dispatch fill c toId t data =>
    obtain rfl := Option.some.inj hstep
    exact h.produce home hwrites
  | dispatchName fill c nodectx t data =>
    obtain rfl := Option.some.inj hstep
    exact h.produce home hwrites
  | respond fill k data =>
    obtain ⟨⟨c, request⟩, hk, hrespond⟩ := Option.bind_eq_some_iff.mp hstep
    dsimp only at hrespond
    split_ifs at hrespond with hclear
    obtain rfl := Option.some.inj hrespond
    exact h.call (hwrites _ ⟨c, request, hk, by simpa using hclear, rfl⟩)
  | mqPush k =>
    obtain ⟨⟨i, msg⟩, hk, hpush⟩ := Option.bind_eq_some_iff.mp hstep
    have hcalls : Carries P { s with calls := s.calls.eraseIdx k } :=
      ⟨fun p hp ↦ h.calls p (List.mem_of_mem_eraseIdx hp), h.links, h.runs, h.delivered⟩
    have hinv' : Inv { s with calls := s.calls.eraseIdx k } :=
      hinv.of_flight (fun p hp ↦ hinv.calls p (List.mem_of_mem_eraseIdx hp)) hinv.links hinv.run_ok
    exact hcalls.nodeMqPush hinv' (h.calls _ (List.mem_of_getElem? hk)) hpush
  | link i n l => exact h.linkStep hstep
  | lookUp k =>
    obtain ⟨r', hbind, rfl⟩ := Option.map_eq_some_iff.mp hstep
    obtain ⟨r, hk, hlook⟩ := Option.bind_eq_some_iff.mp hbind
    exact h.lookUp hk hlook
  | deliver k =>
    obtain ⟨r, hk, hdeliver⟩ := Option.bind_eq_some_iff.mp hstep
    exact h.deliver hinv hk hdeliver
  | receive c =>
    obtain ⟨_, -, rfl⟩ := Option.map_eq_some_iff.mp hstep
    exact ⟨h.calls, h.links, h.runs, h.delivered⟩
  | shutdown c =>
    obtain rfl := Option.some.inj hstep
    exact ⟨h.calls, h.links, h.runs, h.delivered⟩

theorem received_pushMsg (s : Network ι) (c : UInt32) (msg : CqyStr) :
    (s.pushMsg c msg).received = s.received := by
  rw [Network.pushMsg]
  split_ifs <;> rfl

theorem received_produce (s : Network ι) (home : UInt32 → ι) (c : UInt32) (t : UInt8)
    (d : Dispatched) : (s.produce home c t d).received = s.received := by
  rw [Network.produce]
  cases d.msg <;> rfl

theorem received_nodeMqPush [DecidableEq ι] {site : ι → Site} {i : ι} {msg : CqyStr}
    (hstep : nodeMqPush site s i msg = some s') : s'.received = s.received := by
  rw [Network.nodeMqPush] at hstep
  split at hstep
  · exact Option.some.inj hstep ▸ rfl
  · exact Option.some.inj hstep ▸ received_pushMsg _ _ _
  · obtain ⟨link, -, rfl⟩ := Option.map_eq_some_iff.mp hstep
    rfl

theorem received_deliver {k : ℕ} {r : MqRun ι} (hstep : s.deliver k r = some s') :
    s'.received = s.received := by
  unfold Network.deliver at hstep
  split at hstep
  · dsimp only at hstep
    split at hstep
    · exact Option.some.inj hstep ▸ received_pushMsg _ _ _
    · exact Option.some.inj hstep ▸ rfl
  · cases hstep

/-- Received messages stay. -/
theorem received_subset [DecidableEq ι] {site : ι → Site} {home : UInt32 → ι}
    {connect : ι → UInt8 → ι} {l : Label ι} (hstep : step site home connect s l = some s') :
    s.received ⊆ s'.received := by
  have hsame (h : s'.received = s.received) : s.received ⊆ s'.received := h ▸ List.Subset.refl _
  cases l with
  | registry i m =>
    simp only [Network.step] at hstep
    split_ifs at hstep
    exact hsame (Option.some.inj hstep ▸ rfl)
  | dispatch fill c toId t data =>
    exact hsame (Option.some.inj hstep ▸ received_produce s home c t _)
  | dispatchName fill c nodectx t data =>
    exact hsame (Option.some.inj hstep ▸ received_produce s home c t _)
  | respond fill k data =>
    obtain ⟨⟨c, request⟩, -, hrespond⟩ := Option.bind_eq_some_iff.mp hstep
    dsimp only at hrespond
    split_ifs at hrespond
    exact hsame (Option.some.inj hrespond ▸ rfl)
  | mqPush k =>
    obtain ⟨⟨i, msg⟩, -, hpush⟩ := Option.bind_eq_some_iff.mp hstep
    have hkeep := received_nodeMqPush hpush
    exact hsame hkeep
  | link i n l =>
    simp only [Network.step, Network.linkStep] at hstep
    split at hstep
    · cases hstep
    · obtain ⟨link, -, rfl⟩ := Option.map_eq_some_iff.mp hstep
      exact hsame rfl
  | lookUp k =>
    obtain ⟨r', -, rfl⟩ := Option.map_eq_some_iff.mp hstep
    exact hsame rfl
  | deliver k =>
    obtain ⟨r, -, hdeliver⟩ := Option.bind_eq_some_iff.mp hstep
    exact hsame (received_deliver hdeliver)
  | receive c =>
    obtain ⟨⟨res, queue⟩, -, rfl⟩ := Option.map_eq_some_iff.mp hstep
    cases res with
    | none => exact List.Subset.refl _
    | some msg =>
      dsimp only
      split_ifs
      · exact List.subset_append_left _ _
      · exact List.Subset.refl _
  | shutdown c => exact hsame (Option.some.inj hstep ▸ rfl)

theorem getHandle_snd {C : Type} {a : App C} {nodectx : Bytes} {p : CqyHandle × Bytes}
    (h : a.getHandle nodectx = some p) : p.2 = (Algo.splitOne nodectx App.dot).2 := by
  simp only [App.getHandle] at h
  split_ifs at h
  split at h
  · cases h
  · rw [← Option.some.inj h]

/-- What a label writes is one of the frames of the run it ends. -/
theorem Writes.sentBy {site : ι → Site} {home : UInt32 → ι} {msg : CqyStr} {l : Label ι}
    (h : Writes site home s msg l) (ls : List (Label ι)) : SentBy (ls ++ [l]) s.received msg := by
  have hmem : l ∈ ls ++ [l] := List.mem_append_right _ (List.mem_singleton.mpr rfl)
  cases l with
  | dispatch fill c toId t data =>
    obtain rfl := Option.some.inj h
    exact .dispatch _ hmem
  | dispatchName fill c nodectx t data =>
    simp only [Writes, dispatchName] at h
    cases hget : (s.app site (home c)).getHandle nodectx with
    | none => simp [hget] at h
    | some p =>
      obtain ⟨handle, ctxname⟩ := p
      have hname : ctxname = (Algo.splitOne nodectx App.dot).2 := getHandle_snd hget
      simp only [hget] at h
      split_ifs at h
      · obtain rfl := Option.some.inj h
        exact .dispatchLocal _ _ hmem
      · obtain rfl := Option.some.inj h
        rw [hname]
        exact .dispatchRouted _ _ hmem
  | respond fill k data =>
    obtain ⟨c, request, hk, hclear, rfl⟩ := h
    exact .response hmem (List.mem_of_getElem? hk) hclear
  | _ => cases h

/-- The lengths that the members of a frame can hold. -/
def Label.Fits : Label ι → Prop
  | .dispatch _ _ _ _ data => data.length < 2 ^ 32
  | .dispatchName _ _ nodectx _ data =>
    (Algo.splitOne nodectx App.dot).2.length < 255 ∧
      1 + (Algo.splitOne nodectx App.dot).2.length + data.length < 2 ^ 32
  | .respond _ _ data => data.length < 2 ^ 32
  | _ => True

instance (l : Label ι) : Decidable l.Fits := by
  cases l <;> unfold Label.Fits <;> infer_instance

theorem carries_run [DecidableEq ι] {site : ι → Site} {home : UInt32 → ι}
    {connect : ι → UInt8 → ι} {ls : List (Label ι)}
    (hrun : Machine.run (step site home connect) init ls = some s) :
    Inv s ∧ Carries (SentBy ls s.received) s := by
  have hstep (ls : List (Label ι)) (s : Network ι) (l : Label ι) (s' : Network ι)
      (h : Inv s ∧ Carries (SentBy ls s.received) s)
      (hstep : step site home connect s l = some s') :
      Inv s' ∧ Carries (SentBy (ls ++ [l]) s'.received) s' := by
    have hsub := received_subset hstep
    have hgrow : Carries (SentBy (ls ++ [l]) s'.received) s :=
      h.2.mono fun msg hmsg ↦ hmsg.mono (List.subset_append_left _ _) hsub
    refine ⟨inv_step s l s' h.1 hstep, hgrow.step h.1 (fun msg hwrites ↦ ?_) hstep⟩
    exact (hwrites.sentBy ls).mono (List.Subset.refl _) hsub
  have hinit : Carries (SentBy ([] : List (Label ι)) []) (init : Network ι) :=
    ⟨by simp [init], by simp [init, SendLoop.held], by simp [init], by simp [init]⟩
  exact Machine.run_history hstep ⟨inv_init, hinit⟩ hrun

/-- In every run, a message that a context receives was sent in that run: by a `dispatch` to an id
or to a name, or by a `response` to a request that its sender had received.  Its header and its
buffer give back the caller, the type and the data of that call, and the message has come to the
context it is addressed to, unless it is addressed by name. -/
theorem received_as_sent [DecidableEq ι] (site : ι → Site) (home : UInt32 → ι)
    (connect : ι → UInt8 → ι) (ls : List (Label ι)) (s : Network ι)
    (hrun : Machine.run (step site home connect) init ls = some s) (hfits : ∀ l ∈ ls, l.Fits)
    (c : UInt32) (msg : CqyStr) (hreceived : (c, msg) ∈ s.received) :
    (∃ fill src t data session, .dispatch fill src c t data ∈ ls ∧
        CqyStr.Decodes msg src c session t false false [] data) ∨
      (∃ fill src nodectx t data session, .dispatchName fill src nodectx t data ∈ ls ∧
        (CqyStr.Decodes msg src c session t false false [] data ∨
          ∃ toId, CqyStr.Decodes msg src toId session t false true
            (Algo.splitOne nodectx App.dot).2 data)) ∨
      ∃ fill src k data request, .respond fill k data ∈ ls ∧ (src, request) ∈ s.received ∧
        request.msg.response = false ∧ c = request.msg.fromId ∧
        CqyStr.Decodes msg src c request.msg.session request.msg.type true false [] data := by
  obtain ⟨hinv, hcarries⟩ := carries_run hrun
  obtain ⟨hsent, hto⟩ : SentBy ls s.received msg ∧ (msg.name.size = 0 → c = msg.msg.toId) :=
    hcarries.delivered _ (hinv.received hreceived)
  -- A frame of `make` has no name, so it has come to the id in its header.
  have hplain {fill : ℕ → UInt8} {src toId session : UInt32} {t : UInt8} {rsp : Bool} {data : Bytes}
      (hmsg : msg = CqyStr.make fill [] src toId session t rsp data) : c = toId := by
    have hname : msg.name.size = 0 := by rw [hmsg, CqyStr.name_make]
    rw [hto hname, hmsg, CqyStr.msg_make, CqyStr.plainHeader]
  generalize hm : msg = m at hsent
  cases hsent with
  | @dispatch fill src toId t data session hmem =>
    obtain rfl := hplain hm
    exact .inl ⟨fill, src, t, data, session, hmem, CqyStr.make_decodes _ _ _ _ _ _ _ _ (hfits _ hmem)⟩
  | @dispatchLocal fill src nodectx t data toId session hmem =>
    obtain rfl := hplain hm
    have hsize := (hfits _ hmem).2
    refine .inr (.inl ⟨fill, src, nodectx, t, data, session, hmem, .inl ?_⟩)
    exact CqyStr.make_decodes _ _ _ _ _ _ _ _ (by omega)
  | @dispatchRouted fill src nodectx t data nodeto session hmem =>
    obtain ⟨hname, hsize⟩ := hfits _ hmem
    refine .inr (.inl ⟨fill, src, nodectx, t, data, session, hmem,
      .inr ⟨((⟨0⟩ : CqyHandle).setNodeid nodeto).id, ?_⟩⟩)
    exact CqyStr.makeRouted_decodes _ _ _ _ _ _ _ _ _ (by omega) hsize
  | @response fill k data src request hmem hrequest hclear =>
    obtain rfl := hplain hm
    refine .inr (.inr ⟨fill, src, k, data, request, hmem, hrequest, hclear, rfl, ?_⟩)
    exact CqyStr.make_decodes _ _ _ _ _ _ _ _ (hfits _ hmem)

theorem response_of_decodes {msg : CqyStr} {src toId session : UInt32} {t : UInt8}
    {rsp route : Bool} {name data : Bytes}
    (h : CqyStr.Decodes msg src toId session t rsp route name data) : msg.msg.response = rsp := by
  obtain ⟨m, hparse, -, -, -, -, hrsp, -⟩ := h.parse
  rw [← CqyStr.eq_msg_of_parse hparse, hrsp]

/-- The answer of node 2 in a run in which the connection breaks and a batch is sent twice. -/
theorem received_as_sent_retried : ∃ s msg,
    Machine.run (step twoSites (fun c ↦ c = 0x02000001) fun _ n ↦ n = 2) init retriedRun = some s ∧
    (0x01000001, msg) ∈ s.received ∧
    ∃ src request data, (src, request) ∈ s.received ∧ request.msg.fromId = 0x01000001 ∧
      CqyStr.Decodes msg src 0x01000001 request.msg.session request.msg.type true false [] data := by
  let msg := response (fun _ ↦ 0) 0x02000001 (CqyStr.msg (CqyStr.make (fun _ ↦ 0) [] 0x01000001
    0x02000001 1 7 false [112, 105, 110, 103])) [112, 111, 110, 103]
  have hrsp : msg.msg.response = true := by decide
  refine ⟨_, msg, rfl, by decide, ?_⟩
  have hsent := received_as_sent twoSites (fun c ↦ c = 0x02000001) (fun _ n ↦ n = 2) retriedRun _
    rfl ?_ 0x01000001 msg (by decide)
  · rcases hsent with ⟨_, _, _, _, _, -, h⟩ | ⟨_, _, _, _, _, _, -, h | ⟨_, h⟩⟩ |
      ⟨_, src, _, data, request, -, hreceived, -, hfrom, h⟩
    · simp [response_of_decodes h] at hrsp
    · simp [response_of_decodes h] at hrsp
    · simp [response_of_decodes h] at hrsp
    · exact ⟨src, request, data, hreceived, hfrom.symm, h⟩
  · decide

end Cqy.Network
