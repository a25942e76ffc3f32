import Cqy.Algo.Number
import Cqy.Algo.Split

/-!
# The parameter of the websocket server

The configuration of the demo names the context to start with and its parameter in one string.  The
gate passes the parameter on to `ws_server`, which takes it apart: thread count, port, paths of the
certificate and of the key, and password.
-/

namespace Cqy.Demo

open Foundation Numeral

def space : Bytes := [32]

def comma : Bytes := [44]

/-- `gate`. -/
def gateName : Bytes := [103, 97, 116, 101]

/-- `ws_server`. -/
def wsServerName : Bytes := [119, 115, 95, 115, 101, 114, 118, 101, 114]

/-- What `ws_server_t::on_init` gets out of its parameter, in which no comma can stand for
itself. -/
structure WsParams where
  thread : UInt64
  port : UInt16
  certPath : Bytes
  keyPath : Bytes
  passwd : Bytes
  plain : ∀ piece ∈ [certPath, keyPath, passwd], 44 ∉ piece
deriving DecidableEq

theorem plain_of_split {param : Bytes} {pieces : List Bytes} (h : Algo.split param comma = pieces) :
    ∀ piece ∈ pieces, 44 ∉ piece := by
  intro piece hpiece hcomma
  have hnot : ¬ comma <:+: piece :=
    Algo.not_infix_of_mem_split (by simp [comma]) param piece (h ▸ hpiece)
  exact hnot ((List.singleton_infix_iff 44 piece).mpr hcomma)

/-- `ws_server_t::on_init` up to the construction of the server; none where it returns false. -/
def wsServerParams (param : Bytes) : Option WsParams :=
  match h : Algo.split param comma with
  | [thread, port, certPath, keyPath, passwd] =>
    match Algo.toN .sizeT thread, Algo.toN .uint16 port with
    | some threadValue, some portValue =>
      some ⟨UInt64.ofNat threadValue.toNat, UInt16.ofNat portValue.toNat, certPath, keyPath, passwd,
        fun piece hpiece ↦ plain_of_split h piece (by simp at hpiece ⊢; tauto)⟩
    | _, _ => none
  | _ => none

/-- The start of the demo: `create_ctx` of the context that the bootstrap string names.  The gate
creates `ws_server` with the parameter it gets. -/
def bootWsServer (bootstrap : Bytes) : Option WsParams :=
  let p := Algo.splitOne bootstrap space
  if p.1 = gateName ∨ p.1 = wsServerName then wsServerParams p.2 else none

/-- The string begins with digits that denote the number, which fits into the bits. -/
def Denotes (bits : ℕ) (s : Bytes) (n : ℕ) : Prop := ∃ ds, Leads ds s ∧ value ds = n ∧ n < 2 ^ bits

theorem denotes_write {bits n : ℕ} (hn : n < 2 ^ bits) : Denotes bits (write n) n :=
  ⟨write n, leads_write n, value_write n, hn⟩

theorem toN_eq_ofNat_iff {T : Algo.IntType} (hT : T.signed = false) {s : Bytes} {n : ℤ} :
    Algo.toN T s = some n ↔ Denotes T.bits s n.toNat ∧ 0 ≤ n := by
  rw [Algo.toN_unsigned_iff hT]
  constructor
  · rintro ⟨ds, hds, rfl, hlt⟩
    exact ⟨⟨ds, hds, rfl, hlt⟩, Int.natCast_nonneg _⟩
  · rintro ⟨⟨ds, hds, hvalue, hlt⟩, hn⟩
    exact ⟨ds, hds, by rw [hvalue, Int.toNat_of_nonneg hn], hvalue ▸ hlt⟩

/-- The parameter is accepted if it has five parts, of which the first two begin with numbers in
range; the parts are found as they stand there. -/
theorem wsServerParams_eq_some_iff {param : Bytes} {p : WsParams} :
    wsServerParams param = some p ↔ ∃ thread port,
      param = comma.intercalate [thread, port, p.certPath, p.keyPath, p.passwd] ∧
      44 ∉ thread ∧ 44 ∉ port ∧ Denotes 64 thread p.thread.toNat ∧
      Denotes 16 port p.port.toNat := by
  constructor
  · intro h
    unfold wsServerParams at h
    split at h
    · rename_i thread port certPath keyPath passwd hsplit
      split at h
      · rename_i threadValue portValue hthread hport
        obtain rfl := Option.some.inj h
        obtain ⟨hparam, hplain⟩ := (Algo.split_eq_iff (by simp)).mp hsplit
        obtain ⟨hthread, -⟩ := (toN_eq_ofNat_iff rfl).mp hthread
        obtain ⟨hport, -⟩ := (toN_eq_ofNat_iff rfl).mp hport
        refine ⟨thread, port, hparam, hplain _ (by simp), hplain _ (by simp), ?_, ?_⟩
        · rwa [UInt64.toNat_ofNat_of_lt' hthread.choose_spec.2.2]
        · rwa [UInt16.toNat_ofNat_of_lt' hport.choose_spec.2.2]
      · exact absurd h (by simp)
    · exact absurd h (by simp)
  · rintro ⟨thread, port, hparam, hthread, hport, hthreadValue, hportValue⟩
    have hsplit : Algo.split param comma = [thread, port, p.certPath, p.keyPath, p.passwd] := by
      refine (Algo.split_eq_iff (by simp)).mpr ⟨hparam, ?_⟩
      have hplain := p.plain
      simp only [List.forall_mem_cons] at hplain ⊢
      exact ⟨hthread, hport, hplain⟩
    have ht : Algo.toN .sizeT thread = some (p.thread.toNat : ℤ) :=
      (toN_eq_ofNat_iff rfl).mpr ⟨hthreadValue, Int.natCast_nonneg _⟩
    have hp : Algo.toN .uint16 port = some (p.port.toNat : ℤ) :=
      (toN_eq_ofNat_iff rfl).mpr ⟨hportValue, Int.natCast_nonneg _⟩
    unfold wsServerParams
    split
    · rename_i thread' port' certPath keyPath passwd hsplit'
      rw [hsplit] at hsplit'
      simp only [List.cons.injEq, and_true] at hsplit'
      obtain ⟨rfl, rfl, rfl, rfl, rfl⟩ := hsplit'
      simp [ht, hp]
    · rename_i hother
      exact absurd hsplit (hother _ _ _ _ _)

theorem bootWsServer_eq_some_iff {bootstrap : Bytes} {p : WsParams} :
    bootWsServer bootstrap = some p ↔ ∃ name param, (name = gateName ∨ name = wsServerName) ∧
      bootstrap = name ++ space ++ param ∧ wsServerParams param = some p := by
  have hspace {name : Bytes} (hname : name = gateName ∨ name = wsServerName) : 32 ∉ name := by
    rcases hname with rfl | rfl <;> decide
  constructor
  · intro h
    unfold bootWsServer at h
    dsimp only at h
    split_ifs at h with hname
    have hrest : (Algo.splitOne bootstrap space).2 ≠ [] := by
      intro hnil
      rw [hnil, wsServerParams_eq_some_iff] at h
      obtain ⟨thread, port, hparam, -⟩ := h
      exact absurd (congrArg List.length hparam) (by simp [comma])
    obtain ⟨hbootstrap, -⟩ := (Algo.splitOne_eq_iff hrest).mp (Prod.mk.eta.symm)
    exact ⟨_, _, hname, by simpa [space] using hbootstrap, h⟩
  · rintro ⟨name, param, hname, rfl, hparam⟩
    have hsplit : Algo.splitOne (name ++ space ++ param) space = (name, param) := by
      rw [space, List.append_assoc, List.singleton_append]
      exact Algo.splitOne_append_of_notMem (hspace hname) param
    simp only [bootWsServer, hsplit, hname, if_true, hparam]

/-- The bootstrap string of the demo for the parameters. -/
def WsParams.bootstrap (p : WsParams) : Bytes :=
  gateName ++ space ++ comma.intercalate
    [write p.thread.toNat, write p.port.toNat, p.certPath, p.keyPath, p.passwd]

/-- Every choice of parameters can be written into the bootstrap string and arrives as it was
written; and whatever string is accepted, it names the gate or the server itself and lists the
parameters that arrive, the numbers perhaps with something behind their digits. -/
theorem bootstrap_arrives :
    (∀ p : WsParams, bootWsServer p.bootstrap = some p) ∧
    ∀ bootstrap (p : WsParams), bootWsServer bootstrap = some p ↔ ∃ name thread port,
      (name = gateName ∨ name = wsServerName) ∧
      bootstrap = name ++ space ++
        comma.intercalate [thread, port, p.certPath, p.keyPath, p.passwd] ∧
      44 ∉ thread ∧ 44 ∉ port ∧ Denotes 64 thread p.thread.toNat ∧
      Denotes 16 port p.port.toNat := by
  have hplain (n : ℕ) : 44 ∉ write n := fun h ↦ absurd (isDigit_of_mem_write h) (by decide)
  refine ⟨fun p ↦ ?_, fun bootstrap p ↦ ?_⟩
  · refine bootWsServer_eq_some_iff.mpr ⟨gateName, _, Or.inl rfl, rfl, ?_⟩
    rw [wsServerParams_eq_some_iff]
    exact ⟨_, _, rfl, hplain _, hplain _, denotes_write p.thread.toNat_lt,
      denotes_write p.port.toNat_lt⟩
  · rw [bootWsServer_eq_some_iff]
    constructor
    · rintro ⟨name, param, hname, rfl, hparam⟩
      obtain ⟨thread, port, rfl, hrest⟩ := wsServerParams_eq_some_iff.mp hparam
      exact ⟨name, thread, port, hname, rfl, hrest⟩
    · rintro ⟨name, thread, port, hname, rfl, hrest⟩
      exact ⟨name, _, hname, rfl, wsServerParams_eq_some_iff.mpr ⟨thread, port, rfl, hrest⟩⟩

end Cqy.Demo
