import Cqy.Foundation.Inverse
import Cqy.Demo.Gate

/-!
# The tables of the world and of the game

Both keep who plays under which name, and both forget a connection when the gate tells them that it
has ended.  When a name logs in again, the game takes the old player out of both of its tables; the
world leaves the old connection in `logins`.
-/

namespace Cqy.Demo

open Foundation

/-- `world_t`, with the name of each `login_t`. -/
structure World where
  logins : AList fun _ : UInt64 ↦ String := ∅
  name2conid : AList fun _ : String ↦ UInt64 := ∅
deriving DecidableEq

/-- `game_t::player`. -/
structure GamePlayer where
  connid : UInt64
  name : String
deriving DecidableEq

/-- The tables of `game_t`. -/
structure Game where
  players : AList fun _ : UInt64 ↦ GamePlayer := ∅
  name2id : AList fun _ : String ↦ UInt64 := ∅
deriving DecidableEq

namespace World

/-- `world_t::rpc_player_login`, with what it dispatches to the gate and what it returns.  The names
in `MsgOnline` have the order of the table; the source goes through an `unordered_map`, which leaves
their order open. -/
def rpcPlayerLogin (w : World) (connid : UInt64) (login : MsgLogin) :
    World × List Notice × MsgLoginResponce :=
  let old := w.name2conid.lookup login.name
  let name2conid := if old.isSome then w.name2conid.erase login.name else w.name2conid
  let w := { logins := w.logins.insert connid login.name
             name2conid := name2conid.insert login.name connid }
  let online := Payload.online (UInt16.ofNat w.logins.entries.length) (w.logins.entries.map (·.2))
  (w, (old.map Notice.close).toList ++ [.broad online], {})

/-- `world_t::on_msg` for a message of type `close`. -/
def onClose (w : World) (connid : UInt64) : World :=
  match w.logins.lookup connid with
  | some name => { logins := w.logins.erase connid, name2conid := w.name2conid.erase name }
  | none => w

/-- Who is registered under a name has logged in with it. -/
def Backed (w : World) : Prop :=
  ∀ name c, w.name2conid.lookup name = some c → w.logins.lookup c = some name

section

variable {w : World} {c connid : UInt64} {name : String} {login : MsgLogin}

theorem logins_rpcPlayerLogin : (w.rpcPlayerLogin connid login).1.logins.lookup c =
    if c = connid then some login.name else w.logins.lookup c := by
  change (w.logins.insert connid login.name).lookup c = _
  split_ifs with hc
  · rw [hc, AList.lookup_insert]
  · rw [AList.lookup_insert_ne hc]

theorem name2conid_rpcPlayerLogin : (w.rpcPlayerLogin connid login).1.name2conid.lookup name =
    if name = login.name then some connid else w.name2conid.lookup name := by
  simp only [rpcPlayerLogin]
  by_cases hname : name = login.name
  · rw [hname, AList.lookup_insert, if_pos rfl]
  · rw [AList.lookup_insert_ne hname, if_neg hname]
    split_ifs
    · rw [AList.lookup_erase_ne hname]
    · rfl

theorem logins_onClose : (w.onClose connid).logins.lookup c =
    if c = connid then none else w.logins.lookup c := by
  rw [onClose]
  cases hold : w.logins.lookup connid with
  | none =>
    split_ifs with hc
    · rw [hc, hold]
    · rfl
  | some name =>
    split_ifs with hc
    · rw [hc, AList.lookup_erase]
    · rw [AList.lookup_erase_ne hc]

theorem name2conid_onClose : (w.onClose connid).name2conid.lookup name =
    if w.logins.lookup connid = some name then none else w.name2conid.lookup name := by
  rw [onClose]
  cases hold : w.logins.lookup connid with
  | none => simp
  | some old =>
    by_cases hname : name = old
    · rw [hname, if_pos rfl, AList.lookup_erase]
    · rw [AList.lookup_erase_ne hname, if_neg (by simpa using Ne.symm hname)]

/-- A login keeps the names backed unless its connection is registered under another name. -/
theorem Backed.rpcPlayerLogin_iff (h : w.Backed) : (w.rpcPlayerLogin connid login).1.Backed ↔
    ∀ name, w.name2conid.lookup name = some connid → name = login.name := by
  constructor
  · intro h' name hname
    by_contra hne
    have hlogins := h' name connid (by rw [name2conid_rpcPlayerLogin, if_neg hne, hname])
    rw [logins_rpcPlayerLogin, if_pos rfl, Option.some_inj] at hlogins
    exact hne hlogins.symm
  · intro hother name c hname
    rw [name2conid_rpcPlayerLogin] at hname
    rw [logins_rpcPlayerLogin]
    by_cases hc : c = connid
    · rw [if_pos hc]
      split_ifs at hname with heq
      · rw [heq]
      · rw [hother name (hc ▸ hname)]
    · rw [if_neg hc]
      split_ifs at hname with heq
      · exact absurd (Option.some.inj hname).symm hc
      · exact h name c hname

theorem Backed.onClose (h : w.Backed) : (w.onClose connid).Backed := by
  intro name c hname
  rw [name2conid_onClose] at hname
  rw [logins_onClose]
  split_ifs at hname with hold
  have hc : c ≠ connid := by
    rintro rfl
    exact hold (h name c hname)
  rw [if_neg hc]
  exact h name c hname

end

end World

namespace Game

/-- The player that has the name is taken out. -/
def evict (g : Game) (name : String) : Game :=
  match g.name2id.lookup name with
  | some old => { players := g.players.erase old, name2id := g.name2id.erase name }
  | none => g

/-- `game_t::rpc_add_player`. -/
def rpcAddPlayer (g : Game) (connid : UInt64) (login : MsgLogin) : Game :=
  let g := g.evict login.name
  { players := g.players.insert connid { connid := connid, name := login.name }
    name2id := g.name2id.insert login.name connid }

/-- `game_t::on_msg` for a message of type `close`. -/
def onClose (g : Game) (connid : UInt64) : Game :=
  match g.players.lookup connid with
  | some p => { players := g.players.erase connid, name2id := g.name2id.erase p.name }
  | none => g

def nameOf (g : Game) (c : UInt64) : Option String := (g.players.lookup c).map GamePlayer.name

def connOf (g : Game) (name : String) : Option UInt64 := g.name2id.lookup name

/-- The tables are inverse: every player is found under its name, and each name has one player. -/
def Consistent (g : Game) : Prop := Inverse g.nameOf g.connOf

section

variable {g : Game} {c connid : UInt64} {name : String} {login : MsgLogin}

theorem nameOf_erase (name2id : AList fun _ : String ↦ UInt64) :
    nameOf ⟨g.players.erase connid, name2id⟩ = Function.update g.nameOf connid none := by
  funext c
  rw [nameOf, Function.update_apply]
  split_ifs with hc
  · rw [hc, AList.lookup_erase, Option.map_none]
  · rw [AList.lookup_erase_ne hc, nameOf]

theorem connOf_erase (players : AList fun _ : UInt64 ↦ GamePlayer) :
    connOf ⟨players, g.name2id.erase name⟩ = Function.update g.connOf name none := by
  funext n
  rw [connOf, Function.update_apply]
  split_ifs with hn
  · rw [hn, AList.lookup_erase]
  · rw [AList.lookup_erase_ne hn, connOf]

theorem nameOf_rpcAddPlayer : (g.rpcAddPlayer connid login).nameOf =
    Function.update (g.evict login.name).nameOf connid (some login.name) := by
  funext c
  rw [nameOf, rpcAddPlayer, Function.update_apply]
  split_ifs with hc
  · rw [hc, AList.lookup_insert, Option.map_some]
  · rw [AList.lookup_insert_ne hc, nameOf]

theorem connOf_rpcAddPlayer : (g.rpcAddPlayer connid login).connOf =
    Function.update (g.evict login.name).connOf login.name (some connid) := by
  funext n
  rw [connOf, rpcAddPlayer, Function.update_apply]
  split_ifs with hn
  · rw [hn, AList.lookup_insert]
  · rw [AList.lookup_insert_ne hn, connOf]

theorem consistent_init : Consistent {} := by
  have hname : nameOf {} = fun _ ↦ none := funext fun c ↦ by
    rw [nameOf, AList.lookup_empty, Option.map_none]
  have hconn : connOf {} = fun _ ↦ none := funext AList.lookup_empty
  rw [Consistent, hname, hconn]
  exact Inverse.nothing

theorem connOf_evict : (g.evict name).connOf = Function.update g.connOf name none := by
  rw [evict]
  cases hold : g.name2id.lookup name with
  | none => exact (Function.update_eq_self_iff.mpr hold.symm).symm
  | some old => exact connOf_erase _

theorem Consistent.evict (h : g.Consistent) : (g.evict name).Consistent := by
  rw [Consistent, Game.evict]
  cases hold : g.name2id.lookup name with
  | none => exact h
  | some old =>
    rw [nameOf_erase, connOf_erase]
    exact h.erase ((h old name).mpr hold)

theorem Consistent.nameOf_evict (h : g.Consistent) :
    (g.evict name).nameOf c = if g.nameOf c = some name then none else g.nameOf c := by
  rw [Game.evict]
  cases hold : g.name2id.lookup name with
  | none =>
    have hne : ¬ g.nameOf c = some name := fun hname ↦ by
      exact absurd (hold.symm.trans ((h c name).mp hname)) (by simp)
    rw [if_neg hne]
  | some old =>
    rw [nameOf_erase, Function.update_apply]
    have hiff : g.nameOf c = some name ↔ c = old := by
      rw [h c name, connOf, hold, Option.some_inj, eq_comm]
    simp only [hiff]

/-- Adding a player keeps the tables inverse unless its connection plays under another name. -/
theorem Consistent.rpcAddPlayer_iff (h : g.Consistent) :
    (g.rpcAddPlayer connid login).Consistent ↔
      ∀ name, g.nameOf connid = some name → name = login.name := by
  have hfree : (g.evict login.name).connOf login.name = none := by
    rw [connOf_evict, Function.update_self]
  rw [Consistent, nameOf_rpcAddPlayer, connOf_rpcAddPlayer, Inverse.insert_iff h.evict hfree,
    h.nameOf_evict]
  cases hname : g.nameOf connid with
  | none => simp
  | some name => simp

theorem Consistent.onClose (h : g.Consistent) : (g.onClose connid).Consistent := by
  rw [Consistent, Game.onClose]
  cases hold : g.players.lookup connid with
  | none => exact h
  | some p =>
    rw [nameOf_erase, connOf_erase]
    exact h.erase (by rw [nameOf, hold, Option.map_some])

theorem nameOf_onClose : (g.onClose connid).nameOf c =
    if c = connid then none else g.nameOf c := by
  rw [Game.onClose]
  cases hold : g.players.lookup connid with
  | none =>
    split_ifs with hc
    · rw [hc, nameOf, hold, Option.map_none]
    · rfl
  | some p => rw [nameOf_erase, Function.update_apply]

end

end Game

end Cqy.Demo
