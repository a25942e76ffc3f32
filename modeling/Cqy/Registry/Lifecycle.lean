import Cqy.Registry.CreateCtx
import Cqy.Registry.NameMap

/-!
# What creating and stopping leave in the registry

A context registers its names while `on_init` runs, before it is inserted, and `del_ctx` removes the
context and one of its names.  This module follows whole calls of `create_ctx` and `stop_ctx`, for
every behaviour of `on_init`, and says when a stopped context leaves no name behind and when a
failed creation leaves the registry as it was.
-/

namespace Cqy

open Foundation

/-- What `on_init` does to the registry before it returns or throws.  After a call of
`register_name` it goes on with the exception that the call threw, if it threw one. -/
inductive OnInit
  | returns (ok : Bool)
  | throws (what : String)
  | registerName (name : Bytes) (id : UInt32) (next : Option String → OnInit)

/-- A context class: its constructor, and its `on_init` as a function of the own id and the
parameter. -/
structure CtxClass (C : Type*) where
  construct : Except String C
  onInit : UInt32 → Bytes → OnInit

namespace OnInit

variable {C : Type*}

/-- A registration whose exception is not caught. -/
def register (name : Bytes) (id : UInt32) (next : OnInit) : OnInit :=
  .registerName name id fun
    | none => next
    | some what => .throws what

/-- What `on_init` returns or throws, and the registry afterwards. -/
def run : OnInit → CtxMgr C → Except String Bool × CtxMgr C
  | .returns ok, m => (.ok ok, m)
  | .throws what, m => (.error what, m)
  | .registerName name id next, m =>
    match m.registerName name id with
    | .ok m' => run (next none) m'
    | .error what => run (next (some what)) m

/-- Every name that `on_init` asks for is taken. -/
def RegistersNone (names : Table Bytes UInt32) : OnInit → Prop
  | .returns _ | .throws _ => True
  | .registerName name _ next =>
    (names.find name).isSome ∧ RegistersNone names (next (some "name already exists"))

/-! ## What `on_init` changes -/

theorem ctxs_run (b : OnInit) (m : CtxMgr C) : (b.run m).2.ctxs = m.ctxs := by
  induction b generalizing m with
  | returns ok | throws what => rfl
  | registerName name id next ih =>
    rw [run]
    split
    · rename_i m' hreg
      obtain ⟨hnew, rfl⟩ := CtxMgr.registerName_eq_ok hreg
      exact ih none _
    · exact ih _ m

/-- No name is ever removed. -/
theorem length_names_run (b : OnInit) (m : CtxMgr C) :
    m.names.entries.length ≤ (b.run m).2.names.entries.length := by
  induction b generalizing m with
  | returns ok | throws what => exact le_rfl
  | registerName name id next ih =>
    rw [run]
    split
    · rename_i m' hreg
      obtain ⟨hnew, rfl⟩ := CtxMgr.registerName_eq_ok hreg
      have hlen := (m.names.entries_insert_perm name id hnew).length_eq
      refine le_trans ?_ (ih none _)
      dsimp only
      rw [hlen]
      exact Nat.le_succ _
    · exact ih _ m

/-- The names are what they were exactly if every name that was asked for was taken. -/
theorem names_run_eq_iff (b : OnInit) (m : CtxMgr C) :
    (b.run m).2.names = m.names ↔ b.RegistersNone m.names := by
  induction b generalizing m with
  | returns ok | throws what => exact iff_of_true rfl trivial
  | registerName name id next ih =>
    rw [run, RegistersNone]
    rcases m.registerName_eq name id with ⟨hnew, hfind, hreg⟩ | ⟨w, hfind, hreg⟩
    · rw [hreg, hfind]
      simp only [Option.isSome_none, Bool.false_eq_true, false_and, iff_false]
      intro heq
      have hlen := (m.names.entries_insert_perm name id hnew).length_eq
      have hle := length_names_run (next none)
        ({ m with names := m.names.insert name id hnew } : CtxMgr C)
      rw [heq] at hle
      dsimp only at hle
      rw [hlen, List.length_cons] at hle
      omega
    · rw [hreg, hfind, Option.isSome_some, and_iff_right rfl]
      exact ih _ m

end OnInit

namespace CtxMgr

variable {C : Type*}

/-- `cqy_app::create_ctx` on a node with the id `nodeid`: what it returns or throws, and the
registry afterwards. -/
def createCtx (nodeid : UInt8) (creators : Bytes → Option (CtxClass C)) (m : CtxMgr C)
    (name param : Bytes) : Except String UInt32 × CtxMgr C :=
  match creators name with
  | none => (.ok 0, m)
  | some cls =>
    match cls.construct with
    | .error what => (.error what, m)
    | .ok ctx =>
      let h := createdHandle nodeid m.newId.1
      match (cls.onInit h.id param).run m.newId.2 with
      | (.error what, m) => (.error what, m)
      | (.ok false, m) => (.ok 0, m)
      | (.ok true, m) => (.ok h.id, m.addCtx h.id ctx)

/-- `cqy_app::stop_ctx` by id. -/
def stopCtx (m : CtxMgr C) (id : UInt32) : CtxMgr C :=
  match m.getCtx id with
  | some _ => m.delCtx id
  | none => m

/-- `cqy_app::stop_ctx` by name. -/
def stopCtxByName (m : CtxMgr C) (name : Bytes) : CtxMgr C := m.stopCtx (m.findName name)

/-! ## Failed creations -/

/-- A call that returned 0 or threw has left the tables as they were. -/
def LeavesTables (m : CtxMgr C) (r : Except String UInt32 × CtxMgr C) : Prop :=
  (r.1 = .ok 0 ∨ ∃ what, r.1 = .error what) → r.2.ctxs = m.ctxs ∧ r.2.names = m.names

/-- The class is missing, or its constructor throws; or `on_init` returns true and the id is not the
failure value; or every name that `on_init` asks for is taken, and if it nevertheless returns true,
the id is taken as well. -/
def Harmless (nodeid : UInt8) (creators : Bytes → Option (CtxClass C)) (m : CtxMgr C)
    (name param : Bytes) : Prop :=
  ∀ cls ∈ creators name, ∀ ctx, cls.construct = .ok ctx →
    let id := (createdHandle nodeid m.newId.1).id
    let onInit := cls.onInit id param
    ((onInit.run m.newId.2).1 = .ok true ∧ id ≠ 0) ∨
      (onInit.RegistersNone m.names ∧
        ((onInit.run m.newId.2).1 = .ok true → (m.getCtx id).isSome))

theorem ctxs_addCtx_eq_iff (m : CtxMgr C) (id : UInt32) (ctx : C) :
    (m.addCtx id ctx).ctxs = m.ctxs ↔ (m.getCtx id).isSome := by
  rw [addCtx, getCtx]
  cases hget : m.ctxs.lookup id with
  | some ctx' => simp
  | none =>
    refine iff_of_false (fun heq ↦ ?_) (by simp)
    have hnew : (m.ctxs.insert id ctx).lookup id = some ctx := AList.lookup_insert m.ctxs
    rw [show m.ctxs.insert id ctx = m.ctxs from heq, hget] at hnew
    exact absurd hnew (by simp)

/-- For every registry, every class and every behaviour of its `on_init`: a call of `create_ctx`
that returns 0 or throws leaves the tables as they were exactly if it was harmless. -/
theorem createCtx_leavesTables_iff (nodeid : UInt8) (creators : Bytes → Option (CtxClass C))
    (m : CtxMgr C) (name param : Bytes) :
    LeavesTables m (createCtx nodeid creators m name param) ↔
      Harmless nodeid creators m name param := by
  rw [createCtx, Harmless]
  cases creators name with
  | none => simp [LeavesTables]
  | some cls =>
    simp only [Option.mem_some_iff, forall_eq']
    cases hmake : cls.construct with
    | error what => simp [LeavesTables]
    | ok ctx =>
      simp only [Except.ok.injEq, forall_eq']
      set id := (createdHandle nodeid m.newId.1).id
      set b := cls.onInit id param
      have hctxs : (b.run m.newId.2).2.ctxs = m.ctxs := b.ctxs_run m.newId.2
      have hnames : (b.run m.newId.2).2.names = m.names ↔ b.RegistersNone m.names :=
        b.names_run_eq_iff m.newId.2
      generalize b.run m.newId.2 = r at hctxs hnames ⊢
      obtain ⟨out, m'⟩ := r
      dsimp only at hctxs hnames ⊢
      cases out with
      | error what => simp [LeavesTables, hctxs, hnames]
      | ok ok =>
        cases ok with
        | false => simp [LeavesTables, hctxs, hnames]
        | true =>
          have hget : m'.getCtx id = m.getCtx id := by rw [getCtx, getCtx, hctxs]
          have hadd : (m'.addCtx id ctx).ctxs = m.ctxs ↔ (m.getCtx id).isSome := by
            rw [← hctxs, ctxs_addCtx_eq_iff, hget]
          simp only [LeavesTables, names_addCtx, hadd, hnames, Except.ok.injEq, reduceCtorEq,
            exists_false, or_false, true_and, true_imp_iff]
          rw [imp_iff_not_or, and_comm]

/-- The class `ws_server` registers its name before it looks at the parameter. -/
def wsServer (name : Bytes) : Option (CtxClass Unit) :=
  if name = [119, 115] then
    some ⟨.ok (), fun id param ↦ .register [119, 115] id (.returns (param ≠ []))⟩
  else none

/-- The creation fails for its parameter, and the next one, whose parameter is good, for the name
that it left behind. -/
theorem createCtx_wsServer :
    let r := createCtx 1 wsServer empty [119, 115] []
    r.1 = .ok 0 ∧ r.2.names.entries = [([119, 115], 0x01000001)] ∧ r.2.getCtx 0x01000001 = none ∧
    (createCtx 1 wsServer r.2 [119, 115] [49]).1 = .error "name already exists" ∧
    (createCtx 1 wsServer empty [119, 115] [49]).1 = .ok 0x01000001 := by
  refine ⟨rfl, rfl, rfl, rfl, rfl⟩

/-! ## Names of stopped contexts -/

/-- `find_name` returns the id for no name, and the names that had it may be registered again. -/
def FreesNames (m : CtxMgr C) (id : UInt32) (m' : CtxMgr C) : Prop :=
  (∀ name, m'.findName name ≠ id) ∧
    ∀ name, m.names.find name = some id → ∀ id', ∃ m'', m'.registerName name id' = .ok m''

theorem findName_delCtx (m : CtxMgr C) (id : UInt32) (name : Bytes) :
    (m.delCtx id).findName name = (Table.eraseLeast m.names.find id name).getD 0 := by
  rw [findName, delCtx, Table.find_eraseValue]

/-- Of two names with the id the greater one keeps it. -/
theorem findName_delCtx_of_lt {m : CtxMgr C} {id : UInt32} {name name' : Bytes} (hlt : name < name')
    (hname : m.names.find name = some id) (hname' : m.names.find name' = some id) :
    (m.delCtx id).findName name' = id := by
  rw [findName_delCtx, Table.eraseLeast, if_neg, hname', Option.getD_some]
  exact fun hleast ↦ hleast.2 name hlt hname

/-- `del_ctx` frees the names of an id exactly if the id is not the value for a missing name and has
one name at most. -/
theorem delCtx_freesNames_iff (m : CtxMgr C) (id : UInt32) :
    FreesNames m id (m.delCtx id) ↔ id ≠ 0 ∧ ∀ name name',
      m.names.find name = some id → m.names.find name' = some id → name = name' := by
  constructor
  · rintro ⟨hfree, -⟩
    refine ⟨?_, fun name name' hname hname' ↦ ?_⟩
    · rintro rfl
      obtain ⟨name, hname⟩ := m.names.exists_find_eq_none
      refine hfree name ?_
      rw [findName_delCtx, Table.eraseLeast, hname]
      split_ifs <;> rfl
    · rcases lt_trichotomy name name' with hlt | heq | hlt
      · exact absurd (findName_delCtx_of_lt hlt hname hname') (hfree name')
      · exact heq
      · exact absurd (findName_delCtx_of_lt hlt hname' hname) (hfree name)
  · rintro ⟨hzero, hone⟩
    have herase (name : Bytes) (hname : m.names.find name = some id) :
        (m.delCtx id).names.find name = none := by
      rw [delCtx, Table.find_eraseValue, Table.eraseLeast, if_pos]
      exact ⟨hname, fun name' hlt hname' ↦ hlt.ne (hone name' name hname' hname)⟩
    refine ⟨fun name hfind ↦ ?_, fun name hname id' ↦ ?_⟩
    · rw [findName] at hfind
      cases hafter : (m.delCtx id).names.find name with
      | none =>
        rw [hafter, Option.getD_none] at hfind
        exact hzero hfind.symm
      | some w =>
        rw [hafter, Option.getD_some] at hfind
        have hname : m.names.find name = some id := by
          rw [delCtx, Table.find_eraseValue, Table.eraseLeast] at hafter
          split_ifs at hafter
          rw [hafter, hfind]
        rw [herase name hname] at hafter
        exact absurd hafter (by simp)
    · rcases (m.delCtx id).registerName_eq name id' with ⟨hnew, -, hreg⟩ | ⟨w, hfind, -⟩
      · exact ⟨_, hreg⟩
      · rw [herase name hname] at hfind
        exact absurd hfind (by simp)

/-- For every registry and every live id: `stop_ctx`, by id or by a name with that id, frees its
names exactly if the id is not 0 and has one name at most. -/
theorem stopCtx_freesNames_iff (m : CtxMgr C) {id : UInt32} (hlive : (m.getCtx id).isSome) :
    (FreesNames m id (m.stopCtx id) ∧
      ∀ name, m.findName name = id → FreesNames m id (m.stopCtxByName name)) ↔
    id ≠ 0 ∧ ∀ name name',
      m.names.find name = some id → m.names.find name' = some id → name = name' := by
  obtain ⟨ctx, hctx⟩ := Option.isSome_iff_exists.mp hlive
  have hstop : m.stopCtx id = m.delCtx id := by rw [stopCtx, hctx]
  rw [← delCtx_freesNames_iff, hstop]
  refine and_iff_left_of_imp fun hfree name hname ↦ ?_
  rw [stopCtxByName, hname, hstop]
  exact hfree

/-- A class whose contexts have two names, `a` and `b`. -/
def twoNames (_ : Bytes) : Option (CtxClass Unit) :=
  some ⟨.ok (), fun id _ ↦ .register [97] id (.register [98] id (.returns true))⟩

/-- The context is gone and the name `b` still has its id. -/
theorem stopCtx_twoNames :
    let r := createCtx 1 twoNames empty [116] []
    r.1 = .ok 0x01000001 ∧ (r.2.stopCtx 0x01000001).getCtx 0x01000001 = none ∧
    (r.2.stopCtx 0x01000001).findName [98] = 0x01000001 ∧
    (r.2.stopCtx 0x01000001).registerName [98] 0x01000002 = .error "name already exists" ∧
    (r.2.stopCtxByName [98]).findName [98] = 0x01000001 := by
  refine ⟨rfl, rfl, rfl, rfl, rfl⟩

/-- The context of the class `ws_server` has one name. -/
theorem stopCtx_wsServer :
    let m := (createCtx 1 wsServer empty [119, 115] [49]).2
    FreesNames m 0x01000001 (m.stopCtx 0x01000001) ∧
      ∀ name, m.findName name = 0x01000001 → FreesNames m 0x01000001 (m.stopCtxByName name) := by
  refine (stopCtx_freesNames_iff _ rfl).mpr ⟨by decide, fun name name' hname hname' ↦ ?_⟩
  have hentries : (createCtx 1 wsServer empty [119, 115] [49]).2.names.entries =
      [([119, 115], 0x01000001)] := rfl
  rw [Table.find_eq_some_iff, hentries, List.mem_singleton] at hname hname'
  rw [(Prod.mk.inj hname).1, (Prod.mk.inj hname').1]

end CtxMgr

end Cqy
