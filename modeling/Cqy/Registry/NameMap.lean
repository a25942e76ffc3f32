import Cqy.Registry.CtxMgr

/-!
# The registry as a pair of finite maps

A registry says which context an id stands for and which id a name stands for.  The vector of names
is a means to that end: this module states the operations on the two maps, without an order and
without bisection, and shows that every sequence of operations on the registry does what the same
sequence does on the maps.  Of several names of a deleted id only the least one goes.
-/

namespace Cqy.CtxMgr

open Foundation Foundation.SortedTable

variable {C : Type*}

/-- The operations that change a registry. -/
inductive Op (C : Type*) where
  | addCtx (id : UInt32) (p : C)
  | registerName (name : Bytes) (id : UInt32)
  | delCtx (id : UInt32)

/-- The registry after an operation, and the exception it throws. -/
def apply (m : CtxMgr C) : Op C → CtxMgr C × Option String
  | .addCtx id p => (m.addCtx id p, none)
  | .registerName name id =>
    match m.registerName name id with
    | .ok m' => (m', none)
    | .error e => (m, some e)
  | .delCtx id => (m.delCtx id, none)

/-- The registry after a sequence of operations on an empty one. -/
def applyAll (ops : List (Op C)) : CtxMgr C := ops.foldl (fun m op ↦ (m.apply op).1) empty

/-! ## The maps -/

/-- What a registry is for: the contexts by id and the ids by name. -/
structure Maps (C : Type*) where
  ctx : UInt32 → Option C
  name : Bytes → Option UInt32

/-- The operations, said of the maps. -/
noncomputable def Maps.apply (r : Maps C) : Op C → Maps C × Option String
  | .addCtx id p => (⟨Function.update r.ctx id (some ((r.ctx id).getD p)), r.name⟩, none)
  | .registerName name id =>
    match r.name name with
    | some _ => (r, some "name already exists")
    | none => (⟨r.ctx, Function.update r.name name (some id)⟩, none)
  | .delCtx id => (⟨Function.update r.ctx id none, Table.eraseLeast r.name id⟩, none)

noncomputable def Maps.applyAll (ops : List (Op C)) : Maps C :=
  ops.foldl (fun r op ↦ (r.apply op).1) ⟨fun _ ↦ none, fun _ ↦ none⟩

/-- The maps that a registry stands for. -/
def maps (m : CtxMgr C) : Maps C := ⟨m.getCtx, m.names.find⟩

theorem getCtx_addCtx (m : CtxMgr C) (id : UInt32) (p : C) :
    (m.addCtx id p).getCtx = Function.update m.getCtx id (some ((m.getCtx id).getD p)) := by
  funext id'
  cases hget : m.getCtx id with
  | none =>
    rw [getCtx_addCtx_of_none hget, Function.update_apply]
    rfl
  | some q =>
    rw [Option.getD_some, ← hget, Function.update_eq_self, addCtx]
    rw [getCtx] at hget
    rw [hget]

/-- `register_name` looks for the name by bisection, and throws when it is there. -/
theorem registerName_eq (m : CtxMgr C) (name : Bytes) (id : UInt32) :
    (∃ hnew, m.names.find name = none ∧
      m.registerName name id = .ok { m with names := m.names.insert name id hnew }) ∨
    ∃ w, m.names.find name = some w ∧ m.registerName name id = .error "name already exists" := by
  by_cases hnew : m.names.binarySearch name = false
  · refine Or.inl ⟨hnew, ?_, by rw [registerName, dif_pos hnew]⟩
    rw [Option.eq_none_iff_forall_ne_some]
    intro w hfind
    exact Table.binarySearch_eq_false_iff.mp hnew w (Table.find_eq_some_iff.mp hfind)
  · obtain ⟨w, hmem⟩ := not_forall_not.mp (Table.binarySearch_eq_false_iff.not.mp hnew)
    exact Or.inr ⟨w, Table.find_eq_some_iff.mpr hmem, by rw [registerName, dif_neg hnew]⟩

/-- One operation on the registry is the same operation on the maps, with the same exception. -/
theorem maps_apply (m : CtxMgr C) (op : Op C) :
    (((m.apply op).1.maps, (m.apply op).2)) = m.maps.apply op := by
  cases op with
  | addCtx id p => simp only [apply, maps, Maps.apply, getCtx_addCtx, names_addCtx]
  | registerName name id =>
    rcases m.registerName_eq name id with ⟨hnew, hfind, hreg⟩ | ⟨w, hfind, hreg⟩
    · simp only [apply, maps, Maps.apply, hreg, hfind]
      refine congrArg (fun f ↦ (Maps.mk m.getCtx f, none)) (funext fun name' ↦ ?_)
      rw [Table.find_insert, Function.update_apply]
      split_ifs <;> rfl
    · simp only [apply, maps, Maps.apply, hreg, hfind]
  | delCtx id =>
    have hctx : (m.delCtx id).getCtx = Function.update m.getCtx id none := by
      funext id'
      rw [getCtx_delCtx, Function.update_apply]
    have hname : (m.delCtx id).names.find = Table.eraseLeast m.names.find id :=
      Table.find_eraseValue m.names id
    simp only [apply, maps, Maps.apply, hctx, hname]

theorem maps_applyAll (ops : List (Op C)) : (applyAll ops).maps = Maps.applyAll ops := by
  have hfold (m : CtxMgr C) : (ops.foldl (fun m op ↦ (m.apply op).1) m).maps =
      ops.foldl (fun r op ↦ (r.apply op).1) m.maps := by
    induction ops generalizing m with
    | nil => rfl
    | cons op ops ih =>
      rw [List.foldl_cons, List.foldl_cons, ih, ← maps_apply]
  exact hfold empty

/-! ## The laws -/

/-- What the operations owe their callers in the state `m`: the names are in strict order; a lookup
returns what a scan finds, or 0; registering throws exactly when the name is there, and then changes
nothing, and otherwise adds one binding; deleting touches no other id. -/
structure Laws (m : CtxMgr C) : Prop where
  sorted : m.names.entries.Pairwise fun e e' ↦ e.1 < e'.1
  find : ∀ name,
    m.findName name = ((m.names.entries.find? fun e ↦ e.1 = name).map Prod.snd).getD 0
  throws : ∀ name id, (m.apply (.registerName name id)).2.isSome ↔
    ∃ w, (name, w) ∈ m.names.entries
  unchanged : ∀ name id, (m.apply (.registerName name id)).2.isSome →
    (m.apply (.registerName name id)).1 = m
  adds : ∀ name id, (m.apply (.registerName name id)).2 = none →
    (m.apply (.registerName name id)).1.ctxs = m.ctxs ∧
      (m.apply (.registerName name id)).1.names.entries.Perm ((name, id) :: m.names.entries)
  del_names : ∀ id name id', id' ≠ id →
    ((name, id') ∈ (m.apply (.delCtx id)).1.names.entries ↔ (name, id') ∈ m.names.entries)
  del_ctxs : ∀ id id', id' ≠ id → (m.apply (.delCtx id)).1.getCtx id' = m.getCtx id'

theorem apply_registerName (m : CtxMgr C) (name : Bytes) (id : UInt32) :
    (∃ hnew, m.names.find name = none ∧ m.apply (.registerName name id) =
      ({ m with names := m.names.insert name id hnew }, none)) ∨
    ∃ w, m.names.find name = some w ∧
      m.apply (.registerName name id) = (m, some "name already exists") := by
  rcases m.registerName_eq name id with ⟨hnew, hfind, hreg⟩ | ⟨w, hfind, hreg⟩
  · exact Or.inl ⟨hnew, hfind, by rw [apply, hreg]⟩
  · exact Or.inr ⟨w, hfind, by rw [apply, hreg]⟩

/-- The laws hold of every registry: the proof that the names are in order is part of it. -/
theorem laws (m : CtxMgr C) : m.Laws where
  sorted := m.names.sorted
  find name := by rw [findName, Table.find_eq_scan]
  throws name id := by
    rcases m.apply_registerName name id with ⟨hnew, hfind, happly⟩ | ⟨w, hfind, happly⟩
    · rw [happly]
      constructor
      · exact fun h ↦ absurd h (by simp)
      · rintro ⟨w, hmem⟩
        rw [Table.find_eq_some_iff.mpr hmem] at hfind
        exact absurd hfind (by simp)
    · rw [happly]
      exact ⟨fun _ ↦ ⟨w, Table.find_eq_some_iff.mp hfind⟩, fun _ ↦ rfl⟩
  unchanged name id hthrows := by
    rcases m.apply_registerName name id with ⟨hnew, -, happly⟩ | ⟨w, -, happly⟩
    · rw [happly] at hthrows
      exact absurd hthrows (by simp)
    · rw [happly]
  adds name id hreturns := by
    rcases m.apply_registerName name id with ⟨hnew, -, happly⟩ | ⟨w, -, happly⟩
    · rw [happly]
      exact ⟨rfl, m.names.entries_insert_perm name id hnew⟩
    · rw [happly] at hreturns
      exact absurd hreturns (by simp)
  del_names id name id' hne := mem_eraseValue_of_ne hne
  del_ctxs id id' hne := by
    rw [apply, getCtx_delCtx, if_neg hne]

/-- Every sequence of operations on an empty registry does what it does on the maps, and leaves a
registry that keeps the laws. -/
theorem applyAll_refines (ops : List (Op C)) :
    (applyAll ops).maps = Maps.applyAll ops ∧ (applyAll ops).Laws :=
  ⟨maps_applyAll ops, laws _⟩

end Cqy.CtxMgr
