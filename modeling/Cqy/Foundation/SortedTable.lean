import Mathlib

/-!
# Tables kept as sorted vectors

A table is a vector of pairs in strictly increasing key order.  Lookups bisect; insertion appends
and sorts the whole vector; deletion searches by value and removes the first hit.  Bisection says
nothing about a vector that is out of order, so the laws of lookup are stated for `Sorted` vectors,
and a `Table` carries the proof that its vector is sorted.
-/

namespace Foundation.SortedTable

variable {κ ν : Type*} [LinearOrder κ]

/-- Strictly increasing keys. -/
def Sorted (es : List (κ × ν)) : Prop := es.Pairwise fun e e' ↦ e.1 < e'.1

/-- The comparison that bisection makes at a position; past the end it is false. -/
def keyBelow (es : List (κ × ν)) (k : κ) (i : ℕ) : Bool :=
  match es[i]? with
  | some e => decide (e.1 < k)
  | none => false

/-- The loop of a bisection over the `len` positions from `first` on. -/
def lowerBoundFrom (es : List (κ × ν)) (k : κ) : (fuel first len : ℕ) → ℕ
  | 0, first, _ => first
  | fuel + 1, first, len =>
    if len = 0 then first
    else
      let half := len / 2
      if keyBelow es k (first + half) then
        lowerBoundFrom es k fuel (first + half + 1) (len - half - 1)
      else lowerBoundFrom es k fuel first half

/-- The first position whose key is not below `k`. -/
def lowerBound (es : List (κ × ν)) (k : κ) : ℕ := lowerBoundFrom es k es.length 0 es.length

/-- The value of the entry at the lower bound, when its key is `k`. -/
def find (es : List (κ × ν)) (k : κ) : Option ν :=
  match es[lowerBound es k]? with
  | some e => if e.1 = k then some e.2 else none
  | none => none

/-- Whether the entry at the lower bound is not above `k`. -/
def binarySearch (es : List (κ × ν)) (k : κ) : Bool :=
  match es[lowerBound es k]? with
  | some e => !decide (k < e.1)
  | none => false

def keyLe (e e' : κ × ν) : Prop := e.1 ≤ e'.1

instance : DecidableRel (@keyLe κ ν _) :=
  fun e e' ↦ inferInstanceAs (Decidable (e.1 ≤ e'.1))

/-- Append and sort. -/
def insert (es : List (κ × ν)) (k : κ) (v : ν) : List (κ × ν) :=
  (es ++ [(k, v)]).insertionSort keyLe

/-- Remove the first entry with the value `v`. -/
def eraseValue [DecidableEq ν] (es : List (κ × ν)) (v : ν) : List (κ × ν) :=
  es.eraseP fun e ↦ e.2 = v

/-! ## Bisection -/

/-- What bisection keeps: keys before the window are below `k`, keys after it are not. -/
def Window (es : List (κ × ν)) (k : κ) (first last : ℕ) : Prop :=
  (∀ i e, i < first → es[i]? = some e → e.1 < k) ∧
    ∀ i e, last ≤ i → es[i]? = some e → ¬ e.1 < k

theorem sorted_getElem? {es : List (κ × ν)} (h : Sorted es) {i j : ℕ} {e e' : κ × ν} (hij : i < j)
    (hi : es[i]? = some e) (hj : es[j]? = some e') : e.1 < e'.1 := by
  obtain ⟨hlti, rfl⟩ := List.getElem?_eq_some_iff.mp hi
  obtain ⟨hltj, rfl⟩ := List.getElem?_eq_some_iff.mp hj
  exact List.pairwise_iff_getElem.mp h i j hlti hltj hij

theorem lowerBoundFrom_spec {es : List (κ × ν)} (h : Sorted es) (k : κ) :
    ∀ fuel first len, len ≤ fuel → first + len ≤ es.length → Window es k first (first + len) →
      Window es k (lowerBoundFrom es k fuel first len) (lowerBoundFrom es k fuel first len) ∧
        lowerBoundFrom es k fuel first len ≤ es.length := by
  intro fuel
  induction fuel with
  | zero =>
    intro first len hfuel hlen hwin
    obtain rfl : len = 0 := by omega
    exact ⟨hwin, hlen⟩
  | succ fuel ih =>
    intro first len hfuel hlen hwin
    by_cases hzero : len = 0
    · subst hzero
      rw [lowerBoundFrom, if_pos rfl]
      exact ⟨hwin, hlen⟩
    · obtain ⟨mid, hmid⟩ : ∃ mid, es[first + len / 2]? = some mid :=
        ⟨_, List.getElem?_eq_getElem (by omega)⟩
      have hkey : keyBelow es k (first + len / 2) = decide (mid.1 < k) := by rw [keyBelow, hmid]
      rw [lowerBoundFrom, if_neg hzero]
      dsimp only
      rw [hkey]
      by_cases hbelow : mid.1 < k
      · -- the middle key is below `k`, and so is every key before it
        rw [if_pos (decide_eq_true hbelow)]
        refine ih _ _ (by omega) (by omega) ⟨fun i e hi hget ↦ ?_, fun i e hi hget ↦ ?_⟩
        · rcases Nat.lt_or_eq_of_le (Nat.lt_succ_iff.mp hi) with hlt | rfl
          · exact (sorted_getElem? h hlt hget hmid).trans hbelow
          · obtain rfl := Option.some.inj (hget.symm.trans hmid)
            exact hbelow
        · exact hwin.2 i e (by omega) hget
      · -- the middle key is not below `k`, and no key after it is
        rw [if_neg (by simpa using hbelow)]
        refine ih _ _ (by omega) (by omega) ⟨hwin.1, fun i e hi hget ↦ ?_⟩
        rcases Nat.lt_or_eq_of_le hi with hlt | rfl
        · exact fun hek ↦ hbelow ((sorted_getElem? h hlt hmid hget).trans hek)
        · obtain rfl := Option.some.inj (hget.symm.trans hmid)
          exact hbelow

theorem lowerBound_window {es : List (κ × ν)} (h : Sorted es) (k : κ) :
    Window es k (lowerBound es k) (lowerBound es k) := by
  refine (lowerBoundFrom_spec h k es.length 0 es.length le_rfl (by omega) ⟨?_, ?_⟩).1
  · intro i e hi
    omega
  · intro i e hi hget
    rw [List.getElem?_eq_none (by omega)] at hget
    exact absurd hget (by simp)

/-- An entry stands at the lower bound of its own key. -/
theorem getElem?_lowerBound_of_mem {es : List (κ × ν)} (h : Sorted es) {k : κ} {v : ν}
    (hmem : (k, v) ∈ es) : es[lowerBound es k]? = some (k, v) := by
  obtain ⟨i, hi⟩ := List.mem_iff_getElem?.mp hmem
  obtain ⟨hbefore, hafter⟩ := lowerBound_window h k
  have hge : ¬ i < lowerBound es k := fun hlt ↦ lt_irrefl k (hbefore i _ hlt hi)
  have hle : ¬ lowerBound es k < i := by
    intro hlt
    have hlen := (List.getElem?_eq_some_iff.mp hi).1
    obtain ⟨e, he⟩ : ∃ e, es[lowerBound es k]? = some e := ⟨_, List.getElem?_eq_getElem (by omega)⟩
    exact hafter _ e le_rfl he (sorted_getElem? h hlt he hi)
  obtain rfl : i = lowerBound es k := by omega
  exact hi

/-- Bisection finds exactly the entries of a sorted table. -/
theorem find_eq_some_iff {es : List (κ × ν)} (h : Sorted es) {k : κ} {v : ν} :
    find es k = some v ↔ (k, v) ∈ es := by
  constructor
  · intro hfind
    rw [find] at hfind
    split at hfind
    · rename_i e he
      split_ifs at hfind with hk
      obtain rfl := Option.some.inj hfind
      exact hk ▸ List.mem_of_getElem? he
    · exact absurd hfind (by simp)
  · intro hmem
    rw [find, getElem?_lowerBound_of_mem h hmem]
    simp

theorem binarySearch_eq_true_iff {es : List (κ × ν)} (h : Sorted es) {k : κ} :
    binarySearch es k = true ↔ ∃ v, (k, v) ∈ es := by
  constructor
  · intro hsearch
    rw [binarySearch] at hsearch
    split at hsearch
    · rename_i e he
      have hge : ¬ e.1 < k := (lowerBound_window h k).2 _ e le_rfl he
      have hle : ¬ k < e.1 := by simpa using hsearch
      obtain rfl := le_antisymm (not_lt.mp hge) (not_lt.mp hle)
      exact ⟨e.2, List.mem_of_getElem? he⟩
    · exact absurd hsearch (by simp)
  · rintro ⟨v, hmem⟩
    rw [binarySearch, getElem?_lowerBound_of_mem h hmem]
    simp

/-! ## Changing a table -/

theorem mem_insert {es : List (κ × ν)} {k : κ} {v : ν} {e : κ × ν} :
    e ∈ insert es k v ↔ e ∈ es ∨ e = (k, v) := by
  rw [insert, List.mem_insertionSort, List.mem_append, List.mem_singleton]

/-- Inserting a new key keeps the table sorted: weakly by the sort, strictly by the keys being
distinct. -/
theorem sorted_insert {es : List (κ × ν)} (h : Sorted es) {k : κ} {v : ν}
    (hnew : ∀ w, (k, w) ∉ es) : Sorted (insert es k v) := by
  have hkeys : ((insert es k v).map Prod.fst).Nodup := by
    have hperm : (insert es k v).Perm (es ++ [(k, v)]) := List.perm_insertionSort keyLe _
    rw [(hperm.map Prod.fst).nodup_iff, List.map_append, List.nodup_append]
    refine ⟨?_, by simp, ?_⟩
    · exact (List.pairwise_map.mpr (h.imp fun hlt ↦ hlt)).imp fun hlt ↦ hlt.ne
    · intro a ha b hb
      obtain ⟨e, he, rfl⟩ := List.mem_map.mp ha
      obtain rfl := List.mem_singleton.mp hb
      rintro rfl
      exact hnew e.2 he
  have hle : (insert es k v).Pairwise keyLe := by
    have : Std.Total (@keyLe κ ν _) := ⟨fun e e' ↦ le_total e.1 e'.1⟩
    have : IsTrans (κ × ν) keyLe := ⟨fun _ _ _ ↦ le_trans⟩
    exact List.pairwise_insertionSort keyLe _
  exact (hle.and (List.pairwise_map.mp hkeys)).imp fun h ↦ lt_of_le_of_ne h.1 h.2

theorem sorted_eraseValue [DecidableEq ν] {es : List (κ × ν)} (h : Sorted es) (v : ν) :
    Sorted (eraseValue es v) :=
  List.Pairwise.sublist List.eraseP_sublist h

/-- In a sorted table the entry that is removed is the one with the least key among those with the
value. -/
theorem mem_eraseValue_iff [DecidableEq ν] {es : List (κ × ν)} (h : Sorted es) {k : κ} {v w : ν} :
    (k, w) ∈ eraseValue es v ↔ (k, w) ∈ es ∧ ¬ (w = v ∧ ∀ k' < k, (k', v) ∉ es) := by
  induction es with
  | nil => simp [eraseValue]
  | cons e es ih =>
    obtain ⟨hhead, htail⟩ := List.pairwise_cons.mp h
    by_cases hv : e.2 = v
    · -- the head goes: it is below every other key
      have herase : eraseValue (e :: es) v = es := by simp [eraseValue, hv]
      rw [herase]
      constructor
      · intro hmem
        refine ⟨List.mem_cons_of_mem _ hmem, fun hleast ↦ ?_⟩
        refine hleast.2 e.1 (hhead _ hmem) (List.mem_cons.mpr (Or.inl ?_))
        rw [← hv]
      · rintro ⟨hmem, hnot⟩
        rcases List.mem_cons.mp hmem with rfl | hmem
        · refine absurd ⟨hv, fun k' hlt hmem ↦ ?_⟩ hnot
          rcases List.mem_cons.mp hmem with heq | hmem
          · exact hlt.ne (congrArg Prod.fst heq)
          · exact lt_asymm hlt (hhead _ hmem)
        · exact hmem
    · have herase : eraseValue (e :: es) v = e :: eraseValue es v := by
        simp [eraseValue, hv]
      have hother (k' : κ) : (k', v) ∉ e :: es ↔ (k', v) ∉ es := by
        rw [List.mem_cons, not_or]
        exact and_iff_right fun heq ↦ hv (congrArg Prod.snd heq).symm
      rw [herase]
      simp only [List.mem_cons, ih htail]
      constructor
      · rintro (rfl | ⟨hmem, hnot⟩)
        · exact ⟨Or.inl rfl, fun hleast ↦ hv hleast.1⟩
        · refine ⟨Or.inr hmem, fun hleast ↦ hnot ⟨hleast.1, fun k' hlt ↦ ?_⟩⟩
          exact (hother k').mp (List.mem_cons.not.mpr (hleast.2 k' hlt))
      · rintro ⟨rfl | hmem, hnot⟩
        · exact Or.inl rfl
        · refine Or.inr ⟨hmem, fun hleast ↦ hnot ⟨hleast.1, fun k' hlt ↦ ?_⟩⟩
          exact List.mem_cons.not.mp ((hother k').mpr (hleast.2 k' hlt))

omit [LinearOrder κ] in
/-- Entries with another value survive. -/
theorem mem_eraseValue_of_ne [DecidableEq ν] {es : List (κ × ν)} {v : ν} {e : κ × ν}
    (hne : e.2 ≠ v) : e ∈ eraseValue es v ↔ e ∈ es :=
  List.mem_eraseP_of_neg (by simpa using hne)

end Foundation.SortedTable

namespace Foundation

open SortedTable

/-- A vector of entries together with the proof that bisection may be trusted on it. -/
structure Table (κ ν : Type*) [LinearOrder κ] where
  entries : List (κ × ν)
  sorted : Sorted entries

namespace Table

variable {κ ν : Type*} [LinearOrder κ]

def empty : Table κ ν := ⟨[], List.Pairwise.nil⟩

def find (t : Table κ ν) (k : κ) : Option ν := SortedTable.find t.entries k

def binarySearch (t : Table κ ν) (k : κ) : Bool := SortedTable.binarySearch t.entries k

theorem find_eq_some_iff {t : Table κ ν} {k : κ} {v : ν} :
    t.find k = some v ↔ (k, v) ∈ t.entries :=
  SortedTable.find_eq_some_iff t.sorted

theorem binarySearch_eq_false_iff {t : Table κ ν} {k : κ} :
    t.binarySearch k = false ↔ ∀ v, (k, v) ∉ t.entries := by
  rw [← Bool.not_eq_true, binarySearch, binarySearch_eq_true_iff t.sorted, not_exists]

/-- A key that bisection does not see may be added. -/
def insert (t : Table κ ν) (k : κ) (v : ν) (hnew : t.binarySearch k = false) : Table κ ν :=
  ⟨SortedTable.insert t.entries k v, sorted_insert t.sorted (binarySearch_eq_false_iff.mp hnew)⟩

def eraseValue [DecidableEq ν] (t : Table κ ν) (v : ν) : Table κ ν :=
  ⟨SortedTable.eraseValue t.entries v, sorted_eraseValue t.sorted v⟩

theorem find_insert (t : Table κ ν) (k : κ) (v : ν) (hnew : t.binarySearch k = false) (k' : κ) :
    (t.insert k v hnew).find k' = if k' = k then some v else t.find k' := by
  ext w
  rw [find_eq_some_iff, insert, mem_insert]
  split_ifs with hk
  · subst hk
    simp [binarySearch_eq_false_iff.mp hnew w, eq_comm]
  · simp [find_eq_some_iff, hk]

/-- Bisection agrees with a scan from the front. -/
theorem find_eq_scan [DecidableEq κ] (t : Table κ ν) (k : κ) :
    t.find k = (t.entries.find? fun e ↦ e.1 = k).map Prod.snd := by
  cases hscan : t.entries.find? fun e ↦ e.1 = k with
  | none =>
    rw [Option.map_none, Option.eq_none_iff_forall_ne_some]
    intro v hfind
    have hne := List.find?_eq_none.mp hscan _ (find_eq_some_iff.mp hfind)
    exact hne (decide_eq_true rfl)
  | some e =>
    have hkey : e.1 = k := by simpa using List.find?_some hscan
    rw [Option.map_some, find_eq_some_iff, ← hkey]
    exact List.mem_of_find?_eq_some hscan

/-- A table is finite. -/
theorem exists_find_eq_none [DecidableEq κ] [Infinite κ] (t : Table κ ν) :
    ∃ k, t.find k = none := by
  obtain ⟨k, hk⟩ := Infinite.exists_notMem_finset (t.entries.map Prod.fst).toFinset
  refine ⟨k, Option.eq_none_iff_forall_ne_some.mpr fun v hfind ↦ hk ?_⟩
  rw [List.mem_toFinset]
  exact List.mem_map_of_mem (find_eq_some_iff.mp hfind)

theorem entries_insert_perm (t : Table κ ν) (k : κ) (v : ν) (hnew : t.binarySearch k = false) :
    (t.insert k v hnew).entries.Perm ((k, v) :: t.entries) :=
  (List.perm_insertionSort keyLe _).trans (List.perm_append_singleton _ _)

open Classical in
/-- A finite map without the least key that has the value `v`. -/
noncomputable def eraseLeast (f : κ → Option ν) (v : ν) : κ → Option ν :=
  fun k ↦ if f k = some v ∧ ∀ k' < k, f k' ≠ some v then none else f k

/-- Removing by value, as an operation on the finite map that the table stands for. -/
theorem find_eraseValue [DecidableEq ν] (t : Table κ ν) (v : ν) :
    (t.eraseValue v).find = eraseLeast t.find v := by
  funext k
  ext w
  rw [find_eq_some_iff, eraseValue, mem_eraseValue_iff t.sorted, eraseLeast]
  simp only [← find_eq_some_iff]
  split_ifs with hleast
  · constructor
    · rintro ⟨hmem, hnot⟩
      exact absurd ⟨Option.some.inj (hmem.symm.trans hleast.1), hleast.2⟩ hnot
    · exact fun h ↦ absurd h (by simp)
  · refine and_iff_left_of_imp fun hmem ↦ ?_
    rintro ⟨rfl, hnone⟩
    exact hleast ⟨hmem, hnone⟩

end Table

end Foundation
