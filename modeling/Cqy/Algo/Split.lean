import Cqy.Foundation.Bytes

/-!
# Searching and splitting strings

`algo::split` cuts a string at every occurrence of a separator, `algo::split_one` at the first.
The first is a range view, which skips the separator it found; the second works with offsets and
skips one byte, whatever the length of the separator.
-/

namespace Cqy.Algo

open Foundation

/-- `std::string_view::find`: the first position at which `div` stands, `npos` as `none`. -/
def find : Bytes → Bytes → Option ℕ
  | [], div => if div.isPrefixOf [] then some 0 else none
  | b :: s, div => if div.isPrefixOf (b :: s) then some 0 else (find s div).map (· + 1)

/-- `algo::split_one`.  When both strings are empty, the `substr` of the source throws, where this
gives a pair of empty strings; the callers pass a separator of one byte. -/
def splitOne (s div : Bytes) : Bytes × Bytes :=
  match find s div with
  | none => (s, [])
  | some pos => (s.take pos, s.drop (pos + 1))

/-- `std::ranges::split_view::find_next` on the bytes from the current one on: where the next
separator begins and ends, the end of the bytes twice when there is none.  An empty separator is
taken one byte further on. -/
def findNext (s div : Bytes) : ℕ × ℕ :=
  match find s div with
  | none => (s.length, s.length)
  | some pos =>
    if pos ≠ s.length ∧ div = [] then (pos + 1, pos + 1) else (pos, pos + div.length)

theorem findNext_snd_pos {s div : Bytes} (h : (findNext s div).1 ≠ s.length) :
    0 < (findNext s div).2 := by
  unfold findNext at h ⊢
  split at h
  · exact absurd rfl h
  · split_ifs at h ⊢ with hempty
    · exact Nat.succ_pos _
    · have hdiv : div ≠ [] := fun hdiv ↦ hempty ⟨h, hdiv⟩
      exact Nat.add_pos_right _ (List.length_pos_iff.mpr hdiv)

/-- `algo::split`, the loop over `std::views::split`.  A separator at the very end is followed by
one more piece, which is empty; an empty string has no pieces. -/
def split (s div : Bytes) : List Bytes :=
  if s = [] then []
  else
    let next := findNext s div
    if _ : next.1 = s.length then [s.take next.1]
    else if next.2 = s.length then [s.take next.1, []]
    else s.take next.1 :: split (s.drop next.2) div
termination_by s.length
decreasing_by
  have hpos : 0 < (findNext s div).2 := findNext_snd_pos ‹_›
  have hs : 0 < s.length := List.length_pos_iff.mpr ‹s ≠ []›
  rw [List.length_drop]
  omega

/-! ## Where a separator is found -/

theorem find_eq_none_iff {s div : Bytes} : find s div = none ↔ ¬ div <:+: s := by
  induction s with
  | nil => simp [find]
  | cons b s ih =>
    rw [List.infix_cons_iff, not_or, ← ih]
    by_cases hprefix : div <+: b :: s
    · simp [find, hprefix]
    · simp [find, hprefix]

theorem eq_append_of_find {s div : Bytes} {pos : ℕ} (h : find s div = some pos) :
    s = s.take pos ++ div ++ s.drop (pos + div.length) := by
  induction s generalizing pos with
  | nil =>
    have hdiv : div = [] ∧ 0 = pos := by simpa [find] using h
    simp [hdiv.1]
  | cons b s ih =>
    by_cases hprefix : div <+: b :: s
    · have hpos : 0 = pos := by simpa [find, hprefix] using h
      obtain ⟨t, ht⟩ := hprefix
      rw [← hpos, ← ht]
      simp
    · obtain ⟨q, hq, rfl⟩ : ∃ q, find s div = some q ∧ q + 1 = pos := by
        simpa [find, hprefix] using h
      have hs := ih hq
      rw [Nat.add_right_comm, List.take_succ_cons, List.drop_succ_cons, List.cons_append,
        List.cons_append, ← hs]

theorem not_infix_take_of_find {s div : Bytes} {pos : ℕ} (hdiv : div ≠ [])
    (h : find s div = some pos) : ¬ div <:+: s.take pos := by
  induction s generalizing pos with
  | nil => simpa using hdiv
  | cons b s ih =>
    by_cases hprefix : div <+: b :: s
    · have hpos : 0 = pos := by simpa [find, hprefix] using h
      simpa [← hpos] using hdiv
    · obtain ⟨q, hq, rfl⟩ : ∃ q, find s div = some q ∧ q + 1 = pos := by
        simpa [find, hprefix] using h
      rw [List.take_succ_cons, List.infix_cons_iff, not_or]
      refine ⟨fun hp ↦ hprefix (hp.trans ?_), ih hq⟩
      exact List.prefix_cons_inj b |>.mpr (List.take_prefix q s)

theorem find_add_length_le {s div : Bytes} {pos : ℕ} (h : find s div = some pos) :
    pos + div.length ≤ s.length := by
  induction s generalizing pos with
  | nil =>
    have hdiv : div = [] ∧ 0 = pos := by simpa [find] using h
    simp [hdiv.1, ← hdiv.2]
  | cons b s ih =>
    by_cases hprefix : div <+: b :: s
    · have hpos : 0 = pos := by simpa [find, hprefix] using h
      rw [← hpos, Nat.zero_add]
      exact hprefix.length_le
    · obtain ⟨q, hq, rfl⟩ : ∃ q, find s div = some q ∧ q + 1 = pos := by
        simpa [find, hprefix] using h
      have hle : q + div.length ≤ s.length := ih hq
      rw [List.length_cons]
      omega

/-- A byte is found at its first occurrence. -/
theorem find_append_of_notMem {s : Bytes} {b : UInt8} (hs : b ∉ s) (t : Bytes) :
    find (s ++ b :: t) [b] = some s.length := by
  induction s with
  | nil => simp [find]
  | cons c s ih =>
    rw [List.mem_cons, not_or] at hs
    rw [List.cons_append, find, if_neg (by simpa using hs.1), ih hs.2, Option.map_some]
    rfl

/-! ## The pieces -/

/-- The pieces from a separator on: there is one even when the bytes end with the separator. -/
def splitAfter (s div : Bytes) : List Bytes :=
  if s = [] then [[]] else split s div

section Pieces

variable {s div : Bytes} {pos : ℕ}

theorem splitAfter_of_find_none (h : find s div = none) : splitAfter s div = [s] := by
  have hnext : findNext s div = (s.length, s.length) := by simp [findNext, h]
  unfold splitAfter split
  split_ifs with hs
  · rw [hs]
  · rw [hnext, dif_pos rfl, List.take_length]

theorem splitAfter_of_find_some (hdiv : div ≠ []) (h : find s div = some pos) :
    splitAfter s div = s.take pos :: splitAfter (s.drop (pos + div.length)) div := by
  have hle : pos + div.length ≤ s.length := find_add_length_le h
  have hlen : 0 < div.length := List.length_pos_iff.mpr hdiv
  have hs : s ≠ [] := List.length_pos_iff.mp (by omega)
  have hnext : findNext s div = (pos, pos + div.length) := by simp [findNext, h, hdiv]
  have hend : s.drop (pos + div.length) = [] ↔ pos + div.length = s.length := by
    rw [List.drop_eq_nil_iff]
    omega
  rw [splitAfter, if_neg hs, split, if_neg hs, hnext, dif_neg (by simp only; omega), splitAfter]
  simp only [hend]
  split_ifs <;> rfl

theorem splitAfter_ne_nil (s div : Bytes) : splitAfter s div ≠ [] := by
  unfold splitAfter split
  simp only
  split_ifs <;> simp

/-- Cutting at the first separator, then at the first one of what is left, until none is left. -/
theorem splitAfter_induction {motive : Bytes → Prop} (hdiv : div ≠ [])
    (last : ∀ s, find s div = none → motive s)
    (cut : ∀ s pos, find s div = some pos → motive (s.drop (pos + div.length)) → motive s)
    (s : Bytes) : motive s := by
  induction hn : s.length using Nat.strong_induction_on generalizing s with
  | h n ih =>
    cases h : find s div with
    | none => exact last s h
    | some pos =>
      have hle : pos + div.length ≤ s.length := find_add_length_le h
      have hlen : 0 < div.length := List.length_pos_iff.mpr hdiv
      apply cut s pos h
      apply ih (s.drop (pos + div.length)).length _ _ rfl
      rw [List.length_drop]
      omega

theorem intercalate_splitAfter (hdiv : div ≠ []) (s : Bytes) :
    div.intercalate (splitAfter s div) = s := by
  induction s using splitAfter_induction hdiv with
  | last s h => rw [splitAfter_of_find_none h, List.intercalate_singleton]
  | cut s pos h ih =>
    rw [splitAfter_of_find_some hdiv h, List.intercalate_cons_of_ne_nil (splitAfter_ne_nil _ _), ih]
    exact (eq_append_of_find h).symm

theorem not_infix_of_mem_splitAfter (hdiv : div ≠ []) (s : Bytes) :
    ∀ piece ∈ splitAfter s div, ¬ div <:+: piece := by
  induction s using splitAfter_induction hdiv with
  | last s h =>
    rw [splitAfter_of_find_none h, List.forall_mem_singleton]
    exact find_eq_none_iff.mp h
  | cut s pos h ih =>
    rw [splitAfter_of_find_some hdiv h, List.forall_mem_cons]
    exact ⟨not_infix_take_of_find hdiv h, ih⟩

/-- The pieces joined with the separator are the string. -/
theorem intercalate_split (hdiv : div ≠ []) (s : Bytes) : div.intercalate (split s div) = s := by
  by_cases hs : s = []
  · rw [hs, split, if_pos rfl, List.intercalate_nil]
  · calc div.intercalate (split s div)
        = div.intercalate (splitAfter s div) := by rw [splitAfter, if_neg hs]
      _ = s := intercalate_splitAfter hdiv s

/-- No piece contains the separator. -/
theorem not_infix_of_mem_split (hdiv : div ≠ []) (s : Bytes) :
    ∀ piece ∈ split s div, ¬ div <:+: piece := by
  by_cases hs : s = []
  · rw [hs, split, if_pos rfl]
    simp
  · have hpieces := not_infix_of_mem_splitAfter hdiv s
    rwa [splitAfter, if_neg hs] at hpieces

/-- Where the separator occurs, the first piece ends before it and the others are what stands
behind it. -/
theorem split_of_find_some (hdiv : div ≠ []) (h : find s div = some pos) :
    split s div = s.take pos :: splitAfter (s.drop (pos + div.length)) div := by
  have hle : pos + div.length ≤ s.length := find_add_length_le h
  have hlen : 0 < div.length := List.length_pos_iff.mpr hdiv
  have hs : s ≠ [] := List.length_pos_iff.mp (by omega)
  rw [← splitAfter_of_find_some hdiv h, splitAfter, if_neg hs]

end Pieces

/-- Pieces that do not contain the separator byte are found again. -/
theorem splitAfter_intercalate {b : UInt8} {pieces : List Bytes} (hne : pieces ≠ [])
    (hpieces : ∀ piece ∈ pieces, b ∉ piece) :
    splitAfter ([b].intercalate pieces) [b] = pieces := by
  induction pieces with
  | nil => exact absurd rfl hne
  | cons piece pieces ih =>
    rw [List.forall_mem_cons] at hpieces
    by_cases hlast : pieces = []
    · rw [hlast, List.intercalate_singleton]
      apply splitAfter_of_find_none
      rw [find_eq_none_iff, List.singleton_infix_iff]
      exact hpieces.1
    · have hfind := find_append_of_notMem hpieces.1 ([b].intercalate pieces)
      rw [List.intercalate_cons_of_ne_nil hlast, List.append_assoc, List.singleton_append,
        splitAfter_of_find_some (by simp) hfind]
      simp [ih hlast hpieces.2]

theorem split_eq_iff {b : UInt8} {s : Bytes} {pieces : List Bytes} (hlength : 1 < pieces.length) :
    split s [b] = pieces ↔ s = [b].intercalate pieces ∧ ∀ piece ∈ pieces, b ∉ piece := by
  have hne : pieces ≠ [] := List.length_pos_iff.mp (by omega)
  constructor
  · rintro rfl
    refine ⟨(intercalate_split (by simp) s).symm, fun piece hpiece hb ↦ ?_⟩
    have hnot : ¬ [b] <:+: piece := not_infix_of_mem_split (by simp) s piece hpiece
    exact hnot ((List.singleton_infix_iff b piece).mpr hb)
  · rintro ⟨rfl, hpieces⟩
    have h := splitAfter_intercalate hne hpieces
    rw [splitAfter] at h
    split_ifs at h with hempty
    · exact absurd (congrArg List.length h) (by simp; omega)
    · exact h

/-! ## The two splitters -/

theorem splitOne_append_of_notMem {s : Bytes} {b : UInt8} (hs : b ∉ s) (t : Bytes) :
    splitOne (s ++ b :: t) [b] = (s, t) := by
  rw [splitOne, find_append_of_notMem hs]
  simp

theorem splitOne_eq_iff {b : UInt8} {s first rest : Bytes} (hrest : rest ≠ []) :
    splitOne s [b] = (first, rest) ↔ s = first ++ b :: rest ∧ b ∉ first := by
  constructor
  · intro h
    rw [splitOne] at h
    split at h
    · exact absurd (Prod.mk.inj h).2.symm hrest
    · rename_i pos hfind
      obtain ⟨rfl, rfl⟩ := Prod.mk.inj h
      refine ⟨by simpa using eq_append_of_find hfind, fun hb ↦ ?_⟩
      exact not_infix_take_of_find (by simp) hfind ((List.singleton_infix_iff b _).mpr hb)
  · rintro ⟨rfl, hfirst⟩
    exact splitOne_append_of_notMem hfirst rest

/-- `split` loses nothing, and `split_one` cuts the string where `split` first does. -/
def SplittersAgree (s div : Bytes) : Prop :=
  div.intercalate (split s div) = s ∧
  (∀ piece ∈ split s div, ¬ div <:+: piece) ∧
  (¬ div <:+: s → splitOne s div = (s, [])) ∧
  (div <:+: s → ∃ rest, split s div = (splitOne s div).1 :: rest ∧
    (splitOne s div).2 = div.intercalate rest ∧
    s = (splitOne s div).1 ++ div ++ (splitOne s div).2)

/-- `split_one` skips one byte behind the position it finds, so the splitters agree where there is
nothing to skip and for separators of one byte, and nowhere else. -/
theorem splittersAgree_iff {s div : Bytes} (hdiv : div ≠ []) :
    SplittersAgree s div ↔ ¬ div <:+: s ∨ div.length = 1 := by
  have hjoin := intercalate_split hdiv s
  have hpieces := not_infix_of_mem_split hdiv s
  cases h : find s div with
  | none =>
    have hnot : ¬ div <:+: s := find_eq_none_iff.mp h
    have hone : splitOne s div = (s, []) := by rw [splitOne, h]
    exact ⟨fun _ ↦ .inl hnot, fun _ ↦ ⟨hjoin, hpieces, fun _ ↦ hone, fun hin ↦ absurd hin hnot⟩⟩
  | some pos =>
    have hin : div <:+: s := by
      by_contra hnot
      rw [find_eq_none_iff.mpr hnot] at h
      exact Option.some_ne_none pos h.symm
    have hle : pos + div.length ≤ s.length := find_add_length_le h
    have hone : splitOne s div = (s.take pos, s.drop (pos + 1)) := by rw [splitOne, h]
    constructor
    · intro hagree
      obtain ⟨-, -, -, hcut⟩ := hagree
      obtain ⟨rest, -, -, hs⟩ := hcut hin
      have hlen := congrArg List.length hs
      rw [hone] at hlen
      simp only [List.length_append, List.length_take, List.length_drop] at hlen
      have hpos : 0 < div.length := List.length_pos_iff.mpr hdiv
      right
      omega
    · rintro (hnot | hlen)
      · exact absurd hin hnot
      · refine ⟨hjoin, hpieces, fun hnot ↦ absurd hin hnot, fun _ ↦ ?_⟩
        rw [hone, ← hlen]
        exact ⟨_, split_of_find_some hdiv h, (intercalate_splitAfter hdiv _).symm,
          eq_append_of_find h⟩

theorem splittersAgree_colon : SplittersAgree [97, 58, 98] [58] :=
  (splittersAgree_iff (by decide)).mpr (.inr rfl)

/-- The address `a--b` and the separator `--`. -/
theorem not_splittersAgree_dashes : ¬ ∀ s div : Bytes, div ≠ [] → SplittersAgree s div := by
  intro hagree
  obtain ⟨-, -, -, hcut⟩ := hagree [97, 45, 45, 98] [45, 45] (by decide)
  obtain ⟨rest, -, -, hs⟩ := hcut ⟨[97], [98], rfl⟩
  exact absurd hs (by decide)

end Cqy.Algo
