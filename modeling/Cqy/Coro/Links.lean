import Cqy.Coro.Generator

/-!
# The frames of a running generator

While a generator runs, its live frames are a chain: the coroutine that executes, then the ones that
wait for it, up to the outermost.  Entering a nested generator, leaving one and destroying the whole
chain keep the links of the remaining frames.
-/

namespace Cqy.Coro

open Foundation

variable {σ V E : Type}

/-- The members of a frame that tie it to the other frames. -/
def Frame.links (f : Frame σ V E) : Point σ E × Option (NestedAwaiter E) × Option Address :=
  (f.point, f.awaiter, f.info)

namespace Heap

variable {h : Heap σ V E} {a b : Address} {f : Frame σ V E}

@[simp] theorem write_self (h : Heap σ V E) (a : Address) (f : Option (Frame σ V E)) :
    h.write a f a = f := by
  simp [write]

@[simp] theorem write_ne (h : Heap σ V E) (f : Option (Frame σ V E)) (hne : b ≠ a) :
    h.write a f b = h b := by
  simp [write, hne]

theorem modify_eq_some (hf : h a = some f) (g : Frame σ V E → Frame σ V E) :
    h.modify a g = some (h.write a (some (g f))) := by
  simp [modify, hf]

/-- An assignment to other members keeps what `φ` reads. -/
theorem map_write {α : Type} (φ : Frame σ V E → α) (hf : h a = some f) {f' : Frame σ V E}
    (heq : φ f' = φ f) (b : Address) : (h.write a (some f') b).map φ = (h b).map φ := by
  by_cases hb : b = a
  · subst hb
    simp [hf, heq]
  · rw [write_ne _ _ hb]

theorem isSome_write (hf : h a = some f) (f' : Frame σ V E) (b : Address) :
    (h.write a (some f') b).isSome = (h b).isSome := by
  by_cases hb : b = a
  · subst hb
    simp [hf]
  · rw [write_ne _ _ hb]

end Heap

/-! ## The chain -/

/-- A coroutine that waits: its frame and what it goes on with. -/
abbrev Waiting (σ E : Type) := Address × (Option E → σ)

/-- What `info_` points to when these wait. -/
def parentOf (ps : List (Waiting σ E)) : Option Address := ps.head?.map Prod.fst

/-- The coroutines `ps` wait, each for the one before it and the first for `child`; the last one is
`root`.  The `NestInfo` of the first holds the exception `r`. -/
def Waits (h : Heap σ V E) (root : Address) : Address → Option E → List (Waiting σ E) → Prop
  | child, _, [] => child = root
  | child, r, (a, k) :: ps =>
    (h a).map Frame.links =
        some (.awaiting k, some ⟨⟨r, some a, some root⟩, child⟩, parentOf ps) ∧
      Waits h root a none ps

/-- The live frames are those at the addresses `as`. -/
structure Live (h : Heap σ V E) (as : List Address) : Prop where
  nodup : as.Nodup
  mem : ∀ a, (h a).isSome ↔ a ∈ as

/-- The coroutine at `top` executes at `s`, the coroutines `ps` wait for it, the `NestInfo` of the
first holds the exception `r`, and the frames `spare` are there to be destroyed. -/
structure Active (h : Heap σ V E) (root top : Address) (s : σ) (r : Option E)
    (ps : List (Waiting σ E)) (spare : List Address) : Prop where
  frame : (h top).map Frame.links = some (.stmt s, none, parentOf ps)
  waits : Waits h root top r ps
  top_eq : (h root).map Frame.top = some top
  live : Live h (spare ++ top :: ps.map Prod.fst)
  spare : ∀ c ∈ spare, (h c).map Frame.awaiter = some none

/-- The coroutine at `child` has ended with `r`, and the first of `ps` is to be resumed. -/
structure Returning (h : Heap σ V E) (root child : Address) (r : Option E) (a : Address)
    (k : Option E → σ) (ps : List (Waiting σ E)) : Prop where
  frame : (h child).map Frame.awaiter = some none
  waits : Waits h root child r ((a, k) :: ps)
  top_eq : (h root).map Frame.top = some a
  live : Live h (child :: a :: ps.map Prod.fst)

/-- The outermost coroutine has ended. -/
structure Ended (h : Heap σ V E) (root : Address) : Prop where
  frame : (h root).map Frame.links = some (.final, none, none)
  live : Live h [root]

theorem Waits.congr {h h' : Heap σ V E} {root child : Address} {r : Option E}
    {ps : List (Waiting σ E)} (hw : Waits h root child r ps)
    (heq : ∀ a ∈ ps.map Prod.fst, (h' a).map Frame.links = (h a).map Frame.links) :
    Waits h' root child r ps := by
  induction ps generalizing child r with
  | nil => exact hw
  | cons p ps ih =>
    rw [List.map_cons, List.forall_mem_cons] at heq
    exact ⟨heq.1.trans hw.1, ih hw.2 heq.2⟩

theorem Waits.root_mem {h : Heap σ V E} {root child : Address} {r : Option E}
    {ps : List (Waiting σ E)} (hw : Waits h root child r ps) :
    root ∈ child :: ps.map Prod.fst := by
  induction ps generalizing child r with
  | nil => exact List.mem_cons.mpr (.inl hw.symm)
  | cons p ps ih => exact List.mem_cons_of_mem _ (ih hw.2)

theorem Waits.awaiting {h : Heap σ V E} {root child : Address} {r : Option E}
    {ps : List (Waiting σ E)} (hw : Waits h root child r ps) {a : Address}
    (hmem : a ∈ ps.map Prod.fst) : ∃ k, (h a).map Frame.point = some (.awaiting k) := by
  induction ps generalizing child r with
  | nil => cases hmem
  | cons p ps ih =>
    rcases List.mem_cons.mp hmem with rfl | hmem
    · obtain ⟨f, hf, hlinks⟩ := Option.map_eq_some_iff.mp hw.1
      exact ⟨p.2, by rw [hf]; exact congrArg (fun l ↦ some l.1) hlinks⟩
    · exact ih hw.2 hmem

/-- The `NestInfo` that the promise of `child` points to. -/
theorem Waits.nestInfo {h : Heap σ V E} {root child : Address} {r : Option E} {a : Address}
    {k : Option E → σ} {ps : List (Waiting σ E)} (hw : Waits h root child r ((a, k) :: ps)) :
    h.nestInfo a = some ⟨r, some a, some root⟩ := by
  obtain ⟨f, hf, hlinks⟩ := Option.map_eq_some_iff.mp hw.1
  have hawaiter : f.awaiter = some ⟨⟨r, some a, some root⟩, child⟩ :=
    congrArg (fun l ↦ l.2.1) hlinks
  simp [Heap.nestInfo, hf, hawaiter]

theorem Live.of_isSome {h h' : Heap σ V E} {as : List Address} (hlive : Live h as)
    (heq : ∀ a, (h' a).isSome = (h a).isSome) : Live h' as :=
  ⟨hlive.nodup, fun a ↦ by rw [heq, hlive.mem]⟩

theorem Live.perm {h : Heap σ V E} {as bs : List Address} (hlive : Live h as)
    (hperm : as.Perm bs) : Live h bs :=
  ⟨hperm.nodup_iff.mp hlive.nodup, fun a ↦ (hlive.mem a).trans hperm.mem_iff⟩

theorem Live.alloc {h : Heap σ V E} {as : List Address} (hlive : Live h as) {a : Address}
    (ha : h a = none) (f : Frame σ V E) : Live (h.write a (some f)) (a :: as) := by
  have hmem : a ∉ as := fun hmem ↦ by simpa [ha] using (hlive.mem a).mpr hmem
  refine ⟨List.nodup_cons.mpr ⟨hmem, hlive.nodup⟩, fun b ↦ ?_⟩
  by_cases hb : b = a
  · simp [hb]
  · rw [Heap.write_ne _ _ hb, hlive.mem, List.mem_cons, or_iff_right hb]

theorem Live.free {h : Heap σ V E} {as : List Address} {a : Address} (hlive : Live h (a :: as)) :
    Live (h.write a none) as := by
  obtain ⟨hmem, hnodup⟩ := List.nodup_cons.mp hlive.nodup
  refine ⟨hnodup, fun b ↦ ?_⟩
  by_cases hb : b = a
  · simp [hb, hmem]
  · rw [Heap.write_ne _ _ hb, hlive.mem, List.mem_cons, or_iff_right hb]

/-! ## Entering and leaving -/

namespace Active

variable {h : Heap σ V E} {root top : Address} {s : σ} {r : Option E} {ps : List (Waiting σ E)}
  {f : Frame σ V E}

theorem frame_eq {spare : List Address} (ha : Active h root top s r ps spare)
    (hf : h top = some f) : f.point = .stmt s ∧ f.awaiter = none ∧ f.info = parentOf ps := by
  have hlinks := ha.frame
  rw [hf, Option.map_some, Option.some.injEq] at hlinks
  exact ⟨congrArg Prod.fst hlinks, congrArg (fun l ↦ l.2.1) hlinks,
    congrArg (fun l ↦ l.2.2) hlinks⟩

theorem ne_top (ha : Active h root top s r ps []) {a : Address} (hmem : a ∈ ps.map Prod.fst) :
    a ≠ top := by
  rintro rfl
  exact (List.nodup_cons.mp ha.live.nodup).1 hmem

theorem isSome_of_mem (ha : Active h root top s r ps []) {a : Address}
    (hmem : a ∈ top :: ps.map Prod.fst) : (h a).isSome := (ha.live.mem a).mpr hmem

/-- The body goes on to another statement, and the value of the promise may change. -/
theorem write_stmt (ha : Active h root top s r ps []) (hf : h top = some f) (s' : σ)
    (v : Option V) :
    Active (h.write top (some { f with point := .stmt s', value := v })) root top s' r ps [] where
  frame := by
    obtain ⟨-, hawaiter, hinfo⟩ := ha.frame_eq hf
    simp [Frame.links, hawaiter, hinfo]
  waits := ha.waits.congr fun a hmem ↦ by rw [Heap.write_ne _ _ (ha.ne_top hmem)]
  top_eq := (Heap.map_write Frame.top hf (by rfl) root).trans ha.top_eq
  live := ha.live.of_isSome (Heap.isSome_write hf _)
  spare := by simp

/-- The root that `NestedAwaiter::await_suspend` finds is the outermost coroutine. -/
theorem root_eq (ha : Active h root top s r ps []) {h' : Heap σ V E}
    (heq : ∀ a ∈ ps.map Prod.fst, (h' a).map Frame.links = (h a).map Frame.links) :
    h'.nestedRoot top (parentOf ps) = some root := by
  have hwaits := ha.waits.congr heq
  cases ps with
  | nil => exact congrArg some ha.waits
  | cons p ps =>
    have hinfo := hwaits.nestInfo
    simp [parentOf, Heap.nestedRoot, hinfo]

/-- Entering a nested generator: its frame is linked on top of the chain. -/
theorem enter (ha : Active h root top s none ps []) (hf : h top = some f) {fresh : Address}
    (hfresh : h fresh = none) (g : σ) (k : Option E → σ) :
    ∃ h', ((h.write top (some { f with point := .awaiting k })).write fresh
        (some (.initial fresh g))).nestedAwaitSuspend top fresh = some h' ∧
      Active h' root fresh g none ((top, k) :: ps) [] := by
  have hne {a : Address} (hmem : a ∈ top :: ps.map Prod.fst) : a ≠ fresh := by
    rintro rfl
    simpa [hfresh] using ha.isSome_of_mem hmem
  have htop : top ≠ fresh := hne List.mem_cons_self
  have hroot : root ≠ fresh := hne ha.waits.root_mem
  obtain ⟨-, -, hinfo⟩ := ha.frame_eq hf
  -- The two frames at the start: the one that waits, and the new one.
  let f₁ : Frame σ V E := { f with point := .awaiting k }
  let h₁ := (h.write top (some f₁)).write fresh (some (.initial fresh g))
  have h₁_top : h₁ top = some f₁ := by simp [h₁, htop]
  have h₁_ps {a : Address} (hmem : a ∈ ps.map Prod.fst) : h₁ a = h a := by
    simp [h₁, hne (List.mem_cons_of_mem _ hmem), ha.ne_top hmem]
  have hroot_eq : h₁.nestedRoot top (parentOf ps) = some root :=
    ha.root_eq fun a hmem ↦ by rw [h₁_ps hmem]
  -- The awaiter of the frame that waits.
  let f₂ : Frame σ V E := { f₁ with awaiter := some ⟨⟨none, some top, some root⟩, fresh⟩ }
  let h₂ := h₁.write top (some f₂)
  have h₂_ne {a : Address} (hane : a ≠ top) : h₂ a = h₁ a := Heap.write_ne _ _ hane
  have h₂_root : (h₂ root).isSome := by
    rw [Heap.isSome_write h₁_top]
    simpa [h₁, hroot, Heap.isSome_write hf] using ha.isSome_of_mem ha.waits.root_mem
  obtain ⟨f₃, hf₃⟩ := Option.isSome_iff_exists.mp h₂_root
  -- `top_` of the outermost promise, and `info_` of the new one.
  let h₃ := h₂.write root (some { f₃ with top := fresh })
  have h₃_links (a : Address) : (h₃ a).map Frame.links = (h₂ a).map Frame.links :=
    Heap.map_write Frame.links hf₃ (by rfl) a
  have h₃_fresh : h₃ fresh = some (.initial fresh g) := by
    simp [h₃, h₂, h₁, hroot.symm, htop.symm]
  let f₄ : Frame σ V E := { Frame.initial fresh g with info := some top }
  let h₄ := h₃.write fresh (some f₄)
  have h₄_ne {a : Address} (hane : a ≠ fresh) : h₄ a = h₃ a := Heap.write_ne _ _ hane
  refine ⟨h₄, ?_, ?_, ⟨?_, ?_⟩, ?_, ?_, by simp⟩
  · have hcurrent : f₁.info = parentOf ps := hinfo
    refine Option.bind_eq_some_iff.mpr ⟨f₁, h₁_top, ?_⟩
    refine Option.bind_eq_some_iff.mpr ⟨root,
      (congrArg (h₁.nestedRoot top) hcurrent).trans hroot_eq, ?_⟩
    refine Option.bind_eq_some_iff.mpr ⟨h₂, Heap.modify_eq_some h₁_top _, ?_⟩
    refine Option.bind_eq_some_iff.mpr ⟨h₃, Heap.modify_eq_some hf₃ _, ?_⟩
    exact Heap.modify_eq_some h₃_fresh _
  · simp [h₄, f₄, Frame.links, Frame.initial, parentOf]
  · rw [h₄_ne htop, h₃_links]
    simp [h₂, f₂, f₁, Frame.links, hinfo]
  · refine ha.waits.congr fun a hmem ↦ ?_
    rw [h₄_ne (hne (List.mem_cons_of_mem _ hmem)), h₃_links, h₂_ne (ha.ne_top hmem), h₁_ps hmem]
  · rw [h₄_ne hroot]
    simp [h₃]
  · have hlive := (ha.live.of_isSome (Heap.isSome_write hf f₁)).alloc (a := fresh)
      (by rw [Heap.write_ne _ _ htop.symm, hfresh]) (.initial fresh g)
    refine hlive.of_isSome fun a ↦ ?_
    rw [Heap.isSome_write h₃_fresh, Heap.isSome_write hf₃, Heap.isSome_write h₁_top]

/-- `unhandled_exception` of a nested generator. -/
theorem unhandled {a : Address} {k : Option E → σ}
    (ha : Active h root top s none ((a, k) :: ps) []) (e : E) :
    ∃ h', h.unhandledException top e = some (h', none) ∧
      Active h' root top s (some e) ((a, k) :: ps) [] := by
  obtain ⟨f, hf⟩ := Option.isSome_iff_exists.mp (ha.isSome_of_mem List.mem_cons_self)
  obtain ⟨-, -, hinfo⟩ := ha.frame_eq hf
  obtain ⟨owner, howner, hlinks⟩ := Option.map_eq_some_iff.mp ha.waits.1
  have hawaiter : owner.awaiter = some ⟨⟨none, some a, some root⟩, top⟩ :=
    congrArg (fun l ↦ l.2.1) hlinks
  have htop : a ≠ top := ha.ne_top List.mem_cons_self
  have hps : a ∉ ps.map Prod.fst := (List.nodup_cons.mp (List.nodup_cons.mp ha.live.nodup).2).1
  refine ⟨h.write a (some { owner with
    awaiter := some ⟨⟨some e, some a, some root⟩, top⟩ }), ?_, ?_, ⟨?_, ?_⟩, ?_, ?_, by simp⟩
  · simp [Heap.unhandledException, hf, hinfo, parentOf, howner, hawaiter,
      Heap.modify_eq_some howner]
  · rw [Heap.write_ne _ _ htop.symm]
    exact ha.frame
  · simp only [Frame.links, Prod.mk.injEq] at hlinks
    simp [Frame.links, hlinks.1, hlinks.2.2]
  · refine ha.waits.2.congr fun b hmem ↦ ?_
    rw [Heap.write_ne _ _ (ne_of_mem_of_not_mem hmem hps)]
  · exact (Heap.map_write Frame.top howner (by rfl) root).trans ha.top_eq
  · exact ha.live.of_isSome (Heap.isSome_write howner _)

/-- The final suspend point of a nested generator: `top_` is the frame that waits for it. -/
theorem suspend_nested {a : Address} {k : Option E → σ}
    (ha : Active h root top s r ((a, k) :: ps) []) (hf : h top = some f) :
    ∃ h', (h.write top (some { f with point := .final })).finalAwaitSuspend top =
        some (h', some a) ∧ Returning h' root top r a k ps := by
  obtain ⟨-, hawaiter, hinfo⟩ := ha.frame_eq hf
  have hroot : root ≠ top := ha.ne_top ha.waits.2.root_mem
  let f₁ : Frame σ V E := { f with point := .final }
  let h₁ := h.write top (some f₁)
  have h₁_ne {b : Address} (hne : b ≠ top) : h₁ b = h b := Heap.write_ne _ _ hne
  have hnest : h₁.nestInfo a = some ⟨r, some a, some root⟩ :=
    (ha.waits.congr fun b hmem ↦ by rw [h₁_ne (ha.ne_top hmem)]).nestInfo
  obtain ⟨f₂, hf₂⟩ : ∃ f₂, h₁ root = some f₂ := by
    rw [h₁_ne hroot]
    exact Option.isSome_iff_exists.mp
      (ha.isSome_of_mem (List.mem_cons_of_mem _ ha.waits.2.root_mem))
  -- `top_` of the outermost promise, and `info_` of the one that has ended.
  let h₂ := h₁.write root (some { f₂ with top := a })
  have h₂_top : h₂ top = some f₁ := by simp [h₂, h₁, hroot.symm]
  let h₃ := h₂.write top (some { f₁ with info := none })
  have h₃_ne {b : Address} (hne : b ≠ top) :
      (h₃ b).map Frame.links = (h b).map Frame.links := by
    calc
      (h₃ b).map Frame.links = (h₂ b).map Frame.links := congrArg _ (Heap.write_ne _ _ hne)
      _ = (h₁ b).map Frame.links := Heap.map_write Frame.links hf₂ (by rfl) b
      _ = (h b).map Frame.links := congrArg _ (h₁_ne hne)
  refine ⟨h₃, ?_, ?_, ⟨?_, ?_⟩, ?_, ?_⟩
  · refine Option.bind_eq_some_iff.mpr ⟨f₁, by simp [f₁], ?_⟩
    simp only [show f₁.info = some a from hinfo]
    refine Option.bind_eq_some_iff.mpr ⟨_, hnest, ?_⟩
    refine Option.bind_eq_some_iff.mpr ⟨a, rfl, ?_⟩
    refine Option.bind_eq_some_iff.mpr ⟨root, rfl, ?_⟩
    refine Option.bind_eq_some_iff.mpr ⟨h₂, Heap.modify_eq_some hf₂ _, ?_⟩
    exact Option.bind_eq_some_iff.mpr ⟨h₃, Heap.modify_eq_some h₂_top _, rfl⟩
  · simp [h₃, f₁, hawaiter]
  · exact (h₃_ne (ha.ne_top List.mem_cons_self)).trans ha.waits.1
  · exact ha.waits.2.congr fun b hmem ↦ h₃_ne (ha.ne_top (List.mem_cons_of_mem _ hmem))
  · have h₃_root : h₃ root = h₂ root := Heap.write_ne _ _ hroot
    rw [h₃_root]
    simp [h₂]
  · refine ha.live.of_isSome fun b ↦ ?_
    rw [Heap.isSome_write h₂_top, Heap.isSome_write hf₂, Heap.isSome_write hf]

/-- The final suspend point of the outermost generator. -/
theorem suspend_root (ha : Active h root top s r [] []) (hf : h top = some f) :
    (h.write top (some { f with point := .final })).finalAwaitSuspend top =
        some (h.write top (some { f with point := .final }), none) ∧
      Ended (h.write top (some { f with point := .final })) root := by
  obtain ⟨-, hawaiter, hinfo⟩ := ha.frame_eq hf
  obtain rfl : top = root := ha.waits
  refine ⟨?_, ?_, ha.live.of_isSome (Heap.isSome_write hf _)⟩
  · simp [Heap.finalAwaitSuspend, hinfo, parentOf]
  · simp [Frame.links, hawaiter, hinfo, parentOf]

end Active

/-- `await_resume`: the frame that waited executes, and the ended one is left to be destroyed. -/
theorem Returning.awaitResume {h : Heap σ V E} {root child a : Address} {r : Option E}
    {k : Option E → σ} {ps : List (Waiting σ E)} {f : Frame σ V E}
    (hr : Returning h root child r a k ps) (hf : h a = some f) :
    Active (h.write a (some { f with point := .stmt (k r), awaiter := none })) root a (k r) none ps
      [child] := by
  obtain ⟨hchild, hps⟩ := List.nodup_cons.mp hr.live.nodup
  have hchild_ne : child ≠ a := fun heq ↦ hchild (heq ▸ List.mem_cons_self)
  have hlinks := hr.waits.1
  rw [hf, Option.map_some, Option.some.injEq] at hlinks
  refine ⟨?_, ?_, ?_, ?_, ?_⟩
  · have hinfo : f.info = parentOf ps := congrArg (fun l ↦ l.2.2) hlinks
    simp [Frame.links, hinfo]
  · refine hr.waits.2.congr fun b hmem ↦ ?_
    rw [Heap.write_ne _ _ (ne_of_mem_of_not_mem hmem (List.nodup_cons.mp hps).1)]
  · exact (Heap.map_write Frame.top hf (by rfl) root).trans hr.top_eq
  · exact hr.live.of_isSome (Heap.isSome_write hf _)
  · intro c hc
    rw [List.mem_singleton.mp hc, Heap.write_ne _ _ hchild_ne]
    exact hr.frame

/-- The ended frame is destroyed. -/
theorem Active.freeSpare {h : Heap σ V E} {root top c : Address} {s : σ} {ps : List (Waiting σ E)}
    (ha : Active h root top s none ps [c]) : Active (h.write c none) root top s none ps [] := by
  have hc := (List.nodup_cons.mp ha.live.nodup).1
  have hne {a : Address} (hmem : a ∈ top :: ps.map Prod.fst) : a ≠ c :=
    ne_of_mem_of_not_mem hmem hc
  refine ⟨?_, ?_, ?_, ha.live.free, by simp⟩
  · rw [Heap.write_ne _ _ (hne List.mem_cons_self)]
    exact ha.frame
  · exact ha.waits.congr fun a hmem ↦ by rw [Heap.write_ne _ _ (hne (List.mem_cons_of_mem _ hmem))]
  · rw [Heap.write_ne _ _ (hne ha.waits.root_mem)]
    exact ha.top_eq

/-! ## Destroying the chain -/

/-- `as` are the frames owned by the one at `a` through its awaiter, the nearest first. -/
def Owns (h : Heap σ V E) : Address → List Address → Prop
  | a, [] => (h a).map Frame.awaiter = some none
  | a, c :: cs => (∃ n, (h a).map Frame.awaiter = some (some ⟨n, c⟩)) ∧ Owns h c cs

/-- Destructors of the frames `as` run, the first one called by the one of the second, and so on;
what is left are these frames and what the first of them owns. -/
def Doomed (h : Heap σ V E) : List Address → Prop
  | [] => Live h []
  | a :: as => (∀ b ∈ as, (h b).map Frame.awaiter = some none) ∧
      ∃ cs, Owns h a cs ∧ Live h (cs ++ a :: as)

theorem Owns.congr {h h' : Heap σ V E} {a : Address} {cs : List Address} (ho : Owns h a cs)
    (heq : ∀ b ∈ a :: cs, h' b = h b) : Owns h' a cs := by
  induction cs generalizing a with
  | nil => rwa [Owns, heq a List.mem_cons_self]
  | cons c cs ih =>
    rw [Owns, heq a List.mem_cons_self]
    exact ⟨ho.1, ih ho.2 fun b hb ↦ heq b (List.mem_cons_of_mem _ hb)⟩

theorem Waits.owns {h : Heap σ V E} {root child : Address} {r : Option E}
    {ps : List (Waiting σ E)} {cs : List Address} (hw : Waits h root child r ps)
    (ho : Owns h child cs) :
    ∃ cs', Owns h root cs' ∧ (cs' ++ [root]).Perm (cs ++ child :: ps.map Prod.fst) := by
  induction ps generalizing child r cs with
  | nil =>
    obtain rfl : child = root := hw
    exact ⟨cs, ho, by simp⟩
  | cons p ps ih =>
    obtain ⟨f, hf, hlinks⟩ := Option.map_eq_some_iff.mp hw.1
    have hawaiter : f.awaiter = some ⟨⟨r, some p.1, some root⟩, child⟩ :=
      congrArg (fun l ↦ l.2.1) hlinks
    have howns : Owns h p.1 (child :: cs) := ⟨⟨_, by rw [hf, Option.map_some, hawaiter]⟩, ho⟩
    obtain ⟨cs', hroot, hperm⟩ := ih hw.2 howns
    exact ⟨cs', hroot, hperm.trans List.perm_middle.symm⟩

theorem Active.doomed {h : Heap σ V E} {root top : Address} {s : σ} {ps : List (Waiting σ E)}
    (ha : Active h root top s none ps []) : Doomed h [root] := by
  obtain ⟨f, hf⟩ := Option.isSome_iff_exists.mp (ha.isSome_of_mem List.mem_cons_self)
  have howns : Owns h top [] := by rw [Owns, hf, Option.map_some, (ha.frame_eq hf).2.1]
  obtain ⟨cs, hroot, hperm⟩ := ha.waits.owns howns
  exact ⟨by simp, cs, hroot, ha.live.perm hperm.symm⟩

theorem Ended.doomed {h : Heap σ V E} {root : Address} (he : Ended h root) : Doomed h [root] := by
  obtain ⟨f, hf, hlinks⟩ := Option.map_eq_some_iff.mp he.frame
  have hawaiter : f.awaiter = none := congrArg (fun l ↦ l.2.1) hlinks
  exact ⟨by simp, [], by rw [Owns, hf, Option.map_some, hawaiter], he.live⟩

end Cqy.Coro
