import Mathlib

/-!
# Sequences produced by delegation

A producer emits values one at a time, may hand over to another producer until that one ends, and
ends by itself, normally or with an error.  What it is to produce is given twice: as a relation that
follows the nesting of the producers, and as a machine that keeps the waiting producers on a stack.
The two agree, on the productions that end and on the initial parts of those that do not.
-/

namespace Foundation.Delegation

open Relation

variable {σ V E : Type*}

/-- What a producer does next, from its local state. -/
inductive Act (σ V E : Type*)
  | finish
  | fail (e : E)
  | emit (v : V) (s : σ)
  /-- Hand over to `g`, if there is one, and continue with the error it ended with, if any. -/
  | delegate (g : Option σ) (k : Option E → σ)

/-- How far a production went. -/
inductive Outcome (E : Type*)
  | paused
  | ended (r : Option E)

/-- `Produces act s vs n o`: from `s` the values `vs` come out, in this order and with `n` producers
started on the way, and then the outcome is `o`. -/
inductive Produces (act : σ → Act σ V E) : σ → List V → ℕ → Outcome E → Prop
  | paused (s : σ) : Produces act s [] 0 .paused
  | finish {s : σ} (hact : act s = .finish) : Produces act s [] 0 (.ended none)
  | fail {s : σ} {e : E} (hact : act s = .fail e) : Produces act s [] 0 (.ended (some e))
  | emit {s s' : σ} {v : V} {vs : List V} {n : ℕ} {o : Outcome E} (hact : act s = .emit v s')
      (hrest : Produces act s' vs n o) : Produces act s (v :: vs) n o
  | skip {s : σ} {k : Option E → σ} {vs : List V} {n : ℕ} {o : Outcome E}
      (hact : act s = .delegate none k) (hrest : Produces act (k none) vs n o) :
      Produces act s vs n o
  | inside {s g : σ} {k : Option E → σ} {vs : List V} {n : ℕ}
      (hact : act s = .delegate (some g) k) (hin : Produces act g vs n .paused) :
      Produces act s vs (n + 1) .paused
  | after {s g : σ} {k : Option E → σ} {vs ws : List V} {m n : ℕ} {r : Option E} {o : Outcome E}
      (hact : act s = .delegate (some g) k) (hin : Produces act g vs m (.ended r))
      (hrest : Produces act (k r) ws n o) : Produces act s (vs ++ ws) (m + n + 1) o

/-! ## The stack machine -/

/-- Either a producer runs, or one has ended and its outcome is handed to the one below it. -/
inductive Control (σ E : Type*)
  | run (s : σ) (ks : List (Option E → σ))
  | back (r : Option E) (ks : List (Option E → σ))

/-- A state of the machine, with what came out so far and how many producers were started. -/
structure Config (σ V E : Type*) where
  control : Control σ E
  out : List V
  started : ℕ

def next (act : σ → Act σ V E) : Config σ V E → Option (Config σ V E)
  | ⟨.run s ks, out, n⟩ =>
    match act s with
    | .finish => some ⟨.back none ks, out, n⟩
    | .fail e => some ⟨.back (some e) ks, out, n⟩
    | .emit v s' => some ⟨.run s' ks, out ++ [v], n⟩
    | .delegate none k => some ⟨.run (k none) ks, out, n⟩
    | .delegate (some g) k => some ⟨.run g (k :: ks), out, n + 1⟩
  | ⟨.back r (k :: ks), out, n⟩ => some ⟨.run (k r) ks, out, n⟩
  | ⟨.back _ [], _, _⟩ => none

def Step (act : σ → Act σ V E) (c c' : Config σ V E) : Prop := next act c = some c'

/-- The machine before anything came out. -/
def Config.init (V : Type*) (E : Type*) (s : σ) : Config σ V E := ⟨.run s [], [], 0⟩

section

variable {act : σ → Act σ V E}

theorem step_rightUnique : Relator.RightUnique (Step act) := by
  intro a b c hb hc
  exact Option.some.inj (hb.symm.trans hc)

/-- A production that ends takes the machine through it, whatever waits below. -/
theorem Produces.reaches {s : σ} {vs : List V} {n : ℕ} {r : Option E}
    (h : Produces act s vs n (.ended r)) (ks : List (Option E → σ)) (out : List V) (m : ℕ) :
    ReflTransGen (Step act) ⟨.run s ks, out, m⟩ ⟨.back r ks, out ++ vs, m + n⟩ := by
  generalize ho : Outcome.ended r = o at h
  induction h generalizing ks out m r with
  | paused => cases ho
  | inside => cases ho
  | finish hact =>
    cases ho
    refine ReflTransGen.single ?_
    simp [Step, next, hact]
  | fail hact =>
    cases ho
    refine ReflTransGen.single ?_
    simp [Step, next, hact]
  | @emit s s' v vs n o hact _ ih =>
    have hrest := ih ks (out ++ [v]) m ho
    rw [List.append_assoc, List.singleton_append] at hrest
    exact hrest.head (by simp [Step, next, hact])
  | skip hact _ ih => exact (ih ks out m ho).head (by simp [Step, next, hact])
  | @after s g k vs ws n₁ n₂ r₁ o hact _ _ ihin ihrest =>
    have hin := ihin (k :: ks) out (m + 1) rfl
    have hback : Step act ⟨.back r₁ (k :: ks), out ++ vs, m + 1 + n₁⟩
        ⟨.run (k r₁) ks, out ++ vs, m + 1 + n₁⟩ := rfl
    have hrest := ihrest ks (out ++ vs) (m + 1 + n₁) ho
    have hcount : m + (n₁ + n₂ + 1) = m + 1 + n₁ + n₂ := by omega
    rw [hcount, ← List.append_assoc]
    exact ((hin.tail hback).trans hrest).head (by simp [Step, next, hact])

/-- What the waiting producers make of the outcome of the one above them. -/
inductive Unwinds (act : σ → Act σ V E) :
    Outcome E → List (Option E → σ) → List V → ℕ → Outcome E → Prop
  | pause (o : Outcome E) (ks : List (Option E → σ)) : Unwinds act o ks [] 0 .paused
  | nil (o : Outcome E) : Unwinds act o [] [] 0 o
  | cons {r : Option E} {k : Option E → σ} {ks : List (Option E → σ)} {vs ws : List V} {m n : ℕ}
      {o o' : Outcome E} (hrun : Produces act (k r) vs m o) (hrest : Unwinds act o ks ws n o') :
      Unwinds act (.ended r) (k :: ks) (vs ++ ws) (m + n) o'

/-- What a control of the machine has still to produce. -/
inductive Completes (act : σ → Act σ V E) : Control σ E → List V → ℕ → Outcome E → Prop
  | run {s : σ} {ks : List (Option E → σ)} {vs ws : List V} {m n : ℕ} {o o' : Outcome E}
      (hrun : Produces act s vs m o) (hrest : Unwinds act o ks ws n o') :
      Completes act (.run s ks) (vs ++ ws) (m + n) o'
  | back {r : Option E} {ks : List (Option E → σ)} {ws : List V} {n : ℕ} {o : Outcome E}
      (hrest : Unwinds act (.ended r) ks ws n o) : Completes act (.back r ks) ws n o

/-- A production that ends can be looked at before its end. -/
theorem Produces.pause {s : σ} {vs : List V} {n : ℕ} {o : Outcome E} (h : Produces act s vs n o) :
    Produces act s vs n .paused := by
  induction h with
  | paused s => exact .paused s
  | finish => exact .paused _
  | fail => exact .paused _
  | emit hact _ ih => exact .emit hact ih
  | skip hact _ ih => exact .skip hact ih
  | inside hact hin => exact .inside hact hin
  | after hact hin _ _ ih => exact .after hact hin ih

/-- What is produced after a step and what the step itself puts out are produced from before it. -/
theorem Completes.of_step {c c' : Config σ V E} {ws : List V} {n : ℕ} {o : Outcome E}
    (hstep : Step act c c') (h : Completes act c'.control ws n o) :
    ∃ us k, Completes act c.control us k o ∧ c.out ++ us = c'.out ++ ws ∧
      c.started + k = c'.started + n := by
  rcases c with ⟨⟨s, ks⟩ | ⟨r, _ | ⟨k, ks⟩⟩, out, m⟩
  · cases hact : act s with
    | finish =>
      obtain rfl : _ = c' := by simpa [Step, next, hact] using hstep
      obtain ⟨hrest⟩ | ⟨hrest⟩ := h
      exact ⟨_, _, .run (.finish hact) hrest, rfl, by simp⟩
    | fail e =>
      obtain rfl : _ = c' := by simpa [Step, next, hact] using hstep
      obtain ⟨hrest⟩ | ⟨hrest⟩ := h
      exact ⟨_, _, .run (.fail hact) hrest, rfl, by simp⟩
    | emit v s' =>
      obtain rfl : _ = c' := by simpa [Step, next, hact] using hstep
      obtain ⟨hrun, hrest⟩ | _ := h
      exact ⟨_, _, .run (.emit hact hrun) hrest, by simp, rfl⟩
    | delegate g k =>
      cases g with
      | none =>
        obtain rfl : _ = c' := by simpa [Step, next, hact] using hstep
        obtain ⟨hrun, hrest⟩ | _ := h
        exact ⟨_, _, .run (.skip hact hrun) hrest, rfl, rfl⟩
      | some g =>
        obtain rfl : _ = c' := by simpa [Step, next, hact] using hstep
        obtain ⟨hrun, hrest⟩ | _ := h
        cases hrest with
        | pause =>
          exact ⟨_, _, .run (.inside hact hrun.pause) (.pause _ _), rfl, by simp; omega⟩
        | cons hrun' hrest' =>
          exact ⟨_, _, .run (.after hact hrun hrun') hrest', by simp, by simp; omega⟩
  · cases hstep
  · obtain rfl : _ = c' := by simpa [Step, next] using hstep
    obtain ⟨hrun, hrest⟩ | _ := h
    exact ⟨_, _, .back (.cons hrun hrest), rfl, rfl⟩

theorem Completes.of_reaches {c c' : Config σ V E} {o : Outcome E}
    (hreach : ReflTransGen (Step act) c c') (h : Completes act c'.control [] 0 o) :
    ∃ ws n, Completes act c.control ws n o ∧ c'.out = c.out ++ ws ∧
      c'.started = c.started + n := by
  induction hreach using ReflTransGen.head_induction_on with
  | refl => exact ⟨[], 0, h, by simp, rfl⟩
  | head hstep _ ih =>
    obtain ⟨ws, n, hrest, hout, hcount⟩ := ih
    obtain ⟨us, k, hfirst, hout', hcount'⟩ := hrest.of_step hstep
    exact ⟨us, k, hfirst, hout.trans hout'.symm, hcount.trans hcount'.symm⟩

theorem completes_nil_paused (ctl : Control σ E) :
    Completes act ctl ([] : List V) 0 .paused := by
  cases ctl with
  | run s ks => exact .run (.paused s) (.pause .paused ks)
  | back r ks => exact .back (.pause _ ks)

/-- Whatever the machine reaches, what came out is an initial part of the production. -/
theorem produces_paused_of_reaches {s : σ} {c : Config σ V E}
    (h : ReflTransGen (Step act) (Config.init V E s) c) :
    Produces act s c.out c.started .paused := by
  obtain ⟨ws, n, hc, hout, hcount⟩ := Completes.of_reaches h (completes_nil_paused c.control)
  rw [hout, hcount]
  obtain ⟨hrun, hrest⟩ | _ := hc
  cases hrest <;> simpa [Config.init] using hrun.pause

/-- When the machine ends, what came out is the production that ends so. -/
theorem produces_ended_of_reaches {s : σ} {r : Option E} {out : List V} {n : ℕ}
    (h : ReflTransGen (Step act) (Config.init V E s) ⟨.back r [], out, n⟩) :
    Produces act s out n (.ended r) := by
  obtain ⟨ws, k, hc, hout, hcount⟩ :=
    Completes.of_reaches h (.back (.nil (.ended r)) : Completes act _ [] 0 _)
  obtain ⟨hrun, hrest⟩ | _ := hc
  cases hrest
  simp only [Config.init, List.nil_append, List.append_nil, Nat.zero_add, Nat.add_zero]
    at hout hcount
  rw [hout, hcount]
  exact hrun

/-- While a production ends, the machine cannot miss its end. -/
theorem Produces.reaches_of_reaches {s : σ} {vs : List V} {n : ℕ} {r : Option E}
    {c : Config σ V E} (h : Produces act s vs n (.ended r))
    (hreach : ReflTransGen (Step act) (Config.init V E s) c) :
    ReflTransGen (Step act) c ⟨.back r [], vs, n⟩ := by
  have hend : ReflTransGen (Step act) (Config.init V E s) ⟨.back r [], vs, n⟩ := by
    simpa [Config.init] using h.reaches [] [] 0
  rcases ReflTransGen.total_of_right_unique step_rightUnique hreach hend with hto | hfrom
  · exact hto
  · rcases hfrom.cases_head with heq | ⟨c', hstep, -⟩
    · rw [heq]
    · cases hstep

end

end Foundation.Delegation
