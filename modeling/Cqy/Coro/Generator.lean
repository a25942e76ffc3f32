import Cqy.Foundation.Delegation
import Cqy.Foundation.Machine

/-!
# Generators

`Generator`, its promise and its iterator over a heap of coroutine frames.  A generator that yields
`elements_of` another one does not pass the values through: it links the two frames, and the
consumer resumes the innermost coroutine directly.  `top_` of the outermost promise points to the
innermost frame; `info_` of every other promise points to the `NestInfo` in the frame that waits for
it.  Reading or resuming a frame that is not there refuses the step.
-/

namespace Cqy.Coro

open Foundation

abbrev Address := ℕ

/-- The statement a coroutine body comes to, from its locals.  What is computed between two
statements is the body's own and is not seen here. -/
inductive Stmt (σ V E : Type)
  | coReturn
  /-- An exception that the body does not catch. -/
  | throw (e : E)
  | coYield (v : V) (s : σ)
  /-- `co_yield elements_of(gen)`, of a generator not started or of one moved from.  It ends with the
  exception the nested generator ended with, if any, which the body may catch. -/
  | elementsOf (gen : Option σ) (k : Option E → σ)

/-- `gen_promise_base::NestInfo` -/
structure NestInfo (E : Type) where
  except : Option E := none
  parent : Option Address := none
  root : Option Address := none

/-- `gen_promise_base::NestedAwaiter`.  It is a temporary in the frame of the awaiting coroutine, and
there is one at a time, so the address of that frame stands for the address of `nested`. -/
structure NestedAwaiter (E : Type) where
  nested : NestInfo E
  gen : Address

/-- Where a coroutine is suspended, or what it executes. -/
inductive Point (σ E : Type)
  | stmt (s : σ)
  /-- At the `NestedAwaiter`. -/
  | awaiting (k : Option E → σ)
  /-- At the final suspend point: `done()`. -/
  | final

/-- A coroutine frame: `gen_promise_base`, and the awaiter that is alive. -/
structure Frame (σ V E : Type) where
  point : Point σ E
  value : Option V := none
  top : Address
  info : Option Address := none
  awaiter : Option (NestedAwaiter E) := none

abbrev Heap (σ V E : Type) := Address → Option (Frame σ V E)

/-- Who has control.  Destructors that run are a stack of the frames they destroy, and give it back
to the coroutine whose temporary they destroy or to the consumer. -/
inductive Control
  | client
  | running (a : Address)
  | destroying (frames : List Address) (back : Option Address)

/-- A consumer with one generator. -/
structure State (σ V E : Type) where
  heap : Heap σ V E
  control : Control := .client
  /-- `_coro`, of the `Generator` or, after `begin`, of the `iterator`. -/
  coro : Option Address
  begun : Bool := false
  /-- What the last resumption threw at the consumer. -/
  raised : Option E := none
  /-- History: the values of the `co_yield`s. -/
  yielded : List V := []
  /-- History: how often a coroutine was resumed, by the consumer or by another coroutine. -/
  resumed : ℕ := 0

namespace Frame

variable {σ V E : Type}

/-- A coroutine called and suspended at its initial suspend point. -/
def initial (a : Address) (s : σ) : Frame σ V E := { point := .stmt s, top := a }

def done (f : Frame σ V E) : Bool :=
  match f.point with
  | .final => true
  | _ => false

end Frame

namespace Heap

variable {σ V E : Type}

def write (h : Heap σ V E) (a : Address) (f : Option (Frame σ V E)) : Heap σ V E :=
  Function.update h a f

/-- An assignment to a member of the frame at `a`. -/
def modify (h : Heap σ V E) (a : Address) (g : Frame σ V E → Frame σ V E) : Option (Heap σ V E) :=
  (h a).map fun f ↦ h.write a (some (g f))

/-- `*info`: the `NestInfo` in the frame at `owner`. -/
def nestInfo (h : Heap σ V E) (owner : Address) : Option (NestInfo E) := do
  let f ← h owner
  let awaiter ← f.awaiter
  some awaiter.nested

/-- `nested_.root_` of a coroutine that `handle` awaits, from the `info_` of its promise. -/
def nestedRoot (h : Heap σ V E) (handle : Address) : Option Address → Option Address
  | some owner => (h.nestInfo owner).bind NestInfo.root
  | none => some handle

/-- `NestedAwaiter::await_suspend`, for the coroutine `handle` that awaits `target`. -/
def nestedAwaitSuspend (h : Heap σ V E) (handle target : Address) : Option (Heap σ V E) := do
  let current ← h handle
  let root ← h.nestedRoot handle current.info
  let nested : NestInfo E := { parent := some handle, root := some root }
  let h ← h.modify handle fun f ↦ { f with awaiter := some ⟨nested, target⟩ }
  let h ← h.modify root fun f ↦ { f with top := target }
  h.modify target fun f ↦ { f with info := some handle }

/-- `FinalAwaiter::await_suspend`, with the coroutine to resume, if it is not `noop_coroutine`. -/
def finalAwaitSuspend (h : Heap σ V E) (handle : Address) :
    Option (Heap σ V E × Option Address) := do
  let current ← h handle
  match current.info with
  | none => some (h, none)
  | some owner =>
    let info ← h.nestInfo owner
    let previous ← info.parent
    let root ← info.root
    let h ← h.modify root fun f ↦ { f with top := previous }
    let h ← h.modify handle fun f ↦ { f with info := none }
    some (h, some previous)

/-- `promise_type::unhandled_exception`, with the exception when it is thrown on. -/
def unhandledException (h : Heap σ V E) (handle : Address) (e : E) :
    Option (Heap σ V E × Option E) := do
  let current ← h handle
  match current.info with
  | none => some (h, some e)
  | some owner =>
    let f ← h owner
    let awaiter ← f.awaiter
    let nested : NestInfo E := { awaiter.nested with except := some e }
    let h ← h.modify owner fun f ↦ { f with awaiter := some { awaiter with nested := nested } }
    some (h, none)

end Heap

namespace State

variable {σ V E : Type}

/-- A generator function called with the locals `s`; its frame is at `r`. -/
def call (r : Address) (s : σ) : State σ V E :=
  { heap := fun a ↦ if a = r then some (.initial r s) else none, coro := some r }

/-- The frame of `_coro` and, when the coroutine has not ended, that of `top_`. -/
def topFrame (st : State σ V E) : Option (Frame σ V E) := do
  let r ← st.coro
  let root ← st.heap r
  if root.done then none else st.heap root.top

/-- `iterator::operator*` -/
def deref (st : State σ V E) : Option V := st.topFrame.bind Frame.value

/-- The iterator compares equal to the sentinel. -/
def atEnd (st : State σ V E) : Bool :=
  match st.coro with
  | some r => (st.heap r).elim true Frame.done
  | none => true

/-- The coroutine at `a` passes its final suspend point. -/
def finalSuspend (st : State σ V E) (h : Heap σ V E) (a : Address) : Option (State σ V E) := do
  let h ← h.modify a fun f ↦ { f with point := .final }
  let (h, previous) ← h.finalAwaitSuspend a
  match previous with
  | some p => some { st with heap := h, control := .running p, resumed := st.resumed + 1 }
  | none => some { st with heap := h, control := .client }

/-- The coroutine at `a` executes up to its next statement; a frame it allocates is at `fresh`. -/
def execute (body : σ → Stmt σ V E) (st : State σ V E) (a fresh : Address) :
    Option (State σ V E) := do
  let f ← st.heap a
  match f.point with
  | .final => none
  | .awaiting k =>
    -- `await_resume`, which rethrows; either way the temporary is destroyed.
    let awaiter ← f.awaiter
    let f' := { f with point := .stmt (k awaiter.nested.except), awaiter := none }
    some { st with
      heap := st.heap.write a (some f')
      control := .destroying [awaiter.gen] (some a) }
  | .stmt s =>
    match body s with
    | .coReturn => st.finalSuspend st.heap a
    | .throw e =>
      let (h, rethrown) ← st.heap.unhandledException a e
      match rethrown with
      | none => st.finalSuspend h a
      | some e =>
        let h ← h.modify a fun f ↦ { f with point := .final }
        some { st with heap := h, control := .client, raised := some e }
    | .coYield v s' =>
      some { st with
        heap := st.heap.write a (some { f with point := .stmt s', value := some v })
        control := .client
        yielded := st.yielded ++ [v] }
    | .elementsOf none k =>
      some { st with heap := st.heap.write a (some { f with point := .stmt (k none) }) }
    | .elementsOf (some g) k =>
      if (st.heap fresh).isSome then none
      else
        let h := st.heap.write a (some { f with point := .awaiting k })
        let h ← (h.write fresh (some (.initial fresh g))).nestedAwaitSuspend a fresh
        some { st with heap := h, control := .running fresh, resumed := st.resumed + 1 }

/-- The innermost destructor goes on: it destroys the temporary of its frame, then the frame. -/
def destruct (st : State σ V E) : List Address → Option Address → Option (State σ V E)
  | [], none => some { st with control := .client }
  | [], some a => some { st with control := .running a }
  | a :: as, back => do
    let f ← st.heap a
    match f.awaiter with
    | some awaiter =>
      some { st with
        heap := st.heap.write a (some { f with awaiter := none })
        control := .destroying (awaiter.gen :: a :: as) back }
    | none => some { st with heap := st.heap.write a none, control := .destroying as back }

/-- The consumer resumes the coroutine at `a`, which must be suspended and not done. -/
def resume (st : State σ V E) (a : Address) : Option (State σ V E) := do
  let f ← st.heap a
  if f.done then none
  else some { st with control := .running a, resumed := st.resumed + 1 }

inductive Label
  | begin
  /-- `iterator::operator++` -/
  | increment
  /-- The destructor of the `Generator` or of the `iterator`, or `iterator::destroy`. -/
  | destroy
  /-- Coroutines or destructors run; a frame that is allocated is at `fresh`. -/
  | run (fresh : Address)
deriving DecidableEq

/-- One step of the consumer or of what it called.  The consumer calls `begin` once and does not
increment an iterator that is at its end. -/
def step (body : σ → Stmt σ V E) (st : State σ V E) : Label → Option (State σ V E)
  | .begin =>
    match st.control, st.coro with
    | .client, some r =>
      if st.begun then none else ({ st with begun := true } : State σ V E).resume r
    | _, _ => none
  | .increment =>
    match st.control, st.coro with
    | .client, some r => do
      let root ← st.heap r
      if st.begun && !root.done then st.resume root.top else none
    | _, _ => none
  | .destroy =>
    match st.control, st.coro with
    | .client, some r => some { st with control := .destroying [r] none, coro := none }
    | _, _ => none
  | .run fresh =>
    match st.control with
    | .client => none
    | .running a => st.execute body a fresh
    | .destroying frames back => st.destruct frames back

end State

end Cqy.Coro
