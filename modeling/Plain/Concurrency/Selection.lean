import Plain.Concurrency.State
import Plain.Foundation.Machine
import Mathlib.Logic.Function.Basic

/-! # Waiting for any of several results

A coroutine enters one context into the states of all its results and goes to sleep; the first
producer to find the context resumes it. The coroutine, the producers and whoever destroys the
results afterwards touch the shared memory in steps of one access, which interleave arbitrarily.

`when_any` answers with the status it has loaded first. A producer that publishes its outcome
between that load and the compare-exchange behind it is missed: it finds nobody to resume, and
the coroutine does not look at it again.
-/

namespace Plain.Concurrency

/-- The pointer in a `WhenAnyContext`: `kProcessing`, `kDoneProcessing`, or the state of the
completed result. -/
inductive AnyStatus where
  | processing
  | doneProcessing
  | completed (k : ℕ)
  deriving DecidableEq, Repr

/-- What the producer of one of the results does next, in `complete_producer` or behind it in
`try_resume`. -/
inductive Racing where
  | complete (next : Producer)
  | load
  | swap (found : AnyStatus)
  deriving DecidableEq, Repr

inductive Owning where
  | holds
  | delete
  | gone
  deriving DecidableEq, Repr

structure Candidate (ε τ : Type*) extends Memory ε τ where
  producing : Racing
  owning : Owning
  deriving DecidableEq

/-- What the coroutine does next, in `await_suspend` and, once it is `resumed`, in
`await_resume`. Behind that it has `returned` the index of the completed result. -/
inductive Selecting where
  | test (k : ℕ)
  | load (k : ℕ)
  | set (k : ℕ)
  | swap (k : ℕ)
  | inlineLoad (k : ℕ)
  | inlineSwap (k : ℕ)
  | finish
  | suspended
  | resumed
  | rewind (k : ℕ) (completed : AnyStatus) (index : Option ℕ)
  | rewindSwap (k : ℕ) (completed : AnyStatus) (index : Option ℕ)
  | clear (k : ℕ) (completed : AnyStatus) (index : Option ℕ)
  | returned (index : Option ℕ)
  deriving DecidableEq, Repr

namespace Selecting

/-- The loop of `await_suspend` at the `k`-th of `n` results. -/
def loop (n k : ℕ) : Selecting := if k < n then .test k else .finish

def rewinding (n k : ℕ) (completed : AnyStatus) (index : Option ℕ) : Selecting :=
  if k < n then .rewind k completed index else .returned index

/-- The rest of the body of that loop, behind `try_rewind_consumer`. -/
def rewound (n k : ℕ) (completed : AnyStatus) (index : Option ℕ) : Selecting :=
  rewinding n (k + 1) completed (if completed = .completed k then some k else index)

end Selecting

/-- A `when_any` over results that are numbered from zero. -/
structure Selection (ε τ : Type*) where
  context : AnyStatus
  results : ℕ → Candidate ε τ
  coroutine : Selecting
  faulted : Bool

/-- One step of the producer of a result, which has the outcome at hand, of the coroutine, or of
the destructor of a result. -/
inductive SelectOp (ε τ : Type*) where
  | produce (k : ℕ) (outcome : Outcome ε τ)
  | select
  | destroy (k : ℕ)
  deriving DecidableEq, Repr

namespace Selection

variable {ε τ : Type*}

def new (n : ℕ) : Selection ε τ :=
  ⟨.processing, fun _ => ⟨.new, .complete .build, .holds⟩, .loop n 0, false⟩

def setResult (s : Selection ε τ) (k : ℕ) (m : Memory ε τ) (producing : Racing)
    (coroutine : Selecting) : Selection ε τ :=
  { s with
    results := Function.update s.results k ⟨m, producing, (s.results k).owning⟩
    coroutine := coroutine }

/-- The next step of the producer of the `k`-th result. Behind its read of the context it only
uses the address of the state. -/
def stepProducer (s : Selection ε τ) (k : ℕ) (outcome : Outcome ε τ) : Selection ε τ :=
  let m := (s.results k).toMemory
  let set m producing := s.setResult k m producing s.coroutine
  match (s.results k).producing with
  | .complete .build => set (m.build outcome) (.complete .exchange)
  | .complete .exchange => set m.completeProducer (.complete (.next m.state.processStatus))
  | .complete .resume =>
      match m.state.consumer with
      | .whenAny => set (m.access true) .load
      | .idle | .await | .shared => set (m.access true) (.complete .finished)
  | .complete .notify => set m (.complete .finished)
  | .complete .delete => set m.delete (.complete .finished)
  | .complete .finished => s
  | .load =>
      match s.context with
      | .completed _ => set m (.complete .finished)
      | .processing => set m (.swap .processing)
      | .doneProcessing => set m (.swap .doneProcessing)
  | .swap .doneProcessing =>
      if s.context = .doneProcessing then
        { s.setResult k m (.complete .finished) .resumed with
          context := .completed k
          faulted := s.faulted || s.coroutine ≠ .suspended }
      else set m (.complete .finished)
  | .swap found =>
      if s.context = found then
        { set m (.complete .finished) with context := .completed k }
      else set m .load

def stepCoroutine (n : ℕ) (s : Selection ε τ) : Selection ε τ :=
  match s.coroutine with
  | .test k =>
      { s with
        coroutine := if s.context = .processing then .load k else .resumed
        faulted := s.faulted || s.context = .doneProcessing }
  | .load k =>
      let m := (s.results k).toMemory
      s.setResult k (m.access true) (s.results k).producing
        (if m.state.processStatus = .producerDone then .inlineLoad k else .set k)
  | .set k =>
      s.setResult k ((s.results k).setConsumer .whenAny) (s.results k).producing (.swap k)
  | .swap k =>
      let m := (s.results k).toMemory
      if m.state.processStatus = .idle then
        s.setResult k ((m.access true).setStatus .consumerSet) (s.results k).producing
          (.loop n (k + 1))
      else
        -- the producer was first, and the loop goes on as if it were still at work
        s.setResult k m.assertDone (s.results k).producing (.loop n (k + 1))
  | .inlineLoad k =>
      { s with
        coroutine := if s.context = .processing then .inlineSwap k else .resumed
        faulted := s.faulted || s.context = .doneProcessing }
  | .inlineSwap k =>
      { s with
        context := if s.context = .processing then .completed k else s.context
        coroutine := .resumed }
  | .finish =>
      if s.context = .processing then
        { s with context := .doneProcessing, coroutine := .suspended }
      else
        { s with
          coroutine := .resumed
          faulted := s.faulted || s.context = .doneProcessing }
  | .suspended => s
  | .resumed => { s with coroutine := .rewinding n 0 s.context none }
  | .rewind k completed index =>
      let m := (s.results k).toMemory
      s.setResult k (m.access true) (s.results k).producing
        (if m.state.processStatus = .consumerSet then .rewindSwap k completed index
        else .rewound n k completed index)
  | .rewindSwap k completed index =>
      let m := (s.results k).toMemory
      if m.state.processStatus = .consumerSet then
        s.setResult k ((m.access true).setStatus .idle) (s.results k).producing
          (.clear k completed index)
      else s.setResult k m.assertDone (s.results k).producing (.rewound n k completed index)
  | .clear k completed index =>
      let m := (s.results k).access true
      s.setResult k { m with state := { m.state with consumer := .idle } }
        (s.results k).producing (.rewound n k completed index)
  | .returned _ => s

/-- The next step of `complete_consumer` for the `k`-th result, when the coroutine has given the
results back. -/
def stepOwner (s : Selection ε τ) (k : ℕ) : Selection ε τ :=
  let m := (s.results k).toMemory
  let set m owning :=
    { s with results := Function.update s.results k ⟨m, (s.results k).producing, owning⟩ }
  match s.coroutine, (s.results k).owning with
  | .returned _, .holds =>
      set ((m.access (m.state.processStatus = .idle ∨
          m.state.processStatus = .producerDone)).setStatus .consumerDone)
        (if m.state.processStatus = .producerDone then .delete else .gone)
  | .returned _, .delete => set m.delete .gone
  | _, _ => s

end Selection

/-- A `when_any` over `n` results under any interleaving. -/
def selecting (ε τ : Type*) (n : ℕ) : Machine (Selection ε τ) (SelectOp ε τ) Unit where
  step s
    | .produce k outcome => (if k < n then s.stepProducer k outcome else s, ())
    | .select => (s.stepCoroutine n, ())
    | .destroy k => (if k < n then s.stepOwner k else s, ())

/-- How often the coroutine has come to `await_resume`, after one more step. -/
def Selection.resumptions {ε τ : Type*} (n : ℕ) (s : Selection ε τ) (count : ℕ)
    (op : SelectOp ε τ) : ℕ :=
  if s.coroutine ≠ .resumed ∧ ((selecting ε τ n).step s op).1.coroutine = .resumed then count + 1
  else count

/-- The results whose producers were missed, and those deleted while their producer was about to
read the context. -/
structure Mishaps where
  missed : List ℕ
  early : List ℕ
  deriving DecidableEq, Repr

def Mishaps.note {ε τ : Type*} (s : Selection ε τ) (r : Mishaps) : SelectOp ε τ → Mishaps
  | .select =>
      match s.coroutine with
      | .swap k =>
          if (s.results k).state.processStatus = .producerDone then
            { r with missed := k :: r.missed }
          else r
      | _ => r
  | .destroy k =>
      if (s.results k).owning = .delete ∧ (s.results k).producing = .complete .resume then
        { r with early := k :: r.early }
      else r
  | .produce _ _ => r

end Plain.Concurrency
