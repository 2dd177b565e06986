import Mathlib.Data.Nat.Notation

/-! # The state of a result

A producer and a consumer share one state. What each of them has done is told by one atomic
status, which both change by exchanges and compare-exchanges. The outcome and the context of the
consumer are plain members. Whoever leaves last deletes the state.
-/

namespace Plain.Concurrency

inductive ProcessStatus where
  | idle
  | consumerSet
  | consumerWaiting
  | consumerDone
  | producerDone
  deriving DecidableEq, Repr

inductive ResultStatus where
  | idle
  | value
  | exception
  deriving DecidableEq, Repr

/-- The status of a `ConsumerContext`, which says what its storage holds. -/
inductive ConsumerStatus where
  | idle
  | await
  | whenAny
  | shared
  deriving DecidableEq, Repr

/-- What a producer leaves: an object of type `τ`, or an exception. -/
inductive Outcome (ε τ : Type*) where
  | object (value : τ)
  | exception (error : ε)
  deriving DecidableEq, Repr

variable {ε τ : Type*}

/-- The status of a `ProducerContext`, which is empty or holds an outcome. -/
def resultStatus : Option (Outcome ε τ) → ResultStatus
  | none => .idle
  | some (.object _) => .value
  | some (.exception _) => .exception

structure State (ε τ : Type*) where
  processStatus : ProcessStatus
  consumer : ConsumerStatus
  producer : Option (Outcome ε τ)
  deriving DecidableEq

def State.new : State ε τ := ⟨.idle, .idle, none⟩

inductive Producer where
  | build
  | exchange
  | resume
  | notify
  | delete
  | finished
  deriving DecidableEq, Repr

namespace Producer

/-- What `complete_producer` does about the status it has found. -/
def next : ProcessStatus → Producer
  | .consumerSet => .resume
  | .idle => .finished
  | .consumerWaiting => .notify
  | .consumerDone => .delete
  | .producerDone => .finished

def published : Producer → Bool
  | .build | .exchange => false
  | .resume | .notify | .delete | .finished => true

end Producer

/-- A state in memory. Memory is deleted once; an access to deleted memory, a failed assertion
and the resumption of a coroutine that is not suspended are faults. -/
structure Memory (ε τ : Type*) where
  state : State ε τ
  deleted : Bool
  faulted : Bool
  deriving DecidableEq

namespace Memory

def new : Memory ε τ := ⟨.new, false, false⟩

def access (m : Memory ε τ) (asserts : Bool) : Memory ε τ :=
  { m with faulted := m.faulted || m.deleted || !asserts }

def setStatus (m : Memory ε τ) (status : ProcessStatus) : Memory ε τ :=
  { m with state := { m.state with processStatus := status } }

def delete (m : Memory ε τ) : Memory ε τ := { m.access true with deleted := true }

/-- `producer_.build_result` and `producer_.build_exception`. -/
def build (m : Memory ε τ) (outcome : Outcome ε τ) : Memory ε τ :=
  let m := m.access m.state.producer.isNone
  { m with state := { m.state with producer := some outcome } }

def completeProducer (m : Memory ε τ) : Memory ε τ :=
  (m.access (m.state.processStatus ≠ .producerDone)).setStatus .producerDone

/-- Entering a kind of consumer into the context, which is to be empty. -/
def setConsumer (m : Memory ε τ) (consumer : ConsumerStatus) : Memory ε τ :=
  let m := m.access (m.state.consumer = .idle)
  { m with state := { m.state with consumer := consumer } }

def assertDone (m : Memory ε τ) : Memory ε τ :=
  m.access (m.state.processStatus = .producerDone)

end Memory

end Plain.Concurrency
