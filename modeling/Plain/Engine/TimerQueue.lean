import Plain.Foundation.Machine
import Plain.Foundation.Ordered
import Mathlib.Algebra.Group.Int.Defs
import Mathlib.Algebra.Group.Nat.Defs
import Mathlib.Data.Int.Order.Basic
import Mathlib.Logic.Function.Basic

/-! # The timer queue

Timers are made and cancelled by any thread, which only leaves a request under the lock. One
worker thread takes the requests, keeps the timers in the order of their deadlines and fires those
that are due; it ends when it has had nothing to do for some time, and the next timer starts
another one. The threads interleave arbitrarily, and the clock reads whatever it reads. What is
done under the lock is one step; an object that only one thread reaches is stepped with the access
behind it.
-/

namespace Plain.Engine

/-- `make_deadline`: times are nanoseconds in 64 bits, and what does not fit wraps around. -/
def makeDeadline (time milliseconds : ℤ) : ℤ := (time + 1000000 * milliseconds).bmod (2 ^ 64)

structure TimerState where
  frequency : ℤ
  deadline : ℤ
  cancelled : Bool
  isOneshot : Bool
  deriving DecidableEq, Repr

inductive TimerRequest where
  | add
  | remove
  deriving DecidableEq, Repr

/-- The timers of the worker in the order of their deadlines, and the keys of the map to their
places. Timers go by their numbers. -/
structure TimerQueueInternal where
  timers : List ℕ
  iteratorMapper : List ℕ
  deriving DecidableEq, Repr

namespace TimerQueueInternal

/-- `add_timer_internal`. That a timer is there already is ruled out by an assertion. -/
def addTimer (states : ℕ → TimerState) (q : TimerQueueInternal) (k : ℕ) :
    Option TimerQueueInternal :=
  if k ∈ q.iteratorMapper then none
  else some ⟨insertBy (fun k => (states k).deadline) k q.timers, k :: q.iteratorMapper⟩

/-- `remove_timer_internal`. Only a timer that ends on its own may be missing, and the place of
one in the map has to be there. -/
def removeTimer (states : ℕ → TimerState) (q : TimerQueueInternal) (k : ℕ) :
    Option TimerQueueInternal :=
  if k ∈ q.iteratorMapper then
    if k ∈ q.timers then some ⟨q.timers.erase k, q.iteratorMapper.erase k⟩ else none
  else if (states k).isOneshot || (states k).cancelled then some q
  else none

def request (states : ℕ → TimerState) (q : TimerQueueInternal) (k : ℕ) :
    TimerRequest → Option TimerQueueInternal
  | .add => q.addTimer states k
  | .remove => q.removeTimer states k

end TimerQueueInternal

/-- What the worker does next: take the lock, wake up from the wait, work off requests, read the
clock, look at the first timer in a pass that began `now`, look whether the timer it took out is
cancelled, or fire it. -/
inductive Working where
  | absent
  | lock
  | waiting
  | requests (todo : List (ℕ × TimerRequest))
  | clock
  | pass (now : ℤ)
  | extracted (now : ℤ) (k : ℕ)
  | firing (now : ℤ) (k : ℕ)
  deriving DecidableEq, Repr

/-- What the call of `shutdown` that is not turned away does next. -/
inductive Closing where
  | idle
  | lock
  | notify
  | join
  | done
  deriving DecidableEq, Repr

/-- The queue with all timers made so far, the worker, and the threads that are about to notify
it, to ask for the removal of a timer, to execute what was posted, or to call what they have found
not to be cancelled. -/
structure TimerQueue where
  states : ℕ → TimerState
  size : ℕ
  requestQueue : List (ℕ × TimerRequest)
  idle : Bool
  abort : Bool
  joinable : Bool
  internal : TimerQueueInternal
  nextDeadline : ℤ
  working : Working
  notified : Bool
  notifying : ℕ
  removing : List ℕ
  posted : List ℕ
  calling : List ℕ
  closing : Closing
  failed : Bool

/-- A call of `make_timer`; a notification; the two steps of `Timer::cancel`; a call of
`set_frequency`; the next step of the worker, where a wait may be over and an executor be shut
down; the two steps of an executor that comes to what was posted to it, which tests whether the
timer is cancelled and then calls it; the next step of `shutdown`. -/
inductive TimerOp where
  | makeTimer (dueTime frequency : ℤ) (isOneshot : Bool) (now : ℤ)
  | notify
  | cancel (k : ℕ)
  | remove (k : ℕ)
  | setFrequency (k : ℕ) (frequency : ℤ)
  | work (now : ℤ) (timeout shutdownRequested : Bool)
  | execute (k : ℕ)
  | call (k : ℕ)
  | shutdown
  deriving DecidableEq, Repr

namespace TimerQueue

def new : TimerQueue :=
  ⟨fun _ => ⟨0, 0, false, false⟩, 0, [], true, false, false, ⟨[], []⟩, 0, .absent, false, 0, [], [],
    [], .idle, false⟩

def setState (s : TimerQueue) (k : ℕ) (t : TimerState) : TimerQueue :=
  { s with states := Function.update s.states k t }

def ready (s : TimerQueue) : Bool := !s.requestQueue.isEmpty || s.abort

/-- The worker has left the wait and still has the lock. Its timers go with it. -/
def proceed (s : TimerQueue) : TimerQueue :=
  if s.abort then { s with internal := ⟨[], []⟩, working := .absent }
  else { s with requestQueue := [], working := .requests s.requestQueue }

def wake (s : TimerQueue) (timeout : Bool) : TimerQueue :=
  if s.ready then s.proceed
  else if timeout then
    if s.internal.timers.isEmpty then
      -- the thread ends, and the next timer that is made starts another one
      { s with idle := true, internal := ⟨[], []⟩, working := .absent }
    else s.proceed
  else { s with notified := false }

def look (s : TimerQueue) (now : ℤ) : TimerQueue :=
  match s.internal.timers with
  | [] =>
      if s.internal.iteratorMapper = [] then
        { s with nextDeadline := makeDeadline now (24 * 60 * 60 * 1000), working := .lock }
      else { s with failed := true }
  | k :: timers =>
      if (s.states k).deadline ≤ now then
        { s with internal := ⟨timers, s.internal.iteratorMapper⟩, working := .extracted now k }
      else { s with nextDeadline := (s.states k).deadline, working := .lock }

def drop (s : TimerQueue) (now : ℤ) (k : ℕ) : TimerQueue :=
  { s with
    internal := ⟨s.internal.timers, s.internal.iteratorMapper.erase k⟩, working := .pass now }

def putBack (s : TimerQueue) (now : ℤ) (k : ℕ) : TimerQueue :=
  { s with
    internal :=
      ⟨insertBy (fun k => (s.states k).deadline) k s.internal.timers, s.internal.iteratorMapper⟩
    working := .pass now }

def fire (s : TimerQueue) (k : ℕ) (time : ℤ) (shutdownRequested : Bool) : TimerQueue :=
  { s.setState k { s.states k with deadline := makeDeadline time (s.states k).frequency } with
    posted := if shutdownRequested then s.posted else k :: s.posted }

def work (s : TimerQueue) (time : ℤ) (timeout shutdownRequested : Bool) : TimerQueue :=
  match s.working with
  | .absent => s
  | .lock =>
      -- an assertion: the map has as many keys as there are timers
      if s.internal.iteratorMapper.length ≠ s.internal.timers.length then { s with failed := true }
      else if s.ready then s.proceed
      else { s with notified := false, working := .waiting }
  | .waiting => s.wake timeout
  | .requests [] => { s with working := .clock }
  | .requests ((k, request) :: todo) =>
      match s.internal.request s.states k request with
      | none => { s with failed := true }
      | some internal => { s with internal := internal, working := .requests todo }
  | .clock => { s with working := .pass time }
  | .pass now => s.look now
  | .extracted now k =>
      if (s.states k).cancelled then s.drop now k else { s with working := .firing now k }
  | .firing now k =>
      let s' := s.fire k time shutdownRequested
      if (s.states k).isOneshot then s'.drop now k
      else if k ∈ s.internal.iteratorMapper then s'.putBack now k
      else { s with failed := true }

/-- `add_timer` of a new timer, with `ensure_worker_thread`; `none` after a shutdown. -/
def makeTimer (s : TimerQueue) (dueTime frequency : ℤ) (isOneshot : Bool) (now : ℤ) :
    Option TimerQueue :=
  if s.abort then none
  else
    some { s.setState s.size ⟨frequency, makeDeadline now dueTime, false, isOneshot⟩ with
      size := s.size + 1
      requestQueue := s.requestQueue ++ [(s.size, .add)]
      idle := false
      joinable := s.joinable || s.idle
      working := if s.idle then .lock else s.working
      notifying := s.notifying + 1 }

/-- A notification reaches the worker only in its wait. -/
def notify (s : TimerQueue) : TimerQueue :=
  { s with notified := if s.working = .waiting then true else s.notified }

/-- A `Timer` lets go of its state when it is cancelled, so that this happens once. -/
def cancel (s : TimerQueue) (k : ℕ) : TimerQueue :=
  if k < s.size ∧ (s.states k).cancelled = false then
    { s.setState k { s.states k with cancelled := true } with removing := k :: s.removing }
  else s

def remove (s : TimerQueue) (k : ℕ) : TimerQueue :=
  if k ∈ s.removing then
    { s with
      requestQueue := s.requestQueue ++ [(k, .remove)]
      removing := s.removing.erase k
      notifying := s.notifying + 1 }
  else s

def execute (s : TimerQueue) (k : ℕ) : TimerQueue :=
  if k ∈ s.posted then
    { s with
      posted := s.posted.erase k
      calling := if (s.states k).cancelled then s.calling else k :: s.calling }
  else s

def shutdown (s : TimerQueue) : TimerQueue :=
  match s.closing with
  | .idle => { s with closing := .lock }
  | .lock =>
      if s.joinable then { s with abort := true, requestQueue := [], closing := .notify }
      else { s with abort := true, closing := .done }
  | .notify => { s.notify with closing := .join }
  | .join =>
      match s.working with
      | .absent => { s with joinable := false, closing := .done }
      | _ => s
  | .done => s

end TimerQueue

/-- The timer queue under any interleaving. The answer to a call is whether it has not thrown. -/
def timerQueue : Machine TimerQueue TimerOp Bool where
  step s
    | .makeTimer dueTime frequency isOneshot now =>
        match s.makeTimer dueTime frequency isOneshot now with
        | none => (s, false)
        | some s' => (s', true)
    | .notify =>
        match s.notifying with
        | 0 => (s, true)
        | n + 1 => ({ s.notify with notifying := n }, true)
    | .cancel k => (s.cancel k, true)
    | .remove k => (s.remove k, true)
    | .setFrequency k frequency =>
        (if k < s.size then s.setState k { s.states k with frequency := frequency } else s, true)
    | .work now timeout shutdownRequested => (s.work now timeout shutdownRequested, true)
    | .execute k => (s.execute k, true)
    | .call k => ({ s with calling := s.calling.erase k }, true)
    | .shutdown => (s.shutdown, true)

end Plain.Engine
