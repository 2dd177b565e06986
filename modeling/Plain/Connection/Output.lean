import Plain.Connection.WorkFlag
import Plain.Foundation.Machine
import Plain.Net.Framing

/-! # Sending in the background

A sender puts a packet into the output stream, raises the output flag, and queues a task
if the flag was clear. A task pushes what it can and clears the flag when it finds the
stream empty. Finding it empty and clearing the flag are two steps, between which a sender
may rely on the flag.
-/

namespace Plain.Connection

open Net

inductive Sender where
  | write (packet : Packet)
  | exchange
  | enqueue
  | finished
  deriving DecidableEq, Repr

/-- What a task does next. A task that is queued begins with its test of the flag. -/
inductive Task where
  | test
  | push
  | size
  | clear
  | idle
  | enqueue
  deriving DecidableEq, Repr

/-- What senders and tasks share, and how far each of them is. A sender that has returned
stays in its list, a task that has ended does not. -/
structure Outbox where
  ostream : Stream
  workFlags : BitVec 8
  senders : List Sender
  tasks : List Task
  deriving DecidableEq, Repr

namespace Outbox

def new : Outbox := ⟨[], 0, [], []⟩

section Steps

variable (encode : Packet → List Byte)

def stepSender (s : Outbox) (k : ℕ) : Outbox :=
  match s.senders[k]? with
  | some (.write packet) =>
      let bytes := encode packet
      if bytes = [] then { s with senders := s.senders.set k .finished }
      else { s with ostream := s.ostream ++ bytes, senders := s.senders.set k .exchange }
  | some .exchange =>
      let r := exchangeWorkFlag s.workFlags .output true
      { s with
        workFlags := r.2
        senders := s.senders.set k (if r.1 then .finished else .enqueue) }
  | some .enqueue =>
      { s with tasks := s.tasks ++ [.test], senders := s.senders.set k .finished }
  | some .finished | none => s

/-- The next step of a task, with the number of bytes the socket takes. -/
def stepTask (s : Outbox) (k sent : ℕ) : Outbox :=
  match s.tasks[k]? with
  | some .test =>
      let next := if hasWorkFlag s.workFlags .output then .push else .idle
      { s with tasks := s.tasks.set k next }
  | some .push => { s with ostream := s.ostream.remove sent, tasks := s.tasks.set k .size }
  | some .size =>
      -- what is written behind this look is there when the flag is cleared
      { s with tasks := s.tasks.set k (if s.ostream.size = 0 then .clear else .idle) }
  | some .clear =>
      { s with
        workFlags := setWorkFlag s.workFlags .output false
        tasks := s.tasks.set k .idle }
  | some .idle =>
      if s.workFlags = 0 then { s with tasks := s.tasks.eraseIdx k }
      else { s with tasks := s.tasks.set k .enqueue }
  | some .enqueue => { s with tasks := s.tasks.set k .test }
  | none => s

end Steps

/-- Data is left, and nobody is going to send it. -/
def Lost (s : Outbox) : Prop :=
  s.ostream ≠ [] ∧ (∀ sender ∈ s.senders, sender = .finished) ∧ s.tasks = []

instance (s : Outbox) : Decidable s.Lost := inferInstanceAs (Decidable (_ ∧ _ ∧ _))

end Outbox

/-- A new sender, a step of a sender or of a task, and what is done to the other flags. -/
inductive OutputOp where
  | send (packet : Packet)
  | sender (k : ℕ)
  | task (k sent : ℕ)
  | flag (flag : WorkFlag) (other : flag ≠ .output) (enable : Bool)

def outputMachine (encode : Packet → List Byte) : Machine Outbox OutputOp Unit where
  step s
    | .send packet => ({ s with senders := s.senders ++ [.write packet] }, ())
    | .sender k => (s.stepSender encode k, ())
    | .task k sent => (s.stepTask k sent, ())
    | .flag flag _ enable => ({ s with workFlags := setWorkFlag s.workFlags flag enable }, ())

/-- The flag is cleared only while the stream is empty, or while a sender that has written
is about to raise it again. -/
def ClearsSafely (s : Outbox) : OutputOp → Prop
  | .task k _ => s.tasks[k]? = some .clear → s.ostream = [] ∨ .exchange ∈ s.senders
  | .send _ | .sender _ | .flag _ _ _ => True

instance (s : Outbox) : ∀ op, Decidable (ClearsSafely s op)
  | .task k _ =>
      inferInstanceAs (Decidable (s.tasks[k]? = some .clear → s.ostream = [] ∨ _ ∈ s.senders))
  | .send _ | .sender _ | .flag _ _ _ => .isTrue trivial

namespace Outbox

/-- A raised flag has a task, or a sender about to queue one; data has a raised flag, or a
sender about to raise it. -/
structure Wakeful (s : Outbox) : Prop where
  woken : hasWorkFlag s.workFlags .output = true → s.tasks ≠ [] ∨ .enqueue ∈ s.senders
  flagged : s.ostream ≠ [] → hasWorkFlag s.workFlags .output = true ∨ .exchange ∈ s.senders

theorem Wakeful.not_lost {s : Outbox} (h : s.Wakeful) : ¬ s.Lost := by
  rintro ⟨hdata, hsenders, htasks⟩
  rcases h.flagged hdata with hflag | hsender
  · rcases h.woken hflag with htask | hsender
    · exact htask htasks
    · cases hsenders _ hsender
  · cases hsenders _ hsender

section Keep

variable {encode : Packet → List Byte} {s : Outbox} {k : ℕ}

theorem mem_set_of_ne {α : Type*} {l : List α} {x y z : α} (hk : l[k]? = some x) (hz : z ∈ l)
    (hne : z ≠ x) : z ∈ l.set k y := by
  obtain ⟨j, hj⟩ := List.mem_iff_getElem?.mp hz
  have hjk : k ≠ j := by
    rintro rfl
    exact hne (Option.some.inj (hj.symm.trans hk))
  exact List.mem_iff_getElem?.mpr ⟨j, by rw [List.getElem?_set_ne hjk, hj]⟩

theorem mem_set_self {α : Type*} {l : List α} {x : α} (y : α) (hk : l[k]? = some x) :
    y ∈ l.set k y :=
  List.mem_set (List.getElem?_eq_some_iff.mp hk).1 y

theorem Wakeful.woken_set {x y : Sender} (h : s.Wakeful) (hk : s.senders[k]? = some x)
    (hx : .enqueue ≠ x) (hflag : hasWorkFlag s.workFlags .output = true) :
    s.tasks ≠ [] ∨ .enqueue ∈ s.senders.set k y :=
  (h.woken hflag).imp_right fun hm => mem_set_of_ne hk hm hx

theorem Wakeful.flagged_set {x y : Sender} (h : s.Wakeful) (hk : s.senders[k]? = some x)
    (hx : .exchange ≠ x) (hdata : s.ostream ≠ []) :
    hasWorkFlag s.workFlags .output = true ∨ .exchange ∈ s.senders.set k y :=
  (h.flagged hdata).imp_right fun hm => mem_set_of_ne hk hm hx

theorem Wakeful.stepSender (h : s.Wakeful) : (s.stepSender encode k).Wakeful := by
  rw [Outbox.stepSender]
  cases hk : s.senders[k]? with
  | none => exact h
  | some sender =>
    cases sender with
    | write packet =>
      by_cases hbytes : encode packet = []
      · simp only [if_pos hbytes]
        exact ⟨h.woken_set hk Sender.noConfusion, h.flagged_set hk Sender.noConfusion⟩
      · simp only [if_neg hbytes]
        exact ⟨h.woken_set hk Sender.noConfusion, fun _ => .inr (mem_set_self _ hk)⟩
    | exchange =>
      cases hflag : hasWorkFlag s.workFlags .output with
      | true =>
        simp only [exchangeWorkFlag, hflag, if_true]
        exact ⟨h.woken_set hk Sender.noConfusion, fun _ => .inl hflag⟩
      | false =>
        simp only [exchangeWorkFlag, hflag, Bool.false_eq_true, if_false]
        exact ⟨fun _ => .inr (mem_set_self _ hk), fun _ => .inl (hasWorkFlag_set _ _ _)⟩
    | enqueue =>
      exact ⟨fun _ => .inl (List.append_ne_nil_of_right_ne_nil _ (List.cons_ne_nil _ _)),
        h.flagged_set hk Sender.noConfusion⟩
    | finished => exact h

theorem Wakeful.woken_task {y : Task} (h : s.Wakeful)
    (hflag : hasWorkFlag s.workFlags .output = true) :
    s.tasks.set k y ≠ [] ∨ .enqueue ∈ s.senders :=
  (h.woken hflag).imp_left fun hne => by simpa using hne

theorem Wakeful.stepTask {sent : ℕ} (h : s.Wakeful) (hs : ClearsSafely s (.task k sent)) :
    (s.stepTask k sent).Wakeful := by
  rw [Outbox.stepTask]
  cases hk : s.tasks[k]? with
  | none => exact h
  | some task =>
    cases task with
    | test => exact ⟨h.woken_task, h.flagged⟩
    | push =>
      refine ⟨h.woken_task, fun hdata => h.flagged ?_⟩
      rintro hnil
      exact hdata (by simp [Stream.remove, hnil])
    | size => exact ⟨h.woken_task, h.flagged⟩
    | clear =>
      constructor
      · intro hflag
        rw [hasWorkFlag_set] at hflag
        cases hflag
      · intro hdata
        exact .inr ((hs hk).resolve_left hdata)
    | idle =>
      by_cases hflags : s.workFlags = 0
      · simp only [if_pos hflags]
        refine ⟨fun hflag => ?_, h.flagged⟩
        rw [hflags] at hflag
        cases hflag
      · simp only [if_neg hflags]
        exact ⟨h.woken_task, h.flagged⟩
    | enqueue => exact ⟨h.woken_task, h.flagged⟩

/-- A step that clears the flag safely, if at all, loses nothing. -/
theorem Wakeful.step (op : OutputOp) (h : s.Wakeful) (hs : ClearsSafely s op) :
    ((outputMachine encode).step s op).1.Wakeful := by
  cases op with
  | send packet =>
    constructor
    · exact fun hflag => (h.woken hflag).imp_right fun hm => List.mem_append_left _ hm
    · exact fun hdata => (h.flagged hdata).imp_right fun hm => List.mem_append_left _ hm
  | sender k => exact h.stepSender
  | task k sent => exact h.stepTask hs
  | flag flag other enable =>
    have hkeep := hasWorkFlag_set_ne s.workFlags .output other enable
    constructor
    · exact fun hflag => h.woken (hkeep ▸ hflag)
    · exact fun hdata => (h.flagged hdata).imp_left fun hflag => hkeep.trans hflag

theorem wakeful_new : new.Wakeful := ⟨fun h => absurd h (by decide), fun h => absurd rfl h⟩

end Keep

/-- No interleaving of senders and tasks leaves data behind if the flag is always cleared
safely. -/
theorem run_not_lost {encode : Packet → List Byte} {ops : List OutputOp}
    (h : (outputMachine encode).Along ClearsSafely .new ops) :
    ¬ ((outputMachine encode).run .new ops).1.Lost :=
  ((outputMachine encode).run_invariant (fun _ op hw hs => hw.step op hs) wakeful_new h).not_lost

/-- One packet is written, and a task runs until the stream has been found empty. -/
def untilEmpty : List OutputOp :=
  [.send ⟨7, [1, 2], 0, 0⟩, .sender 0, .sender 0, .sender 0, .task 0 0, .task 0 8, .task 0 0]

/-- Nothing is lost when the next packet is written after the flag has been cleared. -/
theorem run_not_lost_cleared :
    ¬ ((outputMachine (encode .little)).run .new (untilEmpty ++
      [.task 0 0, .send ⟨8, [3], 0, 0⟩, .sender 1, .sender 1, .sender 1, .task 0 0])).1.Lost :=
  run_not_lost (by decide)

/-- A packet that is written before the flag is cleared is lost if its sender has found the
flag raised. -/
theorem run_lost_between :
    ((outputMachine (encode .little)).run .new (untilEmpty ++
      [.send ⟨8, [3], 0, 0⟩, .sender 1, .sender 1, .task 0 0, .task 0 0])).1.Lost := by
  decide

end Outbox

end Plain.Connection
