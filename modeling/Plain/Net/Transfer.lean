import Plain.Foundation.Machine
import Plain.Net.Framing

/-! # Moving bytes between a stream and its socket

A push copies the front of the output stream, offers it to the socket again and again,
and removes from the stream what the socket has taken. A pull appends what the socket
delivers. The socket decides how much is taken or delivered, and may fail at any time.
-/

namespace Plain.Net

def kSocketError : ℤ := -1

/-- What `socket->send` answers to an offer: some of the bytes are taken, perhaps none. -/
inductive SendResult (requested : ℕ) where
  | wouldBlock
  | error
  | accepted (n : Fin (requested + 1))
  deriving DecidableEq, Repr

abbrev Sends := ℕ → (requested : ℕ) → SendResult requested

/-- What a push returns, and the bytes that the socket has taken in it. -/
structure Pushed where
  result : ℤ
  buffer : Stream
  accepted : List Byte
  deriving DecidableEq, Repr

/-- The loop over the offers, of which `left` are left. -/
def sendLoop (bytes : List Byte) : (left : ℕ) → Sends → Pushed → ℕ → Pushed
  | 0, _, p, realSendSize => { p with result := realSendSize }
  | left + 1, answer, p, realSendSize =>
      if realSendSize ≥ bytes.length then { p with result := realSendSize }
      else
        let temp := bytes.drop realSendSize
        match answer 0 temp.length with
        | .wouldBlock => { p with result := realSendSize }
        | .error => { p with result := kSocketError - 1 }
        | .accepted n =>
            if n = 0 then { p with result := realSendSize }
            else
              sendLoop bytes left (fun i => answer (i + 1))
                { p with
                  buffer := p.buffer.remove n
                  accepted := p.accepted ++ temp.take n }
                (realSendSize + n)

/-- A push of at most `onceMax` bytes. There is no socket if it is gone or invalid. -/
def pushOnce (onceMax : ℕ) (socket : Option Sends) (buffer : Stream) : Pushed :=
  match socket with
  | none => ⟨0, buffer, []⟩
  | some answer =>
      if buffer.size = 0 then ⟨0, buffer, []⟩
      else sendLoop (buffer.peek (min buffer.size onceMax)) 99 answer ⟨0, buffer, []⟩ 0

def push : Option Sends → Stream → Pushed := pushOnce (1024 * 1024)

def pushAwait : Option Sends → Stream → Pushed := pushOnce 1024

/-- What `socket->recv` delivers. No bytes at all are the end of the connection. -/
inductive RecvResult where
  | wouldBlock
  | error
  | received (bytes : List Byte) (h : bytes.length < 2 ^ 31)
  deriving DecidableEq, Repr

def RecvResult.bytes : RecvResult → List Byte
  | .wouldBlock | .error => []
  | .received bytes _ => bytes

/-- The result and the stream after it. An ideal stream stores all that is written to it. -/
def pull (socket : Option RecvResult) (buffer : Stream) : ℤ × Stream :=
  match socket with
  | none => (0, buffer)
  | some .wouldBlock => (0, buffer)
  | some .error => (kSocketError - 1, buffer)
  | some (.received bytes _) =>
      if bytes.length = 0 then (kSocketError - 2, buffer) else (bytes.length, buffer ++ bytes)

/-- It differs from `pull` in how much it asks for. -/
def pullAwait : Option RecvResult → Stream → ℤ × Stream := pull

section Push

variable {bytes : List Byte} {realSendSize : ℕ} {p : Pushed}

/-- A push in progress: what was taken is the front of the copy, and the rest of the copy is
still in front of the stream. -/
structure Pushing (bytes : List Byte) (p : Pushed) (realSendSize : ℕ) : Prop where
  size : p.accepted.length = realSendSize
  le : realSendSize ≤ bytes.length
  rest : bytes.drop realSendSize <+: p.buffer

theorem Pushing.accept (h : Pushing bytes p realSendSize) {n : ℕ}
    (hn : n ≤ (bytes.drop realSendSize).length) :
    Pushing bytes { p with
      buffer := p.buffer.remove n
      accepted := p.accepted ++ (bytes.drop realSendSize).take n } (realSendSize + n) ∧
    p.accepted ++ (bytes.drop realSendSize).take n ++ p.buffer.remove n =
      p.accepted ++ p.buffer := by
  obtain ⟨tail, htail⟩ := h.rest
  have hle := h.le
  rw [List.length_drop] at hn
  constructor
  · constructor
    · simp only [List.length_append, List.length_take, List.length_drop, h.size]
      omega
    · omega
    · rw [Stream.remove, ← htail, List.drop_append_of_le_length (by simpa using hn),
        List.drop_drop]
      exact List.prefix_append _ _
  · rw [Stream.remove, List.append_assoc, ← htail,
      List.drop_append_of_le_length (by simpa using hn), ← List.append_assoc (List.take n _),
      List.take_append_drop]

/-- The loop loses no byte and invents none, and returns how many were taken or the error. -/
theorem sendLoop_spec (left : ℕ) (answer : Sends) (h : Pushing bytes p realSendSize) :
    let r := sendLoop bytes left answer p realSendSize
    r.accepted ++ r.buffer = p.accepted ++ p.buffer ∧
      (r.result = r.accepted.length ∨ r.result = kSocketError - 1) ∧
      r.accepted.length ≤ bytes.length := by
  induction left generalizing answer p realSendSize with
  | zero => exact ⟨rfl, Or.inl (by simp [sendLoop, h.size]), h.size ▸ h.le⟩
  | succ left ih =>
    have hstop : ((realSendSize : ℕ) : ℤ) = p.accepted.length := by rw [h.size]
    have hle : p.accepted.length ≤ bytes.length := h.size ▸ h.le
    unfold sendLoop
    split
    · exact ⟨rfl, Or.inl hstop, hle⟩
    dsimp only
    cases answer 0 (bytes.drop realSendSize).length with
    | wouldBlock => exact ⟨rfl, Or.inl hstop, hle⟩
    | error => exact ⟨rfl, Or.inr rfl, hle⟩
    | accepted n =>
      dsimp only
      split
      · exact ⟨rfl, Or.inl hstop, hle⟩
      obtain ⟨hnext, hkeep⟩ := h.accept (Nat.le_of_lt_succ n.isLt)
      obtain ⟨hbytes, hresult⟩ := ih (fun i => answer (i + 1)) hnext
      exact ⟨hbytes.trans hkeep, hresult⟩

theorem pushOnce_spec (onceMax : ℕ) (socket : Option Sends) (buffer : Stream) :
    let r := pushOnce onceMax socket buffer
    r.accepted ++ r.buffer = buffer ∧
      (r.result = r.accepted.length ∨ r.result = kSocketError - 1) ∧
      r.accepted.length ≤ onceMax := by
  cases socket with
  | none => exact ⟨rfl, Or.inl rfl, Nat.zero_le _⟩
  | some answer =>
    unfold pushOnce
    dsimp only
    split
    · exact ⟨rfl, Or.inl rfl, Nat.zero_le _⟩
    · have hcopy : Pushing (buffer.peek (min buffer.size onceMax)) ⟨0, buffer, []⟩ 0 :=
        ⟨rfl, Nat.zero_le _, List.take_prefix _ _⟩
      obtain ⟨hbytes, hresult, hle⟩ := sendLoop_spec 99 answer hcopy
      refine ⟨hbytes, hresult, hle.trans ?_⟩
      rw [Stream.peek, List.length_take]
      omega

end Push

/-- A call of `write`, or of `push` with what the socket answers in it. -/
inductive StreamOp where
  | write (bytes : List Byte)
  | push (socket : Option Sends)

/-- What was written, or what a push returned and the socket took in it. -/
inductive StreamEvent where
  | wrote (bytes : List Byte)
  | pushed (result : ℤ) (accepted : List Byte)

def outputStream : Machine Stream StreamOp StreamEvent where
  step buffer
    | .write bytes => (buffer ++ bytes, .wrote bytes)
    | .push socket =>
        let p := push socket buffer
        (p.buffer, .pushed p.result p.accepted)

namespace StreamEvent

def written : StreamEvent → List Byte
  | wrote bytes => bytes
  | pushed _ _ => []

def accepted : StreamEvent → List Byte
  | wrote _ => []
  | pushed _ bytes => bytes

/-- A push returns the number of bytes that the socket took, unless it reports an error. -/
def CountsAccepted : StreamEvent → Prop
  | wrote _ => True
  | pushed result bytes => 0 ≤ result → result = bytes.length

end StreamEvent

open StreamEvent

theorem outputStream_step (buffer : Stream) (op : StreamOp) :
    let r := outputStream.step buffer op
    r.2.accepted ++ r.1 = buffer ++ r.2.written ∧ r.2.CountsAccepted := by
  cases op with
  | write bytes => exact ⟨rfl, trivial⟩
  | push socket =>
    obtain ⟨hbytes, hresult, -⟩ := pushOnce_spec (1024 * 1024) socket buffer
    constructor
    · exact hbytes.trans (List.append_nil buffer).symm
    · intro hpos
      refine hresult.resolve_right fun herror => ?_
      rw [show (push socket buffer).result = kSocketError - 1 from herror] at hpos
      exact absurd hpos (by decide)

theorem outputStream_run (ops : List StreamOp) (buffer : Stream) :
    let r := outputStream.run buffer ops
    r.2.flatMap accepted ++ r.1 = buffer ++ r.2.flatMap written ∧
      ∀ event ∈ r.2, event.CountsAccepted := by
  induction ops generalizing buffer with
  | nil => simp
  | cons op ops ih =>
    obtain ⟨hstep, hcount⟩ := outputStream_step buffer op
    obtain ⟨hrun, hcounts⟩ := ih (outputStream.step buffer op).1
    constructor
    · simp only [Machine.run_cons, List.flatMap_cons]
      rw [List.append_assoc, hrun, ← List.append_assoc, hstep, List.append_assoc]
    · rw [Machine.run_cons, List.forall_mem_cons]
      exact ⟨hcount, hcounts⟩

/-- In every run of writes and pushes on a new stream, whatever the socket answers, the bytes
it took followed by those in the stream are the bytes written, and every push without an
error returns how many were taken in it. -/
theorem output_conserved (ops : List StreamOp) :
    let r := outputStream.run [] ops
    r.2.flatMap accepted ++ r.1 = r.2.flatMap written ∧
      ∀ event ∈ r.2, event.CountsAccepted :=
  outputStream_run ops []

/-- Two of three bytes are taken before the socket fails, and the third later. -/
example :
    outputStream.run [] [.write [1, 2, 3],
      .push (some fun i n => if i = 0 then .accepted (.ofNat (n + 1) 2) else .error),
      .push (some fun _ n => .accepted (.last n))] =
    ([], [.wrote [1, 2, 3], .pushed (-2) [1, 2], .pushed 1 [3]]) := by rfl

end Plain.Net
