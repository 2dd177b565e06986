import Plain.Connection.WorkFlag
import Plain.Net.Transfer

/-! # Traffic accounting

The manager adds up the bytes that its connections send and receive. The functions that
do the transfers add the result of a push or a pull, on some paths before they look
whether it is an error, and on others not at all. The bytes that the sockets have taken
and delivered are counted beside them.
-/

namespace Plain.Connection

open Net

/-- A connection, the sizes that its manager reports, and what its sockets have taken and
delivered. -/
structure Traffic where
  istream : Stream
  ostream : Stream
  workFlags : BitVec 8
  sendSize : BitVec 64
  recvSize : BitVec 64
  accepted : ℕ
  received : ℕ
  deriving DecidableEq, Repr

namespace Traffic

def new : Traffic := ⟨[], [], 0, 0, 0, 0, 0⟩

/-- `increase_send_size`, with the conversion of its argument to `size_t`. -/
def increaseSendSize (s : Traffic) (size : ℤ) : Traffic :=
  { s with sendSize := s.sendSize + BitVec.ofInt 64 size }

/-- `increase_recv_size`, with the conversion of its argument to `size_t`. -/
def increaseRecvSize (s : Traffic) (size : ℤ) : Traffic :=
  { s with recvSize := s.recvSize + BitVec.ofInt 64 size }

def setFlag (s : Traffic) (flag : WorkFlag) (enable : Bool) : Traffic :=
  { s with workFlags := setWorkFlag s.workFlags flag enable }

/-- The effect of `m->remove(id)`, which calls `on_disconnect`, on the streams. -/
def remove (s : Traffic) : Traffic := { s with istream := [], ostream := [] }

def pulled (s : Traffic) (socket : Option RecvResult) : Traffic :=
  { s with
    istream := (pull socket s.istream).2
    received := s.received + (socket.elim [] RecvResult.bytes).length }

def pushed (s : Traffic) (p : Pushed) : Traffic :=
  { s with ostream := p.buffer, accepted := s.accepted + p.accepted.length }

/-- The input flag is cleared on return if the socket has no more bytes. -/
def checkFlag (s : Traffic) (avail : ℕ) : Traffic :=
  if avail = 0 then s.setFlag .input false else s

/-- `avail` is what the socket has when the function returns. -/
def processInput (s : Traffic) (valid : Bool) (socket : Option RecvResult) (avail : ℕ) :
    Bool × Traffic :=
  if !hasWorkFlag s.workFlags .input then (true, s)
  else if !valid then (false, s.checkFlag avail)
  else
    let r := (pull socket s.istream).1
    let s := s.pulled socket
    if r < 0 then (false, s.checkFlag avail)
    else (true, ((s.increaseRecvSize r).setFlag .command true).checkFlag avail)

def processOutput (s : Traffic) (valid : Bool) (socket : Option Sends) : Bool × Traffic :=
  if !hasWorkFlag s.workFlags .output then (true, s)
  else if !valid then (false, s)
  else
    let p := push socket s.ostream
    let s := s.pushed p
    if p.result < 0 then (false, s)
    else
      let s := if p.result > 0 then s.increaseSendSize p.result else s
      (true, if s.ostream.size = 0 then s.setFlag .output false else s)

/-- An error is counted too. -/
def processInputAwait (s : Traffic) (socket : Option RecvResult) : Traffic :=
  let r := (pullAwait socket s.istream).1
  let s := s.pulled socket
  let s := if r < 0 then s.remove else s
  (s.increaseRecvSize r).setFlag .command true

/-- The loop, for as many rounds as the socket has answered. The last one is not counted. -/
def processOutputAwait : Traffic → List (Option Sends) → Traffic
  | s, [] => s
  | s, socket :: rounds =>
      let p := pushAwait socket s.ostream
      let s := s.pushed p
      if s.ostream.size = 0 then s
      else if p.result < 0 then s.remove
      else processOutputAwait (s.increaseSendSize p.result) rounds

end Traffic

/-- A call of one of the functions with what the sockets answer in it, a write to the output
stream, a read of the input stream, and a change of the flags. -/
inductive TrafficOp where
  | input (valid : Bool) (socket : Option RecvResult) (avail : ℕ)
  | output (valid : Bool) (socket : Option Sends)
  | inputAwait (socket : Option RecvResult)
  | outputAwait (rounds : List (Option Sends))
  | write (bytes : List Byte)
  | read (length : ℕ)
  | flag (flag : WorkFlag) (enable : Bool)

open Traffic

def traffic : Machine Traffic TrafficOp Unit where
  step s
    | .input valid socket avail => ((s.processInput valid socket avail).2, ())
    | .output valid socket => ((s.processOutput valid socket).2, ())
    | .inputAwait socket => (s.processInputAwait socket, ())
    | .outputAwait rounds => (s.processOutputAwait rounds, ())
    | .write bytes => ({ s with ostream := s.ostream ++ bytes }, ())
    | .read length => ({ s with istream := s.istream.remove length }, ())
    | .flag flag enable => (s.setFlag flag enable, ())

/-- The sizes are those of the bytes taken and delivered, as far as 64 bits can tell. -/
def Traffic.Exact (s : Traffic) : Prop :=
  s.sendSize = BitVec.ofNat 64 s.accepted ∧ s.recvSize = BitVec.ofNat 64 s.received

def LastRoundEmpty : Stream → List (Option Sends) → Prop
  | _, [] => True
  | ostream, socket :: rounds =>
      let p := pushAwait socket ostream
      if p.buffer.size = 0 ∨ p.result < 0 then p.accepted = []
      else LastRoundEmpty p.buffer rounds

/-- A push does not fail after the socket has taken bytes in it, an awaited pull does not fail
at all, and no byte is taken in the last round of an awaited output. -/
def Counted (s : Traffic) : TrafficOp → Prop
  | .output valid socket => hasWorkFlag s.workFlags .output = true → valid = true →
      (push socket s.ostream).result < 0 → (push socket s.ostream).accepted = []
  | .inputAwait socket => 0 ≤ (pullAwait socket s.istream).1
  | .outputAwait rounds => LastRoundEmpty s.ostream rounds
  | .input _ _ _ | .write _ | .read _ | .flag _ _ => True

section Count

variable {s : Traffic} {x : BitVec 64} {n m : ℕ}

theorem add_ofInt_natCast (hx : x = BitVec.ofNat 64 n) :
    x + BitVec.ofInt 64 m = BitVec.ofNat 64 (n + m) := by
  rw [hx, BitVec.ofInt_natCast, BitVec.ofNat_add]

theorem uncounted_iff (hx : x = BitVec.ofNat 64 n) (hm : m < 2 ^ 64) :
    x = BitVec.ofNat 64 (n + m) ↔ m = 0 := by
  constructor
  · intro h
    rw [hx, BitVec.ofNat_add] at h
    have hzero : BitVec.ofNat 64 m = 0 := by simpa using h.symm
    have hnat := congrArg BitVec.toNat hzero
    rw [BitVec.toNat_ofNat, Nat.mod_eq_of_lt hm] at hnat
    exact hnat
  · rintro rfl
    exact hx

/-- What a pull returns is what was delivered, or else nothing was delivered and the result
is one of two errors. -/
theorem pull_spec (socket : Option RecvResult) (buffer : Stream) :
    (pull socket buffer).1 = (socket.elim [] RecvResult.bytes).length ∨
      (socket.elim [] RecvResult.bytes).length = 0 ∧
        ((pull socket buffer).1 = -2 ∨ (pull socket buffer).1 = -3) := by
  cases socket with
  | none => exact Or.inl rfl
  | some result =>
    cases result with
    | wouldBlock => exact Or.inl rfl
    | error => exact Or.inr ⟨rfl, Or.inl rfl⟩
    | received bytes h =>
      by_cases hbytes : bytes.length = 0
      · simp [pull, hbytes, RecvResult.bytes, kSocketError]
      · simp [pull, hbytes, RecvResult.bytes]

theorem pushOnce_result {onceMax : ℕ} (hmax : onceMax < 2 ^ 64) (socket : Option Sends)
    (buffer : Stream) :
    let p := pushOnce onceMax socket buffer
    (p.result = p.accepted.length ∨ p.result < 0) ∧ p.accepted.length < 2 ^ 64 := by
  obtain ⟨-, hresult, hle⟩ := pushOnce_spec onceMax socket buffer
  refine ⟨hresult.imp_right fun h => ?_, Nat.lt_of_le_of_lt hle hmax⟩
  exact h ▸ by decide

theorem exact_pushed_iff {p : Pushed} (h : s.Exact) (hp : p.accepted.length < 2 ^ 64) :
    (s.pushed p).Exact ↔ p.accepted = [] := by
  rw [← List.length_eq_zero_iff, ← uncounted_iff h.1 hp]
  exact and_iff_left h.2

theorem exact_increaseSendSize {p : Pushed} (h : s.Exact) (hp : p.result = p.accepted.length) :
    ((s.pushed p).increaseSendSize p.result).Exact := by
  refine ⟨?_, h.2⟩
  rw [hp]
  exact add_ofInt_natCast h.1

theorem exact_processInput (h : s.Exact) (valid : Bool) (socket : Option RecvResult)
    (avail : ℕ) : (s.processInput valid socket avail).2.Exact := by
  have hflag {s : Traffic} (h : s.Exact) : (s.checkFlag avail).Exact := by
    unfold checkFlag
    split <;> exact h
  unfold processInput
  split
  · exact h
  split
  · exact hflag h
  dsimp only
  rcases pull_spec socket s.istream with hcount | ⟨hnone, hneg⟩
  · rw [if_neg (by omega)]
    refine hflag ⟨h.1, ?_⟩
    rw [hcount]
    exact add_ofInt_natCast h.2
  · rw [if_pos (by omega)]
    refine hflag ⟨h.1, ?_⟩
    exact (uncounted_iff h.2 (by omega)).mpr hnone

theorem exact_processOutput_iff (h : s.Exact) (valid : Bool) (socket : Option Sends) :
    (s.processOutput valid socket).2.Exact ↔ Counted s (.output valid socket) := by
  obtain ⟨hresult, hsmall⟩ :=
    pushOnce_result (show 1024 * 1024 < 2 ^ 64 by decide) socket s.ostream
  have hflag {s : Traffic} (h : s.Exact) :
      Exact (if s.ostream.size = 0 then s.setFlag .output false else s) := by
    split <;> exact h
  unfold processOutput
  cases hwork : hasWorkFlag s.workFlags .output with
  | false => simp [Counted, hwork, h]
  | true =>
    cases valid with
    | false => simp [Counted, h]
    | true =>
      simp only [Counted, hwork, Bool.not_true, Bool.false_eq_true, if_false, true_imp_iff]
      by_cases hneg : (push socket s.ostream).result < 0
      · simp only [hneg, if_true, true_imp_iff]
        exact exact_pushed_iff h hsmall
      · have hcount := hresult.resolve_right hneg
        simp only [hneg, if_false, false_imp_iff, iff_true]
        have hsent : Exact (if (push socket s.ostream).result > 0 then
            (s.pushed (push socket s.ostream)).increaseSendSize (push socket s.ostream).result
            else s.pushed (push socket s.ostream)) := by
          split
          · exact exact_increaseSendSize h hcount
          · next hzero =>
            apply (exact_pushed_iff h hsmall).mpr
            apply List.length_eq_zero_iff.mp
            change (push socket s.ostream).result = _ at hcount
            omega
        exact hflag hsent

theorem exact_processInputAwait_iff (h : s.Exact) (socket : Option RecvResult) :
    (s.processInputAwait socket).Exact ↔ Counted s (.inputAwait socket) := by
  have hremove : (s.processInputAwait socket).Exact ↔
      s.recvSize + BitVec.ofInt 64 (pull socket s.istream).1 =
        BitVec.ofNat 64 (s.received + (socket.elim [] RecvResult.bytes).length) := by
    unfold processInputAwait
    dsimp only
    split <;> exact and_iff_right h.1
  rw [hremove]
  change _ ↔ 0 ≤ (pull socket s.istream).1
  rcases pull_spec socket s.istream with hcount | ⟨hnone, hneg⟩
  · rw [hcount]
    exact iff_of_true (add_ofInt_natCast h.2) (Int.natCast_nonneg _)
  · rw [hnone, Nat.add_zero, ← h.2]
    rcases hneg with hneg | hneg
    all_goals
      rw [hneg]
      simp

theorem exact_processOutputAwait_iff (rounds : List (Option Sends)) (h : s.Exact) :
    (s.processOutputAwait rounds).Exact ↔ LastRoundEmpty s.ostream rounds := by
  induction rounds generalizing s with
  | nil => exact iff_of_true h trivial
  | cons socket rounds ih =>
    obtain ⟨hresult, hsmall⟩ := pushOnce_result (show 1024 < 2 ^ 64 by decide) socket s.ostream
    have hpushed := exact_pushed_iff h hsmall
    unfold processOutputAwait LastRoundEmpty
    dsimp only
    by_cases hempty : (s.pushed (pushAwait socket s.ostream)).ostream.size = 0
    · have hlast : (pushAwait socket s.ostream).buffer.size = 0 := hempty
      rw [if_pos hempty, if_pos (Or.inl hlast)]
      exact hpushed
    · have hmore : ¬ (pushAwait socket s.ostream).buffer.size = 0 := hempty
      rw [if_neg hempty]
      by_cases hneg : (pushAwait socket s.ostream).result < 0
      · rw [if_pos hneg, if_pos (Or.inr hneg)]
        exact hpushed
      · rw [if_neg hneg, if_neg (not_or.mpr ⟨hmore, hneg⟩)]
        exact ih (exact_increaseSendSize h (hresult.resolve_right hneg))

end Count

theorem exact_step_iff {s : Traffic} (op : TrafficOp) (h : s.Exact) :
    (traffic.step s op).1.Exact ↔ Counted s op := by
  cases op with
  | input valid socket avail => exact iff_of_true (exact_processInput h valid socket avail) trivial
  | output valid socket => exact exact_processOutput_iff h valid socket
  | inputAwait socket => exact exact_processInputAwait_iff h socket
  | outputAwait rounds => exact exact_processOutputAwait_iff rounds h
  | write bytes => exact iff_of_true h trivial
  | read length => exact iff_of_true h trivial
  | flag flag enable => exact iff_of_true h trivial

/-- The sizes of the manager are exact throughout a run, whatever the sockets answer, exactly
when each call of it is counted. -/
theorem traffic_exact_iff (ops : List TrafficOp) :
    (∀ n, (traffic.run .new (ops.take n)).1.Exact) ↔ traffic.Along Counted .new ops :=
  traffic.run_always_iff (fun _ op h => exact_step_iff op h) ⟨rfl, rfl⟩ ops

/-- One byte is sent by the awaiting function and never counted; a failed receive adds almost
`2 ^ 64`; and a push that fails after it has sent two bytes counts neither. -/
theorem traffic_miscounted :
    let sent := (traffic.run .new [.write [7],
      .outputAwait [some fun _ n => .accepted (.last n)]]).1
    let failed := (traffic.run .new [.inputAwait (some .error)]).1
    let partly := (traffic.run .new [.write [1, 2, 3], .flag .output true, .output true
      (some fun i n => if i = 0 then .accepted (.ofNat (n + 1) 2) else .error)]).1
    (sent.sendSize = 0 ∧ sent.accepted = 1) ∧
      (failed.recvSize = BitVec.ofNat 64 (2 ^ 64 - 2) ∧ failed.received = 0) ∧
      partly.sendSize = 0 ∧ partly.accepted = 2 := by
  decide

end Plain.Connection
