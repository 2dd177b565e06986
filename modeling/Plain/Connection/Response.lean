import Plain.Foundation.Machine
import Plain.Net.Framing

/-! # Completing calls

A call gets the next index, is sent, and leaves its promise in a table under the index.
A response finds the promise by the index it carries and satisfies it with a value or an
exception. Entries stay in the table, so that a second response finds a promise that is
satisfied already.
-/

namespace Plain.Connection

open Net

inductive Failure where
  | logicError (what : List Byte)
  | promiseAlreadySatisfied
  deriving DecidableEq, Repr

/-- The state a promise shares with its future. A promise that is destroyed while it is
pending is abandoned. -/
inductive Promise where
  | pending
  | value (bytes : List Byte)
  | exception (failure : Failure)
  | abandoned
  deriving DecidableEq, Repr

structure Call where
  index : BitVec 32
  promise : Promise
  deriving DecidableEq, Repr

/-- What calls read and write of a connection. Calls are numbered in the order they are
made, and the table `callings` holds the promises of calls by number. -/
structure Caller where
  callIndex : BitVec 32
  callings : BitVec 32 → Option ℕ
  calls : List Call
  ostream : Stream

/-- The index a response carried, how the operation ended, and the call whose promise it
satisfied. -/
structure Event where
  carried : Option (BitVec 32)
  outcome : Outcome Bool
  satisfied : Option ℕ
  deriving DecidableEq, Repr

def ascii (text : String) : List Byte := text.toList.map fun c => BitVec.ofNat 8 c.toNat

namespace Caller

def new : Caller := ⟨0, fun _ => none, [], []⟩

def index (s : Caller) (n : ℕ) : Option (BitVec 32) := s.calls[n]?.map Call.index

def promise (s : Caller) (n : ℕ) : Option Promise := s.calls[n]?.map Call.promise

def setPromise (s : Caller) (n : ℕ) (p : Promise) : Caller :=
  { s with calls := s.calls.modify n fun c => { c with promise := p } }

/-- `set_value` and `set_exception`, which throw unless the promise is pending. -/
def satisfy (s : Caller) (n : ℕ) (p : Promise) : Except Failure Caller :=
  if s.promise n = some .pending then .ok (s.setPromise n p)
  else .error .promiseAlreadySatisfied

section Calls

variable (encode : Packet → List Byte) (host : Endian)

def write (s : Caller) (packet : Packet) : Bool × Caller :=
  let bytes := encode packet
  if bytes = [] then (false, s) else (true, { s with ostream := s.ostream ++ bytes })

def newCallIndex (s : Caller) : BitVec 32 × Caller :=
  (s.callIndex + 1, { s with callIndex := s.callIndex + 1 })

/-- `callings.emplace`, which drops the promise where there is an entry already. -/
def emplace (s : Caller) (index : BitVec 32) (n : ℕ) : Caller :=
  match s.callings index with
  | some _ => s.setPromise n .abandoned
  | none => { s with callings := fun i => if i = index then some n else s.callings i }

def sendCall (s : Caller) (packet : Packet) (index : BitVec 32) (n : ℕ) : Bool × Caller :=
  match s.write encode (packet.setCallRequest true) with
  | (true, s) => (true, s.emplace index n)
  | (false, s) => (false, s)

def callPacket (index : BitVec 32) (name args : List Byte) : Packet :=
  let packet := (Packet.new.setWriteable true).setId kRpcRequestId
  let packet := ((packet.writeInt host index).writeString host name).1
  (packet.write args).1

def asyncCall (s : Caller) (name args : List Byte) : Caller × Event :=
  let (index, s) := s.newCallIndex
  let n := s.calls.length
  let s := { s with calls := s.calls ++ [Call.mk index .pending] }
  match s.sendCall encode (callPacket host index name args) index n with
  | (true, s) => (s, ⟨none, .returned true, none⟩)
  | (false, s) =>
      match s.satisfy n (.exception (.logicError (ascii "async_call " ++ name ++ ascii " failed")))
        with
      | .ok s => (s, ⟨none, .returned false, some n⟩)
      | .error _ => (s, ⟨none, .thrown, none⟩)

def handleRpcResponse (s : Caller) (packet : Packet) : Caller × Event :=
  let (packet, index) := packet.readInt host 32
  if index = 0 then (s, ⟨some index, .returned true, none⟩)
  else
    let (packet, error) := packet.readInt host 32
    match s.callings index with
    | none => (s, ⟨some index, .returned false, none⟩)
    | some n =>
        let tried :=
          if error ≠ BitVec.ofNat 32 ErrorCode.none.toUnderlying then
            .error (.logicError (ascii "error: " ++ ascii (toString error.toInt)))
          else s.satisfy n (.value (packet.data.drop packet.offset))
        match tried with
        | .ok s => (s, ⟨some index, .returned true, some n⟩)
        | .error failure =>
            match s.satisfy n (.exception failure) with
            | .ok s => (s, ⟨some index, .returned true, some n⟩)
            | .error _ => (s, ⟨some index, .thrown, none⟩)

end Calls

end Caller

inductive CallOp where
  | asyncCall (name args : List Byte)
  | response (packet : Packet)

def callMachine (encode : Packet → List Byte) (host : Endian) :
    Machine Caller CallOp Event where
  step s
    | .asyncCall name args => s.asyncCall encode host name args
    | .response packet => s.handleRpcResponse host packet

/-- No promise is satisfied twice, each only by a response that carries the index of its
call, and no exception escapes. -/
def Completes (r : Caller × List Event) : Prop :=
  (∀ n, r.2.countP (fun e => e.satisfied = some n) ≤ 1) ∧
    ∀ e ∈ r.2, e.outcome ≠ .thrown ∧
      ∀ n, e.satisfied = some n → ∃ i, e.carried = some i ∧ r.1.index n = some i

/-- Nothing escapes, and only responses satisfy promises. -/
def Event.Proper (e : Event) : Prop :=
  e.outcome ≠ .thrown ∧ (e.satisfied ≠ none → e.carried ≠ none)

/-- A call can be sent; a response does not name a call that was completed. -/
def Fresh (encode : Packet → List Byte) (host : Endian) (s : Caller) : CallOp → Prop
  | .asyncCall name args =>
      encode ((Caller.callPacket host (s.callIndex + 1) name args).setCallRequest true) ≠ []
  | .response packet =>
      (packet.readInt host 32).2 ≠ 0 →
        ∀ n, s.callings (packet.readInt host 32).2 = some n → s.promise n = some .pending

namespace Caller

section Promises

variable {s t : Caller} {n m : ℕ} {p : Promise} {i : BitVec 32}

def Done (s : Caller) (n : ℕ) : Prop := ∃ p, s.promise n = some p ∧ p ≠ .pending

def Recorded (s : Caller) : Prop := ∀ i n, s.callings i = some n → s.index n = some i

theorem satisfy_of_pending (h : s.promise n = some .pending) :
    s.satisfy n p = .ok (s.setPromise n p) := if_pos h

theorem satisfy_of_not_pending (h : s.promise n ≠ some .pending) :
    s.satisfy n p = .error .promiseAlreadySatisfied := if_neg h

@[simp] theorem index_setPromise : (s.setPromise n p).index m = s.index m := by
  rw [index, index, setPromise, List.getElem?_modify]
  cases s.calls[m]? with
  | none => rfl
  | some call => by_cases h : n = m <;> simp [h]

theorem promise_setPromise_self (h : s.promise n ≠ none) :
    (s.setPromise n p).promise n = some p := by
  obtain ⟨q, hq⟩ := Option.ne_none_iff_exists'.mp h
  obtain ⟨call, hcall, -⟩ := Option.map_eq_some_iff.mp hq
  simp [promise, setPromise, hcall]

theorem promise_setPromise_ne (h : n ≠ m) : (s.setPromise n p).promise m = s.promise m := by
  rw [promise, promise, setPromise, List.getElem?_modify_ne _ _ h]

theorem modify_length_append (calls : List Call) (call : Call) (f : Call → Call) :
    (calls ++ [call]).modify calls.length f = calls ++ [f call] := by
  rw [List.modify_eq_take_cons_drop (by simp)]
  simp

end Promises

section Step

variable {encode : Packet → List Byte} {host : Endian} {s : Caller} {n : ℕ}
variable {name args : List Byte} {packet : Packet}

theorem write_of_encode_ne (h : encode packet ≠ []) :
    s.write encode packet = (true, { s with ostream := s.ostream ++ encode packet }) := if_neg h

theorem write_of_encode_eq (h : encode packet = []) : s.write encode packet = (false, s) :=
  if_pos h

theorem emplace_callings {index i : BitVec 32} {m : ℕ}
    (hi : (s.emplace index m).callings i = some n) :
    s.callings i = some n ∨ i = index ∧ n = m := by
  rw [emplace] at hi
  cases hc : s.callings index with
  | some _ =>
    rw [hc] at hi
    exact .inl hi
  | none =>
    rw [hc] at hi
    by_cases h : i = index
    · exact .inr ⟨h, Option.some.inj (hi.symm.trans (if_pos h))⟩
    · exact .inl ((if_neg h).symm.trans hi)

/-- Recording the last call may take its promise away. -/
theorem emplace_last {calls : List Call} {call : Call} (hs : s.calls = calls ++ [call])
    (index : BitVec 32) :
    ∃ p, (s.emplace index calls.length).calls = calls ++ [⟨call.index, p⟩] := by
  rw [emplace]
  cases s.callings index with
  | some _ =>
    refine ⟨.abandoned, ?_⟩
    rw [setPromise, hs]
    exact modify_length_append ..
  | none => exact ⟨call.promise, hs⟩

theorem asyncCall_sent
    (h : encode ((callPacket host (s.callIndex + 1) name args).setCallRequest true) ≠ []) :
    ∃ t p, s.asyncCall encode host name args = (t, ⟨none, .returned true, none⟩) ∧
      t.calls = s.calls ++ [⟨s.callIndex + 1, p⟩] ∧
      ∀ i n, t.callings i = some n →
        s.callings i = some n ∨ i = s.callIndex + 1 ∧ n = s.calls.length := by
  simp only [asyncCall, newCallIndex, sendCall, write_of_encode_ne h]
  obtain ⟨p, hp⟩ := emplace_last (s := { s with
    callIndex := s.callIndex + 1
    calls := s.calls ++ [⟨s.callIndex + 1, .pending⟩]
    ostream := s.ostream ++
      encode ((callPacket host (s.callIndex + 1) name args).setCallRequest true) }) rfl
    (s.callIndex + 1)
  refine ⟨_, p, rfl, hp, fun i n hi => ?_⟩
  have hold := emplace_callings hi
  exact hold

theorem asyncCall_unsent
    (h : encode ((callPacket host (s.callIndex + 1) name args).setCallRequest true) = []) :
    ∃ t failure, s.asyncCall encode host name args =
        (t, ⟨none, .returned false, some s.calls.length⟩) ∧
      t.calls = s.calls ++ [⟨s.callIndex + 1, .exception failure⟩] ∧ t.callings = s.callings := by
  simp only [asyncCall, newCallIndex, sendCall, write_of_encode_eq h]
  rw [satisfy_of_pending (by simp [promise])]
  exact ⟨_, _, rfl, modify_length_append .., rfl⟩

theorem handleRpcResponse_zero (h : (packet.readInt host 32).2 = 0) :
    s.handleRpcResponse host packet = (s, ⟨some 0, .returned true, none⟩) := by
  simp only [handleRpcResponse, h, if_true]

theorem handleRpcResponse_unknown (h : (packet.readInt host 32).2 ≠ 0)
    (hn : s.callings (packet.readInt host 32).2 = none) :
    s.handleRpcResponse host packet =
      (s, ⟨some (packet.readInt host 32).2, .returned false, none⟩) := by
  simp only [handleRpcResponse, if_neg h, hn]

theorem handleRpcResponse_pending (h : (packet.readInt host 32).2 ≠ 0)
    (hn : s.callings (packet.readInt host 32).2 = some n) (hp : s.promise n = some .pending) :
    ∃ p, p ≠ .pending ∧ s.handleRpcResponse host packet =
      (s.setPromise n p, ⟨some (packet.readInt host 32).2, .returned true, some n⟩) := by
  simp only [handleRpcResponse, if_neg h, hn, satisfy_of_pending hp]
  split_ifs
  · exact ⟨_, Promise.noConfusion, rfl⟩
  · exact ⟨_, Promise.noConfusion, rfl⟩

theorem handleRpcResponse_again (h : (packet.readInt host 32).2 ≠ 0)
    (hn : s.callings (packet.readInt host 32).2 = some n) (hp : s.promise n ≠ some .pending) :
    s.handleRpcResponse host packet =
      (s, ⟨some (packet.readInt host 32).2, .thrown, none⟩) := by
  simp only [handleRpcResponse, if_neg h, hn, satisfy_of_not_pending hp]
  split_ifs <;> rfl

inductive Change (s : Caller) : Caller → Event → Prop
  | opened {t : Caller} {call : Call} {e : Event} (hcalls : t.calls = s.calls ++ [call])
      (hcallings : ∀ i n, t.callings i = some n →
        s.callings i = some n ∨ i = call.index ∧ n = s.calls.length)
      (hcarried : e.carried = none)
      (hsat : ∀ n, e.satisfied = some n → n = s.calls.length ∧ call.promise ≠ .pending) :
      Change s t e
  | completed {i : BitVec 32} {n : ℕ} {p : Promise} {o : Outcome Bool}
      (hcalling : s.callings i = some n) (hpending : s.promise n = some .pending)
      (hp : p ≠ .pending) :
      Change s (s.setPromise n p) ⟨some i, o, some n⟩
  | ignored {e : Event} (hsat : e.satisfied = none) : Change s s e

theorem step_change (s : Caller) (op : CallOp) :
    Change s ((callMachine encode host).step s op).1 ((callMachine encode host).step s op).2 := by
  cases op with
  | asyncCall name args =>
    by_cases h : encode ((callPacket host (s.callIndex + 1) name args).setCallRequest true) = []
    · obtain ⟨t, failure, hstep, hcalls, hcallings⟩ := asyncCall_unsent h
      simp only [callMachine, hstep]
      refine .opened hcalls (fun i n hi => .inl (hcallings ▸ hi)) rfl fun n hn => ?_
      exact ⟨(Option.some.inj hn).symm, Promise.noConfusion⟩
    · obtain ⟨t, p, hstep, hcalls, hcallings⟩ := asyncCall_sent h
      simp only [callMachine, hstep]
      exact .opened hcalls hcallings rfl fun n hn => nomatch hn
  | response packet =>
    by_cases h : (packet.readInt host 32).2 = 0
    · simp only [callMachine, handleRpcResponse_zero h]
      exact .ignored rfl
    cases hn : s.callings (packet.readInt host 32).2 with
    | none =>
      simp only [callMachine, handleRpcResponse_unknown h hn]
      exact .ignored rfl
    | some n =>
      by_cases hp : s.promise n = some .pending
      · obtain ⟨p, hne, hstep⟩ := handleRpcResponse_pending h hn hp
        simp only [callMachine, hstep]
        exact .completed hn hp hne
      · simp only [callMachine, handleRpcResponse_again h hn hp]
        exact .ignored rfl

end Step

section Keep

variable {s t : Caller} {e : Event} {n : ℕ} {i : BitVec 32}

theorem Change.keeps_index (h : Change s t e) (hi : s.index n = some i) : t.index n = some i := by
  cases h with
  | opened hcalls hcallings hcarried hsat =>
    obtain ⟨call, hcall, rfl⟩ := Option.map_eq_some_iff.mp hi
    rw [index, hcalls, List.getElem?_append_left (List.getElem?_eq_some_iff.mp hcall).1, hcall]
    rfl
  | completed hcalling hpending hp => rwa [index_setPromise]
  | ignored hsat => exact hi

theorem Change.recorded (h : Change s t e) (hs : s.Recorded) : t.Recorded := by
  intro i n hi
  cases h with
  | opened hcalls hcallings hcarried hsat =>
    rcases hcallings i n hi with hold | ⟨rfl, rfl⟩
    · exact keeps_index (.opened hcalls hcallings hcarried hsat) (hs i n hold)
    · simp [index, hcalls]
  | completed hcalling hpending hp =>
    rw [index_setPromise]
    exact hs i n hi
  | ignored hsat => exact hs i n hi

theorem Change.done (h : Change s t e) (hd : s.Done n) : t.Done n ∧ e.satisfied ≠ some n := by
  obtain ⟨p, hp, hne⟩ := hd
  obtain ⟨call, hcall, rfl⟩ := Option.map_eq_some_iff.mp hp
  have hlt : n < s.calls.length := (List.getElem?_eq_some_iff.mp hcall).1
  cases h with
  | opened hcalls hcallings hcarried hsat =>
    refine ⟨⟨call.promise, ?_, hne⟩, fun hn => absurd (hsat n hn).1 hlt.ne⟩
    rw [promise, hcalls, List.getElem?_append_left hlt, hcall]
    rfl
  | completed hcalling hpending hp' =>
    rename_i m q o
    have hnm : m ≠ n := by
      rintro rfl
      exact hne (Option.some.inj (hp.symm.trans hpending))
    refine ⟨⟨call.promise, ?_, hne⟩, fun h => hnm (Option.some.inj h)⟩
    rw [promise_setPromise_ne hnm, hp]
  | ignored hsat => exact ⟨⟨_, hp, hne⟩, by simp [hsat]⟩

theorem Change.satisfied_done (h : Change s t e) (he : e.satisfied = some n) : t.Done n := by
  cases h with
  | opened hcalls hcallings hcarried hsat =>
    obtain ⟨rfl, hne⟩ := hsat n he
    exact ⟨_, by simp [promise, hcalls], hne⟩
  | completed hcalling hpending hp =>
    obtain rfl := Option.some.inj he
    exact ⟨_, promise_setPromise_self (by simp [hpending]), hp⟩
  | ignored hsat => simp [hsat] at he

theorem Change.carries_index (h : Change s t e) (hs : s.Recorded) (he : e.satisfied = some n)
    (hi : e.carried = some i) : t.index n = some i := by
  cases h with
  | opened hcalls hcallings hcarried hsat => simp [hcarried] at hi
  | completed hcalling hpending hp =>
    obtain rfl := Option.some.inj he
    obtain rfl := Option.some.inj hi
    rw [index_setPromise]
    exact hs _ _ hcalling
  | ignored hsat => simp [hsat] at he

end Keep

end Caller

section Runs

variable (encode : Packet → List Byte) (host : Endian)

theorem Event.proper_of_returned (carried : Option (BitVec 32)) (b : Bool) :
    Event.Proper ⟨carried, .returned b, none⟩ :=
  ⟨by simp, fun h => absurd rfl h⟩

/-- Only a step that is not fresh lets an exception out or satisfies a promise without a
response. -/
theorem step_proper_iff_fresh (s : Caller) (op : CallOp) :
    ((callMachine encode host).step s op).2.Proper ↔ Fresh encode host s op := by
  cases op with
  | asyncCall name args =>
    by_cases h : encode
        ((Caller.callPacket host (s.callIndex + 1) name args).setCallRequest true) = []
    · obtain ⟨t, failure, hstep, -⟩ := Caller.asyncCall_unsent h
      simp only [callMachine, hstep]
      exact iff_of_false (fun hp => hp.2 (fun hn => nomatch hn) rfl) fun hf => hf h
    · obtain ⟨t, p, hstep, -⟩ := Caller.asyncCall_sent h
      simp only [callMachine, hstep]
      exact iff_of_true (Event.proper_of_returned none true) h
  | response packet =>
    by_cases h : (packet.readInt host 32).2 = 0
    · simp only [callMachine, Caller.handleRpcResponse_zero h]
      exact iff_of_true (Event.proper_of_returned (some 0) true) fun h0 => absurd h h0
    cases hn : s.callings (packet.readInt host 32).2 with
    | none =>
      simp only [callMachine, Caller.handleRpcResponse_unknown h hn]
      refine iff_of_true (Event.proper_of_returned _ false) fun _ n hn' => ?_
      exact nomatch hn.symm.trans hn'
    | some n =>
      by_cases hp : s.promise n = some .pending
      · obtain ⟨p, -, hstep⟩ := Caller.handleRpcResponse_pending h hn hp
        simp only [callMachine, hstep]
        refine iff_of_true ⟨by simp, by simp⟩ fun _ m hm => ?_
        rwa [← Option.some.inj (hn.symm.trans hm)]
      · simp only [callMachine, Caller.handleRpcResponse_again h hn hp]
        exact iff_of_false (fun hpr => hpr.1 rfl) fun hf => hp (hf h n hn)

theorem run_satisfied_le_one (s : Caller) (ops : List CallOp) (n : ℕ) :
    ((callMachine encode host).run s ops).2.countP (fun e => e.satisfied = some n) ≤ 1 := by
  refine Machine.run_countP_le_one (fun s => s.Done n) (fun s op hd => ?_)
    (fun s op he => ?_) s ops
  · obtain ⟨hd', hne⟩ := (Caller.step_change s op).done hd
    exact ⟨hd', decide_eq_false hne⟩
  · exact (Caller.step_change s op).satisfied_done (of_decide_eq_true he)

theorem run_carries_index {s : Caller} (hs : s.Recorded) (ops : List CallOp) :
    ∀ e ∈ ((callMachine encode host).run s ops).2, ∀ n i, e.satisfied = some n →
      e.carried = some i → ((callMachine encode host).run s ops).1.index n = some i := by
  refine (callMachine encode host).run_answers_stable (P := Caller.Recorded)
    (R := fun e s => ∀ n i, e.satisfied = some n → e.carried = some i → s.index n = some i)
    (fun s op h => (Caller.step_change s op).recorded h) (fun s op h n i he hi => ?_)
    (fun s op e h n i he hi => ?_) hs ops
  · exact (Caller.step_change s op).carries_index h he hi
  · exact (Caller.step_change s op).keeps_index (h n i he hi)

/-- The calls of a connection complete as they should in exactly the runs in which every
call can be sent and no response names a call that was completed. -/
theorem completes_iff_fresh (ops : List CallOp) :
    Completes ((callMachine encode host).run .new ops) ↔
      (callMachine encode host).Along (Fresh encode host) .new ops := by
  have hnew : Caller.new.Recorded := fun i n h => nomatch h
  have hcarries := run_carries_index encode host hnew ops
  rw [← (callMachine encode host).run_answers_iff (step_proper_iff_fresh encode host)]
  constructor
  · rintro ⟨-, h⟩ e he
    refine ⟨(h e he).1, fun hsat => ?_⟩
    obtain ⟨n, hn⟩ := Option.ne_none_iff_exists'.mp hsat
    obtain ⟨i, hi, -⟩ := (h e he).2 n hn
    simp [hi]
  · intro h
    refine ⟨run_satisfied_le_one encode host .new ops, fun e he => ⟨(h e he).1, fun n hn => ?_⟩⟩
    obtain ⟨i, hi⟩ := Option.ne_none_iff_exists'.mp ((h e he).2 (by simp [hn]))
    exact ⟨i, hi, hcarries e he n i hn hi⟩

def repeatedResponse : List CallOp :=
  [.asyncCall [0x66] [], .response ⟨kRpcResponseId, [0, 0, 0, 1, 0, 0, 0, 0], 0, 0b1001⟩,
    .response ⟨kRpcResponseId, [0, 0, 0, 1, 0, 0, 0, 0], 0, 0b1001⟩]

/-- The second response lets an exception out of its handler. -/
theorem repeatedResponse_escapes :
    ((callMachine (Net.encode .little) .little).run .new repeatedResponse).2 =
        [⟨none, .returned true, none⟩, ⟨some 1, .returned true, some 0⟩,
          ⟨some 1, .thrown, none⟩] ∧
      ¬ Completes ((callMachine (Net.encode .little) .little).run .new repeatedResponse) := by
  have hevents : ((callMachine (Net.encode .little) .little).run .new repeatedResponse).2 =
      [⟨none, .returned true, none⟩, ⟨some 1, .returned true, some 0⟩,
        ⟨some 1, .thrown, none⟩] := by decide
  refine ⟨hevents, fun h => ?_⟩
  exact (h.2 ⟨some 1, .thrown, none⟩ (by simp [hevents])).1 rfl

end Runs

end Plain.Connection
