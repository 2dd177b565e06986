import Plain.Rpc.Dispatcher

/-! # Answering requests

A request is dispatched and answered by one packet with its call index, an error code
and the packed result; a notification is only dispatched. The packer of a function
without a result is a null pointer, which the answer to a request goes through.
-/

namespace Plain.Connection

open Net Rpc

section Handle

variable (host : Endian)

def responseHead (index error : BitVec 32) : Packet :=
  (((((Packet.new.setId kRpcResponseId).setWriteable true).setCallResponse true).writeInt host
    index).writeInt host error)

def makeResponse (index : BitVec 32) : Except ErrorCode (Option (List Byte)) → Outcome Packet
  | .error e =>
      .returned ((responseHead host index (BitVec.ofNat 32 e.toUnderlying)).setWriteable false)
  | .ok (some packer) =>
      .returned (((responseHead host index
        (BitVec.ofNat 32 ErrorCode.none.toUnderlying)).write packer).1.setWriteable false)
  | .ok none => .crashed

/-- Result and packets sent, given the dispatcher of the manager if both exist. -/
def handleRpcRequest (manager : Option (Option Dispatcher)) (packet : Packet) :
    Outcome Bool × List Packet :=
  match manager with
  | none => (.returned false, [])
  | some none => (.returned true, [])
  | some (some dispatcher) =>
      let (packet, index) :=
        if packet.isCallRequest then packet.readInt host 32 else (packet, 0)
      match (dispatch host dispatcher packet).outcome with
      | .thrown => (.thrown, [])
      | .crashed => (.crashed, [])
      | .returned r =>
          if packet.isCallRequest then
            match makeResponse host index r with
            | .returned p => (.returned true, [p])
            | .thrown => (.thrown, [])
            | .crashed => (.crashed, [])
          else (.returned true, [])

end Handle

section Spec

/-- The bytes the result of a function is to be answered with, if it returns. -/
def answer : Bound → List Byte → Option (List Byte)
  | .voidZero func, _ => func.toOption.map fun _ => []
  | .voidArgs args func, bytes =>
      (args.unpack args.init (.of bytes)).bind fun a => (func a.1).toOption.map fun _ => []
  | .valueZero result func, _ => func.toOption.map result.pack
  | .valueArgs args result func, bytes =>
      (args.unpack args.init (.of bytes)).bind fun a => (func a.1).toOption.map result.pack

def isVoid : Bound → Bool
  | .voidZero _ | .voidArgs _ _ => true
  | .valueZero _ _ | .valueArgs _ _ _ => false

variable (host : Endian) (d : Dispatcher) (packet : Packet)

/-- The error code and the payload a packet is to be answered with, if the function it
names returns. -/
def expected : Option (ErrorCode × List Byte) :=
  if calledName host packet = [] then some (.netPacketInvalid, [])
  else
    match d (calledName host packet) with
    | none => some (.netRpcFunctionNotFound, [])
    | some func => (answer func (payload host packet)).map fun bytes => (.none, bytes)

def afterIndex : Packet :=
  if packet.isCallRequest then (packet.readInt host 32).1 else packet

def response (index : BitVec 32) (e : ErrorCode) (bytes : List Byte) : Packet where
  id := kRpcResponseId
  data := bigEndian index.toNat 4 ++ bigEndian e.toUnderlying 4 ++ bytes
  offset := 0
  flag := PacketFlag.writeable.bit ||| PacketFlag.callResponse.bit

/-- A request is answered by the one response it is to be answered with; a notification
is not answered. -/
def Answered : Prop :=
  if packet.isCallRequest then
    ∃ e bytes, expected host d (afterIndex host packet) = some (e, bytes) ∧
      handleRpcRequest host (some (some d)) packet =
        (.returned true, [response (packet.readInt host 32).2 e bytes])
  else handleRpcRequest host (some (some d)) packet = (.returned true, [])

/-- The function that is named, if any, returns, and has a result if it is requested. -/
def Answerable : Prop :=
  calledName host (afterIndex host packet) ≠ [] →
    ∀ b, d (calledName host (afterIndex host packet)) = some b →
      answer b (payload host (afterIndex host packet)) ≠ none ∧
        (packet.isCallRequest = true → isVoid b = false)

end Spec

section Response

variable (host : Endian)

theorem responseHead_eq (index : BitVec 32) (e : ErrorCode) :
    responseHead host index (BitVec.ofNat 32 e.toUnderlying) = response index e [] := by
  have hcode : (BitVec.ofNat 32 e.toUnderlying).toNat = e.toUnderlying := by
    cases e <;> rfl
  have hw : (((Packet.new.setId kRpcResponseId).setWriteable true).setCallResponse
      true).haveFlag .writeable = true := by decide
  rw [responseHead, Packet.writeInt_of_writeable (by decide) hw,
    Packet.writeInt_of_writeable (by decide) (by exact hw), hcode]
  simp [response, Packet.setCallResponse, Packet.setWriteable, Packet.setFlag, Packet.setId,
    Packet.new, PacketFlag.bit]

theorem setWriteable_response (index : BitVec 32) (e : ErrorCode) (bytes : List Byte) :
    (response index e bytes).setWriteable false = response index e bytes := by
  simp [response, Packet.setWriteable, Packet.setFlag, PacketFlag.bit]

theorem makeResponse_error (index : BitVec 32) (e : ErrorCode) :
    makeResponse host index (.error e) = .returned (response index e []) := by
  rw [makeResponse, responseHead_eq, setWriteable_response]

theorem makeResponse_packer (index : BitVec 32) (bytes : List Byte) :
    makeResponse host index (.ok (some bytes)) = .returned (response index .none bytes) := by
  have hw : (response index .none []).haveFlag .writeable = true := by
    simp [response, Packet.haveFlag, PacketFlag.bit]
  have hwrite : ((response index .none []).write bytes).1 = response index .none bytes := by
    rw [Packet.write_of_writeable hw]
    simp [response]
  rw [makeResponse, responseHead_eq, hwrite, setWriteable_response]

end Response

section Answer

variable {host : Endian} {d : Dispatcher} {packet : Packet}

theorem callWith_toOption {α γ : Type} (args : Codec α) (u : Unpacker) (call : α → Outcome γ) :
    (callWith args u call).outcome.toOption =
      (args.unpack args.init u).bind fun a => (call a.1).toOption := by
  rw [callWith]
  cases args.unpack args.init u with
  | none => rfl
  | some a => rfl

theorem adaptor_toOption (b : Bound) (bytes : List Byte) :
    (b.adaptor (.of bytes)).outcome.toOption =
      (answer b bytes).map fun v => if isVoid b then none else some v := by
  cases b with
  | voidZero func =>
    simp only [Bound.adaptor, answer, Outcome.toOption_map, Option.map_map]
    rfl
  | voidArgs args func =>
    simp only [Bound.adaptor, answer, callWith_toOption, Outcome.toOption_map, Option.map_bind]
    cases args.unpack args.init (.of bytes) with
    | none => rfl
    | some a =>
      simp only [Option.bind_some, Function.comp_apply, Option.map_map]
      rfl
  | valueZero result func =>
    simp only [Bound.adaptor, answer, Outcome.toOption_map, Option.map_map]
    rfl
  | valueArgs args result func =>
    simp only [Bound.adaptor, answer, callWith_toOption, Outcome.toOption_map, Option.map_bind]
    cases args.unpack args.init (.of bytes) with
    | none => rfl
    | some a =>
      simp only [Option.bind_some, Function.comp_apply, Option.map_map]
      rfl

theorem isCallRequest_readInt (host : Endian) (w : ℕ) (packet : Packet) :
    (packet.readInt host w).1.isCallRequest = packet.isCallRequest := by
  rw [Packet.readInt, Packet.read]
  split_ifs <;> rfl

theorem handleRpcRequest_eq {r : Except ErrorCode (Option (List Byte))}
    (h : (dispatch host d (afterIndex host packet)).outcome = .returned r) :
    handleRpcRequest host (some (some d)) packet =
      if packet.isCallRequest then
        match makeResponse host (packet.readInt host 32).2 r with
        | .returned p => (.returned true, [p])
        | .thrown => (.thrown, [])
        | .crashed => (.crashed, [])
      else (.returned true, []) := by
  rw [handleRpcRequest]
  by_cases hreq : packet.isCallRequest = true
  · rw [afterIndex, if_pos hreq] at h
    rw [if_pos hreq, if_pos hreq]
    simp only [h, isCallRequest_readInt, hreq, if_true]
  · rw [afterIndex, if_neg hreq] at h
    rw [if_neg hreq, if_neg hreq]
    simp only [h, if_neg hreq]

theorem handleRpcRequest_fails
    (h : (dispatch host d (afterIndex host packet)).outcome.toOption = none) (b : Bool)
    (ps : List Packet) : handleRpcRequest host (some (some d)) packet ≠ (.returned b, ps) := by
  intro hret
  rw [handleRpcRequest] at hret
  have hpair : (if packet.isCallRequest then packet.readInt host 32 else (packet, 0)).1 =
      afterIndex host packet := by
    rw [afterIndex]
    split_ifs <;> rfl
  cases ho : (dispatch host d (afterIndex host packet)).outcome with
  | returned r => simp [ho, Outcome.toOption] at h
  | thrown =>
    simp only [hpair, ho] at hret
    cases hret
  | crashed =>
    simp only [hpair, ho] at hret
    cases hret

theorem answered_of_error {e : ErrorCode}
    (h : (dispatch host d (afterIndex host packet)).outcome = .returned (.error e))
    (he : expected host d (afterIndex host packet) = some (e, [])) :
    Answered host d packet := by
  rw [Answered, handleRpcRequest_eq h, makeResponse_error]
  by_cases hreq : packet.isCallRequest = true
  · rw [if_pos hreq]
    exact ⟨e, [], he, if_pos hreq⟩
  · rw [if_neg hreq]
    exact if_neg hreq

theorem not_answered_of_no_answer {b : Bound}
    (hname : calledName host (afterIndex host packet) ≠ [])
    (hb : d (calledName host (afterIndex host packet)) = some b)
    (hans : answer b (payload host (afterIndex host packet)) = none) :
    ¬ Answered host d packet := by
  intro h
  rw [Answered] at h
  split_ifs at h with hreq
  · obtain ⟨e, bytes, he, -⟩ := h
    rw [expected, if_neg hname, hb] at he
    simp only [hans, Option.map_none] at he
    cases he
  · refine handleRpcRequest_fails ?_ _ _ h
    rw [dispatch_bound hname hb, Outcome.toOption_map, adaptor_toOption, hans]
    rfl

/-- A packet for a function that returns is answered unless it requests a result that
does not exist. -/
theorem answered_of_answer_iff {b : Bound} {v : List Byte}
    (hname : calledName host (afterIndex host packet) ≠ [])
    (hb : d (calledName host (afterIndex host packet)) = some b)
    (hans : answer b (payload host (afterIndex host packet)) = some v) :
    Answered host d packet ↔ (packet.isCallRequest = true → isVoid b = false) := by
  have hexp : expected host d (afterIndex host packet) = some (.none, v) := by
    rw [expected, if_neg hname, hb]
    simp only [hans, Option.map_some]
  have hret := adaptor_toOption b (payload host (afterIndex host packet))
  rw [hans] at hret
  have hdisp := congrArg Called.outcome (dispatch_bound hname hb)
  rw [Outcome.toOption_eq_some.mp hret] at hdisp
  rw [Answered, handleRpcRequest_eq hdisp, hexp]
  by_cases hreq : packet.isCallRequest = true
  · simp only [if_pos hreq]
    cases hvoid : isVoid b
    · refine iff_of_true ⟨.none, v, rfl, ?_⟩ fun _ => rfl
      simp only [Bool.false_eq_true, if_false, makeResponse_packer]
    · refine iff_of_false ?_ fun h => Bool.noConfusion (h hreq)
      rintro ⟨e, bytes, -, h⟩
      simp only [if_true, makeResponse] at h
      cases h
  · simp only [if_neg hreq]
    exact iff_of_true trivial fun h => absurd h hreq

/-- Every packet is served as it should be exactly when the function it names, if any,
returns and, for a request, has a result. -/
theorem answered_iff_answerable (host : Endian) (d : Dispatcher) (packet : Packet) :
    Answered host d packet ↔ Answerable host d packet := by
  by_cases hname : calledName host (afterIndex host packet) = []
  · refine iff_of_true (answered_of_error (e := .netPacketInvalid) ?_ ?_) fun h => absurd hname h
    · rw [dispatch, if_pos hname]
    · rw [expected, if_pos hname]
  cases hb : d (calledName host (afterIndex host packet)) with
  | none =>
    refine iff_of_true (answered_of_error (e := .netRpcFunctionNotFound) ?_ ?_) fun _ b h => ?_
    · rw [dispatch, if_neg hname, hb]
    · rw [expected, if_neg hname, hb]
    · rw [hb] at h
      cases h
  | some b =>
    have hable : Answerable host d packet ↔
        answer b (payload host (afterIndex host packet)) ≠ none ∧
          (packet.isCallRequest = true → isVoid b = false) := by
      simp [Answerable, hname, hb]
    rw [hable]
    cases hans : answer b (payload host (afterIndex host packet)) with
    | none => exact iff_of_false (not_answered_of_no_answer hname hb hans) fun h => h.1 rfl
    | some v =>
      rw [answered_of_answer_iff hname hb hans]
      exact (and_iff_right (Option.some_ne_none v)).symm

/-- A request for a function without arguments and without a result goes through the null
pointer. -/
theorem handleRpcRequest_void :
    handleRpcRequest .little (some (some fun _ => some (.voidZero (.returned ()))))
      ⟨kRpcRequestId, [0, 0, 0, 7, 0, 0, 0, 1, 0x66], 0, 0b101⟩ = (.crashed, []) := by rfl

end Answer

end Plain.Connection
