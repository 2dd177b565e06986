import Plain.Connection.Chunking
import Plain.Connection.LineCall
import Plain.Connection.CallIndex
import Plain.Net.Fields
import Plain.Rpc.Composition

/-! # Calls between two ends

One end makes calls, the other one serves them. The bytes of requests and responses pass in
pieces of any size, and each end takes packets in passes of `process_command`. However the steps
of the two ends and of the wire interleave, each promise is satisfied with what the function it
calls gives for its arguments, until an end gives up in front of too many incomplete headers.

What a promise is satisfied with are pointers into the packet of the response. The packet is
destroyed behind the round of the pass that handles it, and the promise is not.
-/

namespace Plain.Connection

open Net Rpc

/-- The end that calls, with the packets that its pass has still to handle and the call whose
response it is at, and the end that serves. A handler that fails closes the connection. -/
structure Exchange where
  caller : Caller
  callerBox : Inbox
  pass : List Packet
  held : Option ℕ
  serverBox : Inbox
  serverOut : Stream
  failed : Bool

/-- A call is made; bytes pass to the serving end, which makes a pass; bytes pass back; the calling
end begins a pass, handles the next packet of it, and destroys the packet. -/
inductive ExchangeOp where
  | asyncCall (name args : List Byte)
  | carry (count : ℕ)
  | serve
  | carryBack (count : ℕ)
  | receive
  | handle
  | release
  deriving DecidableEq, Repr

structure Made where
  index : BitVec 32
  name : List Byte
  args : List Byte
  deriving DecidableEq, Repr

/-- What a thread finds that waits for a call and unpacks what it gets. -/
inductive Reading where
  | blocked
  | bytes (bytes : List Byte)
  | thrown (failure : Failure)
  | broken
  | dangling
  deriving DecidableEq, Repr

/-- Packets are handed over one after another until one is refused. -/
def handOver {σ : Type*} (handle : σ → Packet → σ × Bool) : σ → List Packet → σ × Bool
  | a, [] => (a, true)
  | a, p :: ps =>
      match handle a p with
      | (a, true) => handOver handle a ps
      | (a, false) => (a, false)

namespace Exchange

def new : Exchange := ⟨.new, .new, [], none, .new, [], false⟩

section Steps

variable (host : Endian) (limit : Limit) (d : Dispatcher)

/-- A packet at the serving end, which has made no calls, with what it has to send. -/
def serveOne (out : Stream) (p : Packet) : Stream × Bool :=
  if p.isCallRequest || p.isCallNotify then
    match handleRpcRequest host (some (some d)) p with
    | (.returned result, packets) => (out ++ packets.flatMap (encode host), result)
    | _ => (out, false)
  else if p.isCallResponse then
    (out, (Caller.new.handleRpcResponse host p).2.outcome = .returned true)
  else (out, true)

/-- `process_command` at the serving end. What is left of the input of a pass that fails is
nobody's any more. -/
def serve (s : Exchange) : Exchange :=
  let r := s.serverBox.processCommand (decode host limit) Inbox.accepting
  let out := handOver (serveOne host d) s.serverOut r.packets
  { s with serverBox := r.inbox, serverOut := out.1, failed := !(r.result && out.2) }

/-- `process_command` at the calling end, up to the first packet. -/
def receive (s : Exchange) : Exchange :=
  if s.pass = [] ∧ s.held = none then
    let r := s.callerBox.processCommand (decode host limit) Inbox.accepting
    { s with callerBox := r.inbox, pass := r.packets, failed := !r.result }
  else s

/-- The next packet at the calling end, which has no dispatcher. -/
def handle (s : Exchange) : Exchange :=
  match s.held, s.pass with
  | none, p :: pass =>
      if p.isCallRequest || p.isCallNotify then { s with pass := pass }
      else if p.isCallResponse then
        let r := s.caller.handleRpcResponse host p
        if r.2.outcome = .returned true then
          { s with caller := r.1, pass := pass, held := r.2.satisfied }
        else { s with caller := r.1, pass := [], failed := true }
      else { s with pass := pass }
  | _, _ => s

/-- What a thread that waits for a call gets from it, unless it is still blocked. -/
def read (s : Exchange) (n : ℕ) : Reading :=
  match s.caller.promise n with
  | none | some .pending => .blocked
  | some (.value bytes) => if s.held = some n then .bytes bytes else .dangling
  | some (.exception failure) => .thrown failure
  | some .abandoned => .broken

end Steps

end Exchange

/-- The two ends under any interleaving. A task takes input only between its passes. -/
def exchange (host : Endian) (limit : Limit) (d : Dispatcher) :
    Machine Exchange ExchangeOp Unit where
  step s
    | .asyncCall name args =>
        ({ s with caller := (s.caller.asyncCall (encode host) host name args).1 }, ())
    | .carry count =>
        (if s.failed then s
          else
            { s with
              caller := { s.caller with ostream := s.caller.ostream.drop count }
              serverBox := s.serverBox.deliver (s.caller.ostream.take count) }, ())
    | .serve => (if s.failed then s else s.serve host limit d, ())
    | .carryBack count =>
        (if s.failed ∨ s.pass ≠ [] ∨ s.held ≠ none then s
          else
            { s with
              serverOut := s.serverOut.drop count
              callerBox := s.callerBox.deliver (s.serverOut.take count) }, ())
    | .receive => (if s.failed then s else s.receive host limit, ())
    | .handle => (s.handle host, ())
    | .release => ({ s with held := none }, ())

namespace Made

def note (s : Exchange) (log : List Made) : ExchangeOp → List Made
  | .asyncCall name args => log ++ [⟨s.caller.callIndex + 1, name, args⟩]
  | .carry _ | .serve | .carryBack _ | .receive | .handle | .release => log

section Reply

variable (host : Endian) (limit : Limit) (d : Dispatcher) (m : Made)

def reply : ErrorCode × List Byte :=
  match d m.name with
  | none => (.netRpcFunctionNotFound, [])
  | some b => (.none, (answer b m.args).getD [])

def outcome : Promise :=
  if (m.reply d).1 = .none then .value (m.reply d).2
  else
    .exception (.logicError
      (ascii "error: " ++ ascii (toString (BitVec.ofNat 32 (m.reply d).1.toUnderlying).toInt)))

def request : Packet := (Caller.callPacket host m.index m.name m.args).setCallRequest true

def response : Packet := Connection.response m.index (m.reply d).1 (m.reply d).2

/-- The function has a name, and if it is known, it has a result and returns. The packets of the
call and of its answer are within the limit. -/
structure Servable : Prop where
  named : m.name ≠ []
  returns : ∀ b, d m.name = some b → isVoid b = false ∧ answer b m.args ≠ none
  ids : kRpcRequestId.toNat ≤ limit.maxId.toNat
  request_le : 4 + (Packet.stringField m.name ++ m.args).length ≤ limit.maxLength.toNat
  response_le : 8 + (m.reply d).2.length ≤ limit.maxLength.toNat

end Reply

end Made

section Packets

variable {host : Endian} {limit : Limit} {d : Dispatcher} {m : Made}

theorem id_request (host : Endian) (m : Made) : (m.request host).id = kRpcRequestId := by
  have hw : ((Packet.new.setWriteable true).setId kRpcRequestId).haveFlag .writeable = true := by
    decide
  simp only [Made.request, Caller.callPacket]
  rw [Packet.writeInt_of_writeable (by decide) hw, Packet.writeString_of_writeable (by exact hw),
    Packet.write_of_writeable (by exact hw)]
  rfl

theorem data_request (host : Endian) (m : Made) :
    (m.request host).data =
      bigEndian m.index.toNat 4 ++ (Packet.stringField m.name ++ m.args) := by
  rw [← List.append_assoc]
  exact (CallMessage.packet_eq host (.request m.index m.name m.args)).1

theorem Made.Servable.valid_request (h : m.Servable limit d) : (m.request host).Valid limit where
  id_pos := by
    rw [id_request]
    decide
  id_le := by
    rw [id_request]
    exact h.ids
  length_le := by
    rw [data_request, List.length_append, length_bigEndian]
    exact h.request_le

theorem Made.Servable.valid_response (h : m.Servable limit d) : (m.response d).Valid limit where
  id_pos := by
    have hid : kRpcResponseId ≠ 0 := by decide
    exact hid
  id_le := by
    have hle : kRpcResponseId.toNat ≤ kRpcRequestId.toNat := by decide
    exact hle.trans h.ids
  length_le := by
    rw [Made.response, Connection.response]
    simp only [List.length_append, length_bigEndian]
    exact h.response_le

theorem left_received (p : Packet) : Left p.received p.data := by
  have hbit : (0b11 ||| callBit p.id) &&& PacketFlag.readable.bit ≠ 0 := by
    rw [callBit]
    split_ifs <;> decide
  rw [received_eq]
  exact ⟨decide_eq_true hbit, Nat.zero_le _, rfl⟩

theorem scanInt_bigEndian {n : ℕ} (hn : n < 2 ^ 32) (rest : List Byte) :
    scanInt 4 (bigEndian n 4 ++ rest) = (n, rest) := by
  have hmod : n % 256 ^ 4 = n := Nat.mod_eq_of_lt hn
  rw [scanInt_of_le (by simp), List.take_left' (length_bigEndian _ _),
    List.drop_left' (length_bigEndian _ _), ofBigEndian_bigEndian, hmod]

theorem scanBytes_stringField {str : List Byte} (hne : str ≠ []) (hlen : str.length < 2 ^ 32)
    (rest : List Byte) : scanBytes (Packet.stringField str ++ rest) = (str, rest) := by
  have hpos : str.length ≠ 0 := fun h => hne (List.length_eq_zero_iff.mp h)
  rw [Packet.stringField, if_neg hne, Nat.mod_eq_of_lt hlen, List.append_assoc, scanBytes,
    scanInt_bigEndian hlen]
  rw [if_neg (by simp [hpos]), List.take_left, List.drop_left]

theorem Made.Servable.read_request (h : m.Servable limit d) (host : Endian) :
    ((m.request host).received.readInt host 32).2 = m.index ∧
      calledName host ((m.request host).received.readInt host 32).1 = m.name ∧
      payload host ((m.request host).received.readInt host 32).1 = m.args := by
  have hname : m.name.length < 2 ^ 32 := by
    have hfield : m.name.length ≤ (Packet.stringField m.name).length := by
      rw [Packet.stringField, if_neg h.named, List.length_append]
      exact Nat.le_add_left _ _
    have hle := h.request_le
    have hlt := limit.maxLength.isLt
    rw [List.length_append] at hle
    omega
  obtain ⟨hindex, hleft⟩ := (left_received (m.request host)).readInt host (w := 32) (by decide)
  rw [data_request, scanInt_bigEndian m.index.isLt] at hindex hleft
  obtain ⟨hstr, hrest⟩ := hleft.readString host
  rw [scanBytes_stringField h.named hname] at hstr hrest
  refine ⟨?_, hstr, hrest.drop_eq⟩
  rw [hindex]
  exact BitVec.ofNat_toNat _ _ |>.trans (BitVec.setWidth_eq _)

theorem Made.Servable.handle_request (h : m.Servable limit d) :
    handleRpcRequest host (some (some d)) (m.request host).received =
      (.returned true, [m.response d]) := by
  obtain ⟨hindex, hname, hargs⟩ := h.read_request host
  have hreq : (m.request host).received.isCallRequest = true :=
    (received_spec _).2.2.1.mpr (id_request host m)
  have hafter : afterIndex host (m.request host).received =
      ((m.request host).received.readInt host 32).1 := if_pos hreq
  have hne : calledName host (afterIndex host (m.request host).received) ≠ [] := by
    rw [hafter, hname]
    exact h.named
  have hexpected : expected host d (afterIndex host (m.request host).received) =
      some (m.reply d) := by
    rw [expected, if_neg hne, hafter, hname, hargs, Made.reply]
    cases hb : d m.name with
    | none => rfl
    | some b =>
      obtain ⟨v, hv⟩ := Option.ne_none_iff_exists'.mp (h.returns b hb).2
      simp only [hv, Option.map_some, Option.getD_some]
  have hanswered : Answered host d (m.request host).received := by
    cases hb : d m.name with
    | none =>
      have hdispatch : (dispatch host d (afterIndex host (m.request host).received)).outcome =
          .returned (.error .netRpcFunctionNotFound) := by
        rw [dispatch, if_neg hne, hafter, hname, hb]
      refine answered_of_error hdispatch ?_
      rw [hexpected, Made.reply, hb]
    | some b =>
      obtain ⟨v, hv⟩ := Option.ne_none_iff_exists'.mp (h.returns b hb).2
      have hanswer : answer b (payload host (afterIndex host (m.request host).received)) =
          some v := by rw [hafter, hargs, hv]
      refine (answered_of_answer_iff hne ?_ hanswer).mpr fun _ => (h.returns b hb).1
      rw [hafter, hname, hb]
  rw [Answered, if_pos hreq, hexpected] at hanswered
  obtain ⟨e, bytes, heq, hhandle⟩ := hanswered
  rw [hhandle, hindex, Made.response, Option.some.inj heq]

theorem handle_response {s : Caller} {n : ℕ} (hindex : m.index ≠ 0)
    (hcalling : s.callings m.index = some n) (hpending : s.promise n = some .pending) :
    s.handleRpcResponse host (m.response d).received =
      (s.setPromise n (m.outcome d), ⟨some m.index, .returned true, some n⟩) := by
  have hcode : (m.reply d).1.toUnderlying < 2 ^ 32 := by
    cases (m.reply d).1 <;> decide
  have hnone : BitVec.ofNat 32 (m.reply d).1.toUnderlying =
      BitVec.ofNat 32 ErrorCode.none.toUnderlying ↔ (m.reply d).1 = .none := by
    cases (m.reply d).1 <;> decide
  obtain ⟨hread, hleft⟩ := (left_received (m.response d)).readInt host (w := 32) (by decide)
  have hdata : (m.response d).data = bigEndian m.index.toNat 4 ++
      (bigEndian (m.reply d).1.toUnderlying 4 ++ (m.reply d).2) := List.append_assoc _ _ _
  rw [hdata, scanInt_bigEndian m.index.isLt] at hread hleft
  obtain ⟨herror, hrest⟩ := hleft.readInt host (w := 32) (by decide)
  rw [scanInt_bigEndian hcode] at herror hrest
  have hindex' : ((m.response d).received.readInt host 32).2 = m.index := by
    rw [hread]
    exact BitVec.ofNat_toNat _ _ |>.trans (BitVec.setWidth_eq _)
  simp only [Caller.handleRpcResponse, hindex', if_neg hindex, hcalling, herror, ne_eq, hnone,
    hrest.drop_eq, Caller.satisfy_of_pending hpending, Made.outcome]
  by_cases hok : (m.reply d).1 = .none
  · rw [if_neg (not_not_intro hok), if_pos hok]
  · rw [if_pos hok, if_neg hok]

end Packets

section Pass

variable {host : Endian} {limit : Limit} {ps done todo : List Packet} {s : Inbox}
variable {rem rest : Stream}

/-- A pass over an input that, with what is still to come, is the bytes of some packets takes the
first packets and leaves the others. It fails only in front of a header that has been incomplete
too often. -/
def TakesFront (host : Endian) (ps : List Packet) (rest : Stream) (r : Handled) : Prop :=
  ∃ taken left, ps = taken ++ left ∧ r.packets = taken.map Packet.received ∧
    r.inbox.istream ++ rest = left.flatMap (encode host) ∧
    r.inbox.errorTimes.toNat ≤ kCantPeekMaxCount ∧
    (r.result = false → r.inbox.errorTimes.toNat = kCantPeekMaxCount)

@[simp] theorem Inbox.istream_checkFlag (s : Inbox) : s.checkFlag.istream = s.istream := by
  unfold Inbox.checkFlag
  split <;> rfl

@[simp] theorem Inbox.errorTimes_checkFlag (s : Inbox) :
    s.checkFlag.errorTimes = s.errorTimes := by
  unfold Inbox.checkFlag
  split <;> rfl

theorem takesFront_none {result : Bool} (hs : s.istream ++ rest = ps.flatMap (encode host))
    (he : s.errorTimes.toNat ≤ kCantPeekMaxCount)
    (hresult : result = false → kCantPeekMaxCount ≤ s.errorTimes.toNat) :
    TakesFront host ps rest ⟨result, [], s⟩ :=
  ⟨[], ps, rfl, rfl, hs, he, fun hf => Nat.le_antisymm he (hresult hf)⟩

theorem takesFront_few (hd : ∀ p ∈ done, p.Valid limit) (ht : ∀ p ∈ todo, p.Valid limit)
    (hr : Remains host todo rem) (hw : s.hasWork = true)
    (hs : s.istream = done.flatMap (encode host) ++ rem)
    (hrest : rem ++ rest = todo.flatMap (encode host))
    (he : s.errorTimes.toNat < kCantPeekMaxCount)
    (hb : rem ≠ [] ∧ done.length < kOnceHandlePacketCount ∨
      rem = [] ∧ done ≠ [] ∧ done.length ≤ kOnceHandlePacketCount) :
    TakesFront host (done ++ todo) rest
      (s.processCommand (decode host limit) Inbox.accepting) := by
  rw [Inbox.processCommand_few hd ht hr Inbox.handle_accepting hw hs he hb]
  refine ⟨done, todo, rfl, rfl, hrest, ?_, fun hf => absurd hf.symm Bool.false_ne_true⟩
  rw [Inbox.toNat_headerStops he]
  exact Inbox.headerStops_le he

theorem takesFront_many (hd : ∀ p ∈ done, p.Valid limit) (hw : s.hasWork = true)
    (hs : s.istream = done.flatMap (encode host) ++ rem)
    (hrest : rem ++ rest = todo.flatMap (encode host))
    (he : s.errorTimes.toNat < kCantPeekMaxCount) (hb : kOnceHandlePacketCount ≤ done.length)
    (hmore : ¬ (done.drop kOnceHandlePacketCount = [] ∧ rem = [])) :
    TakesFront host (done ++ todo) rest
      (s.processCommand (decode host limit) Inbox.accepting) := by
  rw [Inbox.processCommand_many hd Inbox.handle_accepting hw hs he hb hmore]
  refine ⟨done.take kOnceHandlePacketCount, done.drop kOnceHandlePacketCount ++ todo, ?_, rfl, ?_,
    Nat.zero_le _, fun hf => absurd hf.symm Bool.false_ne_true⟩
  · rw [← List.append_assoc, List.take_append_drop]
  · rw [List.append_assoc, hrest, List.flatMap_append]

theorem processCommand_front (hv : ∀ p ∈ ps, p.Valid limit)
    (hs : s.istream ++ rest = ps.flatMap (encode host))
    (he : s.errorTimes.toNat ≤ kCantPeekMaxCount) :
    TakesFront host ps rest (s.processCommand (decode host limit) Inbox.accepting) := by
  by_cases hw : s.hasWork = true
  swap
  · rw [Inbox.processCommand, if_neg hw]
    exact takesFront_none hs he fun hf => absurd hf.symm Bool.false_ne_true
  by_cases hsize : s.istream.size = 0
  · rw [Inbox.processCommand, if_pos hw, if_pos hsize]
    refine takesFront_none ?_ ?_ fun hf => absurd hf.symm Bool.false_ne_true <;> simpa
  by_cases hstuck : kCantPeekMaxCount ≤ s.errorTimes.toNat
  · rw [Inbox.processCommand, if_pos hw, if_neg hsize, if_pos hstuck]
    refine takesFront_none ?_ ?_ fun _ => ?_ <;> simpa
  obtain ⟨done, todo, rem, rfl, hsplit, hremains⟩ :=
    prefix_split (show s.istream <+: ps.flatMap (encode host) from ⟨rest, hs⟩)
  have hrest : rem ++ rest = todo.flatMap (encode host) := by
    rw [hsplit, List.append_assoc, List.flatMap_append] at hs
    exact List.append_cancel_left hs
  have hdone : ∀ p ∈ done, p.Valid limit := fun p hp => hv p (List.mem_append_left _ hp)
  have htodo : ∀ p ∈ todo, p.Valid limit := fun p hp => hv p (List.mem_append_right _ hp)
  have hlt : s.errorTimes.toNat < kCantPeekMaxCount := Nat.lt_of_not_le hstuck
  have hne : ¬ (done = [] ∧ rem = []) := fun hnil =>
    hsize (by rw [hsplit]; exact (Inbox.size_flatMap_encode host done rem).mpr hnil)
  -- The pass reaches the end of the whole packets, or it is used up before.
  by_cases hb : rem ≠ [] ∧ done.length < kOnceHandlePacketCount ∨
      rem = [] ∧ done ≠ [] ∧ done.length ≤ kOnceHandlePacketCount
  · exact takesFront_few hdone htodo hremains hw hsplit hrest hlt hb
  · obtain ⟨hle, hmore⟩ : kOnceHandlePacketCount ≤ done.length ∧
        ¬ (done.drop kOnceHandlePacketCount = [] ∧ rem = []) := by
      rw [List.drop_eq_nil_iff]
      by_cases hnil : rem = []
      · have hdone' : done ≠ [] := fun h => hne ⟨h, hnil⟩
        simp [hnil, hdone'] at hb
        omega
      · simp [hnil] at hb
        exact ⟨hb, by simp [hnil]⟩
    exact takesFront_many hdone hw hsplit hrest hlt hle hmore

end Pass

namespace Exchange

variable {host : Endian} {limit : Limit} {d : Dispatcher} {s : Exchange} {log : List Made}

/-- Of the calls so far the first are answered, the responses to the next are in the pass of the
calling end, then come those whose responses are on their way and those whose requests are. -/
structure Flow (host : Endian) (d : Dispatcher) (s : Exchange)
    (done taken waiting coming : List Made) : Prop where
  requests : s.serverBox.istream ++ s.caller.ostream =
    (coming.map (Made.request host)).flatMap (encode host)
  responses : s.callerBox.istream ++ s.serverOut =
    (waiting.map (Made.response d)).flatMap (encode host)
  pass : s.pass = (taken.map (Made.response d)).map Packet.received
  calls : s.caller.calls = (done.map fun m => ⟨m.index, m.outcome d⟩) ++
    (taken ++ (waiting ++ coming)).map fun m => ⟨m.index, .pending⟩

section Flow

variable {done taken waiting coming : List Made}

theorem Flow.promise (h : Flow host d s done taken waiting coming) {n : ℕ} {m : Made}
    (hm : (done ++ (taken ++ (waiting ++ coming)))[n]? = some m) :
    s.caller.promise n = some (if n < done.length then m.outcome d else .pending) := by
  rw [Caller.promise, h.calls]
  by_cases hn : n < done.length
  · rw [List.getElem?_append_left hn] at hm
    rw [List.getElem?_append_left (by simpa using hn), List.getElem?_map, hm, if_pos hn]
    rfl
  · rw [List.getElem?_append_right (Nat.le_of_not_lt hn)] at hm
    rw [List.getElem?_append_right (by simpa using hn), List.length_map, List.getElem?_map, hm,
      if_neg hn]
    rfl

/-- Where no bytes are on the way, no call is waiting. -/
theorem Flow.all_done (h : Flow host d s done taken waiting coming)
    (hrequests : s.serverBox.istream ++ s.caller.ostream = [])
    (hresponses : s.callerBox.istream ++ s.serverOut = []) (hpass : s.pass = []) :
    taken = [] ∧ waiting = [] ∧ coming = [] := by
  have hw := length_le_flatMap_encode host (waiting.map (Made.response d))
  have hc := length_le_flatMap_encode host (coming.map (Made.request host))
  have ht := h.pass
  rw [hpass, List.map_map, eq_comm, List.map_eq_nil_iff] at ht
  rw [← h.responses, hresponses, List.length_map] at hw
  rw [← h.requests, hrequests, List.length_map] at hc
  exact ⟨ht, List.length_eq_zero_iff.mp (Nat.le_zero.mp hw),
    List.length_eq_zero_iff.mp (Nat.le_zero.mp hc)⟩

end Flow

/-- What holds of the two ends in every state they come to. The connection is closed only by an end
that has seen too many incomplete headers. -/
structure Reached (host : Endian) (limit : Limit) (d : Dispatcher) (s : Exchange)
    (log : List Made) : Prop where
  stuck : s.failed = true → s.callerBox.errorTimes.toNat = kCantPeekMaxCount ∨
    s.serverBox.errorTimes.toNat = kCantPeekMaxCount
  counts : s.callerBox.errorTimes.toNat ≤ kCantPeekMaxCount ∧
    s.serverBox.errorTimes.toNat ≤ kCantPeekMaxCount
  flow : ∃ done taken waiting coming, log = done ++ (taken ++ (waiting ++ coming)) ∧
    Flow host d s done taken waiting coming
  counter : s.caller.callIndex = BitVec.ofNat 32 log.length
  numbered : ∀ n m, log[n]? = some m → m.index = BitVec.ofNat 32 (n + 1)
  recorded : ∀ i n, s.caller.callings i = some n ↔ n < log.length ∧ i = BitVec.ofNat 32 (n + 1)
  servable : ∀ m ∈ log, m.Servable limit d

theorem Reached.new : Exchange.new.Reached host limit d [] where
  stuck h := absurd h Bool.false_ne_true
  counts := ⟨Nat.zero_le _, Nat.zero_le _⟩
  flow := ⟨[], [], [], [], rfl, rfl, rfl, rfl, rfl⟩
  counter := rfl
  numbered := by simp
  recorded := by simp [Exchange.new, Caller.new]
  servable := by simp

theorem asyncCall_recorded {caller : Caller} {name args : List Byte}
    (hfree : caller.callings (caller.callIndex + 1) = none)
    (hsent : encode host ((Made.mk (caller.callIndex + 1) name args).request host) ≠ []) :
    (caller.asyncCall (encode host) host name args).1 =
      { callIndex := caller.callIndex + 1
        callings := fun i =>
          if i = caller.callIndex + 1 then some caller.calls.length else caller.callings i
        calls := caller.calls ++ [⟨caller.callIndex + 1, .pending⟩]
        ostream := caller.ostream ++
          encode host ((Made.mk (caller.callIndex + 1) name args).request host) } := by
  rw [Made.request] at hsent
  simp only [Caller.asyncCall, Caller.newCallIndex, Caller.sendCall,
    Caller.write_of_encode_ne hsent, Caller.emplace, hfree]
  rfl

theorem ofNat_inj {m n : ℕ} (hm : m < 2 ^ 32) (hn : n < 2 ^ 32)
    (h : BitVec.ofNat 32 m = BitVec.ofNat 32 n) : m = n := by
  have hnat := congrArg BitVec.toNat h
  rwa [BitVec.toNat_ofNat, BitVec.toNat_ofNat, Nat.mod_eq_of_lt hm, Nat.mod_eq_of_lt hn] at hnat

theorem Reached.next_index (h : s.Reached host limit d log) :
    s.caller.callIndex + 1 = BitVec.ofNat 32 (log.length + 1) := by
  rw [h.counter, BitVec.ofNat_add]
  rfl

theorem Reached.next_free (h : s.Reached host limit d log) (hcount : log.length + 1 < 2 ^ 32) :
    s.caller.callings (s.caller.callIndex + 1) = none := by
  cases hc : s.caller.callings (s.caller.callIndex + 1) with
  | none => rfl
  | some n =>
    obtain ⟨hn, heq⟩ := (h.recorded _ _).mp hc
    rw [h.next_index] at heq
    have hlength := ofNat_inj hcount (by omega) heq
    omega

theorem encode_ne_nil (host : Endian) (p : Packet) : encode host p ≠ [] := by
  intro hnil
  have hlength := length_encode host p
  rw [hnil, List.length_nil, kHeaderSize] at hlength
  omega

theorem recorded_next {callings : BitVec 32 → Option ℕ} {size : ℕ} (hcount : size + 1 < 2 ^ 32)
    (h : ∀ i n, callings i = some n ↔ n < size ∧ i = BitVec.ofNat 32 (n + 1)) (i : BitVec 32)
    (n : ℕ) :
    (if i = BitVec.ofNat 32 (size + 1) then some size else callings i) = some n ↔
      n < size + 1 ∧ i = BitVec.ofNat 32 (n + 1) := by
  split
  · next hi =>
    rw [hi]
    constructor
    · rintro ⟨⟩
      exact ⟨Nat.lt_succ_self _, rfl⟩
    · rintro ⟨hn, heq⟩
      have hsize := ofNat_inj hcount (by omega) heq
      exact congrArg some (by omega)
  · next hi =>
    rw [h]
    refine and_congr_left fun heq => ?_
    have hne : n ≠ size := by
      rintro rfl
      exact hi heq
    omega

theorem numbered_next {m : Made}
    (h : ∀ n m, log[n]? = some m → m.index = BitVec.ofNat 32 (n + 1))
    (hm : m.index = BitVec.ofNat 32 (log.length + 1)) (n : ℕ) (m' : Made)
    (hn : (log ++ [m])[n]? = some m') : m'.index = BitVec.ofNat 32 (n + 1) := by
  rcases Nat.lt_trichotomy n log.length with hlt | rfl | hlt
  · rw [List.getElem?_append_left hlt] at hn
    exact h n m' hn
  · rw [List.getElem?_append_right (Nat.le_refl _), Nat.sub_self] at hn
    cases hn
    exact hm
  · rw [List.getElem?_eq_none (by simp; omega)] at hn
    cases hn

theorem Reached.asyncCall (h : s.Reached host limit d log) {name args : List Byte}
    (hserve : ∀ index, (Made.mk index name args).Servable limit d)
    (hcount : log.length + 1 < 2 ^ 32) :
    Reached host limit d { s with caller := (s.caller.asyncCall (encode host) host name args).1 }
      (log ++ [⟨s.caller.callIndex + 1, name, args⟩]) := by
  obtain ⟨done, taken, waiting, coming, hlog, hflow⟩ := h.flow
  have hlength : s.caller.calls.length = log.length := by
    rw [hflow.calls, hlog]
    simp
  rw [asyncCall_recorded (h.next_free hcount) (encode_ne_nil host _), hlength]
  constructor
  case stuck => exact h.stuck
  case counts => exact h.counts
  case flow =>
    refine ⟨done, taken, waiting, coming ++ [⟨s.caller.callIndex + 1, name, args⟩], ?_, ?_,
      hflow.responses, hflow.pass, ?_⟩
    · simp [hlog]
    · simp only [List.map_append, List.flatMap_append, ← hflow.requests, List.append_assoc]
      simp
    · simp [hflow.calls]
  case counter =>
    rw [List.length_append]
    exact h.next_index
  case numbered => exact numbered_next h.numbered h.next_index
  case recorded =>
    intro i n
    simp only [List.length_append, List.length_singleton, h.next_index]
    exact recorded_next hcount h.recorded i n
  case servable =>
    intro m hm
    rcases List.mem_append.mp hm with hm | hm
    · exact h.servable m hm
    · rw [List.mem_singleton.mp hm]
      exact hserve _

theorem Reached.carry (h : s.Reached host limit d log) (count : ℕ) :
    Reached host limit d
      { s with
        caller := { s.caller with ostream := s.caller.ostream.drop count }
        serverBox := s.serverBox.deliver (s.caller.ostream.take count) } log := by
  obtain ⟨done, taken, waiting, coming, hlog, hflow⟩ := h.flow
  refine { h with
    flow := ⟨done, taken, waiting, coming, hlog, ?_, hflow.responses, hflow.pass, hflow.calls⟩ }
  simp only [Inbox.deliver, Inbox.setWork]
  rw [List.append_assoc, List.take_append_drop]
  exact hflow.requests

theorem Reached.carryBack (h : s.Reached host limit d log) (count : ℕ) :
    Reached host limit d
      { s with
        serverOut := s.serverOut.drop count
        callerBox := s.callerBox.deliver (s.serverOut.take count) } log := by
  obtain ⟨done, taken, waiting, coming, hlog, hflow⟩ := h.flow
  refine { h with
    flow := ⟨done, taken, waiting, coming, hlog, hflow.requests, ?_, hflow.pass, hflow.calls⟩ }
  simp only [Inbox.deliver, Inbox.setWork]
  rw [List.append_assoc, List.take_append_drop]
  exact hflow.responses

theorem handOver_requests (host : Endian) {ms : List Made}
    (hms : ∀ m ∈ ms, m.Servable limit d) (out : Stream) :
    handOver (serveOne host d) out ((ms.map (Made.request host)).map Packet.received) =
      (out ++ (ms.map (Made.response d)).flatMap (encode host), true) := by
  induction ms generalizing out with
  | nil => simp [handOver]
  | cons m ms ih =>
    rw [List.forall_mem_cons] at hms
    have hreq : (m.request host).received.isCallRequest = true :=
      (received_spec _).2.2.1.mpr (id_request host m)
    have hone : serveOne host d out (m.request host).received =
        (out ++ encode host (m.response d), true) := by
      simp [serveOne, hreq, hms.1.handle_request]
    simp only [List.map_cons, handOver, hone, ih hms.2, List.flatMap_cons, List.append_assoc]

theorem Reached.serve (h : s.Reached host limit d log) :
    (s.serve host limit d).Reached host limit d log := by
  obtain ⟨done, taken, waiting, coming, hlog, hflow⟩ := h.flow
  have hservable : ∀ m ∈ coming, m.Servable limit d := fun m hm =>
    h.servable m (by simp [hlog, hm])
  have hvalid : ∀ p ∈ coming.map (Made.request host), p.Valid limit := by
    intro p hp
    obtain ⟨m, hm, rfl⟩ := List.mem_map.mp hp
    exact (hservable m hm).valid_request
  obtain ⟨ps, left, hps, hpackets, hin, hcount, hfails⟩ :=
    processCommand_front hvalid hflow.requests h.counts.2
  obtain ⟨ms, coming', rfl, rfl, rfl⟩ := List.map_eq_append_iff.mp hps
  have hout := handOver_requests host (fun m hm => hservable m (List.mem_append_left _ hm))
    s.serverOut
  simp only [Exchange.serve, hpackets, hout, Bool.and_true]
  refine { h with
    stuck := fun hf => .inr (hfails (by simpa using hf))
    counts := ⟨h.counts.1, hcount⟩
    flow := ⟨done, taken, waiting ++ ms, coming', ?_, hin, ?_, hflow.pass, ?_⟩ }
  · simp [hlog]
  · simp only [List.map_append, List.flatMap_append, ← hflow.responses, List.append_assoc]
  · simp [hflow.calls]

theorem Reached.receive (h : s.Reached host limit d log) :
    (s.receive host limit).Reached host limit d log := by
  unfold Exchange.receive
  split
  swap
  · exact h
  next hidle =>
  obtain ⟨done, taken, waiting, coming, hlog, hflow⟩ := h.flow
  have htaken : taken = [] := by
    have hpass := hflow.pass
    rwa [hidle.1, List.map_map, eq_comm, List.map_eq_nil_iff] at hpass
  subst htaken
  have hvalid : ∀ p ∈ waiting.map (Made.response d), p.Valid limit := by
    intro p hp
    obtain ⟨m, hm, rfl⟩ := List.mem_map.mp hp
    exact (h.servable m (by simp [hlog, hm])).valid_response
  obtain ⟨ps, left, hps, hpackets, hin, hcount, hfails⟩ :=
    processCommand_front hvalid hflow.responses h.counts.1
  obtain ⟨ms, waiting', rfl, rfl, rfl⟩ := List.map_eq_append_iff.mp hps
  refine { h with
    stuck := fun hf => .inl (hfails (by simpa using hf))
    counts := ⟨hcount, h.counts.2⟩
    flow := ⟨done, ms, waiting', coming, ?_, hflow.requests, hin, hpackets, ?_⟩ }
  · simp [hlog]
  · simp [hflow.calls]

theorem modify_middle (calls rest : List Call) (call : Call) (f : Call → Call) :
    (calls ++ call :: rest).modify calls.length f = calls ++ f call :: rest := by
  rw [List.modify_eq_take_cons_drop (by simp)]
  simp

theorem received_response_flags (d : Dispatcher) (m : Made) :
    (m.response d).received.isCallRequest = false ∧
      (m.response d).received.isCallNotify = false ∧
      (m.response d).received.isCallResponse = true := by
  have hid : (m.response d).id = kRpcResponseId := rfl
  obtain ⟨-, -, hrequest, hresponse, hnotify⟩ := received_spec (m.response d)
  refine ⟨Bool.eq_false_iff.mpr fun hc => ?_, Bool.eq_false_iff.mpr fun hc => ?_,
    hresponse.mpr hid⟩
  · exact absurd (hid.symm.trans (hrequest.mp hc)) (by decide)
  · exact absurd (hid.symm.trans (hnotify.mp hc)) (by decide)

theorem Reached.index_spec (h : s.Reached host limit d log) (hcount : log.length < 2 ^ 32) {n : ℕ}
    {m : Made} (hn : log[n]? = some m) :
    m.index ≠ 0 ∧ s.caller.callings m.index = some n := by
  have hindex := h.numbered n m hn
  have hlt : n < log.length := (List.getElem?_eq_some_iff.mp hn).1
  refine ⟨fun hzero => ?_, (h.recorded _ _).mpr ⟨hlt, hindex⟩⟩
  have hsucc : n + 1 = 0 := ofNat_inj (by omega) (by omega) (hindex.symm.trans hzero)
  cases hsucc

theorem Reached.handle (h : s.Reached host limit d log) (hcount : log.length < 2 ^ 32) :
    (s.handle host).Reached host limit d log := by
  obtain ⟨done, taken, waiting, coming, hlog, hflow⟩ := h.flow
  unfold Exchange.handle
  split
  swap
  · exact h
  next p pass hheld hpass =>
  rw [hflow.pass] at hpass
  cases taken with
  | nil => cases hpass
  | cons m taken' =>
    obtain ⟨rfl, rfl⟩ := List.cons.inj hpass
    -- The response belongs to the first call that is not answered.
    have hn : log[done.length]? = some m := by
      rw [hlog, List.getElem?_append_right (Nat.le_refl _), Nat.sub_self]
      rfl
    obtain ⟨hnonzero, hcalling⟩ := h.index_spec hcount hn
    have hpending : s.caller.promise done.length = some .pending := by
      rw [hflow.promise (hlog ▸ hn), if_neg (Nat.lt_irrefl _)]
    have hcalls : s.caller.calls = (done.map fun m => ⟨m.index, m.outcome d⟩) ++
        ⟨m.index, .pending⟩ ::
          ((taken' ++ (waiting ++ coming)).map fun m => ⟨m.index, .pending⟩) := hflow.calls
    obtain ⟨hrequest, hnotify, hresponse⟩ := received_response_flags d m
    simp only [hrequest, hnotify, hresponse, Bool.or_self, Bool.false_eq_true, if_false,
      if_true, handle_response hnonzero hcalling hpending]
    refine { h with
      flow := ⟨done ++ [m], taken', waiting, coming, ?_, hflow.requests, hflow.responses, rfl, ?_⟩ }
    · simp [hlog]
    · have hlength : done.length = (done.map fun m => Call.mk m.index (m.outcome d)).length := by
        simp
      simp only [Caller.setPromise, hcalls]
      rw [hlength, modify_middle]
      simp

end Exchange

def ExchangeOp.Servable (limit : Limit) (d : Dispatcher) : ExchangeOp → Prop
  | .asyncCall name args => ∀ index, (Made.mk index name args).Servable limit d
  | .carry _ | .serve | .carryBack _ | .receive | .handle | .release => True

def runExchange (host : Endian) (limit : Limit) (d : Dispatcher) (ops : List ExchangeOp) :
    Exchange × List Made :=
  (((exchange host limit d).noting Made.note).run (.new, []) ops).1

section Runs

variable {host : Endian} {limit : Limit} {d : Dispatcher} {ops : List ExchangeOp}

theorem Exchange.Reached.step {s : Exchange} {log : List Made} {op : ExchangeOp}
    (h : s.Reached host limit d log) (hcount : log.length + 1 < 2 ^ 32)
    (hop : op.Servable limit d) :
    ((exchange host limit d).step s op).1.Reached host limit d (Made.note s log op) := by
  cases op with
  | asyncCall name args => exact h.asyncCall hop hcount
  | carry count =>
    simp only [exchange, Made.note]
    split
    · exact h
    · exact h.carry count
  | serve =>
    simp only [exchange, Made.note]
    split
    · exact h
    · exact h.serve
  | carryBack count =>
    simp only [exchange, Made.note]
    split
    · exact h
    · exact h.carryBack count
  | receive =>
    simp only [exchange, Made.note]
    split
    · exact h
    · exact h.receive
  | handle => exact h.handle (Nat.lt_of_succ_lt hcount)
  | release =>
    obtain ⟨done, taken, waiting, coming, hlog, hflow⟩ := h.flow
    exact { h with flow := ⟨done, taken, waiting, coming, hlog, { hflow with }⟩ }

theorem length_note_le (s : Exchange) (log : List Made) (op : ExchangeOp) :
    (Made.note s log op).length ≤ log.length + 1 := by
  cases op with
  | asyncCall name args => simp [Made.note]
  | carry | serve | carryBack | receive | handle | release => exact Nat.le_succ _

theorem runExchange_reached (host : Endian) (hops : ∀ op ∈ ops, op.Servable limit d)
    (hlength : ops.length < 2 ^ 32) :
    (runExchange host limit d ops).1.Reached host limit d (runExchange host limit d ops).2 := by
  suffices hrun : ∀ (ops : List ExchangeOp) (r : Exchange × List Made),
      r.1.Reached host limit d r.2 → r.2.length + ops.length < 2 ^ 32 →
      (∀ op ∈ ops, op.Servable limit d) →
      (((exchange host limit d).noting Made.note).run r ops).1.1.Reached host limit d
        (((exchange host limit d).noting Made.note).run r ops).1.2 from
    hrun ops (.new, []) .new (by simpa using hlength) hops
  intro ops
  induction ops with
  | nil => exact fun r hr _ _ => hr
  | cons op ops ih =>
    intro r hr hcount hops
    rw [List.forall_mem_cons] at hops
    rw [List.length_cons] at hcount
    refine ih _ (hr.step (by omega) hops.1) ?_ hops.2
    have hnote := length_note_le r.1 r.2 op
    simp only [Machine.noting]
    omega

end Runs

section Echo

def echoLimit : Limit := ⟨0xffff, 200⟩

def echo : Dispatcher := fun _ => some boolIdentity

/-- A call with the argument `true` that passes in two pieces, up to its response. -/
def echoOps : List ExchangeOp :=
  [.asyncCall [0x66] [11], .carry 9, .serve, .carry 9, .serve, .carryBack 20, .receive, .handle]

theorem servable_echoOps : ∀ op ∈ echoOps, op.Servable echoLimit echo := by
  have hcall : (Made.mk 1 [0x66] [11]).Servable echoLimit echo := by
    refine ⟨by decide, ?_, by decide, by decide, by decide⟩
    rintro b ⟨⟩
    exact ⟨rfl, by decide⟩
  simp only [echoOps, List.forall_mem_cons]
  refine ⟨fun index => ?_, trivial, trivial, trivial, trivial, trivial, trivial, trivial, by simp⟩
  exact ⟨hcall.named, hcall.returns, hcall.ids, hcall.request_le, hcall.response_le⟩

end Echo

end Plain.Connection
