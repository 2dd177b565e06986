import Mathlib.Data.List.Basic
import Plain.Net.Packet

/-! # Packet framing

A packet is sent as a header with its id and its size, followed by its data. The
decoder works on a queue of received bytes. It takes one packet off the queue, or
fails and leaves the queue as it was.
-/

namespace Plain.Net

abbrev Stream := List Byte

namespace Stream

def size (input : Stream) : ℕ := input.length

def peek (input : Stream) (length : ℕ) : List Byte := input.take length

def remove (input : Stream) (length : ℕ) : Stream := input.drop length

def read (input : Stream) (length : ℕ) : List Byte × Stream :=
  (input.take length, input.drop length)

end Stream

structure Limit where
  maxId : BitVec 32
  maxLength : BitVec 32
  deriving DecidableEq, Repr

def kHeaderSize : ℕ := 6

section Codec

variable (host : Endian)

def encode (packet : Packet) : List Byte :=
  host.bytes (hton host packet.id) ++
    host.bytes (hton host (BitVec.ofNat 32 packet.data.length)) ++ packet.data

def markCall (id : BitVec 16) (p : Packet) : Packet :=
  if id = kRpcRequestId then p.setCallRequest true
  else if id = kRpcResponseId then p.setCallResponse true
  else if id = kRpcNotifyId then p.setCallNotify true
  else p

def decode (limit : Limit) (input : Stream) : Except ErrorCode Packet × Stream :=
  let head := input.peek kHeaderSize
  if head.length ≠ kHeaderSize then (.error .netPacketCantFill, input)
  else
    let id := ntoh host (host.ofBytes 16 (head.take 2))
    let length := ntoh host (host.ofBytes 32 (head.drop 2))
    if id = 0 ∨ id.toNat > limit.maxId.toNat ∨ length.toNat > limit.maxLength.toNat then
      (.error .netPacketInvalid, input)
    else if length.toNat + kHeaderSize > input.size then (.error .netPacketNeedRecv, input)
    else
      let p := (Packet.new.setId id).setWriteable true
      let (bytes, input) := (input.remove kHeaderSize).read length.toNat
      if bytes.length ≠ length.toNat then (.error .runTime, input)
      else
        let p := ((p.write bytes).1.setWriteable false).setReadable true
        (.ok (markCall id p), input)

/-- Decoding packet after packet until there is an error, in at most the given number
of calls. -/
def decodeAll (limit : Limit) : ℕ → Stream → Option (List Packet × ErrorCode × Stream)
  | 0, _ => none
  | fuel + 1, input =>
      match decode host limit input with
      | (.error e, input) => some ([], e, input)
      | (.ok p, input) => (decodeAll limit fuel input).map fun r => (p :: r.1, r.2)

end Codec

structure Packet.Valid (limit : Limit) (p : Packet) : Prop where
  id_pos : p.id ≠ 0
  id_le : p.id.toNat ≤ limit.maxId.toNat
  length_le : p.data.length ≤ limit.maxLength.toNat

instance (limit : Limit) (p : Packet) : Decidable (p.Valid limit) :=
  decidable_of_iff (p.id ≠ 0 ∧ p.id.toNat ≤ limit.maxId.toNat ∧
    p.data.length ≤ limit.maxLength.toNat) ⟨fun h => ⟨h.1, h.2.1, h.2.2⟩, fun h => ⟨h.1, h.2, h.3⟩⟩

def Packet.received (p : Packet) : Packet := markCall p.id ⟨p.id, p.data, 0, 0b11⟩

section Decode

variable {host : Endian} {limit : Limit} {p : Packet}

theorem encode_eq (host : Endian) (p : Packet) :
    encode host p =
      bigEndian p.id.toNat 2 ++ (bigEndian (p.data.length % 2 ^ 32) 4 ++ p.data) := by
  rw [encode, bytes_hton (by decide), bytes_hton (by decide), BitVec.toNat_ofNat,
    List.append_assoc]

theorem length_encode (host : Endian) (p : Packet) :
    (encode host p).length = kHeaderSize + p.data.length := by
  rw [encode_eq, List.length_append, List.length_append, length_bigEndian, length_bigEndian,
    kHeaderSize]
  omega

def callBit (id : BitVec 16) : BitVec 8 :=
  if id = kRpcRequestId then PacketFlag.callRequest.bit
  else if id = kRpcResponseId then PacketFlag.callResponse.bit
  else if id = kRpcNotifyId then PacketFlag.callNotify.bit
  else 0

theorem markCall_eq (id : BitVec 16) (p : Packet) :
    markCall id p = { p with flag := p.flag ||| callBit id } := by
  rw [markCall, callBit]
  split_ifs
  · rfl
  · rfl
  · rfl
  · exact congrArg (fun f => { p with flag := f }) (BitVec.or_zero).symm

theorem received_eq (p : Packet) : p.received = ⟨p.id, p.data, 0, 0b11 ||| callBit p.id⟩ :=
  markCall_eq _ _

theorem callBit_iff (id : BitVec 16) :
    ((0b11 ||| callBit id) &&& PacketFlag.callRequest.bit ≠ 0 ↔ id = kRpcRequestId) ∧
      ((0b11 ||| callBit id) &&& PacketFlag.callResponse.bit ≠ 0 ↔ id = kRpcResponseId) ∧
      ((0b11 ||| callBit id) &&& PacketFlag.callNotify.bit ≠ 0 ↔ id = kRpcNotifyId) := by
  rw [callBit]
  split_ifs with h₁ h₂ h₃
  · subst h₁; decide
  · subst h₂; decide
  · subst h₃; decide
  · refine ⟨iff_of_false (by decide) h₁, iff_of_false (by decide) h₂, iff_of_false (by decide) h₃⟩

theorem received_spec (p : Packet) :
    p.received.id = p.id ∧ p.received.data = p.data ∧
      (p.received.isCallRequest = true ↔ p.id = kRpcRequestId) ∧
      (p.received.isCallResponse = true ↔ p.id = kRpcResponseId) ∧
      (p.received.isCallNotify = true ↔ p.id = kRpcNotifyId) := by
  rw [received_eq]
  simpa [Packet.isCallRequest, Packet.isCallResponse, Packet.isCallNotify,
    Packet.haveFlag] using callBit_iff p.id

theorem decode_short {input : Stream} (h : input.length < kHeaderSize) :
    decode host limit input = (.error .netPacketCantFill, input) := by
  have hlen : (input.peek kHeaderSize).length ≠ kHeaderSize := by
    rw [Stream.peek, List.length_take]
    omega
  rw [decode, if_pos hlen]

theorem fill_packet (id : BitVec 16) (bytes : List Byte) :
    ((((Packet.new.setId id).setWriteable true).write bytes).1.setWriteable false).setReadable
      true = ⟨id, bytes, 0, 0b11⟩ := by
  have hw : ((Packet.new.setId id).setWriteable true).haveFlag .writeable = true := by
    simp [Packet.haveFlag, Packet.setWriteable, Packet.setFlag, Packet.setId, Packet.new,
      PacketFlag.bit]
  rw [Packet.write_of_writeable hw]
  simp [Packet.setReadable, Packet.setWriteable, Packet.setFlag, Packet.setId, Packet.new,
    PacketFlag.bit]

section Header

variable (host limit p)

theorem ntoh_id (id : BitVec 16) : ntoh host (host.ofBytes 16 (bigEndian id.toNat 2)) = id := by
  have hid := id.isLt
  rw [ntoh_ofBytes (by decide) host (by simp), ofBigEndian_bigEndian]
  apply BitVec.eq_of_toNat_eq
  rw [BitVec.toNat_ofNat]
  omega

theorem toNat_ntoh_length {n : ℕ} (hn : n < 2 ^ 32) :
    (ntoh host (host.ofBytes 32 (bigEndian n 4))).toNat = n := by
  rw [ntoh_ofBytes (by decide) host (by simp), ofBigEndian_bigEndian, BitVec.toNat_ofNat]
  omega

end Header

theorem decode_header (hv : p.Valid limit) {input : Stream} (body : List Byte)
    (hi : input = bigEndian p.id.toNat 2 ++ (bigEndian p.data.length 4 ++ body)) :
    decode host limit input =
      if p.data.length > body.length then (.error .netPacketNeedRecv, input)
      else (.ok ({ p with data := body.take p.data.length }).received,
        body.drop p.data.length) := by
  have hlen : p.data.length < 2 ^ 32 := lt_of_le_of_lt hv.length_le limit.maxLength.isLt
  have hpeek : input.peek kHeaderSize = bigEndian p.id.toNat 2 ++ bigEndian p.data.length 4 := by
    rw [hi, Stream.peek, ← List.append_assoc]
    exact List.take_left' (by simp [kHeaderSize])
  have hrem : input.remove kHeaderSize = body := by
    rw [hi, Stream.remove, ← List.append_assoc]
    exact List.drop_left' (by simp [kHeaderSize])
  have hsize : input.size = kHeaderSize + body.length := by
    simp only [Stream.size, hi, List.length_append, length_bigEndian, kHeaderSize]
    omega
  have hhead : ¬ (bigEndian p.id.toNat 2 ++ bigEndian p.data.length 4).length ≠ kHeaderSize := by
    simp [kHeaderSize]
  have hok : ¬ (p.id = 0 ∨ p.id.toNat > limit.maxId.toNat ∨
      p.data.length > limit.maxLength.toNat) := by
    have h₁ := hv.id_pos
    have h₂ := hv.id_le
    have h₃ := hv.length_le
    simp only [h₁, false_or]
    omega
  rw [decode, hpeek]
  simp only [List.take_left' (length_bigEndian _ _), List.drop_left' (length_bigEndian _ _),
    ntoh_id, toNat_ntoh_length host hlen]
  rw [if_neg hhead, if_neg hok, hsize, hrem]
  by_cases hshort : p.data.length > body.length
  · rw [if_pos hshort, if_pos (by omega)]
  · rw [if_neg hshort, if_neg (by omega)]
    have htake : ¬ (Stream.read body p.data.length).1.length ≠ p.data.length := by
      rw [Stream.read, List.length_take]
      omega
    rw [if_neg htake, fill_packet]
    rfl

theorem encode_valid (host : Endian) (hv : p.Valid limit) :
    encode host p =
      bigEndian p.id.toNat 2 ++ (bigEndian p.data.length 4 ++ p.data) := by
  rw [encode_eq, Nat.mod_eq_of_lt (lt_of_le_of_lt hv.length_le limit.maxLength.isLt)]

theorem decode_encode (hv : p.Valid limit) (rest : Stream) :
    decode host limit (encode host p ++ rest) = (.ok p.received, rest) := by
  rw [decode_header hv (p.data ++ rest)
    (by rw [encode_valid host hv, List.append_assoc, List.append_assoc])]
  rw [if_neg (by simp), List.take_left, List.drop_left]

theorem decode_partial (hv : p.Valid limit) {r : Stream} (hr : r <+: encode host p)
    (hne : r ≠ encode host p) :
    decode host limit r =
      (.error (if r.length < kHeaderSize then .netPacketCantFill else .netPacketNeedRecv), r) := by
  have hlt : r.length < kHeaderSize + p.data.length := by
    have hle := hr.length_le
    rw [length_encode] at hle
    refine lt_of_le_of_ne hle fun h => hne (hr.eq_of_length ?_)
    rw [h, length_encode]
  by_cases hshort : r.length < kHeaderSize
  · rw [if_pos hshort, decode_short hshort]
  · have hbody : r = bigEndian p.id.toNat 2 ++
        (bigEndian p.data.length 4 ++ p.data.take (r.length - kHeaderSize)) := by
      conv_lhs => rw [List.prefix_iff_eq_take.mp hr, encode_valid host hv]
      rw [← List.append_assoc, List.take_append, List.take_of_length_le
        (by simp [kHeaderSize] at hshort ⊢; omega), List.append_assoc]
      simp [kHeaderSize]
    rw [if_neg hshort, decode_header hv _ hbody, if_pos (by rw [List.length_take]; omega)]

end Decode

section Stream

variable {host : Endian} {limit : Limit} {ps : List Packet}

/-- The bytes that are left of packets still to come: a proper part of the first of them. -/
def Remains (host : Endian) : List Packet → Stream → Prop
  | [], r => r = []
  | p :: _, r => r <+: encode host p ∧ r ≠ encode host p

/-- Every part of the stream splits into whole packets and a remainder. -/
theorem prefix_split {s : Stream} (h : s <+: ps.flatMap (encode host)) :
    ∃ done todo r, ps = done ++ todo ∧ s = done.flatMap (encode host) ++ r ∧
      Remains host todo r := by
  induction ps generalizing s with
  | nil =>
    obtain rfl := List.prefix_nil.mp h
    exact ⟨[], [], [], rfl, rfl, rfl⟩
  | cons p ps ih =>
    rw [List.flatMap_cons] at h
    by_cases hp : encode host p <+: s
    · obtain ⟨t, rfl⟩ := hp
      obtain ⟨done, todo, r, hps, ht, hr⟩ := ih ((List.prefix_append_right_inj _).mp h)
      refine ⟨p :: done, todo, r, by rw [hps, List.cons_append], ?_, hr⟩
      rw [List.flatMap_cons, ht, List.append_assoc]
    · refine ⟨[], p :: ps, s, rfl, rfl, ?_, ?_⟩
      · exact (List.prefix_or_prefix_of_prefix h (List.prefix_append _ _)).resolve_right hp
      · rintro rfl
        exact hp (List.prefix_refl _)

/-- The error with which decoding stops in front of an incomplete packet. -/
def stopError (r : Stream) : ErrorCode :=
  if r.length < kHeaderSize then .netPacketCantFill else .netPacketNeedRecv

theorem decode_remains {todo : List Packet} (hv : ∀ p ∈ todo, p.Valid limit) {r : Stream}
    (hr : Remains host todo r) : decode host limit r = (.error (stopError r), r) := by
  cases todo with
  | nil =>
    obtain rfl : r = [] := hr
    exact decode_short (by decide)
  | cons p todo => exact decode_partial (hv p List.mem_cons_self) hr.1 hr.2

theorem decodeAll_append {done : List Packet} (hv : ∀ p ∈ done, p.Valid limit) {r : Stream}
    {e : ErrorCode} (hr : decode host limit r = (.error e, r)) {fuel : ℕ}
    (hf : done.length < fuel) :
    decodeAll host limit fuel (done.flatMap (encode host) ++ r) =
      some (done.map Packet.received, e, r) := by
  induction done generalizing fuel with
  | nil =>
    obtain ⟨fuel, rfl⟩ := Nat.exists_eq_add_one_of_ne_zero (Nat.ne_of_gt hf)
    rw [List.flatMap_nil, List.nil_append, decodeAll, hr]
    rfl
  | cons p done ih =>
    obtain ⟨fuel, rfl⟩ := Nat.exists_eq_add_one_of_ne_zero (show fuel ≠ 0 by omega)
    rw [List.flatMap_cons, List.append_assoc, decodeAll,
      decode_encode (hv p List.mem_cons_self)]
    dsimp only
    rw [ih (fun q hq => hv q (List.mem_cons_of_mem p hq)) (by simpa using hf)]
    rfl

theorem length_le_flatMap_encode (host : Endian) (ps : List Packet) :
    ps.length ≤ (ps.flatMap (encode host)).length := by
  induction ps with
  | nil => simp
  | cons p ps ih =>
    rw [List.flatMap_cons, List.length_append, length_encode, List.length_cons, kHeaderSize]
    omega

/-- Decoding any part of the bytes of a list of valid packets gives the packets that
lie completely inside it, in order and marked by their ids. It then stops in front of
the remaining bytes, which are a proper part of the next packet and stay where they are. -/
theorem decodeAll_prefix (hv : ∀ p ∈ ps, p.Valid limit) {s : Stream}
    (hs : s <+: ps.flatMap (encode host)) {fuel : ℕ} (hf : s.length < fuel) :
    ∃ done todo r, ps = done ++ todo ∧ s = done.flatMap (encode host) ++ r ∧
      Remains host todo r ∧
      decodeAll host limit fuel s = some (done.map Packet.received, stopError r, r) ∧
      ∀ p ∈ done, p.received.id = p.id ∧ p.received.data = p.data ∧
        (p.received.isCallRequest = true ↔ p.id = kRpcRequestId) ∧
        (p.received.isCallResponse = true ↔ p.id = kRpcResponseId) ∧
        (p.received.isCallNotify = true ↔ p.id = kRpcNotifyId) := by
  obtain ⟨done, todo, r, rfl, rfl, hr⟩ := prefix_split hs
  refine ⟨done, todo, r, rfl, rfl, hr, ?_, fun p _ => received_spec p⟩
  have hlen := length_le_flatMap_encode host done
  rw [List.length_append] at hf
  exact decodeAll_append (fun p hp => hv p (List.mem_append_left _ hp))
    (decode_remains (fun p hp => hv p (List.mem_append_right _ hp)) hr) (by omega)

/-- A notification of two bytes and the first byte of another packet. -/
theorem decodeAll_prefix_notify :
    ∃ done todo r, [(⟨kRpcNotifyId, [7, 8], 0, 0⟩ : Packet), ⟨1, [], 0, 0⟩] = done ++ todo ∧
      [0xff, 0xfc, 0, 0, 0, 2, 7, 8, 0] = done.flatMap (encode .little) ++ r ∧
      Remains .little todo r ∧
      decodeAll .little ⟨0xffff, 200⟩ 10 [0xff, 0xfc, 0, 0, 0, 2, 7, 8, 0] =
        some (done.map Packet.received, stopError r, r) ∧
      ∀ p ∈ done, p.received.id = p.id ∧ p.received.data = p.data ∧
        (p.received.isCallRequest = true ↔ p.id = kRpcRequestId) ∧
        (p.received.isCallResponse = true ↔ p.id = kRpcResponseId) ∧
        (p.received.isCallNotify = true ↔ p.id = kRpcNotifyId) :=
  decodeAll_prefix (by decide) (by decide) (by decide)

end Stream

end Plain.Net
