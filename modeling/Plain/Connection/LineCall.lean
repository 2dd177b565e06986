import Plain.Connection.Request
import Plain.Connection.Response
import Plain.Net.Line

/-! # Calls over the line codec

The requests, responses and notifications a connection builds, and what becomes of them
when the connection uses the line codec.
-/

namespace Plain.Connection

open Plain.Net

inductive CallMessage where
  | request (index : BitVec 32) (name args : List Byte)
  | response (index : BitVec 32) (result : Except ErrorCode (List Byte))
  | notify (name args : List Byte)

def notifyPacket (host : Endian) (name args : List Byte) : Packet :=
  let packet := ((Packet.new.setWriteable true).setId kRpcNotifyId).setCallNotify true
  ((packet.writeString host name).1.write args).1

namespace CallMessage

def packet (host : Endian) : CallMessage → Packet
  | request index name args => (Caller.callPacket host index name args).setCallRequest true
  | response index (.error e) =>
      (responseHead host index (BitVec.ofNat 32 e.toUnderlying)).setWriteable false
  | response index (.ok packer) =>
      ((responseHead host index (BitVec.ofNat 32 ErrorCode.none.toUnderlying)).write
        packer).1.setWriteable false
  | notify name args => notifyPacket host name args

theorem makeResponse_eq (host : Endian) (index : BitVec 32)
    (result : Except ErrorCode (List Byte)) :
    makeResponse host index (result.map some) =
      .returned ((response index result).packet host) := by
  cases result <;> rfl

def kind : CallMessage → CallKind
  | request _ _ _ => .request
  | response _ _ => .response
  | notify _ _ => .notify

/-- Something follows the fields that every message of its kind has. -/
def HasContent : CallMessage → Prop
  | request _ name args => name ≠ [] ∨ args ≠ []
  | response _ result => ∃ packer, result = .ok packer ∧ packer ≠ []
  | notify name args => name ≠ [] ∨ args ≠ []

def fields : CallMessage → List Byte
  | request index name args => bigEndian index.toNat 4 ++ Packet.stringField name ++ args
  | response index (.error e) => bigEndian index.toNat 4 ++ bigEndian e.toUnderlying 4
  | response index (.ok packer) =>
      bigEndian index.toNat 4 ++ bigEndian ErrorCode.none.toUnderlying 4 ++ packer
  | notify name args => Packet.stringField name ++ args

theorem packet_eq (host : Endian) (m : CallMessage) :
    (m.packet host).data = m.fields ∧
      (m.packet host).flag = PacketFlag.writeable.bit ||| m.kind.flag.bit := by
  rcases m with ⟨index, name, args⟩ | ⟨index, e | packer⟩ | ⟨name, args⟩
  · have hw : ((Packet.new.setWriteable true).setId kRpcRequestId).haveFlag .writeable = true := by
      decide
    simp only [packet, Caller.callPacket]
    rw [Packet.writeInt_of_writeable (by decide) hw, Packet.writeString_of_writeable (by exact hw),
      Packet.write_of_writeable (by exact hw)]
    exact ⟨rfl, rfl⟩
  · have h := makeResponse_eq host index (.error e)
    rw [Except.map, makeResponse_error] at h
    rw [← Outcome.returned.inj h]
    exact ⟨List.append_nil _, rfl⟩
  · have h := makeResponse_eq host index (.ok packer)
    rw [Except.map, makeResponse_packer] at h
    rw [← Outcome.returned.inj h]
    exact ⟨rfl, rfl⟩
  · have hw : (((Packet.new.setWriteable true).setId kRpcNotifyId).setCallNotify true).haveFlag
        .writeable = true := by decide
    simp only [packet, notifyPacket]
    rw [Packet.writeString_of_writeable hw, Packet.write_of_writeable (by exact hw)]
    exact ⟨rfl, rfl⟩

theorem calls_packet (host : Endian) (m : CallMessage) : (m.packet host).Calls m.kind := by
  intro k
  rw [Packet.haveFlag, (packet_eq host m).2]
  cases m.kind <;> cases k <;> rfl

theorem stringField_ne_nil {str : List Byte} : Packet.stringField str ≠ [] ↔ str ≠ [] := by
  unfold Packet.stringField
  split <;> simp_all

theorem sizeMin_le_iff (m : CallMessage) : m.kind.sizeMin ≤ m.fields.length + 4 ↔ m.HasContent := by
  have hpos (l : List Byte) : 1 ≤ l.length ↔ l ≠ [] := by
    rw [Nat.one_le_iff_ne_zero, ne_eq, List.length_eq_zero_iff]
  rcases m with ⟨index, name, args⟩ | ⟨index, e | packer⟩ | ⟨name, args⟩
  · rw [HasContent, ← stringField_ne_nil, ← hpos, ← hpos]
    simp only [kind, CallKind.sizeMin, kRpcRequestSizeMin, fields, List.length_append,
      length_bigEndian]
    omega
  · simp [HasContent, kind, CallKind.sizeMin, kRpcResponseSizeMin, fields]
  · simp only [HasContent, kind, CallKind.sizeMin, kRpcResponseSizeMin, fields,
      List.length_append, length_bigEndian, Except.ok.injEq, exists_eq_left', ← hpos]
    omega
  · rw [HasContent, ← stringField_ne_nil, ← hpos, ← hpos]
    simp only [kind, CallKind.sizeMin, kRpcNotifySizeMin, fields, List.length_append]
    omega

end CallMessage

/-- A call message gets through the line codec exactly when no byte of it is a newline, it
has content, and its line is within what the decoder looks at. -/
theorem call_survives_line_iff (host : Endian) (capacity : ℕ) (limit : Limit) (m : CallMessage)
    (rest : Stream) :
    SurvivesLine capacity limit (m.packet host) rest ↔
      newline ∉ m.fields ∧ m.HasContent ∧ m.fields.length + 5 ≤ capacity := by
  rw [survivesLine_iff (m.calls_packet host), (m.packet_eq host).1, m.sizeMin_le_iff]

/-- The tenth call is cut at its index, and the response to a failed call loses its flag. -/
theorem calls_lost_by_line :
    lineDecode 64 ⟨0xffff, 64⟩ (lineEncode ((CallMessage.request 10 [0x66] []).packet .little)) =
        (.ok ⟨0, [0x63, 0x72, 0, 0, 0], 0, 0b11⟩, [0, 0, 0, 1, 0x66, 0x72, 0x63, 0x0a]) ∧
      lineDecode 64 ⟨0xffff, 64⟩
          (lineEncode ((CallMessage.response 1 (.error .netPacketInvalid)).packet .little)) =
        (.ok ⟨0, [0x63, 0x6f, 0, 0, 0, 1, 0, 0, 0, 4, 0x6f, 0x63], 0, 0b11⟩, []) := by
  decide +kernel

end Plain.Connection
