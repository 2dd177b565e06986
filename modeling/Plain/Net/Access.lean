import Plain.Foundation.Machine
import Plain.Net.Fields
import Plain.Net.Framing

/-! # Access to a packet

The calls that can be made on one packet, in any order. Setting a flag to false clears
the readable flag whichever was meant, so the flags follow the settings only while no
other flag is cleared. A read behind a size that cannot be satisfied leaves the packet
behind the size.
-/

namespace Plain.Net

/-- The calls on a packet. The flags are set by `set_readable`, `set_writeable`,
`set_call_request`, `set_call_response` and `set_call_notify`. -/
inductive PacketOp where
  | set (type : PacketFlag) (flag : Bool)
  | writeString (str : List Byte)
  | writeBytes (bytes : List Byte)
  | write (bytes : List Byte)
  | readString
  | readBytes
  | read (length : ℕ)
  | remove (length : ℕ)
  deriving DecidableEq, Repr

/-- What a call returns: nothing, a number of bytes, or the bytes it delivers. -/
inductive PacketAnswer where
  | done
  | count (n : ℕ)
  | delivered (bytes : List Byte)
  deriving DecidableEq, Repr

def Packet.set (p : Packet) (flag : Bool) : PacketFlag → Packet
  | .readable => p.setReadable flag
  | .writeable => p.setWriteable flag
  | .callRequest => p.setCallRequest flag
  | .callResponse => p.setCallResponse flag
  | .callNotify => p.setCallNotify flag

namespace PacketOp

variable (host : Endian)

def apply (p : Packet) : PacketOp → Packet × PacketAnswer
  | set type flag => (p.set flag type, .done)
  | writeString str => ((p.writeString host str).1, .count (p.writeString host str).2)
  | writeBytes bytes => ((p.writeBytes host bytes).1, .count (p.writeBytes host bytes).2)
  | write bytes => ((p.write bytes).1, .count (p.write bytes).2)
  | readString => ((p.readString host).1, .delivered (p.readString host).2)
  | readBytes => ((p.readBytes host).1, .delivered (p.readBytes host).2)
  | read length => ((p.read length).1, .delivered ((p.read length).2.getD []))
  | remove length => ((p.remove length).1, .count (p.remove length).2)

def setting (settings : PacketFlag → Bool) : PacketOp → PacketFlag → Bool
  | set type flag => fun t => if t = type then flag else settings t
  | _ => settings

def Separate (p : Packet) : PacketOp → Prop
  | set type false =>
      type = .readable ∨ (p.haveFlag type = false ∧ p.haveFlag .readable = false)
  | _ => True

/-- A read that the bytes which are left cannot satisfy. -/
def Starved (p : Packet) : PacketOp → Prop
  | read length => p.data.length - p.offset < length
  | readString | readBytes =>
      p.data.length - p.offset < 4 ∨
        p.data.length - p.offset - 4 < ofBigEndian ((p.data.drop p.offset).take 4)
  | _ => False

instance (p : Packet) : (op : PacketOp) → Decidable (op.Starved p)
  | read _ => Nat.decLt _ _
  | readString | readBytes => instDecidableOr
  | set _ _ | writeString _ | writeBytes _ | write _ | remove _ => .isFalse id

end PacketOp

def lastSettings (ops : List PacketOp) : PacketFlag → Bool :=
  ops.foldl PacketOp.setting fun _ => false

def packetMachine (host : Endian) : Machine Packet PacketOp PacketAnswer where
  step p op := op.apply host p

namespace Packet

variable {p : Packet} {host : Endian} {Q : Packet → Prop}

theorem set_eq_setFlag (p : Packet) (flag : Bool) (type : PacketFlag) :
    p.set flag type = p.setFlag flag type := by
  cases type <;> rfl

section Keeps

theorem read_keeps
    (hoffset : ∀ p n, n ≤ p.data.length - p.offset → Q p → Q { p with offset := p.offset + n })
    (n : ℕ) (hp : Q p) : Q (p.read n).1 := by
  unfold read
  split
  · next h => exact hoffset p n h.2 hp
  · exact hp

theorem readInt_fst (w : ℕ) : (p.readInt host w).1 = (p.read (w / 8)).1 := by
  unfold readInt
  split <;> simp_all

theorem readString_keeps
    (hoffset : ∀ p n, n ≤ p.data.length - p.offset → Q p → Q { p with offset := p.offset + n })
    (hp : Q p) : Q (p.readString host).1 := by
  unfold readString
  split
  · have hint : Q (p.readInt host 32).1 := by
      rw [readInt_fst]
      exact read_keeps hoffset _ hp
    rcases hr : p.readInt host 32 with ⟨q, length⟩
    rw [hr] at hint
    simp only
    split
    · exact hint
    · have hread := read_keeps hoffset length.toNat hint
      split <;> simp_all
  · exact hp

/-- What every call does: it sets a flag, appends to the data or moves the offset inside
them. -/
theorem apply_keeps (op : PacketOp)
    (hset : ∀ p type flag, op = .set type flag → Q p → Q (p.setFlag flag type))
    (hdata : ∀ p bytes, Q p → Q { p with data := p.data ++ bytes })
    (hoffset : ∀ p n, n ≤ p.data.length - p.offset → Q p → Q { p with offset := p.offset + n })
    (hp : Q p) : Q (op.apply host p).1 := by
  have hwrite {p : Packet} (bytes : List Byte) (hp : Q p) : Q (p.write bytes).1 := by
    unfold write
    split
    · exact hdata p bytes hp
    · exact hp
  cases op with
  | set type flag =>
    rw [PacketOp.apply, set_eq_setFlag]
    exact hset p type flag rfl hp
  | writeString str =>
    simp only [PacketOp.apply, writeString]
    split
    · split
      · exact hp
      · exact hdata _ _ (hwrite _ hp)
    · exact hp
  | writeBytes bytes =>
    simp only [PacketOp.apply, writeBytes]
    split
    · exact hdata _ _ (hwrite _ hp)
    · exact hp
  | write bytes => exact hwrite bytes hp
  | readString => exact readString_keeps hoffset hp
  | readBytes => exact readString_keeps hoffset hp
  | read n => exact read_keeps hoffset n hp
  | remove n =>
    simp only [PacketOp.apply, remove]
    split
    · exact hoffset p _ le_rfl hp
    · next h => exact hoffset p n (Nat.le_of_not_lt h) hp

end Keeps

end Packet

section Permissions

variable {host : Endian} {p : Packet}

theorem haveFlag_apply (op : PacketOp) (hop : ∀ type flag, op ≠ .set type flag) :
    (op.apply host p).1.haveFlag = p.haveFlag := by
  refine Packet.apply_keeps (Q := fun q => q.haveFlag = p.haveFlag) op ?_ ?_ ?_ rfl
  · exact fun _ type flag h => absurd h (hop type flag)
  · exact fun _ _ h => h
  · exact fun _ _ _ h => h

/-- Clearing a flag keeps the flags in step with the settings in two cases: the flag is the
readable one, or both are clear already. -/
theorem setting_iff (settings : PacketFlag → Bool) (op : PacketOp)
    (h : p.haveFlag = settings) :
    (op.apply host p).1.haveFlag = op.setting settings ↔ op.Separate p := by
  subst h
  cases op with
  | set type flag =>
    have hflags : (p.set flag type).haveFlag = fun t =>
        if flag then type == t || p.haveFlag t else t != .readable && p.haveFlag t := by
      ext t
      rw [Packet.set_eq_setFlag, Packet.haveFlag_setFlag]
    rw [PacketOp.apply, hflags, funext_iff]
    cases flag with
    | true =>
      refine iff_of_true (fun t => ?_) trivial
      by_cases ht : t = type
      · simp [PacketOp.setting, ht]
      · simp [PacketOp.setting, ht, Ne.symm ht]
    | false =>
      constructor
      · intro h
        by_cases htype : type = .readable
        · exact Or.inl htype
        · have hself : p.haveFlag type = false := by
            simpa [PacketOp.setting, htype] using h type
          have hread : p.haveFlag .readable = false := by
            simpa [PacketOp.setting, Ne.symm htype] using h .readable
          exact Or.inr ⟨hself, hread⟩
      · rintro (rfl | ⟨htype, hread⟩) t
        · by_cases ht : t = .readable <;> simp [PacketOp.setting, ht]
        · by_cases ht : t = type
          · simp [PacketOp.setting, ht, htype]
          · by_cases hr : t = .readable <;> simp_all [PacketOp.setting]
  | _ => exact iff_of_true (haveFlag_apply _ (by simp)) trivial

theorem write_stores_iff {bytes : List Byte} (hne : bytes ≠ []) :
    ((p.write bytes).1.data ≠ p.data ↔ p.haveFlag .writeable = true) ∧
      ((p.writeString host bytes).1.data ≠ p.data ↔ p.haveFlag .writeable = true) ∧
      ((p.writeBytes host bytes).1.data ≠ p.data ↔ p.haveFlag .writeable = true) := by
  by_cases hw : p.haveFlag .writeable = true
  · rw [Packet.write_of_writeable hw, Packet.writeString_of_writeable hw,
      Packet.writeBytes_of_writeable hw]
    simp [hw, hne, Packet.stringField]
  · simp [hw, Packet.write, Packet.writeString, Packet.writeBytes]

theorem read_of_not_readable (hr : p.haveFlag .readable = false) (n : ℕ) :
    (p.read n).1 = p ∧ (p.readString host).1 = p ∧ (p.readBytes host).1 = p := by
  simp [Packet.read, Packet.readBytes, Packet.readString, hr]

theorem decode_ok {limit : Limit} {input rest : Stream}
    (h : decode host limit input = (.ok p, rest)) :
    ∃ id bytes, p = markCall id ⟨id, bytes, 0, 0b11⟩ := by
  unfold decode at h
  simp only [fill_packet] at h
  split_ifs at h <;> cases h
  exact ⟨_, _, rfl⟩

theorem decode_writeable {limit : Limit} {input rest : Stream}
    (h : decode host limit input = (.ok p, rest)) : p.haveFlag .writeable = true := by
  obtain ⟨id, bytes, rfl⟩ := decode_ok h
  rw [markCall_eq, Packet.haveFlag_eq_getLsbD, BitVec.getLsbD_or]
  have hbit : (0b11 : BitVec 8).getLsbD PacketFlag.writeable.ctorIdx = true := by decide
  exact Bool.or_eq_true_iff.mpr (Or.inl hbit)

/-- The flags of a packet follow the last settings exactly when every call that clears a flag
other than the readable one finds both clear. Writing stores data only if the packet is
writeable and reading consumes them only if it is readable, but every packet that `decode`
returns is writeable. -/
theorem flags_follow_settings_iff (host : Endian) (ops : List PacketOp) :
    ((∀ n, ((packetMachine host).run .new (ops.take n)).1.haveFlag = lastSettings (ops.take n)) ↔
      (packetMachine host).Along (fun p op => op.Separate p) .new ops) ∧
    (∀ (p : Packet) (bytes : List Byte), bytes ≠ [] →
      ((p.write bytes).1.data ≠ p.data ↔ p.haveFlag .writeable = true) ∧
      ((p.writeString host bytes).1.data ≠ p.data ↔ p.haveFlag .writeable = true) ∧
      ((p.writeBytes host bytes).1.data ≠ p.data ↔ p.haveFlag .writeable = true)) ∧
    (∀ (p : Packet) (n : ℕ), p.haveFlag .readable = false →
      (p.read n).1 = p ∧ (p.readString host).1 = p ∧ (p.readBytes host).1 = p) ∧
    ∀ (limit : Limit) (input rest : Stream) (p : Packet),
      decode host limit input = (.ok p, rest) → p.haveFlag .writeable = true := by
  refine ⟨?_, fun _ _ => write_stores_iff, fun _ n h => read_of_not_readable h n,
    fun _ _ _ _ => decode_writeable⟩
  refine (packetMachine host).run_history_iff (P := fun p settings => p.haveFlag = settings)
    (fun p settings op h => setting_iff settings op h) ?_ ops
  ext type
  cases type <;> rfl

/-- Withdrawing the permission to write withdraws the one to read. -/
theorem clearing_clears_readable :
    let ops := [.set .readable true, .set .writeable true, .set .writeable false]
    let p := ((packetMachine .little).run .new ops).1
    lastSettings ops .readable = true ∧ p.haveFlag .readable = false ∧
      lastSettings ops .writeable = false ∧ (p.write [1]).1.data = [1] := by
  decide

end Permissions

section Failure

variable {host : Endian} {p : Packet}

theorem offset_le_length (host : Endian) (ops : List PacketOp) :
    ((packetMachine host).run .new ops).1.offset ≤
      ((packetMachine host).run .new ops).1.data.length := by
  refine (packetMachine host).run_keeps (P := fun p => p.offset ≤ p.data.length) ?_
    (Nat.le_refl 0) ops
  intro p op hp
  refine Packet.apply_keeps (Q := fun p => p.offset ≤ p.data.length) op ?_ ?_ ?_ hp
  · intro p type flag _ h
    unfold Packet.setFlag
    split <;> exact h
  · intro p bytes h
    rw [List.length_append]
    exact Nat.le_add_right_of_le h
  · intro p n hn h
    exact (Nat.le_sub_iff_add_le' h).mp hn

theorem readString_starved (hle : p.offset ≤ p.data.length)
    (hstarved : PacketOp.readString.Starved p) :
    (p.readString host).2 = [] ∧ (p.readString host).1.data = p.data ∧
      ((p.readString host).1.offset = p.offset ↔
        (p.haveFlag .readable = true → p.data.length - p.offset < 4)) := by
  have hdata : (p.readString host).1.data = p.data :=
    Packet.readString_keeps (Q := fun q => q.data = p.data) (fun _ _ _ h => h) rfl
  by_cases hr : p.haveFlag .readable = true
  · have hleft : Left p (p.data.drop p.offset) := ⟨hr, hle, rfl⟩
    obtain ⟨hval, hleft'⟩ := hleft.readString host
    have hlen := hleft'.length_eq
    have hoff := hleft'.offset_le
    rw [hdata] at hlen hoff
    have hu : (p.data.drop p.offset).length = p.data.length - p.offset := List.length_drop
    by_cases hfour : p.data.length - p.offset < 4
    · have hscan : scanBytes (p.data.drop p.offset) = ([], p.data.drop p.offset) := by
        rw [scanBytes, scanInt_of_lt (by omega)]
        exact if_pos (Or.inl rfl)
      simp only [hscan, hu] at hval hlen
      refine ⟨hval, hdata, iff_of_true ?_ fun _ => hfour⟩
      omega
    · have hscan : scanBytes (p.data.drop p.offset) = ([], (p.data.drop p.offset).drop 4) := by
        rw [scanBytes, scanInt_of_le (by omega)]
        refine if_pos (Or.inr ?_)
        rw [List.length_drop, hu]
        exact hstarved.resolve_left hfour
      simp only [hscan, List.length_drop] at hval hlen
      refine ⟨hval, hdata, iff_of_false ?_ fun h => hfour (h hr)⟩
      omega
  · simp [Packet.readString, hr]

/-- A packet never has its offset behind its data. A read that the bytes left cannot satisfy
delivers nothing, and leaves the packet as it was exactly when it is a plain read, or no size
could be read. -/
theorem failed_read_unchanged_iff (host : Endian) (ops : List PacketOp) :
    let p := ((packetMachine host).run .new ops).1
    p.offset ≤ p.data.length ∧
      ∀ op : PacketOp, op.Starved p → (op.apply host p).2 = .delivered [] ∧
        ((op.apply host p).1.offset = p.offset ∧ (op.apply host p).1.data = p.data ↔
          (op = .readString ∨ op = .readBytes → p.haveFlag .readable = true →
            p.data.length - p.offset < 4)) := by
  have hle := offset_le_length host ops
  refine ⟨hle, ?_⟩
  intro op hstarved
  cases op with
  | readString | readBytes =>
    obtain ⟨hval, hdata, hoff⟩ := readString_starved hle hstarved
    refine ⟨congrArg PacketAnswer.delivered hval, ?_⟩
    simp [PacketOp.apply, Packet.readBytes, hdata, hoff]
  | read n =>
    have hnone : Packet.read _ n = (_, none) := if_neg fun h => absurd hstarved (Nat.not_lt.mpr h.2)
    simp [PacketOp.apply, hnone]
  | _ => exact absurd hstarved id

/-- A string of five bytes is announced and only two have come. The read delivers nothing and
leaves the offset behind the size. -/
theorem failed_read_moves_offset :
    let ops := [.set .writeable true, .write [0, 0, 0, 5, 1, 2], .set .readable true]
    let p := ((packetMachine .little).run .new ops).1
    PacketOp.readString.Starved p ∧ p.offset = 0 ∧
      (PacketOp.readString.apply .little p).2 = .delivered [] ∧
      (PacketOp.readString.apply .little p).1.offset = 4 := by
  decide

end Failure

end Plain.Net
