import Mathlib.Data.List.GetD
import Plain.Net.Framing

/-! # The line codec

A packet is sent as its data and a newline. The data of a call stand between two markers
that say which call it is. Neither the data nor the markers are escaped, and a line that
is too short for its call is taken for plain text, so calls get through the codec under a
condition on their data. So does plain text, which is taken for a call when it stands
between markers itself.
-/

namespace Plain.Net

inductive CallKind where
  | request | response | notify
  deriving DecidableEq, Repr

def kRpcRequestBegin : List Byte := [0x63, 0x72]
def kRpcRequestEnd : List Byte := [0x72, 0x63]
def kRpcResponseBegin : List Byte := [0x63, 0x6f]
def kRpcResponseEnd : List Byte := [0x6f, 0x63]
def kRpcNotifyBegin : List Byte := [0x63, 0x6e]
def kRpcNotifyEnd : List Byte := [0x6e, 0x63]

def kRpcRequestSizeMin : ℕ := 4 + 4 + 1
def kRpcNotifySizeMin : ℕ := 4 + 1
def kRpcResponseSizeMin : ℕ := 4 + 4 + 4 + 1

namespace CallKind

def flag : CallKind → PacketFlag
  | request => .callRequest
  | response => .callResponse
  | notify => .callNotify

def head : CallKind → List Byte
  | request => kRpcRequestBegin
  | response => kRpcResponseBegin
  | notify => kRpcNotifyBegin

def tail : CallKind → List Byte
  | request => kRpcRequestEnd
  | response => kRpcResponseEnd
  | notify => kRpcNotifyEnd

def sizeMin : CallKind → ℕ
  | request => kRpcRequestSizeMin
  | response => kRpcResponseSizeMin
  | notify => kRpcNotifySizeMin

/-- The line of `pos` bytes carries a call of this kind. -/
def framed (kind : CallKind) (bytes : List Byte) (pos : ℕ) : Bool :=
  kind.sizeMin ≤ pos ∧ bytes.take 2 = kind.head ∧ (bytes.drop (pos - 2)).take 2 = kind.tail

end CallKind

def newline : Byte := 0x0a

def carriageReturn : Byte := 0x0d

def lineEncode (packet : Packet) : List Byte :=
  let r := packet.data
  let r :=
    if packet.isCallRequest then kRpcRequestBegin ++ r ++ kRpcRequestEnd
    else if packet.isCallResponse then kRpcResponseBegin ++ r ++ kRpcResponseEnd
    else if packet.isCallNotify then kRpcNotifyBegin ++ r ++ kRpcNotifyEnd
    else r
  r ++ [newline]

def markLine (bytes : List Byte) (pos : ℕ) (p : Packet) : Packet :=
  if CallKind.request.framed bytes pos then p.setCallRequest true
  else if CallKind.response.framed bytes pos then p.setCallResponse true
  else if CallKind.notify.framed bytes pos then p.setCallNotify true
  else p

def linePacket (bytes : List Byte) (pos : ℕ) : Packet :=
  let p := markLine bytes pos Packet.new
  let p :=
    if 0 < pos then
      let p := p.setWriteable true
      let p :=
        if p.isCallRequest || p.isCallResponse || p.isCallNotify then
          (p.write ((bytes.drop 2).take (pos - 2))).1
        else (p.write (bytes.take pos)).1
      p.setWriteable false
    else p
  p.setReadable true

def stripReturn (bytes : List Byte) (pos : ℕ) : ℕ :=
  if 0 < pos ∧ bytes.getD (pos - 1) 0 = carriageReturn then pos - 1 else pos

/-- `line_decode`, which looks at as many bytes as `capacity()` says after the
`reserve(max_length)`. -/
def lineDecode (capacity : ℕ) (limit : Limit) (input : Stream) :
    Except ErrorCode Packet × Stream :=
  let bytes := input.peek capacity
  if bytes.length = 0 then (.error .netPacketNeedRecv, input)
  else
    match bytes.findIdx? (· = newline) with
    | none =>
        if bytes.length = limit.maxLength.toNat then (.error .runTime, input)
        else (.error .netPacketNeedRecv, input)
    | some pos =>
        (.ok (linePacket bytes (stripReturn bytes pos)), input.remove (pos + 1))

/-- The packet is flagged as a call of this kind and as no other. -/
def Packet.Calls (p : Packet) (kind : CallKind) : Prop :=
  ∀ k : CallKind, p.haveFlag k.flag = decide (k = kind)

/-- The packet comes out of the codec with its flag and its data, and nothing else is taken
off the stream. -/
def SurvivesLine (capacity : ℕ) (limit : Limit) (p : Packet) (rest : Stream) : Prop :=
  ∃ q, lineDecode capacity limit (lineEncode p ++ rest) = (.ok q, rest) ∧
    (∀ k : CallKind, q.haveFlag k.flag = p.haveFlag k.flag) ∧ p.data <+: q.data

namespace CallKind

variable (kind : CallKind)

@[simp] theorem length_head : kind.head.length = 2 := by cases kind <;> rfl

@[simp] theorem length_tail : kind.tail.length = 2 := by cases kind <;> rfl

theorem head_injective {k k' : CallKind} (h : k.head = k'.head) : k = k' := by
  revert h
  cases k <;> cases k' <;> decide

theorem forall_iff {q : CallKind → Prop} :
    (∀ kind, q kind) ↔ q request ∧ q response ∧ q notify := by
  constructor
  · intro h
    exact ⟨h request, h response, h notify⟩
  · rintro ⟨h₁, h₂, h₃⟩ kind
    cases kind <;> assumption

theorem newline_notMem_head : newline ∉ kind.head := by cases kind <;> decide

theorem newline_notMem_tail : newline ∉ kind.tail := by cases kind <;> decide

end CallKind

section Line

variable {kind : CallKind} {p : Packet} {d rest : List Byte}

def callLine (kind : CallKind) (d : List Byte) : List Byte := kind.head ++ d ++ kind.tail

@[simp] theorem length_callLine : (callLine kind d).length = d.length + 4 := by
  simp [callLine]
  omega

theorem newline_mem_callLine : newline ∈ callLine kind d ↔ newline ∈ d := by
  simp only [callLine, List.mem_append]
  have h₁ := kind.newline_notMem_head
  have h₂ := kind.newline_notMem_tail
  tauto

theorem lineEncode_of_calls (h : p.Calls kind) :
    lineEncode p = callLine kind p.data ++ [newline] := by
  have h₁ := h .request
  have h₂ := h .response
  have h₃ := h .notify
  simp only [CallKind.flag] at h₁ h₂ h₃
  cases kind <;>
    simp_all [lineEncode, Packet.isCallRequest, Packet.isCallResponse, Packet.isCallNotify,
      callLine, CallKind.head, CallKind.tail]

theorem framed_callLine (k : CallKind) (r : List Byte) :
    k.framed (callLine kind d ++ r) (d.length + 4) =
      decide (k.sizeMin ≤ d.length + 4 ∧ k = kind) := by
  have hhead : (callLine kind d ++ r).take 2 = kind.head := by
    rw [callLine, List.append_assoc, List.append_assoc, List.take_left' (by simp)]
  have htail : ((callLine kind d ++ r).drop (d.length + 4 - 2)).take 2 = kind.tail := by
    have hlen : d.length + 4 - 2 = (kind.head ++ d).length := by simp; omega
    rw [hlen, callLine, List.append_assoc, List.drop_left, List.take_left' (by simp)]
  rw [CallKind.framed, hhead, htail, decide_eq_decide]
  constructor
  · rintro ⟨hmin, hk, _⟩
    exact ⟨hmin, (CallKind.head_injective hk).symm⟩
  · rintro ⟨hmin, rfl⟩
    exact ⟨hmin, rfl, rfl⟩

theorem markLine_callLine (r : List Byte) (p : Packet) :
    markLine (callLine kind d ++ r) (d.length + 4) p =
      if kind.sizeMin ≤ d.length + 4 then p.setFlag true kind.flag else p := by
  simp only [markLine, framed_callLine, decide_eq_true_eq]
  cases kind <;> simp [CallKind.flag, Packet.setCallRequest, Packet.setCallResponse,
    Packet.setCallNotify]

/-- The packet of the line of a call: a call with the data and the end marker if the line
has the minimal size of the call, and else plain text. -/
theorem linePacket_callLine (r : List Byte) :
    linePacket (callLine kind d ++ r) (d.length + 4) =
      if kind.sizeMin ≤ d.length + 4 then
        ⟨0, d ++ kind.tail, 0, kind.flag.bit ||| PacketFlag.writeable.bit |||
          PacketFlag.readable.bit⟩
      else ⟨0, callLine kind d, 0, PacketFlag.writeable.bit ||| PacketFlag.readable.bit⟩ := by
  have hdata : ((callLine kind d ++ r).drop 2).take (d.length + 4 - 2) = d ++ kind.tail := by
    rw [callLine, List.append_assoc, List.append_assoc, List.drop_left' (by simp),
      ← List.append_assoc, List.take_left' (by simp)]
  have hline : (callLine kind d ++ r).take (d.length + 4) = callLine kind d :=
    List.take_left' (by simp)
  have hpos : 0 < d.length + 4 := Nat.succ_pos _
  by_cases hmin : kind.sizeMin ≤ d.length + 4
  · simp only [linePacket, markLine_callLine, if_pos hpos, if_pos hmin, hdata]
    cases kind <;> simp [Packet.setFlag, Packet.setWriteable, Packet.setReadable,
      Packet.isCallRequest, Packet.isCallResponse, Packet.isCallNotify, Packet.haveFlag,
      Packet.write, Packet.new, CallKind.flag, PacketFlag.bit]
  · simp only [linePacket, markLine_callLine, if_pos hpos, if_neg hmin, hline]
    simp [Packet.setFlag, Packet.setWriteable, Packet.setReadable, Packet.isCallRequest,
      Packet.isCallResponse, Packet.isCallNotify, Packet.haveFlag, Packet.write, Packet.new,
      PacketFlag.bit]

theorem findIdx_newline {body : List Byte} {n : ℕ} :
    ((body ++ newline :: rest).take n).findIdx? (· = newline) = some body.length ↔
      newline ∉ body ∧ body.length < n := by
  induction body generalizing n with
  | nil => cases n <;> simp [List.findIdx?_cons]
  | cons b body ih =>
    cases n with
    | zero => simp
    | succ n =>
      rw [List.cons_append, List.take_succ_cons, List.findIdx?_cons]
      by_cases hb : b = newline
      · simp [hb]
      · simp only [hb, decide_false, Bool.false_eq_true, if_false, Option.map_eq_some_iff,
          List.length_cons, Nat.add_right_cancel_iff, exists_eq_right, ih, List.mem_cons,
          Ne.symm hb, false_or, Nat.add_lt_add_iff_right]

theorem lineDecode_of_findIdx {capacity pos : ℕ} {limit : Limit} {input : Stream}
    (h : (input.peek capacity).findIdx? (· = newline) = some pos) :
    lineDecode capacity limit input =
      (.ok (linePacket (input.peek capacity) (stripReturn (input.peek capacity) pos)),
        input.remove (pos + 1)) := by
  have hne : (input.peek capacity).length ≠ 0 := by
    obtain ⟨hlt, _⟩ := List.findIdx?_eq_some_iff_getElem.mp h
    omega
  simp only [lineDecode, if_neg hne, h]

theorem lineDecode_of_findIdx_none {capacity : ℕ} {limit : Limit} {input : Stream}
    (h : (input.peek capacity).findIdx? (· = newline) = none) (q : Packet) :
    (lineDecode capacity limit input).1 ≠ .ok q := by
  simp only [lineDecode, h]
  split
  · exact nofun
  · split <;> exact nofun

theorem findIdx_of_lineDecode {capacity : ℕ} {limit : Limit} {q : Packet} {body : List Byte}
    (h : lineDecode capacity limit (body ++ newline :: rest) = (.ok q, rest)) :
    ((body ++ newline :: rest).take capacity).findIdx? (· = newline) = some body.length := by
  cases hfind : (Stream.peek (body ++ newline :: rest) capacity).findIdx? (· = newline) with
  | none => exact absurd (congrArg Prod.fst h) (lineDecode_of_findIdx_none hfind q)
  | some pos =>
    obtain ⟨hlt, _⟩ := List.findIdx?_eq_some_iff_getElem.mp hfind
    rw [lineDecode_of_findIdx hfind] at h
    have hlen := congrArg List.length (Prod.mk.inj h).2
    simp only [Stream.peek, Stream.remove, List.length_drop, List.length_append,
      List.length_cons, List.length_take] at hlen hlt
    refine hfind.trans (congrArg some ?_)
    omega

theorem stripReturn_callLine (r : List Byte) :
    stripReturn (callLine kind d ++ r) (d.length + 4) = d.length + 4 := by
  have hlast : (callLine kind d ++ r).getD (d.length + 4 - 1) 0 = 0x63 := by
    have hlen : d.length + 4 - 1 = (kind.head ++ d).length + 1 := by simp; omega
    rw [callLine, List.append_assoc, hlen, List.getD_append_right _ _ _ _ (by simp)]
    cases kind <;> simp <;> rfl
  rw [stripReturn, hlast]
  exact if_neg fun h => absurd h.2 (by decide)

theorem lineDecode_line {body : List Byte} {capacity : ℕ} (limit : Limit) (rest : List Byte)
    (hnot : newline ∉ body) (hcap : body.length < capacity)
    (hend : ∀ r, stripReturn (body ++ r) body.length = body.length) :
    ∃ r, lineDecode capacity limit (body ++ newline :: rest) =
      (.ok (linePacket (body ++ r) body.length), rest) := by
  have hfind : ((body ++ newline :: rest).take capacity).findIdx? (· = newline) =
      some body.length := findIdx_newline.mpr ⟨hnot, hcap⟩
  have htake : Stream.peek (body ++ newline :: rest) capacity =
      body ++ (newline :: rest).take (capacity - body.length) := by
    rw [Stream.peek, List.take_append, List.take_of_length_le (by omega)]
  have hdrop : Stream.remove (body ++ newline :: rest) (body.length + 1) = rest := by
    rw [Stream.remove, ← List.singleton_append, ← List.append_assoc]
    exact List.drop_left' (by simp)
  rw [lineDecode_of_findIdx hfind, htake, hend, hdrop]
  exact ⟨_, rfl⟩

theorem lineDecode_callLine (kind : CallKind) {capacity : ℕ} (limit : Limit) (rest : List Byte)
    (hnot : newline ∉ d) (hcap : d.length + 5 ≤ capacity) :
    ∃ r, lineDecode capacity limit (callLine kind d ++ newline :: rest) =
      (.ok (linePacket (callLine kind d ++ r) (d.length + 4)), rest) := by
  have hline : newline ∉ callLine kind d := newline_mem_callLine.not.mpr hnot
  simpa only [length_callLine] using lineDecode_line limit rest hline
    (by rwa [length_callLine]) (by simpa only [length_callLine] using stripReturn_callLine)

/-- A call gets through the codec exactly when its data have no newline and are long enough
for its kind, and its line is within what the decoder looks at. -/
theorem survivesLine_iff {capacity : ℕ} {limit : Limit} (h : p.Calls kind) :
    SurvivesLine capacity limit p rest ↔
      newline ∉ p.data ∧ kind.sizeMin ≤ p.data.length + 4 ∧ p.data.length + 5 ≤ capacity := by
  rw [SurvivesLine, lineEncode_of_calls h, List.append_assoc, List.singleton_append]
  constructor
  · rintro ⟨q, hq, hflags, _⟩
    obtain ⟨hnot, hcap⟩ := findIdx_newline.mp (findIdx_of_lineDecode hq)
    rw [newline_mem_callLine] at hnot
    rw [length_callLine] at hcap
    obtain ⟨r, hr⟩ := lineDecode_callLine kind limit rest hnot hcap
    rw [hr, linePacket_callLine] at hq
    refine ⟨hnot, ?_, hcap⟩
    by_contra hmin
    rw [if_neg hmin] at hq
    have hq' := (Except.ok.inj (Prod.mk.inj hq).1).symm
    have hflag := hflags kind
    rw [h kind, hq'] at hflag
    cases kind <;> simp [Packet.haveFlag, CallKind.flag, PacketFlag.bit] at hflag
  · rintro ⟨hnot, hmin, hcap⟩
    obtain ⟨r, hr⟩ := lineDecode_callLine kind limit rest hnot hcap
    refine ⟨_, hr, ?_, ?_⟩
    · intro k
      rw [h k, linePacket_callLine, if_pos hmin]
      cases kind <;> cases k <;> simp [Packet.haveFlag, CallKind.flag, PacketFlag.bit]
    · rw [linePacket_callLine, if_pos hmin]
      exact List.prefix_append _ _

end Line

section Text

variable {d : List Byte}

theorem framed_append (kind : CallKind) (r : List Byte) :
    kind.framed (d ++ r) d.length = kind.framed d d.length := by
  rw [CallKind.framed, CallKind.framed, decide_eq_decide]
  refine and_congr_right fun hmin => ?_
  have htwo : 2 ≤ d.length := Nat.le_trans (by cases kind <;> decide) hmin
  have hlast : (d.drop (d.length - 2)).length = 2 := by
    rw [List.length_drop]
    omega
  rw [List.take_append_of_le_length htwo, List.drop_append_of_le_length (Nat.sub_le _ _),
    List.take_append_of_le_length hlast.ge]

theorem haveFlag_linePacket (bytes : List Byte) (pos : ℕ) (kind : CallKind) :
    (linePacket bytes pos).haveFlag kind.flag =
      (markLine bytes pos Packet.new).haveFlag kind.flag := by
  have hset (p : Packet) : (p.setReadable true).haveFlag kind.flag = p.haveFlag kind.flag := by
    rw [Packet.setReadable, Packet.haveFlag_setFlag]
    cases kind <;> rfl
  have hset' (p : Packet) (b : Bool) :
      (p.setWriteable b).haveFlag kind.flag = p.haveFlag kind.flag := by
    rw [Packet.setWriteable, Packet.haveFlag_setFlag]
    cases kind <;> cases b <;> rfl
  simp only [linePacket, hset]
  split
  · rw [hset']
    split <;> rw [Packet.haveFlag_write, hset']
  · rfl

theorem haveFlag_markLine (bytes : List Byte) (pos : ℕ) :
    (∀ kind : CallKind, (markLine bytes pos Packet.new).haveFlag kind.flag = false) ↔
      ∀ kind : CallKind, kind.framed bytes pos = false := by
  rw [CallKind.forall_iff, CallKind.forall_iff, markLine]
  cases CallKind.request.framed bytes pos <;> cases CallKind.response.framed bytes pos <;>
    cases CallKind.notify.framed bytes pos <;> decide

theorem data_linePacket {bytes : List Byte} {pos : ℕ}
    (h : ∀ kind : CallKind, kind.framed bytes pos = false) :
    (linePacket bytes pos).data = bytes.take pos := by
  simp only [linePacket, markLine, h, Bool.false_eq_true, if_false]
  by_cases hpos : 0 < pos
  · simp [hpos, Packet.setFlag, Packet.setWriteable, Packet.setReadable,
      Packet.isCallRequest, Packet.isCallResponse, Packet.isCallNotify, Packet.haveFlag,
      Packet.write, Packet.new, PacketFlag.bit]
  · obtain rfl : pos = 0 := by omega
    rfl

theorem stripReturn_of_getLast (hd : d.getLast? ≠ some carriageReturn) (r : List Byte) :
    stripReturn (d ++ r) d.length = d.length := by
  refine if_neg ?_
  rintro ⟨hpos, hlast⟩
  rw [List.getD_append _ _ _ _ (by omega), List.getD_eq_getElem _ _ (by omega)] at hlast
  apply hd
  rw [List.getLast?_eq_getElem?, List.getElem?_eq_getElem (by omega), hlast]

theorem lineEncode_text {p : Packet} (h : ∀ kind : CallKind, p.haveFlag kind.flag = false) :
    lineEncode p = p.data ++ [newline] := by
  have h₁ : p.isCallRequest = false := h .request
  have h₂ : p.isCallResponse = false := h .response
  have h₃ : p.isCallNotify = false := h .notify
  simp [lineEncode, h₁, h₂, h₃]

/-- A text line gets through the codec exactly when it does not stand between the markers of
a call. A queue that is not full and has no newline is left as it is. -/
theorem text_roundTrip_iff (limit : Limit) :
    (∀ (p : Packet) (rest : Stream), (∀ kind : CallKind, p.haveFlag kind.flag = false) →
      newline ∉ p.data → p.data.getLast? ≠ some carriageReturn →
      p.data.length < limit.maxLength.toNat →
      ((∃ q, lineDecode limit.maxLength.toNat limit (lineEncode p ++ rest) = (.ok q, rest) ∧
          q.data = p.data ∧ ∀ kind : CallKind, q.haveFlag kind.flag = false) ↔
        ∀ kind : CallKind, kind.framed p.data p.data.length = false)) ∧
    ∀ input : Stream, input.length < limit.maxLength.toNat → newline ∉ input →
      lineDecode limit.maxLength.toNat limit input = (.error .netPacketNeedRecv, input) := by
  constructor
  · intro p rest htext hnot hend hlen
    obtain ⟨r, hr⟩ := lineDecode_line limit rest hnot hlen (stripReturn_of_getLast hend)
    rw [lineEncode_text htext, List.append_assoc, List.singleton_append, hr]
    have hframed : (∀ kind : CallKind, kind.framed (p.data ++ r) p.data.length = false) ↔
        ∀ kind : CallKind, kind.framed p.data p.data.length = false :=
      forall_congr' fun kind => by rw [framed_append]
    rw [← hframed, ← haveFlag_markLine]
    constructor
    · rintro ⟨q, hq, -, hflags⟩ kind
      obtain rfl := Except.ok.inj (Prod.mk.inj hq).1
      rw [← haveFlag_linePacket]
      exact hflags kind
    · intro hmark
      refine ⟨_, rfl, ?_, fun kind => ?_⟩
      · rw [data_linePacket ((haveFlag_markLine _ _).mp hmark), List.take_left]
      · rw [haveFlag_linePacket, hmark]
  · intro input hlen hnot
    have htake : input.peek limit.maxLength.toNat = input := List.take_of_length_le hlen.le
    have hfind : input.findIdx? (· = newline) = none := by
      rw [List.findIdx?_eq_none_iff]
      rintro b hb
      exact decide_eq_false fun h => hnot (h ▸ hb)
    simp only [lineDecode, htake, hfind, if_neg hlen.ne, ite_self]

/-- The text "crABCDErc" is nine bytes long and stands between the markers of a request. It
comes out of the codec as a call request with the data "ABCDErc". -/
theorem text_taken_for_call :
    lineDecode 64 ⟨0xffff, 64⟩
        (lineEncode ⟨0, [0x63, 0x72, 65, 66, 67, 68, 69, 0x72, 0x63], 0, 3⟩) =
      (.ok ⟨0, [65, 66, 67, 68, 69, 0x72, 0x63], 0, 7⟩, []) ∧
    Packet.haveFlag ⟨0, [65, 66, 67, 68, 69, 0x72, 0x63], 0, 7⟩ .callRequest = true := by
  decide

end Text

end Plain.Net
