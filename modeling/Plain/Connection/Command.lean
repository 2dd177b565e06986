import Plain.Connection.WorkFlag
import Plain.Net.Framing

/-! # Handling received packets

The task of a connection decodes the packets in its input stream and hands them to
their handlers, at most twelve in one pass. A stream that ends inside a header counts
as an error; too many of them in a row end the connection.
-/

namespace Plain.Connection

open Net

structure Inbox where
  istream : Stream
  workFlags : BitVec 8
  errorTimes : BitVec 8
  deriving DecidableEq, Repr

structure Handlers where
  handleRpcRequest : Packet → Bool
  handleRpcResponse : Packet → Bool
  dispatcher : Option (Packet → Bool)
  managerDispatcher : Option (Packet → Bool)

/-- A packet nobody wants is only logged. -/
def Handlers.handle (h : Handlers) (p : Packet) : Bool :=
  if p.isCallRequest || p.isCallNotify then h.handleRpcRequest p
  else if p.isCallResponse then h.handleRpcResponse p
  else
    match h.dispatcher, h.managerDispatcher with
    | some dispatcher, _ => dispatcher p
    | none, some dispatcher => dispatcher p
    | none, none => true

def kOnceHandlePacketCount : ℕ := 12

def kCantPeekMaxCount : ℕ := 60

/-- What a function returned, the packets it handed over, and the connection after it. -/
structure Handled where
  result : Bool
  packets : List Packet
  inbox : Inbox
  deriving DecidableEq, Repr

namespace Inbox

def new : Inbox := ⟨[], 0, 0⟩

def hasWork (s : Inbox) : Bool := hasWorkFlag s.workFlags .command

def setWork (s : Inbox) (enable : Bool) : Inbox :=
  { s with workFlags := setWorkFlag s.workFlags .command enable }

/-- What runs whenever the scope of `process_command` is left. -/
def checkFlag (s : Inbox) : Inbox := if s.istream.size = 0 then s.setWork false else s

section Process

variable (decode : Stream → Except ErrorCode Packet × Stream) (h : Handlers)

/-- The loop over packets, with the number of passes left. -/
def handlePackets : ℕ → Inbox → Handled
  | 0, s => ⟨true, [], { s with errorTimes := 0 }⟩
  | i + 1, s =>
      match decode s.istream with
      | (.error e, istream) =>
          let s := { s with istream := istream }
          if e = .netPacketCantFill then
            ⟨true, [], { s.setWork false with errorTimes := s.errorTimes + 1 }⟩
          else if e = .netPacketNeedRecv then ⟨true, [], s.setWork false⟩
          else ⟨false, [], s⟩
      | (.ok p, istream) =>
          let s := { s with istream := istream }
          if h.handle p then
            if s.istream.size = 0 then ⟨true, [p], { s with errorTimes := 0 }⟩
            else
              let r := handlePackets i s
              { r with packets := p :: r.packets }
          else ⟨false, [p], s⟩

def processCommand (s : Inbox) : Handled :=
  if s.hasWork then
    if s.istream.size = 0 then ⟨true, [], s.checkFlag⟩
    else if s.errorTimes.toNat ≥ kCantPeekMaxCount then ⟨false, [], s.checkFlag⟩
    else
      let r := handlePackets decode h kOnceHandlePacketCount s
      { r with inbox := r.inbox.checkFlag }
  else ⟨true, [], s⟩

def deliver (s : Inbox) (chunk : List Byte) : Inbox :=
  { s with istream := s.istream ++ chunk }.setWork true

/-- Running again while there is work, in at most the given number of runs. -/
def settle : ℕ → Inbox → Option Handled
  | 0, _ => none
  | fuel + 1, s =>
      let r := processCommand decode h s
      if r.result = true ∧ r.inbox.hasWork = true then
        (settle fuel r.inbox).map fun q => { q with packets := r.packets ++ q.packets }
      else some r

def receive : List (List Byte) → Inbox → Option Handled
  | [], s => some ⟨true, [], s⟩
  | chunk :: chunks, s => do
      let s := s.deliver chunk
      let r ← settle decode h (s.istream.size + 1) s
      if r.result then
        let q ← receive chunks r.inbox
        some { q with packets := r.packets ++ q.packets }
      else some r

end Process

end Inbox

end Plain.Connection
