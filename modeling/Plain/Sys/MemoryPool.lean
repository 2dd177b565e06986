import Plain.Foundation.Arena
import Plain.Foundation.Int32
import Plain.Foundation.Machine
import Mathlib.Logic.Function.Basic

/-! # The memory pool

The pool has a number of leaves. `malloc` takes bytes off the end of a leaf with one atomic
subtraction and writes a header in front of what it returns. `free` finds the leaf in the header,
adds to the bytes that were given back there, and resets the leaf when these are all that were
taken. Threads interleave at their accesses to what they share. A call of `free` is taken as one
step where nobody else runs during it, and in its single steps otherwise. The counts are atomic
variables of 32 bits, and they wrap around.
-/

namespace Plain.Sys

open Arena

/-- The parameters of a pool, its own address, and for how many leaves the system has no memory.
The constructor sorts the leaves by their addresses, which puts those in front. -/
structure PoolConfig where
  leafSize : ℕ
  leafCount : ℕ
  average : ℕ
  self : UInt64
  missing : ℕ
  leafSize_lt : leafSize < 2 ^ 31
  leafCount_pos : 0 < leafCount

def PoolConfig.next (c : PoolConfig) (leaf : ℕ) : ℕ :=
  if leaf + 1 = c.leafCount then 0 else leaf + 1

/-- What was allocated: `size` bytes behind a header at `offset`. -/
structure PoolBlock where
  leaf : ℕ
  offset : ℕ
  size : ℕ
  deriving DecidableEq, Repr

structure AllocHeader where
  tag : UInt64
  size : ℤ
  leafId : ℕ
  deriving DecidableEq, Repr

structure Leaf where
  available : ℤ
  deallocated : ℤ
  deriving DecidableEq, Repr

/-- What a thread does next, in `malloc` up to `header` and in `free` from `add` on. It is `wild`
when it has read a header that is none. -/
inductive Pooling where
  | idle
  | load (size start leaf : ℕ)
  | sub (size start leaf : ℕ)
  | store (start : ℕ) (block : PoolBlock)
  | header (block : PoolBlock)
  | add (block : PoolBlock)
  | read (block : PoolBlock) (deallocated : ℤ)
  | exchange (block : PoolBlock) (deallocated available : ℤ)
  | deduct (block : PoolBlock) (deallocated : ℤ)
  | clear (block : PoolBlock)
  | wild
  deriving DecidableEq, Repr

/-- The pool. At a place where bytes were written since a header was, there is no header. The
blocks that are `owned` were returned by `malloc` and not given to `free`. -/
structure MemoryPool where
  leaves : ℕ → Leaf
  curLeaf : ℕ
  headers : ℕ → ℕ → Option AllocHeader
  threads : ℕ → Pooling
  owned : List PoolBlock

/-- A thread calls `malloc` or makes its next step, a byte of a block is written by its owner, and
a thread calls `free`, while no other runs or to go on with it step by step. -/
inductive PoolOp where
  | malloc (thread size : ℕ)
  | step (thread : ℕ)
  | write (block : PoolBlock) (byte : ℕ)
  | free (thread : ℕ) (block : PoolBlock)
  | begin (thread : ℕ) (block : PoolBlock)
  deriving DecidableEq, Repr

/-- `malloc` has got a block or goes to the system; `free` has not found a header of its own. -/
inductive PoolAnswer where
  | silent
  | allocated (block : PoolBlock)
  | escalated
  | refused
  deriving DecidableEq, Repr

def headerSize : ℕ := 16

/-- The size of an allocation together with its header, as an `int32_t`. -/
def realSize (size : ℕ) : ℤ := (BitVec.ofNat 32 (size + headerSize)).toInt

/-- A header is written, and whatever it overlaps is gone. -/
def putHeader (headers : ℕ → ℕ → Option AllocHeader) (leaf offset : ℕ) (h : AllocHeader) :
    ℕ → ℕ → Option AllocHeader := fun l o =>
  if l = leaf ∧ o < offset + headerSize ∧ offset < o + headerSize then
    if o = offset then some h else none
  else headers l o

def putByte (headers : ℕ → ℕ → Option AllocHeader) (leaf place : ℕ) :
    ℕ → ℕ → Option AllocHeader := fun l o =>
  if l = leaf ∧ o ≤ place ∧ place < o + headerSize then none else headers l o

namespace PoolBlock

def extent (b : PoolBlock) : Extent := ⟨b.offset, b.size + headerSize⟩

def header (c : PoolConfig) (b : PoolBlock) : AllocHeader :=
  ⟨c.self + UInt64.ofNat b.leaf, (BitVec.ofNat 32 b.size).toInt, b.leaf⟩

def Apart (b b' : PoolBlock) : Prop := b.leaf = b'.leaf → b.extent.Apart b'.extent

end PoolBlock

/-- The test of `free` and `check_access`, but for the buffer of the leaf. -/
def AllocHeader.isOwn (c : PoolConfig) (h : AllocHeader) : Bool :=
  0 ≤ h.size && h.size < c.leafSize && h.leafId < c.leafCount &&
    c.self == h.tag - UInt64.ofNat h.leafId

namespace MemoryPool

variable (c : PoolConfig)

def new : MemoryPool where
  leaves leaf := if leaf < c.missing then ⟨0, c.leafSize⟩ else ⟨c.leafSize, 0⟩
  curLeaf := 0
  headers _ _ := none
  threads _ := .idle
  owned := []

def setThread (s : MemoryPool) (t : ℕ) (next : Pooling) : MemoryPool :=
  { s with threads := Function.update s.threads t next }

def setLeaf (s : MemoryPool) (leaf : ℕ) (l : Leaf) : MemoryPool :=
  { s with leaves := Function.update s.leaves leaf l }

def headerAt (s : MemoryPool) (b : PoolBlock) : Option AllocHeader := s.headers b.leaf b.offset

/-- The end of the loop of `malloc`: the next leaf, or the system. -/
def advance (s : MemoryPool) (t size start leaf : ℕ) : MemoryPool × PoolAnswer :=
  if c.next leaf = start then (s.setThread t .idle, .escalated)
  else (s.setThread t (.load size start (c.next leaf)), .silent)

def loadAvailable (s : MemoryPool) (t size start leaf : ℕ) : MemoryPool × PoolAnswer :=
  -- an empty leaf ends the search, whatever the others have
  if (s.leaves leaf).available ≤ 0 then (s.setThread t .idle, .escalated)
  else if realSize size ≤ (s.leaves leaf).available then
    (s.setThread t (.sub size start leaf), .silent)
  else s.advance c t size start leaf

/-- The subtraction is not taken back when the block does not fit. -/
def fetchSub (s : MemoryPool) (t size start leaf : ℕ) : MemoryPool × PoolAnswer :=
  let after := wrap32 ((s.leaves leaf).available - realSize size)
  let s := s.setLeaf leaf { s.leaves leaf with available := after }
  if 0 ≤ after then
    let b : PoolBlock := ⟨leaf, after.toNat, size⟩
    if after < c.average then (s.setThread t (.store start b), .silent)
    else (s.setThread t (.header b), .silent)
  else s.advance c t size start leaf

def storeLeaf (s : MemoryPool) (t start : ℕ) (b : PoolBlock) : MemoryPool :=
  { s.setThread t (.header b) with
    curLeaf := if c.leafCount ≤ start + 1 then 0 else start + 1 }

def writeHeader (s : MemoryPool) (t : ℕ) (b : PoolBlock) : MemoryPool :=
  { s.setThread t .idle with
    headers := putHeader s.headers b.leaf b.offset (b.header c)
    owned := b :: s.owned }

/-- The header is read anew for each access to the leaf. -/
def withHeader (s : MemoryPool) (t : ℕ) (b : PoolBlock) (f : AllocHeader → MemoryPool) :
    MemoryPool :=
  match s.headerAt b with
  | none => s.setThread t .wild
  | some h => f h

def fetchAdd (s : MemoryPool) (t : ℕ) (b : PoolBlock) : MemoryPool :=
  s.withHeader t b fun h =>
    let deallocated := wrap32 ((s.leaves h.leafId).deallocated + (h.size + headerSize))
    (s.setLeaf h.leafId { s.leaves h.leafId with deallocated }).setThread t (.read b deallocated)

def readAvailable (s : MemoryPool) (t : ℕ) (b : PoolBlock) (deallocated : ℤ) : MemoryPool :=
  s.withHeader t b fun h =>
    let available := (s.leaves h.leafId).available
    if deallocated = wrap32 (c.leafSize - available) then
      s.setThread t (.exchange b deallocated available)
    else s.setThread t (.clear b)

def exchangeAvailable (s : MemoryPool) (t : ℕ) (b : PoolBlock) (deallocated available : ℤ) :
    MemoryPool :=
  s.withHeader t b fun h =>
    if (s.leaves h.leafId).available = available then
      -- the leaf can be allocated from again before its freed bytes are taken off
      (s.setLeaf h.leafId { s.leaves h.leafId with available := c.leafSize }).setThread t
        (.deduct b deallocated)
    else s.setThread t (.clear b)

def deductDeallocated (s : MemoryPool) (t : ℕ) (b : PoolBlock) (deallocated : ℤ) : MemoryPool :=
  s.withHeader t b fun h =>
    let l := s.leaves h.leafId
    (s.setLeaf h.leafId { l with deallocated := wrap32 (l.deallocated - deallocated) }).setThread t
      (.clear b)

def clearHeader (s : MemoryPool) (t : ℕ) (b : PoolBlock) : MemoryPool :=
  { s.setThread t .idle with headers := putHeader s.headers b.leaf b.offset ⟨0, 0, 0⟩ }

def step (s : MemoryPool) (t : ℕ) : MemoryPool × PoolAnswer :=
  match s.threads t with
  | .idle | .wild => (s, .silent)
  | .load size start leaf => s.loadAvailable c t size start leaf
  | .sub size start leaf => s.fetchSub c t size start leaf
  | .store start b => (s.storeLeaf c t start b, .silent)
  | .header b => (s.writeHeader c t b, .allocated b)
  | .add b => (s.fetchAdd t b, .silent)
  | .read b d => (s.readAvailable c t b d, .silent)
  | .exchange b d a => (s.exchangeAvailable c t b d a, .silent)
  | .deduct b d => (s.deductDeallocated t b d, .silent)
  | .clear b => (s.clearHeader t b, .silent)

def malloc (s : MemoryPool) (t size : ℕ) : MemoryPool :=
  match s.threads t with
  | .idle => s.setThread t (.load size s.curLeaf s.curLeaf)
  | _ => s

def begin (s : MemoryPool) (t : ℕ) (b : PoolBlock) : MemoryPool × PoolAnswer :=
  if s.threads t = .idle ∧ b ∈ s.owned then
    let s := { s with owned := s.owned.erase b }
    match s.headerAt b with
    | none => (s.setThread t .wild, .silent)
    | some h =>
        if h.isOwn c && c.missing ≤ h.leafId then (s.setThread t (.add b), .silent)
        else (s, .refused)
  else (s, .silent)

/-- The whole of `free`, which has no more than five steps behind the test. -/
def free (s : MemoryPool) (t : ℕ) (b : PoolBlock) : MemoryPool × PoolAnswer :=
  if s.threads t = .idle ∧ b ∈ s.owned then
    let r := s.begin c t b
    ((fun s => (s.step c t).1)^[5] r.1, r.2)
  else (s, .silent)

def write (s : MemoryPool) (b : PoolBlock) (byte : ℕ) : MemoryPool :=
  if b ∈ s.owned ∧ byte < b.size then
    { s with headers := putByte s.headers b.leaf (b.offset + headerSize + byte) }
  else s

/-- Whether `size` bytes at `target` belong to the block, for a pool that does not throw. -/
def checkAccess (s : MemoryPool) (b : PoolBlock) (target size : ℕ) : Bool :=
  match s.headerAt b with
  | none => false
  | some h =>
      let start := b.offset + headerSize
      h.isOwn c && (c.missing ≤ h.leafId && h.leafId == b.leaf && start + h.size ≤ c.leafSize) &&
        (start ≤ target && target + size ≤ start + h.size)

end MemoryPool

def memoryPool (c : PoolConfig) : Machine MemoryPool PoolOp PoolAnswer where
  step s
    | .malloc t size => (s.malloc t size, .silent)
    | .step t => s.step c t
    | .write b byte => (s.write b byte, .silent)
    | .free t b => s.free c t b
    | .begin t b => s.begin c t b

end Plain.Sys
