import Plain.Foundation.Queue

/-! # Ring buffers

The lock-free ring of `ring.h` in its two classes. `head` and `tail` are free
running 64-bit counters; the cell of a counter is the counter masked by
`size - 1`. The classes share every operation and differ in their storage and in
the virtual `resize`.
-/

namespace Plain

/-- `std::size_t` on the 64-bit platforms. -/
abbrev SizeT := BitVec 64

/-- The template argument `SIZE`, with the concept `power_of_two` it satisfies. -/
structure Capacity where
  val : SizeT
  power_of_two : val ≠ 0 ∧ val &&& (val - 1) = 0

inductive RingClass where
  | fixedRing (SIZE : Capacity)
  | dynamicRing (SIZE : Capacity)

/-- The members of a ring; `buffer` is the storage behind `buffer_`. -/
structure Ring (T : Type*) where
  head : SizeT
  tail : SizeT
  size : SizeT
  mask : SizeT
  buffer : List T
  deriving Repr, DecidableEq

namespace Ring

variable {T : Type*}

def setBuffer (r : Ring T) (buffer : List T) (size : SizeT) : Ring T :=
  { r with buffer := buffer, size := size, mask := size - 1 }

def readAvail (r : Ring T) : SizeT := r.head - r.tail

def writeAvail (r : Ring T) : SizeT := r.size - (r.head - r.tail)

def consumerClear (r : Ring T) : Ring T := { r with tail := 0, head := 0 }

def producerClear (r : Ring T) : Ring T := r.consumerClear

/-- The end of `remove` and of a consuming `read`: a drained ring starts over at zero. -/
def consume (r : Ring T) (count : SizeT) : Ring T :=
  if count = r.head - r.tail then { r with tail := 0, head := 0 }
  else { r with tail := r.tail + count }

def remove (r : Ring T) (count : SizeT) : SizeT × Ring T :=
  let avail := r.head - r.tail
  let count := if count > avail then avail else count
  (count, r.consume count)

/-- The sizes tried by `write` until the elements fit, at most `i` doublings. -/
def growSize (used count : SizeT) : ℕ → SizeT → SizeT
  | 0, size => size
  | i + 1, size =>
      if count ≤ size - used then size else growSize used count i (size <<< 1)

def push (r : Ring T) (x : T) : Ring T :=
  { r with buffer := r.buffer.set (r.head &&& r.mask).toNat x, head := r.head + 1 }

/-- The copy loop of `write`: each element goes to the cell of the moving head. -/
def copyIn (r : Ring T) (xs : List T) : Ring T := xs.foldl push r

variable [Inhabited T]

/-- `std::vector::resize`: new elements are value-initialised. -/
def vectorResize (buffer : List T) (n : ℕ) : List T :=
  buffer.take n ++ List.replicate (n - buffer.length) default

/-- A newly constructed ring. -/
def make : RingClass → Ring T
  | .fixedRing SIZE =>
      setBuffer ⟨0, 0, 0, 0, []⟩ (List.replicate (SIZE.val.toNat + 1) default) SIZE.val
  | .dynamicRing SIZE =>
      setBuffer ⟨0, 0, 0, 0, []⟩ (vectorResize [] SIZE.val.toNat) SIZE.val

/-- The virtual `resize`: a fixed ring refuses, a dynamic ring regrows its vector. -/
def resize : RingClass → Ring T → SizeT → Bool × Ring T
  | .fixedRing _, r, _ => (false, r)
  | .dynamicRing SIZE, r, size =>
      let buffer := if size = 0 then [] else r.buffer
      let size := if size = 0 then SIZE.val else size
      (true, r.setBuffer (vectorResize buffer size.toNat) size)

def canInsert (k : RingClass) (r : Ring T) : Bool × Ring T :=
  if r.head - r.tail = r.size then
    let (ok, r) := resize k r (r.size <<< 1)
    if !ok then (false, r) else (true, r)
  else (true, r)

def insert (k : RingClass) (r : Ring T) (data : T) : Bool × Ring T :=
  let (ok, r) := canInsert k r
  if !ok then (false, r) else (true, r.push data)

def removeOne (r : Ring T) : Option T × Ring T :=
  if r.tail = r.head then (none, r)
  else (some (r.buffer.getD (r.tail &&& r.mask).toNat default), { r with tail := r.tail + 1 })

def write (k : RingClass) (r : Ring T) (data : List T) (full : Bool) : SizeT × Ring T :=
  let count : SizeT := BitVec.ofNat 64 data.length
  let available := r.size - (r.head - r.tail)
  if available < count then
    let (ok, r) := resize k r (growSize (r.head - r.tail) count 99 (r.size <<< 1))
    let available := if ok then r.size - (r.head - r.tail) else available
    if available < count ∧ full then (0, r)
    else if available < count then (available, r.copyIn (data.take available.toNat))
    else (count, r.copyIn data)
  else (count, r.copyIn data)

def copyOut (r : Ring T) : ℕ → SizeT → List T
  | 0, _ => []
  | n + 1, tail => r.buffer.getD (tail &&& r.mask).toNat default :: copyOut r n (tail + 1)

def read (r : Ring T) (count : SizeT) (readOnly : Bool) : List T × Ring T :=
  let available := r.head - r.tail
  let toRead := if available < count then available else count
  let out := r.copyOut toRead.toNat r.tail
  (out, if readOnly then r else r.consume toRead)

def clear (k : RingClass) (r : Ring T) : Ring T :=
  { (resize k r 0).2 with tail := 0, head := 0 }

def step (k : RingClass) (r : Ring T) : Queue.Op T → Ring T × Queue.Answer T
  | .insert data => ((r.insert k data).2, .flag (r.insert k data).1)
  | .removeOne => (r.removeOne.2, .element r.removeOne.1)
  | .remove count => ((r.remove count).2, .count (r.remove count).1.toNat)
  | .write data full => ((r.write k data full).2, .count (r.write k data full).1.toNat)
  | .read count readOnly => ((r.read count readOnly).2, .elements (r.read count readOnly).1)
  | .consumerClear => (r.consumerClear, .done)
  | .clear => (r.clear k, .done)

def machine (T : Type*) [Inhabited T] (k : RingClass) :
    Machine (Ring T) (Queue.Op T) (Queue.Answer T) := ⟨step k⟩

end Ring

end Plain
