import Mathlib.Algebra.Group.Nat.Defs
import Plain.Foundation.Queue

/-! # The bounded queue

A queue of at most `n` elements. It refuses an element that does not fit, and of a
block it stores the longest prefix that fits, or nothing when the block was to be
stored in full. Its elements can be looked at without taking them.
-/

namespace Plain

/-- A block given to `write` is counted by a machine word. -/
def Queue.Op.Sized {T : Type*} : Queue.Op T → Prop
  | .write data _ => data.length < 2 ^ 64
  | _ => True

namespace BoundedQueue

variable {T : Type*}

/-- The operations of a queue, and those that only look at its elements. -/
inductive Op (T : Type*) where
  | call (op : Queue.Op T) (sized : op.Sized)
  | peek (count : BitVec 64)
  | elementAt (index : BitVec 64)

def insert (n : ℕ) (q : List T) (data : T) : List T × Queue.Answer T :=
  if q.length < n then (q ++ [data], .flag true) else (q, .flag false)

def write (n : ℕ) (q data : List T) (full : Bool) : List T × Queue.Answer T :=
  if n < q.length + data.length ∧ full then (q, .count 0)
  else (q ++ data.take (n - q.length), .count (min (n - q.length) data.length))

def step (n : ℕ) (q : List T) : Op T → List T × Queue.Answer T
  | .call (.insert data) _ => insert n q data
  | .call (.write data full) _ => write n q data full
  | .call op _ => Queue.step q op
  | .peek count => (q, .element (if q.length < count.toNat then none else q.head?))
  | .elementAt index => (q, .element q[index.toNat]?)

/-- The first-in first-out queue of at most `n` elements as a machine. -/
def machine (T : Type*) (n : ℕ) : Machine (List T) (Op T) (Queue.Answer T) := ⟨step n⟩

end BoundedQueue

end Plain
