import Plain.Foundation.Machine

/-! # The unbounded queue

The abstract meaning of a buffer between a producer and a consumer: a list of
elements, appended at the back and taken from the front. Requested counts are
64-bit machine words.
-/

namespace Plain.Queue

variable {T : Type*}

inductive Op (T : Type*) where
  | insert (data : T)
  | removeOne
  | remove (count : BitVec 64)
  | write (data : List T) (full : Bool)
  | read (count : BitVec 64) (readOnly : Bool)
  | consumerClear
  | clear
  deriving Repr, DecidableEq

inductive Answer (T : Type*) where
  | done
  | flag (ok : Bool)
  | element (data : Option T)
  | count (n : ℕ)
  | elements (data : List T)
  deriving Repr, DecidableEq

def step (q : List T) : Op T → List T × Answer T
  | .insert data => (q ++ [data], .flag true)
  | .removeOne => (q.tail, .element q.head?)
  | .remove count => (q.drop count.toNat, .count (min count.toNat q.length))
  | .write data _ => (q ++ data, .count data.length)
  | .read count readOnly =>
      (if readOnly then q else q.drop count.toNat, .elements (q.take count.toNat))
  | .consumerClear => ([], .done)
  | .clear => ([], .done)

/-- The unbounded first-in first-out queue as a machine. -/
def machine (T : Type*) : Machine (List T) (Op T) (Answer T) := ⟨step⟩

end Plain.Queue
