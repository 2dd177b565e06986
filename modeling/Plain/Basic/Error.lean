/-! # Errors

The error codes of `error.h` and the ways a call can end.
-/

namespace Plain

/-- The inner codes of `Error`; the messages of the modelled errors are empty. -/
inductive ErrorCode where
  | none
  | runTime
  | netPacketCantFill
  | netPacketNeedRecv
  | netPacketInvalid
  | netRpcFunctionNotFound
  | outOfRange
  deriving DecidableEq, Repr

def ErrorCode.toUnderlying (e : ErrorCode) : Nat := e.ctorIdx

/-- How a call ends: with a result, with an exception, or by undefined behaviour. -/
inductive Outcome (α : Type) where
  | returned (value : α)
  | thrown
  | crashed
  deriving DecidableEq, Repr

def Outcome.map {α β : Type} (f : α → β) : Outcome α → Outcome β
  | returned value => returned (f value)
  | thrown => thrown
  | crashed => crashed

def Outcome.toOption {α : Type} : Outcome α → Option α
  | returned value => some value
  | thrown | crashed => none

theorem Outcome.toOption_map {α β : Type} (f : α → β) (o : Outcome α) :
    (o.map f).toOption = o.toOption.map f := by
  cases o <;> rfl

theorem Outcome.toOption_eq_some {α : Type} {o : Outcome α} {value : α} :
    o.toOption = some value ↔ o = .returned value := by
  cases o <;> simp [toOption]

end Plain
