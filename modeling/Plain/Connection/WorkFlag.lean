import Mathlib.Data.Nat.Notation
import Mathlib.Logic.Basic

/-! # Work flags

The byte that tells the task of a connection what there is to do.
-/

namespace Plain.Connection

inductive WorkFlag where
  | input | output | except | command
  deriving DecidableEq, Repr

def WorkFlag.bit : WorkFlag → BitVec 8
  | input => 1 <<< 0
  | output => 1 <<< 1
  | except => 1 <<< 2
  | command => 1 <<< 3

def hasWorkFlag (workFlags : BitVec 8) (flag : WorkFlag) : Bool := workFlags &&& flag.bit ≠ 0

def setWorkFlag (workFlags : BitVec 8) (flag : WorkFlag) (enable : Bool) : BitVec 8 :=
  if enable then workFlags ||| flag.bit else workFlags &&& ~~~flag.bit

def exchangeWorkFlag (workFlags : BitVec 8) (flag : WorkFlag) (enable : Bool) :
    Bool × BitVec 8 :=
  let r := hasWorkFlag workFlags flag
  if r = enable then (r, workFlags) else (r, setWorkFlag workFlags flag enable)

variable (workFlags : BitVec 8) (flag : WorkFlag)

@[simp] theorem hasWorkFlag_set (enable : Bool) :
    hasWorkFlag (setWorkFlag workFlags flag enable) flag = enable := by
  have hbit : flag.bit ≠ 0 := by cases flag <;> decide
  cases enable
  · have h : workFlags &&& ~~~flag.bit &&& flag.bit = 0 := by
      rw [BitVec.and_assoc]
      cases flag <;> simp [WorkFlag.bit]
    simp [hasWorkFlag, setWorkFlag, h]
  · have h : (workFlags ||| flag.bit) &&& flag.bit = flag.bit := by
      ext i
      simp only [BitVec.getElem_and, BitVec.getElem_or]
      cases flag.bit[i] <;> simp
    simpa [hasWorkFlag, setWorkFlag, h] using hbit

theorem hasWorkFlag_set_ne {other : WorkFlag} (h : other ≠ flag) (enable : Bool) :
    hasWorkFlag (setWorkFlag workFlags other enable) flag = hasWorkFlag workFlags flag := by
  have hbits : other.bit &&& flag.bit = 0#8 := by
    cases other <;> cases flag <;> first | exact absurd rfl h | decide
  have hmask : ~~~other.bit &&& flag.bit = flag.bit := by
    cases other <;> cases flag <;> first | exact absurd rfl h | decide
  cases enable
  · simp only [hasWorkFlag, setWorkFlag, Bool.false_eq_true, if_false, BitVec.and_assoc, hmask]
  · have hor : (workFlags ||| other.bit) &&& flag.bit = workFlags &&& flag.bit := by
      rw [BitVec.and_comm, BitVec.and_or_distrib_left, BitVec.and_comm flag.bit other.bit, hbits,
        BitVec.or_zero, BitVec.and_comm]
    simp only [hasWorkFlag, setWorkFlag, if_true, hor]

end Plain.Connection
