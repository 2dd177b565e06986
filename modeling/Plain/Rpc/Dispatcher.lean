import Plain.Net.Packet
import Plain.Rpc.Codec

/-! # Dispatching calls

A dispatcher finds the function a packet names, decodes the arguments, calls the
function and packs its result. The adaptors differ by whether there are arguments
and whether there is a result. None of them looks at the error of the decoder.
-/

namespace Plain.Rpc

open Net

/-- A bound function, by the kinds of its result and of its arguments. A function may
throw. -/
inductive Bound : Type 1 where
  | voidZero (func : Outcome Unit)
  | voidArgs {α : Type} (args : Codec α) (func : α → Outcome Unit)
  | valueZero {β : Type} (result : Codec β) (func : Outcome β)
  | valueArgs {α β : Type} (args : Codec α) (result : Codec β) (func : α → Outcome β)

/-- Whether the bound function was called, and how the call around it ended. -/
structure Called (α : Type) where
  ran : Bool
  outcome : Outcome α
  deriving DecidableEq, Repr

/-- Decodes the arguments and calls the function with whatever was decoded. -/
def callWith {α γ : Type} (args : Codec α) (u : Unpacker) (call : α → Outcome γ) : Called γ :=
  match args.unpack args.init u with
  | some (argsReal, _) => ⟨true, call argsReal⟩
  | none => ⟨false, .crashed⟩

/-- The adaptor of a bound function: the bytes of its packer, or a null pointer. -/
def Bound.adaptor : Bound → Unpacker → Called (Option (List Byte))
  | voidZero func, _ => ⟨true, func.map fun _ => none⟩
  | voidArgs args func, u => callWith args u fun a => (func a).map fun _ => none
  | valueZero result func, _ => ⟨true, func.map fun r => some (result.pack r)⟩
  | valueArgs args result func, u =>
      callWith args u fun a => (func a).map fun r => some (result.pack r)

abbrev Dispatcher := List Byte → Option Bound

section Dispatch

variable (host : Endian) (d : Dispatcher) (pack : Packet)

def calledName : List Byte := (pack.readString host).2

def payload : List Byte :=
  (pack.readString host).1.data.drop (pack.readString host).1.offset

def dispatch : Called (Except ErrorCode (Option (List Byte))) :=
  if calledName host pack = [] then ⟨false, .returned (.error .netPacketInvalid)⟩
  else
    match d (calledName host pack) with
    | none => ⟨false, .returned (.error .netRpcFunctionNotFound)⟩
    | some func =>
        let r := func.adaptor (.of (payload host pack))
        ⟨r.ran, r.outcome.map .ok⟩

end Dispatch

/-- Decoding the arguments of a function from these bytes sets the error. -/
def Bound.ArgsFail : Bound → List Byte → Prop
  | voidArgs args _, bytes | valueArgs args _ _, bytes =>
      ∃ a u, args.unpack args.init (.of bytes) = some (a, u) ∧ u.error ≠ .none
  | voidZero _, _ | valueZero _ _, _ => False

section Unchecked

variable {host : Endian} {d : Dispatcher} {pack : Packet} {b : Bound}

/-- A function whose arguments cannot be decoded is called all the same. -/
theorem adaptor_ran {bytes : List Byte} (h : b.ArgsFail bytes) :
    (b.adaptor (.of bytes)).ran = true := by
  cases b with
  | voidZero func => exact h.elim
  | valueZero result func => exact h.elim
  | voidArgs args func =>
    obtain ⟨a, u, hu, -⟩ := h
    simp only [Bound.adaptor, callWith, hu]
  | valueArgs args result func =>
    obtain ⟨a, u, hu, -⟩ := h
    simp only [Bound.adaptor, callWith, hu]

theorem dispatch_bound (hname : calledName host pack ≠ [])
    (hb : d (calledName host pack) = some b) :
    dispatch host d pack =
      ⟨(b.adaptor (.of (payload host pack))).ran,
        (b.adaptor (.of (payload host pack))).outcome.map .ok⟩ := by
  rw [dispatch, if_neg hname, hb]

/-- Undecodable arguments keep a function from being called, with an error instead of a
result, only where there are none. -/
theorem dispatch_refuses_iff (hname : calledName host pack ≠ [])
    (hb : d (calledName host pack) = some b) :
    (b.ArgsFail (payload host pack) → (dispatch host d pack).ran = false ∧
        ∃ e, (dispatch host d pack).outcome = .returned (.error e)) ↔
      ¬ b.ArgsFail (payload host pack) := by
  constructor
  · intro h hfail
    have hran := (h hfail).1
    rw [dispatch_bound hname hb, adaptor_ran hfail] at hran
    exact Bool.noConfusion hran
  · exact fun hno hfail => absurd hfail hno

def boolIdentity : Bound :=
  .valueArgs (Codec.bool.tupleCons .tupleNil) Codec.bool fun a => .returned a.1

/-- With its argument in the payload there is nothing to refuse. -/
theorem dispatch_refuses_decoded :
    ¬ boolIdentity.ArgsFail (payload .little ⟨kRpcNotifyId, [0, 0, 0, 1, 0x66, 11], 0, 1⟩) ∧
      (boolIdentity.ArgsFail (payload .little ⟨kRpcNotifyId, [0, 0, 0, 1, 0x66, 11], 0, 1⟩) →
        (dispatch .little (fun _ => some boolIdentity)
          ⟨kRpcNotifyId, [0, 0, 0, 1, 0x66, 11], 0, 1⟩).ran = false ∧
          ∃ e, (dispatch .little (fun _ => some boolIdentity)
            ⟨kRpcNotifyId, [0, 0, 0, 1, 0x66, 11], 0, 1⟩).outcome = .returned (.error e)) := by
  have hdecoded : ¬ boolIdentity.ArgsFail
      (payload .little ⟨kRpcNotifyId, [0, 0, 0, 1, 0x66, 11], 0, 1⟩) := by
    rintro ⟨a, u, hu, he⟩
    have hok : (Codec.bool.tupleCons .tupleNil).unpack (false, ()) (.of [11]) =
        some ((true, ()), .of []) := rfl
    obtain ⟨-, rfl⟩ := Prod.mk.inj (Option.some.inj (hok.symm.trans hu))
    exact he rfl
  refine ⟨hdecoded, ?_⟩
  exact (dispatch_refuses_iff (d := fun _ => some boolIdentity) (by decide) rfl).mpr hdecoded

/-- Without its argument the function is called with `false`, and its result is returned. -/
theorem dispatch_runs_undecoded :
    boolIdentity.ArgsFail (payload .little ⟨kRpcNotifyId, [0, 0, 0, 1, 0x66], 0, 1⟩) ∧
      dispatch .little (fun _ => some boolIdentity)
          ⟨kRpcNotifyId, [0, 0, 0, 1, 0x66], 0, 1⟩ =
        ⟨true, .returned (.ok (some [Tag.falseBool.toByte]))⟩ :=
  ⟨⟨(false, ()), ⟨[], 0, .outOfRange⟩, rfl, by decide⟩, by rfl⟩

end Unchecked

end Plain.Rpc
