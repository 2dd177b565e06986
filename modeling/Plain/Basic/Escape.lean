import Plain.Foundation.Bytes

/-! # Escaping texts

A text is copied to an array, where some characters take two places. The loop asks for one place in
every round, so the second character of an escape may be written behind the array.
-/

namespace Plain

/-- `char_array`: the characters that are escaped, with the letters that stand for them. -/
def escapeChars : List (Byte × Byte) :=
  [(0, 0x30), (0x0a, 0x6e), (0x0d, 0x72), (0x1a, 0x5a), (0x22, 0x22), (0x27, 0x27), (0x5c, 0x5c)]

def getEscapechar (c : Byte) : Option Byte := escapeChars.lookup c

/-- A character is written to an array, unless it has no such place. -/
def putChar (out : List Byte) (index : ℕ) (c : Byte) : Option (List Byte) :=
  if index < out.length then some (out.set index c) else none

def getescapeLoop : List Byte → ℕ → List Byte → Option (List Byte)
  | [], _, out => some out
  | c :: rest, index2, out =>
      if index2 < out.length then
        match getEscapechar c with
        | some letter => do
            let out ← putChar out index2 0x5c
            let out ← putChar out (index2 + 1) letter
            getescapeLoop rest (index2 + 2) out
        | none => do
            let out ← putChar out index2 c
            getescapeLoop rest (index2 + 1) out
      else some out

/-- The array of the caller, which has the size that they say, afterwards. Nothing is returned when
something is written behind it. -/
def getescape (input out : List Byte) : Option (List Byte) := getescapeLoop input 0 out

def escapedChar (c : Byte) : List Byte :=
  match getEscapechar c with
  | some letter => [0x5c, letter]
  | none => [c]

def escaped (input : List Byte) : List Byte := input.flatMap escapedChar

def SplitsEscape (size : ℕ) (input : List Byte) : Prop :=
  ∃ front c rest, input = front ++ c :: rest ∧ (getEscapechar c).isSome ∧
    (escaped front).length + 1 = size

section Text

variable {c letter : Byte} {input : List Byte}

theorem escaped_cons (c : Byte) (input : List Byte) :
    escaped (c :: input) = escapedChar c ++ escaped input := List.flatMap_cons

theorem escapedChar_of_some (h : getEscapechar c = some letter) :
    escapedChar c = [0x5c, letter] := by
  rw [escapedChar, h]

theorem escapedChar_of_none (h : getEscapechar c = none) : escapedChar c = [c] := by
  rw [escapedChar, h]

theorem length_escaped_le (input : List Byte) : (escaped input).length ≤ 2 * input.length := by
  induction input with
  | nil => exact Nat.le_refl 0
  | cons c input ih =>
    have hchar : (escapedChar c).length ≤ 2 := by
      unfold escapedChar
      split <;> simp
    rw [escaped_cons, List.length_append, List.length_cons]
    omega

theorem not_splitsEscape_zero (input : List Byte) : ¬ SplitsEscape 0 input := by
  rintro ⟨front, c, rest, -, -, hsize⟩
  omega

theorem not_splitsEscape_nil (size : ℕ) : ¬ SplitsEscape size [] := by
  rintro ⟨front, c, rest, hinput, -⟩
  simp at hinput

theorem splitsEscape_cons (size : ℕ) (c : Byte) (input : List Byte) :
    SplitsEscape ((escapedChar c).length + size) (c :: input) ↔ SplitsEscape size input := by
  constructor
  · rintro ⟨front, d, rest, hinput, hd, hsize⟩
    cases front with
    | nil =>
      obtain ⟨rfl, rfl⟩ := List.cons.inj hinput
      obtain ⟨letter, hletter⟩ := Option.isSome_iff_exists.mp hd
      rw [escapedChar_of_some hletter] at hsize
      simp [escaped] at hsize
      omega
    | cons e front =>
      obtain ⟨rfl, rfl⟩ := List.cons.inj hinput
      rw [escaped_cons, List.length_append] at hsize
      exact ⟨front, d, rest, rfl, hd, by omega⟩
  · rintro ⟨front, d, rest, rfl, hd, rfl⟩
    exact ⟨c :: front, d, rest, rfl, hd, by rw [escaped_cons, List.length_append]; omega⟩

end Text

section Loop

variable {c letter : Byte} {input : List Byte}

theorem putChar_append (done : List Byte) (x c : Byte) (room : List Byte) :
    putChar (done ++ x :: room) done.length c = some (done ++ c :: room) := by
  rw [putChar, if_pos (by simp), List.set_append_right _ _ (Nat.le_refl _), Nat.sub_self,
    List.set_cons_zero]

theorem getescapeLoop_of_none (h : getEscapechar c = none) (done : List Byte) (x : Byte)
    (room : List Byte) :
    getescapeLoop (c :: input) done.length (done ++ x :: room) =
      getescapeLoop input (done ++ [c]).length (done ++ [c] ++ room) := by
  rw [getescapeLoop, if_pos (by simp), h]
  dsimp only
  rw [putChar_append, List.append_assoc, List.length_append]
  rfl

theorem getescapeLoop_of_some (h : getEscapechar c = some letter) (done : List Byte) (x y : Byte)
    (room : List Byte) :
    getescapeLoop (c :: input) done.length (done ++ x :: y :: room) =
      getescapeLoop input (done ++ [0x5c, letter]).length (done ++ [0x5c, letter] ++ room) := by
  have hsecond := putChar_append (done ++ [0x5c]) y letter room
  rw [List.length_append, List.append_assoc, List.append_assoc] at hsecond
  rw [getescapeLoop, if_pos (by simp), h]
  dsimp only
  rw [putChar_append, Option.bind_eq_bind, Option.bind_some, List.append_assoc,
    List.length_append]
  exact congrArg (Option.bind · _) hsecond

theorem getescapeLoop_last (h : getEscapechar c = some letter) (done : List Byte) (x : Byte) :
    getescapeLoop (c :: input) done.length (done ++ [x]) = none := by
  have hsecond : putChar (done ++ [0x5c]) (done.length + 1) letter = none := if_neg (by simp)
  rw [getescapeLoop, if_pos (by simp), h]
  dsimp only
  rw [putChar_append, Option.bind_eq_bind, Option.bind_some]
  exact congrArg (Option.bind · _) hsecond

theorem getescapeLoop_full (input done : List Byte) :
    getescapeLoop input done.length done = some done := by
  cases input with
  | nil => rfl
  | cons c input => rw [getescapeLoop, if_neg (Nat.lt_irrefl _)]

/-- The loop stays in the array exactly when no escape begins in its last place. -/
theorem getescapeLoop_isSome_iff (input done room : List Byte) :
    (getescapeLoop input done.length (done ++ room)).isSome ↔
      ¬ SplitsEscape room.length input := by
  induction input generalizing done room with
  | nil => exact iff_of_true rfl (not_splitsEscape_nil _)
  | cons c input ih =>
    have hcons (size : ℕ) := splitsEscape_cons size c input
    match room with
    | [] =>
      rw [List.append_nil, getescapeLoop_full]
      exact iff_of_true rfl (not_splitsEscape_zero _)
    | x :: room =>
      cases hc : getEscapechar c with
      | none =>
        rw [escapedChar_of_none hc] at hcons
        rw [getescapeLoop_of_none hc, ih, ← hcons, Nat.add_comm]
        rfl
      | some letter =>
        rw [escapedChar_of_some hc] at hcons
        match room with
        | [] =>
          rw [getescapeLoop_last hc]
          refine iff_of_false Bool.false_ne_true (not_not_intro ?_)
          exact ⟨[], c, input, rfl, by rw [hc]; rfl, rfl⟩
        | y :: room =>
          rw [getescapeLoop_of_some hc, ih, ← hcons, Nat.add_comm]
          rfl

theorem getescapeLoop_eq (input done old behind : List Byte)
    (hold : old.length = (escaped input).length) :
    getescapeLoop input done.length (done ++ (old ++ behind)) =
      some (done ++ escaped input ++ behind) := by
  induction input generalizing done old with
  | nil =>
    rw [List.length_eq_zero_iff.mp hold, getescapeLoop, escaped, List.flatMap_nil,
      List.append_nil, List.nil_append]
  | cons c input ih =>
    rw [escaped_cons, List.length_append] at hold
    cases hc : getEscapechar c with
    | none =>
      rw [escapedChar_of_none hc, List.length_singleton, Nat.add_comm] at hold
      obtain ⟨x, old, rfl⟩ := List.exists_cons_of_length_eq_add_one hold
      rw [List.cons_append, getescapeLoop_of_none hc, ih _ old (Nat.succ.inj hold), escaped_cons,
        escapedChar_of_none hc, List.append_assoc done]
    | some letter =>
      rw [escapedChar_of_some hc, Nat.add_comm] at hold
      obtain ⟨x, old, rfl⟩ := List.exists_cons_of_length_eq_add_one hold
      obtain ⟨y, old, rfl⟩ := List.exists_cons_of_length_eq_add_one (Nat.succ.inj hold)
      rw [List.cons_append, List.cons_append, getescapeLoop_of_some hc,
        ih _ old (Nat.succ.inj (Nat.succ.inj hold)), escaped_cons, escapedChar_of_some hc,
        List.append_assoc done]

end Loop

/-- A text is escaped inside of the array exactly when no escape begins in its last place. If the
array has two places for every character, it holds the escaped text, and behind it what was there
before. -/
theorem escape_in_bounds_iff (input out : List Byte) :
    ((getescape input out).isSome ↔ ¬ SplitsEscape out.length input) ∧
      (2 * input.length ≤ out.length →
        getescape input out = some (escaped input ++ out.drop (escaped input).length)) := by
  refine ⟨getescapeLoop_isSome_iff input [] out, fun hsize => ?_⟩
  have hlen := length_escaped_le input
  have hold : (out.take (escaped input).length).length = (escaped input).length := by
    rw [List.length_take]
    omega
  have h := getescapeLoop_eq input [] _ (out.drop (escaped input).length) hold
  rw [List.take_append_drop] at h
  exact h

/-- A quote has no room in an array of one character. -/
theorem escape_leaves_array : getescape [0x22] [0] = none ∧ escaped [0x22] = [0x5c, 0x22] := by
  decide

end Plain
