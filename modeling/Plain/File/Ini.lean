import Mathlib.Data.List.DropRight
import Plain.Foundation.Bytes
import Plain.Foundation.Int32

/-! # Ini files

A file is read line by line into a buffer of characters, where each line is trimmed and taken
apart in place. A section line begins a new set of values, and a key line adds the place of its
value to the current set. The values lie one behind the other in a buffer of their own.
-/

namespace Plain

namespace Ini

def note : Byte := 0x3b

def lineFeed : Byte := 0x0a

def carriageReturn : Byte := 0x0d

def isBlank (c : Byte) : Bool := c = 0x20 ∨ c = 0x09

section Trim

def withoutEnd (buffer : List Byte) : List Byte :=
  if buffer.getLast? = some carriageReturn ∨ buffer.getLast? = some lineFeed then buffer.dropLast
  else buffer

/-- The loop from an index down to one, on the characters in front of the terminator. Outside of
them there is nothing to read. -/
def trimBlanks : ℕ → List Byte → Option (List Byte)
  | 0, buffer => some buffer
  | i + 1, buffer =>
      match buffer[i + 1]? with
      | none => none
      | some c => if isBlank c then trimBlanks i (buffer.take (i + 1)) else some buffer

/-- The line that is left, unless a character outside of it is accessed. The index of the last
character is unsigned, and that of an empty line is the greatest number there is. -/
def trimstring (buffer : List Byte) : Option (List Byte) :=
  if buffer = [] then some buffer
  else
    let buffer := (withoutEnd buffer).takeWhile (· ≠ note)
    trimBlanks (if buffer.length = 0 then 2 ^ 64 - 1 else buffer.length - 1) buffer

end Trim

section Parse

def parsesection (buffer : List Byte) : Option (List Byte) :=
  match buffer with
  | [] => none
  | c :: rest =>
      if c = 0x5b ∧ rest.contains 0x5d then some (rest.takeWhile (· ≠ 0x5d)) else none

def parsekey (buffer : List Byte) : Option (List Byte × List Byte) :=
  if buffer.contains 0x3d then
    some (buffer.takeWhile (· ≠ 0x3d), (buffer.dropWhile (· ≠ 0x3d)).drop 1)
  else none

end Parse

end Ini

/-- The members of an ini file. The sets of values are numbered as they were made, and a section
leads to one of them; `buffer` has the bytes up to `bufferlength_`. -/
structure Ini where
  sectiondata : List (List Byte × ℕ)
  valuesets : List (List (List Byte × ℕ))
  currentSection : Option ℕ
  buffer : List Byte
  bufferlengthMax : ℤ
  deriving DecidableEq, Repr

namespace Ini

def valueMax : ℤ := 1024

def new : Ini := ⟨[], [], none, [], valueMax⟩

/-- An entry that is there already stays as it is. -/
def insert (map : List (List Byte × ℕ)) (key : List Byte) (value : ℕ) : List (List Byte × ℕ) :=
  if (map.lookup key).isSome then map else map ++ [(key, value)]

/-- The place of a text that is put behind the others, unless the doubled size overflows. -/
def addBufferstring (s : Ini) (str : List Byte) : Option (ℕ × Ini) := do
  let max ← if s.buffer.length + (str.length + 1) ≥ s.bufferlengthMax then
    int32 (s.bufferlengthMax * 2) else some s.bufferlengthMax
  guard (s.buffer.length + (str.length + 1) ≤ max)
  return (s.buffer.length, { s with buffer := s.buffer ++ str ++ [0], bufferlengthMax := max })

/-- A round of the loop of `open`. A key line needs a current set. -/
def addLine (s : Ini) (line : List Byte) : Option Ini := do
  let buffer ← trimstring (cString line)
  match parsesection buffer with
  | some name => return { s with
      sectiondata := insert s.sectiondata name s.valuesets.length
      valuesets := s.valuesets ++ [[]]
      currentSection := some s.valuesets.length }
  | none =>
      match parsekey buffer with
      | some (key, value) => do
          let (position, s) ← s.addBufferstring value
          let current ← s.currentSection
          return { s with
            valuesets := s.valuesets.modify current fun values => insert values key position }
      | none => return s

def lineMax : ℕ := 512

/-- The lines of a file. Behind the last end of a line there is none. -/
def fileLines (text : List Byte) : List (List Byte) :=
  let lines := text.splitOnP (· == lineFeed)
  if lines.getLast? = some [] then lines.dropLast else lines

/-- The loop ends at a line that does not fit into the array. -/
def openFile (text : List Byte) : Option Ini :=
  ((fileLines text).takeWhile fun line => line.length < lineMax).foldlM addLine new

def getBufferstring (s : Ini) (position : ℕ) : Option (List Byte) :=
  if position ≥ s.buffer.length then none else some (cString (s.buffer.drop position))

def find (s : Ini) (name key : List Byte) : Option ℕ := do
  let i ← s.sectiondata.lookup name
  let values ← s.valuesets[i]?
  values.lookup key

/-- The value of a key, if there is one. A null pointer is read from. -/
def get (s : Ini) (name key : List Byte) : Option (Option (List Byte)) :=
  match s.find name key with
  | none => some none
  | some position => (s.getBufferstring position).map some

section Copy

/-- Bytes are written to the front of an array, if they are not too many. -/
def writeBytes (str bytes : List Byte) : Option (List Byte) :=
  if bytes.length ≤ str.length then some (bytes ++ str.drop bytes.length) else none

def writeAt (str : List Byte) (i : ℕ) (c : Byte) : Option (List Byte) :=
  if i < str.length then some (str.set i c) else none

/-- As many bytes as are asked for are written, zeros behind the text. -/
def strncpy (dest src : List Byte) (size : ℕ) : Option (List Byte) :=
  writeBytes dest (src.take size ++ List.replicate (size - src.length) 0)

def safecopy (dest src : List Byte) (size : ℕ) : Option (List Byte) := do
  let dest ← strncpy dest src size
  writeAt dest (size - 1) 0

/-- What is returned and the array of the caller, which has the size that they say. Nothing is
returned when something is written behind it. -/
def getstring (s : Ini) (name key str : List Byte) : Option (Bool × List Byte) :=
  match s.find name key with
  | none => some (false, str)
  | some position => do
      let value ← s.getBufferstring position
      let str ← safecopy str value (value.length + 1)
      let size := if value.length > str.length - 1 then str.length - 1 else value.length
      let str ← writeAt str size 0
      return (true, str)

end Copy

section Trim

theorem trimBlanks_nil {i : ℕ} (hi : 0 < i) : trimBlanks i [] = none := by
  cases i with
  | zero => exact absurd hi (Nat.lt_irrefl 0)
  | succ i => rfl

/-- The loop takes the blanks from the end, but not the first character. -/
theorem trimBlanks_eq (a : Byte) (buffer : List Byte) :
    trimBlanks buffer.length (a :: buffer) = some (a :: buffer.rdropWhile isBlank) := by
  induction buffer using List.reverseRecOn with
  | nil => rfl
  | append_singleton buffer c ih =>
    have hget : (a :: (buffer ++ [c]))[buffer.length + 1]? = some c := by simp
    have htake : (a :: (buffer ++ [c])).take (buffer.length + 1) = a :: buffer := by simp
    rw [List.length_append, List.length_singleton, trimBlanks, hget]
    dsimp only
    rw [List.rdropWhile_concat]
    split
    · rw [htake, ih]
    · rfl

/-- A line of which nothing is left but its end or its comment. -/
def Emptied (line : List Byte) : Prop :=
  line.head? = some note ∨ line = [carriageReturn] ∨ line = [lineFeed]

instance (line : List Byte) : Decidable (Emptied line) := inferInstanceAs (Decidable (_ ∨ _ ∨ _))

theorem withoutEnd_cons_cons (a b : Byte) (line : List Byte) :
    withoutEnd (a :: b :: line) = a :: withoutEnd (b :: line) := by
  unfold withoutEnd
  rw [List.getLast?_cons_cons]
  split <;> rfl

theorem takeWhile_withoutEnd_eq_nil_iff {line : List Byte} (hne : line ≠ []) :
    (withoutEnd line).takeWhile (· ≠ note) = [] ↔ Emptied line := by
  match line, hne with
  | [a], _ =>
    unfold withoutEnd Emptied
    by_cases hend : a = carriageReturn ∨ a = lineFeed
    · simp [hend]
    · have hnot := not_or.mp hend
      simp [hnot.1, hnot.2]
  | a :: b :: line, _ =>
    rw [withoutEnd_cons_cons]
    simp [Emptied]

theorem trimstring_eq (line : List Byte) :
    trimstring line =
      if line = [] then some []
      else match (withoutEnd line).takeWhile (· ≠ note) with
        | [] => none
        | a :: rest => some (a :: rest.rdropWhile isBlank) := by
  unfold trimstring
  split
  · next h => rw [h]
  · dsimp only
    cases (withoutEnd line).takeWhile (· ≠ note) with
    | nil =>
      rw [List.length_nil, if_pos rfl]
      exact trimBlanks_nil (by decide)
    | cons a rest =>
      rw [List.length_cons, if_neg (Nat.succ_ne_zero _), Nat.succ_sub_one, trimBlanks_eq]

theorem trimstring_isSome_iff (line : List Byte) : (trimstring line).isSome ↔ ¬ Emptied line := by
  rw [trimstring_eq]
  split
  · next h => exact iff_of_true rfl (by simp [h, Emptied])
  · next h =>
    rw [← takeWhile_withoutEnd_eq_nil_iff h]
    cases (withoutEnd line).takeWhile (· ≠ note) <;> simp

end Trim

section Copy

theorem writeAt_zero (value rest : List Byte) :
    writeAt (value ++ 0 :: rest) value.length 0 = some (value ++ 0 :: rest) := by
  unfold writeAt
  rw [if_pos (by simp), List.set_append_right _ _ (Nat.le_refl _), Nat.sub_self, List.set_cons_zero]

theorem safecopy_eq (str value : List Byte) :
    safecopy str value (value.length + 1) =
      if value.length < str.length then some (value ++ 0 :: str.drop (value.length + 1))
      else none := by
  have hbytes : value.take (value.length + 1) ++
      List.replicate (value.length + 1 - value.length) 0 = value ++ [0] := by
    rw [List.take_of_length_le (Nat.le_succ _), Nat.add_sub_cancel_left]
    rfl
  unfold safecopy strncpy writeBytes
  rw [hbytes, List.length_append, List.length_singleton]
  by_cases hlt : value.length < str.length
  · rw [if_pos hlt, if_pos (Nat.succ_le_of_lt hlt), Option.bind_eq_bind, Option.bind_some,
      List.append_assoc, Nat.add_sub_cancel]
    exact writeAt_zero value _
  · rw [if_neg hlt, if_neg fun h => hlt (Nat.lt_of_succ_le h)]
    rfl

/-- A value is copied into an array of the caller, and can be read there as far as the array
goes, exactly when it is shorter than the array. -/
theorem getstring_iff {s : Ini} {name key value : List Byte}
    (h : s.get name key = some (some value)) (str : List Byte) :
    (∃ str', s.getstring name key str = some (true, str') ∧
      cString str' = value.take (str.length - 1)) ↔ value.length < str.length := by
  unfold get at h
  split at h
  · cases h
  · next position hfind =>
    obtain ⟨_, hbuffer, he⟩ := Option.map_eq_some_iff.mp h
    cases he
    have hzero : 0 ∉ value := by
      unfold getBufferstring at hbuffer
      split at hbuffer
      · cases hbuffer
      · exact Option.some.inj hbuffer ▸ zero_notMem_cString _
    unfold getstring
    rw [hfind]
    dsimp only
    rw [hbuffer, Option.bind_eq_bind, Option.bind_some, safecopy_eq]
    constructor
    · rintro ⟨str', hcopy, -⟩
      by_contra hlt
      rw [if_neg hlt] at hcopy
      cases hcopy
    · intro hlt
      have hlen : (value ++ 0 :: str.drop (value.length + 1)).length = str.length := by
        rw [List.length_append, List.length_cons, List.length_drop]
        omega
      rw [if_pos hlt, Option.bind_some, hlen, if_neg (by omega), writeAt_zero]
      refine ⟨_, rfl, ?_⟩
      rw [cString_append hzero, List.take_of_length_le (by omega)]

/-- A line is trimmed within its characters exactly when its end and its comment leave something
of it, and a value is copied into an array of the caller exactly when it is shorter. -/
theorem ini_stays_inside_iff (line : List Byte) (s : Ini) (name key value str : List Byte) :
    ((trimstring line).isSome ↔ ¬ Emptied line) ∧
      (s.get name key = some (some value) → 0 < str.length →
        ((∃ str', s.getstring name key str = some (true, str') ∧
          cString str' = value.take (str.length - 1)) ↔ value.length < str.length)) :=
  ⟨trimstring_isSome_iff line, fun h _ => getstring_iff h str⟩

/-- A line with a comment behind a key is trimmed, and a value of two characters is copied into an
array of three. -/
theorem ini_stays_inside_iff_three :
    let s : Ini := ⟨[([0x61], 0)], [[([0x6b], 0)]], some 0, [0x31, 0x32, 0], 1024⟩
    openFile [0x5b, 0x61, 0x5d, 0x0a, 0x6b, 0x3d, 0x31, 0x32] = some s ∧
      (trimstring [0x6b, 0x3d, 0x31, note]).isSome ∧
      ∃ str', s.getstring [0x61] [0x6b] [0, 0, 0] = some (true, str') ∧
        cString str' = [0x31, 0x32] := by
  intro s
  have h := ini_stays_inside_iff [0x6b, 0x3d, 0x31, note] s [0x61] [0x6b] [0x31, 0x32] [0, 0, 0]
  exact ⟨by decide +kernel, h.1.mpr (by decide +kernel),
    (h.2 (by decide +kernel) (by decide)).mpr (by decide)⟩

/-- A line that is a comment is read in front of its first character, and a value of two characters
is written behind an array of two. -/
theorem ini_leaves_buffers :
    let s : Ini := ⟨[([0x61], 0)], [[([0x6b], 0)]], some 0, [0x31, 0x32, 0], 1024⟩
    trimstring [note] = none ∧
      openFile [0x5b, 0x61, 0x5d, 0x0a, 0x6b, 0x3d, 0x31, 0x32] = some s ∧
      s.get [0x61] [0x6b] = some (some [0x31, 0x32]) ∧
      s.getstring [0x61] [0x6b] [0, 0] = none := by
  decide +kernel

end Copy

end Ini

end Plain
