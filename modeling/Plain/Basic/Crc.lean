import Plain.Foundation.Bytes
import Plain.Foundation.Int32

/-! # A checksum of texts

The characters of a text are folded into 32 bits. They are counted with 16 bits, so the loop ends
only for texts that are shorter than two to the 16.
-/

namespace Plain

def crcStep (crc32 : BitVec 32) (c : Byte) : BitVec 32 := crc32 * 33 + c.setWidth 32

def crcLoop (str : List Byte) (size : ℤ) : ℕ → BitVec 16 → BitVec 32 → Option (BitVec 32)
  | 0, _, _ => none
  | rounds + 1, i, crc32 =>
      if i.toNat < size then
        crcLoop str size rounds (i + 1) (crcStep crc32 (str.getD i.toNat 0))
      else some crc32

/-- The checksum of the text at the front of a memory, if so many rounds are enough. -/
def crc (rounds : ℕ) (memory : List Byte) : Option (BitVec 32) :=
  let str := cString memory
  if str = [] then some 0
  else crcLoop str (BitVec.ofNat 32 str.length).toInt rounds 0 0xFFFFFFFF

variable {str : List Byte} {rounds : ℕ} {i : BitVec 16} {crc32 : BitVec 32}

/-- The counter starts over before it comes to the end. -/
theorem crcLoop_eq_none {size : ℤ} (hsize : 2 ^ 16 ≤ size) :
    crcLoop str size rounds i crc32 = none := by
  induction rounds generalizing i crc32 with
  | zero => rfl
  | succ rounds ih =>
    have hi := i.isLt
    rw [crcLoop, if_pos (by omega)]
    exact ih

theorem crcLoop_eq_foldl (hlen : str.length < 2 ^ 16) (hi : i.toNat ≤ str.length)
    (hrounds : str.length - i.toNat < rounds) :
    crcLoop str str.length rounds i crc32 = some ((str.drop i.toNat).foldl crcStep crc32) := by
  induction rounds generalizing i crc32 with
  | zero => omega
  | succ rounds ih =>
    rw [crcLoop]
    by_cases hlt : i.toNat < str.length
    · have hnext : (i + 1).toNat = i.toNat + 1 := by
        rw [BitVec.toNat_add]
        exact Nat.mod_eq_of_lt (by simp; omega)
      have hget : str.getD i.toNat 0 = str[i.toNat] := by
        rw [List.getD_eq_getElem?_getD, List.getElem?_eq_getElem hlt, Option.getD_some]
      rw [if_pos (Int.ofNat_lt.mpr hlt), ih (by omega) (by omega), hnext, hget,
        List.drop_eq_getElem_cons hlt, List.foldl_cons]
    · rw [if_neg (fun h => hlt (Int.ofNat_lt.mp h)), List.drop_of_length_le (Nat.not_lt.mp hlt)]
      rfl

theorem crc_eq {memory : List Byte} (hne : cString memory ≠ [])
    (hlen : (cString memory).length < 2 ^ 31) (rounds : ℕ) :
    crc rounds memory =
      crcLoop (cString memory) (cString memory).length rounds 0 0xFFFFFFFF := by
  unfold crc
  dsimp only
  rw [if_neg hne, (toInt_ofNat_eq_iff _).mpr hlen]

/-- The checksum of a text is the fold of its characters exactly when they are fewer than two to
the 16. Otherwise the function does not return. -/
theorem crc_total_iff (memory : List Byte) (hne : cString memory ≠ [])
    (hlen : (cString memory).length < 2 ^ 31) :
    (∃ rounds, crc rounds memory = some ((cString memory).foldl crcStep 0xFFFFFFFF)) ↔
      (cString memory).length < 2 ^ 16 := by
  constructor
  · rintro ⟨rounds, h⟩
    by_contra hlong
    rw [crc_eq hne hlen, crcLoop_eq_none (by omega)] at h
    cases h
  · intro hshort
    refine ⟨(cString memory).length + 1, ?_⟩
    rw [crc_eq hne hlen]
    exact crcLoop_eq_foldl hshort (Nat.zero_le _) (Nat.lt_succ_self _)

theorem crc_total_iff_letter :
    ∃ rounds, crc rounds [0x61, 0] = some ((cString [0x61, 0]).foldl crcStep 0xFFFFFFFF) :=
  (crc_total_iff [0x61, 0] (by decide) (by decide)).mpr (by decide)

/-- No number of rounds is enough for two to the 16 letters. -/
theorem crc_never_returns :
    (cString (List.replicate (2 ^ 16) 0x61 ++ [0])).length = 2 ^ 16 ∧
      ¬ ∃ rounds crc32, crc rounds (List.replicate (2 ^ 16) 0x61 ++ [0]) = some crc32 := by
  have hstr : cString (List.replicate (2 ^ 16) 0x61 ++ [0]) = List.replicate (2 ^ 16) 0x61 :=
    cString_append (fun h => absurd (List.eq_of_mem_replicate h) (by decide)) []
  have hlen : (cString (List.replicate (2 ^ 16) 0x61 ++ [0])).length = 2 ^ 16 := by
    rw [hstr, List.length_replicate]
  refine ⟨hlen, ?_⟩
  rintro ⟨rounds, crc32, h⟩
  rw [crc_eq (List.ne_nil_of_length_pos (by omega)) (by omega),
    crcLoop_eq_none (by omega)] at h
  cases h

end Plain
