import Plain.Basic.Password

/-! # The password codec

A key is at least half as long as the password, so that each of its characters encrypts at
most two of the password's. When the second of them has no valid code the key is moved on,
and the first one is decrypted with a key other than its own. The decryption that follows
compares without regard to case, and a key moved on by 32 passes it.
-/

namespace Plain.Password

section Characters

/-- The characters that are encrypted, which are also those of the key and of the result. -/
def Printable (c : ℤ) : Prop := minChar ≤ c ∧ c ≤ maxChar

instance (c : ℤ) : Decidable (Printable c) := inferInstanceAs (Decidable (_ ∧ _))

def code (p : Byte) (cc : ℤ) : ℤ :=
  ((p.toInt - minChar) + (cc - minChar)).tmod charCount + minChar

def uncode (cc c : Byte) : Byte :=
  BitVec.ofInt 8 ((charCount + (c.toInt - minChar) - (cc.toInt - minChar)).tmod charCount + minChar)

theorem printable_of_validChar {c : ℤ} (h : validChar c = true) : Printable c := by
  simp only [validChar, Bool.decide_or, Bool.or_eq_true, decide_eq_true_eq] at h
  simp only [Printable, minChar, maxChar]
  omega

theorem printable_code {p : Byte} {cc : ℤ} (hp : Printable p.toInt) (hcc : Printable cc) :
    Printable (code p cc) := by
  simp only [Printable, code, minChar, maxChar, charCount] at *
  rw [Int.tmod_eq_emod_of_nonneg (by omega)]
  omega

theorem code_spec {p : Byte} {cc : ℤ} (hp : Printable p.toInt) (hcc : Printable cc) :
    (code p cc - cc - (p.toInt - minChar)) % charCount = 0 := by
  simp only [Printable, code, minChar, maxChar, charCount] at *
  rw [Int.tmod_eq_emod_of_nonneg (by omega)]
  omega

theorem toInt_ofInt {c : ℤ} (h : Printable c) : (BitVec.ofInt 8 c).toInt = c := by
  simp only [Printable, minChar, maxChar] at h
  rw [BitVec.toInt_ofInt]
  exact Int.bmod_eq_of_le (by omega) (by omega)

theorem uncode_eq_iff {cc c p : Byte} (hcc : Printable cc.toInt) (hc : Printable c.toInt)
    (hp : Printable p.toInt) :
    uncode cc c = p ↔ (c.toInt - cc.toInt - (p.toInt - minChar)) % charCount = 0 := by
  have hval : (charCount + (c.toInt - minChar) - (cc.toInt - minChar)).tmod charCount + minChar =
      (charCount + c.toInt - cc.toInt) % charCount + minChar := by
    simp only [Printable, minChar, maxChar, charCount] at *
    rw [Int.tmod_eq_emod_of_nonneg (by omega)]
    congr 2
    omega
  have hrange : Printable ((charCount + c.toInt - cc.toInt) % charCount + minChar) := by
    simp only [Printable, minChar, maxChar, charCount]
    omega
  rw [uncode, hval, ← BitVec.toInt_inj, toInt_ofInt hrange]
  simp only [Printable, minChar, maxChar, charCount] at *
  omega

theorem nextChar_spec {c : ℤ} (h : Printable c) :
    Printable (nextChar c) ∧ (nextChar c - c - 1) % charCount = 0 := by
  rw [nextChar]
  split
  all_goals
    simp only [Printable, minChar, maxChar, charCount] at *
    omega

theorem moveOn_spec {left : ℕ} {c cc c' cc' : ℤ} (hc : Printable c) (hcc : Printable cc)
    (h : moveOn left c cc = (true, c', cc')) :
    validChar c' = true ∧ validChar cc' = true ∧ (c' - cc' - (c - cc)) % charCount = 0 := by
  induction left generalizing c cc with
  | zero => simp [moveOn] at h
  | succ left ih =>
    obtain ⟨hc₁, hd₁⟩ := nextChar_spec hc
    obtain ⟨hcc₁, hd₂⟩ := nextChar_spec hcc
    rw [moveOn] at h
    split at h
    · obtain ⟨hv, hv', hd⟩ := ih hc₁ hcc₁ h
      refine ⟨hv, hv', ?_⟩
      simp only [charCount] at *
      omega
    · rename_i hvalid
      simp only [Bool.or_eq_true, Bool.not_eq_true', not_or, Bool.not_eq_false] at hvalid
      simp only [Prod.mk.injEq, true_and] at h
      obtain ⟨rfl, rfl⟩ := h
      refine ⟨hvalid.2, hvalid.1, ?_⟩
      simp only [charCount] at *
      omega

end Characters

section Encrypt

def keyAt (key : List Byte) (i : ℕ) : Byte := key.getD (i % key.length) 0

/-- One round of `pg_encrypt`: whether it succeeds, the key after it and the code. -/
def encryptChar (key : List Byte) (i : ℕ) (p : Byte) : Bool × List Byte × Byte :=
  let cc := (keyAt key i).toInt
  let c := code p cc
  if validChar c then (true, key, BitVec.ofInt 8 c)
  else
    let m := moveOn 256 c cc
    (m.1, key.set (i % key.length) (BitVec.ofInt 8 m.2.2), BitVec.ofInt 8 m.2.1)

theorem encryptChar_valid {key : List Byte} {i : ℕ} {p : Byte}
    (h : validChar (code p (keyAt key i).toInt) = true) :
    encryptChar key i p = (true, key, BitVec.ofInt 8 (code p (keyAt key i).toInt)) := if_pos h

theorem encryptChar_moved {key : List Byte} {i : ℕ} {p : Byte}
    (h : ¬ validChar (code p (keyAt key i).toInt) = true) :
    encryptChar key i p =
      let m := moveOn 256 (code p (keyAt key i).toInt) (keyAt key i).toInt
      (m.1, key.set (i % key.length) (BitVec.ofInt 8 m.2.2), BitVec.ofInt 8 m.2.1) := if_neg h

theorem pgEncrypt_cons (key : List Byte) (i : ℕ) (p : Byte) (password : List Byte) :
    pgEncrypt key i (p :: password) =
      let e := encryptChar key i p
      let r := pgEncrypt e.2.1 (i + 1) password
      if e.1 then (r.1, r.2.1, e.2.2 :: r.2.2) else (false, e.2.1, []) := by
  by_cases h : validChar (code p (keyAt key i).toInt) = true
  · rw [encryptChar_valid h]
    exact if_pos h
  · rw [encryptChar_moved h]
    exact if_neg h

theorem pgEncrypt_append (key : List Byte) (i : ℕ) (ps qs : List Byte) :
    pgEncrypt key i (ps ++ qs) =
      let r := pgEncrypt key i ps
      let t := pgEncrypt r.2.1 (i + ps.length) qs
      if r.1 then (t.1, t.2.1, r.2.2 ++ t.2.2) else r := by
  induction ps generalizing key i with
  | nil => rfl
  | cons p ps ih =>
    simp only [List.cons_append, pgEncrypt_cons, ih, List.length_cons]
    split
    · split
      · simp [Nat.add_assoc, Nat.add_comm 1]
      · rfl
    · rfl

variable {key : List Byte}

theorem getElem?_eq_getD {chars : List Byte} {i : ℕ} (hi : i < chars.length) :
    chars[i]? = some (chars.getD i 0) := by
  rw [List.getD_eq_getElem?_getD, List.getElem?_eq_getElem hi, Option.getD_some]

theorem keyAt_mem (hkey : 0 < key.length) (i : ℕ) : keyAt key i ∈ key :=
  List.mem_of_getElem? (getElem?_eq_getD (Nat.mod_lt i hkey))

theorem getElem?_eq_keyAt {i : ℕ} (hi : i < key.length) : key[i]? = some (keyAt key i) := by
  rw [keyAt, Nat.mod_eq_of_lt hi, getElem?_eq_getD hi]

/-- What one round does to a printable character under a printable key. -/
structure Encodes (key : List Byte) (i : ℕ) (p : Byte) (key' : List Byte) (c : Byte) : Prop where
  length_eq : key'.length = key.length
  printable_key : ∀ b ∈ key', Printable b.toInt
  printable_code : Printable c.toInt
  uncode_eq : uncode (keyAt key' i) c = p
  slot_eq : ∀ s, s ≠ i % key.length → key'[s]? = key[s]?
  key_eq_iff : key' = key ↔ validChar (code p (keyAt key i).toInt) = true

theorem encodes_of_valid {i : ℕ} {p : Byte} (hprint : ∀ b ∈ key, Printable b.toInt)
    (hp : Printable p.toInt) (hcc : Printable (keyAt key i).toInt)
    (hvalid : validChar (code p (keyAt key i).toInt) = true) :
    Encodes key i p key (BitVec.ofInt 8 (code p (keyAt key i).toInt)) := by
  have hc := printable_code hp hcc
  have hint := toInt_ofInt hc
  refine ⟨rfl, hprint, by rwa [hint], ?_, fun _ _ => rfl, iff_of_true rfl hvalid⟩
  rw [uncode_eq_iff hcc (by rwa [hint]) hp, hint]
  exact code_spec hp hcc

theorem encodes_of_moved {i : ℕ} {p : Byte} {c' cc' : ℤ} (hkey : 0 < key.length)
    (hprint : ∀ b ∈ key, Printable b.toInt) (hp : Printable p.toInt)
    (hcc : Printable (keyAt key i).toInt)
    (hvalid : ¬ validChar (code p (keyAt key i).toInt) = true)
    (hmove : moveOn 256 (code p (keyAt key i).toInt) (keyAt key i).toInt = (true, c', cc')) :
    Encodes key i p (key.set (i % key.length) (BitVec.ofInt 8 cc')) (BitVec.ofInt 8 c') := by
  have hc := printable_code hp hcc
  have hspec := code_spec hp hcc
  obtain ⟨hv, hv', hdist⟩ := moveOn_spec hc hcc hmove
  have hc' := printable_of_validChar hv
  have hcc' := printable_of_validChar hv'
  have hint := toInt_ofInt hc'
  have hint' := toInt_ofInt hcc'
  have hat : keyAt (key.set (i % key.length) (BitVec.ofInt 8 cc')) i = BitVec.ofInt 8 cc' := by
    rw [keyAt, List.length_set, List.getD_eq_getElem?_getD,
      List.getElem?_set_self (Nat.mod_lt i hkey), Option.getD_some]
  refine ⟨List.length_set, ?_, by rwa [hint], ?_, ?_, ?_⟩
  · intro b hb
    rcases List.mem_or_eq_of_mem_set hb with hb | rfl
    · exact hprint b hb
    · rwa [hint']
  · rw [hat, uncode_eq_iff (by rwa [hint']) (by rwa [hint]) hp, hint, hint']
    simp only [charCount] at *
    omega
  · exact fun s hs => List.getElem?_set_ne hs.symm
  · -- a key that came back to its character would have brought back the invalid code
    refine iff_of_false (fun hkept => hvalid ?_) hvalid
    rw [hkept] at hat
    have heq : (keyAt key i).toInt = cc' := by rw [hat, hint']
    have hsame : c' = code p (keyAt key i).toInt := by
      simp only [Printable, minChar, maxChar, charCount] at *
      omega
    rwa [← hsame]

theorem encryptChar_encodes (hkey : 0 < key.length) (hprint : ∀ b ∈ key, Printable b.toInt)
    (i : ℕ) {p : Byte} (hp : Printable p.toInt) (hok : (encryptChar key i p).1 = true) :
    Encodes key i p (encryptChar key i p).2.1 (encryptChar key i p).2.2 := by
  have hcc := hprint _ (keyAt_mem hkey i)
  by_cases hvalid : validChar (code p (keyAt key i).toInt) = true
  · rw [encryptChar_valid hvalid]
    exact encodes_of_valid hprint hp hcc hvalid
  · rw [encryptChar_moved hvalid] at hok ⊢
    rcases hmove : moveOn 256 (code p (keyAt key i).toInt) (keyAt key i).toInt with ⟨ok, c', cc'⟩
    rw [hmove] at hok
    obtain rfl : ok = true := hok
    exact encodes_of_moved hkey hprint hp hcc hvalid hmove

theorem mod_ne_of_lt {i d k : ℕ} (hpos : 0 < d) (hlt : d < k) : (i + d) % k ≠ i % k := by
  intro h
  have hmod := Nat.sub_mod_eq_zero_of_mod_eq h
  rw [Nat.add_sub_cancel_left, Nat.mod_eq_of_lt hlt] at hmod
  omega

/-- What `pg_encrypt` does to characters that all have a character of the key of their own. -/
structure EncodesAll (key : List Byte) (i : ℕ) (ps key' cs : List Byte) : Prop where
  length_eq : key'.length = key.length
  printable_key : ∀ b ∈ key', Printable b.toInt
  length_codes : cs.length = ps.length
  printable_codes : ∀ c ∈ cs, Printable c.toInt
  slot_eq : ∀ s, (∀ j < ps.length, s ≠ (i + j) % key.length) → key'[s]? = key[s]?
  uncode_eq : ∀ j p c, ps[j]? = some p → cs[j]? = some c → uncode (keyAt key' (i + j)) c = p
  key_eq_iff : key' = key ↔
    ∀ j p, ps[j]? = some p → validChar (code p (keyAt key (i + j)).toInt) = true

theorem EncodesAll.cons {i : ℕ} {p c : Byte} {ps cs key₁ key' : List Byte}
    (hlen : ps.length < key.length) (he : Encodes key i p key₁ c)
    (hr : EncodesAll key₁ (i + 1) ps key' cs) : EncodesAll key i (p :: ps) key' (c :: cs) := by
  have hlength : key'.length = key.length := hr.length_eq.trans he.length_eq
  have hslot : key'[i % key.length]? = key₁[i % key.length]? := by
    apply hr.slot_eq
    intro j hj
    rw [he.length_eq, Nat.add_assoc]
    exact (mod_ne_of_lt (by omega) (by omega)).symm
  refine ⟨hlength, hr.printable_key, by simp [hr.length_codes],
    List.forall_mem_cons.mpr ⟨he.printable_code, hr.printable_codes⟩, ?_, ?_, ?_⟩
  · intro s hs
    have hrest : key'[s]? = key₁[s]? := by
      apply hr.slot_eq
      intro j hj
      have hne := hs (j + 1) (by rw [List.length_cons]; omega)
      rwa [he.length_eq, Nat.add_assoc, Nat.add_comm 1]
    exact hrest.trans (he.slot_eq s (hs 0 (by simp)))
  · rintro (_ | j) p' c' hp' hc'
    · obtain rfl := Option.some.inj hp'
      obtain rfl := Option.some.inj hc'
      rw [← he.uncode_eq, Nat.add_zero, keyAt, keyAt, hlength, he.length_eq,
        List.getD_eq_getElem?_getD, List.getD_eq_getElem?_getD, hslot]
    · have hrest := hr.uncode_eq j p' c' hp' hc'
      rwa [Nat.add_assoc, Nat.add_comm 1] at hrest
  · constructor
    · intro heq
      have hkey₁ : key₁ = key := by
        apply List.ext_getElem?
        intro s
        by_cases hs : s = i % key.length
        · rw [hs, ← hslot, heq]
        · exact he.slot_eq s hs
      have hrest := hr.key_eq_iff.mp (heq.trans hkey₁.symm)
      rw [hkey₁] at hrest
      rintro (_ | j) p' hp'
      · obtain rfl := Option.some.inj hp'
        exact he.key_eq_iff.mp hkey₁
      · have hj := hrest j p' hp'
        rwa [Nat.add_assoc, Nat.add_comm 1] at hj
    · intro hall
      have hkey₁ : key₁ = key := he.key_eq_iff.mpr (hall 0 p rfl)
      refine (hr.key_eq_iff.mpr fun j p' hp' => ?_).trans hkey₁
      have hj := hall (j + 1) p' hp'
      rwa [hkey₁, Nat.add_assoc, Nat.add_comm 1]

theorem pgEncrypt_encodes {i : ℕ} {ps : List Byte} (hkey : 0 < key.length)
    (hprint : ∀ b ∈ key, Printable b.toInt) (hps : ∀ p ∈ ps, Printable p.toInt)
    (hlen : ps.length ≤ key.length) (hok : (pgEncrypt key i ps).1 = true) :
    EncodesAll key i ps (pgEncrypt key i ps).2.1 (pgEncrypt key i ps).2.2 := by
  induction ps generalizing key i with
  | nil =>
    exact ⟨rfl, hprint, rfl, nofun, fun _ _ => rfl, nofun, iff_of_true rfl nofun⟩
  | cons p ps ih =>
    rw [List.forall_mem_cons] at hps
    rw [List.length_cons] at hlen
    rw [pgEncrypt_cons] at hok ⊢
    dsimp only at hok ⊢
    split at hok
    · rename_i hfirst
      rw [if_pos hfirst]
      have he := encryptChar_encodes hkey hprint i hps.1 hfirst
      have hpos : 0 < (encryptChar key i p).2.1.length := by rw [he.length_eq]; exact hkey
      exact .cons (by omega) he (ih hpos he.printable_key hps.2 (by rw [he.length_eq]; omega) hok)
    · exact absurd hok Bool.false_ne_true

end Encrypt

section Exact

variable {key password : List Byte}

/-- Every character beyond the length of the key has a valid code at once, under the key that
the characters before left. -/
def KeepsKey (key password : List Byte) : Prop :=
  ∀ i < password.length, key.length ≤ i →
    validChar (code (password.getD i 0)
      (keyAt (pgEncrypt key 0 (password.take key.length)).2.1 i).toInt) = true

instance (key password : List Byte) : Decidable (KeepsKey key password) :=
  inferInstanceAs (Decidable (∀ i < password.length, _ → _))

theorem pgDecrypt_eq_iff {cs ps : List Byte} (hlen : cs.length = ps.length) :
    pgDecrypt key cs = ps ↔
      ∀ i p c, ps[i]? = some p → cs[i]? = some c → uncode (keyAt key i) c = p := by
  have hget (i : ℕ) : (pgDecrypt key cs)[i]? = cs[i]?.map (uncode (keyAt key i)) :=
    List.getElem?_mapIdx
  constructor
  · rintro rfl i p c hp hc
    rw [hget, hc] at hp
    exact Option.some.inj hp
  · intro h
    apply List.ext_getElem?
    intro i
    rw [hget]
    rcases hi : cs[i]? with _ | c
    · rw [List.getElem?_eq_none_iff, hlen, ← List.getElem?_eq_none_iff] at hi
      exact hi.symm
    · obtain ⟨hlt, -⟩ := List.getElem?_eq_some_iff.mp hi
      have hp := List.getElem?_eq_getElem (hlen ▸ hlt)
      rw [hp, Option.map_some, h i _ c hp hi]

theorem eq_of_uncode_eq {cc cc' c p : Byte} (hcc : Printable cc.toInt) (hcc' : Printable cc'.toInt)
    (hc : Printable c.toInt) (hp : Printable p.toInt) (h : uncode cc c = p)
    (h' : uncode cc' c = p) : cc = cc' := by
  rw [uncode_eq_iff hcc hc hp] at h
  rw [uncode_eq_iff hcc' hc hp] at h'
  rw [← BitVec.toInt_inj]
  simp only [Printable, minChar, maxChar, charCount] at *
  omega

/-- The codes of two runs over the key decrypt to their characters exactly when the second run
keeps the key. -/
theorem uncodes_iff_key_eq {first rest key₁ key' cs₁ cs₂ : List Byte} (hkey : 0 < key.length)
    (hps : ∀ p ∈ first, Printable p.toInt) (h₁ : EncodesAll key 0 first key₁ cs₁)
    (h₂ : EncodesAll key₁ first.length rest key' cs₂)
    (hfull : rest ≠ [] → first.length = key.length) :
    pgDecrypt key' (cs₁ ++ cs₂) = first ++ rest ↔ key' = key₁ := by
  have hlength : key'.length = key.length := h₂.length_eq.trans h₁.length_eq
  rw [pgDecrypt_eq_iff (by simp [h₁.length_codes, h₂.length_codes])]
  constructor
  · intro h
    by_cases hrest : rest = []
    · subst hrest
      exact h₂.key_eq_iff.mpr nofun
    · have hfirst := hfull hrest
      apply List.ext_getElem?
      intro s
      rcases Nat.lt_or_ge s key.length with hs | hs
      · have hp : first[s]? = some _ := List.getElem?_eq_getElem (by omega)
        have hc : cs₁[s]? = some _ := List.getElem?_eq_getElem (by rw [h₁.length_codes]; omega)
        have hown := h₁.uncode_eq s _ _ hp hc
        have hlast := h s _ _ ((List.getElem?_append_left (by omega)).trans hp)
          ((List.getElem?_append_left (by rw [h₁.length_codes]; omega)).trans hc)
        rw [Nat.zero_add] at hown
        rw [getElem?_eq_keyAt (by omega), getElem?_eq_keyAt (by rw [h₁.length_eq]; exact hs)]
        exact congrArg some (eq_of_uncode_eq (h₂.printable_key _ (keyAt_mem (by omega) s))
          (h₁.printable_key _ (keyAt_mem (by rw [h₁.length_eq]; exact hkey) s))
          (h₁.printable_codes _ (List.mem_of_getElem? hc)) (hps _ (List.mem_of_getElem? hp))
          hlast hown)
      · rw [List.getElem?_eq_none (by omega),
          List.getElem?_eq_none (by rw [h₁.length_eq]; exact hs)]
  · rintro rfl i p c hp hc
    have hlen := h₁.length_codes
    rcases Nat.lt_or_ge i first.length with hi | hi
    · rw [List.getElem?_append_left hi] at hp
      rw [List.getElem?_append_left (by omega)] at hc
      have hown := h₁.uncode_eq i p c hp hc
      rwa [Nat.zero_add] at hown
    · rw [List.getElem?_append_right hi] at hp
      rw [List.getElem?_append_right (by omega), hlen] at hc
      have hlast := h₂.uncode_eq _ p c hp hc
      rwa [Nat.add_sub_cancel' hi] at hlast

theorem forall_drop_iff {k : ℕ} {P : Byte → ℕ → Prop} :
    (∀ j p, (password.drop k)[j]? = some p → P p ((password.take k).length + j)) ↔
      ∀ i < password.length, k ≤ i → P (password.getD i 0) i := by
  constructor
  · intro h i hi hle
    have hget : (password.drop k)[i - k]? = some (password.getD i 0) := by
      rw [List.getElem?_drop, Nat.add_sub_cancel' hle, getElem?_eq_getD hi]
    have hj := h _ _ hget
    rwa [List.length_take_of_le (by omega), Nat.add_sub_cancel' hle] at hj
  · intro h j p hp
    rw [List.getElem?_drop] at hp
    obtain ⟨hlt, -⟩ := List.getElem?_eq_some_iff.mp hp
    have hi := h _ hlt (Nat.le_add_right k j)
    rw [List.getD_eq_getElem?_getD, hp, Option.getD_some] at hi
    rwa [List.length_take_of_le (by omega)]

/-- The key is at least half as long as the password, so that the characters come back exactly
when those beyond its length keep it. -/
theorem pgDecrypt_pgEncrypt_iff (hkey : 0 < key.length) (hprint : ∀ b ∈ key, Printable b.toInt)
    (hps : ∀ p ∈ password, Printable p.toInt) (hlen : password.length ≤ 2 * key.length)
    (hok : (pgEncrypt key 0 password).1 = true) :
    pgDecrypt (pgEncrypt key 0 password).2.1 (pgEncrypt key 0 password).2.2 = password ↔
      KeepsKey key password := by
  have hfull : password.drop key.length ≠ [] → (password.take key.length).length = key.length := by
    intro hne
    have hpos := List.length_pos_of_ne_nil hne
    rw [List.length_drop] at hpos
    exact List.length_take_of_le (by omega)
  have hps₁ : ∀ p ∈ password.take key.length, Printable p.toInt :=
    fun p hp => hps p (List.mem_of_mem_take hp)
  have hps₂ : ∀ p ∈ password.drop key.length, Printable p.toInt :=
    fun p hp => hps p (List.mem_of_mem_drop hp)
  have happend := pgEncrypt_append key 0 (password.take key.length) (password.drop key.length)
  rw [List.take_append_drop, Nat.zero_add] at happend
  rw [happend] at hok ⊢
  dsimp only at hok ⊢
  split at hok
  · rename_i hok₁
    rw [if_pos hok₁]
    have h₁ := pgEncrypt_encodes hkey hprint hps₁ (List.length_take_le _ _) hok₁
    have h₂ := pgEncrypt_encodes (by rw [h₁.length_eq]; exact hkey) h₁.printable_key hps₂
      (by rw [h₁.length_eq, List.length_drop]; omega) hok
    have hiff := uncodes_iff_key_eq hkey hps₁ h₁ h₂ hfull
    rw [List.take_append_drop] at hiff
    rw [hiff, h₂.key_eq_iff, KeepsKey]
    exact forall_drop_iff (P := fun p i => validChar (code p (keyAt _ i).toInt) = true)
  · rename_i hok₁
    exact absurd hok hok₁

end Exact

section Swap

def swapIndex (n₁ n₂ i : ℕ) : ℕ := if i = n₂ then n₁ else if i = n₁ then n₂ else i

theorem getElem?_swap {n₁ n₂ : ℕ} {sz : List Byte} (h₁ : n₁ < sz.length) (h₂ : n₂ < sz.length)
    (i : ℕ) : (swap n₁ n₂ sz)[i]? = sz[swapIndex n₁ n₂ i]? := by
  rw [swap, swapIndex]
  split
  · rename_i hi
    rw [hi, List.getElem?_set_self (by rwa [List.length_set]), getElem?_eq_getD h₁]
  · rename_i hi
    rw [List.getElem?_set_ne (Ne.symm hi)]
    split
    · rename_i hi'
      rw [hi', List.getElem?_set_self h₁, getElem?_eq_getD h₂]
    · rename_i hi'
      rw [List.getElem?_set_ne (Ne.symm hi')]

@[simp] theorem length_swap (n₁ n₂ : ℕ) (sz : List Byte) : (swap n₁ n₂ sz).length = sz.length := by
  simp [swap]

@[simp] theorem length_pgSwapchars (sz : List Byte) : (pgSwapchars sz).length = sz.length := by
  simp [pgSwapchars]

def swapcharsIndex (i : ℕ) : ℕ :=
  swapIndex 0 13 (swapIndex 31 25 (swapIndex 12 30 (swapIndex 7 19 (swapIndex 3 21
    (swapIndex 9 20 (swapIndex 15 18 i))))))

theorem getElem?_pgSwapchars {sz : List Byte} (h : sz.length = resultLenStd) (i : ℕ) :
    (pgSwapchars sz)[i]? = sz[swapcharsIndex i]? := by
  simp only [resultLenStd] at h
  rw [pgSwapchars]
  simp only [swapcharsIndex, getElem?_swap, length_swap, h, Nat.reduceLT]

theorem pgSwapchars_pgSwapchars {sz : List Byte} (h : sz.length = resultLenStd) :
    pgSwapchars (pgSwapchars sz) = sz := by
  apply List.ext_getElem?'
  intro i hi
  have hindex : ∀ i < 32, swapcharsIndex (swapcharsIndex i) = i := by decide
  rw [getElem?_pgSwapchars (by simpa using h), getElem?_pgSwapchars h,
    hindex i (by simpa [h, resultLenStd] using hi)]

end Swap

section Lengths

theorem exists_pgChar2int_eq :
    ∀ i < 31, ∃ m < charCount, pgChar2int (BitVec.ofNat 8 (m + 0x20)) = i := by
  decide +kernel

theorem pgChar2int_int2char {i : ℕ} (hi : i < 31) (tickcount : BitVec 64) :
    pgChar2int (int2char i tickcount) = i := by
  rw [int2char]
  split
  · rename_i b hb
    have hfound := List.find?_some hb
    rw [Bool.and_eq_true, decide_eq_true_eq] at hfound
    exact hfound.1
  · obtain ⟨m, hm, hchar⟩ := exists_pgChar2int_eq i hi
    rcases hfind : List.find? (fun b => decide (pgChar2int b = i))
      ((List.range charCount).map fun j =>
        BitVec.ofNat 8 ((tickcount.toNat % charCount + j) % charCount + 0x20)) with _ | b
    · -- the search goes once around all characters and cannot miss the one there is
      have hnone := List.find?_eq_none.mp hfind (BitVec.ofNat 8 (m + 0x20)) (by
        rw [List.mem_map]
        refine ⟨(m + charCount - tickcount.toNat % charCount) % charCount, ?_, ?_⟩
        · rw [List.mem_range]
          exact Nat.mod_lt _ (by decide)
        · congr 2
          simp only [charCount] at *
          omega)
      simp [hchar] at hnone
    · have hfound := List.find?_some hfind
      exact of_decide_eq_true hfound

theorem keyLength_spec {length : ℕ} (hlen : length ≤ maxPasswordLen) (tickcount : BitVec 64) :
    minPKeyLen ≤ keyLength length tickcount ∧
      keyLength length tickcount + 2 + length ≤ resultLenStd := by
  obtain ⟨k, hk⟩ : ∃ k, keyLength length tickcount = k := ⟨_, rfl⟩
  rw [hk]
  rw [keyLength] at hk
  split at hk
  · rename_i hlt
    have hmod := Nat.mod_lt (tickcount + 10237).toNat (Nat.sub_pos_of_lt hlt)
    simp only [minPKeyLen, maxPasswordLen, resultLenStd] at *
    omega
  · simp only [minPKeyLen, maxPasswordLen, resultLenStd] at *
    omega

theorem printable_randomChar (tickcount : BitVec 64) (i : ℕ) :
    Printable (randomChar tickcount i).toInt := by
  have hnat {n : ℕ} (h : n < 128) : (BitVec.ofNat 8 n).toInt = n := by
    have hval : (BitVec.ofNat 8 n).toNat = n := by
      rw [BitVec.toNat_ofNat]
      omega
    rw [BitVec.toInt_eq_toNat_of_lt (by omega), hval]
  rw [randomChar]
  split
  · rw [hnat (by simp only [charCount]; omega)]
    simp only [Printable, minChar, maxChar, charCount]
    omega
  · split
    · rw [hnat (by omega)]
      simp only [Printable, minChar, maxChar]
      omega
    · rw [hnat (by omega)]
      simp only [Printable, minChar, maxChar]
      omega

end Lengths

section Codec

variable {password : List Byte}

def publicKey (length : ℕ) (tickcount : BitVec 64) : List Byte :=
  (List.range (keyLength length tickcount)).map (randomChar tickcount)

/-- The tick count of the pass at which `pg_encrypt_password` stops retrying, if it does so
before the level reaches its limit. -/
def stopsAt : ℕ → List Byte → List Byte → BitVec 64 → Option (BitVec 64)
  | 0, _, _, _ => none
  | left + 1, result, password, tickcount =>
      let r := fillResult result password tickcount
      if !recheck r password then stopsAt left r.2 password (tickcount + 9929)
      else some tickcount

theorem length_pgEncrypt {key ps : List Byte} {i : ℕ} (h : (pgEncrypt key i ps).1 = true) :
    (pgEncrypt key i ps).2.1.length = key.length ∧
      (pgEncrypt key i ps).2.2.length = ps.length := by
  induction ps generalizing key i with
  | nil => exact ⟨rfl, rfl⟩
  | cons p ps ih =>
    have hstep : (encryptChar key i p).2.1.length = key.length := by
      by_cases hvalid : validChar (code p (keyAt key i).toInt) = true
      · rw [encryptChar_valid hvalid]
      · rw [encryptChar_moved hvalid]
        exact List.length_set
    rw [pgEncrypt_cons] at h ⊢
    dsimp only at h ⊢
    split at h
    · rename_i hfirst
      rw [if_pos hfirst]
      obtain ⟨hkey, hcodes⟩ := ih h
      exact ⟨hkey.trans hstep, by simpa using hcodes⟩
    · exact absurd h Bool.false_ne_true

theorem pgDecryptPassword_pgSwapchars {a b : Byte} {key cs fill : List Byte}
    (hlen : (a :: key ++ b :: cs ++ fill).length = resultLenStd)
    (hstr : (cString (pgSwapchars (a :: key ++ b :: cs ++ fill))).length = resultLenStd)
    (ha : pgChar2int a = key.length) (hb : pgChar2int b = cs.length)
    (hkey : minPKeyLen ≤ key.length) (hcs : cs.length ≤ maxPasswordLen) :
    pgDecryptPassword (pgSwapchars (a :: key ++ b :: cs ++ fill)) =
      .password (pgDecrypt key cs) := by
  have hall : cString (pgSwapchars (a :: key ++ b :: cs ++ fill)) =
      pgSwapchars (a :: key ++ b :: cs ++ fill) :=
    (List.takeWhile_sublist _).eq_of_length (by rw [length_pgSwapchars, hlen]; exact hstr)
  have hget₀ : (a :: key ++ b :: cs ++ fill ++ [0]).getD 0 0 = a := rfl
  have hget₁ : (a :: key ++ b :: cs ++ fill ++ [0]).getD (key.length + 1) 0 = b := by
    simp [List.getD_eq_getElem?_getD]
  have htake : ((a :: key ++ b :: cs ++ fill ++ [0]).drop 1).take key.length = key := by
    simp
  have hdrop : ((a :: key ++ b :: cs ++ fill ++ [0]).drop (key.length + 2)).take cs.length =
      cs := by
    simp
  have hsum := hlen
  simp only [List.length_append, List.length_cons] at hsum
  have hsize : (a :: key ++ b :: cs ++ fill ++ [0]).length = resultLenStd + 1 := by
    rw [List.length_append, hlen, List.length_singleton]
  rw [pgDecryptPassword, hall, if_neg (by rw [length_pgSwapchars]; exact not_not.mpr hlen),
    pgSwapchars_pgSwapchars hlen]
  dsimp only
  rw [hget₀, ha, if_neg (by simp only [maxPKeyLen]; omega), hget₁, hb, if_neg (by omega), hsize,
    if_neg (by omega), htake, hdrop]

theorem recheck_eq_true {r : Bool × List Byte} (h : recheck r password = true) :
    r.1 = true ∧ ∃ bytes, pgDecryptPassword r.2 = .password bytes := by
  rw [recheck] at h
  split at h
  · rename_i bytes hok hbytes
    exact ⟨hok, bytes, hbytes⟩
  · exact absurd h Bool.false_ne_true

theorem length_cString_of_password {encrypted bytes : List Byte}
    (h : pgDecryptPassword encrypted = .password bytes) :
    (cString encrypted).length = resultLenStd := by
  rw [pgDecryptPassword] at h
  split at h
  · exact nomatch h
  · rename_i hlen
    exact not_not.mp hlen

theorem fst_fillResult (result password : List Byte) (tickcount : BitVec 64) :
    (fillResult result password tickcount).1 =
      (pgEncrypt (publicKey password.length tickcount) 0 password).1 := by
  rw [fillResult, ← publicKey]

theorem fillResult_eq {result : List Byte} {tickcount : BitVec 64}
    (hok : (pgEncrypt (publicKey password.length tickcount) 0 password).1 = true) :
    fillResult result password tickcount =
      (true, pgSwapchars (int2char (keyLength password.length tickcount) tickcount ::
        (pgEncrypt (publicKey password.length tickcount) 0 password).2.1 ++
        int2char password.length tickcount ::
        (pgEncrypt (publicKey password.length tickcount) 0 password).2.2 ++
        (List.range' (keyLength password.length tickcount + 2 + password.length)
          (resultLenStd - 2 - keyLength password.length tickcount - password.length)).map
          (randomChar tickcount))) := by
  obtain ⟨-, hcodes⟩ := length_pgEncrypt hok
  rw [fillResult, ← publicKey, hok, hcodes, Nat.sub_self, List.take_zero, List.append_nil]

theorem pgDecryptPassword_fillResult {result : List Byte} {tickcount : BitVec 64}
    (hlen : password.length ≤ maxPasswordLen)
    (h : recheck (fillResult result password tickcount) password = true) :
    (pgEncrypt (publicKey password.length tickcount) 0 password).1 = true ∧
      pgDecryptPassword (fillResult result password tickcount).2 = .password
        (pgDecrypt (pgEncrypt (publicKey password.length tickcount) 0 password).2.1
          (pgEncrypt (publicKey password.length tickcount) 0 password).2.2) := by
  obtain ⟨hok, bytes, hbytes⟩ := recheck_eq_true h
  rw [fst_fillResult] at hok
  obtain ⟨hmin, hmax⟩ := keyLength_spec hlen tickcount
  obtain ⟨hkey, hcodes⟩ := length_pgEncrypt hok
  have hpublic : (publicKey password.length tickcount).length =
      keyLength password.length tickcount := by simp [publicKey]
  rw [hpublic] at hkey
  refine ⟨hok, ?_⟩
  rw [fillResult_eq hok] at hbytes ⊢
  dsimp only at hbytes ⊢
  simp only [maxPasswordLen, resultLenStd] at hlen hmax
  refine pgDecryptPassword_pgSwapchars ?_ (length_cString_of_password hbytes) ?_ ?_ ?_ ?_
  · simp only [List.length_append, List.length_cons, List.length_map, List.length_range', hkey,
      hcodes, resultLenStd]
    omega
  · rw [pgChar2int_int2char (by omega), hkey]
  · rw [pgChar2int_int2char (by omega), hcodes]
  · rwa [hkey]
  · rwa [hcodes]

theorem pgEncryptPassword_stopsAt {left : ℕ} {result : List Byte} {tickcount stop : BitVec 64}
    (hlen : password.length ≤ maxPasswordLen) (hps : ∀ p ∈ password, Printable p.toInt)
    (h : stopsAt left result password tickcount = some stop) :
    ∃ result', (pgEncryptPassword left result password tickcount).2 =
      (fillResult result' password stop).2 ∧
      recheck (fillResult result' password stop) password = true := by
  induction left generalizing result tickcount with
  | zero => exact nomatch h
  | succ left ih =>
    have hany : (password.any fun c => c.toInt < minChar || maxChar < c.toInt) = false := by
      rw [List.any_eq_false]
      intro p hp
      have := hps p hp
      simp only [Printable] at this
      simp only [Bool.or_eq_true, decide_eq_true_eq]
      omega
    rw [pgEncryptPassword, if_neg (by omega), hany, if_neg Bool.false_ne_true]
    rw [stopsAt] at h
    dsimp only at h ⊢
    split at h
    · rename_i hretry
      rw [if_pos hretry]
      exact ih h
    · rename_i hdone
      obtain rfl := Option.some.inj h
      rw [if_neg hdone]
      dsimp only
      exact ⟨result, rfl, by simpa using hdone⟩

end Codec

/-- Where `pg_encrypt_password` stops retrying, what it leaves decrypts to the password exactly
when the characters beyond the length of the key have kept the key. -/
theorem password_codec_exact_iff (result password : List Byte) (tickcount stop : BitVec 64)
    (hlen : password.length ≤ maxPasswordLen) (hps : ∀ p ∈ password, Printable p.toInt)
    (hstop : stopsAt maxLevel result password tickcount = some stop) :
    pgDecryptPassword (pgEncryptPassword maxLevel result password tickcount).2 =
        .password password ↔ KeepsKey (publicKey password.length stop) password := by
  obtain ⟨result', heq, hrecheck⟩ := pgEncryptPassword_stopsAt hlen hps hstop
  obtain ⟨hok, hdecrypt⟩ := pgDecryptPassword_fillResult hlen hrecheck
  obtain ⟨hmin, -⟩ := keyLength_spec hlen stop
  have hkey : (publicKey password.length stop).length = keyLength password.length stop := by
    simp [publicKey]
  simp only [minPKeyLen, maxPasswordLen, resultLenStd] at hmin hlen
  rw [heq, hdecrypt, Decrypted.password.injEq]
  refine pgDecrypt_pgEncrypt_iff (by omega) ?_ hps (by omega) hok
  intro b hb
  obtain ⟨i, -, rfl⟩ := List.mem_map.mp hb
  exact printable_randomChar stop i

/-- Twenty times `a`: half of the characters are beyond the key, and they keep it. -/
theorem password_codec_exact_iff_kept :
    stopsAt maxLevel (List.replicate resultLenStd 0) (List.replicate 20 0x61) 1 = some 1 ∧
      pgDecryptPassword (pgEncryptPassword maxLevel (List.replicate resultLenStd 0)
        (List.replicate 20 0x61) 1).2 = .password (List.replicate 20 0x61) := by
  have hstop : stopsAt maxLevel (List.replicate resultLenStd 0) (List.replicate 20 0x61) 1 =
      some 1 := by
    decide +kernel
  exact ⟨hstop, (password_codec_exact_iff _ _ 1 1 (by decide) (by decide) hstop).mpr
    (by decide +kernel)⟩

/-- The second `a` and the `0` of this password share a character of the key, which the `0` moves
on by 32: that `a` comes back as `A`, and the comparison does not notice. -/
theorem password_codec_changes_case :
    let password := List.replicate 11 0x61 ++ [0x30] ++ List.replicate 8 0x61
    stopsAt maxLevel (List.replicate resultLenStd 0) password 1 = some 1 ∧
      pgDecryptPassword (pgEncryptPassword maxLevel (List.replicate resultLenStd 0)
        password 1).2 = .password ([0x61, 0x41] ++ List.replicate 9 0x61 ++ [0x30] ++
          List.replicate 8 0x61) := by
  decide +kernel


end Plain.Password
