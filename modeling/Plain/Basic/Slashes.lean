import Plain.Basic.Explode

/-! # Replacing in texts, and slashes

Every occurrence of a text is replaced, from the left and without looking at what was put
in. Slashes are added in front of slashes and quotes by three such passes, and taken away
by three others. The occurrences are counted with a signed number of 32 bits.
-/

namespace Plain

section Replace

/-- The loop of `str_replace` on what is right of the last replacement. A loop that goes on
makes more rounds than there are characters and replacements to make. -/
def strReplaceLoop (search replace : List Byte) (count : ℤ) :
    ℕ → ℤ → List Byte → Option (List Byte)
  | 0, _, _ => none
  | rounds + 1, replaceCount, rest =>
      match findKey search false rest with
      | none => some rest
      | some it =>
          if count = -1 ∨ replaceCount < count then do
            let replaceCount ← int32 (replaceCount + 1)
            let r ← strReplaceLoop search replace count rounds replaceCount
              (rest.drop (it + search.length))
            return rest.take it ++ replace ++ r
          else some rest

/-- The text with the replacements, unless the function does not return or the number of
replacements overflows. -/
def strReplace (search replace subject : List Byte) (count : ℤ) : Option (List Byte) :=
  strReplaceLoop search replace count (subject.length + count.toNat + 1) 0 subject

variable {search replace : List Byte}

section Round

variable {count k : ℤ} {rounds : ℕ}

theorem strReplaceLoop_done (hsearch : search ≠ []) {rest : List Byte}
    (hrest : ∀ s, IsSeparator search false s → s ≠ [] → ¬ s <:+: rest) :
    strReplaceLoop search replace count (rounds + 1) k rest = some rest := by
  have hfind : findKey search false rest = none :=
    findKey_eq_none hsearch fun s hs => hrest s hs (hs.ne_nil hsearch)
  rw [strReplaceLoop, hfind]

theorem strReplaceLoop_found (hsearch : search ≠ []) {before after : List Byte}
    (hbefore : ∀ i < before.length, ∀ s, IsSeparator search false s →
      ¬ s <+: (before ++ (search ++ after)).drop i) :
    strReplaceLoop search replace count (rounds + 1) k (before ++ (search ++ after)) =
      if count = -1 ∨ k < count then
        (int32 (k + 1)).bind fun k =>
          (strReplaceLoop search replace count rounds k after).map (before ++ replace ++ ·)
      else some (before ++ (search ++ after)) := by
  have hsep : IsSeparator search false search := rfl
  rw [strReplaceLoop, findKey_eq_some hsearch hsep hbefore]
  dsimp only
  rw [drop_append_separator, List.take_left]
  simp only [Option.map_eq_bind]
  rfl

end Round

theorem strReplaceLoop_eq (hsearch : search ≠ []) {rounds k : ℕ} {rest : List Byte}
    {tokens : List (Token Byte)} (h : Scan (IsSeparator search false) rest tokens)
    (hrounds : rest.length < rounds) (hk : k < 2 ^ 31) :
    strReplaceLoop search replace (-1) rounds k rest =
      if k + tokens.countP Token.isSep < 2 ^ 31 then
        some (tokens.flatMap (Token.replaced replace))
      else none := by
  induction rounds generalizing rest tokens k with
  | zero => omega
  | succ rounds ih =>
    rcases h.first with ⟨rfl, hnone⟩ | ⟨before, s, after, others, rfl, hs, rfl, hscan, hbefore⟩
    · rw [strReplaceLoop_done hsearch hnone, Token.countP_isSep_map_char,
        Token.flatMap_replaced_map_char]
      exact (if_pos hk).symm
    · obtain rfl : s = search := hs
      have hpos := List.length_pos_iff.mpr hsearch
      have hlen : (before ++ (s ++ after)).length = before.length + s.length + after.length := by
        rw [List.length_append, List.length_append, Nat.add_assoc]
      have hcount : (before.map Token.char ++ Token.sep s :: others).countP Token.isSep =
          others.countP Token.isSep + 1 := by
        rw [List.countP_append, Token.countP_isSep_map_char, Nat.zero_add,
          List.countP_cons_of_pos rfl]
      rw [strReplaceLoop_found hsearch hbefore, if_pos (Or.inl rfl), hcount]
      by_cases hlast : k + 1 < 2 ^ 31
      · have hint : int32 ((k : ℤ) + 1) = some ((k + 1 : ℕ) : ℤ) :=
          int32_eq_some (by omega) (by omega)
        rw [hint, Option.bind_some, ih hscan (by omega) hlast, Nat.add_right_comm,
          Nat.add_assoc k]
        split
        · simp [Token.replaced]
        · rfl
      · have hint : int32 ((k : ℤ) + 1) = none := if_neg (by omega)
        rw [hint, if_neg (by omega)]
        rfl

theorem strReplaceLoop_limited (hsearch : search ≠ []) {count : ℤ} (hcount : count ≠ -1)
    (hmax : count < 2 ^ 31) {rounds k : ℕ} {rest : List Byte} {tokens : List (Token Byte)}
    (h : Scan (IsSeparator search false) rest tokens) (hrounds : rest.length < rounds) :
    strReplaceLoop search replace count rounds k rest =
      some (Token.replacedFirst replace (count - k).toNat tokens) := by
  induction rounds generalizing rest tokens k with
  | zero => omega
  | succ rounds ih =>
    have htext := h.flatMap_text
    rcases h.first with ⟨rfl, hnone⟩ | ⟨before, s, after, others, rfl, hs, rfl, hscan, hbefore⟩
    · have hall := Token.replacedFirst_map_char_append replace (count - k).toNat rest []
      rw [List.append_nil] at hall
      rw [strReplaceLoop_done hsearch hnone, hall, Token.replacedFirst, List.append_nil]
    · obtain rfl : s = search := hs
      have hpos := List.length_pos_iff.mpr hsearch
      have hlen : (before ++ (s ++ after)).length = before.length + s.length + after.length := by
        rw [List.length_append, List.length_append, Nat.add_assoc]
      rw [strReplaceLoop_found hsearch hbefore]
      by_cases hleft : (k : ℤ) < count
      · have hint : int32 ((k : ℤ) + 1) = some ((k + 1 : ℕ) : ℤ) :=
          int32_eq_some (by omega) (by omega)
        have hnext : (count - k).toNat = (count - (k + 1 : ℕ)).toNat + 1 := by omega
        rw [if_pos (Or.inr hleft), hint, Option.bind_some, ih hscan (by omega), hnext,
          Token.replacedFirst_map_char_append, Token.replacedFirst, Option.map_some,
          List.append_assoc]
      · have hzero : (count - k).toNat = 0 := by omega
        rw [if_neg (by omega), hzero, Token.replacedFirst_zero, htext]

theorem strReplace_eq (hsearch : search ≠ []) {subject : List Byte} {tokens : List (Token Byte)}
    (h : Scan (IsSeparator search false) subject tokens) :
    strReplace search replace subject (-1) =
      if tokens.countP Token.isSep < 2 ^ 31 then
        some (tokens.flatMap (Token.replaced replace))
      else none := by
  have hloop : strReplaceLoop search replace (-1) (subject.length + 1) (0 : ℕ) subject = _ :=
    strReplaceLoop_eq hsearch h (Nat.lt_succ_self _) (by decide)
  rwa [Nat.zero_add] at hloop

section Empty

theorem findKey_nil (rest : List Byte) : findKey [] false rest = some 0 := by
  simp [findKey, List.range_succ_eq_map]

/-- Without a limit an empty text is found again and again. -/
theorem strReplaceLoop_nil_eq_none (rounds : ℕ) (k : ℤ) (rest : List Byte) :
    strReplaceLoop [] replace (-1) rounds k rest = none := by
  induction rounds generalizing k rest with
  | zero => rfl
  | succ rounds ih =>
    rw [strReplaceLoop, findKey_nil]
    dsimp only
    rw [if_pos (Or.inl rfl)]
    cases int32 (k + 1) with
    | none => rfl
    | some k =>
      rw [Option.bind_eq_bind, Option.bind_some, ih]
      rfl

theorem strReplaceLoop_nil_isSome {count : ℤ} (hcount : count ≠ -1) (hmax : count < 2 ^ 31)
    {rounds k : ℕ} (hrounds : (count - k).toNat < rounds) (rest : List Byte) :
    (strReplaceLoop [] replace count rounds k rest).isSome := by
  induction rounds generalizing k rest with
  | zero => omega
  | succ rounds ih =>
    rw [strReplaceLoop, findKey_nil]
    dsimp only
    by_cases hleft : (k : ℤ) < count
    · have hint : int32 ((k : ℤ) + 1) = some ((k + 1 : ℕ) : ℤ) :=
        int32_eq_some (by omega) (by omega)
      have hnext : (count - (k + 1 : ℕ)).toNat < rounds := by omega
      obtain ⟨r, hr⟩ := Option.isSome_iff_exists.mp (ih hnext rest)
      rw [if_pos (Or.inr hleft), hint, Option.bind_eq_bind, Option.bind_some]
      exact hr ▸ rfl
    · rw [if_neg (by omega)]
      rfl

end Empty

/-- Replacing an empty text returns unless it is to be replaced everywhere. The occurrences of any
other text are replaced from the left, as many as the limit says, or all of them exactly when they
are fewer than two to the 31. -/
theorem str_replace_total_iff (search replace subject : List Byte) (count : BitVec 32) :
    (search = [] →
      ((∃ rounds r, strReplaceLoop search replace count.toInt rounds 0 subject = some r) ↔
        count ≠ -1)) ∧
      (search ≠ [] → ∃ tokens, Scan (IsSeparator search false) subject tokens ∧
        (strReplace search replace subject count.toInt =
            some (if count = -1 then tokens.flatMap (Token.replaced replace)
              else Token.replacedFirst replace count.toInt.toNat tokens) ↔
          (count = -1 → (Token.separators tokens).length < 2 ^ 31))) := by
  have hmax : count.toInt < 2 ^ 31 := BitVec.toInt_lt
  have hcount : count.toInt = -1 ↔ count = -1 :=
    ⟨fun h => BitVec.eq_of_toInt_eq h, fun h => by rw [h]; decide⟩
  refine ⟨?_, fun hsearch => ?_⟩
  · rintro rfl
    constructor
    · rintro ⟨rounds, r, h⟩ rfl
      rw [show (-1 : BitVec 32).toInt = -1 by decide, strReplaceLoop_nil_eq_none] at h
      cases h
    · intro hne
      have hsome : (strReplaceLoop [] replace count.toInt _ (0 : ℕ) subject).isSome :=
        strReplaceLoop_nil_isSome (mt hcount.mp hne) hmax (Nat.lt_succ_self _) subject
      obtain ⟨r, hr⟩ := Option.isSome_iff_exists.mp hsome
      exact ⟨_, r, hr⟩
  · obtain ⟨tokens, h⟩ := Scan.exists_scan (fun s (hs : IsSeparator search false s) =>
      hs.ne_nil hsearch) subject
    refine ⟨tokens, h, ?_⟩
    rw [Token.length_separators]
    by_cases hall : count = -1
    · rw [hcount.mpr hall, strReplace_eq hsearch h, if_pos hall, imp_iff_right hall]
      split
      · next hfew => exact iff_of_true rfl hfew
      · next hmany => exact iff_of_false (Option.some_ne_none _).symm hmany
    · have hloop : strReplaceLoop search replace count.toInt
          (subject.length + count.toInt.toNat + 1) (0 : ℕ) subject = _ :=
        strReplaceLoop_limited hsearch (mt hcount.mp hall) hmax h (by omega)
      rw [Int.natCast_zero, Int.sub_zero] at hloop
      rw [if_neg hall]
      exact iff_of_true hloop fun h => absurd h hall

/-- An empty text is put in front of an empty one for ever. A limit ends this. -/
theorem str_replace_never_returns :
    (¬ ∃ rounds r, strReplaceLoop [] [0x61] (-1) rounds 0 [] = some r) ∧
      strReplace [] [0x61] [] 2 = some [0x61, 0x61] := by
  refine ⟨?_, by decide⟩
  rintro ⟨rounds, r, h⟩
  rw [strReplaceLoop_nil_eq_none] at h
  cases h

end Replace

section Slashes

def backslash : Byte := 0x5c

def doubleQuote : Byte := 0x22

def singleQuote : Byte := 0x27

def addslashes (str : List Byte) : Option (List Byte) := do
  let str ← strReplace [backslash] [backslash, backslash] str (-1)
  let str ← strReplace [doubleQuote] [backslash, doubleQuote] str (-1)
  strReplace [singleQuote] [backslash, singleQuote] str (-1)

def stripslashes (str : List Byte) : Option (List Byte) := do
  let str ← strReplace [backslash, backslash] [backslash] str (-1)
  let str ← strReplace [backslash, doubleQuote] [doubleQuote] str (-1)
  strReplace [backslash, singleQuote] [singleQuote] str (-1)

/-- A character with a slash in front of it if it is one of those that get one. -/
def slashed (escaped : List Byte) (c : Byte) : List Byte :=
  if escaped.contains c then [backslash, c] else [c]

theorem slashed_of_mem {escaped : List Byte} {c : Byte} (h : c ∈ escaped) :
    slashed escaped c = [backslash, c] :=
  if_pos (List.contains_iff_mem.mpr h)

theorem slashed_of_notMem {escaped : List Byte} {c : Byte} (h : c ∉ escaped) :
    slashed escaped c = [c] :=
  if_neg fun hc => h (List.contains_iff_mem.mp hc)

variable {q : Byte} {escaped escaped' : List Byte}

/-- A pass over a text that is made character by character, where the separators stand for the
character `q`. -/
theorem strReplace_flatMap {search replace : List Byte} (hsearch : search ≠ [])
    {before after : Byte → List Byte} {tokens : Byte → List (Token Byte)} {str : List Byte}
    (h : Scan (IsSeparator search false) (str.flatMap before) (str.flatMap tokens))
    (hcount : ∀ c, (tokens c).countP Token.isSep = if c = q then 1 else 0)
    (htext : ∀ c, (tokens c).flatMap (Token.replaced replace) = after c) :
    strReplace search replace (str.flatMap before) (-1) =
      if str.count q < 2 ^ 31 then some (str.flatMap after) else none := by
  have hseps : (str.flatMap tokens).countP Token.isSep = str.count q := by
    clear h
    induction str with
    | nil => rfl
    | cons c str ih =>
      rw [List.flatMap_cons, List.countP_append, hcount, ih, List.count_cons, Nat.add_comm]
      simp
  rw [strReplace_eq hsearch h, hseps, List.flatMap_assoc]
  simp only [htext]

section Add

theorem scan_character (q : Byte) (str : List Byte) :
    Scan (IsSeparator [q] false) str
      (str.map fun c => if c = q then .sep [q] else .char c) := by
  induction str with
  | nil => exact .nil
  | cons c str ih =>
    rw [List.map_cons]
    split
    · next h =>
      subst h
      exact .sep (s := [c]) rfl ih
    · next h =>
      refine .char ?_ ih
      rintro s rfl hpre
      exact h (List.cons_prefix_cons.mp hpre).1.symm

theorem strReplace_slashed (hq : q ∉ escaped) (hslash : q = backslash → escaped = [])
    (hescaped : ∀ c, c ∈ escaped' ↔ c = q ∨ c ∈ escaped) (str : List Byte) :
    strReplace [q] [backslash, q] (str.flatMap (slashed escaped)) (-1) =
      if str.count q < 2 ^ 31 then some (str.flatMap (slashed escaped')) else none := by
  have hscan := scan_character q (str.flatMap (slashed escaped))
  rw [List.map_flatMap] at hscan
  -- a character that has its slash already is not the one that is looked for, nor is the slash
  have hother {c : Byte} (hc : c ∈ escaped) : c ≠ q ∧ backslash ≠ q :=
    ⟨fun h => hq (h ▸ hc), fun h => absurd hc (hslash h.symm ▸ List.not_mem_nil)⟩
  refine strReplace_flatMap (List.cons_ne_nil _ _) hscan (fun c => ?_) fun c => ?_
  · by_cases hc : c ∈ escaped
    · simp [slashed, hc, hother hc, Token.isSep]
    · by_cases hcq : c = q <;> simp [slashed, hc, hcq, hq, Token.isSep]
  · by_cases hc : c ∈ escaped
    · simp [slashed, hc, hother hc, hescaped, Token.replaced]
    · by_cases hcq : c = q <;> simp [slashed, hc, hcq, hq, hescaped, Token.replaced]

end Add

section Strip

theorem not_prefix_slashed (hq : q ≠ backslash) (hmem : q ∈ escaped) (str : List Byte) :
    ¬ [q] <+: str.flatMap (slashed escaped) := by
  cases str with
  | nil => simp
  | cons c str =>
    rw [List.flatMap_cons]
    by_cases hc : c ∈ escaped
    · rw [slashed_of_mem hc]
      simpa using hq
    · rw [slashed_of_notMem hc]
      intro hpre
      obtain rfl := (List.cons_prefix_cons.mp hpre).1
      exact hc hmem

theorem scan_slashed (hq : q ∉ escaped') (hslash : backslash ∉ escaped')
    (hescaped : ∀ c, c ∈ escaped ↔ c = q ∨ c ∈ escaped') (str : List Byte) :
    Scan (IsSeparator [backslash, q] false) (str.flatMap (slashed escaped))
      (str.flatMap fun c =>
        if c = q then [.sep [backslash, q]] else (slashed escaped' c).map .char) := by
  induction str with
  | nil => exact .nil
  | cons c str ih =>
    rw [List.flatMap_cons, List.flatMap_cons]
    by_cases hcq : c = q
    · subst hcq
      rw [if_pos rfl, slashed_of_mem ((hescaped c).mpr (Or.inl rfl))]
      exact .sep rfl ih
    rw [if_neg hcq]
    by_cases hc : c ∈ escaped'
    · -- behind the slash stands another character, which is no slash
      have hne : c ≠ backslash := fun h => hslash (h ▸ hc)
      rw [slashed_of_mem hc, slashed_of_mem ((hescaped c).mpr (Or.inr hc))]
      refine .char ?_ (.char ?_ ih)
      · rintro s rfl hpre
        simp [Ne.symm hcq] at hpre
      · rintro s rfl hpre
        exact hne (List.cons_prefix_cons.mp hpre).1.symm
    · rw [slashed_of_notMem hc, slashed_of_notMem fun h => ((hescaped c).mp h).elim hcq hc]
      refine .char ?_ ih
      rintro s rfl hpre
      -- a slash that stands for itself is not followed by the character
      obtain ⟨rfl, hrest⟩ := List.cons_prefix_cons.mp hpre
      exact not_prefix_slashed (Ne.symm hcq) ((hescaped q).mpr (Or.inl rfl)) str hrest

theorem strReplace_unslashed (hq : q ∉ escaped') (hslash : backslash ∉ escaped')
    (hescaped : ∀ c, c ∈ escaped ↔ c = q ∨ c ∈ escaped') (str : List Byte) :
    strReplace [backslash, q] [q] (str.flatMap (slashed escaped)) (-1) =
      if str.count q < 2 ^ 31 then some (str.flatMap (slashed escaped')) else none := by
  refine strReplace_flatMap (List.cons_ne_nil _ _) (scan_slashed hq hslash hescaped str)
    (fun c => ?_) fun c => ?_
  · by_cases hcq : c = q <;> simp [hcq, Token.isSep]
  · by_cases hcq : c = q <;> simp [hcq, hq, slashed, Token.replaced]

end Strip

theorem flatMap_slashed_nil (str : List Byte) : str.flatMap (slashed []) = str := by
  induction str with
  | nil => rfl
  | cons c str ih => simpa [slashed] using ih

abbrev escapedCharacters : List Byte := [singleQuote, doubleQuote, backslash]

/-- None of the characters that get a slash comes so often that counting it overflows. -/
abbrev CountsFit (str : List Byte) : Prop := ∀ q ∈ escapedCharacters, str.count q < 2 ^ 31

theorem countsFit_iff (str : List Byte) :
    CountsFit str ↔ str.count backslash < 2 ^ 31 ∧ str.count doubleQuote < 2 ^ 31 ∧
      str.count singleQuote < 2 ^ 31 := by
  simp only [CountsFit, escapedCharacters, List.forall_mem_cons]
  tauto

theorem bind_passes {str out : List Byte} {pass₁ pass₂ pass₃ : List Byte → Option (List Byte)}
    {a b c : List Byte}
    (h₁ : pass₁ a = if str.count backslash < 2 ^ 31 then some b else none)
    (h₂ : pass₂ b = if str.count doubleQuote < 2 ^ 31 then some c else none)
    (h₃ : pass₃ c = if str.count singleQuote < 2 ^ 31 then some out else none) :
    ((pass₁ a).bind fun b => (pass₂ b).bind pass₃) =
      if CountsFit str then some out else none := by
  have hfit := countsFit_iff str
  rw [h₁]
  by_cases hslash : str.count backslash < 2 ^ 31
  · rw [if_pos hslash, Option.bind_some, h₂]
    by_cases hdouble : str.count doubleQuote < 2 ^ 31
    · rw [if_pos hdouble, Option.bind_some, h₃]
      simp only [hfit, hslash, hdouble, true_and]
    · rw [if_neg hdouble, if_neg fun h => hdouble (hfit.mp h).2.1]
      rfl
  · rw [if_neg hslash, if_neg fun h => hslash (hfit.mp h).1]
    rfl

theorem addslashes_eq (str : List Byte) :
    addslashes str =
      if CountsFit str then some (str.flatMap (slashed escapedCharacters)) else none := by
  have hfirst : strReplace [backslash] [backslash, backslash] (str.flatMap (slashed [])) (-1) = _ :=
    strReplace_slashed List.not_mem_nil (fun _ => rfl) (fun c => List.mem_cons) str
  rw [flatMap_slashed_nil] at hfirst
  exact bind_passes hfirst
    (strReplace_slashed (by decide) (by decide) (fun c => List.mem_cons) str)
    (strReplace_slashed (by decide) (by decide) (fun c => List.mem_cons) str)

theorem stripslashes_slashed (str : List Byte) :
    stripslashes (str.flatMap (slashed escapedCharacters)) =
      if CountsFit str then some str else none := by
  have hslash : ∀ c, c ∈ escapedCharacters ↔ c = backslash ∨ c ∈ [singleQuote, doubleQuote] := by
    simp only [List.mem_cons, List.not_mem_nil, or_false]
    tauto
  have hdouble : ∀ c, c ∈ [singleQuote, doubleQuote] ↔ c = doubleQuote ∨ c ∈ [singleQuote] := by
    simp only [List.mem_cons, List.not_mem_nil, or_false]
    tauto
  have hlast : strReplace [backslash, singleQuote] [singleQuote]
      (str.flatMap (slashed [singleQuote])) (-1) = _ :=
    strReplace_unslashed List.not_mem_nil List.not_mem_nil (fun c => List.mem_cons) str
  rw [flatMap_slashed_nil] at hlast
  exact bind_passes (strReplace_unslashed (by decide) (by decide) hslash str)
    (strReplace_unslashed (by decide) (by decide) hdouble str) hlast

/-- Slashes that were added are taken away again exactly when there are less than two to the 31
slashes, double quotes and single quotes. -/
theorem stripslashes_addslashes_iff (str : List Byte) :
    (addslashes str).bind stripslashes = some str ↔
      str.count backslash < 2 ^ 31 ∧ str.count doubleQuote < 2 ^ 31 ∧
        str.count singleQuote < 2 ^ 31 := by
  rw [← countsFit_iff, addslashes_eq]
  constructor
  · intro h
    by_contra hfit
    rw [if_neg hfit] at h
    exact absurd h (Option.some_ne_none str).symm
  · intro hfit
    rw [if_pos hfit, Option.bind_some, stripslashes_slashed, if_pos hfit]

theorem addslashes_overflows :
    (addslashes (List.replicate (2 ^ 31) backslash)).bind stripslashes = none := by
  have hfit : ¬ CountsFit (List.replicate (2 ^ 31) backslash) := by
    rw [countsFit_iff, List.count_replicate_self]
    exact fun h => absurd h.1 (lt_irrefl _)
  rw [addslashes_eq, if_neg hfit]
  rfl

end Slashes

end Plain
