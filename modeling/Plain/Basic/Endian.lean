import Plain.Foundation.Bytes

/-! # Byte order

The conversion between host and network byte order, and the bytes an integer has
in the memory of a machine. Whatever the order of the machine, a converted integer
lies in memory with its most significant byte first.
-/

namespace Plain

/-- The byte order of the machine, `std::endian::native`. -/
inductive Endian where
  | little | big
  deriving DecidableEq, Repr

def bswap16 (n : BitVec 16) : BitVec 16 := n <<< 8 ||| n >>> 8

/-- The swapped lower half in front of the swapped upper half. -/
def bswapHalves {w : ℕ} (h : ℕ) (swap : BitVec h → BitVec h) (n : BitVec w) : BitVec w :=
  (swap (n.setWidth h)).setWidth w <<< h ||| (swap ((n >>> h).setWidth h)).setWidth w

def bswap32 : BitVec 32 → BitVec 32 := bswapHalves 16 bswap16

def bswap64 : BitVec 64 → BitVec 64 := bswapHalves 32 bswap32

/-- The sizes of other integers are rejected at compile time. -/
def byteswap : {w : ℕ} → BitVec w → BitVec w
  | 16, n => bswap16 n
  | 32, n => bswap32 n
  | 64, n => bswap64 n
  | _, n => n

def ntoh {w : ℕ} (host : Endian) (n : BitVec w) : BitVec w :=
  if host = .big then n else byteswap n

def hton {w : ℕ} (host : Endian) (n : BitVec w) : BitVec w := ntoh host n

namespace Endian

def bytes {w : ℕ} (host : Endian) (n : BitVec w) : List Byte :=
  match host with
  | little => (bigEndian n.toNat (w / 8)).reverse
  | big => bigEndian n.toNat (w / 8)

def ofBytes (host : Endian) (w : ℕ) (bs : List Byte) : BitVec w :=
  match host with
  | little => BitVec.ofNat w (ofBigEndian bs.reverse)
  | big => BitVec.ofNat w (ofBigEndian bs)

end Endian

section Swap

def Reverses {w : ℕ} (k : ℕ) (swap : BitVec w → BitVec w) : Prop :=
  ∀ n, bigEndian (swap n).toNat k = (bigEndian n.toNat k).reverse

theorem toNat_shiftLeft_or {w h : ℕ} (a b : BitVec w) (ha : a.toNat * 2 ^ h < 2 ^ w)
    (hb : b.toNat < 2 ^ h) : (a <<< h ||| b).toNat = a.toNat * 2 ^ h + b.toNat := by
  rw [BitVec.toNat_or, BitVec.toNat_shiftLeft, Nat.shiftLeft_eq, Nat.mod_eq_of_lt ha,
    Nat.mul_comm, Nat.two_pow_add_eq_or_of_lt hb]

theorem toNat_bswapHalves {w h : ℕ} (hw : w = h + h) (swap : BitVec h → BitVec h) (n : BitVec w) :
    (bswapHalves h swap n).toNat =
      (swap (n.setWidth h)).toNat * 2 ^ h + (swap ((n >>> h).setWidth h)).toNat := by
  have hlt (x : BitVec h) : x.toNat < 2 ^ w :=
    lt_of_lt_of_le x.isLt (Nat.pow_le_pow_right (by omega) (by omega))
  have hval (x : BitVec h) : (x.setWidth w).toNat = x.toNat := by
    rw [BitVec.toNat_setWidth, Nat.mod_eq_of_lt (hlt x)]
  have hmul (x : BitVec h) : x.toNat * 2 ^ h < 2 ^ w := by
    rw [hw, Nat.pow_add]
    exact Nat.mul_lt_mul_of_pos_right x.isLt (Nat.pow_pos (by omega))
  rw [bswapHalves, toNat_shiftLeft_or _ _ (by rw [hval]; exact hmul _)
    (by rw [hval]; exact BitVec.isLt _), hval, hval]

theorem reverses_bswapHalves {k : ℕ} {swap : BitVec (8 * k) → BitVec (8 * k)}
    (hs : Reverses k swap) {w : ℕ} (hw : w = 8 * k + 8 * k) :
    Reverses (k + k) (bswapHalves (w := w) (8 * k) swap) := by
  subst hw
  intro n
  have hpow : 2 ^ (8 * k) = 256 ^ k := Nat.pow_mul 2 8 k
  have hlt (x : BitVec (8 * k)) : x.toNat < 256 ^ k := hpow ▸ x.isLt
  have hhi : ((n >>> (8 * k)).setWidth (8 * k)).toNat = n.toNat / 256 ^ k := by
    have hn : n.toNat / 256 ^ k < 256 ^ k := by
      have hlt := n.isLt
      rw [Nat.pow_add, hpow] at hlt
      exact Nat.div_lt_of_lt_mul hlt
    rw [BitVec.toNat_setWidth, BitVec.toNat_ushiftRight, Nat.shiftRight_eq_div_pow, hpow,
      Nat.mod_eq_of_lt hn]
  have hlo : (n.setWidth (8 * k)).toNat = n.toNat % 256 ^ k := by
    rw [BitVec.toNat_setWidth, hpow]
  have hn : bigEndian n.toNat (k + k) =
      bigEndian (n.toNat / 256 ^ k) k ++ bigEndian (n.toNat % 256 ^ k) k := by
    rw [← bigEndian_append _ _ (Nat.mod_lt _ (Nat.pow_pos (by omega))), Nat.div_add_mod']
  rw [toNat_bswapHalves rfl, hpow, bigEndian_append _ _ (hlt _), hs, hs, hhi, hlo,
    ← List.reverse_append, hn]

theorem bswap16_eq_bswapHalves : bswap16 = bswapHalves 8 id := by
  funext n
  have hn := n.isLt
  have hl : n <<< 8 = (n.setWidth 8).setWidth 16 <<< 8 := by
    apply BitVec.eq_of_toNat_eq
    simp only [BitVec.toNat_shiftLeft, BitVec.toNat_setWidth, Nat.shiftLeft_eq]
    omega
  have hr : (n >>> 8).toNat = n.toNat / 256 := by
    rw [BitVec.toNat_ushiftRight, Nat.shiftRight_eq_div_pow]
  have hlo : ((n.setWidth 8).setWidth 16).toNat = n.toNat % 256 := by
    simp only [BitVec.toNat_setWidth]
    omega
  apply BitVec.eq_of_toNat_eq
  rw [toNat_bswapHalves rfl, bswap16, hl, toNat_shiftLeft_or _ _ (by omega) (by omega), hlo, hr]
  simp only [id, BitVec.toNat_setWidth, hr]
  omega

theorem reverses_id : Reverses (w := 8) 1 id := fun _ => rfl

theorem reverses_bswap16 : Reverses 2 bswap16 := by
  rw [bswap16_eq_bswapHalves]
  exact reverses_bswapHalves reverses_id rfl

theorem reverses_bswap32 : Reverses 4 bswap32 := reverses_bswapHalves reverses_bswap16 rfl

theorem reverses_bswap64 : Reverses 8 bswap64 := reverses_bswapHalves reverses_bswap32 rfl

end Swap

section Order

variable {w : ℕ}

theorem reverses_byteswap (hw : w ∈ [8, 16, 32, 64]) :
    Reverses (w / 8) (byteswap (w := w)) := by
  simp only [List.mem_cons, List.not_mem_nil, or_false] at hw
  rcases hw with rfl | rfl | rfl | rfl
  · exact reverses_id
  · exact reverses_bswap16
  · exact reverses_bswap32
  · exact reverses_bswap64

theorem pow_width (hw : w ∈ [8, 16, 32, 64]) : 2 ^ w = 256 ^ (w / 8) := by
  simp only [List.mem_cons, List.not_mem_nil, or_false] at hw
  rcases hw with rfl | rfl | rfl | rfl <;> rfl

/-- An integer in network order lies in memory with its most significant byte first. -/
theorem bytes_hton (hw : w ∈ [8, 16, 32, 64]) (host : Endian) (n : BitVec w) :
    host.bytes (hton host n) = bigEndian n.toNat (w / 8) := by
  cases host
  · change (bigEndian (byteswap n).toNat (w / 8)).reverse = _
    rw [reverses_byteswap hw, List.reverse_reverse]
  · rfl

theorem ntoh_ofBytes (hw : w ∈ [8, 16, 32, 64]) (host : Endian) {bs : List Byte}
    (hbs : bs.length = w / 8) :
    ntoh host (host.ofBytes w bs) = BitVec.ofNat w (ofBigEndian bs) := by
  have hw8 := pow_width hw
  cases host
  · change byteswap (BitVec.ofNat w (ofBigEndian bs.reverse)) = _
    apply BitVec.eq_of_toNat_eq
    have hrev := reverses_byteswap hw (BitVec.ofNat w (ofBigEndian bs.reverse))
    rw [BitVec.toNat_ofNat, hw8, bigEndian_mod _ _ le_rfl, ← hbs, ← List.length_reverse,
      bigEndian_ofBigEndian, List.reverse_reverse] at hrev
    have hval := congrArg ofBigEndian hrev
    rw [ofBigEndian_bigEndian, List.length_reverse, hbs, ← hw8,
      Nat.mod_eq_of_lt (BitVec.isLt _)] at hval
    rw [hval, BitVec.toNat_ofNat, hw8, ← hbs, Nat.mod_eq_of_lt (ofBigEndian_lt bs)]
  · rfl

end Order

end Plain
