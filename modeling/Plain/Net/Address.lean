import Plain.Foundation.Decimal

/-! # The text of an address

An address is shown as its host and its port with a colon between them, and parsed by
counting colons. The host of an IPv6 address has colons of its own and is not put in
brackets, so that its text is not parsed to the same address.
-/

namespace Plain.Net

def colon : Byte := 0x3a

def dot : Byte := 0x2e

def openBracket : Byte := 0x5b

def closeBracket : Byte := 0x5d

/-- The address families of sockets that have a host and a port. -/
inductive Family where
  | inet | inet6
  deriving DecidableEq, Repr

/-- An address, by what `family()`, `host()` and `port()` say of it. The host is what `inet_ntop`
renders: without colons in one family, with at least two in the other. -/
structure Address where
  family : Family
  host : List Byte
  port : BitVec 16
  rendered : match family with
    | .inet => colon ∉ host
    | .inet6 => 2 ≤ host.count colon

def Address.text (a : Address) : List Byte := a.host ++ [colon] ++ decimal a.port.toNat

section Parse

def find (b : Byte) (text : List Byte) : Option ℕ := text.findIdx? (· = b)

def rfind (b : Byte) (text : List Byte) : Option ℕ :=
  (text.reverse.findIdx? (· = b)).map fun i => text.length - 1 - i

/-- The first part of a split text, and what is behind the first separator. -/
def splitFirst (separator : List Byte) : List Byte → List Byte × Option (List Byte)
  | [] => ([], none)
  | b :: text =>
      if separator <+: b :: text then ([], some ((b :: text).drop separator.length))
      else (b :: (splitFirst separator text).1, (splitFirst separator text).2)

def isIpv4 (address : List Byte) : Bool :=
  if find colon address = rfind colon address then true else (find dot address).isSome

def toPort (text : List Byte) : BitVec 16 := BitVec.ofInt 16 (strtoll text)

/-- The bracket at the beginning of an IPv6 address is dropped. -/
def eraseBracket : List Byte → List Byte
  | [] => []
  | b :: ip => if b = openBracket then ip else b :: ip

/-- `parse_address`: whether it is an IPv4 address, the host and the port. -/
def parseAddress (address : List Byte) : Bool × List Byte × BitVec 16 :=
  if address = [] then (true, [], 0)
  else if isIpv4 address then
    if find colon address = none then (true, address, 0)
    else
      let parts := splitFirst [colon] address
      (true, parts.1, (parts.2.map toPort).getD 0)
  else if find closeBracket address = none then (false, address, 0)
  else
    let parts := splitFirst [closeBracket, colon] address
    (false, eraseBracket parts.1, (parts.2.map toPort).getD 0)

end Parse

section Find

variable {b : Byte} {xs ys : List Byte}

theorem find_append_cons (h : b ∉ xs) : find b (xs ++ b :: ys) = some xs.length := by
  induction xs with
  | nil => simp [find, List.findIdx?_cons]
  | cons x xs ih =>
    rw [List.mem_cons, not_or] at h
    have hx : decide (x = b) = false := decide_eq_false (Ne.symm h.1)
    rw [find, List.cons_append, List.findIdx?_cons, hx, ← find, ih h.2]
    rfl

theorem rfind_append_cons (h : b ∉ ys) : rfind b (xs ++ b :: ys) = some xs.length := by
  have hrev : (xs ++ b :: ys).reverse = ys.reverse ++ b :: xs.reverse := by simp
  have hfind : ((xs ++ b :: ys).reverse.findIdx? (· = b)) = some ys.reverse.length := by
    rw [hrev]
    exact find_append_cons (by simpa using h)
  rw [rfind, hfind]
  simp

theorem splitFirst_append_cons (h : b ∉ xs) : splitFirst [b] (xs ++ b :: ys) = (xs, some ys) := by
  induction xs with
  | nil => simp [splitFirst]
  | cons x xs ih =>
    rw [List.mem_cons, not_or] at h
    have hx : ¬ [b] <+: x :: (xs ++ b :: ys) := by simp [h.1]
    rw [List.cons_append, splitFirst, if_neg hx, ih h.2]

theorem splitFirst_spec (separator text : List Byte) :
    ((splitFirst separator text).2 = none ∧ (splitFirst separator text).1 = text) ∨
      ∃ rest, (splitFirst separator text).2 = some rest ∧
        (splitFirst separator text).1 ++ (separator ++ rest) = text := by
  induction text with
  | nil => exact Or.inl ⟨rfl, rfl⟩
  | cons b text ih =>
    by_cases hsep : separator <+: b :: text
    · obtain ⟨rest, hrest⟩ := hsep
      rw [splitFirst, if_pos ⟨rest, hrest⟩, ← hrest]
      exact Or.inr ⟨rest, by simp, rfl⟩
    · rw [splitFirst, if_neg hsep]
      rcases ih with ⟨hnone, htext⟩ | ⟨rest, hsome, htext⟩
      · exact Or.inl ⟨hnone, congrArg (b :: ·) htext⟩
      · exact Or.inr ⟨rest, hsome, congrArg (b :: ·) htext⟩

end Find

section Text

variable {host : List Byte} {port : ℕ}

theorem notMem_decimal {b : Byte} (h : isDigit b = false) : b ∉ decimal port := by
  intro hb
  rw [isDigit_of_mem_decimal hb] at h
  exact Bool.noConfusion h

theorem toPort_decimal (port : BitVec 16) : toPort (decimal port.toNat) = port := by
  have hlt := port.isLt
  rw [toPort, strtoll_decimal (by omega), BitVec.ofInt_natCast, BitVec.ofNat_toNat,
    BitVec.setWidth_eq]

theorem parseAddress_inet (h : colon ∉ host) (port : BitVec 16) :
    parseAddress (host ++ colon :: decimal port.toNat) = (true, host, port) := by
  have hport : colon ∉ decimal port.toNat := notMem_decimal (by decide)
  have hfind : find colon (host ++ colon :: decimal port.toNat) = some host.length :=
    find_append_cons h
  have hipv4 : isIpv4 (host ++ colon :: decimal port.toNat) = true := by
    rw [isIpv4, hfind, rfind_append_cons hport, if_pos rfl]
  simp [parseAddress, hipv4, hfind, splitFirst_append_cons h, toPort_decimal]

theorem eraseBracket_eq (ip : List Byte) :
    eraseBracket ip = ip ∨ ip = openBracket :: eraseBracket ip := by
  cases ip with
  | nil => exact Or.inl rfl
  | cons b ip =>
    by_cases hb : b = openBracket
    · subst hb
      exact Or.inr rfl
    · exact Or.inl (if_neg hb)

theorem eraseBracket_splitFirst_ne :
    eraseBracket (splitFirst [closeBracket, colon] (host ++ colon :: decimal port)).1 ≠ host := by
  intro heq
  have hdigits := List.length_pos_iff.mpr (decimal_ne_nil port)
  have herase := eraseBracket_eq
    (splitFirst [closeBracket, colon] (host ++ colon :: decimal port)).1
  rw [heq] at herase
  rcases splitFirst_spec [closeBracket, colon] (host ++ colon :: decimal port) with
    ⟨-, htext⟩ | ⟨rest, -, htext⟩
  · -- Without a separator the whole text is left, which is longer.
    have hlen : (host ++ colon :: decimal port).length ≤ host.length + 1 := by
      rcases herase with h | h
      · rw [← htext, ← h]
        exact Nat.le_succ _
      · rw [← htext, h]
        rfl
    rw [List.length_append, List.length_cons] at hlen
    omega
  · rcases herase with h | h
    · rw [← h] at htext
      have htail := List.append_cancel_left htext
      exact absurd (List.cons_eq_cons.mp htail).1 (by decide)
    · -- The separator would stand among the digits of the port.
      rw [h, List.append_cons host] at htext
      have hdrop := congrArg (List.drop (host.length + 1)) htext
      rw [List.drop_left' (by simp), List.drop_left' (by simp)] at hdrop
      have hnot : closeBracket ∉ decimal port := notMem_decimal (by decide)
      exact hnot (hdrop ▸ List.mem_cons_self)

/-- No text that is taken for an IPv6 address is split at its last colon. -/
theorem parseAddress_ne_inet6 (host : List Byte) (port : BitVec 16) :
    parseAddress (host ++ colon :: decimal port.toNat) ≠ (false, host, port) := by
  have hne : host ++ colon :: decimal port.toNat ≠ [] := by simp
  unfold parseAddress
  rw [if_neg hne]
  intro heq
  split at heq
  · split at heq
    · exact absurd (congrArg Prod.fst heq) (by simp)
    · exact absurd (congrArg Prod.fst heq) (by simp)
  · have hhost := congrArg (fun r => r.2.1) heq
    split at hhost
    · have hlen := congrArg List.length hhost
      simp at hlen
    · exact eraseBracket_splitFirst_ne hhost

end Text

/-- The text of an address is parsed to its family, host and port exactly when it is an IPv4
address. -/
theorem reparse_iff (a : Address) :
    parseAddress a.text = (decide (a.family = .inet), a.host, a.port) ↔ a.family = .inet := by
  obtain ⟨family, host, port, hrendered⟩ := a
  rw [Address.text, List.append_assoc, List.singleton_append]
  cases family with
  | inet => simpa using parseAddress_inet hrendered port
  | inet6 => simpa using parseAddress_ne_inet6 host port

/-- The texts of the IPv6 addresses "::1" and "::ffff:1.2.3.4" with the port 80. -/
theorem inet6_text_misread :
    parseAddress (Address.mk .inet6 [colon, colon, 49] 80 (by decide)).text =
        (false, [colon, colon, 49, colon, 56, 48], 0) ∧
      parseAddress (Address.mk .inet6 ([colon, colon, 102, 102, 102, 102, colon, 49, dot, 50, dot,
        51, dot, 52]) 80 (by decide)).text = (true, [], 0) := by
  decide

end Plain.Net
