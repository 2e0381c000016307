import ChudDB.Lib.Framing

/-! # Byte strings

Byte strings are lists of bytes with the bytewise lexicographic order. `leBytes n v` writes the low
`n` bytes of `v`, least significant first, and `leNat` reads such a number back; `beBytes` and
`beNat` do the same with the most significant byte first. -/

namespace ChudDB.Lib

abbrev Bytes := List UInt8

instance linearOrderUInt8 : LinearOrder UInt8 where
  le_refl a := UInt8.le_refl a
  le_trans _ _ _ := UInt8.le_trans
  le_antisymm _ _ := UInt8.le_antisymm
  le_total := UInt8.le_total
  lt_iff_le_not_ge a b := by
    rw [UInt8.not_le]
    exact ⟨fun h => ⟨UInt8.le_of_lt h, h⟩, And.right⟩
  toDecidableLE := inferInstance
  toDecidableLT := inferInstance
  toDecidableEq := inferInstance

/-- The empty string is the least one. -/
instance : OrderBot Bytes where
  bot := []
  bot_le key := by
    cases key with
    | nil => exact le_refl _
    | cons b key => exact (List.nil_lt_cons b key).le

instance lawfulBEqBytes : LawfulBEq Bytes := List.instLawfulBEq

/-- The low `n` bytes of `v`, least significant byte first. -/
def leBytes : Nat → Nat → Bytes
  | 0, _ => []
  | n + 1, v => UInt8.ofNat v :: leBytes n (v / 256)

/-- The number written in the given bytes, least significant byte first. -/
def leNat : Bytes → Nat
  | [] => 0
  | b :: bs => b.toNat + 256 * leNat bs

@[simp] theorem length_leBytes : (leBytes n v).length = n := by
  induction n generalizing v with
  | zero => rfl
  | succ n ih => simp [leBytes, ih]

theorem leNat_leBytes : leNat (leBytes n v) = v % 256 ^ n := by
  induction n generalizing v with
  | zero => simp [leBytes, leNat, Nat.mod_one]
  | succ n ih =>
    rw [leBytes, leNat, ih, Nat.pow_succ, Nat.mul_comm (256 ^ n), Nat.mod_mul]
    simp

theorem leNat_leBytes_of_lt (h : v < 256 ^ n) : leNat (leBytes n v) = v := by
  rw [leNat_leBytes, Nat.mod_eq_of_lt h]

/-- The bytes of a number that was read from bytes. -/
theorem leBytes_leNat {b : Bytes} (h : b.length = n) : leBytes n (leNat b) = b := by
  induction b generalizing n with
  | nil =>
    cases h
    rfl
  | cons x b ih =>
    cases h
    have hlow : UInt8.ofNat (x.toNat + 256 * leNat b) = x := by
      rw [← UInt8.toNat_inj, UInt8.toNat_ofNat']
      have := x.toNat_lt
      omega
    have hhigh : (x.toNat + 256 * leNat b) / 256 = leNat b := by
      have := x.toNat_lt
      omega
    rw [List.length_cons, leBytes, leNat, hlow, hhigh, ih rfl]

/-- The low `n` bytes of `v`, most significant byte first. -/
def beBytes (n v : Nat) : Bytes := (leBytes n v).reverse

/-- The number written in the given bytes, most significant byte first. -/
def beNat (b : Bytes) : Nat := leNat b.reverse

@[simp] theorem length_beBytes : (beBytes n v).length = n := by
  rw [beBytes, List.length_reverse, length_leBytes]

theorem beNat_beBytes_of_lt (h : v < 256 ^ n) : beNat (beBytes n v) = v := by
  rw [beNat, beBytes, List.reverse_reverse, leNat_leBytes_of_lt h]

/-- A number of a fixed width can be told from what follows it. -/
theorem selfDelimiting_beBytes : SelfDelimiting (beBytes n) fun v => v < 256 ^ n := by
  intro v w hv hw x y heq
  obtain ⟨hbytes, hrest⟩ := List.append_inj heq (length_beBytes.trans length_beBytes.symm)
  have hnat := congrArg beNat hbytes
  rw [beNat_beBytes_of_lt hv, beNat_beBytes_of_lt hw] at hnat
  exact ⟨hnat, hrest⟩

/-! ## Decimal digits -/

/-- The decimal digits of a number, as text. -/
def formatUint (n : Nat) : Bytes := (Nat.toDigits 10 n).map fun c => UInt8.ofNat c.toNat

theorem toNat_digit {c : Char} (h : c.isDigit = true) :
    (UInt8.ofNat c.toNat).toNat = c.toNat ∧ 0 < c.toNat := by
  have hdigit : 48 ≤ c.val ∧ c.val ≤ 57 := by simpa [Char.isDigit] using h
  have hlo : 48 ≤ c.toNat := UInt32.le_iff_toNat_le.mp hdigit.1
  have hhi : c.toNat ≤ 57 := UInt32.le_iff_toNat_le.mp hdigit.2
  rw [UInt8.toNat_ofNat']
  omega

theorem isDigit_of_mem_toDigits {c : Char} (h : c ∈ Nat.toDigits 10 n) : c.isDigit = true :=
  Nat.isDigit_of_mem_toDigits (by decide) (by decide) h

theorem map_toNat_formatUint (n : Nat) :
    (formatUint n).map UInt8.toNat = (Nat.toDigits 10 n).map Char.toNat := by
  rw [formatUint, List.map_map]
  exact List.map_congr_left fun c hc => (toNat_digit (isDigit_of_mem_toDigits hc)).1

theorem formatUint_injective : Function.Injective formatUint := by
  intro m n h
  have hchars := congrArg (List.map UInt8.toNat) h
  rw [map_toNat_formatUint, map_toNat_formatUint] at hchars
  have hdigits := List.map_injective_iff.mpr (fun _ _ => Char.toNat_inj.mp) hchars
  have hvalue := congrArg (fun l => Nat.ofDigitChars 10 l 0) hdigits
  rwa [Nat.ofDigitChars_toDigits (by decide) (by decide),
    Nat.ofDigitChars_toDigits (by decide) (by decide)] at hvalue

theorem zero_notMem_formatUint : (0 : UInt8) ∉ formatUint n := by
  intro h
  obtain ⟨c, hc, h0⟩ := List.mem_map.mp h
  obtain ⟨heq, hpos⟩ := toNat_digit (isDigit_of_mem_toDigits hc)
  rw [h0] at heq
  exact hpos.ne heq

/-! ## Reading -/

/-- The first `n` bytes, and what follows them. -/
def takeN (n : Nat) (b : Bytes) : Option (Bytes × Bytes) :=
  if n ≤ b.length then some (b.take n, b.drop n) else none

theorem takeN_append (h : a.length = n) : takeN n (a ++ b) = some (a, b) := by
  subst h
  rw [takeN, if_pos (by simp), List.take_left, List.drop_left]

/-- The `n` bytes at an offset; reading past the end fails. -/
def readAt (b : Bytes) (offset n : Nat) : Option Bytes :=
  if offset + n ≤ b.length then some ((b.drop offset).take n) else none

theorem readAt_append (ho : a.length = offset) (hn : b.length = n) :
    readAt (a ++ b ++ c) offset n = some b := by
  subst ho hn
  rw [readAt, if_pos (by simp), List.append_assoc, List.drop_left, List.take_left]

end ChudDB.Lib
