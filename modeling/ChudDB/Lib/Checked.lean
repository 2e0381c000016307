import ChudDB.Lib.ByteOrder

/-! # Reading length-prefixed fields with 64 bit integers

A Go function that parses bytes returns a value, returns an error, or panics when an index or a
slice is out of range. The integers of such a function are 64 bit two's complement numbers, and a
bound check on a sum that has wrapped around passes. `sizedAt` reads a field behind its 8 byte
length; `sizedAt_eq` says which of the three outcomes it has. -/

namespace ChudDB.Lib

/-- The outcome of a function that returns an error next to its value. -/
inductive Checked (ε : Type u) (α : Type v) where
  | ok (a : α)
  | error (e : ε)
  | panic
deriving DecidableEq, Repr

namespace Checked
variable {ε : Type u} {α : Type v} {β : Type w}

/-- Go on with the value. -/
def andThen : Checked ε α → (α → Checked ε β) → Checked ε β
  | ok a, f => f a
  | error e, _ => error e
  | panic, _ => panic

@[simp] theorem andThen_ok (a : α) (f : α → Checked ε β) : (ok a).andThen f = f a := rfl

/-- The value, if there is one. -/
def value? : Checked ε α → Option α
  | ok a => some a
  | _ => none

@[simp] theorem value?_ok (a : α) : (ok a : Checked ε α).value? = some a := rfl

/-- The function comes back, with a value or with an error. -/
def Returns (r : Checked ε α) : Prop := r ≠ panic

@[simp] theorem returns_ok (a : α) : (ok a : Checked ε α).Returns := nofun

@[simp] theorem returns_error (e : ε) : (error e : Checked ε α).Returns := nofun

@[simp] theorem not_returns_panic : ¬ (panic : Checked ε α).Returns := fun h => h rfl

/-- A check that returns an error. -/
theorem returns_ite_error {c : Prop} [Decidable c] {e : ε} {r : Checked ε α} :
    (if c then error e else r).Returns ↔ (¬ c → r.Returns) := by
  by_cases h : c <;> simp [h]

theorem returns_ite_panic {c : Prop} [Decidable c] {r : Checked ε α} :
    (if c then panic else r).Returns ↔ ¬ c ∧ r.Returns := by
  by_cases h : c <;> simp [h]

theorem returns_andThen {r : Checked ε α} {f : α → Checked ε β} (hf : ∀ a, (f a).Returns) :
    (r.andThen f).Returns ↔ r.Returns := by
  cases r with
  | ok a => exact iff_of_true (hf a) (returns_ok a)
  | error e => exact iff_of_true (returns_error e) (returns_error e)
  | panic => exact iff_of_false not_returns_panic not_returns_panic

end Checked

/-! ## Integers -/

/-- The value of an `int` after an operation with the exact result `x`. -/
def wrap (x : Int) : Int := x.bmod (2 ^ 64)

theorem wrap_of_lt {x : Int} (hlo : -2 ^ 63 ≤ x) (hhi : x < 2 ^ 63) : wrap x = x := by
  rw [wrap, Int.bmod_eq_of_le] <;> omega

/-- A sum with a length that was read as a `uint64`, if it does not overflow. -/
theorem wrap_add_of_lt {off n : Nat} (h : off + n < 2 ^ 63) :
    wrap (off + wrap n) = ((off + n : Nat) : Int) := by
  rw [wrap_of_lt (x := (n : Int)) (by omega) (by omega), wrap_of_lt (by omega) (by omega),
    Nat.cast_add]

/-- A sum that overflows is below its first summand. -/
theorem wrap_add_lt {off n : Nat} (hoff : off < 2 ^ 63) (hn : n < 2 ^ 64) (h : 2 ^ 63 ≤ off + n) :
    wrap (off + wrap n) < off := by
  rcases Nat.lt_or_ge n (2 ^ 63) with hsmall | hlarge
  · have hwrap : wrap (off + n) = off + n - 2 ^ 64 := by
      rw [wrap, Int.bmod_def]
      omega
    rw [wrap_of_lt (x := (n : Int)) (by omega) (by omega), hwrap]
    omega
  · have hneg : wrap n = n - 2 ^ 64 := by
      rw [wrap, Int.bmod_def]
      omega
    rw [hneg, wrap_of_lt (by omega) (by omega)]
    omega

/-! ## Slices -/

/-- The most bytes that the runtime allocates at once. -/
def maxAlloc : Nat := 2 ^ 48

/-- A byte slice. -/
structure Slice where
  bytes : Bytes
  length_le : bytes.length ≤ maxAlloc

namespace Slice
variable {ε : Type u} (data : Slice)

def length (data : Slice) : Nat := data.bytes.length

/-- `data[lo:hi]`, where `hi` is at most the length. -/
def sub (lo hi : Int) : Checked ε Bytes :=
  if 0 ≤ lo ∧ lo ≤ hi ∧ hi ≤ data.length then .ok ((data.bytes.take hi.toNat).drop lo.toNat)
  else .panic

/-- `binary.BigEndian.Uint64(data[off:])`. -/
def uint64 (off : Int) : Checked ε Nat :=
  (data.sub off data.length).andThen fun b =>
    if b.length < 8 then .panic else .ok (beNat (b.take 8))

/-- The field behind an 8 byte length, and the offset behind it. `truncated` makes the error from
the length and the offset of a field that reaches past the end. -/
def sizedAt (off : Int) (truncated : Int → Int → ε) : Checked ε (Bytes × Int) :=
  (data.uint64 off).andThen fun n =>
    let len := wrap n
    let off := wrap (off + 8)
    if wrap (off + len) > data.length then .error (truncated len off)
    else (data.sub off (wrap (off + len))).andThen fun field => .ok (field, wrap (off + len))

/-- The number at an offset. -/
def numberAt (off : Nat) : Nat := beNat ((data.bytes.drop off).take 8)

/-- The bytes between two offsets. -/
def between (lo hi : Nat) : Bytes := (data.bytes.take hi).drop lo

/-- The field at an offset and the offset behind it do not overflow an `int`. -/
def Fits (off : Nat) : Prop := off + 8 + data.numberAt off < 2 ^ 63

instance : Decidable (data.Fits off) := inferInstanceAs (Decidable (_ < _))

variable {data} {off lo hi : Nat}

theorem length_lt (data : Slice) : data.length + 2 ^ 62 < 2 ^ 63 := by
  have := data.length_le
  rw [maxAlloc] at this
  rw [length]
  omega

theorem length_between (hhi : hi ≤ data.length) : (data.between lo hi).length = hi - lo := by
  rw [between, List.length_drop, List.length_take,
    Nat.min_eq_left (show hi ≤ data.bytes.length from hhi)]

theorem numberAt_lt (data : Slice) (off : Nat) : data.numberAt off < 2 ^ 64 := by
  refine lt_of_lt_of_le beNat_lt ?_
  refine (Nat.pow_le_pow_right (by decide) (List.length_take_le 8 _)).trans ?_
  decide

theorem sub_eq (hlo : lo ≤ hi) (hhi : hi ≤ data.length) :
    (data.sub lo hi : Checked ε Bytes) = .ok (data.between lo hi) := by
  rw [sub, if_pos ⟨by omega, by omega, by omega⟩]
  rfl

theorem sub_eq_panic {lo hi : Int} (h : hi < lo) : (data.sub lo hi : Checked ε Bytes) = .panic := by
  rw [sub, if_neg (by omega)]

theorem uint64_eq (h : off + 8 ≤ data.length) :
    (data.uint64 off : Checked ε Nat) = .ok (data.numberAt off) := by
  have hall : data.between off data.length = data.bytes.drop off := by
    rw [between, length, List.take_length]
  rw [uint64, sub_eq (by omega) le_rfl, Checked.andThen_ok, length_between le_rfl,
    if_neg (by omega), hall]
  rfl

/-- The outcomes of reading a field: a length that overflows passes the bound check, and the slice
behind it panics. -/
theorem sizedAt_eq (truncated : Int → Int → ε) (h : off + 8 ≤ data.length) :
    data.sizedAt off truncated =
      if ¬ data.Fits off then .panic
      else if data.length < off + 8 + data.numberAt off then
        .error (truncated (wrap (data.numberAt off)) (off + 8 : Nat))
      else .ok (data.between (off + 8) (off + 8 + data.numberAt off),
        ((off + 8 + data.numberAt off : Nat) : Int)) := by
  have hlen := data.length_lt
  have hoff : wrap (off + 8) = ((off + 8 : Nat) : Int) := by
    rw [wrap_of_lt (by omega) (by omega)]
    rfl
  rw [sizedAt, uint64_eq h, Checked.andThen_ok]
  simp only [hoff]
  by_cases hfit : data.Fits off
  · rw [if_neg (not_not.mpr hfit), wrap_add_of_lt hfit]
    by_cases htrunc : data.length < off + 8 + data.numberAt off
    · rw [if_pos (by omega), if_pos htrunc]
    · rw [if_neg (by omega), if_neg htrunc, sub_eq (by omega) (by omega)]
      rfl
  · have hneg := wrap_add_lt (by omega : off + 8 < 2 ^ 63) (data.numberAt_lt off) (not_lt.mp hfit)
    rw [if_pos hfit, if_neg (by omega), sub_eq_panic hneg]
    rfl

theorem sizedAt_returns_iff (truncated : Int → Int → ε) (h : off + 8 ≤ data.length) :
    (data.sizedAt off truncated).Returns ↔ data.Fits off := by
  rw [sizedAt_eq truncated h, Checked.returns_ite_panic, Checked.returns_ite_error, not_not]
  exact and_iff_left fun _ => Checked.returns_ok _

end Slice
end ChudDB.Lib
