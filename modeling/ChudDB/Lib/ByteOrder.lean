import ChudDB.Lib.Bytes

/-! # The order of numbers and of their bytes

Numbers written with the most significant byte first, in the same number of bytes, are ordered as
their bytes are. A byte string of another length is compared with such a number by way of its first
bytes, filled up with zeros (`lt_iff_lt_padded`). -/

namespace ChudDB.Lib

variable {a b l s : Bytes} {n m : Nat}

theorem leNat_append : leNat (a ++ b) = leNat a + 256 ^ a.length * leNat b := by
  induction a with
  | nil => simp [leNat]
  | cons x a ih =>
    rw [List.cons_append, leNat, leNat, ih, List.length_cons, Nat.pow_succ]
    ring

theorem beNat_cons (x : UInt8) (b : Bytes) : beNat (x :: b) = x.toNat * 256 ^ b.length + beNat b := by
  rw [beNat, List.reverse_cons, leNat_append, List.length_reverse, leNat, leNat, beNat]
  ring

theorem beNat_lt : beNat b < 256 ^ b.length := by
  induction b with
  | nil => exact Nat.one_pos
  | cons x b ih =>
    have hx : x.toNat + 1 ≤ 256 := x.toNat_lt
    calc beNat (x :: b) = x.toNat * 256 ^ b.length + beNat b := beNat_cons x b
      _ < x.toNat * 256 ^ b.length + 256 ^ b.length := Nat.add_lt_add_left ih _
      _ = (x.toNat + 1) * 256 ^ b.length := (Nat.succ_mul ..).symm
      _ ≤ 256 * 256 ^ b.length := Nat.mul_le_mul_right _ hx
      _ = 256 ^ (x :: b).length := (Nat.pow_succ').symm

/-- A greater first byte decides. -/
theorem beNat_lt_of_head_lt {x y : UInt8} (hlen : a.length = b.length) (h : x < y) :
    beNat (x :: a) < beNat (y :: b) := by
  have hxy : x.toNat + 1 ≤ y.toNat := UInt8.lt_iff_toNat_lt.mp h
  calc beNat (x :: a) = x.toNat * 256 ^ a.length + beNat a := beNat_cons x a
    _ < x.toNat * 256 ^ a.length + 256 ^ a.length := Nat.add_lt_add_left beNat_lt _
    _ = (x.toNat + 1) * 256 ^ b.length := by rw [hlen, Nat.succ_mul]
    _ ≤ y.toNat * 256 ^ b.length := Nat.mul_le_mul_right _ hxy
    _ ≤ beNat (y :: b) := (Nat.le_add_right ..).trans_eq (beNat_cons y b).symm

theorem beNat_lt_of_lt (hlen : a.length = b.length) (h : a < b) : beNat a < beNat b := by
  induction a generalizing b with
  | nil =>
    rw [List.eq_nil_of_length_eq_zero hlen.symm] at h
    exact absurd h (lt_irrefl _)
  | cons x a ih =>
    cases b with
    | nil => cases hlen
    | cons y b =>
      have hlen' : a.length = b.length := Nat.succ.inj hlen
      rcases List.cons_lt_cons_iff.mp h with hxy | ⟨rfl, hab⟩
      · exact beNat_lt_of_head_lt hlen' hxy
      · rw [beNat_cons, beNat_cons, hlen']
        exact Nat.add_lt_add_left (ih hlen' hab) _

theorem beNat_lt_iff (hlen : a.length = b.length) : beNat a < beNat b ↔ a < b := by
  refine ⟨fun h => ?_, beNat_lt_of_lt hlen⟩
  rcases lt_trichotomy a b with hlt | rfl | hgt
  · exact hlt
  · exact absurd h (lt_irrefl _)
  · exact absurd h (beNat_lt_of_lt hlen.symm hgt).not_gt

/-- Bytes are below a string if they are below its first bytes, or if those are the same and the
string goes on. -/
theorem lt_iff_lt_padded (hl : l.length = n) (hm : n ≤ m) :
    l < s ↔ l < (s ++ List.replicate m 0).take n ∨
      l = (s ++ List.replicate m 0).take n ∧ n < s.length := by
  induction l generalizing n m s with
  | nil =>
    subst hl
    rw [List.length_nil, List.take_zero, or_iff_right (lt_irrefl _), and_iff_right rfl]
    cases s with
    | nil => exact iff_of_false (lt_irrefl _) (lt_irrefl _)
    | cons x s => exact iff_of_true (List.nil_lt_cons x s) (Nat.succ_pos _)
  | cons y l ih =>
    subst hl
    rw [List.length_cons] at hm ⊢
    cases s with
    | nil =>
      obtain ⟨m, rfl⟩ : ∃ k, m = k + 1 := ⟨m - 1, by omega⟩
      have hrest := ih (s := []) rfl (Nat.le_of_succ_le_succ hm)
      rw [List.nil_append] at hrest ⊢
      rw [List.replicate_succ, List.take_succ_cons, List.cons_lt_cons_iff]
      refine iff_of_false (List.not_lt_nil _) ?_
      rintro ((hy | ⟨-, hlt⟩) | ⟨-, hlen⟩)
      · exact Nat.not_lt_zero _ (UInt8.lt_iff_toNat_lt.mp hy)
      · exact List.not_lt_nil _ (hrest.mpr (.inl hlt))
      · cases hlen
    | cons x s =>
      rw [List.cons_append, List.take_succ_cons, List.cons_lt_cons_iff, List.cons_lt_cons_iff,
        List.cons.injEq, List.length_cons, Nat.succ_lt_succ_iff,
        ih (s := s) rfl (Nat.le_of_succ_le hm)]
      tauto

/-- A string is below bytes if its first bytes are. -/
theorem lt_of_padded_lt (hl : l.length = n) (hm : n ≤ m)
    (h : (s ++ List.replicate m 0).take n < l) : s < l := by
  refine not_le.mp fun hle => ?_
  rcases hle.lt_or_eq with hlt | rfl
  · rcases (lt_iff_lt_padded hl hm).mp hlt with hlt | ⟨heq, -⟩
    · exact h.asymm hlt
    · exact h.ne heq.symm
  · rw [List.take_append_of_le_length hl.ge, List.take_of_length_le hl.le] at h
    exact lt_irrefl _ h

theorem le_replicate_255 {key : Bytes} (h : key.length ≤ n) : key ≤ List.replicate n 0xff := by
  induction key generalizing n with
  | nil => exact not_lt.mp (List.not_lt_nil _)
  | cons x key ih =>
    cases n with
    | zero => cases h
    | succ n =>
      have hrest := ih (Nat.le_of_succ_le_succ h)
      rw [List.replicate_succ]
      have hx : x ≤ 0xff := UInt8.le_iff_toNat_le.mpr (Nat.le_of_lt_succ x.toNat_lt)
      rcases hx.lt_or_eq with hlt | rfl
      · exact (List.cons_lt_cons_iff.mpr (.inl hlt)).le
      · exact not_lt.mp fun hlt => by
          rcases List.cons_lt_cons_iff.mp hlt with hlt | ⟨-, hlt⟩
          · exact lt_irrefl _ hlt
          · exact absurd hrest (not_le.mpr hlt)

end ChudDB.Lib
