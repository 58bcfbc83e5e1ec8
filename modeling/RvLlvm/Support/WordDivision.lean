import RvLlvm.Support.WordOrder

/-!
# Signed division by magnitudes

A signed quotient or remainder of words is the unsigned one of the magnitudes, with a sign.
-/

namespace RvLlvm.Support.WordOrder

variable {w : Nat} {x y : BitVec w}

theorem msb_eq_false_iff (x : BitVec w) : x.msb = false ↔ x.toNat < 2 ^ (w - 1) := by
  rw [BitVec.msb_eq_decide, decide_eq_false_iff_not, Nat.not_le]

theorem msb_eq_true_iff (x : BitVec w) : x.msb = true ↔ 2 ^ (w - 1) ≤ x.toNat := by
  rw [BitVec.msb_eq_decide, decide_eq_true_eq]

theorem toNat_abs_cases (x : BitVec w) :
    x.toNat < 2 ^ (w - 1) ∧ x.abs.toNat = x.toNat ∨
      2 ^ (w - 1) ≤ x.toNat ∧ x.abs.toNat + x.toNat = 2 ^ w := by
  have hpos : 0 < 2 ^ (w - 1) := Nat.two_pow_pos _
  have hneg := toNat_neg_cases x
  unfold BitVec.abs
  cases hx : x.msb with
  | false => exact .inl ⟨(msb_eq_false_iff x).mp hx, rfl⟩
  | true =>
    rw [msb_eq_true_iff] at hx
    rw [if_pos rfl]
    exact .inr ⟨hx, show (-x).toNat + x.toNat = 2 ^ w by omega⟩

/-- A magnitude is half the words at most. -/
theorem toNat_abs_le (hw : 0 < w) (x : BitVec w) : x.abs.toNat ≤ 2 ^ (w - 1) := by
  have h2 := two_pow_eq hw
  have hx := toNat_abs_cases x
  omega

theorem sdiv_of_msb_eq (h : x.msb = y.msb) : x.sdiv y = x.abs / y.abs := by
  rw [BitVec.sdiv_eq]
  unfold BitVec.abs
  rw [← h]
  cases x.msb <;> rfl

theorem sdiv_of_msb_ne (h : x.msb ≠ y.msb) : x.sdiv y = -(x.abs / y.abs) := by
  rw [BitVec.sdiv_eq]
  unfold BitVec.abs
  cases hx : x.msb <;> cases hy : y.msb
  · exact absurd (hx.trans hy.symm) h
  · rfl
  · rfl
  · exact absurd (hx.trans hy.symm) h

theorem srem_of_msb_eq_false (h : x.msb = false) : x.srem y = x.abs % y.abs := by
  rw [BitVec.srem_eq]
  unfold BitVec.abs
  rw [h]
  cases y.msb <;> rfl

theorem srem_of_msb_eq_true (h : x.msb = true) : x.srem y = -(x.abs % y.abs) := by
  rw [BitVec.srem_eq]
  unfold BitVec.abs
  rw [h]
  cases y.msb <;> rfl

/-- A remainder has the sign of the dividend and is below the divisor. -/
theorem toNat_srem_cases (hw : 0 < w) (x : BitVec w) (hy : y ≠ 0) :
    ∃ r, r ≤ x.abs.toNat ∧ r < y.abs.toNat ∧ (x.abs.toNat < y.abs.toNat → r = x.abs.toNat) ∧
      (x.toNat < 2 ^ (w - 1) ∧ (x.srem y).toNat = r ∨
        2 ^ (w - 1) ≤ x.toNat ∧ (r = 0 ∧ (x.srem y).toNat = 0 ∨
          0 < r ∧ (x.srem y).toNat + r = 2 ^ w)) := by
  have hpos : 0 < y.abs.toNat := by
    have hylt := y.isLt
    have hyabs := toNat_abs_cases y
    rw [Ne, eq_iff, toNat_zero] at hy
    omega
  refine ⟨x.abs.toNat % y.abs.toNat, Nat.mod_le _ _, Nat.mod_lt _ hpos, Nat.mod_eq_of_lt, ?_⟩
  cases hx : x.msb with
  | false =>
    rw [srem_of_msb_eq_false hx, BitVec.toNat_umod]
    exact .inl ⟨(msb_eq_false_iff x).mp hx, rfl⟩
  | true =>
    have hneg := toNat_neg_cases (x.abs % y.abs)
    rw [BitVec.toNat_umod] at hneg
    rw [srem_of_msb_eq_true hx]
    exact .inr ⟨(msb_eq_true_iff x).mp hx, hneg.imp id fun h => ⟨h.1, h.2⟩⟩

end RvLlvm.Support.WordOrder
