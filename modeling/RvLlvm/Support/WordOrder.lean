import Mathlib.Algebra.Order.Ring.Int
import Mathlib.Data.Nat.Notation
import Mathlib.Tactic.SplitIfs

/-!
# Words as numbers

The value of a sum, a difference or a negation of words is that of the numbers, or that number taken
once around. Stated by cases, so that linear arithmetic does the rest.
-/

namespace RvLlvm.Support.WordOrder

variable {w : Nat}

theorem two_pow_eq (hw : 0 < w) : 2 ^ w = 2 * 2 ^ (w - 1) := by
  obtain ⟨k, rfl⟩ : ∃ k, w = k + 1 := ⟨w - 1, by omega⟩
  rw [Nat.add_sub_cancel, Nat.pow_succ, Nat.mul_comm]

variable {x : BitVec w}

theorem eq_iff {y : BitVec w} : x = y ↔ x.toNat = y.toNat := BitVec.toNat_inj.symm

theorem two_pow_cast (n : Nat) : (2 : Int) ^ n = (2 ^ n : Nat) := by
  rw [Int.natCast_pow]
  rfl

theorem toNat_zero : (0 : BitVec w).toNat = 0 := by simp

theorem toNat_one (hw : 0 < w) : (1 : BitVec w).toNat = 1 := by
  rw [BitVec.ofNat_eq_ofNat, BitVec.toNat_ofNat]
  exact Nat.mod_eq_of_lt (Nat.one_lt_two_pow (by omega))

theorem toNat_add_cases (x y : BitVec w) :
    x.toNat + y.toNat < 2 ^ w ∧ (x + y).toNat = x.toNat + y.toNat ∨
      2 ^ w ≤ x.toNat + y.toNat ∧ (x + y).toNat + 2 ^ w = x.toNat + y.toNat := by
  have hx := x.isLt
  have hy := y.isLt
  rw [BitVec.toNat_add]
  rcases Nat.lt_or_ge (x.toNat + y.toNat) (2 ^ w) with h | h
  · exact .inl ⟨h, Nat.mod_eq_of_lt h⟩
  · refine .inr ⟨h, ?_⟩
    rw [Nat.mod_eq_sub_mod h, Nat.mod_eq_of_lt (by omega)]
    omega

theorem toNat_sub_cases (x y : BitVec w) :
    y.toNat ≤ x.toNat ∧ (x - y).toNat + y.toNat = x.toNat ∨
      x.toNat < y.toNat ∧ (x - y).toNat + y.toNat = x.toNat + 2 ^ w := by
  have hx := x.isLt
  have hy := y.isLt
  rw [BitVec.toNat_sub]
  rcases Nat.lt_or_ge x.toNat y.toNat with h | h
  · rw [Nat.mod_eq_of_lt (by omega)]
    omega
  · rw [Nat.mod_eq_sub_mod (by omega), Nat.mod_eq_of_lt (by omega)]
    omega

theorem toNat_neg_cases (x : BitVec w) :
    x.toNat = 0 ∧ (-x).toNat = 0 ∨ 0 < x.toNat ∧ (-x).toNat + x.toNat = 2 ^ w := by
  have hx := x.isLt
  rw [BitVec.toNat_neg]
  rcases Nat.eq_zero_or_pos x.toNat with h | h
  · rw [h, Nat.sub_zero, Nat.mod_self]
    omega
  · rw [Nat.mod_eq_of_lt (by omega)]
    omega

/-- The signed value, by the half a word lies in. -/
theorem toInt_cases (hw : 0 < w) (x : BitVec w) :
    x.toNat < 2 ^ (w - 1) ∧ x.toInt = x.toNat ∨
      2 ^ (w - 1) ≤ x.toNat ∧ x.toInt = x.toNat - (2 ^ w : Nat) := by
  have h2 := two_pow_eq hw
  rw [BitVec.toInt_eq_toNat_cond]
  split_ifs with h
  · exact .inl ⟨by omega, rfl⟩
  · exact .inr ⟨by omega, rfl⟩

theorem toInt_eq_iff {y : BitVec w} : x = y ↔ x.toInt = y.toInt := BitVec.toInt_inj.symm

theorem add_one_ne_zero (hw : 0 < w) (h : x ≠ BitVec.allOnes w) : x + 1 ≠ 0 := by
  have h1 := toNat_one hw
  have hadd := toNat_add_cases x 1
  rw [Ne, eq_iff, BitVec.toNat_allOnes] at h
  rw [Ne, eq_iff, toNat_zero]
  omega

theorem add_one_ne_intMin (hw : 0 < w) (h : x ≠ BitVec.intMax w) : x + 1 ≠ BitVec.intMin w := by
  have h1 := toNat_one hw
  have h2 := two_pow_eq hw
  have hadd := toNat_add_cases x 1
  rw [Ne, eq_iff, BitVec.toNat_intMax] at h
  rw [Ne, eq_iff, BitVec.toNat_intMin_of_pos hw]
  omega

theorem toInt_add_one (hw : 0 < w) (h : x ≠ BitVec.intMax w) : (x + 1).toInt = x.toInt + 1 := by
  have h1 := toNat_one hw
  have h2 := two_pow_eq hw
  have hadd := toNat_add_cases x 1
  have hx := toInt_cases hw x
  have hy := toInt_cases hw (x + 1)
  have hlt := x.isLt
  rw [Ne, eq_iff, BitVec.toNat_intMax] at h
  omega

theorem toInt_sub_one (hw : 0 < w) (h : -2 ^ (w - 1) < x.toInt) : (x - 1).toInt = x.toInt - 1 := by
  have h1 := toNat_one hw
  have h2 := two_pow_eq hw
  have hsub := toNat_sub_cases x 1
  have hx := toInt_cases hw x
  have hy := toInt_cases hw (x - 1)
  have hlt := x.isLt
  have hlt' := (x - 1).isLt
  rw [two_pow_cast] at h
  omega

theorem msb_iff (hw : 0 < w) (x : BitVec w) : x.msb = true ↔ x.toInt < 0 := by
  rw [BitVec.msb_eq_toInt, decide_eq_true_iff]

theorem toNat_intMin (hw : 0 < w) : (BitVec.intMin w).toNat = 2 ^ (w - 1) :=
  BitVec.toNat_intMin_of_pos hw

theorem neg_intMax_ne_intMin (hw : 0 < w) : -BitVec.intMax w ≠ BitVec.intMin w := by
  have h2 := two_pow_eq hw
  have hneg := toNat_neg_cases (BitVec.intMax w)
  have hmax : (BitVec.intMax w).toNat = 2 ^ (w - 1) - 1 := BitVec.toNat_intMax
  have hpos : 0 < 2 ^ (w - 1) := Nat.two_pow_pos _
  rw [Ne, eq_iff, toNat_intMin hw]
  omega

theorem toNat_width : (BitVec.ofNat w w).toNat = w := by
  rw [BitVec.toNat_ofNat]
  exact Nat.mod_eq_of_lt Nat.lt_two_pow_self

theorem zero_ne_width (hw : 0 < w) : (0 : BitVec w) ≠ BitVec.ofNat w w := by
  rw [Ne, eq_iff, toNat_zero, toNat_width]
  omega

end RvLlvm.Support.WordOrder
