import Mathlib.Data.Nat.Bitwise

/-!
# The lowest set bit

The bit of a word that `x & (x - 1)` clears. Nothing here names a program.
-/

namespace RvLlvm.Support

variable {w : Nat} {x : BitVec w}

/-- A word around its lowest set bit. -/
theorem toNat_eq_lowBit (hx : x ≠ 0) :
    x.toNat = 2 ^ (x.ctz.toNat + 1) * (x.toNat / 2 ^ (x.ctz.toNat + 1)) + 2 ^ x.ctz.toNat := by
  have hzero : x.toNat % 2 ^ x.ctz.toNat = 0 := by
    refine Nat.eq_of_testBit_eq fun j => ?_
    rw [Nat.testBit_mod_two_pow, Nat.zero_testBit, Bool.and_eq_false_iff]
    by_cases hj : j < x.ctz.toNat
    · exact .inr (by rw [BitVec.testBit_toNat, BitVec.getLsbD_false_of_lt_ctz hj])
    · exact .inl (decide_eq_false hj)
  have hone : x.toNat / 2 ^ x.ctz.toNat % 2 = 1 := by
    have hbit := BitVec.getLsbD_true_ctz_of_ne_zero hx
    rwa [← BitVec.testBit_toNat, Nat.testBit_eq_decide_div_mod_eq, decide_eq_true_eq] at hbit
  have hlow : x.toNat % 2 ^ (x.ctz.toNat + 1) = 2 ^ x.ctz.toNat := by
    rw [Nat.mod_pow_succ, hzero, hone, Nat.zero_add, Nat.mul_one]
  have hsplit := Nat.div_add_mod x.toNat (2 ^ (x.ctz.toNat + 1))
  rw [hlow] at hsplit
  exact hsplit.symm

/-- **`x & (x - 1)` clears the lowest set bit.** -/
theorem and_sub_one (hx : x ≠ 0) : x &&& (x - 1) = x &&& ~~~BitVec.twoPow w x.ctz.toNat := by
  have hsplit := toNat_eq_lowBit hx
  generalize x.toNat / 2 ^ (x.ctz.toNat + 1) = q at hsplit
  generalize hc : x.ctz.toNat = c at hsplit ⊢
  have hpos : 0 < 2 ^ c := Nat.two_pow_pos c
  have hlt : 2 ^ c < 2 ^ (c + 1) := Nat.pow_lt_pow_right (by decide) (Nat.lt_succ_self c)
  have hsub : (x - 1).toNat = 2 ^ (c + 1) * q + (2 ^ c - 1) := by
    have hone : (1 : BitVec w).toNat = 1 := by
      refine Nat.mod_eq_of_lt (Nat.one_lt_two_pow fun hw => hx ?_)
      subst hw
      exact Subsingleton.elim _ _
    rw [BitVec.toNat_sub_of_le (by rw [BitVec.le_def, hone]; omega), hone]
    omega
  refine BitVec.eq_of_getLsbD_eq fun j hj => ?_
  rw [BitVec.getLsbD_and, BitVec.getLsbD_and, BitVec.getLsbD_not, BitVec.getLsbD_twoPow,
    ← BitVec.testBit_toNat, ← BitVec.testBit_toNat, hsub, hsplit,
    Nat.testBit_two_pow_mul_add _ hlt, Nat.testBit_two_pow_mul_add _ (by omega),
    Nat.testBit_two_pow_sub_one, Nat.testBit_two_pow]
  rcases lt_trichotomy j c with h | rfl | h
  · simp [show j < c + 1 by omega, h.ne']
  · simp
  · simp [show ¬j < c + 1 by omega, h.ne, hj]

end RvLlvm.Support
