import Mathlib.Algebra.Ring.Divisibility.Basic
import Mathlib.Data.Int.GCD
import Mathlib.Data.Int.ModEq
import Mathlib.Data.Nat.GCD.Basic
import Mathlib.Data.Nat.ModEq
import Mathlib.Tactic.Linarith
import Mathlib.Tactic.Ring

/-!
# Euclid's algorithm

Two algorithms on numbers, apart from any machine word.

* `gcd_odd_part`: powers of two may be taken from a number whose partner is odd.
* `Cofactors`: the invariant of the extended algorithm, with the size and the signs of the cofactors.
* `Cofactors.inverse`: the cofactor of a greatest common divisor of one is an inverse.
-/

namespace RvLlvm.Support.Euclid

/-! ## Powers of two -/

theorem coprime_two_pow {b : Nat} (hb : b % 2 = 1) (j : Nat) : Nat.Coprime (2 ^ j) b :=
  Nat.Coprime.pow_left j (by rw [Nat.Coprime, Nat.gcd_rec, hb, Nat.gcd_one_left])

/-- The odd part is enough beside an odd number. -/
theorem gcd_odd_part {b : Nat} (hb : b % 2 = 1) (p j u : Nat) :
    Nat.gcd (2 ^ p * (2 ^ j * u)) (2 ^ p * b) = Nat.gcd (2 ^ p * u) (2 ^ p * b) := by
  rw [Nat.gcd_mul_left, Nat.gcd_mul_left, (coprime_two_pow hb j).gcd_mul_left_cancel]

/-! ## Cofactors -/

/-- Two successive remainders of `m` and `a`, and their cofactors of `a`. -/
structure Cofactors (m a R R' : Nat) (T T' : Int) : Prop where
  less : R' < R
  gcd : Nat.gcd R R' = Nat.gcd m a
  left : (m : Int) ∣ T * a - R
  right : (m : Int) ∣ T' * a - R'
  size : T'.natAbs * R + T.natAbs * R' = m
  signs : T * T' ≤ 0
  half : 2 * T.natAbs ≤ m

section Cofactors

variable {m a R R' : Nat} {T T' : Int}

theorem Cofactors.start (h : a < m) : Cofactors m a m a 0 1 where
  less := h
  gcd := rfl
  left := ⟨-1, by ring⟩
  right := ⟨0, by ring⟩
  size := by simp
  signs := by simp
  half := by simp

/-- Cofactors of different signs add up. -/
theorem natAbs_sub_mul (h : T * T' ≤ 0) (q : Nat) :
    (T - T' * q).natAbs = T.natAbs + T'.natAbs * q := by
  have hmul : (T' * (q : Int)).natAbs = T'.natAbs * q := by
    rw [Int.natAbs_mul, Int.natAbs_natCast]
  rw [← hmul]
  rcases mul_nonpos_iff.mp h with ⟨hT, hT'⟩ | ⟨hT, hT'⟩
  · have hprod : T' * (q : Int) ≤ 0 := mul_nonpos_of_nonpos_of_nonneg hT' (Int.natCast_nonneg q)
    omega
  · have hprod : 0 ≤ T' * (q : Int) := mul_nonneg hT' (Int.natCast_nonneg q)
    omega

/-- **A step** of the algorithm. -/
theorem Cofactors.step (h : Cofactors m a R R' T T') (hpos : 0 < R') :
    Cofactors m a R' (R % R') T' (T - T' * (R / R' : Nat)) where
  less := Nat.mod_lt _ hpos
  gcd := by rw [← h.gcd, Nat.gcd_comm R R', Nat.gcd_rec R' R, Nat.gcd_comm]
  left := h.right
  right := by
    have hdiv : (R : Int) = R' * (R / R' : Nat) + (R % R' : Nat) := by
      exact_mod_cast (Nat.div_add_mod R R').symm
    have hsub := dvd_sub h.left (Dvd.dvd.mul_left h.right ((R / R' : Nat) : Int))
    have heq : (T - T' * (R / R' : Nat)) * a - (R % R' : Nat) =
        T * a - R - (R / R' : Nat) * (T' * a - R') := by
      rw [hdiv]
      ring
    rw [heq]
    exact hsub
  size := by
    have hdiv := Nat.div_add_mod R R'
    have hsize := h.size
    rw [natAbs_sub_mul h.signs]
    calc (T.natAbs + T'.natAbs * (R / R')) * R' + T'.natAbs * (R % R') =
          T'.natAbs * (R' * (R / R') + R % R') + T.natAbs * R' := by ring
      _ = m := by rw [hdiv, hsize]
  signs := by
    have hsigns := h.signs
    have hsq : 0 ≤ T' * T' * (R / R' : Nat) :=
      mul_nonneg (mul_self_nonneg T') (Int.natCast_nonneg _)
    linarith [show T' * (T - T' * (R / R' : Nat)) = T * T' - T' * T' * (R / R' : Nat) by ring]
  half := by
    have hless := h.less
    have hsize := h.size
    calc 2 * T'.natAbs ≤ R * T'.natAbs := Nat.mul_le_mul_right _ (by omega)
      _ = T'.natAbs * R := Nat.mul_comm _ _
      _ ≤ m := hsize ▸ Nat.le_add_right _ _

/-- The number from zero on that a cofactor stands for. -/
def positive (m : Nat) (T : Int) : Nat := (if T < 0 then T + m else T).toNat

/-- **The inverse**, read off the last cofactor. -/
theorem Cofactors.inverse (h : Cofactors m a 1 0 T T') (hm : 1 < m) :
    positive m T < m ∧ a * positive m T % m = 1 := by
  have hhalf := h.half
  have hval : ((positive m T : Nat) : Int) = if T < 0 then T + m else T := by
    unfold positive
    split <;> omega
  refine ⟨by unfold positive; split <;> omega, ?_⟩
  have hdvd : (m : Int) ∣ (a * positive m T : Nat) - (1 : Nat) := by
    rw [Nat.cast_mul, hval]
    split
    · have heq : (a : Int) * (T + m) - (1 : Nat) = T * a - (1 : Nat) + m * a := by ring
      rw [heq]
      exact dvd_add h.left (dvd_mul_right _ _)
    · rw [mul_comm]
      exact h.left
  have hmod : (1 : Nat) ≡ a * positive m T [MOD m] := (Nat.modEq_iff_dvd).mpr hdvd
  exact Eq.trans hmod.symm (Nat.mod_eq_of_lt hm)

/-- There is one inverse only. -/
theorem inverse_unique {x y : Nat} (hx : x < m) (hy : y < m) (hax : a * x % m = 1)
    (hay : a * y % m = 1) (hcoprime : Nat.Coprime m a) : y = x := by
  have heq : a * y ≡ a * x [MOD m] := hay.trans hax.symm
  exact (Nat.ModEq.cancel_left_of_coprime hcoprime heq).eq_of_lt_of_lt hy hx

end Cofactors

end RvLlvm.Support.Euclid
