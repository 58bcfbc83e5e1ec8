import RvLlvm.Support.WordDivision
import Mathlib.Data.Nat.Size
import Mathlib.Tactic.Ring

/-!
# Overflow and saturation

Model of the `_ov` and `_sat` members of `APInt` (`llvm/lib/Support/APInt.cpp:1934-2110`). The flag
is computed from the wrapped result, and the result saturates where it is set.

* `umul_ov_snd`, `smul_ov_snd`: the flag of a product, which is read off half a product and off a
  division back.
* `toNat_uadd_sat`, `toInt_smul_sat` and their fellows: the number that is not wrapped, clamped.
-/

namespace RvLlvm.APInt.Saturating

open Support.WordOrder

variable {w : Nat}

/-- `countl_zero`. -/
def countl_zero (x : BitVec w) : Nat := w - x.toNat.size

/-- `countl_one`. -/
def countl_one (x : BitVec w) : Nat := countl_zero (~~~x)

/-- `getLimitedValue`. -/
def getLimitedValue (x : BitVec w) (Limit : Nat) : Nat := min x.toNat Limit

def sadd_ov (x RHS : BitVec w) : BitVec w × Bool :=
  let Res := x + RHS
  (Res, x.msb == RHS.msb && Res.msb != x.msb)

def uadd_ov (x RHS : BitVec w) : BitVec w × Bool :=
  let Res := x + RHS
  (Res, Res.ult RHS)

def ssub_ov (x RHS : BitVec w) : BitVec w × Bool :=
  let Res := x - RHS
  (Res, x.msb != RHS.msb && Res.msb != x.msb)

def usub_ov (x RHS : BitVec w) : BitVec w × Bool :=
  let Res := x - RHS
  (Res, x.ult Res)

def smul_ov (x RHS : BitVec w) : BitVec w × Bool :=
  let Res := x * RHS
  (Res, if RHS ≠ 0 then Res.sdiv RHS != x || (x == BitVec.intMin w && RHS == BitVec.allOnes w)
    else false)

def umul_ov (x RHS : BitVec w) : BitVec w × Bool :=
  if countl_zero x + countl_zero RHS + 2 ≤ w then (x * RHS, true)
  else
    let Half := (x >>> 1) * RHS
    let Overflow := Half.msb
    let Res := Half <<< 1
    if x.getLsbD 0 then (Res + RHS, Overflow || (Res + RHS).ult RHS) else (Res, Overflow)

def sshl_ov (x : BitVec w) (ShAmt : Nat) : BitVec w × Bool :=
  if w ≤ ShAmt then (0, true)
  -- no change of sign is allowed
  else (x <<< ShAmt, if x.msb = false then decide (countl_zero x ≤ ShAmt) else decide (countl_one x ≤ ShAmt))

def ushl_ov (x : BitVec w) (ShAmt : Nat) : BitVec w × Bool :=
  if w ≤ ShAmt then (0, true) else (x <<< ShAmt, decide (countl_zero x < ShAmt))

/-- The result of an operation, or the bound that it passes. -/
def saturate (result : BitVec w × Bool) (bound : BitVec w) : BitVec w :=
  if result.2 = false then result.1 else bound

/-- The signed bound on the side of a sign. -/
def signedBound (w : Nat) (negative : Bool) : BitVec w :=
  if negative then BitVec.intMin w else BitVec.intMax w

def sadd_sat (x RHS : BitVec w) : BitVec w := saturate (sadd_ov x RHS) (signedBound w x.msb)

def uadd_sat (x RHS : BitVec w) : BitVec w := saturate (uadd_ov x RHS) (BitVec.allOnes w)

def ssub_sat (x RHS : BitVec w) : BitVec w := saturate (ssub_ov x RHS) (signedBound w x.msb)

def usub_sat (x RHS : BitVec w) : BitVec w := saturate (usub_ov x RHS) 0

def smul_sat (x RHS : BitVec w) : BitVec w := saturate (smul_ov x RHS) (signedBound w (x.msb != RHS.msb))

def umul_sat (x RHS : BitVec w) : BitVec w := saturate (umul_ov x RHS) (BitVec.allOnes w)

def sshl_sat (x RHS : BitVec w) : BitVec w :=
  saturate (sshl_ov x (getLimitedValue RHS w)) (signedBound w x.msb)

def ushl_sat (x RHS : BitVec w) : BitVec w :=
  saturate (ushl_ov x (getLimitedValue RHS w)) (BitVec.allOnes w)

/-- A number, or the signed bound that it passes. -/
def clamp (w : Nat) (n : Int) : Int := max (-(2 ^ (w - 1) : Nat)) (min n ((2 ^ (w - 1) : Nat) - 1))

variable {x y : BitVec w}

/-! ## Sums and differences -/

theorem msb_eq (x : BitVec w) : x.msb = decide (x.toInt < 0) := by
  rw [BitVec.msb_eq_toInt]

theorem toInt_signedBound (hw : 0 < w) (negative : Bool) :
    (signedBound w negative).toInt =
      if negative then (-(2 ^ (w - 1) : Nat) : Int) else ((2 ^ (w - 1) : Nat) - 1 : Int) := by
  have h2 := two_pow_eq hw
  have hmin := toNat_intMin hw
  have hmini := toInt_cases hw (BitVec.intMin w)
  have hmax : (BitVec.intMax w).toNat = 2 ^ (w - 1) - 1 := BitVec.toNat_intMax
  have hmaxi := toInt_cases hw (BitVec.intMax w)
  have hpos : 0 < 2 ^ (w - 1) := Nat.two_pow_pos _
  unfold signedBound
  cases negative with
  | true =>
    simp only [if_true]
    omega
  | false =>
    simp only [Bool.false_eq_true, if_false]
    omega

theorem toNat_uadd_sat (x y : BitVec w) : (uadd_sat x y).toNat = min (x.toNat + y.toNat) (2 ^ w - 1) := by
  have hadd := toNat_add_cases x y
  have hx := x.isLt
  have hones : (BitVec.allOnes w).toNat = 2 ^ w - 1 := BitVec.toNat_allOnes
  have hult : (x + y).ult y = true ↔ (x + y).toNat < y.toNat := by
    rw [BitVec.ult_iff_lt, BitVec.lt_def]
  unfold uadd_sat uadd_ov saturate
  dsimp only
  split_ifs with h
  · rw [← Bool.not_eq_true, hult] at h
    omega
  · rw [Bool.not_eq_false, hult] at h
    omega

theorem toNat_usub_sat (x y : BitVec w) : (usub_sat x y).toNat = x.toNat - y.toNat := by
  have hsub := toNat_sub_cases x y
  have hy := y.isLt
  have hz := toNat_zero (w := w)
  have hult : x.ult (x - y) = true ↔ x.toNat < (x - y).toNat := by
    rw [BitVec.ult_iff_lt, BitVec.lt_def]
  unfold usub_sat usub_ov saturate
  dsimp only
  split_ifs with h
  · rw [← Bool.not_eq_true, hult] at h
    omega
  · rw [Bool.not_eq_false, hult] at h
    omega

theorem toInt_sadd_sat (hw : 0 < w) (x y : BitVec w) :
    (sadd_sat x y).toInt = clamp w (x.toInt + y.toInt) := by
  have h2 := two_pow_eq hw
  have hadd := toNat_add_cases x y
  have hx := toInt_cases hw x
  have hy := toInt_cases hw y
  have hr := toInt_cases hw (x + y)
  have hxlt := x.isLt
  have hylt := y.isLt
  have hrlt := (x + y).isLt
  unfold sadd_sat sadd_ov saturate clamp
  simp only [msb_eq]
  split_ifs with h
  · simp only [Bool.and_eq_false_iff, beq_eq_false_iff_ne, bne_eq_false_iff_eq, Ne, decide_eq_decide] at h
    omega
  · simp only [Bool.not_eq_false, Bool.and_eq_true, beq_iff_eq, bne_iff_ne, Ne, decide_eq_decide] at h
    simp only [toInt_signedBound hw, decide_eq_true_eq]
    split_ifs <;> omega

theorem toInt_ssub_sat (hw : 0 < w) (x y : BitVec w) :
    (ssub_sat x y).toInt = clamp w (x.toInt - y.toInt) := by
  have h2 := two_pow_eq hw
  have hsub := toNat_sub_cases x y
  have hx := toInt_cases hw x
  have hy := toInt_cases hw y
  have hr := toInt_cases hw (x - y)
  have hxlt := x.isLt
  have hylt := y.isLt
  have hrlt := (x - y).isLt
  unfold ssub_sat ssub_ov saturate clamp
  simp only [msb_eq]
  split_ifs with h
  · simp only [Bool.and_eq_false_iff, bne_eq_false_iff_eq, decide_eq_decide] at h
    omega
  · simp only [Bool.not_eq_false, Bool.and_eq_true, bne_iff_ne, Ne, decide_eq_decide] at h
    simp only [toInt_signedBound hw, decide_eq_true_eq]
    split_ifs <;> omega

/-! ## Leading zeros -/

theorem le_countl_zero {n : Nat} (hn : n ≤ w) : n ≤ countl_zero x ↔ x.toNat < 2 ^ (w - n) := by
  have hsize : x.toNat.size ≤ w := Nat.size_le.mpr x.isLt
  rw [← Nat.size_le, countl_zero]
  omega

/-- A word with `c` leading zeros reaches its highest bit, unless it is zero. -/
theorem countl_zero_bounds (x : BitVec w) :
    x.toNat < 2 ^ (w - countl_zero x) ∧ (countl_zero x < w → 2 ^ (w - countl_zero x - 1) ≤ x.toNat) := by
  have hle : countl_zero x ≤ w := Nat.sub_le _ _
  refine ⟨(le_countl_zero hle).mp (Nat.le_refl _), fun hlt => ?_⟩
  rw [← Nat.not_lt, Nat.sub_sub, ← le_countl_zero (by omega)]
  omega

/-! ## Products -/

theorem umul_ov_early (h : countl_zero x + countl_zero y + 2 ≤ w) : 2 ^ w ≤ x.toNat * y.toNat := by
  have hx := (countl_zero_bounds x).2 (by omega)
  have hy := (countl_zero_bounds y).2 (by omega)
  calc 2 ^ w ≤ 2 ^ (w - countl_zero x - 1 + (w - countl_zero y - 1)) :=
        Nat.pow_le_pow_right (by omega) (by omega)
    _ = 2 ^ (w - countl_zero x - 1) * 2 ^ (w - countl_zero y - 1) := Nat.pow_add _ _ _
    _ ≤ x.toNat * y.toNat := Nat.mul_le_mul hx hy

/-- Half the product of two words with that many leading zeros does not wrap. -/
theorem half_mul_lt (h : ¬countl_zero x + countl_zero y + 2 ≤ w) (hw : 0 < w) :
    x.toNat / 2 * y.toNat < 2 ^ w := by
  have hx := (countl_zero_bounds x).1
  have hy := (countl_zero_bounds y).1
  have hpos : 0 < 2 ^ w := Nat.two_pow_pos w
  by_cases hx0 : w - countl_zero x = 0
  · rw [hx0] at hx
    rw [show x.toNat / 2 = 0 by omega, Nat.zero_mul]
    exact hpos
  have hhalf : x.toNat / 2 < 2 ^ (w - countl_zero x - 1) := by
    rw [Nat.div_lt_iff_lt_mul (by omega), ← Nat.pow_succ, Nat.succ_eq_add_one, Nat.sub_add_cancel (by omega)]
    exact hx
  have hy0 : 0 < 2 ^ (w - countl_zero y) := Nat.two_pow_pos _
  calc x.toNat / 2 * y.toNat ≤ x.toNat / 2 * 2 ^ (w - countl_zero y) :=
        Nat.mul_le_mul_left _ (Nat.le_of_lt hy)
    _ < 2 ^ (w - countl_zero x - 1) * 2 ^ (w - countl_zero y) := Nat.mul_lt_mul_of_pos_right hhalf hy0
    _ = 2 ^ (w - countl_zero x - 1 + (w - countl_zero y)) := (Nat.pow_add _ _ _).symm
    _ ≤ 2 ^ w := Nat.pow_le_pow_right (by omega) (by omega)

/-- The flag of an unsigned product, and the product where it is not set. -/
theorem umul_ov_spec (hw : 0 < w) (x y : BitVec w) :
    ((umul_ov x y).2 = true ↔ 2 ^ w ≤ x.toNat * y.toNat) ∧
      ((umul_ov x y).2 = false → (umul_ov x y).1.toNat = x.toNat * y.toNat) := by
  unfold umul_ov
  by_cases hearly : countl_zero x + countl_zero y + 2 ≤ w
  · rw [if_pos hearly]
    exact ⟨iff_of_true rfl (umul_ov_early hearly), fun h => by cases h⟩
  rw [if_neg hearly]
  have h2 := two_pow_eq hw
  have hhalf := half_mul_lt hearly hw
  have hprod : x.toNat * y.toNat = 2 * (x.toNat / 2 * y.toNat) + x.toNat % 2 * y.toNat := by
    conv_lhs => rw [← Nat.div_add_mod x.toNat 2]
    ring
  have hres : ((x >>> 1) * y).toNat = x.toNat / 2 * y.toNat := by
    rw [BitVec.toNat_mul, BitVec.toNat_ushiftRight, Nat.shiftRight_eq_div_pow, Nat.pow_one,
      Nat.mod_eq_of_lt hhalf]
  have hmsb : ((x >>> 1) * y).msb = true ↔ 2 ^ (w - 1) ≤ x.toNat / 2 * y.toNat := by
    rw [msb_eq_true_iff, hres]
  have hdouble : 2 * (x.toNat / 2 * y.toNat) < 2 ^ w →
      (((x >>> 1) * y) <<< 1).toNat = 2 * (x.toNat / 2 * y.toNat) := by
    intro hlt
    rw [BitVec.toNat_shiftLeft, hres, Nat.shiftLeft_eq, Nat.pow_one, Nat.mul_comm, Nat.mod_eq_of_lt hlt]
  have hbit : x.getLsbD 0 = decide (x.toNat % 2 = 1) := by
    rw [BitVec.getLsbD, Nat.testBit_zero]
  dsimp only
  rw [hbit]
  have hylt := y.isLt
  by_cases hodd : x.toNat % 2 = 1
  · rw [if_pos (decide_eq_true hodd)]
    dsimp only
    rw [hodd, Nat.one_mul] at hprod
    have hadd := toNat_add_cases (((x >>> 1) * y) <<< 1) y
    have hult : (((x >>> 1) * y) <<< 1 + y).ult y = true ↔ (((x >>> 1) * y) <<< 1 + y).toNat < y.toNat := by
      rw [BitVec.ult_iff_lt, BitVec.lt_def]
    rw [← Bool.not_eq_true, Bool.or_eq_true, hmsb, hult, hprod]
    generalize x.toNat / 2 * y.toNat = half at *
    by_cases hlarge : 2 ^ (w - 1) ≤ half
    · refine ⟨iff_of_true (.inl hlarge) (by omega), fun h => absurd (.inl hlarge) h⟩
    · have hdouble := hdouble (by omega)
      omega
  · rw [if_neg (by rw [decide_eq_true_eq]; exact hodd)]
    dsimp only
    rw [show x.toNat % 2 = 0 by omega, Nat.zero_mul, Nat.add_zero] at hprod
    rw [← Bool.not_eq_true, hmsb, hprod]
    generalize x.toNat / 2 * y.toNat = half at *
    refine ⟨by omega, fun h => hdouble (by omega)⟩

theorem toNat_umul_sat (hw : 0 < w) (x y : BitVec w) :
    (umul_sat x y).toNat = min (x.toNat * y.toNat) (2 ^ w - 1) := by
  obtain ⟨hflag, hres⟩ := umul_ov_spec hw x y
  have hones : (BitVec.allOnes w).toNat = 2 ^ w - 1 := BitVec.toNat_allOnes
  have hlt := (umul_ov x y).1.isLt
  unfold umul_sat saturate
  split_ifs with h
  · have hres := hres h
    omega
  · rw [Bool.not_eq_false, hflag] at h
    omega

/-- A multiple of `N` that is smaller than `N` is zero. -/
theorem eq_zero_of_mul_small {N : Nat} {k : Int} (h₁ : -(N : Int) < N * k) (h₂ : N * k < N) : k = 0 := by
  by_contra hne
  rcases Int.lt_or_gt_of_ne hne with hneg | hpos
  · have hle : (N : Int) * k ≤ N * (-1) := Int.mul_le_mul_of_nonneg_left (by omega) (by omega)
    omega
  · have hle : (N : Int) * 1 ≤ N * k := Int.mul_le_mul_of_nonneg_left (by omega) (by omega)
    omega

theorem toInt_mul_wraps (x y : BitVec w) :
    ∃ k : Int, x.toInt * y.toInt = (x * y).toInt + (2 ^ w : Nat) * k :=
  ⟨_, by rw [BitVec.toInt_mul]; exact (Int.bmod_add_bdiv _ _).symm⟩

theorem toInt_mul_exact (hw : 0 < w)
    (h : -(2 ^ (w - 1) : Nat) ≤ x.toInt * y.toInt ∧ x.toInt * y.toInt < (2 ^ (w - 1) : Nat)) :
    (x * y).toInt = x.toInt * y.toInt := by
  have h2 := two_pow_eq hw
  have hr := toInt_cases hw (x * y)
  have hrlt := (x * y).isLt
  obtain ⟨k, hk⟩ := toInt_mul_wraps x y
  have hk0 : k = 0 := eq_zero_of_mul_small (N := 2 ^ w) (by omega) (by omega)
  rw [hk, hk0, Int.mul_zero, Int.add_zero]

theorem smul_ov_snd (hy : y ≠ 0) :
    (smul_ov x y).2 = false ↔
      (x * y).sdiv y = x ∧ ¬(x = BitVec.intMin w ∧ y = BitVec.allOnes w) := by
  unfold smul_ov
  dsimp only
  rw [if_pos hy, Bool.or_eq_false_iff, bne_eq_false_iff_eq, ← Bool.not_eq_true, Bool.and_eq_true,
    beq_iff_eq, beq_iff_eq]

/-- A quotient that is the operand shows that the product did not wrap. -/
theorem sdiv_back_iff (hw : 0 < w) (hy : y ≠ 0) :
    (x * y).sdiv y = x ∧ ¬(x = BitVec.intMin w ∧ y = BitVec.allOnes w) ↔
      -(2 ^ (w - 1) : Nat) ≤ x.toInt * y.toInt ∧ x.toInt * y.toInt < (2 ^ (w - 1) : Nat) := by
  have h2 := two_pow_eq hw
  have hmin := toNat_intMin hw
  have hmini := toInt_cases hw (BitVec.intMin w)
  have hpos : 0 < 2 ^ (w - 1) := Nat.two_pow_pos _
  have honesi : (BitVec.allOnes w).toInt = -1 := by rw [BitVec.toInt_allOnes, if_pos hw]
  have hyi : y.toInt ≠ 0 := by
    intro h
    refine hy (toInt_eq_iff.mpr ?_)
    rw [h, BitVec.ofNat_eq_ofNat, BitVec.toInt_zero]
  constructor
  · rintro ⟨hdiv, hcorner⟩
    have hne : x * y ≠ BitVec.intMin w ∨ y ≠ -1#w := by
      by_contra hboth
      rw [not_or, not_not, not_not, BitVec.neg_one_eq_allOnes] at hboth
      have hneg := toNat_neg_cases x
      have hmul : x * y = -x := by
        rw [hboth.2, ← BitVec.neg_one_eq_allOnes, BitVec.mul_neg, BitVec.mul_one]
      rw [← hmul, hboth.1] at hneg
      exact hcorner ⟨eq_iff.mpr (by omega), hboth.2⟩
    have hquot := BitVec.toInt_sdiv_of_ne_or_ne (x * y) y hne
    have hrem := Int.mul_tdiv_add_tmod (x * y).toInt y.toInt
    rw [hdiv] at hquot
    rw [← hquot, Int.mul_comm] at hrem
    -- the remainder is smaller than the divisor, and a multiple of all words is not
    have hsmall : ((x * y).toInt.tmod y.toInt).natAbs < y.toInt.natAbs := by
      rw [Int.natAbs_tmod]
      exact Nat.mod_lt _ (Int.natAbs_pos.mpr hyi)
    have hyi' := toInt_cases hw y
    have hylt := y.isLt
    obtain ⟨k, hk⟩ := toInt_mul_wraps x y
    have hk0 : k = 0 := eq_zero_of_mul_small (N := 2 ^ w) (by omega) (by omega)
    rw [hk0, Int.mul_zero, Int.add_zero] at hk
    have hr := toInt_cases hw (x * y)
    have hrlt := (x * y).isLt
    rw [hk]
    omega
  · intro hrange
    have hr := toInt_mul_exact hw hrange
    have hcorner : ¬(x = BitVec.intMin w ∧ y = BitVec.allOnes w) := by
      rintro ⟨rfl, rfl⟩
      rw [honesi] at hrange
      omega
    have hne : x * y ≠ BitVec.intMin w ∨ y ≠ -1#w := by
      by_contra hboth
      rw [not_or, not_not, not_not, BitVec.neg_one_eq_allOnes] at hboth
      have hx := toInt_cases hw x
      have hxlt := x.isLt
      rw [hboth.1, hboth.2, honesi] at hr
      omega
    refine ⟨?_, hcorner⟩
    rw [toInt_eq_iff, BitVec.toInt_sdiv_of_ne_or_ne _ _ hne, hr, Int.mul_tdiv_cancel _ hyi]

/-- The flag of a signed product, and the product where it is not set. -/
theorem smul_ov_spec (hw : 0 < w) (x y : BitVec w) :
    ((smul_ov x y).2 = false ↔
      -(2 ^ (w - 1) : Nat) ≤ x.toInt * y.toInt ∧ x.toInt * y.toInt < (2 ^ (w - 1) : Nat)) ∧
      ((smul_ov x y).2 = false → (smul_ov x y).1.toInt = x.toInt * y.toInt) := by
  have hpos : 0 < 2 ^ (w - 1) := Nat.two_pow_pos _
  have hflag : (smul_ov x y).2 = false ↔
      -(2 ^ (w - 1) : Nat) ≤ x.toInt * y.toInt ∧ x.toInt * y.toInt < (2 ^ (w - 1) : Nat) := by
    by_cases hy : y = 0
    · have hzero : x.toInt * y.toInt = 0 := by
        rw [hy, BitVec.ofNat_eq_ofNat, BitVec.toInt_zero, Int.mul_zero]
      have hnone : (smul_ov x y).2 = false := if_neg (not_not.mpr hy)
      exact iff_of_true hnone (by omega)
    · rw [smul_ov_snd hy, sdiv_back_iff hw hy]
  exact ⟨hflag, fun h => toInt_mul_exact hw (hflag.mp h)⟩

theorem toInt_smul_sat (hw : 0 < w) (x y : BitVec w) :
    (smul_sat x y).toInt = clamp w (x.toInt * y.toInt) := by
  obtain ⟨hflag, hres⟩ := smul_ov_spec hw x y
  have hpos : 0 < 2 ^ (w - 1) := Nat.two_pow_pos _
  unfold smul_sat saturate clamp
  simp only [msb_eq]
  split_ifs with h
  · have hrange := hflag.mp h
    rw [hres h]
    omega
  · have hrange := mt hflag.mpr h
    simp only [toInt_signedBound hw, bne_iff_ne, Ne, decide_eq_decide]
    by_cases hx : x.toInt < 0 <;> by_cases hy : y.toInt < 0
    · have hprod := Int.mul_nonneg_of_nonpos_of_nonpos (Int.le_of_lt hx) (Int.le_of_lt hy)
      rw [if_neg (by tauto)]
      omega
    · have hprod := Int.mul_nonpos_of_nonpos_of_nonneg (Int.le_of_lt hx) (Int.not_lt.mp hy)
      rw [if_pos (by tauto)]
      omega
    · have hprod := Int.mul_nonpos_of_nonneg_of_nonpos (Int.not_lt.mp hx) (Int.le_of_lt hy)
      rw [if_pos (by tauto)]
      omega
    · have hprod := Int.mul_nonneg (Int.not_lt.mp hx) (Int.not_lt.mp hy)
      rw [if_neg (by tauto)]
      omega

/-! ## Shifts -/

theorem toNat_ushl_sat (x RHS : BitVec w) :
    (ushl_sat x RHS).toNat =
      if w ≤ RHS.toNat then 2 ^ w - 1 else min (x.toNat * 2 ^ RHS.toNat) (2 ^ w - 1) := by
  have hones : (BitVec.allOnes w).toNat = 2 ^ w - 1 := BitVec.toNat_allOnes
  have hlimit : w ≤ getLimitedValue RHS w ↔ w ≤ RHS.toNat := by
    unfold getLimitedValue
    omega
  unfold ushl_sat ushl_ov saturate
  by_cases hlarge : w ≤ RHS.toNat
  · rw [if_pos (hlimit.mpr hlarge), if_pos hlarge]
    exact hones
  · have hvalue : getLimitedValue RHS w = RHS.toNat := by
      unfold getLimitedValue
      omega
    rw [if_neg (mt hlimit.mp hlarge), if_neg hlarge, hvalue]
    dsimp only
    have hmul : ∀ {n k : Nat}, n ≤ k → 2 ^ (k - n) * 2 ^ n = 2 ^ k := fun h => by
      rw [← Nat.pow_add, Nat.sub_add_cancel h]
    -- the bits that are shifted out are zeros
    have hfits : RHS.toNat ≤ countl_zero x ↔ x.toNat * 2 ^ RHS.toNat < 2 ^ w := by
      rw [le_countl_zero (by omega), ← hmul (show RHS.toNat ≤ w by omega)]
      exact (Nat.mul_lt_mul_right (Nat.two_pow_pos _)).symm
    split_ifs with h
    · rw [decide_eq_false_iff_not, Nat.not_lt, hfits] at h
      rw [BitVec.toNat_shiftLeft, Nat.shiftLeft_eq, Nat.mod_eq_of_lt h]
      omega
    · rw [Bool.not_eq_false, decide_eq_true_eq, ← Nat.not_le, hfits] at h
      omega

theorem pow_mul_pow {n k : Nat} (h : n ≤ k) : 2 ^ (k - n) * 2 ^ n = 2 ^ k := by
  rw [← Nat.pow_add, Nat.sub_add_cancel h]

/-- The flag of a signed shift, and the product where it is not set. -/
theorem sshl_ov_spec (hw : 0 < w) (x : BitVec w) {s : Nat} (hs : s < w) :
    ((sshl_ov x s).2 = false ↔
      -(2 ^ (w - 1) : Nat) ≤ x.toInt * (2 ^ s : Nat) ∧ x.toInt * (2 ^ s : Nat) < (2 ^ (w - 1) : Nat)) ∧
      ((sshl_ov x s).2 = false → (sshl_ov x s).1.toInt = x.toInt * (2 ^ s : Nat)) := by
  have h2 := two_pow_eq hw
  have hx := toInt_cases hw x
  have hxlt := x.isLt
  have hspos : 0 < 2 ^ s := Nat.two_pow_pos s
  have hr := toInt_cases hw (x <<< s)
  have hshift : (x <<< s).toNat = x.toNat * 2 ^ s % 2 ^ w := by
    rw [BitVec.toNat_shiftLeft, Nat.shiftLeft_eq]
  unfold sshl_ov
  rw [if_neg (Nat.not_le.mpr hs)]
  dsimp only
  cases hmsb : x.msb with
  | false =>
    rw [if_pos rfl]
    rw [msb_eq_false_iff] at hmsb
    have hxi : x.toInt = x.toNat := by omega
    have hfits : s + 1 ≤ countl_zero x ↔ x.toNat * 2 ^ s < 2 ^ (w - 1) := by
      rw [le_countl_zero (by omega), ← pow_mul_pow (show s ≤ w - 1 by omega),
        show w - (s + 1) = w - 1 - s by omega]
      exact (Nat.mul_lt_mul_right hspos).symm
    have hcast : x.toInt * (2 ^ s : Nat) = ((x.toNat * 2 ^ s : Nat) : Int) := by
      rw [hxi, Int.natCast_mul]
    rw [hcast, decide_eq_false_iff_not, Nat.not_le, Nat.lt_iff_add_one_le, hfits]
    refine ⟨by omega, fun h => ?_⟩
    rw [Nat.mod_eq_of_lt (by omega)] at hshift
    omega
  | true =>
    rw [if_neg Bool.true_eq_false_eq_False]
    rw [msb_eq_true_iff] at hmsb
    obtain ⟨m, hm⟩ : ∃ m, x.toNat + m + 1 = 2 ^ w := ⟨2 ^ w - x.toNat - 1, by omega⟩
    have hnot : (~~~x).toNat = m := by
      rw [BitVec.toNat_not]
      omega
    have hxi : x.toInt = -((m + 1 : Nat) : Int) := by omega
    have hfits : s + 1 ≤ countl_one x ↔ (m + 1) * 2 ^ s ≤ 2 ^ (w - 1) := by
      rw [countl_one, le_countl_zero (by omega), hnot, ← pow_mul_pow (show s ≤ w - 1 by omega),
        show w - (s + 1) = w - 1 - s by omega, Nat.lt_iff_add_one_le]
      exact (Nat.mul_le_mul_right_iff hspos).symm
    have hcast : x.toInt * (2 ^ s : Nat) = -(((m + 1) * 2 ^ s : Nat) : Int) := by
      rw [hxi, Int.neg_mul, Int.natCast_mul]
    rw [hcast, decide_eq_false_iff_not, Nat.not_le, Nat.lt_iff_add_one_le, hfits]
    have hmpos : 0 < (m + 1) * 2 ^ s := Nat.mul_pos (by omega) hspos
    refine ⟨by omega, fun h => ?_⟩
    have hsplit : x.toNat * 2 ^ s = (2 ^ w - (m + 1) * 2 ^ s) + 2 ^ w * (2 ^ s - 1) := by
      obtain ⟨P, hP⟩ : ∃ P, 2 ^ s = P + 1 := ⟨2 ^ s - 1, by omega⟩
      have htotal : x.toNat * 2 ^ s + (m + 1) * 2 ^ s = 2 ^ w * 2 ^ s := by
        rw [← Nat.add_mul, ← hm]
        ring
      rw [hP, Nat.add_sub_cancel]
      rw [hP, Nat.mul_add (2 ^ w), Nat.mul_one] at htotal
      rw [hP] at h
      omega
    rw [hsplit, Nat.add_mul_mod_self_left, Nat.mod_eq_of_lt (by omega)] at hshift
    omega

theorem toInt_sshl_sat (hw : 0 < w) (x RHS : BitVec w) :
    (sshl_sat x RHS).toInt =
      if w ≤ RHS.toNat then (signedBound w x.msb).toInt
      else clamp w (x.toInt * (2 ^ RHS.toNat : Nat)) := by
  have hpos : 0 < 2 ^ (w - 1) := Nat.two_pow_pos _
  unfold sshl_sat saturate
  by_cases hlarge : w ≤ RHS.toNat
  · have hvalue : getLimitedValue RHS w = w := by
      unfold getLimitedValue
      omega
    rw [if_pos hlarge, hvalue, sshl_ov, if_pos (Nat.le_refl w)]
    rfl
  · have hvalue : getLimitedValue RHS w = RHS.toNat := by
      unfold getLimitedValue
      omega
    obtain ⟨hflag, hres⟩ := sshl_ov_spec hw x (Nat.not_le.mp hlarge)
    have hspos : 0 < 2 ^ RHS.toNat := Nat.two_pow_pos _
    rw [if_neg hlarge, hvalue]
    unfold clamp
    simp only [msb_eq]
    split_ifs with h
    · have hrange := hflag.mp h
      rw [hres h]
      omega
    · have hrange := mt hflag.mpr h
      simp only [toInt_signedBound hw, decide_eq_true_eq]
      by_cases hx : x.toInt < 0
      · have hprod := Int.mul_nonpos_of_nonpos_of_nonneg (Int.le_of_lt hx)
          (Int.natCast_nonneg (2 ^ RHS.toNat))
        rw [if_pos hx]
        omega
      · have hprod := Int.mul_nonneg (Int.not_lt.mp hx) (Int.natCast_nonneg (2 ^ RHS.toNat))
        rw [if_neg hx]
        omega

end RvLlvm.APInt.Saturating
