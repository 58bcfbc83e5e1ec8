import RvLlvm.Support.WordOrder

/-!
# Rounding divisions of words

Model of `APIntOps::RoundingUDiv` and `APIntOps::RoundingSDiv`
(`llvm/lib/Support/APInt.cpp:2740-2786`).

* `le_roundingSDiv_down`, `roundingSDiv_up_le` and their fellows for a negative divisor: the
  quotient rounded down or up, as a bound on the numbers whose product with the divisor does not
  pass the dividend.
-/

namespace RvLlvm.IR

open Support.WordOrder

variable {w : Nat}

inductive Rounding where
  | DOWN | UP
deriving DecidableEq

/-- `APIntOps::RoundingUDiv`. -/
def roundingUDiv (A B : BitVec w) : Rounding → BitVec w
  | .DOWN => A / B
  | .UP => if A % B = 0 then A / B else A / B + 1

/-- `APIntOps::RoundingSDiv`. -/
def roundingSDiv (A B : BitVec w) (rounding : Rounding) : BitVec w :=
  let Quo := A.sdiv B
  let Rem := A.srem B
  if Rem = 0 then Quo
  else match rounding with
    | .DOWN => if Rem.msb != B.msb then Quo - 1 else Quo
    | .UP => if Rem.msb != B.msb then Quo else Quo + 1

variable {a v : BitVec w}

/-- A quotient that is not exact is far from the ends of the signed numbers. -/
theorem quotient_small (hw : 0 < w) (hv0 : v.toInt ≠ 0) (hv1 : v.toInt ≠ -1)
    (hr : a.toInt.tmod v.toInt ≠ 0) :
    -2 ^ (w - 1) < a.toInt.tdiv v.toInt ∧ a.toInt.tdiv v.toInt < 2 ^ (w - 1) - 1 := by
  have ha := BitVec.le_toInt a
  have ha' := BitVec.toInt_lt (x := a)
  have hv := BitVec.le_toInt v
  have hv' := BitVec.toInt_lt (x := v)
  have hone : v.toInt ≠ 1 := fun h => hr (by rw [h, Int.tmod_one])
  have hd : 2 ≤ v.toInt.natAbs := by omega
  have hdiv : (a.toInt.tdiv v.toInt).natAbs = a.toInt.natAbs / v.toInt.natAbs := Int.natAbs_tdiv _ _
  have hmod : (a.toInt.tmod v.toInt).natAbs = a.toInt.natAbs % v.toInt.natAbs := Int.natAbs_tmod _ _
  have hsum := Nat.div_add_mod a.toInt.natAbs v.toInt.natAbs
  have hmul := Nat.mul_le_mul_right (a.toInt.natAbs / v.toInt.natAbs) hd
  rw [two_pow_cast] at *
  omega

/-- `roundingSDiv` as a number. -/
theorem toInt_roundingSDiv (hw : 0 < w) (hv0 : v.toInt ≠ 0) (hv1 : v.toInt ≠ -1)
    (rounding : Rounding) :
    (roundingSDiv a v rounding).toInt =
      a.toInt.tdiv v.toInt +
        if a.toInt.tmod v.toInt = 0 then 0
        else match rounding with
          | .DOWN => if a.toInt.tmod v.toInt < 0 ↔ v.toInt < 0 then 0 else -1
          | .UP => if a.toInt.tmod v.toInt < 0 ↔ v.toInt < 0 then 1 else 0 := by
  have hquo : (a.sdiv v).toInt = a.toInt.tdiv v.toInt := by
    refine BitVec.toInt_sdiv_of_ne_or_ne a v (.inr fun h => hv1 ?_)
    rw [h, BitVec.neg_one_eq_allOnes, BitVec.toInt_allOnes, if_pos hw]
  have hrem : (a.srem v).toInt = a.toInt.tmod v.toInt := BitVec.toInt_srem a v
  have hzero : a.srem v = 0 ↔ a.toInt.tmod v.toInt = 0 := by
    rw [toInt_eq_iff, hrem]
    exact Iff.of_eq (congrArg _ BitVec.toInt_zero)
  have hsign : ((a.srem v).msb != v.msb) = true ↔ ¬(a.toInt.tmod v.toInt < 0 ↔ v.toInt < 0) := by
    rw [bne_iff_ne, Ne, Bool.eq_iff_iff, msb_iff hw, msb_iff hw, hrem]
  unfold roundingSDiv
  dsimp only
  by_cases hr : a.toInt.tmod v.toInt = 0
  · rw [if_pos (hzero.mpr hr), if_pos hr, hquo, Int.add_zero]
  rw [if_neg (mt hzero.mp hr), if_neg hr]
  obtain ⟨hlow, hup⟩ := quotient_small hw hv0 hv1 hr
  rw [← hquo] at hlow hup
  cases rounding with
  | DOWN =>
    dsimp only
    split_ifs with hc hs hs
    · exact absurd hs (hsign.mp hc)
    · rw [toInt_sub_one hw hlow, hquo]
      rfl
    · rw [hquo, Int.add_zero]
    · exact absurd (hsign.mpr hs) hc
  | UP =>
    dsimp only
    split_ifs with hc hs hs
    · exact absurd hs (hsign.mp hc)
    · rw [hquo, Int.add_zero]
    · rw [toInt_add_one hw, hquo]
      rintro hmax
      rw [hmax, BitVec.toInt_intMax] at hup
      exact Int.lt_irrefl _ hup
    · exact absurd (hsign.mpr hs) hc

/-- The remainder is on the side of the dividend. -/
theorem tmod_bounds (a : Int) {v : Int} (hv : v ≠ 0) :
    v * a.tdiv v + a.tmod v = a ∧ (0 < v → -v < a.tmod v ∧ a.tmod v < v) ∧
      (v < 0 → v < a.tmod v ∧ a.tmod v < -v) := by
  refine ⟨Int.mul_tdiv_add_tmod a v, fun h => ⟨Int.lt_tmod_of_pos a h, Int.tmod_lt_of_pos a h⟩,
    fun h => ?_⟩
  have hneg := Int.tmod_neg a v
  have hlow := Int.lt_tmod_of_pos a (show 0 < -v by omega)
  have hup := Int.tmod_lt_of_pos a (show 0 < -v by omega)
  omega

theorem le_floor_iff {n q v a : Int} (hv : 0 < v) (hlow : q * v ≤ a) (hup : a < (q + 1) * v) :
    n ≤ q ↔ n * v ≤ a := by
  constructor
  · intro h
    exact Int.le_trans (Int.mul_le_mul_of_nonneg_right h (Int.le_of_lt hv)) hlow
  · intro h
    have hlt := Int.lt_of_mul_lt_mul_right (Int.lt_of_le_of_lt h hup) (Int.le_of_lt hv)
    omega

theorem ceil_le_iff {n q v a : Int} (hv : 0 < v) (hlow : (q - 1) * v < a) (hup : a ≤ q * v) :
    q ≤ n ↔ a ≤ n * v := by
  constructor
  · intro h
    exact Int.le_trans hup (Int.mul_le_mul_of_nonneg_right h (Int.le_of_lt hv))
  · intro h
    have hlt := Int.lt_of_mul_lt_mul_right (Int.lt_of_lt_of_le hlow h) (Int.le_of_lt hv)
    omega

theorem le_roundingSDiv_down (hw : 0 < w) (hv : 0 < v.toInt) (n : Int) :
    n ≤ (roundingSDiv a v .DOWN).toInt ↔ n * v.toInt ≤ a.toInt := by
  obtain ⟨hsum, hpos, -⟩ := tmod_bounds a.toInt (v := v.toInt) (by omega)
  obtain ⟨hlow, hup⟩ := hpos hv
  rw [toInt_roundingSDiv hw (by omega) (by omega)]
  generalize v.toInt = v at *
  generalize a.toInt = a at *
  generalize a.tdiv v = t at *
  generalize a.tmod v = r at *
  rw [Int.mul_comm] at hsum
  apply le_floor_iff hv
  all_goals
    simp only [Int.add_mul, Int.one_mul]
    split_ifs <;> omega

theorem le_roundingSDiv_down_neg (hw : 0 < w) (hv : v.toInt < -1) (n : Int) :
    n ≤ (roundingSDiv a v .DOWN).toInt ↔ a.toInt ≤ n * v.toInt := by
  obtain ⟨hsum, -, hneg⟩ := tmod_bounds a.toInt (v := v.toInt) (by omega)
  obtain ⟨hlow, hup⟩ := hneg (by omega)
  rw [toInt_roundingSDiv hw (by omega) (by omega)]
  generalize v.toInt = v at *
  generalize a.toInt = a at *
  generalize a.tdiv v = t at *
  generalize a.tmod v = r at *
  rw [Int.mul_comm] at hsum
  rw [le_floor_iff (v := -v) (a := -a) (by omega)]
  · rw [Int.mul_neg]
    omega
  all_goals
    simp only [Int.add_mul, Int.one_mul, Int.mul_neg]
    split_ifs <;> omega

theorem roundingSDiv_up_le (hw : 0 < w) (hv : 0 < v.toInt) (n : Int) :
    (roundingSDiv a v .UP).toInt ≤ n ↔ a.toInt ≤ n * v.toInt := by
  obtain ⟨hsum, hpos, -⟩ := tmod_bounds a.toInt (v := v.toInt) (by omega)
  obtain ⟨hlow, hup⟩ := hpos hv
  rw [toInt_roundingSDiv hw (by omega) (by omega)]
  generalize v.toInt = v at *
  generalize a.toInt = a at *
  generalize a.tdiv v = t at *
  generalize a.tmod v = r at *
  rw [Int.mul_comm] at hsum
  apply ceil_le_iff hv
  all_goals
    simp only [Int.add_mul, Int.sub_mul, Int.one_mul]
    split_ifs <;> omega

theorem roundingSDiv_up_le_neg (hw : 0 < w) (hv : v.toInt < -1) (n : Int) :
    (roundingSDiv a v .UP).toInt ≤ n ↔ n * v.toInt ≤ a.toInt := by
  obtain ⟨hsum, -, hneg⟩ := tmod_bounds a.toInt (v := v.toInt) (by omega)
  obtain ⟨hlow, hup⟩ := hneg (by omega)
  rw [toInt_roundingSDiv hw (by omega) (by omega)]
  generalize v.toInt = v at *
  generalize a.toInt = a at *
  generalize a.tdiv v = t at *
  generalize a.tmod v = r at *
  rw [Int.mul_comm] at hsum
  rw [ceil_le_iff (v := -v) (a := -a) (by omega)]
  · rw [Int.mul_neg]
    omega
  all_goals
    simp only [Int.add_mul, Int.sub_mul, Int.one_mul, Int.mul_neg]
    split_ifs <;> omega
end RvLlvm.IR
