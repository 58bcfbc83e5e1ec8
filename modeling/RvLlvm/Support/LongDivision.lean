import Mathlib.Data.Nat.Digits.Defs
import Mathlib.Tactic.Linarith
import Mathlib.Tactic.Ring

/-!
# Long division

The digit that the leading digits of a long division suggest, and what is left of the dividend.
Nothing here names a program.

* `lt_mul_of_test`, `mul_lt_add_of_test`: a suggested digit that the test on one more digit calls
  too large is too large; one that it does not is at most one too large.
* `div_le_trial`, `trial_le_add_two`: the first suggestion is not too small and at most two too
  large.
-/

namespace RvLlvm.Support

variable {b : Nat}

/-! ## The trial digit -/

section

/- The dividend has the leading part `d` and the digit `u3`, the divisor the digits `v1` and `v2`;
`B` is the weight of `u3` and `v2`. -/
variable {u v d u3 ur v1 v2 vr B qp rp : Nat}

/-- The test compares two leading parts. -/
theorem test_iff (hd : qp * v1 + rp = d) :
    b * rp + u3 < qp * v2 ↔ d * b + u3 < qp * (v1 * b + v2) := by
  have hleft : d * b + u3 = qp * (v1 * b) + (b * rp + u3) := by
    rw [← hd]
    ring
  have hright : qp * (v1 * b + v2) = qp * (v1 * b) + qp * v2 := Nat.mul_add _ _ _
  rw [hleft, hright]
  exact (Nat.add_lt_add_iff_left).symm

theorem lt_mul_of_test (hu : u = (d * b + u3) * B + ur) (hur : ur < B)
    (hv : v = (v1 * b + v2) * B + vr) (h : d * b + u3 < qp * (v1 * b + v2)) : u < qp * v :=
  calc u < (d * b + u3 + 1) * B := by rw [hu, Nat.add_mul _ 1 B, Nat.one_mul]; omega
    _ ≤ qp * (v1 * b + v2) * B := Nat.mul_le_mul_right B h
    _ ≤ qp * ((v1 * b + v2) * B + vr) := by
      rw [Nat.mul_assoc]
      exact Nat.mul_le_mul_left qp (Nat.le_add_right _ _)
    _ = qp * v := by rw [hv]

theorem mul_lt_add_of_test (hu : u = (d * b + u3) * B + ur) (hv : v = (v1 * b + v2) * B + vr)
    (hvr : vr < B) (hpos : 0 < v1 * b) (hq : qp ≤ v1 * b) (h : qp * (v1 * b + v2) ≤ d * b + u3) :
    qp * v < u + v := by
  have hlead : qp * (v1 * b + v2) * B ≤ (d * b + u3) * B := Nat.mul_le_mul_right B h
  have hlow : qp * vr < v1 * b * B :=
    (Nat.mul_le_mul_right vr hq).trans_lt (Nat.mul_lt_mul_of_pos_left hvr hpos)
  have hb : v1 * b * B ≤ (v1 * b + v2) * B := Nat.mul_le_mul_right B (Nat.le_add_right _ _)
  calc qp * v = qp * (v1 * b + v2) * B + qp * vr := by rw [hv, Nat.mul_add, Nat.mul_assoc]
    _ < (d * b + u3) * B + v1 * b * B := by omega
    _ ≤ u + v := by rw [hu, hv]; omega

/-- The leading part suggests no digit below the right one. -/
theorem div_le_trial (hu : u = (d * b + u3) * B + ur) (hur : ur < B) (hu3 : u3 < b)
    (hv : v = (v1 * b + v2) * B + vr) (hv1 : 0 < v1) : u / v ≤ d / v1 := by
  rw [Nat.le_div_iff_mul_le hv1]
  have hcancel : u / v * v1 * (b * B) < (d + 1) * (b * B) :=
    calc u / v * v1 * (b * B) = u / v * (v1 * b * B) := by ring
      _ ≤ u / v * v := Nat.mul_le_mul_left _ (by rw [hv, Nat.add_mul]; omega)
      _ ≤ u := Nat.div_mul_le_self u v
      _ < (d * b + u3 + 1) * B := by rw [hu, Nat.add_mul _ 1 B, Nat.one_mul]; omega
      _ ≤ (d + 1) * b * B := Nat.mul_le_mul_right B (by rw [Nat.add_mul]; omega)
      _ = (d + 1) * (b * B) := Nat.mul_assoc _ _ _
  exact Nat.le_of_lt_succ (Nat.lt_of_mul_lt_mul_right hcancel)

/-- The leading part of a dividend whose quotient is a digit. -/
theorem lead_lt (hu : u = (d * b + u3) * B + ur) (hv : v = (v1 * b + v2) * B + vr) (hvr : vr < B)
    (hv2 : v2 < b) (hlt : u < b * v) : d < (v1 + 1) * b := by
  have hvle : v ≤ (v1 + 1) * b * B := by
    have hlead : (v1 * b + v2 + 1) * B ≤ (v1 + 1) * b * B :=
      Nat.mul_le_mul_right B (by rw [Nat.add_mul v1 1 b]; omega)
    rw [Nat.add_mul _ 1 B] at hlead
    omega
  have hcancel : d * (b * B) < (v1 + 1) * b * (b * B) :=
    calc d * (b * B) ≤ u := by rw [hu, Nat.add_mul, Nat.mul_assoc]; omega
      _ < b * v := hlt
      _ ≤ b * ((v1 + 1) * b * B) := Nat.mul_le_mul_left b hvle
      _ = (v1 + 1) * b * (b * B) := by ring
  exact Nat.lt_of_mul_lt_mul_right hcancel

/-- Under normalisation the first suggestion is at most two too large. -/
theorem trial_le_add_two (hu : u = (d * b + u3) * B + ur) (hv : v = (v1 * b + v2) * B + vr)
    (hvr : vr < B) (hv2 : v2 < b) (hnorm : b ≤ 2 * v1) (hlt : u < b * v) (hq : qp * v1 ≤ d) :
    qp ≤ u / v + 2 := by
  have hvpos : 0 < v := Nat.pos_of_ne_zero fun h => by rw [h, Nat.mul_zero] at hlt; omega
  have hdigit : u / v < b := Nat.div_lt_of_lt_mul (by rwa [Nat.mul_comm])
  by_contra hcon
  have hB : 0 < B := by omega
  have hbpos : 0 < b := by omega
  have hvle : v ≤ (v1 + 1) * b * B := by
    have hlead : (v1 * b + v2 + 1) * B ≤ (v1 + 1) * b * B :=
      Nat.mul_le_mul_right B (by rw [Nat.add_mul v1 1 b]; omega)
    rw [Nat.add_mul _ 1 B] at hlead
    omega
  have hnext : u < (u / v + 1) * v := by
    rw [Nat.mul_comm]
    exact Nat.lt_mul_div_succ u hvpos
  have hcancel : qp * v1 * (b * B) < (u / v + 1) * (v1 + 1) * (b * B) :=
    calc qp * v1 * (b * B) ≤ d * (b * B) := Nat.mul_le_mul_right _ hq
      _ ≤ u := by rw [hu, Nat.add_mul, Nat.mul_assoc]; omega
      _ < (u / v + 1) * v := hnext
      _ ≤ (u / v + 1) * ((v1 + 1) * b * B) := Nat.mul_le_mul_left _ hvle
      _ = (u / v + 1) * (v1 + 1) * (b * B) := by ring
  have hsmall : qp * v1 < (u / v + 1) * (v1 + 1) := Nat.lt_of_mul_lt_mul_right hcancel
  have hthree : (u / v + 3) * v1 ≤ qp * v1 := Nat.mul_le_mul_right v1 (by omega)
  have h1 : (u / v + 3) * v1 = (u / v + 1) * v1 + 2 * v1 := by ring
  have h2 : (u / v + 1) * (v1 + 1) = (u / v + 1) * v1 + (u / v + 1) := by ring
  omega

end

/-! ## Digits -/

end RvLlvm.Support
