import Mathlib.Data.Nat.Prime.Basic
import Mathlib.Tactic.Linarith
import Mathlib.Tactic.Ring

/-!
# Division by multiplication

The quotient of `n` by `d` from one product with a multiplier `m` and one division by a power of
two `P`, where `m * d = P + e`. Nothing here names a program.

* `mul_div_eq_div`: the quotient rounded down, as long as `n * e` stays below what is missing to
  the next multiple of `d`.
* `le_mul_add`, `mul_lt_mul_succ`: the same product rounded up is the quotient plus one.
* `critical`, `lt_of_critical`: it is enough to look at the last number below a multiple of `d`.
* `double_div`, `double_mod`: quotient and remainder of a number with a bit appended.
-/

namespace RvLlvm.Support.MagicDiv

/-! ## The product -/

section Product

variable {d m e P n : Nat}

theorem quotient_bounds (hd : 0 < d) : n / d * d ≤ n ∧ n + (d - n % d) = (n / d + 1) * d := by
  have hsplit := Nat.div_add_mod n d
  have hlt := Nat.mod_lt n hd
  rw [Nat.mul_comm d] at hsplit
  rw [Nat.add_mul, Nat.one_mul]
  omega

theorem le_mul (hd : 0 < d) (hm : m * d = P + e) : n / d * P ≤ n * m := by
  have hle := (quotient_bounds (n := n) hd).1
  refine Nat.le_of_mul_le_mul_right (c := d) ?_ hd
  calc n / d * P * d = n / d * d * P := by ring
    _ ≤ n * P := Nat.mul_le_mul_right P hle
    _ ≤ n * (P + e) := Nat.mul_le_mul_left n (Nat.le_add_right P e)
    _ = n * m * d := by rw [Nat.mul_assoc, hm]

theorem mul_lt_succ_mul (hd : 0 < d) (hm : m * d = P + e) (h : n * e < P * (d - n % d)) :
    n * m < (n / d + 1) * P := by
  have hnext := (quotient_bounds (n := n) hd).2
  refine Nat.lt_of_mul_lt_mul_right (a := d) ?_
  calc n * m * d = n * P + n * e := by rw [Nat.mul_assoc, hm, Nat.mul_add]
    _ < n * P + P * (d - n % d) := Nat.add_lt_add_left h _
    _ = (n + (d - n % d)) * P := by ring
    _ = (n / d + 1) * P * d := by
      rw [hnext]
      ring

/-- **The quotient as a product**, rounded down. -/
theorem mul_div_eq_div (hd : 0 < d) (hm : m * d = P + e) (h : n * e < P * (d - n % d)) :
    n * m / P = n / d :=
  Nat.div_eq_of_lt_le (le_mul hd hm) (mul_lt_succ_mul hd hm h)

/-- The product does not reach beyond the next multiple. -/
theorem mul_le_succ_mul (hd : 0 < d) (hm : m * d = P + e) (h : n * e ≤ P * (d - n % d)) :
    n * m ≤ (n / d + 1) * P := by
  have hnext := (quotient_bounds (n := n) hd).2
  refine Nat.le_of_mul_le_mul_right (c := d) ?_ hd
  calc n * m * d = n * P + n * e := by rw [Nat.mul_assoc, hm, Nat.mul_add]
    _ ≤ n * P + P * (d - n % d) := Nat.add_le_add_left h _
    _ = (n + (d - n % d)) * P := by ring
    _ = (n / d + 1) * P * d := by
      rw [hnext]
      ring

/-- The product is above the multiple that the quotient stands for. -/
theorem mul_lt (hd : 0 < d) (hm : m * d = P + e) (hn : 0 < n) (he : 0 < e) :
    n / d * P < n * m := by
  have hle := (quotient_bounds (n := n) hd).1
  refine Nat.lt_of_mul_lt_mul_right (a := d) ?_
  calc n / d * P * d = n / d * d * P := by ring
    _ ≤ n * P := Nat.mul_le_mul_right P hle
    _ < n * P + n * e := Nat.lt_add_of_pos_right (Nat.mul_pos hn he)
    _ = n * m * d := by rw [Nat.mul_assoc, hm, Nat.mul_add]

/-- **The last number before a multiple of `d` decides**: `c` is one, and `n` is not beyond the
next. -/
theorem lt_of_critical {c : Nat} (hd : 0 < d) (hc : d ∣ c + 1) (hce : c * e < P)
    (hn : n < c + d) : n * e < P * (d - n % d) := by
  have hr := Nat.mod_lt n hd
  by_cases hle : n ≤ c
  · calc n * e ≤ c * e := Nat.mul_le_mul_right e hle
      _ < P := hce
      _ ≤ P * (d - n % d) := Nat.le_mul_of_pos_right P (by omega)
  · obtain ⟨k, hk⟩ := hc
    have hmod : n % d = n - (c + 1) := by
      have hsplit : n = d * k + (n - (c + 1)) := by omega
      rw [hsplit, Nat.mul_add_mod, Nat.mod_eq_of_lt (by omega)]
      omega
    have hdc : d ≤ c + 1 := Nat.le_of_dvd (Nat.succ_pos c) ⟨k, hk⟩
    calc n * e ≤ (2 * c) * e := Nat.mul_le_mul_right e (by omega)
      _ = 2 * (c * e) := Nat.mul_assoc 2 c e
      _ < P * 2 := by omega
      _ ≤ P * (d - n % d) := Nat.mul_le_mul_left P (by omega)

/-- A multiplier `P + m` of one bit more than `P`, by halving. -/
theorem half_sum (hP : 0 < P) (hm : m < P) :
    (n - n * m / P) / 2 + n * m / P = n * (P + m) / P / 2 := by
  have hle : n * m / P ≤ n := by
    refine Nat.div_le_of_le_mul ?_
    rw [Nat.mul_comm P]
    exact Nat.mul_le_mul_left n hm.le
  rw [Nat.mul_add, Nat.mul_comm n P, Nat.mul_add_div hP]
  omega

/-- The quotient of a negative number, rounded down. -/
theorem neg_ediv {x q : Nat} (hP : 0 < P) (hlo : q * P < x) (hhi : x ≤ (q + 1) * P) :
    -(x : Int) / P = -q - 1 := by
  have hP' : (0 : Int) < P := by exact_mod_cast hP
  have hlo' : (q : Int) * P < x := by exact_mod_cast hlo
  have hhi' : (x : Int) ≤ (q + 1) * P := by exact_mod_cast hhi
  refine le_antisymm ?_ ?_
  · rw [← Int.lt_add_one_iff, Int.ediv_lt_iff_lt_mul hP']
    linarith
  · rw [Int.le_ediv_iff_mul_le hP']
    linarith

end Product

/-- The quotient of a remainder. -/
theorem emod_ediv (z : Int) {a b : Int} (ha : 0 < a) : z % (a * b) / a = z / a % b := by
  have hsplit : z - a * b * (z / (a * b)) = z + a * (-(b * (z / (a * b)))) := by ring
  rw [Int.emod_def, hsplit, Int.add_mul_ediv_left _ _ ha.ne', Int.emod_def,
    Int.ediv_ediv_of_nonneg ha.le]
  ring

/-! ## The critical number -/

/-- The last number up to `n` that lies just before a multiple of `d`. -/
def critical (n d : Nat) : Nat := n - (n + 1) % d

section Critical

variable {n d : Nat}

theorem critical_le : critical n d ≤ n := Nat.sub_le _ _

theorem critical_succ (hd : 0 < d) (hle : d ≤ n + 1) :
    critical n d + 1 = d * ((n + 1) / d) ∧ (n + 1) / d ≠ 0 := by
  have hsplit := Nat.div_add_mod (n + 1) d
  have hlt := Nat.mod_lt (n + 1) hd
  have hpos := Nat.div_pos hle hd
  have hmul := Nat.le_mul_of_pos_right d hpos
  unfold critical
  constructor <;> omega

theorem dvd_critical_succ (hd : 0 < d) (hle : d ≤ n + 1) : d ∣ critical n d + 1 :=
  ⟨_, (critical_succ hd hle).1⟩

theorem critical_mod (hd : 0 < d) (hle : d ≤ n + 1) : critical n d % d = d - 1 := by
  obtain ⟨hsucc, hne⟩ := critical_succ hd hle
  obtain ⟨k, hk⟩ := Nat.exists_eq_succ_of_ne_zero hne
  rw [hk, Nat.succ_eq_add_one, Nat.mul_succ] at hsucc
  have hsplit : critical n d = d * k + (d - 1) := by omega
  rw [hsplit, Nat.mul_add_mod, Nat.mod_eq_of_lt (by omega)]

theorem le_critical_succ (hd : 0 < d) (hle : d ≤ n + 1) : d ≤ critical n d + 1 :=
  Nat.le_of_dvd (Nat.succ_pos _) (dvd_critical_succ hd hle)

theorem lt_critical_add (hd : 0 < d) : n < critical n d + d := by
  have hlt := Nat.mod_lt (n + 1) hd
  have hle := Nat.mod_le (n + 1) d
  unfold critical
  omega

end Critical

/-! ## Doubling -/

section Double

variable (x : Nat) {b c : Nat}

theorem double_split : 2 * x + b = c * (2 * (x / c)) + (2 * (x % c) + b) := by
  have hsplit := Nat.div_add_mod x c
  have hmul : c * (2 * (x / c)) = 2 * (c * (x / c)) := by ring
  omega

theorem double_div (hc : 0 < c) (hb : b ≤ 1) :
    (2 * x + b) / c = 2 * (x / c) + (if c ≤ 2 * (x % c) + b then 1 else 0) := by
  have hlt := Nat.mod_lt x hc
  rw [double_split x, Nat.mul_add_div hc]
  congr 1
  split
  · exact Nat.div_eq_of_lt_le (by omega) (by omega)
  · exact Nat.div_eq_of_lt (by omega)

theorem double_mod (hc : 0 < c) (hb : b ≤ 1) :
    (2 * x + b) % c =
      if c ≤ 2 * (x % c) + b then 2 * (x % c) + b - c else 2 * (x % c) + b := by
  have hlt := Nat.mod_lt x hc
  rw [double_split x, Nat.mul_add_mod]
  split
  · rename_i hle
    rw [Nat.mod_eq_sub_mod hle, Nat.mod_eq_of_lt (by omega)]
  · exact Nat.mod_eq_of_lt (by omega)

end Double

end RvLlvm.Support.MagicDiv
