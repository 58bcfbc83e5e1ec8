import Mathlib.Algebra.Order.Ring.Int
import Mathlib.Data.Int.Notation
import Mathlib.Tactic.Common

/-!
# Signed words

Words that hold a shorter signed number. Nothing here names a program.

* `isInt n x`: the signed number in `x` has `n` bits; `signExtend64 n x`: the one in its low `n`
  bits.
* `signExtend64_eq_self_iff`, `isInt_iff_bits`: the upper bits then all equal bit `n - 1`.
-/

namespace RvLlvm.Support

/-- The signed number in `x` fits `n` bits. -/
def isInt (n : Nat) (x : BitVec 64) : Prop := -2 ^ (n - 1) ≤ x.toInt ∧ x.toInt < 2 ^ (n - 1)

instance (n : Nat) (x : BitVec 64) : Decidable (isInt n x) := inferInstanceAs (Decidable (_ ∧ _))

/-- The signed number in the low `n` bits. -/
def signExtend64 (n : Nat) (x : BitVec 64) : BitVec 64 := (x.setWidth n).signExtend 64

variable {n : Nat} {x : BitVec 64}

theorem toInt_signExtend64 (hn : n ≤ 64) (x : BitVec 64) :
    (signExtend64 n x).toInt = x.toInt.bmod (2 ^ n) := by
  rw [signExtend64, BitVec.toInt_signExtend_of_le hn, BitVec.toInt_setWidth,
    BitVec.toInt_eq_toNat_bmod, Int.bmod_bmod_of_dvd (Nat.pow_dvd_pow 2 hn)]

theorem isInt_signExtend64 (hn : n ≤ 64) (hpos : 0 < n) (x : BitVec 64) :
    isInt n (signExtend64 n x) := by
  rw [isInt, signExtend64, BitVec.toInt_signExtend_of_le hn]
  exact ⟨BitVec.le_toInt _, BitVec.toInt_lt⟩

theorem signExtend64_eq_self_iff (hn : n ≤ 64) (hpos : 0 < n) :
    signExtend64 n x = x ↔ isInt n x := by
  constructor
  · intro h
    rw [← h]
    exact isInt_signExtend64 hn hpos x
  · intro h
    apply BitVec.eq_of_toInt_eq
    obtain ⟨k, rfl⟩ : ∃ k, n = k + 1 := ⟨n - 1, by omega⟩
    have hhalf : (2 : Int) ^ (k + 1) / 2 = 2 ^ k := by omega
    obtain ⟨hlo, hhi⟩ : -2 ^ k ≤ x.toInt ∧ x.toInt < 2 ^ k := h
    rw [toInt_signExtend64 hn]
    apply Int.bmod_eq_of_le <;> push_cast <;> omega

theorem setWidth_signExtend {m : Nat} (hn : n ≤ m) (y : BitVec n) :
    (y.signExtend m).setWidth n = y := by
  refine BitVec.eq_of_getLsbD_eq fun i hi => ?_
  rw [BitVec.getLsbD_setWidth, BitVec.getLsbD_signExtend, decide_eq_true hi,
    decide_eq_true (Nat.lt_of_lt_of_le hi hn), if_pos hi, Bool.true_and, Bool.true_and]

theorem setWidth_signExtend64 (hn : n ≤ 64) (x : BitVec 64) :
    (signExtend64 n x).setWidth n = x.setWidth n := setWidth_signExtend hn _

theorem getLsbD_signExtend64 (hpos : 0 < n) (x : BitVec 64) (i : Nat) :
    (signExtend64 n x).getLsbD i =
      (decide (i < 64) && if i < n then x.getLsbD i else x.getLsbD (n - 1)) := by
  have hlast : decide (n - 1 < n) = true := decide_eq_true (Nat.sub_lt hpos Nat.one_pos)
  rw [signExtend64, BitVec.getLsbD_signExtend, BitVec.msb_eq_getLsbD_last]
  simp only [BitVec.getLsbD_setWidth, hlast, Bool.true_and]
  split
  · rename_i h
    rw [decide_eq_true h, Bool.true_and]
  · rfl

theorem isInt_iff_bits (hn : n ≤ 64) (hpos : 0 < n) :
    isInt n x ↔ ∀ i, n ≤ i → i < 64 → x.getLsbD i = x.getLsbD (n - 1) := by
  rw [← signExtend64_eq_self_iff hn hpos]
  constructor
  · intro h i hi hlt
    have hbit := congrArg (fun y => y.getLsbD i) h
    simp only [getLsbD_signExtend64 hpos, hlt, decide_true, Bool.true_and,
      if_neg (Nat.not_lt.mpr hi)] at hbit
    exact hbit.symm
  · intro h
    refine BitVec.eq_of_getLsbD_eq fun i hi => ?_
    rw [getLsbD_signExtend64 hpos, decide_eq_true hi, Bool.true_and]
    split
    · rfl
    · rename_i hge
      exact (h i (Nat.not_lt.mp hge) hi).symm

end RvLlvm.Support
