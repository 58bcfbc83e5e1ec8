import Mathlib.Data.Nat.ModEq
import RvLlvm.APInt.Saturating

/-!
# The flags and the saturated results are exact

What the `_ov` and `_sat` members of `APInt` (`llvm/lib/Support/APInt.cpp:1934-2110`) return, against
the number that the operation means. The models are in `APInt.Saturating`; here each result is the
number modulo `2 ^ w`, each flag says whether the number is in range, and each saturated result is
the number clamped to the range.

* `umul_ov_fst`, `shl_large`: the words that the flags go with.
* `overflow_exact`: all of it, for every width and all operands. A shift by the width or more is
  refused before the operand is looked at, so zero is flagged there as well.
-/

namespace RvLlvm.APInt.Saturating

open Support.WordOrder

variable {w v : Nat} {x y : BitVec w}

/-! ## The overloads that shift by a word -/

/-- `sshl_ov(const APInt &, bool &)`. -/
def sshl_ov_word (x : BitVec w) (ShAmt : BitVec v) : BitVec w × Bool :=
  sshl_ov x (getLimitedValue ShAmt w)

/-- `ushl_ov(const APInt &, bool &)`. -/
def ushl_ov_word (x : BitVec w) (ShAmt : BitVec v) : BitVec w × Bool :=
  ushl_ov x (getLimitedValue ShAmt w)

/-- `sshl_sat(unsigned)`. -/
def sshl_sat_unsigned (x : BitVec w) (RHS : Nat) : BitVec w :=
  saturate (sshl_ov x RHS) (signedBound w x.msb)

/-- `ushl_sat(unsigned)`. -/
def ushl_sat_unsigned (x : BitVec w) (RHS : Nat) : BitVec w :=
  saturate (ushl_ov x RHS) (BitVec.allOnes w)

/-! ## What the operations are to return -/

/-- The numbers of a signed word. -/
def FitsSigned (w : Nat) (n : Int) : Prop := -(2 ^ (w - 1) : Nat) ≤ n ∧ n < (2 ^ (w - 1) : Nat)

/-- The numbers of an unsigned word. -/
def FitsUnsigned (w : Nat) (n : Int) : Prop := 0 ≤ n ∧ n < (2 ^ w : Nat)

instance (w : Nat) (n : Int) : Decidable (FitsSigned w n) := inferInstanceAs (Decidable (_ ∧ _))

instance (w : Nat) (n : Int) : Decidable (FitsUnsigned w n) := inferInstanceAs (Decidable (_ ∧ _))

/-- A number, or the unsigned bound that it passes. -/
def clampUnsigned (w : Nat) (n : Int) : Int := max 0 (min n ((2 ^ w : Nat) - 1))

/-- A result for `n`: `n` modulo `2 ^ w`, flagged exactly when `n` is not in range. -/
structure Exact (Fits : Int → Prop) (result : BitVec w × Bool) (n : Int) : Prop where
  flag : result.2 = true ↔ ¬Fits n
  value : result.1 = BitVec.ofInt w n

/-- A signed operation and its saturating form. -/
structure SignedExact (result : BitVec w × Bool) (sat : BitVec w) (n : Int) : Prop extends
    Exact (FitsSigned w) result n where
  clamped : sat.toInt = clamp w n

/-- An unsigned operation and its saturating form. -/
structure UnsignedExact (result : BitVec w × Bool) (sat : BitVec w) (n : Int) : Prop extends
    Exact (FitsUnsigned w) result n where
  clamped : (sat.toNat : Int) = clampUnsigned w n

variable {result : BitVec w × Bool}

theorem Exact.toInt_eq (hw : 0 < w) {n : Int} (h : Exact (FitsSigned w) result n)
    (hfits : FitsSigned w n) : result.1.toInt = n := by
  have h2 := two_pow_eq hw
  rw [h.value]
  unfold FitsSigned at hfits
  refine BitVec.toInt_ofInt_eq_self hw ?_ ?_
  · rw [two_pow_cast]
    exact hfits.1
  · rw [two_pow_cast]
    exact hfits.2

/-- The flag that is set where the number is not in range, and the result where it is. -/
theorem Exact.of_saturating {Fits : Int → Prop} {n : Int} (hflag : result.2 = false ↔ Fits n)
    (hvalue : result.1 = BitVec.ofInt w n) :
    Exact Fits result n where
  flag := by rw [← hflag, Bool.not_eq_false]
  value := hvalue

/-! ## Sums and differences -/

theorem sadd_exact (hw : 0 < w) (x y : BitVec w) :
    SignedExact (sadd_ov x y) (sadd_sat x y) (x.toInt + y.toInt) where
  toExact := by
    have h2 := two_pow_eq hw
    have hadd := toNat_add_cases x y
    have hx := toInt_cases hw x
    have hy := toInt_cases hw y
    have hr := toInt_cases hw (x + y)
    have hxlt := x.isLt
    have hylt := y.isLt
    refine .of_saturating ?_ ?_
    · unfold sadd_ov FitsSigned
      simp only [msb_eq, Bool.and_eq_false_iff, beq_eq_false_iff_ne, bne_eq_false_iff_eq, Ne,
        decide_eq_decide]
      omega
    · rw [BitVec.ofInt_add, BitVec.ofInt_toInt, BitVec.ofInt_toInt]
      rfl
  clamped := toInt_sadd_sat hw x y

theorem ssub_exact (hw : 0 < w) (x y : BitVec w) :
    SignedExact (ssub_ov x y) (ssub_sat x y) (x.toInt - y.toInt) where
  toExact := by
    have h2 := two_pow_eq hw
    have hsub := toNat_sub_cases x y
    have hx := toInt_cases hw x
    have hy := toInt_cases hw y
    have hr := toInt_cases hw (x - y)
    have hxlt := x.isLt
    have hylt := y.isLt
    refine .of_saturating ?_ ?_
    · unfold ssub_ov FitsSigned
      simp only [msb_eq, Bool.and_eq_false_iff, bne_eq_false_iff_eq, decide_eq_decide]
      omega
    · rw [Int.sub_eq_add_neg, BitVec.ofInt_add, BitVec.ofInt_neg, BitVec.ofInt_toInt,
        BitVec.ofInt_toInt, ← BitVec.sub_eq_add_neg]
      rfl
  clamped := toInt_ssub_sat hw x y

theorem uadd_exact (x y : BitVec w) :
    UnsignedExact (uadd_ov x y) (uadd_sat x y) (x.toNat + y.toNat) where
  toExact := by
    have hadd := toNat_add_cases x y
    have hx := x.isLt
    have hy := y.isLt
    refine .of_saturating ?_ ?_
    · unfold uadd_ov FitsUnsigned
      rw [← Bool.not_eq_true, BitVec.ult_iff_lt, BitVec.lt_def]
      omega
    · rw [← Int.natCast_add, BitVec.ofInt_natCast, BitVec.ofNat_add, BitVec.ofNat_toNat,
        BitVec.ofNat_toNat, BitVec.setWidth_eq, BitVec.setWidth_eq]
      rfl
  clamped := by
    have hpos : 0 < 2 ^ w := Nat.two_pow_pos w
    rw [toNat_uadd_sat]
    unfold clampUnsigned
    omega

theorem usub_exact (x y : BitVec w) :
    UnsignedExact (usub_ov x y) (usub_sat x y) (x.toNat - y.toNat) where
  toExact := by
    have hsub := toNat_sub_cases x y
    have hx := x.isLt
    have hy := y.isLt
    refine .of_saturating ?_ ?_
    · unfold usub_ov FitsUnsigned
      rw [← Bool.not_eq_true, BitVec.ult_iff_lt, BitVec.lt_def]
      omega
    · rw [Int.sub_eq_add_neg, BitVec.ofInt_add, BitVec.ofInt_neg, BitVec.ofInt_natCast,
        BitVec.ofInt_natCast, BitVec.ofNat_toNat, BitVec.ofNat_toNat, BitVec.setWidth_eq,
        BitVec.setWidth_eq, ← BitVec.sub_eq_add_neg]
      rfl
  clamped := by
    have hx := x.isLt
    rw [toNat_usub_sat]
    unfold clampUnsigned
    omega

/-! ## Products -/

theorem smul_exact (hw : 0 < w) (x y : BitVec w) :
    SignedExact (smul_ov x y) (smul_sat x y) (x.toInt * y.toInt) where
  toExact := by
    refine .of_saturating (smul_ov_spec hw x y).1 ?_
    rw [BitVec.ofInt_mul, BitVec.ofInt_toInt, BitVec.ofInt_toInt]
    rfl
  clamped := toInt_smul_sat hw x y

/-- Half the product, doubled, and the operand where a bit was dropped. -/
theorem umul_ov_fst (x y : BitVec w) : (umul_ov x y).1 = x * y := by
  have hprod : x.toNat * y.toNat = x.toNat / 2 * y.toNat * 2 + x.toNat % 2 * y.toNat := by
    conv_lhs => rw [← Nat.div_add_mod x.toNat 2]
    ring
  have hhalf : (((x >>> 1) * y) <<< 1).toNat ≡ x.toNat / 2 * y.toNat * 2 [MOD 2 ^ w] := by
    rw [BitVec.toNat_shiftLeft, BitVec.toNat_mul, BitVec.toNat_ushiftRight, Nat.shiftLeft_eq,
      Nat.shiftRight_eq_div_pow, Nat.pow_one]
    exact (Nat.mod_modEq _ _).trans ((Nat.mod_modEq _ _).mul_right 2)
  have hbit : x.getLsbD 0 = decide (x.toNat % 2 = 1) := by
    rw [BitVec.getLsbD, Nat.testBit_zero]
  unfold umul_ov
  split_ifs with hearly hodd
  · rfl
  · rw [hbit, decide_eq_true_eq] at hodd
    rw [eq_iff, BitVec.toNat_add, BitVec.toNat_mul, hprod, hodd, Nat.one_mul]
    exact hhalf.add_right _
  · rw [hbit, decide_eq_true_eq] at hodd
    rw [eq_iff, BitVec.toNat_mul, hprod, show x.toNat % 2 = 0 by omega, Nat.zero_mul, Nat.add_zero,
      ← Nat.mod_eq_of_lt (BitVec.isLt (((x >>> 1) * y) <<< 1))]
    exact hhalf

theorem umul_exact (hw : 0 < w) (x y : BitVec w) :
    UnsignedExact (umul_ov x y) (umul_sat x y) (x.toNat * y.toNat) where
  toExact := by
    have hflag := (umul_ov_spec hw x y).1
    constructor
    · unfold FitsUnsigned
      rw [hflag, ← Int.natCast_mul]
      omega
    · rw [umul_ov_fst, BitVec.ofInt_mul, BitVec.ofInt_natCast, BitVec.ofInt_natCast,
        BitVec.ofNat_toNat, BitVec.ofNat_toNat, BitVec.setWidth_eq, BitVec.setWidth_eq]
  clamped := by
    have hpos : 0 < 2 ^ w := Nat.two_pow_pos w
    rw [toNat_umul_sat hw]
    unfold clampUnsigned
    rw [← Int.natCast_mul]
    omega

/-! ## Shifts -/

theorem ofInt_mul_two_pow (n : Int) (s : Nat) :
    BitVec.ofInt w (n * (2 ^ s : Nat)) = BitVec.ofInt w n <<< s := by
  rw [BitVec.ofInt_mul, BitVec.ofInt_natCast, BitVec.shiftLeft_eq_mul_twoPow]
  congr 1
  rw [eq_iff, BitVec.toNat_ofNat, BitVec.toNat_twoPow]

/-- A shift by the width or more leaves nothing. -/
theorem shl_large {s : Nat} (hs : w ≤ s) : x <<< s = 0 :=
  BitVec.shiftLeft_eq_zero hs

theorem sshl_ov_fst (x : BitVec w) (s : Nat) : (sshl_ov x s).1 = x <<< s := by
  unfold sshl_ov
  split_ifs with hs
  · exact (shl_large hs).symm
  · rfl
  · rfl

theorem ushl_ov_fst (x : BitVec w) (s : Nat) : (ushl_ov x s).1 = x <<< s := by
  unfold ushl_ov
  split_ifs with hs
  · exact (shl_large hs).symm
  · rfl

/-- A number other than zero, shifted by the width or more, is out of range. -/
theorem two_pow_le_natAbs {n : Int} {s : Nat} (hn : n ≠ 0) (hs : w ≤ s) :
    2 ^ w ≤ (n * (2 ^ s : Nat)).natAbs := by
  rw [Int.natAbs_mul, Int.natAbs_natCast]
  calc 2 ^ w ≤ 1 * 2 ^ s := by
        rw [Nat.one_mul]
        exact Nat.pow_le_pow_right (by decide) hs
    _ ≤ n.natAbs * 2 ^ s := Nat.mul_le_mul_right _ (Int.natAbs_pos.mpr hn)

theorem toInt_saturate (hw : 0 < w) {n : Int} {negative : Bool} (h : Exact (FitsSigned w) result n)
    (hsign : negative = decide (n < 0)) :
    (saturate result (signedBound w negative)).toInt = clamp w n := by
  have hpos : 0 < 2 ^ (w - 1) := Nat.two_pow_pos _
  unfold saturate clamp
  split_ifs with hflag
  · have hfits : FitsSigned w n := by
      by_contra hnot
      rw [h.flag.mpr hnot] at hflag
      exact Bool.noConfusion hflag
    rw [h.toInt_eq hw hfits]
    unfold FitsSigned at hfits
    omega
  · rw [Bool.not_eq_false, h.flag] at hflag
    unfold FitsSigned at hflag
    rw [toInt_signedBound hw, hsign]
    simp only [decide_eq_true_eq]
    split_ifs <;> omega

theorem toNat_saturate {n : Nat} (h : Exact (FitsUnsigned w) result n) :
    ((saturate result (BitVec.allOnes w)).toNat : Int) = clampUnsigned w n := by
  have hpos : 0 < 2 ^ w := Nat.two_pow_pos w
  unfold saturate clampUnsigned
  split_ifs with hflag
  · have hfits : n < 2 ^ w := by
      by_contra hnot
      rw [h.flag.mpr fun hfits => hnot (by exact_mod_cast hfits.2)] at hflag
      exact Bool.noConfusion hflag
    rw [h.value, BitVec.ofInt_natCast, BitVec.toNat_ofNat, Nat.mod_eq_of_lt hfits]
    omega
  · rw [Bool.not_eq_false, h.flag] at hflag
    unfold FitsUnsigned at hflag
    rw [BitVec.toNat_allOnes]
    omega

/-- A signed shift, by less than the width or of a word other than zero. -/
theorem sshl_exact (hw : 0 < w) {s : Nat} (h : s < w ∨ x ≠ 0) :
    SignedExact (sshl_ov x s) (sshl_sat_unsigned x s) (x.toInt * (2 ^ s : Nat)) := by
  have hflag : (sshl_ov x s).2 = false ↔ FitsSigned w (x.toInt * (2 ^ s : Nat)) := by
    rcases Nat.lt_or_ge s w with hs | hs
    · exact (sshl_ov_spec hw x hs).1
    · have hx : x.toInt ≠ 0 := by
        have hne := h.resolve_left (Nat.not_lt.mpr hs)
        rwa [Ne, toInt_eq_iff, BitVec.ofNat_eq_ofNat, BitVec.toInt_zero] at hne
      have habs := two_pow_le_natAbs hx hs
      have h2 := two_pow_eq hw
      unfold sshl_ov FitsSigned
      rw [if_pos hs]
      refine iff_of_false Bool.noConfusion ?_
      omega
  have hexact : Exact (FitsSigned w) (sshl_ov x s) (x.toInt * (2 ^ s : Nat)) := by
    refine .of_saturating hflag ?_
    rw [ofInt_mul_two_pow, BitVec.ofInt_toInt, sshl_ov_fst]
  refine ⟨hexact, toInt_saturate hw hexact ?_⟩
  have hspos : 0 < ((2 ^ s : Nat) : Int) := by exact_mod_cast Nat.two_pow_pos s
  rw [msb_eq, decide_eq_decide]
  refine ⟨fun hneg => Int.mul_neg_of_neg_of_pos hneg hspos, fun hneg => ?_⟩
  by_contra hpos
  have hprod := Int.mul_nonneg (Int.not_lt.mp hpos) hspos.le
  omega

/-- An unsigned shift, by less than the width or of a word other than zero. -/
theorem ushl_exact {s : Nat} (h : s < w ∨ x ≠ 0) :
    UnsignedExact (ushl_ov x s) (ushl_sat_unsigned x s) (x.toNat * 2 ^ s : Nat) := by
  have hspos : 0 < 2 ^ s := Nat.two_pow_pos s
  have hflag : (ushl_ov x s).2 = false ↔ FitsUnsigned w (x.toNat * 2 ^ s : Nat) := by
    unfold ushl_ov FitsUnsigned
    rcases Nat.lt_or_ge s w with hs | hs
    · -- the bits that are shifted out are zeros
      have hfits : s ≤ countl_zero x ↔ x.toNat * 2 ^ s < 2 ^ w := by
        rw [le_countl_zero (by omega), ← pow_mul_pow (show s ≤ w by omega)]
        exact (Nat.mul_lt_mul_right hspos).symm
      rw [if_neg (Nat.not_le.mpr hs), decide_eq_false_iff_not, Nat.not_lt, hfits]
      omega
    · have hx : 0 < x.toNat := by
        have hne := h.resolve_left (Nat.not_lt.mpr hs)
        rw [Ne, eq_iff, toNat_zero] at hne
        omega
      have hlarge : 2 ^ w ≤ x.toNat * 2 ^ s :=
        (Nat.pow_le_pow_right (by decide) hs).trans (Nat.le_mul_of_pos_left _ hx)
      rw [if_pos hs]
      refine iff_of_false Bool.noConfusion ?_
      omega
  have hexact : Exact (FitsUnsigned w) (ushl_ov x s) (x.toNat * 2 ^ s : Nat) := by
    refine .of_saturating hflag ?_
    rw [Int.natCast_mul, ofInt_mul_two_pow, BitVec.ofInt_natCast, BitVec.ofNat_toNat,
      BitVec.setWidth_eq, ushl_ov_fst]
  exact ⟨hexact, toNat_saturate hexact⟩

/-- An amount that is limited to the width shifts as the amount itself does. -/
theorem sshl_ov_word_eq (x : BitVec w) (z : BitVec v) : sshl_ov_word x z = sshl_ov x z.toNat := by
  unfold sshl_ov_word getLimitedValue
  rcases Nat.le_total z.toNat w with hz | hz
  · rw [Nat.min_eq_left hz]
  · rw [Nat.min_eq_right hz, sshl_ov, sshl_ov, if_pos (Nat.le_refl w), if_pos hz]

theorem ushl_ov_word_eq (x : BitVec w) (z : BitVec v) : ushl_ov_word x z = ushl_ov x z.toNat := by
  unfold ushl_ov_word getLimitedValue
  rcases Nat.le_total z.toNat w with hz | hz
  · rw [Nat.min_eq_left hz]
  · rw [Nat.min_eq_right hz, ushl_ov, ushl_ov, if_pos (Nat.le_refl w), if_pos hz]

theorem sshl_sat_eq (x z : BitVec w) : sshl_sat x z = sshl_sat_unsigned x z.toNat :=
  congrArg (saturate · (signedBound w x.msb)) (sshl_ov_word_eq x z)

theorem ushl_sat_eq (x z : BitVec w) : ushl_sat x z = ushl_sat_unsigned x z.toNat :=
  congrArg (saturate · (BitVec.allOnes w)) (ushl_ov_word_eq x z)

/-! ## All of it -/

/-- **The flags and the saturated results are exact**, except that a zero which is shifted by the
width or more is flagged and saturates to the greatest number. -/
theorem overflow_exact (hw : 0 < w) (x y : BitVec w) :
    (SignedExact (sadd_ov x y) (sadd_sat x y) (x.toInt + y.toInt) ∧
      UnsignedExact (uadd_ov x y) (uadd_sat x y) (x.toNat + y.toNat)) ∧
    (SignedExact (ssub_ov x y) (ssub_sat x y) (x.toInt - y.toInt) ∧
      UnsignedExact (usub_ov x y) (usub_sat x y) (x.toNat - y.toNat)) ∧
    (SignedExact (smul_ov x y) (smul_sat x y) (x.toInt * y.toInt) ∧
      UnsignedExact (umul_ov x y) (umul_sat x y) (x.toNat * y.toNat)) ∧
    (∀ s : Nat, s < w ∨ x ≠ 0 →
      SignedExact (sshl_ov x s) (sshl_sat_unsigned x s) (x.toInt * (2 ^ s : Nat)) ∧
        UnsignedExact (ushl_ov x s) (ushl_sat_unsigned x s) (x.toNat * 2 ^ s : Nat)) ∧
    (∀ s : Nat, w ≤ s →
      sshl_ov (0 : BitVec w) s = (0, true) ∧ ushl_ov (0 : BitVec w) s = (0, true) ∧
        sshl_sat_unsigned (0 : BitVec w) s = BitVec.intMax w ∧
        ushl_sat_unsigned (0 : BitVec w) s = BitVec.allOnes w) ∧
    (∀ (v : Nat) (z : BitVec v), sshl_ov_word x z = sshl_ov x z.toNat ∧
      ushl_ov_word x z = ushl_ov x z.toNat) ∧
    (sshl_sat x y = sshl_sat_unsigned x y.toNat ∧ ushl_sat x y = ushl_sat_unsigned x y.toNat) := by
  refine ⟨⟨sadd_exact hw x y, uadd_exact x y⟩, ⟨ssub_exact hw x y, usub_exact x y⟩,
    ⟨smul_exact hw x y, umul_exact hw x y⟩, fun s hs => ⟨sshl_exact hw hs, ushl_exact hs⟩,
    fun s hs => ?_, fun _ z => ⟨sshl_ov_word_eq x z, ushl_ov_word_eq x z⟩,
    ⟨sshl_sat_eq x y, ushl_sat_eq x y⟩⟩
  have hsigned : sshl_ov (0 : BitVec w) s = (0, true) := if_pos hs
  have hunsigned : ushl_ov (0 : BitVec w) s = (0, true) := if_pos hs
  have hmsb : (0 : BitVec w).msb = false := BitVec.msb_zero
  refine ⟨hsigned, hunsigned, ?_, ?_⟩
  · rw [sshl_sat_unsigned, hsigned, hmsb]
    rfl
  · rw [ushl_sat_unsigned, hunsigned]
    rfl

theorem overflow_exact_one :
    0 < 1 ∧ SignedExact (sadd_ov (1 : BitVec 1) 1) (sadd_sat (1 : BitVec 1) 1) (-2) :=
  ⟨by decide, (overflow_exact (w := 1) (by decide) 1 1).1.1⟩

/-- Zero times `2 ^ 4` is in range, and a shift by four is flagged. -/
theorem shifted_zero_flagged :
    ¬∀ (w : Nat) (x : BitVec w) (s : Nat), 0 < w →
      SignedExact (sshl_ov x s) (sshl_sat_unsigned x s) (x.toInt * (2 ^ s : Nat)) := by
  intro h
  have hflag := (h 4 0 4 (by decide)).flag
  exact hflag.mp (by decide) (by decide)

end RvLlvm.APInt.Saturating
