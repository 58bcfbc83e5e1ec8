import RvLlvm.APInt.Saturating
import RvLlvm.KnownBits.AddSub
import Mathlib.Data.Finset.Card

/-!
# Masks and counts of known bits

The counts of `KnownBits` (`llvm/include/llvm/Support/KnownBits.h`) and the masks of `APInt` that its
functions set and clear. Positions are below the width wherever these are called.

* `toNat_lt_of_leadingZeros`, `getLsbD_of_trailingZeros`: what a count says of a member.
* `mem_knownZeros`, `mem_knownOnes`: bits made known at once.
-/

namespace RvLlvm.KnownBits

open APInt.Saturating (countl_zero countl_one le_countl_zero)

variable {W : Nat}

/-! ## Masks -/

/-- `getHighBitsSet`. -/
def getHighBitsSet (W n : Nat) : BitVec W := BitVec.allOnes W <<< (W - n)

/-- `getLowBitsSet`. -/
def getLowBitsSet (W n : Nat) : BitVec W := BitVec.allOnes W >>> (W - n)

/-- The bits from `lo` on and below `hi`. -/
def getBitsSet (W lo hi : Nat) : BitVec W := getLowBitsSet W hi &&& BitVec.allOnes W <<< lo

/-- The bits of the mask are set in `Zero` and cleared in `One`. -/
def knownZeros (Mask : BitVec W) (k : KnownBits W) : KnownBits W :=
  ⟨k.Zero ||| Mask, k.One &&& ~~~Mask⟩

/-- The bits of the mask are set in `One` and cleared in `Zero`. -/
def knownOnes (Mask : BitVec W) (k : KnownBits W) : KnownBits W :=
  ⟨k.Zero &&& ~~~Mask, k.One ||| Mask⟩

def makeConstant (C : BitVec W) : KnownBits W := ⟨~~~C, C⟩

/-! ## Counts -/

/-- `countr_zero`. -/
def countr_zero (x : BitVec W) : Nat := x.ctz.toNat

/-- `countr_one`. -/
def countr_one (x : BitVec W) : Nat := countr_zero (~~~x)

def popcount (x : BitVec W) : Nat := ((Finset.range W).filter fun i => x.getLsbD i = true).card

def countMinTrailingZeros (k : KnownBits W) : Nat := countr_one k.Zero

def countMaxTrailingZeros (k : KnownBits W) : Nat := countr_zero k.One

def countMinLeadingZeros (k : KnownBits W) : Nat := countl_one k.Zero

def countMinLeadingOnes (k : KnownBits W) : Nat := countl_one k.One

def countMinPopulation (k : KnownBits W) : Nat := popcount k.One

def countMaxPopulation (k : KnownBits W) : Nat := W - popcount k.Zero

section Lemmas

variable {x y z Mask : BitVec W} {k : KnownBits W} {i n : Nat}

theorem getLsbD_getHighBitsSet (hi : i < W) :
    (getHighBitsSet W n).getLsbD i = decide (W - n ≤ i) := by
  rw [getHighBitsSet, BitVec.getLsbD_shiftLeft, BitVec.getLsbD_allOnes]
  rw [Bool.eq_iff_iff]
  simp only [Bool.and_eq_true, Bool.not_eq_true', decide_eq_true_eq, decide_eq_false_iff_not]
  omega

theorem getLsbD_getLowBitsSet (hi : i < W) : (getLowBitsSet W n).getLsbD i = decide (i < n) := by
  rw [getLowBitsSet, BitVec.getLsbD_ushiftRight, BitVec.getLsbD_allOnes, decide_eq_decide]
  omega

theorem getLsbD_getBitsSet {lo hi : Nat} (h : i < W) :
    (getBitsSet W lo hi).getLsbD i = (decide (lo ≤ i) && decide (i < hi)) := by
  rw [getBitsSet, BitVec.getLsbD_and, getLsbD_getLowBitsSet h, BitVec.getLsbD_shiftLeft,
    BitVec.getLsbD_allOnes, Bool.eq_iff_iff]
  simp only [Bool.and_eq_true, Bool.not_eq_true', decide_eq_true_eq, decide_eq_false_iff_not]
  omega

theorem mem_knownZeros (h : x ∈ k) (hmask : ∀ i, Mask.getLsbD i = true → x.getLsbD i = false) :
    x ∈ knownZeros Mask k := by
  refine mem_iff.mpr fun i => ⟨fun hz => ?_, fun ho => ?_⟩
  · rw [knownZeros, BitVec.getLsbD_or, Bool.or_eq_true] at hz
    exact hz.elim (mem_iff.mp h i).1 (hmask i)
  · rw [knownZeros, BitVec.getLsbD_and, Bool.and_eq_true] at ho
    exact (mem_iff.mp h i).2 ho.1

theorem mem_knownOnes (h : x ∈ k) (hmask : ∀ i, Mask.getLsbD i = true → x.getLsbD i = true) :
    x ∈ knownOnes Mask k := by
  refine mem_iff.mpr fun i => ⟨fun hz => ?_, fun ho => ?_⟩
  · rw [knownOnes, BitVec.getLsbD_and, Bool.and_eq_true] at hz
    exact (mem_iff.mp h i).1 hz.1
  · rw [knownOnes, BitVec.getLsbD_or, Bool.or_eq_true] at ho
    exact ho.elim (mem_iff.mp h i).2 (hmask i)

theorem mem_makeConstant (C : BitVec W) : C ∈ makeConstant C := by
  refine mem_of_lt fun i hi => ⟨fun hz => ?_, id⟩
  rwa [makeConstant, BitVec.getLsbD_not, decide_eq_true hi, Bool.true_and,
    Bool.not_eq_true'] at hz

/-- Fewer bits make a smaller number. -/
theorem toNat_le_of_subset (h : ∀ i, x.getLsbD i = true → y.getLsbD i = true) :
    x.toNat ≤ y.toNat := by
  have hand : y &&& x = x := and_eq_right_iff.mpr h
  rw [← hand, BitVec.toNat_and]
  exact Nat.and_le_left

theorem toNat_le_max (h : x ∈ k) : x.toNat ≤ k.getMaxValue.toNat :=
  toNat_le_of_subset fun _ => subset_max h

theorem min_le_toNat (h : x ∈ k) : k.getMinValue.toNat ≤ x.toNat :=
  toNat_le_of_subset fun _ => min_subset h

theorem countMinLeadingZeros_le (k : KnownBits W) : k.countMinLeadingZeros ≤ W := Nat.sub_le _ _

theorem toNat_max_lt (k : KnownBits W) : k.getMaxValue.toNat < 2 ^ (W - k.countMinLeadingZeros) :=
  (le_countl_zero (countMinLeadingZeros_le k)).mp (le_refl _)

theorem toNat_lt_of_leadingZeros (h : x ∈ k) : x.toNat < 2 ^ (W - k.countMinLeadingZeros) :=
  (toNat_le_max h).trans_lt (toNat_max_lt k)

theorem countMinLeadingZeros_swap (k : KnownBits W) :
    k.swap.countMinLeadingZeros = k.countMinLeadingOnes :=
  rfl

theorem toNat_not_lt_of_leadingOnes (h : x ∈ k) :
    (~~~x).toNat < 2 ^ (W - k.countMinLeadingOnes) := by
  rw [← countMinLeadingZeros_swap]
  exact toNat_lt_of_leadingZeros (swap_mem.mpr h)

theorem getLsbD_of_lt_two_pow (h : x.toNat < 2 ^ n) (hi : n ≤ i) : x.getLsbD i = false :=
  Nat.testBit_lt_two_pow (h.trans_le (Nat.pow_le_pow_right (by decide) hi))

/-- The high bits of a small number. -/
theorem high_of_lt (h : x.toNat < 2 ^ (W - n)) (hm : (getHighBitsSet W n).getLsbD i = true) :
    x.getLsbD i = false := by
  have hi := BitVec.lt_of_getLsbD hm
  rw [getLsbD_getHighBitsSet hi, decide_eq_true_eq] at hm
  exact getLsbD_of_lt_two_pow h hm

/-- The high bits of a large number. -/
theorem high_of_not_lt (h : (~~~x).toNat < 2 ^ (W - n))
    (hm : (getHighBitsSet W n).getLsbD i = true) : x.getLsbD i = true := by
  have hbit := high_of_lt h hm
  rwa [BitVec.getLsbD_not, decide_eq_true (BitVec.lt_of_getLsbD hm), Bool.true_and,
    Bool.not_eq_false'] at hbit

theorem getLsbD_of_lt_countr_zero (h : i < countr_zero x) : x.getLsbD i = false :=
  BitVec.getLsbD_false_of_lt_ctz h

theorem getLsbD_countr_zero (h : countr_zero x < W) : x.getLsbD (countr_zero x) = true := by
  refine BitVec.getLsbD_true_ctz_of_ne_zero (BitVec.ctz_lt_iff_ne_zero.mp ?_)
  rw [BitVec.lt_def, BitVec.natCast_eq_ofNat, Support.WordOrder.toNat_width]
  exact h

/-- The trailing bits of a member. -/
theorem getLsbD_of_trailingZeros (h : x ∈ k) (hi : i < k.countMinTrailingZeros) :
    x.getLsbD i = false := by
  rcases Nat.lt_or_ge i W with hlt | hge
  · have hbit := getLsbD_of_lt_countr_zero hi
    rw [BitVec.getLsbD_not, decide_eq_true hlt, Bool.true_and, Bool.not_eq_false'] at hbit
    exact (mem_iff.mp h i).1 hbit
  · exact BitVec.getLsbD_of_ge _ _ hge

end Lemmas

end RvLlvm.KnownBits
