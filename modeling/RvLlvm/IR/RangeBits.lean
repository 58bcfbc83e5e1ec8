import Mathlib.Data.Nat.Bitwise
import RvLlvm.IR.RangeProducts
import RvLlvm.IR.SignedDivision
import RvLlvm.KnownBits.Compare

/-!
# Ranges and known bits

Model of `ConstantRange::fromKnownBits` and `toKnownBits` (`llvm/lib/IR/ConstantRange.cpp:59-95`),
`binaryNot`, `binaryAnd`, `binaryOr` and `binaryXor` (`:1413-1457`), `binaryOp` and
`overflowingBinaryOp` (`:874-934`), with the operators of `KnownBits` (`llvm/lib/Support/KnownBits.cpp`).

* `fromKnownBits_hull`: the range of known bits is the interval between two of their values.
* `toKnownBits_exact`: a bit is known of a range exactly where its members agree on it.
* `operators_sound`: the range of an operator has every value of its instruction.
-/

namespace RvLlvm.KnownBits

variable {W : Nat} {x y : BitVec W} {LHS RHS : KnownBits W}

/-- `operator&=`. -/
def and (LHS RHS : KnownBits W) : KnownBits W := ⟨LHS.Zero ||| RHS.Zero, LHS.One &&& RHS.One⟩

/-- `operator|=`. -/
def or (LHS RHS : KnownBits W) : KnownBits W := ⟨LHS.Zero &&& RHS.Zero, LHS.One ||| RHS.One⟩

/-- `operator^=`. -/
def xor (LHS RHS : KnownBits W) : KnownBits W :=
  ⟨LHS.Zero &&& RHS.Zero ||| LHS.One &&& RHS.One, LHS.Zero &&& RHS.One ||| LHS.One &&& RHS.Zero⟩

theorem mem_bitwise (hx : x ∈ LHS) (hy : y ∈ RHS) :
    x &&& y ∈ and LHS RHS ∧ x ||| y ∈ or LHS RHS ∧ x ^^^ y ∈ xor LHS RHS := by
  simp only [mem_iff, ← forall_and]
  intro i
  have hbx := mem_iff.mp hx i
  have hby := mem_iff.mp hy i
  simp only [KnownBits.and, KnownBits.or, KnownBits.xor, BitVec.getLsbD_and, BitVec.getLsbD_or,
    BitVec.getLsbD_xor]
  cases hxi : x.getLsbD i <;> cases hyi : y.getLsbD i <;> simp only [hxi, hyi] at hbx hby <;>
    simp_all

end RvLlvm.KnownBits

namespace RvLlvm.IR.ConstantRange

open Support.WordOrder
open APInt.Saturating (countl_zero)
open KnownBits (signMask clearLowBits min_mem max_mem min_le_toNat toNat_le_max signedMin_mem
  signedMin_le signedMax_mem le_signedMax)

variable {w : Nat}

/-- `fromKnownBits`; the assertions of it and of the constructor hold. -/
def fromKnownBits (Known : KnownBits w) (IsSigned : Bool) (hw : 0 < w) : Option (ConstantRange w) :=
  if Known.hasConflict then none
  else if Known.isUnknown then some (getFull hw)
  else if !IsSigned || Known.isNegative || Known.isNonNegative then
    ofBounds Known.getMinValue (Known.getMaxValue + 1) hw
  else ofBounds (Known.getMinValue ||| signMask w) ((Known.getMaxValue &&& ~~~signMask w) + 1) hw

/-- `APIntOps::GetMostSignificantDifferentBit`. -/
def getMostSignificantDifferentBit (A B : BitVec w) : Option Nat :=
  if A = B then none else some (w - (countl_zero (A ^^^ B) + 1))

def toKnownBits (A : ConstantRange w) : KnownBits w :=
  if A.isEmptySet then ⟨0, 0⟩
  else
    let Min := A.getUnsignedMin
    let Known := KnownBits.makeConstant Min
    match getMostSignificantDifferentBit Min A.getUnsignedMax with
    | none => Known
    | some DifferentBit =>
      ⟨clearLowBits Known.Zero (DifferentBit + 1),
        clearLowBits Known.One (DifferentBit + 1)⟩

def binaryNot (A : ConstantRange w) : ConstantRange w := sub (ofValue (BitVec.allOnes w) A.pos) A

def binaryAnd (A B : ConstantRange w) : Option (ConstantRange w) :=
  if A.isEmptySet || B.isEmptySet then some (getEmpty A.pos)
  else do
    let KnownBitsRange ← fromKnownBits (A.toKnownBits.and B.toKnownBits) false A.pos
    let UMinUMaxRange := getNonEmpty 0 (umin B.getUnsignedMax A.getUnsignedMax + 1) A.pos
    some (KnownBitsRange.intersectWith UMinUMaxRange .Smallest)

def binaryOr (A B : ConstantRange w) : Option (ConstantRange w) :=
  if A.isEmptySet || B.isEmptySet then some (getEmpty A.pos)
  else do
    let KnownBitsRange ← fromKnownBits (A.toKnownBits.or B.toKnownBits) false A.pos
    let UMaxUMinRange := getNonEmpty (umax A.getUnsignedMin B.getUnsignedMin) 0 A.pos
    some (KnownBitsRange.intersectWith UMaxUMinRange .Smallest)

def binaryXor (A B : ConstantRange w) : Option (ConstantRange w) :=
  if A.isEmptySet || B.isEmptySet then some (getEmpty A.pos)
  else
    match A.getSingleElement, B.getSingleElement with
    | some x, some y => some (ofValue (x ^^^ y) A.pos)
    | L, R =>
      if R = some (BitVec.allOnes w) then some A.binaryNot
      else if L = some (BitVec.allOnes w) then some B.binaryNot
      else fromKnownBits (A.toKnownBits.xor B.toKnownBits) false A.pos

/-! ## From known bits -/

section

variable {Known : KnownBits w} {L U x : BitVec w}

/-- Where a value and its complement are possible, nothing is known. -/
theorem isUnknown_of_mem_not (h : x ∈ Known) (hnot : ~~~x ∈ Known) : Known.isUnknown = true := by
  have hbit : ∀ i < w, Known.Zero.getLsbD i = false ∧ Known.One.getLsbD i = false := fun i hi => by
    have hb := KnownBits.mem_iff.mp h i
    have hb' := KnownBits.mem_iff.mp hnot i
    rw [BitVec.getLsbD_not, decide_eq_true hi, Bool.true_and] at hb'
    cases hx : x.getLsbD i <;> simp_all
  rw [KnownBits.isUnknown, Bool.and_eq_true, beq_iff_eq, beq_iff_eq]
  exact ⟨BitVec.eq_of_getLsbD_eq fun i hi => (hbit i hi).1.trans BitVec.getLsbD_zero.symm,
    BitVec.eq_of_getLsbD_eq fun i hi => (hbit i hi).2.trans BitVec.getLsbD_zero.symm⟩

/-- A word lies between two others, in the order asked for. -/
def Between (IsSigned : Bool) (y x z : BitVec w) : Prop :=
  if IsSigned then y.toInt ≤ x.toInt ∧ x.toInt ≤ z.toInt else y.toNat ≤ x.toNat ∧ x.toNat ≤ z.toNat

theorem mem_between (IsSigned : Bool) (hw : 0 < w) (h : Between IsSigned L U U) (hne : U ≠ ~~~L) :
    ∃ R, ofBounds L (U + 1) hw = some R ∧ ∀ x : BitVec w, x ∈ R ↔ Between IsSigned L x U := by
  have h1 := toNat_one hw
  have h2 := two_pow_eq hw
  have hadd := toNat_add_cases U 1
  have hL := toInt_cases hw L
  have hU := toInt_cases hw U
  have hLlt := L.isLt
  have hUlt := U.isLt
  rw [Ne, eq_iff, BitVec.toNat_not] at hne
  unfold Between at h ⊢
  obtain ⟨R, hR, hmem⟩ := mem_ofBounds (L := L) (U := U + 1) hw (by split at h <;> omega)
  refine ⟨R, hR, fun x => ?_⟩
  have hx := toInt_cases hw x
  have hxlt := x.isLt
  rw [hmem]
  cases IsSigned
  · rw [if_neg Bool.false_ne_true] at h ⊢
    omega
  · rw [if_pos rfl] at h ⊢
    omega

theorem fromKnownBits_eq (IsSigned : Bool) (hw : 0 < w) (h : ¬Known.hasConflict) :
    ∃ R, fromKnownBits Known IsSigned hw = some R ∧ ∀ x, x ∈ R ↔
      if IsSigned then Between true Known.getSignedMinValue x Known.getSignedMaxValue
      else Between false Known.getMinValue x Known.getMaxValue := by
  unfold fromKnownBits
  rw [if_neg h]
  by_cases hunknown : Known.isUnknown = true
  · rw [if_pos hunknown]
    rw [KnownBits.isUnknown, Bool.and_eq_true, beq_iff_eq, beq_iff_eq] at hunknown
    refine ⟨_, rfl, fun x => iff_of_true (mem_getFull hw x) ?_⟩
    have hx : x ∈ Known := KnownBits.mem_iff.mpr fun i => by simp [hunknown.1, hunknown.2]
    cases IsSigned
    · exact ⟨min_le_toNat hx, toNat_le_max hx⟩
    · exact ⟨signedMin_le hx, le_signedMax hx⟩
  rw [if_neg hunknown]
  cases IsSigned with
  | false =>
    exact mem_between false hw ⟨min_le_toNat (max_mem h), Nat.le_refl _⟩
      fun heq => hunknown (isUnknown_of_mem_not (min_mem h) (heq ▸ max_mem h))
  | true =>
    have hrange := mem_between true hw ⟨signedMin_le (signedMax_mem h), Int.le_refl _⟩
      fun heq => hunknown (isUnknown_of_mem_not (signedMin_mem h) (heq ▸ signedMax_mem h))
    rw [Bool.not_true, Bool.false_or]
    simp only [if_pos]
    by_cases hsign : (Known.isNegative || Known.isNonNegative) = true
    · obtain ⟨hmin, hmax⟩ := KnownBits.signedBounds_of_sign hsign
      rw [if_pos hsign, hmin, hmax]
      rwa [hmin, hmax] at hrange
    · rw [if_neg hsign]
      rw [Bool.or_eq_true, not_or, Bool.not_eq_true, Bool.not_eq_true] at hsign
      rw [KnownBits.getSignedMinValue, if_pos (show Known.Zero.msb = false from hsign.2),
        KnownBits.getSignedMaxValue, if_pos (show Known.One.msb = false from hsign.1)] at hrange ⊢
      exact hrange

/-- **The range of known bits** is the interval that their values span. -/
theorem fromKnownBits_hull (IsSigned : Bool) (hw : 0 < w) (h : ¬Known.hasConflict) :
    ∃ R, fromKnownBits Known IsSigned hw = some R ∧
      ∀ x, x ∈ R ↔ ∃ y ∈ Known, ∃ z ∈ Known, Between IsSigned y x z := by
  obtain ⟨R, hR, hmem⟩ := fromKnownBits_eq IsSigned hw h
  refine ⟨R, hR, fun x => (hmem x).trans ?_⟩
  cases IsSigned with
  | false =>
    refine ⟨fun hx => ⟨_, min_mem h, _, max_mem h, hx⟩, ?_⟩
    rintro ⟨y, hy, z, hz, hyx, hxz⟩
    exact ⟨(min_le_toNat hy).trans hyx, hxz.trans (toNat_le_max hz)⟩
  | true =>
    refine ⟨fun hx => ⟨_, signedMin_mem h, _, signedMax_mem h, hx⟩, ?_⟩
    rintro ⟨y, hy, z, hz, hyx, hxz⟩
    exact ⟨(signedMin_le hy).trans hyx, hxz.trans (le_signedMax hz)⟩

/-- `?0?1`, of four bits: from -7 to 5. -/
theorem fromKnownBits_hull_four : ∃ R, fromKnownBits (⟨4, 1⟩ : KnownBits 4) true (by decide) = some R ∧
    ∀ x, x ∈ R ↔ ∃ y ∈ (⟨4, 1⟩ : KnownBits 4), ∃ z ∈ (⟨4, 1⟩ : KnownBits 4), Between true y x z :=
  fromKnownBits_hull true (by decide) (by decide)

end

/-! ## To known bits -/

section

variable {A B : ConstantRange w} {x y : BitVec w} {i : Nat}

/-- Two words are equal from a bit on if and only if they are past the highest bit in which they differ. -/
theorem size_xor_le {L U : BitVec w} {n : Nat} :
    (L ^^^ U).toNat.size ≤ n ↔ L.toNat / 2 ^ n = U.toNat / 2 ^ n := by
  rw [Nat.size_le, ← Nat.div_eq_zero_iff_lt (Nat.two_pow_pos n), BitVec.toNat_xor, Nat.xor_div_two_pow,
    Nat.xor_eq_zero_iff]

/-- From there on all words between them are. -/
theorem getLsbD_of_between {L U : BitVec w} (hLx : L.toNat ≤ x.toNat) (hxU : x.toNat ≤ U.toNat)
    (hi : (L ^^^ U).toNat.size ≤ i) : x.getLsbD i = L.getLsbD i := by
  have hx : x.toNat / 2 ^ i = L.toNat / 2 ^ i :=
    Nat.le_antisymm (size_xor_le.mp hi ▸ Nat.div_le_div_right hxU) (Nat.div_le_div_right hLx)
  show x.toNat.testBit i = L.toNat.testBit i
  rw [Nat.testBit_eq_decide_div_mod_eq, Nat.testBit_eq_decide_div_mod_eq, hx]

/-- Where all words between two have the same bit, the next higher bits never change either. -/
theorem size_le_of_between {L U : BitVec w} (hLU : L.toNat ≤ U.toNat)
    (hall : ∀ y : BitVec w, L.toNat ≤ y.toNat → y.toNat ≤ U.toNat → y.getLsbD i = L.getLsbD i) :
    (L ^^^ U).toNat.size ≤ i := by
  have hdiv : ∀ k, L.toNat + k ≤ U.toNat → (L.toNat + k) / 2 ^ i = L.toNat / 2 ^ i := by
    intro k
    induction k with
    | zero => exact fun _ => rfl
    | succ k ih =>
      intro hk
      have hU := U.isLt
      have hnat : (BitVec.ofNat w (L.toNat + (k + 1))).toNat = L.toNat + (k + 1) :=
        Nat.mod_eq_of_lt (by omega)
      have hbit : (L.toNat + (k + 1)).testBit i = L.toNat.testBit i := by
        rw [← hnat]
        exact hall _ (by omega) (by omega)
      rw [Nat.testBit_eq_decide_div_mod_eq, Nat.testBit_eq_decide_div_mod_eq, decide_eq_decide] at hbit
      have hprev := ih (by omega)
      have hsucc := @Nat.succ_div (L.toNat + k) (2 ^ i)
      rw [← Nat.add_assoc] at hbit ⊢
      split_ifs at hsucc <;> omega
  have hlast := hdiv (U.toNat - L.toNat) (by omega)
  rw [Nat.add_sub_cancel' hLU] at hlast
  exact size_xor_le.mpr hlast.symm

/-- The bits up to the highest one in which the bounds differ. -/
abbrev differingBits (A : ConstantRange w) : Nat := (A.getUnsignedMin ^^^ A.getUnsignedMax).toNat.size

/-- A bit on which the members of a range agree is none of these. -/
theorem size_le_of_agree (ha : x ∈ A) (hi : i < w) {b : Bool} (hall : ∀ y ∈ A, y.getLsbD i = b) :
    A.differingBits ≤ i := by
  have hagree := (hall _ (getUnsignedMax_mem ha)).trans (hall _ (getUnsignedMin_mem ha)).symm
  by_cases hwrapped : A.isWrappedSet = true
  · have hmin : A.getUnsignedMin = 0 := if_pos (by rw [hwrapped, Bool.or_true])
    have hup : A.isUpperWrapped = true := isUpperWrapped_iff.mpr (isWrappedSet_iff.mp hwrapped).1
    have hmax : A.getUnsignedMax = BitVec.allOnes w := if_pos (by rw [hup, Bool.or_true])
    rw [hmin, hmax, BitVec.getLsbD_allOnes, decide_eq_true hi, BitVec.ofNat_eq_ofNat, BitVec.getLsbD_zero]
      at hagree
    exact absurd hagree (by decide)
  refine size_le_of_between (getUnsignedMin_le (getUnsignedMax_mem ha)) fun y hmin hmax => ?_
  refine (hall y ?_).trans (hall _ (getUnsignedMin_mem ha)).symm
  by_cases hfull : A.isFullSet = true
  · exact isFullSet_iff_forall.mp hfull y
  have hB := A.bounds_toNat
  have h1 := toNat_one A.pos
  have hy := y.isLt
  have hempty : ¬A.isEmptySet = true := fun he => isEmptySet_iff_forall.mp he x ha
  have hsub := toNat_sub_cases A.Upper 1
  rw [getUnsignedMin, if_neg (by simp [hfull, hwrapped])] at hmin
  rw [getUnsignedMax] at hmax
  rw [isWrappedSet_iff] at hwrapped
  rw [isFullSet_iff] at hfull
  rw [isEmptySet_iff] at hempty
  rw [mem_iff]
  split_ifs at hmax with hup
  · rw [Bool.or_eq_true, isFullSet_iff, isUpperWrapped_iff] at hup
    omega
  · omega

theorem getLsbD_toKnownBits (ha : x ∈ A) (hi : i < w) :
    A.toKnownBits.Zero.getLsbD i =
        (decide (A.differingBits ≤ i) && !A.getUnsignedMin.getLsbD i) ∧
      A.toKnownBits.One.getLsbD i =
        (decide (A.differingBits ≤ i) && A.getUnsignedMin.getLsbD i) := by
  have hempty : ¬A.isEmptySet = true := fun he => isEmptySet_iff_forall.mp he x ha
  unfold toKnownBits getMostSignificantDifferentBit differingBits
  rw [if_neg hempty]
  dsimp only
  generalize A.getUnsignedMin = Min, A.getUnsignedMax = Max
  by_cases heq : Min = Max
  · rw [if_pos heq, heq, BitVec.xor_self]
    simp [KnownBits.makeConstant, hi]
  · have hsize : (Min ^^^ Max).toNat.size ≠ 0 := fun h0 => heq (by
      have hdiv := size_xor_le.mp h0.le
      rwa [Nat.pow_zero, Nat.div_one, Nat.div_one, ← eq_iff] at hdiv)
    have hle : (Min ^^^ Max).toNat.size ≤ w := Nat.size_le.mpr (BitVec.isLt _)
    rw [if_neg heq]
    simp only [clearLowBits, BitVec.getLsbD_and, KnownBits.getLsbD_getHighBitsSet hi,
      KnownBits.makeConstant, BitVec.getLsbD_not, decide_eq_true hi, Bool.true_and, countl_zero]
    rw [show w - (w - (w - (w - (Min ^^^ Max).toNat.size + 1) + 1)) = (Min ^^^ Max).toNat.size by omega]
    exact ⟨Bool.and_comm _ _, Bool.and_comm _ _⟩

/-- **The known bits of a range** are those on which its members agree, and none of the empty one. -/
theorem toKnownBits_exact (A : ConstantRange w) (i : Fin w) :
    (A.toKnownBits.Zero.getLsbD i = true ↔ (∃ x, x ∈ A) ∧ ∀ x ∈ A, x.getLsbD i = false) ∧
      (A.toKnownBits.One.getLsbD i = true ↔ (∃ x, x ∈ A) ∧ ∀ x ∈ A, x.getLsbD i = true) := by
  by_cases hempty : A.isEmptySet = true
  · have hnone : ¬∃ x, x ∈ A := not_exists.mpr (isEmptySet_iff_forall.mp hempty)
    simp [toKnownBits, hempty, hnone]
  obtain ⟨a, ha⟩ := exists_mem hempty
  have hbits := getLsbD_toKnownBits ha i.isLt
  rw [hbits.1, hbits.2]
  by_cases hi : A.differingBits ≤ i
  · have hsame : ∀ x ∈ A, x.getLsbD i = A.getUnsignedMin.getLsbD i := fun x hx =>
      getLsbD_of_between (getUnsignedMin_le hx) (le_getUnsignedMax hx) hi
    rw [decide_eq_true hi, Bool.true_and, Bool.true_and, Bool.not_eq_true']
    have hiff : ∀ b, A.getUnsignedMin.getLsbD i = b ↔ (∃ x, x ∈ A) ∧ ∀ x ∈ A, x.getLsbD i = b := fun b =>
      ⟨fun h => ⟨⟨a, ha⟩, fun x hx => (hsame x hx).trans h⟩, fun h => h.2 _ (getUnsignedMin_mem ha)⟩
    exact ⟨hiff false, hiff true⟩
  · rw [decide_eq_false hi, Bool.false_and, Bool.false_and]
    exact ⟨iff_of_false Bool.false_ne_true fun h => hi (size_le_of_agree ha i.isLt h.2),
      iff_of_false Bool.false_ne_true fun h => hi (size_le_of_agree ha i.isLt h.2)⟩

theorem mem_toKnownBits (ha : x ∈ A) : x ∈ A.toKnownBits := by
  refine KnownBits.mem_of_lt fun i hi => ?_
  obtain ⟨hzero, hone⟩ := getLsbD_toKnownBits ha hi
  rw [hzero, hone, Bool.and_eq_true, Bool.and_eq_true, decide_eq_true_eq, Bool.not_eq_true']
  have hsame : _ → x.getLsbD i = A.getUnsignedMin.getLsbD i :=
    getLsbD_of_between (getUnsignedMin_le ha) (le_getUnsignedMax ha)
  exact ⟨fun h => (hsame h.1).trans h.2, fun h => (hsame h.1).trans h.2⟩

/-! ## Bitwise operations -/

theorem mem_binaryNot : x ∈ A.binaryNot ↔ ~~~x ∈ A := by
  simp only [binaryNot, mem_sub, mem_ofValue_iff, exists_eq_left, BitVec.allOnes_sub_eq_not]
  constructor
  · rintro ⟨b, hb, rfl⟩
    rwa [BitVec.not_not]
  · exact fun h => ⟨_, h, BitVec.not_not⟩

/-- What is known of both operands bounds the result. -/
theorem fromKnownBits_sound {Known : KnownBits w} {op : BitVec w → BitVec w → BitVec w}
    (hA : ¬A.isEmptySet = true) (hB : ¬B.isEmptySet = true)
    (hop : ∀ {x y}, x ∈ A.toKnownBits → y ∈ B.toKnownBits → op x y ∈ Known) :
    ∃ R, fromKnownBits Known false A.pos = some R ∧ Contains R A B op := by
  obtain ⟨a, ha⟩ := exists_mem hA
  obtain ⟨b, hb⟩ := exists_mem hB
  have hknown : ∀ a ∈ A, ∀ b ∈ B, op a b ∈ Known := fun a ha b hb =>
    hop (mem_toKnownBits ha) (mem_toKnownBits hb)
  obtain ⟨R, hR, hmem⟩ := fromKnownBits_eq false A.pos (KnownBits.not_hasConflict_of_mem (hknown a ha b hb))
  exact ⟨R, hR, fun x hx y hy => (hmem _).mpr
    ⟨min_le_toNat (hknown x hx y hy), toNat_le_max (hknown x hx y hy)⟩⟩

/-- Nothing is in the result of an empty operand, and nothing has to be. -/
theorem spec_of_nonempty {result : Option (ConstantRange w)} {op : BitVec w → BitVec w → BitVec w}
    (h : ¬A.isEmptySet = true → ¬B.isEmptySet = true → ∃ R, result = some R ∧ Contains R A B op) :
    ∃ R, (if A.isEmptySet || B.isEmptySet then some (getEmpty A.pos) else result) = some R ∧
      Contains R A B op := by
  split_ifs with hempty
  · rw [Bool.or_eq_true, isEmptySet_iff_forall, isEmptySet_iff_forall] at hempty
    exact ⟨_, rfl, fun a ha b hb => hempty.elim (fun h => absurd ha (h a)) fun h => absurd hb (h b)⟩
  · rw [Bool.or_eq_true, not_or] at hempty
    exact h hempty.1 hempty.2

theorem binaryAnd_spec (A B : ConstantRange w) :
    ∃ R, binaryAnd A B = some R ∧ Contains R A B (· &&& ·) := by
  refine spec_of_nonempty fun hA hB => ?_
  obtain ⟨R, hR, hmem⟩ := fromKnownBits_sound hA hB fun hx hy => (KnownBits.mem_bitwise hx hy).1
  rw [hR]
  refine ⟨_, rfl, fun a ha b hb => mem_intersectWith (hmem a ha b hb) (mem_upTo.mpr ?_)⟩
  have hand : (a &&& b).toNat ≤ a.toNat ∧ (a &&& b).toNat ≤ b.toNat := by
    rw [BitVec.toNat_and]
    exact ⟨Nat.and_le_left, Nat.and_le_right⟩
  have hmaxA := le_getUnsignedMax ha
  have hmaxB := le_getUnsignedMax hb
  have hmin := toNat_umin B.getUnsignedMax A.getUnsignedMax
  show (a &&& b).toNat ≤ _
  omega

theorem binaryOr_spec (A B : ConstantRange w) :
    ∃ R, binaryOr A B = some R ∧ Contains R A B (· ||| ·) := by
  refine spec_of_nonempty fun hA hB => ?_
  obtain ⟨R, hR, hmem⟩ := fromKnownBits_sound hA hB fun hx hy => (KnownBits.mem_bitwise hx hy).2.1
  rw [hR]
  refine ⟨_, rfl, fun a ha b hb => mem_intersectWith (hmem a ha b hb) (mem_downTo.mpr ?_)⟩
  have hor : a.toNat ≤ (a ||| b).toNat ∧ b.toNat ≤ (a ||| b).toNat := by
    rw [BitVec.toNat_or]
    exact ⟨Nat.left_le_or, Nat.right_le_or⟩
  have hminA := getUnsignedMin_le ha
  have hminB := getUnsignedMin_le hb
  have hmax := toNat_umax A.getUnsignedMin B.getUnsignedMin
  show _ ≤ (a ||| b).toNat
  omega

theorem binaryXor_spec (A B : ConstantRange w) :
    ∃ R, binaryXor A B = some R ∧ Contains R A B (· ^^^ ·) := by
  refine spec_of_nonempty fun hA hB => ?_
  split
  · next x y hx hy =>
    refine ⟨_, rfl, fun a ha b hb => ?_⟩
    rw [eq_of_getSingleElement hx ha, eq_of_getSingleElement hy hb]
    exact mem_ofValue A.pos _
  · split_ifs with hR hL
    · refine ⟨_, rfl, fun a ha b hb => mem_binaryNot.mpr ?_⟩
      show ~~~(a ^^^ b) ∈ A
      rwa [eq_of_getSingleElement hR hb, BitVec.xor_allOnes, BitVec.not_not]
    · refine ⟨_, rfl, fun a ha b hb => mem_binaryNot.mpr ?_⟩
      show ~~~(a ^^^ b) ∈ B
      rwa [eq_of_getSingleElement hL ha, BitVec.allOnes_xor, BitVec.not_not]
    · exact fromKnownBits_sound hA hB fun hx hy => (KnownBits.mem_bitwise hx hy).2.2

end

/-! ## The operators of instructions -/

/-- `Instruction::BinaryOps`. -/
inductive Opcode where
  | Add | FAdd | Sub | FSub | Mul | FMul | UDiv | SDiv | FDiv | URem | SRem | FRem | Shl | LShr | AShr
  | And | Or | Xor

def binaryOp (BinOp : Opcode) (A B : ConstantRange w) : Option (ConstantRange w) :=
  match BinOp with
  -- a floating-point operation is the ideal integer one
  | .Add | .FAdd => some (add A B)
  | .Sub | .FSub => some (sub A B)
  | .Mul | .FMul => multiply A B
  | .UDiv => some (udiv A B)
  | .SDiv => sdiv A B
  | .URem => some (urem A B)
  | .SRem => srem A B
  | .Shl => some (shl A B)
  | .LShr => some (lshr A B)
  | .AShr => some (ashr A B)
  | .And => binaryAnd A B
  | .Or => binaryOr A B
  | .Xor => binaryXor A B
  | .FDiv | .FRem => some (getFull A.pos)

def overflowingBinaryOp (BinOp : Opcode) (A B : ConstantRange w) (NoUnsignedWrap NoSignedWrap : Bool) :
    Option (ConstantRange w) :=
  match BinOp with
  | .Add => some (addWithNoWrap A B NoUnsignedWrap NoSignedWrap .Smallest)
  | .Sub => some (subWithNoWrap A B NoUnsignedWrap NoSignedWrap .Smallest)
  | _ => binaryOp BinOp A B

/-- What an integer instruction computes. -/
def Opcode.eval : Opcode → Option (BitVec w → BitVec w → BitVec w)
  | .Add => some (· + ·)
  | .Sub => some (· - ·)
  | .Mul => some (· * ·)
  | .UDiv => some (· / ·)
  | .SDiv => some BitVec.sdiv
  | .URem => some (· % ·)
  | .SRem => some BitVec.srem
  | .Shl => some fun a b => a <<< b.toNat
  | .LShr => some fun a b => a >>> b.toNat
  | .AShr => some fun a b => a.sshiftRight b.toNat
  | .And => some (· &&& ·)
  | .Or => some (· ||| ·)
  | .Xor => some (· ^^^ ·)
  | .FAdd | .FSub | .FMul | .FDiv | .FRem => none

/-- Where the instruction has a value. -/
def Opcode.Defined (a b : BitVec w) : Opcode → Prop
  | .UDiv | .URem => b ≠ 0
  | .SDiv | .SRem => NoOverflow a b
  | .Shl | .LShr | .AShr => b.toNat < w
  | _ => True

theorem binaryOp_spec (BinOp : Opcode) (A B : ConstantRange w) :
    ∃ R, binaryOp BinOp A B = some R ∧
      ∀ f ∈ BinOp.eval, ∀ a ∈ A, ∀ b ∈ B, BinOp.Defined a b → f a b ∈ R := by
  have hplain : ∀ {result : Option (ConstantRange w)} {f : BitVec w → BitVec w → BitVec w},
      (∃ R, result = some R ∧ Contains R A B f) →
      ∃ R, result = some R ∧ ∀ g ∈ some f, ∀ a ∈ A, ∀ b ∈ B, True → g a b ∈ R := by
    rintro result f ⟨R, hR, hmem⟩
    refine ⟨R, hR, ?_⟩
    rintro g ⟨⟩ a ha b hb -
    exact hmem a ha b hb
  cases BinOp
  case Add => exact hplain ⟨_, rfl, fun a ha b hb => mem_add.mpr ⟨a, ha, b, hb, rfl⟩⟩
  case Sub => exact hplain ⟨_, rfl, fun a ha b hb => mem_sub.mpr ⟨a, ha, b, hb, rfl⟩⟩
  case Mul => exact hplain (multiply_spec A B)
  case And => exact hplain (binaryAnd_spec A B)
  case Or => exact hplain (binaryOr_spec A B)
  case Xor => exact hplain (binaryXor_spec A B)
  case UDiv => exact ⟨_, rfl, by rintro f ⟨⟩ a ha b hb hb0; exact mem_udiv ha hb hb0⟩
  case URem => exact ⟨_, rfl, by rintro f ⟨⟩ a ha b hb hb0; exact mem_urem ha hb hb0⟩
  case SDiv =>
    obtain ⟨R, hR, hmem⟩ := sdiv_spec A B
    exact ⟨R, hR, by rintro f ⟨⟩ a ha b hb hdef; exact hmem a ha b hb hdef.1 hdef.2⟩
  case SRem =>
    obtain ⟨R, hR, hmem⟩ := srem_spec A B
    exact ⟨R, hR, by rintro f ⟨⟩ a ha b hb hdef; exact hmem a ha b hb hdef.1⟩
  case Shl => exact ⟨_, rfl, by rintro f ⟨⟩ a ha b hb hlt; exact mem_shl ha hb hlt⟩
  case LShr => exact ⟨_, rfl, by rintro f ⟨⟩ a ha b hb -; exact mem_lshr ha hb⟩
  case AShr => exact ⟨_, rfl, by rintro f ⟨⟩ a ha b hb -; exact mem_ashr ha hb⟩
  case FMul =>
    obtain ⟨R, hR, -⟩ := multiply_spec A B
    exact ⟨R, hR, nofun⟩
  all_goals exact ⟨_, rfl, nofun⟩

/-- What the flags of an addition or subtraction promise. -/
def Opcode.WrapFree (a b : BitVec w) (NUW NSW : Bool) : Opcode → Prop
  | .Add => (NUW = true → NoWrap .Add a b .NoUnsignedWrap) ∧ (NSW = true → NoWrap .Add a b .NoSignedWrap)
  | .Sub => (NUW = true → NoWrap .Sub a b .NoUnsignedWrap) ∧ (NSW = true → NoWrap .Sub a b .NoSignedWrap)
  | _ => True

/-- **The range of an operator** has every value that the instruction has on members of the
operands' ranges, and with flags the values of what does not wrap. -/
theorem operators_sound (BinOp : Opcode) (A B : ConstantRange w) (NUW NSW : Bool) :
    (∃ R, binaryOp BinOp A B = some R ∧
      ∀ f ∈ BinOp.eval, ∀ a ∈ A, ∀ b ∈ B, BinOp.Defined a b → f a b ∈ R) ∧
    ∃ R, overflowingBinaryOp BinOp A B NUW NSW = some R ∧ ∀ f ∈ BinOp.eval, ∀ a ∈ A, ∀ b ∈ B,
      BinOp.Defined a b → BinOp.WrapFree a b NUW NSW → f a b ∈ R := by
  have hplain := binaryOp_spec BinOp A B
  refine ⟨hplain, ?_⟩
  unfold overflowingBinaryOp
  split
  · exact ⟨_, rfl, by rintro f ⟨⟩ a ha b hb - h; exact mem_addWithNoWrap _ ha hb h.1 h.2⟩
  · exact ⟨_, rfl, by rintro f ⟨⟩ a ha b hb - h; exact mem_subWithNoWrap _ ha hb h.1 h.2⟩
  · obtain ⟨R, hR, hmem⟩ := hplain
    exact ⟨R, hR, fun f hf a ha b hb hdef _ => hmem f hf a ha b hb hdef⟩

end RvLlvm.IR.ConstantRange
