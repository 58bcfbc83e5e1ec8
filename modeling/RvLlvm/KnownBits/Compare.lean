import RvLlvm.KnownBits.Counts
import Mathlib.Algebra.Order.Ring.Int

/-!
# Comparisons of known bits

Model of the comparisons of `KnownBits` (`llvm/lib/Support/KnownBits.cpp:337-413`), with the signed
bounds of `llvm/include/llvm/Support/KnownBits.h`.

* `comparisons_exact`: a comparison is decided exactly where all pairs of values agree on it.
-/

namespace RvLlvm.KnownBits

open Support.WordOrder

variable {W : Nat}

/-! ## The functions -/

def isConstant (k : KnownBits W) : Bool := popcount k.Zero + popcount k.One == W

def isUnknown (k : KnownBits W) : Bool := k.Zero == 0 && k.One == 0

def getSignedMinValue (k : KnownBits W) : BitVec W :=
  if k.Zero.msb = false then k.One ||| signMask W else k.One

def getSignedMaxValue (k : KnownBits W) : BitVec W :=
  if k.One.msb = false then ~~~k.Zero &&& ~~~signMask W else ~~~k.Zero

def eq (LHS RHS : KnownBits W) : Option Bool :=
  if LHS.isConstant && RHS.isConstant then some (LHS.One == RHS.One)
  else if LHS.One &&& RHS.Zero ≠ 0 ∨ RHS.One &&& LHS.Zero ≠ 0 then some false
  else none

def ne (LHS RHS : KnownBits W) : Option Bool := (eq LHS RHS).map (!·)

def ugt (LHS RHS : KnownBits W) : Option Bool :=
  if LHS.getMaxValue.ule RHS.getMinValue then some false
  else if RHS.getMaxValue.ult LHS.getMinValue then some true
  else none

def uge (LHS RHS : KnownBits W) : Option Bool := (ugt RHS LHS).map (!·)

def ult (LHS RHS : KnownBits W) : Option Bool := ugt RHS LHS

def ule (LHS RHS : KnownBits W) : Option Bool := uge RHS LHS

def sgt (LHS RHS : KnownBits W) : Option Bool :=
  if LHS.getSignedMaxValue.sle RHS.getSignedMinValue then some false
  else if RHS.getSignedMaxValue.slt LHS.getSignedMinValue then some true
  else none

def sge (LHS RHS : KnownBits W) : Option Bool := (sgt RHS LHS).map (!·)

def slt (LHS RHS : KnownBits W) : Option Bool := sgt RHS LHS

def sle (LHS RHS : KnownBits W) : Option Bool := sge RHS LHS

def clearLowBits (x : BitVec W) (loBits : Nat) : BitVec W := x &&& getHighBitsSet W (W - loBits)

/-! ## Extreme values -/

section

variable {x y Val : BitVec W} {k LHS RHS : KnownBits W} {i : Nat}

theorem signedMin_mem (h : ¬k.hasConflict) : k.getSignedMinValue ∈ k := by
  unfold getSignedMinValue
  split_ifs with hz
  · exact set_mem (min_mem h) (by rwa [BitVec.msb_eq_getLsbD_last] at hz)
  · exact min_mem h

theorem signedMin_le (h : x ∈ k) : k.getSignedMinValue.toInt ≤ x.toInt := by
  rcases Nat.eq_zero_or_pos W with rfl | hW
  · rw [BitVec.eq_nil x, BitVec.eq_nil k.getSignedMinValue]
  have hmsb : k.Zero.msb = false → k.getSignedMinValue.msb = true := fun hz => by
    rw [getSignedMinValue, if_pos hz, BitVec.msb_or, signMask, BitVec.msb_twoPow, decide_eq_true rfl,
      decide_eq_true (show W - 1 < W by omega), Bool.and_true, Bool.or_true]
  have hzero : k.Zero.msb = true → x.msb = false := msb_of_isNonNegative h
  -- a bit of the bound is known, or it is the sign
  have hbits : (k.Zero.msb = false → x.msb = true) → k.getSignedMinValue.toNat ≤ x.toNat := fun hsign =>
    toNat_le_of_subset fun i hi => by
      unfold getSignedMinValue at hi
      split_ifs at hi with hz
      · have hiW := BitVec.lt_of_getLsbD hi
        rw [BitVec.getLsbD_or, getLsbD_signMask hiW, Bool.or_eq_true, decide_eq_true_eq] at hi
        refine hi.elim (mem_iff.mp h i).2 fun hlast => ?_
        rw [hlast, ← BitVec.msb_eq_getLsbD_last]
        exact hsign hz
      · exact (mem_iff.mp h i).2 hi
  rw [BitVec.toInt_eq_msb_cond, BitVec.toInt_eq_msb_cond]
  have hlt := k.getSignedMinValue.isLt
  cases hx : x.msb <;> cases hz : k.Zero.msb
  · rw [hmsb hz, if_pos rfl, if_neg Bool.false_ne_true]
    omega
  · have hmin := hbits fun h => absurd (hz.symm.trans h) (by decide)
    rw [if_neg Bool.false_ne_true]
    split_ifs <;> omega
  · have hmin := hbits fun _ => hx
    rw [hmsb hz, if_pos rfl, if_pos rfl]
    omega
  · exact absurd (hzero hz) (by rw [hx]; decide)

theorem getSignedMaxValue_eq (k : KnownBits W) : k.getSignedMaxValue = ~~~k.swap.getSignedMinValue := by
  unfold getSignedMaxValue getSignedMinValue swap
  split_ifs with h
  · rw [BitVec.not_or]
  · rfl

theorem signedMax_mem (h : ¬k.hasConflict) : k.getSignedMaxValue ∈ k := by
  rw [getSignedMaxValue_eq, ← swap_mem, BitVec.not_not]
  exact signedMin_mem (swap_not_hasConflict h)

theorem le_signedMax (h : x ∈ k) : x.toInt ≤ k.getSignedMaxValue.toInt := by
  rcases Nat.eq_zero_or_pos W with rfl | hW
  · rw [BitVec.eq_nil x, BitVec.eq_nil k.getSignedMaxValue]
  have hnot : ∀ y : BitVec W, (~~~y).toInt = -1 - y.toInt := fun y => by
    have hy := toInt_cases hW y
    have hy' := toInt_cases hW (~~~y)
    have hlt := y.isLt
    have h2 := two_pow_eq hW
    rw [BitVec.toNat_not] at hy'
    omega
  have hmin := signedMin_le (swap_mem.mpr h)
  rw [getSignedMaxValue_eq, hnot]
  rw [hnot] at hmin
  omega

theorem or_signMask (h : x.msb = true) : x ||| signMask W = x := by
  refine BitVec.eq_of_getLsbD_eq fun i hi => ?_
  rw [BitVec.getLsbD_or, getLsbD_signMask hi]
  by_cases hlast : i = W - 1
  · rw [hlast, ← BitVec.msb_eq_getLsbD_last, h, Bool.true_or]
  · rw [decide_eq_false hlast, Bool.or_false]

/-- Where the sign is known, the signed bounds are the unsigned ones. -/
theorem signedBounds_of_sign (hsign : (k.isNegative || k.isNonNegative) = true) :
    k.getSignedMinValue = k.getMinValue ∧ k.getSignedMaxValue = k.getMaxValue := by
  unfold getSignedMinValue getSignedMaxValue getMinValue getMaxValue
  rw [← BitVec.not_or]
  cases hneg : k.isNegative with
  | true => exact ⟨by rw [or_signMask hneg, ite_self], if_neg (by simpa [isNegative] using hneg)⟩
  | false =>
    have hzero : k.Zero.msb = true := by rwa [hneg, Bool.false_or] at hsign
    exact ⟨if_neg (by rw [hzero]; decide), by rw [or_signMask hzero, ite_self]⟩

/-! ## Comparisons -/

theorem isConstant_iff (h : ¬k.hasConflict) :
    k.isConstant = true ↔ ∀ i < W, k.Zero.getLsbD i = true ∨ k.One.getLsbD i = true := by
  have hdisj : Disjoint ((Finset.range W).filter fun i => k.Zero.getLsbD i = true)
      ((Finset.range W).filter fun i => k.One.getLsbD i = true) :=
    Finset.disjoint_filter.mpr fun i _ hz => by rw [bit_of_not_hasConflict h hz]; decide
  have hall := Finset.card_filter_eq_iff (p := fun i => k.Zero.getLsbD i = true ∨ k.One.getLsbD i = true)
    (s := Finset.range W)
  rw [Finset.card_range] at hall
  simp only [Finset.mem_range] at hall
  rw [isConstant, beq_iff_eq, popcount, popcount, ← Finset.card_union_of_disjoint hdisj,
    ← Finset.filter_or, hall]

/-- Without unknown bits there is one value. -/
theorem eq_of_isConstant (h : k.isConstant = true) (hx : x ∈ k) : x = k.One := by
  refine BitVec.eq_of_getLsbD_eq fun i hi => ?_
  have hbit := mem_iff.mp hx i
  rcases (isConstant_iff (not_hasConflict_of_mem hx)).mp h i hi with hz | ho
  · rw [hbit.1 hz, bit_of_not_hasConflict (not_hasConflict_of_mem hx) hz]
  · rw [hbit.2 ho, ho]

theorem isConstant_of_eq (h : ¬k.hasConflict) (heq : k.getMinValue = k.getMaxValue) :
    k.isConstant = true := by
  refine (isConstant_iff h).mpr fun i hi => ?_
  have hbit := getLsbD_max (k := k) hi
  rw [← heq, getMinValue] at hbit
  rw [hbit]
  cases k.Zero.getLsbD i <;> simp

/-- A comparison is decided exactly where all pairs of values agree on it. -/
def Decides (result : Option Bool) (p : BitVec W → BitVec W → Bool) (LHS RHS : KnownBits W) : Prop :=
  ∀ b, result = some b ↔ ∀ x ∈ LHS, ∀ y ∈ RHS, p x y = b

variable {p q : BitVec W → BitVec W → Bool} {result : Option Bool}

theorem Decides.not (h : Decides result p LHS RHS) (hq : ∀ x y, q x y = !p x y) :
    Decides (result.map (!·)) q LHS RHS := by
  intro b
  rw [show result.map (!·) = some b ↔ result = some !b by cases result <;> simp [Bool.not_eq_eq_eq_not]]
  simp only [hq, h (!b), Bool.not_eq_eq_eq_not]

theorem Decides.swap (h : Decides result p LHS RHS) : Decides result (fun x y => p y x) RHS LHS :=
  fun b => (h b).trans forall₂_comm

theorem decides_gt {f : BitVec W → Int} {lo hi lo' hi' : BitVec W} (hlo : lo ∈ LHS) (hhi : hi ∈ LHS)
    (hlo' : lo' ∈ RHS) (hhi' : hi' ∈ RHS) (hL : ∀ x ∈ LHS, f lo ≤ f x ∧ f x ≤ f hi)
    (hR : ∀ y ∈ RHS, f lo' ≤ f y ∧ f y ≤ f hi') :
    Decides (if f hi ≤ f lo' then some false else if f hi' < f lo then some true else none)
      (fun x y => decide (f y < f x)) LHS RHS := by
  have hall : (∀ x ∈ LHS, ∀ y ∈ RHS, f x ≤ f y) ↔ f hi ≤ f lo' :=
    ⟨fun h => h hi hhi lo' hlo', fun h x hx y hy => ((hL x hx).2.trans h).trans (hR y hy).1⟩
  have hall' : (∀ x ∈ LHS, ∀ y ∈ RHS, f y < f x) ↔ f hi' < f lo :=
    ⟨fun h => h lo hlo hi' hhi', fun h x hx y hy => ((hR y hy).2.trans_lt h).trans_le (hL x hx).1⟩
  have hnot : f hi ≤ f lo' → ¬f hi' < f lo := fun h h' =>
    absurd (hall'.mpr h' hi hhi lo' hlo') (Int.not_lt.mpr h)
  intro b
  cases b with
  | false =>
    simp only [decide_eq_false_iff_not, Int.not_lt, hall]
    split_ifs <;> simp_all
  | true =>
    simp only [decide_eq_true_eq, hall']
    split_ifs <;> simp_all

/-- A value with the one bits of two is in both, where they do not clash. -/
theorem or_mem (h : ¬k.hasConflict) (hy : y &&& k.Zero = 0) : k.One ||| y ∈ k := by
  refine mem_iff.mpr fun i => ⟨fun hz => ?_, fun ho => ?_⟩
  · rw [BitVec.getLsbD_or, bit_of_not_hasConflict h hz, and_eq_zero_iff.mp hy i hz, Bool.false_or]
  · rw [BitVec.getLsbD_or, ho, Bool.true_or]

theorem and_eq_zero_of_mem (hx : x ∈ LHS) (hx' : x ∈ RHS) : LHS.One &&& RHS.Zero = 0 :=
  and_eq_zero_iff.mpr fun i hz => Bool.eq_false_iff.mpr fun ho =>
    absurd ((mem_iff.mp hx i).2 ho) (by rw [(mem_iff.mp hx' i).1 hz]; decide)

theorem decides_eq (hL : ¬LHS.hasConflict) (hR : ¬RHS.hasConflict) :
    Decides (eq LHS RHS) (fun x y => x == y) LHS RHS := by
  intro b
  unfold eq
  cases b with
  | true =>
    simp only [beq_iff_eq]
    constructor
    · intro h x hx y hy
      split_ifs at h with hconst hclash
      · rw [Bool.and_eq_true] at hconst
        rw [eq_of_isConstant hconst.1 hx, eq_of_isConstant hconst.2 hy]
        exact beq_iff_eq.mp (Option.some.inj h)
      · simp at h
    · intro h
      have hmin := h _ (min_mem hL) _ (min_mem hR)
      have hcL := isConstant_of_eq hL (hmin.trans (h _ (max_mem hL) _ (min_mem hR)).symm)
      have hcR := isConstant_of_eq hR (hmin.symm.trans (h _ (min_mem hL) _ (max_mem hR)))
      rw [hcL, hcR, Bool.and_true, if_pos rfl]
      exact congrArg some (beq_iff_eq.mpr hmin)
  | false =>
    simp only [beq_eq_false_iff_ne]
    constructor
    · intro h x hx y hy heq
      subst heq
      split_ifs at h with hconst hclash
      · rw [Bool.and_eq_true] at hconst
        rw [← eq_of_isConstant hconst.1 hx, ← eq_of_isConstant hconst.2 hy] at h
        simp at h
      · exact hclash.elim (· (and_eq_zero_of_mem hx hy)) (· (and_eq_zero_of_mem hy hx))
    · intro h
      split_ifs with hconst hclash
      · exact congrArg some (beq_eq_false_iff_ne.mpr (h _ (min_mem hL) _ (min_mem hR)))
      · rfl
      · rw [not_or, not_not, not_not] at hclash
        exact absurd (BitVec.or_comm _ _) (h _ (or_mem hL hclash.2) _ (or_mem hR hclash.1))

theorem decides_ugt (hL : ¬LHS.hasConflict) (hR : ¬RHS.hasConflict) :
    Decides (ugt LHS RHS) (fun x y => y.ult x) LHS RHS := by
  have h := decides_gt (f := fun x => (x.toNat : Int)) (min_mem hL) (max_mem hL) (min_mem hR) (max_mem hR)
    (fun x hx => ⟨Int.ofNat_le.mpr (min_le_toNat hx), Int.ofNat_le.mpr (toNat_le_max hx)⟩)
    (fun x hx => ⟨Int.ofNat_le.mpr (min_le_toNat hx), Int.ofNat_le.mpr (toNat_le_max hx)⟩)
  simp only [Int.ofNat_le, Int.ofNat_lt] at h
  unfold ugt
  simp only [BitVec.ule_eq_decide, BitVec.ult_eq_decide, decide_eq_true_eq]
  exact h

theorem decides_sgt (hL : ¬LHS.hasConflict) (hR : ¬RHS.hasConflict) :
    Decides (sgt LHS RHS) (fun x y => y.slt x) LHS RHS := by
  have h := decides_gt (f := BitVec.toInt) (signedMin_mem hL) (signedMax_mem hL) (signedMin_mem hR)
    (signedMax_mem hR) (fun x hx => ⟨signedMin_le hx, le_signedMax hx⟩)
    (fun x hx => ⟨signedMin_le hx, le_signedMax hx⟩)
  unfold sgt
  simp only [BitVec.sle_eq_decide, BitVec.slt_eq_decide, decide_eq_true_eq]
  exact h

/-- Each comparison, with what it compares. -/
structure ComparisonsExact (LHS RHS : KnownBits W) : Prop where
  eq : Decides (eq LHS RHS) (fun x y => x == y) LHS RHS
  ne : Decides (ne LHS RHS) (fun x y => x != y) LHS RHS
  ugt : Decides (ugt LHS RHS) (fun x y => y.ult x) LHS RHS
  uge : Decides (uge LHS RHS) (fun x y => y.ule x) LHS RHS
  ult : Decides (ult LHS RHS) (fun x y => x.ult y) LHS RHS
  ule : Decides (ule LHS RHS) (fun x y => x.ule y) LHS RHS
  sgt : Decides (sgt LHS RHS) (fun x y => y.slt x) LHS RHS
  sge : Decides (sge LHS RHS) (fun x y => y.sle x) LHS RHS
  slt : Decides (slt LHS RHS) (fun x y => x.slt y) LHS RHS
  sle : Decides (sle LHS RHS) (fun x y => x.sle y) LHS RHS

/-- **The comparisons are exact**: a result is given exactly where all pairs of values have it. -/
theorem comparisons_exact (hL : ¬LHS.hasConflict) (hR : ¬RHS.hasConflict) :
    ComparisonsExact LHS RHS where
  eq := decides_eq hL hR
  ne := (decides_eq hL hR).not fun _ _ => rfl
  ugt := decides_ugt hL hR
  uge := (decides_ugt hR hL).swap.not fun _ _ => BitVec.ule_eq_not_ult _ _
  ult := (decides_ugt hR hL).swap
  ule := (decides_ugt hL hR).not fun _ _ => BitVec.ule_eq_not_ult _ _
  sgt := decides_sgt hL hR
  sge := (decides_sgt hR hL).swap.not fun _ _ => BitVec.sle_eq_not_slt
  slt := (decides_sgt hR hL).swap
  sle := (decides_sgt hL hR).not fun _ _ => BitVec.sle_eq_not_slt

/-- `1???` and `0??1`, of four bits. -/
theorem comparisons_exact_four : ComparisonsExact (⟨0, 8⟩ : KnownBits 4) ⟨8, 1⟩ :=
  comparisons_exact (by decide) (by decide)

end

end RvLlvm.KnownBits
