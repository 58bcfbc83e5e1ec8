import RvLlvm.IR.ConstantRange

/-!
# Ranges and comparisons

Model of the regions that `ConstantRange` makes of a comparison
(`llvm/lib/IR/ConstantRange.cpp:95-167`, `:205-245` and `:488-494`, `CmpInst::getInversePredicate` of
`llvm/lib/IR/Instructions.cpp`).

* `mem_makeAllowedICmpRegion`, `mem_makeSatisfyingICmpRegion`: the words that compare so with some
  member of a range, and with every member.
* `getEquivalentICmp_iff`: a range as one comparison of a word with an offset.
-/

namespace RvLlvm.IR

open Support.WordOrder

variable {w : Nat}

/-- The integer part of `CmpInst::Predicate`. -/
inductive Predicate where
  | ICMP_EQ | ICMP_NE | ICMP_UGT | ICMP_UGE | ICMP_ULT | ICMP_ULE
  | ICMP_SGT | ICMP_SGE | ICMP_SLT | ICMP_SLE
deriving DecidableEq, Repr

namespace Predicate

/-- `ICmpInst::compare`. -/
def compare (LHS RHS : BitVec w) : Predicate → Bool
  | ICMP_EQ => LHS == RHS
  | ICMP_NE => LHS != RHS
  | ICMP_UGT => RHS.ult LHS
  | ICMP_UGE => RHS.ule LHS
  | ICMP_ULT => LHS.ult RHS
  | ICMP_ULE => LHS.ule RHS
  | ICMP_SGT => RHS.slt LHS
  | ICMP_SGE => RHS.sle LHS
  | ICMP_SLT => LHS.slt RHS
  | ICMP_SLE => LHS.sle RHS

/-- `CmpInst::getInversePredicate`. -/
def getInversePredicate : Predicate → Predicate
  | ICMP_EQ => ICMP_NE
  | ICMP_NE => ICMP_EQ
  | ICMP_UGT => ICMP_ULE
  | ICMP_ULT => ICMP_UGE
  | ICMP_UGE => ICMP_ULT
  | ICMP_ULE => ICMP_UGT
  | ICMP_SGT => ICMP_SLE
  | ICMP_SLT => ICMP_SGE
  | ICMP_SGE => ICMP_SLT
  | ICMP_SLE => ICMP_SGT

theorem compare_getInversePredicate (LHS RHS : BitVec w) (pred : Predicate) :
    Predicate.compare LHS RHS pred.getInversePredicate = !Predicate.compare LHS RHS pred := by
  cases pred <;>
    simp only [getInversePredicate, Predicate.compare, bne, Bool.not_not, BitVec.ule_eq_not_ult,
      BitVec.sle_eq_not_slt]

/-- A predicate other than the two equalities orders the words as numbers of one kind. -/
theorem compare_iff (LHS RHS : BitVec w) (pred : Predicate) :
    Predicate.compare LHS RHS pred = true ↔
      match pred with
      | ICMP_EQ => LHS.toNat = RHS.toNat
      | ICMP_NE => LHS.toNat ≠ RHS.toNat
      | ICMP_UGT => RHS.toNat < LHS.toNat
      | ICMP_UGE => RHS.toNat ≤ LHS.toNat
      | ICMP_ULT => LHS.toNat < RHS.toNat
      | ICMP_ULE => LHS.toNat ≤ RHS.toNat
      | ICMP_SGT => RHS.toInt < LHS.toInt
      | ICMP_SGE => RHS.toInt ≤ LHS.toInt
      | ICMP_SLT => LHS.toInt < RHS.toInt
      | ICMP_SLE => LHS.toInt ≤ RHS.toInt := by
  cases pred <;>
    simp only [Predicate.compare, beq_iff_eq, bne_iff_ne, Ne, eq_iff, BitVec.ult_iff_lt, BitVec.ule_iff_le,
      BitVec.lt_def, BitVec.le_def, BitVec.slt_iff_toInt_lt, BitVec.sle_iff_toInt_le]

end Predicate

open Predicate

namespace ConstantRange

/-- `makeAllowedICmpRegion`. -/
def makeAllowedICmpRegion (pred : Predicate) (CR : ConstantRange w) : ConstantRange w :=
  if CR.isEmptySet then CR
  else
    have hw := CR.pos
    match pred with
    | ICMP_EQ => CR
    | ICMP_NE =>
      if CR.isSingleElement then ⟨CR.Upper, CR.Lower, CR.inverse_bounds, hw⟩
      else getFull hw
    | ICMP_ULT =>
      let UMax := CR.getUnsignedMax
      if h : UMax = 0 then getEmpty hw else ofNe 0 UMax hw (Ne.symm h)
    | ICMP_SLT =>
      let SMax := CR.getSignedMax
      if h : SMax = BitVec.intMin w then getEmpty hw else ofNe (BitVec.intMin w) SMax hw (Ne.symm h)
    | ICMP_ULE => getNonEmpty 0 (CR.getUnsignedMax + 1) hw
    | ICMP_SLE => getNonEmpty (BitVec.intMin w) (CR.getSignedMax + 1) hw
    | ICMP_UGT =>
      let UMin := CR.getUnsignedMin
      if h : UMin = BitVec.allOnes w then getEmpty hw
      else ofNe (UMin + 1) 0 hw (add_one_ne_zero hw h)
    | ICMP_SGT =>
      let SMin := CR.getSignedMin
      if h : SMin = BitVec.intMax w then getEmpty hw
      else ofNe (SMin + 1) (BitVec.intMin w) hw (add_one_ne_intMin hw h)
    | ICMP_UGE => getNonEmpty CR.getUnsignedMin 0 hw
    | ICMP_SGE => getNonEmpty CR.getSignedMin (BitVec.intMin w) hw

/-- `makeSatisfyingICmpRegion`. -/
def makeSatisfyingICmpRegion (pred : Predicate) (CR : ConstantRange w) : ConstantRange w :=
  (makeAllowedICmpRegion pred.getInversePredicate CR).inverse

/-- `makeExactICmpRegion`. -/
def makeExactICmpRegion (pred : Predicate) (C : BitVec w) (hw : 0 < w) : ConstantRange w :=
  makeAllowedICmpRegion pred (ofValue C hw)

/-- `ConstantRange::icmp`. -/
def icmp (R : ConstantRange w) (pred : Predicate) (Other : ConstantRange w) : Bool :=
  (makeSatisfyingICmpRegion pred Other).containsRange R

/-- What `getEquivalentICmp` sets. -/
structure EquivalentICmp (w : Nat) where
  Pred : Predicate
  RHS : BitVec w
  Offset : BitVec w
deriving DecidableEq

/-- `getEquivalentICmp`. -/
def getEquivalentICmp (R : ConstantRange w) : EquivalentICmp w :=
  if R.isFullSet || R.isEmptySet then ⟨if R.isEmptySet then ICMP_ULT else ICMP_UGE, 0, 0⟩
  else match R.getSingleElement with
    | some OnlyElt => ⟨ICMP_EQ, OnlyElt, 0⟩
    | none =>
      match R.getSingleMissingElement with
      | some OnlyMissingElt => ⟨ICMP_NE, OnlyMissingElt, 0⟩
      | none =>
        if R.Lower = BitVec.intMin w ∨ R.Lower = 0 then
          ⟨if R.Lower = BitVec.intMin w then ICMP_SLT else ICMP_ULT, R.Upper, 0⟩
        else if R.Upper = BitVec.intMin w ∨ R.Upper = 0 then
          ⟨if R.Upper = BitVec.intMin w then ICMP_SGE else ICMP_UGE, R.Lower, 0⟩
        else ⟨ICMP_ULT, R.Upper - R.Lower, -R.Lower⟩

variable {R : ConstantRange w} {x y : BitVec w}

/-! ## Ranges from or to an end of an order -/

variable {hw : 0 < w}

theorem mem_below {U : BitVec w} {h : 0 ≠ U} : x ∈ ofNe 0 U hw h ↔ x.toNat < U.toNat := by
  rw [Ne, eq_iff, toNat_zero] at h
  rw [mem_ofNe, toNat_zero]
  omega

theorem mem_from {L : BitVec w} {h : L ≠ 0} : x ∈ ofNe L 0 hw h ↔ L.toNat ≤ x.toNat := by
  rw [Ne, eq_iff, toNat_zero] at h
  rw [mem_ofNe, toNat_zero]
  omega

theorem mem_signedBelow {U : BitVec w} {h : BitVec.intMin w ≠ U} :
    x ∈ ofNe (BitVec.intMin w) U hw h ↔ x.toInt < U.toInt := by
  have h2 := two_pow_eq hw
  have hx := toInt_cases hw x
  have hU := toInt_cases hw U
  have hxlt := x.isLt
  have hUlt := U.isLt
  rw [Ne, eq_iff, BitVec.toNat_intMin_of_pos hw] at h
  rw [mem_ofNe, BitVec.toNat_intMin_of_pos hw]
  omega

theorem mem_signedFrom {L : BitVec w} {h : L ≠ BitVec.intMin w} :
    x ∈ ofNe L (BitVec.intMin w) hw h ↔ L.toInt ≤ x.toInt := by
  have h2 := two_pow_eq hw
  have hx := toInt_cases hw x
  have hL := toInt_cases hw L
  have hxlt := x.isLt
  have hLlt := L.isLt
  rw [Ne, eq_iff, BitVec.toNat_intMin_of_pos hw] at h
  rw [mem_ofNe, BitVec.toNat_intMin_of_pos hw]
  omega

theorem mem_upTo {U : BitVec w} : x ∈ getNonEmpty 0 (U + 1) hw ↔ x.toNat ≤ U.toNat := by
  have h1 := toNat_one hw
  have hadd := toNat_add_cases U 1
  have hx := x.isLt
  have hU := U.isLt
  rw [mem_getNonEmpty, toNat_zero]
  omega

theorem mem_downTo {L : BitVec w} : x ∈ getNonEmpty L 0 hw ↔ L.toNat ≤ x.toNat := by
  rw [mem_getNonEmpty, toNat_zero]
  omega

theorem mem_signedUpTo {U : BitVec w} :
    x ∈ getNonEmpty (BitVec.intMin w) (U + 1) hw ↔ x.toInt ≤ U.toInt := by
  have h1 := toNat_one hw
  have h2 := two_pow_eq hw
  have hadd := toNat_add_cases U 1
  have hx := toInt_cases hw x
  have hU := toInt_cases hw U
  have hxlt := x.isLt
  have hUlt := U.isLt
  rw [mem_getNonEmpty, BitVec.toNat_intMin_of_pos hw]
  omega

theorem mem_signedDownTo {L : BitVec w} :
    x ∈ getNonEmpty L (BitVec.intMin w) hw ↔ L.toInt ≤ x.toInt := by
  have h2 := two_pow_eq hw
  have hx := toInt_cases hw x
  have hL := toInt_cases hw L
  have hxlt := x.isLt
  have hLlt := L.isLt
  rw [mem_getNonEmpty, BitVec.toNat_intMin_of_pos hw]
  omega

/-! ## The regions of a comparison -/

/-- A property that some member has is one of an extreme member, if it passes on to that. -/
theorem exists_mem_iff {p : BitVec w → Prop} {m : BitVec w} (hm : m ∈ R)
    (hp : ∀ z ∈ R, p z → p m) : (∃ z ∈ R, p z) ↔ p m :=
  ⟨fun ⟨z, hz, h⟩ => hp z hz h, fun h => ⟨m, hm, h⟩⟩

theorem isSingleElement_iff : R.isSingleElement = true ↔ R.Upper = R.Lower + 1 := by
  unfold isSingleElement getSingleElement
  split_ifs with h
  · exact iff_of_true rfl h
  · exact iff_of_false Bool.false_ne_true h

theorem mem_single (h : R.isSingleElement = true) : x ∈ R ↔ x.toNat = R.Lower.toNat := by
  have h1 := toNat_one R.pos
  have hM := two_le R.pos
  have hadd := toNat_add_cases R.Lower 1
  have hx := x.isLt
  have hL := R.Lower.isLt
  rw [isSingleElement_iff, eq_iff] at h
  rw [mem_iff]
  omega

/-- Another member of a range with more than one. -/
theorem exists_other (h : ¬R.isSingleElement = true) (hy : y ∈ R) (x : BitVec w) :
    ∃ z ∈ R, x.toNat ≠ z.toNat := by
  have h1 := toNat_one R.pos
  have hM := two_le R.pos
  have hadd := toNat_add_cases R.Lower 1
  have hL := R.Lower.isLt
  have hU := R.Upper.isLt
  rw [isSingleElement_iff, eq_iff] at h
  by_cases hx : x.toNat = R.Lower.toNat
  · refine ⟨R.Lower + 1, ?_, ?_⟩
    · rw [mem_iff] at hy ⊢
      omega
    · omega
  · refine ⟨R.Lower, ?_, hx⟩
    rw [mem_iff] at hy ⊢
    omega

/-- **The allowed region** of a predicate and a range: the words that compare so with a member. -/
theorem mem_makeAllowedICmpRegion (pred : Predicate) (R : ConstantRange w) (x : BitVec w) :
    x ∈ makeAllowedICmpRegion pred R ↔ ∃ y ∈ R, pred.compare x y = true := by
  unfold makeAllowedICmpRegion
  by_cases hempty : R.isEmptySet = true
  · have hnone := isEmptySet_iff_forall.mp hempty
    rw [if_pos hempty]
    constructor
    · exact fun h => absurd h (hnone x)
    · rintro ⟨y, hy, -⟩
      exact absurd hy (hnone y)
  rw [if_neg hempty]
  obtain ⟨y, hy⟩ := exists_mem hempty
  have hmax : ∀ z ∈ R, z.toNat ≤ R.getUnsignedMax.toNat := fun _ => le_getUnsignedMax
  have hmin : ∀ z ∈ R, R.getUnsignedMin.toNat ≤ z.toNat := fun _ => getUnsignedMin_le
  have hsmax : ∀ z ∈ R, z.toInt ≤ R.getSignedMax.toInt := fun _ => le_getSignedMax
  have hsmin : ∀ z ∈ R, R.getSignedMin.toInt ≤ z.toInt := fun _ => getSignedMin_le
  have h1 := toNat_one R.pos
  simp only [compare_iff]
  cases pred with
  | ICMP_EQ =>
    constructor
    · exact fun h => ⟨x, h, rfl⟩
    · rintro ⟨z, hz, hxz⟩
      rwa [eq_iff.mpr hxz]
  | ICMP_NE =>
    dsimp only
    split_ifs with h
    · have hinverse : x ∈ R.inverse ↔ x ∉ R := mem_inverse
      unfold inverse at hinverse
      rw [if_neg (fun hf => ?_), if_neg hempty] at hinverse
      · rw [hinverse, mem_single h]
        constructor
        · exact fun hx => ⟨_, hy, (mem_single h).mp hy ▸ hx⟩
        · rintro ⟨z, hz, hx⟩
          exact (mem_single h).mp hz ▸ hx
      · obtain ⟨z, hz, hne⟩ : ∃ z : BitVec w, z ∈ R ∧ z.toNat ≠ R.Lower.toNat :=
          ⟨_, isFullSet_iff_forall.mp hf (R.Lower + 1), fun he =>
            ne_add_one R.pos _ (eq_iff.mpr he).symm⟩
        exact hne ((mem_single h).mp hz)
    · simp only [mem_getFull, true_iff]
      exact exists_other h hy x
  | ICMP_ULT =>
    rw [exists_mem_iff (getUnsignedMax_mem hy) fun z hz h => Nat.lt_of_lt_of_le h (hmax z hz)]
    dsimp only
    split_ifs with h
    · rw [h, toNat_zero]
      simp
    · exact mem_below
  | ICMP_ULE =>
    rw [exists_mem_iff (getUnsignedMax_mem hy) fun z hz h => Nat.le_trans h (hmax z hz)]
    exact mem_upTo
  | ICMP_UGT =>
    rw [exists_mem_iff (getUnsignedMin_mem hy) fun z hz h => Nat.lt_of_le_of_lt (hmin z hz) h]
    dsimp only
    have hx := x.isLt
    split_ifs with h
    · rw [h, BitVec.toNat_allOnes]
      simp only [not_mem_getEmpty, false_iff]
      omega
    · have hadd := toNat_add_cases R.getUnsignedMin 1
      rw [eq_iff, BitVec.toNat_allOnes] at h
      rw [mem_from]
      omega
  | ICMP_UGE =>
    rw [exists_mem_iff (getUnsignedMin_mem hy) fun z hz h => Nat.le_trans (hmin z hz) h]
    exact mem_downTo
  | ICMP_SLT =>
    rw [exists_mem_iff (getSignedMax_mem hy) fun z hz h => Int.lt_of_lt_of_le h (hsmax z hz)]
    dsimp only
    split_ifs with h
    · rw [h]
      simp only [not_mem_getEmpty, false_iff]
      exact Int.not_lt.mpr (BitVec.toInt_intMin_le x)
    · exact mem_signedBelow
  | ICMP_SLE =>
    rw [exists_mem_iff (getSignedMax_mem hy) fun z hz h => Int.le_trans h (hsmax z hz)]
    exact mem_signedUpTo
  | ICMP_SGT =>
    rw [exists_mem_iff (getSignedMin_mem hy) fun z hz h => Int.lt_of_le_of_lt (hsmin z hz) h]
    dsimp only
    split_ifs with h
    · rw [h]
      simp only [not_mem_getEmpty, false_iff]
      rw [BitVec.toInt_intMax]
      exact Int.not_lt.mpr BitVec.toInt_le
    · rw [mem_signedFrom, toInt_add_one R.pos h]
      exact Int.add_one_le_iff
  | ICMP_SGE =>
    rw [exists_mem_iff (getSignedMin_mem hy) fun z hz h => Int.le_trans (hsmin z hz) h]
    exact mem_signedDownTo

/-- **The satisfying region**: the words that compare so with every member. -/
theorem mem_makeSatisfyingICmpRegion (pred : Predicate) (R : ConstantRange w) (x : BitVec w) :
    x ∈ makeSatisfyingICmpRegion pred R ↔ ∀ y ∈ R, pred.compare x y = true := by
  unfold makeSatisfyingICmpRegion
  simp only [mem_inverse, mem_makeAllowedICmpRegion, compare_getInversePredicate, Bool.not_eq_true',
    not_exists, not_and, Bool.not_eq_false]

theorem mem_ofValue_iff {C : BitVec w} (hw : 0 < w) : x ∈ ofValue C hw ↔ x = C :=
  (mem_single (isSingleElement_iff.mpr rfl)).trans eq_iff.symm

/-- The assertion of `makeExactICmpRegion`. -/
theorem makeExactICmpRegion_eq (pred : Predicate) (C : BitVec w) (hw : 0 < w) :
    makeExactICmpRegion pred C hw = makeSatisfyingICmpRegion pred (ofValue C hw) := by
  refine eq_of_mem_iff fun x => ?_
  unfold makeExactICmpRegion
  simp only [mem_makeAllowedICmpRegion, mem_makeSatisfyingICmpRegion, mem_ofValue_iff, exists_eq_left,
    forall_eq]

/-- All bytes but -128. -/
theorem makeExactICmpRegion_eq_intMin : makeExactICmpRegion ICMP_SGT (128 : BitVec 8) (by decide) =
    makeSatisfyingICmpRegion ICMP_SGT (ofValue 128 (by decide)) :=
  makeExactICmpRegion_eq ICMP_SGT 128 (by decide)

/-- `icmp` holds where all pairs compare so. -/
theorem icmp_iff (R O : ConstantRange w) (pred : Predicate) :
    R.icmp pred O = true ↔ ∀ x ∈ R, ∀ y ∈ O, pred.compare x y = true := by
  unfold icmp
  rw [containsRange_iff]
  exact forall₂_congr fun x _ => mem_makeSatisfyingICmpRegion pred O x

/-! ## A range as one comparison -/

theorem mem_singleMissing (h : R.Lower = R.Upper + 1) : x ∈ R ↔ x.toNat ≠ R.Upper.toNat := by
  have h1 := toNat_one R.pos
  have hM := two_le R.pos
  have hadd := toNat_add_cases R.Upper 1
  have hx := x.isLt
  have hU := R.Upper.isLt
  rw [eq_iff] at h
  rw [mem_iff]
  omega

/-- **A range is one comparison** of a word and an offset with a constant. -/
theorem getEquivalentICmp_iff (R : ConstantRange w) (x : BitVec w) :
    x ∈ R ↔
      R.getEquivalentICmp.Pred.compare (x + R.getEquivalentICmp.Offset) R.getEquivalentICmp.RHS =
        true := by
  have h2 := two_pow_eq R.pos
  have hB := R.bounds_toNat
  have hL := R.Lower.isLt
  have hU := R.Upper.isLt
  have hx := x.isLt
  have hmin : (BitVec.intMin w).toNat = 2 ^ (w - 1) := BitVec.toNat_intMin_of_pos R.pos
  unfold getEquivalentICmp
  by_cases htrivial : R.isFullSet || R.isEmptySet
  · rw [if_pos htrivial]
    by_cases hempty : R.isEmptySet = true
    · simp [hempty, isEmptySet_iff_forall.mp hempty x, compare_iff]
    · have hfull : R.isFullSet = true := by simpa [hempty] using htrivial
      simp [hempty, isFullSet_iff_forall.mp hfull x, compare_iff]
  rw [if_neg htrivial]
  rw [Bool.or_eq_true, isFullSet_iff, isEmptySet_iff] at htrivial
  unfold getSingleElement
  by_cases hsingle : R.Upper = R.Lower + 1
  · rw [if_pos hsingle, mem_single (isSingleElement_iff.mpr hsingle)]
    simp only [compare_iff, BitVec.ofNat_eq_ofNat, BitVec.add_zero]
  unfold getSingleMissingElement
  by_cases hmissing : R.Lower = R.Upper + 1
  · rw [if_neg hsingle, if_pos hmissing, mem_singleMissing hmissing]
    simp only [compare_iff, BitVec.ofNat_eq_ofNat, BitVec.add_zero]
  rw [if_neg hsingle, if_neg hmissing]
  dsimp only
  simp only [eq_iff, hmin, toNat_zero] at hsingle hmissing ⊢
  by_cases hlow : R.Lower.toNat = 2 ^ (w - 1) ∨ R.Lower.toNat = 0
  · rw [if_pos hlow, mem_iff]
    split_ifs with hlow'
    · have hxi := toInt_cases R.pos x
      have hUi := toInt_cases R.pos R.Upper
      simp only [compare_iff, BitVec.ofNat_eq_ofNat, BitVec.add_zero]
      omega
    · simp only [compare_iff, BitVec.ofNat_eq_ofNat, BitVec.add_zero]
      omega
  rw [if_neg hlow]
  by_cases hup : R.Upper.toNat = 2 ^ (w - 1) ∨ R.Upper.toNat = 0
  · rw [if_pos hup, mem_iff]
    split_ifs with hup'
    · have hxi := toInt_cases R.pos x
      have hLi := toInt_cases R.pos R.Lower
      simp only [compare_iff, BitVec.ofNat_eq_ofNat, BitVec.add_zero]
      omega
    · simp only [compare_iff, BitVec.ofNat_eq_ofNat, BitVec.add_zero]
      omega
  rw [if_neg hup, compare_iff]
  dsimp only
  rw [← BitVec.sub_eq_add_neg]
  refine mem_iff_sub fun he => ?_
  rw [eq_iff] at he
  omega

/-- The two regions and the equivalent comparison say what the comparison says. -/
theorem comparisons_agree (pred : Predicate) (R : ConstantRange w) (x : BitVec w) :
    (x ∈ makeAllowedICmpRegion pred R ↔ ∃ y ∈ R, pred.compare x y = true) ∧
      (x ∈ makeSatisfyingICmpRegion pred R ↔ ∀ y ∈ R, pred.compare x y = true) ∧
      (x ∈ R ↔
        R.getEquivalentICmp.Pred.compare (x + R.getEquivalentICmp.Offset)
          R.getEquivalentICmp.RHS = true) :=
  ⟨mem_makeAllowedICmpRegion pred R x, mem_makeSatisfyingICmpRegion pred R x,
    getEquivalentICmp_iff R x⟩

/-! ## The range of a comparison with an offset -/

/-- `ConstantRange::subtract`. -/
def subtract (A : ConstantRange w) (Val : BitVec w) : ConstantRange w :=
  if h : A.Lower = A.Upper then A
  else ofNe (A.Lower - Val) (A.Upper - Val) A.pos fun he => h ((BitVec.sub_left_inj Val).mp he)

theorem mem_subtract {Val : BitVec w} : x ∈ R.subtract Val ↔ x + Val ∈ R := by
  unfold subtract
  split
  · next h =>
    rw [mem_iff, mem_iff, h]
    omega
  · next h =>
    rw [mem_iff_sub h, mem_iff_sub (R := ofNe ..) fun he => h ((BitVec.sub_left_inj Val).mp he)]
    dsimp only
    rw [show x - (R.Lower - Val) = x + Val - R.Lower by grind,
      show R.Upper - Val - (R.Lower - Val) = R.Upper - R.Lower by grind]

/-- **The equivalent comparison gives the range back.** -/
theorem subtract_makeExactICmpRegion (R : ConstantRange w) :
    (makeExactICmpRegion R.getEquivalentICmp.Pred R.getEquivalentICmp.RHS R.pos).subtract
      R.getEquivalentICmp.Offset = R := by
  refine eq_of_mem_iff fun x => ?_
  rw [mem_subtract, makeExactICmpRegion, mem_makeAllowedICmpRegion, getEquivalentICmp_iff]
  simp only [mem_ofValue_iff, exists_eq_left]

end ConstantRange

end RvLlvm.IR
