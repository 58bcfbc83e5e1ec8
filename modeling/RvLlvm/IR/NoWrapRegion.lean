import RvLlvm.IR.ICmpRegion
import RvLlvm.IR.RangeSets
import RvLlvm.IR.RoundingDivision

/-!
# Regions without overflow

Model of `makeGuaranteedNoWrapRegion` and of the `MayOverflow` functions
(`llvm/lib/IR/ConstantRange.cpp:247-361` and `:1728-1839`). A shift by the width or more is poison,
whatever its flags.

* `mem_makeGuaranteedNoWrapRegion`: apart from shifts, a region is exact for every range with a
  member.
* `noWrap_shl_of_mem`, `mem_shl_of_noWrap`: the region of a shift is safe, and exact for one amount.
* `noWrap_regions`: all of it, with the verdicts.
-/

namespace RvLlvm.IR

open Support.WordOrder

variable {w : Nat}

inductive NoWrapKind where
  | NoUnsignedWrap | NoSignedWrap
deriving DecidableEq

/-- The binary operations that have a region. -/
inductive BinaryOp where
  | Add | Sub | Mul | Shl
deriving DecidableEq

/-- The exact result of an operation on numbers. -/
def BinaryOp.exact (x y : Int) (shift : Nat) : BinaryOp → Int
  | .Add => x + y
  | .Sub => x - y
  | .Mul => x * y
  | .Shl => x * 2 ^ shift

/-- The result fits the word, in the flagged sense, or there is none. -/
def NoWrap (op : BinaryOp) (x y : BitVec w) : NoWrapKind → Prop
  | .NoUnsignedWrap =>
    (op = .Shl → y.toNat < w) →
      0 ≤ op.exact x.toNat y.toNat y.toNat ∧ op.exact x.toNat y.toNat y.toNat < 2 ^ w
  | .NoSignedWrap =>
    (op = .Shl → y.toNat < w) →
      -2 ^ (w - 1) ≤ op.exact x.toInt y.toInt y.toNat ∧
        op.exact x.toInt y.toInt y.toNat < 2 ^ (w - 1)

namespace ConstantRange

/-- `makeExactMulNUWRegion`. -/
def makeExactMulNUWRegion (V : BitVec w) (hw : 0 < w) : ConstantRange w :=
  if V = 0 then getFull hw
  else getNonEmpty (roundingUDiv 0 V .UP) (roundingUDiv (BitVec.allOnes w) V .DOWN + 1) hw

/-- `makeExactMulNSWRegion`. -/
def makeExactMulNSWRegion (V : BitVec w) (hw : 0 < w) : ConstantRange w :=
  let MinValue := BitVec.intMin w
  let MaxValue := BitVec.intMax w
  if V = 0 then getFull hw
  else if V = BitVec.allOnes w then ofNe (-MaxValue) MinValue hw (neg_intMax_ne_intMin hw)
  else if V.msb then
    getNonEmpty (roundingSDiv MaxValue V .UP) (roundingSDiv MinValue V .DOWN + 1) hw
  else getNonEmpty (roundingSDiv MinValue V .UP) (roundingSDiv MaxValue V .DOWN + 1) hw

/-- `makeGuaranteedNoWrapRegion`. -/
def makeGuaranteedNoWrapRegion (op : BinaryOp) (Other : ConstantRange w) (kind : NoWrapKind) :
    ConstantRange w :=
  have hw := Other.pos
  let SignedMinVal := BitVec.intMin w
  let SMin := Other.getSignedMin
  let SMax := Other.getSignedMax
  match op, kind with
  | .Add, .NoUnsignedWrap => getNonEmpty 0 (-Other.getUnsignedMax) hw
  | .Add, .NoSignedWrap =>
    getNonEmpty (if SMin.msb then SignedMinVal - SMin else SignedMinVal)
      (if (0 : BitVec w).slt SMax then SignedMinVal - SMax else SignedMinVal) hw
  | .Sub, .NoUnsignedWrap => getNonEmpty Other.getUnsignedMax 0 hw
  | .Sub, .NoSignedWrap =>
    getNonEmpty (if (0 : BitVec w).slt SMax then SignedMinVal + SMax else SignedMinVal)
      (if SMin.msb then SignedMinVal + SMin else SignedMinVal) hw
  | .Mul, .NoUnsignedWrap => makeExactMulNUWRegion Other.getUnsignedMax hw
  | .Mul, .NoSignedWrap =>
    intersectWith (makeExactMulNSWRegion SMin hw) (makeExactMulNSWRegion SMax hw) .Smallest
  | .Shl, kind =>
    let ShAmt := intersectWith Other (ofNe 0 (BitVec.ofNat w w) hw (zero_ne_width hw)) .Smallest
    if ShAmt.isEmptySet then getFull hw
    else
      let ShAmtUMax := ShAmt.getUnsignedMax
      match kind with
      | .NoUnsignedWrap => getNonEmpty 0 (BitVec.allOnes w >>> ShAmtUMax.toNat + 1) hw
      | .NoSignedWrap =>
        getNonEmpty ((BitVec.intMin w).sshiftRight ShAmtUMax.toNat)
          ((BitVec.intMax w).sshiftRight ShAmtUMax.toNat + 1) hw

/-! ## Verdicts -/

inductive OverflowResult where
  | AlwaysOverflowsLow | AlwaysOverflowsHigh | MayOverflow | NeverOverflows
deriving DecidableEq

/-- `unsignedAddMayOverflow`. -/
def unsignedAddMayOverflow (R Other : ConstantRange w) : OverflowResult :=
  if R.isEmptySet || Other.isEmptySet then .MayOverflow
  else if ~~~Other.getUnsignedMin < R.getUnsignedMin then .AlwaysOverflowsHigh
  else if ~~~Other.getUnsignedMax < R.getUnsignedMax then .MayOverflow
  else .NeverOverflows

/-- `signedAddMayOverflow`. -/
def signedAddMayOverflow (R Other : ConstantRange w) : OverflowResult :=
  let Min := R.getSignedMin
  let Max := R.getSignedMax
  let OtherMin := Other.getSignedMin
  let OtherMax := Other.getSignedMax
  let SignedMin := BitVec.intMin w
  let SignedMax := BitVec.intMax w
  if R.isEmptySet || Other.isEmptySet then .MayOverflow
  else if !Min.msb && !OtherMin.msb && (SignedMax - OtherMin).slt Min then .AlwaysOverflowsHigh
  else if Max.msb && OtherMax.msb && Max.slt (SignedMin - OtherMax) then .AlwaysOverflowsLow
  else if !Max.msb && !OtherMax.msb && (SignedMax - OtherMax).slt Max then .MayOverflow
  else if Min.msb && OtherMin.msb && Min.slt (SignedMin - OtherMin) then .MayOverflow
  else .NeverOverflows

/-- `unsignedSubMayOverflow`. -/
def unsignedSubMayOverflow (R Other : ConstantRange w) : OverflowResult :=
  if R.isEmptySet || Other.isEmptySet then .MayOverflow
  else if R.getUnsignedMax < Other.getUnsignedMin then .AlwaysOverflowsLow
  else if R.getUnsignedMin < Other.getUnsignedMax then .MayOverflow
  else .NeverOverflows

/-- `signedSubMayOverflow`. -/
def signedSubMayOverflow (R Other : ConstantRange w) : OverflowResult :=
  let Min := R.getSignedMin
  let Max := R.getSignedMax
  let OtherMin := Other.getSignedMin
  let OtherMax := Other.getSignedMax
  let SignedMin := BitVec.intMin w
  let SignedMax := BitVec.intMax w
  if R.isEmptySet || Other.isEmptySet then .MayOverflow
  else if !Min.msb && OtherMax.msb && (SignedMax + OtherMax).slt Min then .AlwaysOverflowsHigh
  else if Max.msb && !OtherMin.msb && Max.slt (SignedMin + OtherMin) then .AlwaysOverflowsLow
  else if !Max.msb && OtherMin.msb && (SignedMax + OtherMin).slt Max then .MayOverflow
  else if Min.msb && !OtherMax.msb && Min.slt (SignedMin + OtherMax) then .MayOverflow
  else .NeverOverflows

/-- `unsignedMulMayOverflow`. -/
def unsignedMulMayOverflow (R Other : ConstantRange w) : OverflowResult :=
  if R.isEmptySet || Other.isEmptySet then .MayOverflow
  else if BitVec.umulOverflow R.getUnsignedMin Other.getUnsignedMin then .AlwaysOverflowsHigh
  else if BitVec.umulOverflow R.getUnsignedMax Other.getUnsignedMax then .MayOverflow
  else .NeverOverflows

variable {R O : ConstantRange w} {x y : BitVec w}

theorem toInt_bounds (hw : 0 < w) (x : BitVec w) :
    -2 ^ (w - 1) ≤ x.toInt ∧ x.toInt < 2 ^ (w - 1) := by
  exact ⟨BitVec.le_toInt x, BitVec.toInt_lt⟩

/-! ## Intervals of signed numbers -/

variable {hw : 0 < w} {V : BitVec w}

theorem mem_signedInterval {L U : BitVec w} (h : L.toInt ≤ U.toInt) :
    x ∈ getNonEmpty L (U + 1) hw ↔ L.toInt ≤ x.toInt ∧ x.toInt ≤ U.toInt := by
  have h1 := toNat_one hw
  have h2 := two_pow_eq hw
  have hadd := toNat_add_cases U 1
  have hx := toInt_cases hw x
  have hL := toInt_cases hw L
  have hU := toInt_cases hw U
  have hxlt := x.isLt
  have hLlt := L.isLt
  have hUlt := U.isLt
  rw [mem_getNonEmpty]
  omega

/-- A range of the signed numbers from a negative one or zero to zero or a positive one. -/
def AroundZero (R : ConstantRange w) : Prop :=
  ∃ L U : BitVec w, L.toInt ≤ 0 ∧ 0 ≤ U.toInt ∧ ∀ x, x ∈ R ↔ L.toInt ≤ x.toInt ∧ x.toInt ≤ U.toInt

theorem mem_intersectWith_aroundZero {A B : ConstantRange w} (hA : AroundZero A)
    (hB : AroundZero B) (type : PreferredRangeType) :
    x ∈ intersectWith A B type ↔ x ∈ A ∧ x ∈ B := by
  obtain ⟨L, U, hL, hU, hmemA⟩ := hA
  obtain ⟨L', U', hL', hU', hmemB⟩ := hB
  obtain ⟨lo, hlo, hlow⟩ : ∃ lo : BitVec w, lo.toInt ≤ 0 ∧
      ∀ n : Int, lo.toInt ≤ n ↔ L.toInt ≤ n ∧ L'.toInt ≤ n := by
    rcases Int.le_total L.toInt L'.toInt with h | h
    · exact ⟨L', hL', by omega⟩
    · exact ⟨L, hL, by omega⟩
  obtain ⟨up, hup, hupper⟩ : ∃ up : BitVec w, 0 ≤ up.toInt ∧
      ∀ n : Int, n ≤ up.toInt ↔ n ≤ U.toInt ∧ n ≤ U'.toInt := by
    rcases Int.le_total U.toInt U'.toInt with h | h
    · exact ⟨U, hU, by omega⟩
    · exact ⟨U', hU', by omega⟩
  refine intersectWith_exact ⟨getNonEmpty lo (up + 1) A.pos, fun y => ?_⟩
  rw [mem_signedInterval (by omega), hlow, hupper, hmemA, hmemB]
  tauto

/-! ## The bounds of the regions -/

theorem mem_addUnsigned {m : BitVec w} : x ∈ getNonEmpty 0 (-m) hw ↔ x.toNat + m.toNat < 2 ^ w := by
  have hneg := toNat_neg_cases m
  have hx := x.isLt
  have hm := m.isLt
  rw [mem_getNonEmpty, toNat_zero]
  omega

/-- A range from a negative bound or zero to a bound from zero on. -/
theorem mem_signedWindow {L U : BitVec w} {l : Int}
    (hl : L.toNat = 0 ∧ l = 0 ∧ 0 < U.toNat ∨ 2 ^ (w - 1) ≤ L.toNat ∧ l = L.toNat - (2 ^ w : Nat))
    (hu : U.toNat ≤ 2 ^ (w - 1)) : x ∈ getNonEmpty L U hw ↔ l ≤ x.toInt ∧ x.toInt < U.toNat := by
  have h2 := two_pow_eq hw
  have hx := toInt_cases hw x
  have hxlt := x.isLt
  have hLlt := L.isLt
  rw [mem_getNonEmpty]
  omega

/-- `SMin - V` for a negative `V`, as a lower bound. -/
theorem toNat_intMin_sub_neg (hw : 0 < w) (h : V.toInt < 0) :
    (BitVec.intMin w - V).toNat = 0 ∧ V.toInt = -(2 ^ (w - 1) : Nat) ∨
      2 ^ (w - 1) ≤ (BitVec.intMin w - V).toNat ∧
        -(2 ^ (w - 1) : Nat) - V.toInt = (BitVec.intMin w - V).toNat - (2 ^ w : Nat) := by
  have h2 := two_pow_eq hw
  have hmin := toNat_intMin hw
  have hV := toInt_cases hw V
  have hVlt := V.isLt
  have hsub := toNat_sub_cases (BitVec.intMin w) V
  omega

/-- `SMin - V` for a positive `V`, as an upper bound. -/
theorem toNat_intMin_sub_pos (hw : 0 < w) (h : 0 < V.toInt) :
    0 < (BitVec.intMin w - V).toNat ∧
      ((BitVec.intMin w - V).toNat : Int) = (2 ^ (w - 1) : Nat) - V.toInt := by
  have h2 := two_pow_eq hw
  have hmin := toNat_intMin hw
  have hV := toInt_cases hw V
  have hVlt := V.isLt
  have hsub := toNat_sub_cases (BitVec.intMin w) V
  omega

/-- `SMin + V` for a positive `V`, as a lower bound. -/
theorem toNat_intMin_add_pos (hw : 0 < w) (h : 0 < V.toInt) :
    2 ^ (w - 1) ≤ (BitVec.intMin w + V).toNat ∧
      -(2 ^ (w - 1) : Nat) + V.toInt = (BitVec.intMin w + V).toNat - (2 ^ w : Nat) := by
  have h2 := two_pow_eq hw
  have hmin := toNat_intMin hw
  have hV := toInt_cases hw V
  have hVlt := V.isLt
  have hadd := toNat_add_cases (BitVec.intMin w) V
  omega

/-- `SMin + V` for a negative `V`, as an upper bound. -/
theorem toNat_intMin_add_neg (hw : 0 < w) (h : V.toInt < 0) :
    ((BitVec.intMin w + V).toNat : Int) = (2 ^ (w - 1) : Nat) + V.toInt := by
  have h2 := two_pow_eq hw
  have hmin := toNat_intMin hw
  have hV := toInt_cases hw V
  have hVlt := V.isLt
  have hadd := toNat_add_cases (BitVec.intMin w) V
  omega

theorem mem_addSigned {lo up : BitVec w} (h : lo.toInt ≤ up.toInt) :
    x ∈ getNonEmpty (if lo.msb then BitVec.intMin w - lo else BitVec.intMin w)
        (if (0 : BitVec w).slt up then BitVec.intMin w - up else BitVec.intMin w) hw ↔
      -2 ^ (w - 1) ≤ x.toInt + lo.toInt ∧ x.toInt + up.toInt < 2 ^ (w - 1) := by
  have h2 := two_pow_eq hw
  have hmin := toNat_intMin hw
  have hpos : 0 < 2 ^ (w - 1) := Nat.two_pow_pos _
  have hx := toInt_bounds hw x
  have hzero : (0 : BitVec w).toInt = 0 := BitVec.toInt_zero
  simp only [msb_iff hw, BitVec.slt_iff_toInt_lt, hzero]
  rw [two_pow_cast] at hx ⊢
  split_ifs with hlo hup hup
  · have hL := toNat_intMin_sub_neg hw hlo
    have hU := toNat_intMin_sub_pos hw hup
    rw [mem_signedWindow (l := -(2 ^ (w - 1) : Nat) - lo.toInt) (by omega) (by omega)]
    omega
  · have hL := toNat_intMin_sub_neg hw hlo
    rw [mem_signedWindow (l := -(2 ^ (w - 1) : Nat) - lo.toInt) (by omega) (by omega)]
    omega
  · have hU := toNat_intMin_sub_pos hw hup
    rw [mem_signedWindow (l := -(2 ^ (w - 1) : Nat)) (by omega) (by omega)]
    omega
  · rw [mem_signedWindow (l := -(2 ^ (w - 1) : Nat)) (by omega) (by omega)]
    omega

theorem mem_subSigned {lo up : BitVec w} (h : lo.toInt ≤ up.toInt) :
    x ∈ getNonEmpty (if (0 : BitVec w).slt up then BitVec.intMin w + up else BitVec.intMin w)
        (if lo.msb then BitVec.intMin w + lo else BitVec.intMin w) hw ↔
      -2 ^ (w - 1) ≤ x.toInt - up.toInt ∧ x.toInt - lo.toInt < 2 ^ (w - 1) := by
  have h2 := two_pow_eq hw
  have hmin := toNat_intMin hw
  have hpos : 0 < 2 ^ (w - 1) := Nat.two_pow_pos _
  have hx := toInt_bounds hw x
  have hzero : (0 : BitVec w).toInt = 0 := BitVec.toInt_zero
  simp only [msb_iff hw, BitVec.slt_iff_toInt_lt, hzero]
  rw [two_pow_cast] at hx ⊢
  split_ifs with hup hlo hlo
  · have hL := toNat_intMin_add_pos hw hup
    have hU := toNat_intMin_add_neg hw hlo
    rw [mem_signedWindow (l := -(2 ^ (w - 1) : Nat) + up.toInt) (by omega) (by omega)]
    omega
  · have hL := toNat_intMin_add_pos hw hup
    rw [mem_signedWindow (l := -(2 ^ (w - 1) : Nat) + up.toInt) (by omega) (by omega)]
    omega
  · have hU := toNat_intMin_add_neg hw hlo
    rw [mem_signedWindow (l := -(2 ^ (w - 1) : Nat)) (by omega) (by omega)]
    omega
  · rw [mem_signedWindow (l := -(2 ^ (w - 1) : Nat)) (by omega) (by omega)]
    omega

theorem mem_makeExactMulNUWRegion : x ∈ makeExactMulNUWRegion V hw ↔ x.toNat * V.toNat < 2 ^ w := by
  unfold makeExactMulNUWRegion
  split_ifs with h
  · rw [h, toNat_zero, Nat.mul_zero]
    exact iff_of_true (mem_getFull hw x) (Nat.two_pow_pos w)
  · have hV : 0 < V.toNat := by
      rw [eq_iff, toNat_zero] at h
      omega
    have hlow : roundingUDiv 0 V .UP = 0 := by simp [roundingUDiv]
    have hM : 0 < 2 ^ w := Nat.two_pow_pos w
    rw [hlow, mem_upTo]
    unfold roundingUDiv
    rw [BitVec.toNat_udiv, BitVec.toNat_allOnes, Nat.le_div_iff_mul_le hV]
    omega

theorem aroundZero_makeExactMulNSWRegion (V : BitVec w) (hw : 0 < w) :
    AroundZero (makeExactMulNSWRegion V hw) ∧ ∀ x, x ∈ makeExactMulNSWRegion V hw ↔
      -2 ^ (w - 1) ≤ x.toInt * V.toInt ∧ x.toInt * V.toInt < 2 ^ (w - 1) := by
  have h2 := two_pow_eq hw
  have hpos : 0 < 2 ^ (w - 1) := Nat.two_pow_pos _
  have hmin : (BitVec.intMin w).toInt = -2 ^ (w - 1) := BitVec.toInt_intMin_of_pos hw
  have hmax : (BitVec.intMax w).toInt = 2 ^ (w - 1) - 1 := BitVec.toInt_intMax
  rw [two_pow_cast] at hmin hmax ⊢
  unfold makeExactMulNSWRegion
  dsimp only
  split_ifs with h0 h1 hneg
  · refine ⟨⟨BitVec.intMin w, BitVec.intMax w, by omega, by omega, fun x => ?_⟩, fun x => ?_⟩
    · have hx := BitVec.le_toInt x
      have hx' := BitVec.toInt_lt (x := x)
      rw [two_pow_cast] at hx hx'
      exact iff_of_true (mem_getFull hw x) (by omega)
    · have hzero : (0 : BitVec w).toInt = 0 := BitVec.toInt_zero
      rw [h0, hzero, Int.mul_zero]
      exact iff_of_true (mem_getFull hw x) (by omega)
  · have hV : V.toInt = -1 := by rw [h1, BitVec.toInt_allOnes, if_pos hw]
    have hlow : (-BitVec.intMax w).toInt = 1 - (2 ^ (w - 1) : Nat) := by
      have hneg := toNat_neg_cases (BitVec.intMax w)
      have hnat : (BitVec.intMax w).toNat = 2 ^ (w - 1) - 1 := BitVec.toNat_intMax
      have hint := toInt_cases hw (-BitVec.intMax w)
      omega
    refine ⟨⟨-BitVec.intMax w, BitVec.intMax w, by omega, by omega, fun x => ?_⟩, fun x => ?_⟩
    all_goals
      have hx' := BitVec.toInt_lt (x := x)
      rw [two_pow_cast] at hx'
      rw [mem_signedFrom]
      rw [hlow]
    · omega
    · rw [hV]
      omega
  · have hv : V.toInt < -1 := by
      rw [msb_iff hw] at hneg
      rw [toInt_eq_iff, BitVec.toInt_allOnes, if_pos hw] at h1
      omega
    have hup := roundingSDiv_up_le_neg hw (a := BitVec.intMax w) hv
    have hdown := le_roundingSDiv_down_neg hw (a := BitVec.intMin w) hv
    have hlo : (roundingSDiv (BitVec.intMax w) V .UP).toInt ≤ 0 := (hup 0).mpr (by omega)
    have hhi : 0 ≤ (roundingSDiv (BitVec.intMin w) V .DOWN).toInt := (hdown 0).mpr (by omega)
    have hmem : ∀ x, x ∈ getNonEmpty _ (_ + 1) hw ↔ _ :=
      fun x => mem_signedInterval (Int.le_trans hlo hhi)
    refine ⟨⟨_, _, hlo, hhi, hmem⟩, fun x => ?_⟩
    rw [hmem, hup, hdown]
    omega
  · have hv : 0 < V.toInt := by
      have hzero : (0 : BitVec w).toInt = 0 := BitVec.toInt_zero
      rw [msb_iff hw] at hneg
      rw [toInt_eq_iff, hzero] at h0
      omega
    have hup := roundingSDiv_up_le hw (a := BitVec.intMin w) hv
    have hdown := le_roundingSDiv_down hw (a := BitVec.intMax w) hv
    have hlo : (roundingSDiv (BitVec.intMin w) V .UP).toInt ≤ 0 := (hup 0).mpr (by omega)
    have hhi : 0 ≤ (roundingSDiv (BitVec.intMax w) V .DOWN).toInt := (hdown 0).mpr (by omega)
    have hmem : ∀ x, x ∈ getNonEmpty _ (_ + 1) hw ↔ _ :=
      fun x => mem_signedInterval (Int.le_trans hlo hhi)
    refine ⟨⟨_, _, hlo, hhi, hmem⟩, fun x => ?_⟩
    rw [hmem, hup, hdown]
    omega

/-! ## The guaranteed regions -/

theorem noWrap_mul_between {s lo up : Int} {n H : Int} (hlo : lo ≤ s) (hup : s ≤ up)
    (h1 : -H ≤ n * lo ∧ n * lo < H) (h2 : -H ≤ n * up ∧ n * up < H) :
    -H ≤ n * s ∧ n * s < H := by
  rcases Int.le_total 0 n with hn | hn
  · have hl := Int.mul_le_mul_of_nonneg_left hlo hn
    have hu := Int.mul_le_mul_of_nonneg_left hup hn
    omega
  · have hl := Int.mul_le_mul_of_nonpos_left hn hlo
    have hu := Int.mul_le_mul_of_nonpos_left hn hup
    omega

/-- A region of numbers that a shift keeps. -/
theorem mem_shlUnsigned {s : Nat} :
    x ∈ getNonEmpty 0 (BitVec.allOnes w >>> s + 1) hw ↔ x.toNat * 2 ^ s < 2 ^ w := by
  have hM : 0 < 2 ^ w := Nat.two_pow_pos w
  rw [mem_upTo, BitVec.toNat_ushiftRight, BitVec.toNat_allOnes, Nat.shiftRight_eq_div_pow,
    Nat.le_div_iff_mul_le (Nat.two_pow_pos s)]
  omega

theorem mem_shlSigned {s : Nat} :
    x ∈ getNonEmpty ((BitVec.intMin w).sshiftRight s) ((BitVec.intMax w).sshiftRight s + 1) hw ↔
      -2 ^ (w - 1) / 2 ^ s ≤ x.toInt ∧ x.toInt * 2 ^ s < 2 ^ (w - 1) := by
  have hmin : (BitVec.intMin w).toInt = -2 ^ (w - 1) := BitVec.toInt_intMin_of_pos hw
  have hmax : (BitVec.intMax w).toInt = 2 ^ (w - 1) - 1 := BitVec.toInt_intMax
  have hpow : (0 : Int) < 2 ^ s := Int.pow_pos (by omega)
  have hlow : ((BitVec.intMin w).sshiftRight s).toInt = -2 ^ (w - 1) / 2 ^ s := by
    rw [BitVec.toInt_sshiftRight, hmin, Int.shiftRight_eq_div_pow]
    push_cast
    rfl
  have hup : ((BitVec.intMax w).sshiftRight s).toInt = (2 ^ (w - 1) - 1) / 2 ^ s := by
    rw [BitVec.toInt_sshiftRight, hmax, Int.shiftRight_eq_div_pow]
    push_cast
    rfl
  rw [mem_signedInterval, hlow, hup, Int.le_ediv_iff_mul_le hpow]
  · omega
  · rw [hlow, hup]
    have hH : (0 : Int) < 2 ^ (w - 1) := Int.pow_pos (by omega)
    exact Int.ediv_le_ediv hpow (by omega)

theorem natCast_mul_fits {a b n : Nat} : 0 ≤ (a : Int) * b ∧ (a : Int) * b < n ↔ a * b < n := by
  rw [← Int.natCast_mul]
  omega

/-- An extreme member decides for all members. -/
theorem forall_mem_iff {p : BitVec w → Prop} {m : BitVec w} (hm : m ∈ R)
    (hp : p m → ∀ z ∈ R, p z) : (∀ z ∈ R, p z) ↔ p m :=
  ⟨fun h => h m hm, hp⟩

theorem forall_mem_iff_both {p : BitVec w → Prop} {l m : BitVec w} (hl : l ∈ R) (hm : m ∈ R)
    (hp : p l → p m → ∀ z ∈ R, p z) : (∀ z ∈ R, p z) ↔ p l ∧ p m :=
  ⟨fun h => ⟨h l hl, h m hm⟩, fun h => hp h.1 h.2⟩

/-- Apart from shifts, the region is exact for every range with a member. -/
theorem mem_makeGuaranteedNoWrapRegion {op : BinaryOp} (hop : op ≠ .Shl) (kind : NoWrapKind)
    (hy : y ∈ R) (x : BitVec w) :
    x ∈ makeGuaranteedNoWrapRegion op R kind ↔ ∀ z ∈ R, NoWrap op x z kind := by
  have hmax : ∀ z ∈ R, z.toNat ≤ R.getUnsignedMax.toNat := fun _ => le_getUnsignedMax
  have hsmax : ∀ z ∈ R, z.toInt ≤ R.getSignedMax.toInt := fun _ => le_getSignedMax
  have hsmin : ∀ z ∈ R, R.getSignedMin.toInt ≤ z.toInt := fun _ => getSignedMin_le
  have hle : R.getSignedMin.toInt ≤ R.getSignedMax.toInt :=
    Int.le_trans (hsmin y hy) (hsmax y hy)
  unfold makeGuaranteedNoWrapRegion NoWrap
  cases op with
  | Shl => exact absurd rfl hop
  | Add =>
    cases kind with
    | NoUnsignedWrap =>
      simp only [BinaryOp.exact, reduceCtorEq, false_implies, forall_const]
      rw [mem_addUnsigned, forall_mem_iff (getUnsignedMax_mem hy), two_pow_cast]
      · omega
      · intro h z hz
        have hz' := hmax z hz
        omega
    | NoSignedWrap =>
      simp only [BinaryOp.exact, reduceCtorEq, false_implies, forall_const]
      rw [mem_addSigned hle, forall_mem_iff_both (getSignedMin_mem hy) (getSignedMax_mem hy)]
      · omega
      · intro h h' z hz
        have hz' := hsmin z hz
        have hz'' := hsmax z hz
        omega
  | Sub =>
    cases kind with
    | NoUnsignedWrap =>
      simp only [BinaryOp.exact, reduceCtorEq, false_implies, forall_const]
      have hx := x.isLt
      rw [two_pow_cast, mem_downTo, forall_mem_iff (getUnsignedMax_mem hy)]
      · omega
      · intro h z hz
        have hz' := hmax z hz
        omega
    | NoSignedWrap =>
      simp only [BinaryOp.exact, reduceCtorEq, false_implies, forall_const]
      rw [mem_subSigned hle, forall_mem_iff_both (getSignedMin_mem hy) (getSignedMax_mem hy)]
      · omega
      · intro h h' z hz
        have hz' := hsmin z hz
        have hz'' := hsmax z hz
        omega
  | Mul =>
    cases kind with
    | NoUnsignedWrap =>
      simp only [BinaryOp.exact, reduceCtorEq, false_implies, forall_const]
      simp only [two_pow_cast, natCast_mul_fits]
      rw [mem_makeExactMulNUWRegion, forall_mem_iff (getUnsignedMax_mem hy)]
      intro h z hz
      exact Nat.lt_of_le_of_lt (Nat.mul_le_mul_left _ (hmax z hz)) h
    | NoSignedWrap =>
      simp only [BinaryOp.exact, reduceCtorEq, false_implies, forall_const]
      obtain ⟨haround, hmin⟩ := aroundZero_makeExactMulNSWRegion R.getSignedMin R.pos
      obtain ⟨haround', hmax'⟩ := aroundZero_makeExactMulNSWRegion R.getSignedMax R.pos
      rw [mem_intersectWith_aroundZero haround haround', hmin, hmax',
        forall_mem_iff_both (getSignedMin_mem hy) (getSignedMax_mem hy)]
      exact fun h h' z hz => noWrap_mul_between (hsmin z hz) (hsmax z hz) h h'

/-- A shift by less keeps what a shift by more keeps, and shifts below the width are exact at the
least number. -/
theorem shl_fits {n : Int} {k s : Nat} (hk : k < w) (hks : k ≤ s)
    (h : -2 ^ (w - 1) / 2 ^ s ≤ n ∧ n * 2 ^ s < 2 ^ (w - 1)) :
    -2 ^ (w - 1) ≤ n * 2 ^ k ∧ n * 2 ^ k < 2 ^ (w - 1) := by
  have hk0 : (0 : Int) < 2 ^ k := Int.pow_pos (by omega)
  have hs0 : (0 : Int) < 2 ^ s := Int.pow_pos (by omega)
  have hH : (0 : Int) < 2 ^ (w - 1) := Int.pow_pos (by omega)
  have hpow : (2 : Int) ^ k ≤ 2 ^ s := by
    rw [two_pow_cast, two_pow_cast]
    exact Int.ofNat_le.mpr (Nat.pow_le_pow_right (by omega) hks)
  have hsplit : (2 : Int) ^ (w - 1) = 2 ^ (w - 1 - k) * 2 ^ k := by
    rw [← Int.pow_add]
    congr 1
    omega
  have hdiv : -(2 : Int) ^ (w - 1 - k) ≤ -2 ^ (w - 1) / 2 ^ s := by
    rw [Int.le_ediv_iff_mul_le hs0, hsplit, Int.neg_mul]
    have hrest : (0 : Int) < 2 ^ (w - 1 - k) := Int.pow_pos (by omega)
    have hmul := Int.mul_le_mul_of_nonneg_left hpow (Int.le_of_lt hrest)
    omega
  constructor
  · have hmul := Int.mul_le_mul_of_nonneg_right (Int.le_trans hdiv h.1) (Int.le_of_lt hk0)
    rw [Int.neg_mul, ← hsplit] at hmul
    exact hmul
  · rcases Int.le_total 0 n with hn | hn
    · exact Int.lt_of_le_of_lt (Int.mul_le_mul_of_nonneg_left hpow hn) h.2
    · have hmul := Int.mul_le_mul_of_nonneg_right hn (Int.le_of_lt hk0)
      omega

/-- The region of a shift keeps what every legal shift keeps. -/
theorem noWrap_shl_of_mem (kind : NoWrapKind)
    (h : x ∈ makeGuaranteedNoWrapRegion .Shl R kind) (hy : y ∈ R) : NoWrap .Shl x y kind := by
  have hw := R.pos
  by_cases hlegal : y.toNat < w
  · have hamount : y ∈ ofNe 0 (BitVec.ofNat w w) hw (zero_ne_width hw) := by
      rw [mem_below, toNat_width]
      exact hlegal
    have hmem : y ∈ intersectWith R _ .Smallest := mem_intersectWith hy hamount
    unfold makeGuaranteedNoWrapRegion at h
    dsimp only at h
    rw [if_neg (by rw [nonempty_of_mem hmem]; exact Bool.false_ne_true)] at h
    have hle := le_getUnsignedMax hmem
    generalize (intersectWith R (ofNe 0 (BitVec.ofNat w w) hw (zero_ne_width hw))
      .Smallest).getUnsignedMax.toNat = s at h hle
    cases kind with
    | NoUnsignedWrap =>
      dsimp only at h
      rw [mem_shlUnsigned] at h
      intro _
      simp only [BinaryOp.exact]
      rw [two_pow_cast, two_pow_cast, natCast_mul_fits]
      exact Nat.lt_of_le_of_lt (Nat.mul_le_mul_left _ (Nat.pow_le_pow_right (by omega) hle)) h
    | NoSignedWrap =>
      dsimp only at h
      rw [mem_shlSigned] at h
      exact fun _ => shl_fits hlegal hle h
  · cases kind with
    | NoUnsignedWrap => exact fun h => absurd (h rfl) hlegal
    | NoSignedWrap => exact fun h => absurd (h rfl) hlegal

/-- For one amount, the region of a shift is exact. -/
theorem mem_shl_of_noWrap (kind : NoWrapKind) (hR : ∀ z, z ∈ R ↔ z = y)
    (h : NoWrap .Shl x y kind) : x ∈ makeGuaranteedNoWrapRegion .Shl R kind := by
  have hw := R.pos
  have hamount : ∀ z, z ∈ ofNe 0 (BitVec.ofNat w w) hw (zero_ne_width hw) ↔ z.toNat < w := by
    intro z
    rw [mem_below, toNat_width]
  unfold makeGuaranteedNoWrapRegion
  dsimp only
  by_cases hlegal : y.toNat < w
  · have hmem : ∀ z, z ∈ intersectWith R (ofNe 0 (BitVec.ofNat w w) hw (zero_ne_width hw)) .Smallest ↔
        z = y := by
      intro z
      rw [intersectWith_exact ⟨R, fun z => ?_⟩, hR, hamount]
      · exact ⟨fun h => h.1, fun h => ⟨h, h ▸ hlegal⟩⟩
      · rw [hR, hamount]
        exact ⟨fun h => ⟨h, h ▸ hlegal⟩, fun h => h.1⟩
    have hmax := (hmem _).mp (getUnsignedMax_mem ((hmem y).mpr rfl))
    rw [nonempty_of_mem ((hmem y).mpr rfl), if_neg Bool.false_ne_true, hmax]
    cases kind with
    | NoUnsignedWrap =>
      have hfits := h fun _ => hlegal
      simp only [BinaryOp.exact, two_pow_cast, natCast_mul_fits] at hfits
      exact mem_shlUnsigned.mpr hfits
    | NoSignedWrap =>
      obtain ⟨hlow, hup⟩ := h fun _ => hlegal
      simp only [BinaryOp.exact] at hlow hup
      have hpow : (0 : Int) < 2 ^ y.toNat := Int.pow_pos (by omega)
      refine mem_shlSigned.mpr ⟨?_, hup⟩
      exact Int.ediv_le_of_le_mul hpow hlow
  · have hempty : (intersectWith R (ofNe 0 (BitVec.ofNat w w) hw (zero_ne_width hw))
        .Smallest).isEmptySet = true := by
      rw [isEmptySet_iff_forall]
      intro z
      rw [intersectWith_exact ⟨getEmpty hw, fun z => ?_⟩, hR, hamount]
      · rintro ⟨rfl, hz⟩
        exact hlegal hz
      · rw [hR, hamount]
        refine iff_of_false (not_mem_getEmpty hw z) ?_
        rintro ⟨rfl, hz⟩
        exact hlegal hz
    rw [hempty, if_pos rfl]
    exact mem_getFull hw x

/-! ## The verdicts -/

/-- What a verdict says of the pairs of two sets. -/
def Judges (p : BitVec w → BitVec w → Prop) (P Q : BitVec w → Prop) : OverflowResult → Prop
  | .NeverOverflows => ∀ x y, P x → Q y → p x y
  | .MayOverflow => (∃ x y, P x ∧ Q y ∧ p x y) ∧ ∃ x y, P x ∧ Q y ∧ ¬p x y
  | _ => ∀ x y, P x → Q y → ¬p x y

/-- The verdicts are exact: each is given exactly when it is true. -/
def Exact (p : BitVec w → BitVec w → Prop) (P Q : BitVec w → Prop) (result : OverflowResult) : Prop :=
  (result = .NeverOverflows ↔ ∀ x y, P x → Q y → p x y) ∧
    (result = .AlwaysOverflowsLow ∨ result = .AlwaysOverflowsHigh ↔ ∀ x y, P x → Q y → ¬p x y)

theorem Judges.exact {p : BitVec w → BitVec w → Prop} {P Q : BitVec w → Prop}
    {result : OverflowResult} (h : Judges p P Q result) (hP : P x) (hQ : Q y) :
    Exact p P Q result := by
  cases result with
  | NeverOverflows =>
    exact ⟨iff_of_true rfl h, iff_of_false (by decide) fun hall => hall x y hP hQ (h x y hP hQ)⟩
  | MayOverflow =>
    obtain ⟨⟨a, b, ha, hb, hfits⟩, a', b', ha', hb', hwraps⟩ := h
    exact ⟨iff_of_false (by decide) fun hall => hwraps (hall a' b' ha' hb'),
      iff_of_false (by decide) fun hall => hall a b ha hb hfits⟩
  | AlwaysOverflowsLow =>
    exact ⟨iff_of_false (by decide) fun hall => h x y hP hQ (hall x y hP hQ),
      iff_of_true (.inl rfl) h⟩
  | AlwaysOverflowsHigh =>
    exact ⟨iff_of_false (by decide) fun hall => h x y hP hQ (hall x y hP hQ),
      iff_of_true (.inr rfl) h⟩

/-- A set of words with the members of a range, within its unsigned bounds. -/
structure UnsignedHull (R : ConstantRange w) (P : BitVec w → Prop) : Prop where
  members : ∀ x ∈ R, P x
  bounds : ∀ x, P x → R.getUnsignedMin.toNat ≤ x.toNat ∧ x.toNat ≤ R.getUnsignedMax.toNat

/-- A set of words with the members of a range, within its signed bounds. -/
structure SignedHull (R : ConstantRange w) (P : BitVec w → Prop) : Prop where
  members : ∀ x ∈ R, P x
  bounds : ∀ x, P x → R.getSignedMin.toInt ≤ x.toInt ∧ x.toInt ≤ R.getSignedMax.toInt

variable {P Q : BitVec w → Prop}

theorem judges_unsignedAdd (hP : UnsignedHull R P) (hQ : UnsignedHull O Q) (hx : x ∈ R)
    (hy : y ∈ O) :
    Judges (NoWrap .Add · · .NoUnsignedWrap) P Q (unsignedAddMayOverflow R O) := by
  have hPmin := hP.members _ (getUnsignedMin_mem hx)
  have hPmax := hP.members _ (getUnsignedMax_mem hx)
  have hQmin := hQ.members _ (getUnsignedMin_mem hy)
  have hQmax := hQ.members _ (getUnsignedMax_mem hy)
  unfold unsignedAddMayOverflow
  rw [nonempty_of_mem hx, nonempty_of_mem hy, Bool.or_false, if_neg Bool.false_ne_true]
  simp only [BitVec.lt_def, BitVec.toNat_not]
  split_ifs with h1 h2
  all_goals
    simp only [Judges, NoWrap, BinaryOp.exact, reduceCtorEq, false_implies, forall_const,
      two_pow_cast]
  · intro x y hx hy
    have hx' := hP.bounds x hx
    have hy' := hQ.bounds y hy
    omega
  · refine ⟨⟨_, _, hPmin, hQmin, ?_⟩, _, _, hPmax, hQmax, ?_⟩
    · omega
    · omega
  · intro x y hx hy
    have hx' := hP.bounds x hx
    have hy' := hQ.bounds y hy
    omega

theorem judges_unsignedSub (hP : UnsignedHull R P) (hQ : UnsignedHull O Q) (hx : x ∈ R)
    (hy : y ∈ O) :
    Judges (NoWrap .Sub · · .NoUnsignedWrap) P Q (unsignedSubMayOverflow R O) := by
  have hPmin := hP.members _ (getUnsignedMin_mem hx)
  have hPmax := hP.members _ (getUnsignedMax_mem hx)
  have hQmin := hQ.members _ (getUnsignedMin_mem hy)
  have hQmax := hQ.members _ (getUnsignedMax_mem hy)
  have hlt := R.getUnsignedMax.isLt
  unfold unsignedSubMayOverflow
  rw [nonempty_of_mem hx, nonempty_of_mem hy, Bool.or_false, if_neg Bool.false_ne_true]
  simp only [BitVec.lt_def]
  split_ifs with h1 h2
  all_goals
    simp only [Judges, NoWrap, BinaryOp.exact, reduceCtorEq, false_implies, forall_const,
      two_pow_cast]
  · intro x y hx hy
    have hx' := hP.bounds x hx
    have hy' := hQ.bounds y hy
    omega
  · refine ⟨⟨_, _, hPmax, hQmin, ?_⟩, _, _, hPmin, hQmax, ?_⟩
    · omega
    · omega
  · intro x y hx hy
    have hx' := hP.bounds x hx
    have hy' := hQ.bounds y hy
    omega

theorem judges_unsignedMul (hP : UnsignedHull R P) (hQ : UnsignedHull O Q) (hx : x ∈ R)
    (hy : y ∈ O) :
    Judges (NoWrap .Mul · · .NoUnsignedWrap) P Q (unsignedMulMayOverflow R O) := by
  have hPmin := hP.members _ (getUnsignedMin_mem hx)
  have hPmax := hP.members _ (getUnsignedMax_mem hx)
  have hQmin := hQ.members _ (getUnsignedMin_mem hy)
  have hQmax := hQ.members _ (getUnsignedMax_mem hy)
  unfold unsignedMulMayOverflow BitVec.umulOverflow
  rw [nonempty_of_mem hx, nonempty_of_mem hy, Bool.or_false, if_neg Bool.false_ne_true]
  simp only [decide_eq_true_eq]
  split_ifs with h1 h2
  all_goals
    simp only [Judges, NoWrap, BinaryOp.exact, reduceCtorEq, false_implies, forall_const,
      two_pow_cast, natCast_mul_fits]
  · intro x y hx hy
    have hmul := Nat.mul_le_mul (hP.bounds x hx).1 (hQ.bounds y hy).1
    omega
  · refine ⟨⟨_, _, hPmin, hQmin, ?_⟩, _, _, hPmax, hQmax, ?_⟩
    · omega
    · omega
  · intro x y hx hy
    have hmul := Nat.mul_le_mul (hP.bounds x hx).2 (hQ.bounds y hy).2
    omega

theorem addHigh_iff (hw : 0 < w) (a b : BitVec w) :
    (!a.msb && !b.msb && (BitVec.intMax w - b).slt a) = true ↔
      0 ≤ a.toInt ∧ 0 ≤ b.toInt ∧ (2 ^ (w - 1) : Nat) ≤ a.toInt + b.toInt := by
  have h2 := two_pow_eq hw
  have ha := toInt_cases hw a
  have hb := toInt_cases hw b
  have halt := a.isLt
  have hblt := b.isLt
  have hmax : (BitVec.intMax w).toNat = 2 ^ (w - 1) - 1 := BitVec.toNat_intMax
  have hsub := toNat_sub_cases (BitVec.intMax w) b
  have hint := toInt_cases hw (BitVec.intMax w - b)
  simp only [Bool.and_eq_true, Bool.not_eq_true', ← Bool.not_eq_true, msb_iff hw,
    BitVec.slt_iff_toInt_lt]
  omega

theorem addLow_iff (hw : 0 < w) (a b : BitVec w) :
    (a.msb && b.msb && a.slt (BitVec.intMin w - b)) = true ↔
      a.toInt < 0 ∧ b.toInt < 0 ∧ a.toInt + b.toInt < -(2 ^ (w - 1) : Nat) := by
  have h2 := two_pow_eq hw
  have ha := toInt_cases hw a
  have hb := toInt_cases hw b
  have halt := a.isLt
  have hblt := b.isLt
  have hmin := toNat_intMin hw
  have hsub := toNat_sub_cases (BitVec.intMin w) b
  have hint := toInt_cases hw (BitVec.intMin w - b)
  simp only [Bool.and_eq_true, msb_iff hw, BitVec.slt_iff_toInt_lt]
  omega

theorem subHigh_iff (hw : 0 < w) (a b : BitVec w) :
    (!a.msb && b.msb && (BitVec.intMax w + b).slt a) = true ↔
      0 ≤ a.toInt ∧ b.toInt < 0 ∧ (2 ^ (w - 1) : Nat) ≤ a.toInt - b.toInt := by
  have h2 := two_pow_eq hw
  have ha := toInt_cases hw a
  have hb := toInt_cases hw b
  have halt := a.isLt
  have hblt := b.isLt
  have hmax : (BitVec.intMax w).toNat = 2 ^ (w - 1) - 1 := BitVec.toNat_intMax
  have hadd := toNat_add_cases (BitVec.intMax w) b
  have hint := toInt_cases hw (BitVec.intMax w + b)
  simp only [Bool.and_eq_true, Bool.not_eq_true', ← Bool.not_eq_true, msb_iff hw,
    BitVec.slt_iff_toInt_lt]
  omega

theorem subLow_iff (hw : 0 < w) (a b : BitVec w) :
    (a.msb && !b.msb && a.slt (BitVec.intMin w + b)) = true ↔
      a.toInt < 0 ∧ 0 ≤ b.toInt ∧ a.toInt - b.toInt < -(2 ^ (w - 1) : Nat) := by
  have h2 := two_pow_eq hw
  have ha := toInt_cases hw a
  have hb := toInt_cases hw b
  have halt := a.isLt
  have hblt := b.isLt
  have hmin := toNat_intMin hw
  have hadd := toNat_add_cases (BitVec.intMin w) b
  have hint := toInt_cases hw (BitVec.intMin w + b)
  simp only [Bool.and_eq_true, Bool.not_eq_true', ← Bool.not_eq_true, msb_iff hw,
    BitVec.slt_iff_toInt_lt]
  omega

/-- A verdict with a pair that fits and a pair that does not. -/
theorem judges_may {p : BitVec w → BitVec w → Prop} {a b : BitVec w}
    (hsome : ¬∀ x y, P x → Q y → ¬p x y) (ha : P a) (hb : Q b) (hwraps : ¬p a b) :
    Judges p P Q .MayOverflow := by
  refine ⟨?_, a, b, ha, hb, hwraps⟩
  by_contra hnone
  exact hsome fun x y hx hy hp => hnone ⟨x, y, hx, hy, hp⟩

theorem judges_signedAdd (hP : SignedHull R P) (hQ : SignedHull O Q) (hx : x ∈ R) (hy : y ∈ O) :
    Judges (NoWrap .Add · · .NoSignedWrap) P Q (signedAddMayOverflow R O) := by
  have hPmin := hP.members _ (getSignedMin_mem hx)
  have hPmax := hP.members _ (getSignedMax_mem hx)
  have hQmin := hQ.members _ (getSignedMin_mem hy)
  have hQmax := hQ.members _ (getSignedMax_mem hy)
  have hp : ∀ x y : BitVec w, NoWrap .Add x y .NoSignedWrap ↔
      -(2 ^ (w - 1) : Nat) ≤ x.toInt + y.toInt ∧ x.toInt + y.toInt < (2 ^ (w - 1) : Nat) := by
    intro x y
    simp only [NoWrap, BinaryOp.exact, reduceCtorEq, false_implies, forall_const, two_pow_cast]
  have hRO : ∀ x : BitVec w, -(2 ^ (w - 1) : Nat) ≤ x.toInt ∧ x.toInt < (2 ^ (w - 1) : Nat) := by
    intro x
    rw [← two_pow_cast]
    exact ⟨BitVec.le_toInt x, BitVec.toInt_lt⟩
  have hlow := hP.bounds _ hPmin
  have hlow' := hQ.bounds _ hQmin
  have hR := hRO R.getSignedMin
  have hR' := hRO R.getSignedMax
  have hO := hRO O.getSignedMin
  have hO' := hRO O.getSignedMax
  -- if every pair overflows, then so do the pairs of bounds, and all to one side
  have hsome : ¬(0 ≤ R.getSignedMin.toInt ∧ 0 ≤ O.getSignedMin.toInt ∧
        (2 ^ (w - 1) : Nat) ≤ R.getSignedMin.toInt + O.getSignedMin.toInt) →
      ¬(R.getSignedMax.toInt < 0 ∧ O.getSignedMax.toInt < 0 ∧
        R.getSignedMax.toInt + O.getSignedMax.toInt < -(2 ^ (w - 1) : Nat)) →
      ¬∀ x y, P x → Q y → ¬NoWrap .Add x y .NoSignedWrap := by
    intro h1 h2 hall
    have ha := hall _ _ hPmin hQmin
    have hb := hall _ _ hPmin hQmax
    have hc := hall _ _ hPmax hQmin
    have hd := hall _ _ hPmax hQmax
    rw [hp] at ha hb hc hd
    omega
  unfold signedAddMayOverflow
  rw [nonempty_of_mem hx, nonempty_of_mem hy, Bool.or_false, if_neg Bool.false_ne_true]
  simp only [addHigh_iff R.pos, addLow_iff R.pos]
  split_ifs with h1 h2 h3 h4
  · intro x y hx hy
    have hx' := hP.bounds x hx
    have hy' := hQ.bounds y hy
    simp only [hp]
    omega
  · intro x y hx hy
    have hx' := hP.bounds x hx
    have hy' := hQ.bounds y hy
    simp only [hp]
    omega
  · refine judges_may (hsome h1 h2) hPmax hQmax ?_
    simp only [hp]
    omega
  · refine judges_may (hsome h1 h2) hPmin hQmin ?_
    simp only [hp]
    omega
  · intro x y hx hy
    have hx' := hP.bounds x hx
    have hy' := hQ.bounds y hy
    simp only [hp]
    omega

theorem judges_signedSub (hP : SignedHull R P) (hQ : SignedHull O Q) (hx : x ∈ R) (hy : y ∈ O) :
    Judges (NoWrap .Sub · · .NoSignedWrap) P Q (signedSubMayOverflow R O) := by
  have hPmin := hP.members _ (getSignedMin_mem hx)
  have hPmax := hP.members _ (getSignedMax_mem hx)
  have hQmin := hQ.members _ (getSignedMin_mem hy)
  have hQmax := hQ.members _ (getSignedMax_mem hy)
  have hp : ∀ x y : BitVec w, NoWrap .Sub x y .NoSignedWrap ↔
      -(2 ^ (w - 1) : Nat) ≤ x.toInt - y.toInt ∧ x.toInt - y.toInt < (2 ^ (w - 1) : Nat) := by
    intro x y
    simp only [NoWrap, BinaryOp.exact, reduceCtorEq, false_implies, forall_const, two_pow_cast]
  have hRO : ∀ x : BitVec w, -(2 ^ (w - 1) : Nat) ≤ x.toInt ∧ x.toInt < (2 ^ (w - 1) : Nat) := by
    intro x
    rw [← two_pow_cast]
    exact ⟨BitVec.le_toInt x, BitVec.toInt_lt⟩
  have hlow := hP.bounds _ hPmin
  have hlow' := hQ.bounds _ hQmin
  have hR := hRO R.getSignedMin
  have hR' := hRO R.getSignedMax
  have hO := hRO O.getSignedMin
  have hO' := hRO O.getSignedMax
  have hsome : ¬(0 ≤ R.getSignedMin.toInt ∧ O.getSignedMax.toInt < 0 ∧
        (2 ^ (w - 1) : Nat) ≤ R.getSignedMin.toInt - O.getSignedMax.toInt) →
      ¬(R.getSignedMax.toInt < 0 ∧ 0 ≤ O.getSignedMin.toInt ∧
        R.getSignedMax.toInt - O.getSignedMin.toInt < -(2 ^ (w - 1) : Nat)) →
      ¬∀ x y, P x → Q y → ¬NoWrap .Sub x y .NoSignedWrap := by
    intro h1 h2 hall
    have ha := hall _ _ hPmin hQmin
    have hb := hall _ _ hPmin hQmax
    have hc := hall _ _ hPmax hQmin
    have hd := hall _ _ hPmax hQmax
    rw [hp] at ha hb hc hd
    omega
  unfold signedSubMayOverflow
  rw [nonempty_of_mem hx, nonempty_of_mem hy, Bool.or_false, if_neg Bool.false_ne_true]
  simp only [subHigh_iff R.pos, subLow_iff R.pos]
  split_ifs with h1 h2 h3 h4
  · intro x y hx hy
    have hx' := hP.bounds x hx
    have hy' := hQ.bounds y hy
    simp only [hp]
    omega
  · intro x y hx hy
    have hx' := hP.bounds x hx
    have hy' := hQ.bounds y hy
    simp only [hp]
    omega
  · refine judges_may (hsome h1 h2) hPmax hQmin ?_
    simp only [hp]
    omega
  · refine judges_may (hsome h1 h2) hPmin hQmax ?_
    simp only [hp]
    omega
  · intro x y hx hy
    have hx' := hP.bounds x hx
    have hy' := hQ.bounds y hy
    simp only [hp]
    omega

/-- All verdicts on two ranges are exact, for sets of words that they are to stand for. -/
structure Verdicts (R O : ConstantRange w) (P Q P' Q' : BitVec w → Prop) : Prop where
  unsignedAdd : Exact (NoWrap .Add · · .NoUnsignedWrap) P Q (unsignedAddMayOverflow R O)
  unsignedSub : Exact (NoWrap .Sub · · .NoUnsignedWrap) P Q (unsignedSubMayOverflow R O)
  unsignedMul : Exact (NoWrap .Mul · · .NoUnsignedWrap) P Q (unsignedMulMayOverflow R O)
  signedAdd : Exact (NoWrap .Add · · .NoSignedWrap) P' Q' (signedAddMayOverflow R O)
  signedSub : Exact (NoWrap .Sub · · .NoSignedWrap) P' Q' (signedSubMayOverflow R O)

theorem verdicts_of_hulls {P' Q' : BitVec w → Prop} (hP : UnsignedHull R P)
    (hQ : UnsignedHull O Q) (hP' : SignedHull R P') (hQ' : SignedHull O Q') (hx : x ∈ R)
    (hy : y ∈ O) : Verdicts R O P Q P' Q' where
  unsignedAdd := (judges_unsignedAdd hP hQ hx hy).exact (hP.members x hx) (hQ.members y hy)
  unsignedSub := (judges_unsignedSub hP hQ hx hy).exact (hP.members x hx) (hQ.members y hy)
  unsignedMul := (judges_unsignedMul hP hQ hx hy).exact (hP.members x hx) (hQ.members y hy)
  signedAdd := (judges_signedAdd hP' hQ' hx hy).exact (hP'.members x hx) (hQ'.members y hy)
  signedSub := (judges_signedSub hP' hQ' hx hy).exact (hP'.members x hx) (hQ'.members y hy)

/-- The words between the unsigned bounds of a range. -/
def unsignedHull (R : ConstantRange w) (x : BitVec w) : Prop :=
  R.getUnsignedMin.toNat ≤ x.toNat ∧ x.toNat ≤ R.getUnsignedMax.toNat

/-- The words between the signed bounds of a range. -/
def signedHull (R : ConstantRange w) (x : BitVec w) : Prop :=
  R.getSignedMin.toInt ≤ x.toInt ∧ x.toInt ≤ R.getSignedMax.toInt

theorem unsignedHull_members (R : ConstantRange w) : UnsignedHull R (· ∈ R) :=
  ⟨fun _ hx => hx, fun _ hx => ⟨getUnsignedMin_le hx, le_getUnsignedMax hx⟩⟩

theorem signedHull_members (R : ConstantRange w) : SignedHull R (· ∈ R) :=
  ⟨fun _ hx => hx, fun _ hx => ⟨getSignedMin_le hx, le_getSignedMax hx⟩⟩

theorem unsignedHull_hull (R : ConstantRange w) : UnsignedHull R R.unsignedHull :=
  ⟨fun _ hx => ⟨getUnsignedMin_le hx, le_getUnsignedMax hx⟩, fun _ hx => hx⟩

theorem signedHull_hull (R : ConstantRange w) : SignedHull R R.signedHull :=
  ⟨fun _ hx => ⟨getSignedMin_le hx, le_getSignedMax hx⟩, fun _ hx => hx⟩

/-- The regions hold no word that wraps around with a member, all words that do not if there is one
member, and the verdicts are exact, for the members and for all words between the bounds. -/
theorem noWrap_regions (R : ConstantRange w) :
    (∀ op kind x, x ∈ makeGuaranteedNoWrapRegion op R kind → ∀ y ∈ R, NoWrap op x y kind) ∧
      (∀ op kind x y, (∀ z, z ∈ R ↔ z = y) →
        (x ∈ makeGuaranteedNoWrapRegion op R kind ↔ NoWrap op x y kind)) ∧
      ∀ O : ConstantRange w, R.isEmptySet = false → O.isEmptySet = false →
        Verdicts R O (· ∈ R) (· ∈ O) (· ∈ R) (· ∈ O) ∧
          Verdicts R O R.unsignedHull O.unsignedHull R.signedHull O.signedHull := by
  have hkept : ∀ op kind x, x ∈ makeGuaranteedNoWrapRegion op R kind →
      ∀ y ∈ R, NoWrap op x y kind := by
    intro op kind x h y hy
    by_cases hop : op = .Shl
    · subst hop
      exact noWrap_shl_of_mem kind h hy
    · exact (mem_makeGuaranteedNoWrapRegion hop kind hy x).mp h y hy
  refine ⟨hkept, fun op kind x y hR => ⟨fun h => hkept op kind x h y ((hR y).mpr rfl), fun h => ?_⟩,
    fun O hRne hOne => ?_⟩
  · by_cases hop : op = .Shl
    · subst hop
      exact mem_shl_of_noWrap kind hR h
    · refine (mem_makeGuaranteedNoWrapRegion hop kind ((hR y).mpr rfl) x).mpr fun z hz => ?_
      rwa [(hR z).mp hz]
  · obtain ⟨x, hx⟩ := exists_mem (R := R) (by rw [hRne]; exact Bool.false_ne_true)
    obtain ⟨y, hy⟩ := exists_mem (R := O) (by rw [hOne]; exact Bool.false_ne_true)
    exact ⟨verdicts_of_hulls (unsignedHull_members R) (unsignedHull_members O)
        (signedHull_members R) (signedHull_members O) hx hy,
      verdicts_of_hulls (unsignedHull_hull R) (unsignedHull_hull O) (signedHull_hull R)
        (signedHull_hull O) hx hy⟩

end ConstantRange

end RvLlvm.IR
