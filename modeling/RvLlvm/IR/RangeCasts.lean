import RvLlvm.IR.RangeDivision
import Mathlib.Data.Nat.Size
import Mathlib.Tactic.Ring

/-!
# Extension and truncation of ranges

Model of `ConstantRange::zeroExtend`, `signExtend` and `truncate`
(`llvm/lib/IR/ConstantRange.cpp:768-854`). The words of a range that wraps around go to two
intervals when they are extended, and to one arc when they are truncated.

* `zeroExtend_spec`, `signExtend_spec`: exactly the extended members where these form a range.
* `truncate_spec`: exactly the truncated members.
-/

namespace RvLlvm.IR.ConstantRange

open Support.WordOrder

variable {w d : Nat}

/-- `getHighBitsSet`. -/
def getHighBitsSet (numBits hiBitsSet : Nat) : BitVec numBits :=
  BitVec.allOnes numBits <<< (numBits - hiBitsSet)

/-- `getLowBitsSet`. -/
def getLowBitsSet (numBits loBitsSet : Nat) : BitVec numBits :=
  BitVec.allOnes numBits >>> (numBits - loBitsSet)

/-- `getBitsSetFrom`. -/
def getBitsSetFrom (numBits loBit : Nat) : BitVec numBits := BitVec.allOnes numBits <<< loBit

/-- `getActiveBits`. -/
def getActiveBits (x : BitVec w) : Nat := x.toNat.size

/-- The ones at the low end of `n` bits. -/
def trailingOnes : Nat → Nat → Nat
  | 0, _ => 0
  | n + 1, x => if x % 2 = 1 then trailingOnes n (x / 2) + 1 else 0

/-- `countr_one`. -/
def countr_one (x : BitVec w) : Nat := trailingOnes w x.toNat

/-- `clearBit`. -/
def clearBit (x : BitVec w) (BitPosition : Nat) : BitVec w := x &&& ~~~BitVec.twoPow w BitPosition

def zeroExtend (A : ConstantRange w) (DstTySize : Nat) (h : w < DstTySize) :
    Option (ConstantRange DstTySize) :=
  have hd : 0 < DstTySize := Nat.lt_of_le_of_lt (Nat.zero_le w) h
  if A.isEmptySet then some (getEmpty hd)
  else if A.isFullSet || A.isUpperWrapped then
    -- `[X, 0)` does not really wrap around
    let LowerExt := if A.Upper = 0 then A.Lower.setWidth DstTySize else 0
    ofBounds LowerExt (BitVec.twoPow DstTySize w) hd
  else ofBounds (A.Lower.setWidth DstTySize) (A.Upper.setWidth DstTySize) hd

def signExtend (A : ConstantRange w) (DstTySize : Nat) (h : w < DstTySize) :
    Option (ConstantRange DstTySize) :=
  have hd : 0 < DstTySize := Nat.lt_of_le_of_lt (Nat.zero_le w) h
  if A.isEmptySet then some (getEmpty hd)
  -- `[X, INT_MIN)` does not really wrap around
  else if A.Upper = BitVec.intMin w then
    ofBounds (A.Lower.signExtend DstTySize) (A.Upper.setWidth DstTySize) hd
  else if A.isFullSet || A.isSignWrappedSet then
    ofBounds (getHighBitsSet DstTySize (DstTySize - w + 1)) (getLowBitsSet DstTySize (w - 1) + 1) hd
  else ofBounds (A.Lower.signExtend DstTySize) (A.Upper.signExtend DstTySize) hd

/-- `truncate` of words that do not wrap around, united with what was taken from them. -/
def truncateDiv (Lower Upper : BitVec w) (Union : ConstantRange d) : Option (ConstantRange d) :=
  let Adjust := Lower &&& getBitsSetFrom w d
  let LowerDiv := if getActiveBits Lower > d then Lower - Adjust else Lower
  let UpperDiv := if getActiveBits Lower > d then Upper - Adjust else Upper
  if getActiveBits UpperDiv ≤ d then
    (ofBounds (LowerDiv.setWidth d) (UpperDiv.setWidth d) Union.pos).map (·.unionWith Union .Smallest)
  -- the truncated words wrap around
  else if getActiveBits UpperDiv = d + 1 ∧ (clearBit UpperDiv d).ult LowerDiv = true then
    (ofBounds (LowerDiv.setWidth d) ((clearBit UpperDiv d).setWidth d) Union.pos).map
      (·.unionWith Union .Smallest)
  else some (getFull Union.pos)

def truncate (A : ConstantRange w) (DstTySize : Nat) (h : 0 < DstTySize ∧ DstTySize < w) :
    Option (ConstantRange DstTySize) :=
  if A.isEmptySet then some (getEmpty h.1)
  else if A.isFullSet then some (getFull h.1)
  else if A.isUpperWrapped then
    if getActiveBits A.Upper > DstTySize || countr_one A.Upper == DstTySize then some (getFull h.1)
    else do
      -- the greatest word and those below `Upper`
      let Union ← ofBounds (BitVec.allOnes DstTySize) (A.Upper.setWidth DstTySize) h.1
      if A.Lower = BitVec.allOnes w then some Union
      else truncateDiv A.Lower (BitVec.allOnes w) Union
  else truncateDiv A.Lower A.Upper (getEmpty h.1)

variable {A : ConstantRange w} {C : ConstantRange d}

/-- `R` has every word of `image`, and no other where these words are those of a range. -/
def Tight (R : ConstantRange d) (image : BitVec d → Prop) : Prop :=
  (∀ x, image x → x ∈ R) ∧
    ((∃ C : ConstantRange d, ∀ x, x ∈ C ↔ image x) → ∀ x, x ∈ R ↔ image x)

theorem Tight.of_iff {R : ConstantRange d} {image : BitVec d → Prop} (h : ∀ x, x ∈ R ↔ image x) :
    Tight R image :=
  ⟨fun x => (h x).mpr, fun _ => h⟩

/-! ## Zero extension -/

theorem mem_zext {x : BitVec d} (h : w ≤ d) :
    (∃ a ∈ A, a.setWidth d = x) ↔ x.toNat < 2 ^ w ∧ BitVec.ofNat w x.toNat ∈ A := by
  constructor
  · rintro ⟨a, ha, rfl⟩
    rw [BitVec.toNat_setWidth_of_le h, BitVec.ofNat_toNat, BitVec.setWidth_eq]
    exact ⟨a.isLt, ha⟩
  · rintro ⟨hlt, ha⟩
    refine ⟨_, ha, ?_⟩
    rw [eq_iff, BitVec.toNat_setWidth_of_le h, BitVec.toNat_ofNat, Nat.mod_eq_of_lt hlt]

theorem zeroExtend_spec (A : ConstantRange w) (DstTySize : Nat) (h : w < DstTySize) :
    ∃ R, zeroExtend A DstTySize h = some R ∧ Tight R fun x => ∃ a ∈ A, a.setWidth DstTySize = x := by
  have hpow : 2 ^ w < 2 ^ DstTySize := Nat.pow_lt_pow_right (by omega) h
  have hL := A.Lower.isLt
  have hU := A.Upper.isLt
  have hLext : (A.Lower.setWidth DstTySize).toNat = A.Lower.toNat := BitVec.toNat_setWidth_of_le (by omega)
  have hUext : (A.Upper.setWidth DstTySize).toNat = A.Upper.toNat := BitVec.toNat_setWidth_of_le (by omega)
  have htwo : (BitVec.twoPow DstTySize w).toNat = 2 ^ w := by
    rw [BitVec.toNat_twoPow, Nat.mod_eq_of_lt hpow]
  have hof : ∀ x : BitVec DstTySize, x.toNat < 2 ^ w → (BitVec.ofNat w x.toNat).toNat = x.toNat :=
    fun x hx => by rw [BitVec.toNat_ofNat, Nat.mod_eq_of_lt hx]
  have himage : ∀ x : BitVec DstTySize, (∃ a ∈ A, a.setWidth DstTySize = x) ↔ x.toNat < 2 ^ w ∧
      (A.Lower.toNat < A.Upper.toNat ∧ A.Lower.toNat ≤ x.toNat ∧ x.toNat < A.Upper.toNat ∨
        A.Upper.toNat < A.Lower.toNat ∧ (A.Lower.toNat ≤ x.toNat ∨ x.toNat < A.Upper.toNat) ∨
        A.Lower.toNat = A.Upper.toNat ∧ 0 < A.Lower.toNat) := by
    intro x
    rw [mem_zext (Nat.le_of_lt h)]
    refine and_congr_right fun hx => ?_
    rw [mem_iff, hof x hx]
  unfold zeroExtend
  dsimp only
  by_cases hempty : A.isEmptySet = true
  · rw [if_pos hempty]
    refine ⟨_, rfl, .of_iff fun x => iff_of_false (not_mem_getEmpty _ x) ?_⟩
    rintro ⟨a, ha, -⟩
    exact isEmptySet_iff_forall.mp hempty a ha
  rw [if_neg hempty]
  rw [isEmptySet_iff] at hempty
  by_cases hwrap : (A.isFullSet || A.isUpperWrapped) = true
  · rw [if_pos hwrap]
    rw [Bool.or_eq_true, isFullSet_iff, isUpperWrapped_iff] at hwrap
    by_cases hzero : A.Upper = 0
    · rw [if_pos hzero]
      rw [eq_iff, toNat_zero] at hzero
      obtain ⟨R, hR, hmem⟩ := mem_ofBounds (L := A.Lower.setWidth DstTySize)
        (U := BitVec.twoPow DstTySize w) (by omega) (by omega)
      refine ⟨R, hR, .of_iff fun x => ?_⟩
      rw [hmem]
      refine Iff.trans ?_ (himage x).symm
      omega
    · rw [if_neg hzero]
      rw [eq_iff, toNat_zero] at hzero
      have hz := toNat_zero (w := DstTySize)
      obtain ⟨R, hR, hmem⟩ := mem_ofBounds (L := 0) (U := BitVec.twoPow DstTySize w) (by omega) (by omega)
      refine ⟨R, hR, fun x hx => ?_, fun ⟨C, hC⟩ x => ?_⟩
      · have hx := (himage x).mp hx
        rw [hmem]
        omega
      · rw [hmem]
        refine Iff.trans ?_ (himage x).symm
        by_cases hfull : A.Lower.toNat = A.Upper.toNat
        · omega
        -- no range has `0` and `Lower` without `Upper` and the first word out of reach
        have h0 : 0 ∈ C := ((hC 0).trans (himage 0)).mpr (by omega)
        have hCL : A.Lower.setWidth DstTySize ∈ C := ((hC _).trans (himage _)).mpr (by omega)
        have hCU : A.Upper.setWidth DstTySize ∉ C := mt ((hC _).trans (himage _)).mp (by omega)
        have hCE : BitVec.twoPow DstTySize w ∉ C := mt ((hC _).trans (himage _)).mp (by omega)
        exact absurd ⟨0, _, _, _, by omega, by omega, by omega, iff_of_true h0 hCL,
          iff_of_false hCU hCE, fun h => hCU (h.mp h0)⟩ (not_split_range C)
  · rw [if_neg hwrap]
    rw [Bool.or_eq_true, not_or, isFullSet_iff, isUpperWrapped_iff] at hwrap
    obtain ⟨R, hR, hmem⟩ := mem_ofBounds (L := A.Lower.setWidth DstTySize)
      (U := A.Upper.setWidth DstTySize) (by omega) (by omega)
    refine ⟨R, hR, .of_iff fun x => ?_⟩
    rw [hmem]
    refine Iff.trans ?_ (himage x).symm
    omega

/-! ## Sign extension -/

theorem mem_iff_toInt {R : ConstantRange w} {x : BitVec w} :
    x ∈ R ↔
      R.Lower.toInt < R.Upper.toInt ∧ R.Lower.toInt ≤ x.toInt ∧ x.toInt < R.Upper.toInt ∨
      R.Upper.toInt < R.Lower.toInt ∧ (R.Lower.toInt ≤ x.toInt ∨ x.toInt < R.Upper.toInt) ∨
      R.Lower.toInt = R.Upper.toInt ∧ 0 < R.Lower.toNat := by
  have hx := toInt_cases R.pos x
  have hL := toInt_cases R.pos R.Lower
  have hU := toInt_cases R.pos R.Upper
  have hxlt := x.isLt
  have hLlt := R.Lower.isLt
  have hUlt := R.Upper.isLt
  rw [mem_iff]
  omega

theorem mem_ofBounds_toInt {L U : BitVec w} (hw : 0 < w) (h : L.toInt < U.toInt) :
    ∃ R, ofBounds L U hw = some R ∧ ∀ x : BitVec w, x ∈ R ↔ L.toInt ≤ x.toInt ∧ x.toInt < U.toInt := by
  have hne : L.toNat ≠ U.toNat := fun heq => by rw [eq_iff.mpr heq] at h; omega
  obtain ⟨R, hR, hL, hU⟩ := ofBounds_eq hw fun heq => absurd heq hne
  refine ⟨R, hR, fun x => ?_⟩
  rw [mem_iff_toInt, hL, hU]
  omega

/-- No range has two gaps between signed numbers. -/
theorem not_split_toInt (C : ConstantRange w) {p q r s : BitVec w} (hpq : p.toInt < q.toInt)
    (hqr : q.toInt < r.toInt) (hrs : r.toInt < s.toInt) (hp : p ∈ C) (hq : q ∉ C) (hr : r ∈ C)
    (hs : s ∉ C) : False := by
  rw [mem_iff_toInt] at hp hq hr hs
  omega

theorem mem_sext {x : BitVec d} (hw : 0 < w) (h : w ≤ d) :
    (∃ a ∈ A, a.signExtend d = x) ↔
      (-2 ^ (w - 1) ≤ x.toInt ∧ x.toInt < 2 ^ (w - 1)) ∧ BitVec.ofInt w x.toInt ∈ A := by
  constructor
  · rintro ⟨a, ha, rfl⟩
    rw [BitVec.toInt_signExtend_of_le h, BitVec.ofInt_toInt]
    exact ⟨⟨BitVec.le_toInt a, BitVec.toInt_lt⟩, ha⟩
  · rintro ⟨⟨hlow, hhigh⟩, ha⟩
    refine ⟨_, ha, ?_⟩
    rw [toInt_eq_iff, BitVec.toInt_signExtend_of_le h, BitVec.toInt_ofInt_eq_self hw hlow hhigh]

theorem toNat_getHighBitsSet (hi : Nat) (h : hi ≤ d) :
    (getHighBitsSet d hi).toNat + 2 ^ (d - hi) = 2 ^ d := by
  obtain ⟨k, hk⟩ : ∃ k, 2 ^ d = 2 ^ (d - hi) * 2 ^ k ∧ 0 < 2 ^ k :=
    ⟨hi, by rw [← Nat.pow_add, Nat.sub_add_cancel h], Nat.two_pow_pos _⟩
  have hpos : 0 < 2 ^ (d - hi) := Nat.two_pow_pos _
  have hle : 2 ^ (d - hi) ≤ 2 ^ d := Nat.pow_le_pow_right (by omega) (Nat.sub_le _ _)
  unfold getHighBitsSet
  rw [BitVec.toNat_shiftLeft, BitVec.toNat_allOnes, Nat.shiftLeft_eq]
  have hmul : (2 ^ d - 1) * 2 ^ (d - hi) = (2 ^ d - 2 ^ (d - hi)) + 2 ^ d * (2 ^ (d - hi) - 1) := by
    obtain ⟨P, hP⟩ : ∃ P, 2 ^ (d - hi) = P + 1 := ⟨2 ^ (d - hi) - 1, by omega⟩
    obtain ⟨N, hN⟩ : ∃ N, 2 ^ d = N + (P + 1) := ⟨2 ^ d - (P + 1), by omega⟩
    rw [hP, hN, show N + (P + 1) - 1 = N + P by omega, show N + (P + 1) - (P + 1) = N by omega,
      show P + 1 - 1 = P by omega]
    ring
  rw [hmul, Nat.add_mul_mod_self_left, Nat.mod_eq_of_lt (by omega)]
  omega

theorem toNat_getLowBitsSet (lo : Nat) (h : lo ≤ d) : (getLowBitsSet d lo).toNat + 1 = 2 ^ lo := by
  have hpos : 0 < 2 ^ (d - lo) := Nat.two_pow_pos _
  have hlo : 0 < 2 ^ lo := Nat.two_pow_pos _
  unfold getLowBitsSet
  rw [BitVec.toNat_ushiftRight, BitVec.toNat_allOnes, Nat.shiftRight_eq_div_pow]
  have hsplit : 2 ^ d - 1 = (2 ^ (d - lo) - 1) + 2 ^ (d - lo) * (2 ^ lo - 1) := by
    have hmul : 2 ^ d = 2 ^ (d - lo) * 2 ^ lo := by rw [← Nat.pow_add, Nat.sub_add_cancel h]
    rw [hmul, Nat.mul_sub, Nat.mul_one]
    have hle : 2 ^ (d - lo) ≤ 2 ^ (d - lo) * 2 ^ lo := Nat.le_mul_of_pos_right _ hlo
    omega
  rw [hsplit, Nat.add_mul_div_left _ _ hpos, Nat.div_eq_of_lt (by omega)]
  omega

/-- The signed numbers of the extended members. -/
theorem sext_image {x : BitVec d} (h : w ≤ d) :
    (∃ a ∈ A, a.signExtend d = x) ↔
      (-(2 ^ (w - 1) : Nat) ≤ x.toInt ∧ x.toInt < (2 ^ (w - 1) : Nat)) ∧
      (A.Lower.toInt < A.Upper.toInt ∧ A.Lower.toInt ≤ x.toInt ∧ x.toInt < A.Upper.toInt ∨
        A.Upper.toInt < A.Lower.toInt ∧ (A.Lower.toInt ≤ x.toInt ∨ x.toInt < A.Upper.toInt) ∨
        A.Lower.toInt = A.Upper.toInt ∧ 0 < A.Lower.toNat) := by
  rw [mem_sext A.pos h, two_pow_cast]
  refine and_congr_right fun hx => ?_
  rw [mem_iff_toInt, BitVec.toInt_ofInt_eq_self A.pos (by rw [two_pow_cast]; exact hx.1)
    (by rw [two_pow_cast]; exact hx.2)]

/-- The first word of the target that the source's words do not reach. -/
theorem toInt_lowBits_add_one (hw : 0 < w) (h : w < d) :
    (getLowBitsSet d (w - 1) + 1).toInt = (2 ^ (w - 1) : Nat) := by
  have hd : 0 < d := by omega
  have hlt : 2 ^ (w - 1) < 2 ^ (d - 1) := Nat.pow_lt_pow_right (by decide) (by omega)
  have h1 := toNat_one hd
  have h2 := two_pow_eq hd
  have hlow := toNat_getLowBitsSet (d := d) (w - 1) (by omega)
  have hadd := toNat_add_cases (getLowBitsSet d (w - 1)) 1
  have hlowi := toInt_cases hd (getLowBitsSet d (w - 1) + 1)
  omega

/-- The least word of the source. -/
theorem toInt_highBits (hw : 0 < w) (h : w < d) :
    (getHighBitsSet d (d - w + 1)).toInt = -(2 ^ (w - 1) : Nat) := by
  have hd : 0 < d := by omega
  have hle : 2 ^ (w - 1) ≤ 2 ^ (d - 1) := Nat.pow_le_pow_right (by decide) (by omega)
  have h2 := two_pow_eq hd
  have hhigh := toNat_getHighBitsSet (d := d) (d - w + 1) (by omega)
  rw [show d - (d - w + 1) = w - 1 by omega] at hhigh
  have hhighi := toInt_cases hd (getHighBitsSet d (d - w + 1))
  omega

theorem toInt_range (hw : 0 < w) (x : BitVec w) :
    -(2 ^ (w - 1) : Nat) ≤ x.toInt ∧ x.toInt < (2 ^ (w - 1) : Nat) := by
  rw [← two_pow_cast]
  exact ⟨BitVec.le_toInt x, BitVec.toInt_lt⟩

/-- All words of the source, where the range is full or wraps around as signed. -/
theorem signExtend_wrapped (h : w < d) (hd : 0 < d) (hmin : A.Upper.toNat ≠ 2 ^ (w - 1))
    (hwrap : A.Lower.toInt = A.Upper.toInt ∧ 0 < A.Lower.toNat ∨ A.Upper.toInt < A.Lower.toInt) :
    ∃ R, ofBounds (getHighBitsSet d (d - w + 1)) (getLowBitsSet d (w - 1) + 1) hd = some R ∧
      Tight R fun x => ∃ a ∈ A, a.signExtend d = x := by
  have hpos : 0 < 2 ^ (w - 1) := Nat.two_pow_pos _
  have hfirst := toInt_highBits A.pos h
  have hlast := toInt_lowBits_add_one A.pos h
  have himage : ∀ x : BitVec d, _ := fun x => sext_image (A := A) (x := x) (Nat.le_of_lt h)
  obtain ⟨R, hR, hmem⟩ := mem_ofBounds_toInt (L := getHighBitsSet d (d - w + 1))
    (U := getLowBitsSet d (w - 1) + 1) hd (by omega)
  rw [hfirst, hlast] at hmem
  refine ⟨R, hR, fun x hx => (hmem x).mpr ((himage x).mp hx).1, fun ⟨C, hC⟩ x => ?_⟩
  rw [hmem]
  refine Iff.trans ?_ (himage x).symm
  rcases hwrap with hfull | hUL
  · exact ⟨fun hx => ⟨hx, .inr (.inr hfull)⟩, And.left⟩
  -- no range has the least word and `Lower` without `Upper` and the first word out of reach
  have hLlow := toInt_range A.pos A.Lower
  have hUlow := toInt_range A.pos A.Upper
  have hUne : A.Upper.toInt ≠ -(2 ^ (w - 1) : Nat) := by
    have hUi := toInt_cases A.pos A.Upper
    have hw2 := two_pow_eq A.pos
    omega
  have hLext : (A.Lower.signExtend d).toInt = A.Lower.toInt := BitVec.toInt_signExtend_of_le (by omega)
  have hUext : (A.Upper.signExtend d).toInt = A.Upper.toInt := BitVec.toInt_signExtend_of_le (by omega)
  have hCp : getHighBitsSet d (d - w + 1) ∈ C :=
    ((hC _).trans (himage _)).mpr ⟨by omega, .inr (.inl ⟨hUL, by omega⟩)⟩
  have hCL : A.Lower.signExtend d ∈ C :=
    ((hC _).trans (himage _)).mpr ⟨by omega, .inr (.inl ⟨hUL, by omega⟩)⟩
  have hCU : A.Upper.signExtend d ∉ C := mt ((hC _).trans (himage _)).mp (by omega)
  have hCE : getLowBitsSet d (w - 1) + 1 ∉ C := mt ((hC _).trans (himage _)).mp (by omega)
  exact (not_split_toInt C (by omega) (by omega) (by omega) hCp hCU hCL hCE).elim

theorem signExtend_spec (A : ConstantRange w) (DstTySize : Nat) (h : w < DstTySize) :
    ∃ R, signExtend A DstTySize h = some R ∧ Tight R fun x => ∃ a ∈ A, a.signExtend DstTySize = x := by
  have hd : 0 < DstTySize := by omega
  have hpow : 2 ^ w ≤ 2 ^ (DstTySize - 1) := Nat.pow_le_pow_right (by omega) (by omega)
  have hd2 := two_pow_eq hd
  have hw2 := two_pow_eq A.pos
  have hLi := toInt_cases A.pos A.Lower
  have hUi := toInt_cases A.pos A.Upper
  have hL := A.Lower.isLt
  have hU := A.Upper.isLt
  have hmin := toNat_intMin A.pos
  have hLext : (A.Lower.signExtend DstTySize).toInt = A.Lower.toInt :=
    BitVec.toInt_signExtend_of_le (by omega)
  have hUext : (A.Upper.signExtend DstTySize).toInt = A.Upper.toInt :=
    BitVec.toInt_signExtend_of_le (by omega)
  unfold signExtend
  dsimp only
  by_cases hempty : A.isEmptySet = true
  · rw [if_pos hempty]
    refine ⟨_, rfl, .of_iff fun x => iff_of_false (not_mem_getEmpty _ x) ?_⟩
    rintro ⟨a, ha, -⟩
    exact isEmptySet_iff_forall.mp hempty a ha
  rw [if_neg hempty]
  rw [isEmptySet_iff] at hempty
  by_cases hUmin : A.Upper = BitVec.intMin w
  · rw [if_pos hUmin]
    rw [eq_iff, hmin] at hUmin
    have hUz : (A.Upper.setWidth DstTySize).toNat = A.Upper.toNat :=
      BitVec.toNat_setWidth_of_le (by omega)
    have hUzi := toInt_cases hd (A.Upper.setWidth DstTySize)
    obtain ⟨R, hR, hmem⟩ := mem_ofBounds_toInt (L := A.Lower.signExtend DstTySize)
      (U := A.Upper.setWidth DstTySize) hd (by omega)
    refine ⟨R, hR, .of_iff fun x => ?_⟩
    rw [hmem]
    refine Iff.trans ?_ (sext_image (Nat.le_of_lt h)).symm
    omega
  rw [if_neg hUmin]
  rw [eq_iff, hmin] at hUmin
  by_cases hwrap : (A.isFullSet || A.isSignWrappedSet) = true
  · rw [if_pos hwrap]
    rw [Bool.or_eq_true, isFullSet_iff, isSignWrappedSet_iff] at hwrap
    exact signExtend_wrapped h hd hUmin (by omega)
  · rw [if_neg hwrap]
    rw [Bool.or_eq_true, not_or, isFullSet_iff, isSignWrappedSet_iff] at hwrap
    obtain ⟨R, hR, hmem⟩ := mem_ofBounds_toInt (L := A.Lower.signExtend DstTySize)
      (U := A.Upper.signExtend DstTySize) hd (by omega)
    refine ⟨R, hR, .of_iff fun x => ?_⟩
    rw [hmem]
    refine Iff.trans ?_ (sext_image (Nat.le_of_lt h)).symm
    omega

/-! ## Truncation -/

/-- The residues of an interval of numbers. -/
theorem exists_mod {L U D x : Nat} (hx : x < D) :
    (∃ n, L ≤ n ∧ n < U ∧ n % D = x) ↔
      L % D ≤ x ∧ L - L % D + x < U ∨ x < L % D ∧ L - L % D + D + x < U := by
  have hL := Nat.div_add_mod L D
  have hD : 0 < D := by omega
  have hmod := Nat.mod_lt L hD
  have hbase : L - L % D = D * (L / D) := by omega
  rw [hbase]
  constructor
  · rintro ⟨n, hlow, hhigh, rfl⟩
    have hn := Nat.div_add_mod n D
    rcases Nat.lt_or_ge (n % D) (L % D) with hlt | hge
    · refine .inr ⟨hlt, ?_⟩
      have hq : L / D + 1 ≤ n / D := by
        by_contra hq
        have hle : D * (n / D) ≤ D * (L / D) := Nat.mul_le_mul_left D (by omega)
        omega
      have hle : D * (L / D + 1) ≤ D * (n / D) := Nat.mul_le_mul_left D hq
      rw [Nat.mul_add, Nat.mul_one] at hle
      omega
    · refine .inl ⟨hge, ?_⟩
      have hle : D * (L / D) ≤ D * (n / D) := Nat.mul_le_mul_left D (Nat.div_le_div_right hlow)
      omega
  · rintro (⟨hle, hlt⟩ | ⟨hlt, hlt'⟩)
    · exact ⟨D * (L / D) + x, by omega, hlt, by rw [Nat.mul_add_mod, Nat.mod_eq_of_lt hx]⟩
    · refine ⟨D * (L / D) + D + x, by omega, hlt', ?_⟩
      rw [Nat.add_assoc, Nat.mul_add_mod, Nat.add_mod_left, Nat.mod_eq_of_lt hx]

theorem toNat_adjust (x : BitVec w) (d : Nat) :
    (x &&& getBitsSetFrom w d).toNat = x.toNat - x.toNat % 2 ^ d := by
  have hand : x &&& getBitsSetFrom w d = (x >>> d) <<< d := by
    ext i hi
    unfold getBitsSetFrom
    by_cases hid : i < d
    · simp [hid]
    · simp [hid, hi, show d + (i - d) = i by omega]
  have hdiv := Nat.div_add_mod x.toNat (2 ^ d)
  have hx := x.isLt
  rw [hand, BitVec.toNat_shiftLeft, BitVec.toNat_ushiftRight, Nat.shiftLeft_eq,
    Nat.shiftRight_eq_div_pow, Nat.mul_comm, Nat.mod_eq_of_lt (by omega)]
  omega

theorem getActiveBits_le (x : BitVec w) (n : Nat) : getActiveBits x ≤ n ↔ x.toNat < 2 ^ n := Nat.size_le

theorem toNat_clearBit {x : BitVec w} (hd : d < w) (hlow : 2 ^ d ≤ x.toNat) (hhigh : x.toNat < 2 ^ (d + 1)) :
    (clearBit x d).toNat + 2 ^ d = x.toNat := by
  have hpow : 2 ^ (d + 1) = 2 * 2 ^ d := by rw [Nat.pow_succ, Nat.mul_comm]
  have hclear : clearBit x d = (x.setWidth d).setWidth w := by
    ext i hi
    unfold clearBit
    by_cases hid : i < d
    · simp only [BitVec.getElem_and, BitVec.getElem_not, BitVec.getElem_twoPow, BitVec.getElem_setWidth,
        BitVec.getLsbD_setWidth, hid, decide_true, Bool.true_and]
      rw [decide_eq_false (Nat.ne_of_lt hid), Bool.not_false, Bool.and_true, BitVec.getLsbD_eq_getElem hi]
    · by_cases hieq : i = d
      · simp [hieq]
      · have hbit : x.getLsbD i = false :=
          Nat.testBit_lt_two_pow (Nat.lt_of_lt_of_le hhigh (Nat.pow_le_pow_right (by omega) (by omega)))
        simp [hid, ← BitVec.getLsbD_eq_getElem hi, hbit]
  have hmod : x.toNat % 2 ^ d = x.toNat - 2 ^ d := by
    rw [Nat.mod_eq_sub_mod hlow, Nat.mod_eq_of_lt (by omega)]
  rw [hclear, BitVec.toNat_setWidth_of_le (Nat.le_of_lt hd), BitVec.toNat_setWidth, hmod]
  omega

theorem trailingOnes_eq_iff {n x : Nat} (hd : d < n) (hx : x < 2 ^ d) :
    trailingOnes n x = d ↔ x + 1 = 2 ^ d := by
  induction n generalizing d x with
  | zero => omega
  | succ n ih =>
    unfold trailingOnes
    cases d with
    | zero =>
      obtain rfl : x = 0 := by omega
      simp
    | succ d =>
      have hpow : 2 ^ (d + 1) = 2 * 2 ^ d := by rw [Nat.pow_succ, Nat.mul_comm]
      split_ifs with hodd
      · rw [Nat.add_right_cancel_iff, ih (by omega) (by omega)]
        omega
      · exact iff_of_false not_false (by omega)

/-- `truncateDiv` is the residues of the interval from `L` to `U`, united with the rest. -/
theorem truncateDiv_spec (hdw : d < w) (Union : ConstantRange d) {L U : BitVec w}
    (hLU : L.toNat < U.toNat) :
    ∃ R, truncateDiv L U Union = some R ∧
      ((∃ P : ConstantRange d, R = P.unionWith Union .Smallest ∧
          ∀ x, x ∈ P ↔ ∃ n, L.toNat ≤ n ∧ n < U.toNat ∧ n % 2 ^ d = x.toNat) ∨
        R = getFull Union.pos ∧
          ∀ x : BitVec d, ∃ n, L.toNat ≤ n ∧ n < U.toNat ∧ n % 2 ^ d = x.toNat) := by
  have hD : 0 < 2 ^ d := Nat.two_pow_pos d
  have hmod := Nat.mod_lt L.toNat hD
  have hmodle := Nat.mod_le L.toNat (2 ^ d)
  have hpow : 2 ^ (d + 1) = 2 * 2 ^ d := by rw [Nat.pow_succ, Nat.mul_comm]
  have hadj := toNat_adjust L d
  have hsubL := toNat_sub_cases L (L &&& getBitsSetFrom w d)
  have hsubU := toNat_sub_cases U (L &&& getBitsSetFrom w d)
  unfold truncateDiv
  dsimp only
  obtain ⟨LowerDiv, hLower⟩ : ∃ l, (if getActiveBits L > d then L - (L &&& getBitsSetFrom w d) else L) = l :=
    ⟨_, rfl⟩
  obtain ⟨UpperDiv, hUpper⟩ : ∃ u, (if getActiveBits L > d then U - (L &&& getBitsSetFrom w d) else U) = u :=
    ⟨_, rfl⟩
  rw [hLower, hUpper]
  -- both ends without the high bits of the lower one
  have hdiv : LowerDiv.toNat = L.toNat % 2 ^ d ∧
      UpperDiv.toNat + (L.toNat - L.toNat % 2 ^ d) = U.toNat := by
    by_cases hactive : getActiveBits L > d
    · rw [if_pos hactive] at hLower hUpper
      subst hLower hUpper
      omega
    · rw [if_neg hactive] at hLower hUpper
      rw [gt_iff_lt, Nat.not_lt, getActiveBits_le] at hactive
      subst hLower hUpper
      rw [Nat.mod_eq_of_lt hactive]
      omega
  have hLowerTrunc : (LowerDiv.setWidth d).toNat = LowerDiv.toNat := by
    rw [BitVec.toNat_setWidth, Nat.mod_eq_of_lt (by omega)]
  by_cases hshort : getActiveBits UpperDiv ≤ d
  · rw [if_pos hshort]
    rw [getActiveBits_le] at hshort
    have hUpperTrunc : (UpperDiv.setWidth d).toNat = UpperDiv.toNat := by
      rw [BitVec.toNat_setWidth, Nat.mod_eq_of_lt hshort]
    obtain ⟨P, hP, hmem⟩ := mem_ofBounds (L := LowerDiv.setWidth d) (U := UpperDiv.setWidth d) Union.pos
      (by omega)
    rw [hP]
    refine ⟨_, rfl, .inl ⟨P, rfl, fun x => ?_⟩⟩
    have hx := x.isLt
    rw [hmem, exists_mod hx]
    omega
  rw [if_neg hshort]
  rw [getActiveBits_le] at hshort
  by_cases hwrap : getActiveBits UpperDiv = d + 1 ∧ (clearBit UpperDiv d).ult LowerDiv = true
  · rw [if_pos hwrap]
    have hhigh : UpperDiv.toNat < 2 ^ (d + 1) := (getActiveBits_le _ _).mp (Nat.le_of_eq hwrap.1)
    have hclear := toNat_clearBit hdw (Nat.not_lt.mp hshort) hhigh
    have hlt := hwrap.2
    rw [BitVec.ult_iff_lt, BitVec.lt_def] at hlt
    have hUpperTrunc : ((clearBit UpperDiv d).setWidth d).toNat = (clearBit UpperDiv d).toNat := by
      rw [BitVec.toNat_setWidth, Nat.mod_eq_of_lt (by omega)]
    obtain ⟨P, hP, hmem⟩ := mem_ofBounds (L := LowerDiv.setWidth d)
      (U := (clearBit UpperDiv d).setWidth d) Union.pos (by omega)
    rw [hP]
    refine ⟨_, rfl, .inl ⟨P, rfl, fun x => ?_⟩⟩
    have hx := x.isLt
    rw [hmem, exists_mod hx]
    omega
  · rw [if_neg hwrap]
    refine ⟨_, rfl, .inr ⟨rfl, fun x => ?_⟩⟩
    have hx := x.isLt
    rw [exists_mod hx]
    -- the interval has as many numbers as there are residues
    have hlong : LowerDiv.toNat + 2 ^ d ≤ UpperDiv.toNat := by
      by_cases hhigh : UpperDiv.toNat < 2 ^ (d + 1)
      · have hsize : getActiveBits UpperDiv = d + 1 :=
          Nat.le_antisymm ((getActiveBits_le _ _).mpr hhigh)
            (Nat.lt_of_not_le fun hle => hshort ((getActiveBits_le _ _).mp hle))
        have hclear := toNat_clearBit hdw (Nat.not_lt.mp hshort) hhigh
        have hnlt : ¬(clearBit UpperDiv d).ult LowerDiv = true := fun h => hwrap ⟨hsize, h⟩
        rw [BitVec.ult_iff_lt, BitVec.lt_def] at hnlt
        omega
      · omega
    omega

theorem mem_trunc {x : BitVec d} :
    (∃ a ∈ A, a.setWidth d = x) ↔ ∃ n, n < 2 ^ w ∧ BitVec.ofNat w n ∈ A ∧ n % 2 ^ d = x.toNat := by
  constructor
  · rintro ⟨a, ha, rfl⟩
    refine ⟨a.toNat, a.isLt, ?_, (BitVec.toNat_setWidth d a).symm⟩
    rw [BitVec.ofNat_toNat, BitVec.setWidth_eq]
    exact ha
  · rintro ⟨n, hn, ha, hx⟩
    refine ⟨_, ha, ?_⟩
    rw [eq_iff, BitVec.toNat_setWidth, BitVec.toNat_ofNat, Nat.mod_eq_of_lt hn, hx]

theorem mem_unionWith_empty (hd : 0 < d) (P : ConstantRange d) (x : BitVec d) :
    x ∈ P.unionWith (getEmpty hd) .Smallest ↔ x ∈ P := by
  rw [unionWith_exact ⟨P, fun y => by simp⟩]
  simp

/-- The words that a wrapped range truncates to form a range, as far as its lower part is not longer
than the residues. -/
theorem exists_wrapped {L U : BitVec w} (hd : 0 < d) (hdw : d < w) (hU : U.toNat + 1 < 2 ^ d) :
    ∃ C : ConstantRange d, ∀ x : BitVec d, x ∈ C ↔
      (∃ n, L.toNat ≤ n ∧ n < 2 ^ w - 1 ∧ n % 2 ^ d = x.toNat) ∨ x.toNat = 2 ^ d - 1 ∨
        x.toNat < U.toNat := by
  have hpow : 2 ^ w = 2 ^ d * 2 ^ (w - d) := by rw [← Nat.pow_add, Nat.add_sub_cancel' (Nat.le_of_lt hdw)]
  have hD : 0 < 2 ^ d := Nat.two_pow_pos d
  have hE : 0 < 2 ^ (w - d) := Nat.two_pow_pos _
  have hmod := Nat.mod_lt L.toNat hD
  have hmodle := Nat.mod_le L.toNat (2 ^ d)
  by_cases hlong : L.toNat + 2 ^ d < 2 ^ w
  · -- every residue is reached
    refine ⟨getFull hd, fun x => iff_of_true (mem_getFull hd x) (.inl ?_)⟩
    have hx := x.isLt
    rw [exists_mod hx]
    omega
  · have hdiv := Nat.div_add_mod L.toNat (2 ^ d)
    have hbase : L.toNat - L.toNat % 2 ^ d + 2 ^ d = 2 ^ w := by
      have hq : L.toNat / 2 ^ d = 2 ^ (w - d) - 1 := by
        have hlt : L.toNat / 2 ^ d < 2 ^ (w - d) := by
          rw [Nat.div_lt_iff_lt_mul hD, Nat.mul_comm, ← hpow]
          exact L.isLt
        have hge : 2 ^ (w - d) - 1 ≤ L.toNat / 2 ^ d := by
          rw [Nat.le_div_iff_mul_le hD, Nat.mul_comm, Nat.mul_sub, ← hpow]
          omega
        omega
      have hmul : 2 ^ d * (2 ^ (w - d) - 1) + 2 ^ d = 2 ^ w := by
        rw [hpow, Nat.mul_sub, Nat.mul_one, Nat.sub_add_cancel (Nat.le_mul_of_pos_right _ hE)]
      rw [hq] at hdiv
      omega
    have hlow : (BitVec.ofNat d (L.toNat % 2 ^ d)).toNat = L.toNat % 2 ^ d := by
      rw [BitVec.toNat_ofNat, Nat.mod_mod]
    have hup : (U.setWidth d).toNat = U.toNat := by
      rw [BitVec.toNat_setWidth, Nat.mod_eq_of_lt (by omega)]
    by_cases hgap : U.toNat < L.toNat % 2 ^ d
    · obtain ⟨C, -, hC⟩ := mem_ofBounds (L := BitVec.ofNat d (L.toNat % 2 ^ d)) (U := U.setWidth d) hd
        (by omega)
      refine ⟨C, fun x => ?_⟩
      have hx := x.isLt
      rw [hC, exists_mod hx]
      omega
    · refine ⟨getFull hd, fun x => iff_of_true (mem_getFull hd x) ?_⟩
      have hx := x.isLt
      rw [exists_mod hx]
      omega

theorem truncate_spec (A : ConstantRange w) (DstTySize : Nat) (h : 0 < DstTySize ∧ DstTySize < w) :
    ∃ R, truncate A DstTySize h = some R ∧ ∀ x, x ∈ R ↔ ∃ a ∈ A, a.setWidth DstTySize = x := by
  have hpow : 2 ^ w = 2 ^ DstTySize * 2 ^ (w - DstTySize) := by
    rw [← Nat.pow_add, Nat.add_sub_cancel' (Nat.le_of_lt h.2)]
  have hD : 0 < 2 ^ DstTySize := Nat.two_pow_pos _
  have hltpow : 2 ^ DstTySize < 2 ^ w := Nat.pow_lt_pow_right (by omega) h.2
  have hL := A.Lower.isLt
  have hU := A.Upper.isLt
  unfold truncate
  by_cases hempty : A.isEmptySet = true
  · rw [if_pos hempty]
    refine ⟨_, rfl, fun x => iff_of_false (not_mem_getEmpty _ x) ?_⟩
    rintro ⟨a, ha, -⟩
    exact isEmptySet_iff_forall.mp hempty a ha
  rw [if_neg hempty]
  by_cases hfull : A.isFullSet = true
  · rw [if_pos hfull]
    refine ⟨_, rfl, fun x => iff_of_true (mem_getFull _ x) ?_⟩
    exact ⟨x.setWidth w, isFullSet_iff_forall.mp hfull _, by
      rw [eq_iff, BitVec.toNat_setWidth, BitVec.toNat_setWidth_of_le (Nat.le_of_lt h.2),
        Nat.mod_eq_of_lt x.isLt]⟩
  rw [if_neg hfull]
  have hmemA : ∀ n, n < 2 ^ w → (BitVec.ofNat w n ∈ A ↔
      A.Lower.toNat < A.Upper.toNat ∧ A.Lower.toNat ≤ n ∧ n < A.Upper.toNat ∨
        A.Upper.toNat < A.Lower.toNat ∧ (A.Lower.toNat ≤ n ∨ n < A.Upper.toNat)) := by
    intro n hn
    rw [isFullSet_iff] at hfull
    rw [mem_iff, BitVec.toNat_ofNat, Nat.mod_eq_of_lt hn]
    omega
  rw [isEmptySet_iff] at hempty
  rw [isFullSet_iff] at hfull
  by_cases hwrap : A.isUpperWrapped = true
  · rw [if_pos hwrap]
    rw [isUpperWrapped_iff] at hwrap
    have hlast : (2 ^ w - 1) % 2 ^ DstTySize = 2 ^ DstTySize - 1 := by
      have hsplit : 2 ^ w - 1 = 2 ^ DstTySize * (2 ^ (w - DstTySize) - 1) + (2 ^ DstTySize - 1) := by
        have hE : 0 < 2 ^ (w - DstTySize) := Nat.two_pow_pos _
        have hle := Nat.le_mul_of_pos_right (2 ^ DstTySize) hE
        rw [hpow, Nat.mul_sub, Nat.mul_one]
        omega
      rw [hsplit, Nat.mul_add_mod, Nat.mod_eq_of_lt (by omega)]
    have himage : ∀ x : BitVec DstTySize, (∃ a ∈ A, a.setWidth DstTySize = x) ↔
        (∃ n, A.Lower.toNat ≤ n ∧ n < 2 ^ w - 1 ∧ n % 2 ^ DstTySize = x.toNat) ∨
          x.toNat = 2 ^ DstTySize - 1 ∨ ∃ n, n < A.Upper.toNat ∧ n % 2 ^ DstTySize = x.toNat := by
      intro x
      rw [mem_trunc]
      constructor
      · rintro ⟨n, hn, ha, hx⟩
        rw [hmemA n hn] at ha
        by_cases hmax : n = 2 ^ w - 1
        · rw [hmax, hlast] at hx
          exact .inr (.inl hx.symm)
        · by_cases hlow : A.Lower.toNat ≤ n
          · exact .inl ⟨n, hlow, by omega, hx⟩
          · exact .inr (.inr ⟨n, by omega, hx⟩)
      · rintro (⟨n, hlow, hhigh, hx⟩ | hx | ⟨n, hn, hx⟩)
        · exact ⟨n, by omega, (hmemA n (by omega)).mpr (by omega), hx⟩
        · exact ⟨2 ^ w - 1, by omega, (hmemA _ (by omega)).mpr (by omega), hlast.trans hx.symm⟩
        · exact ⟨n, by omega, (hmemA n (by omega)).mpr (by omega), hx⟩
    by_cases hcover : (decide (getActiveBits A.Upper > DstTySize) ||
        countr_one A.Upper == DstTySize) = true
    · rw [if_pos hcover]
      refine ⟨_, rfl, fun x => iff_of_true (mem_getFull _ x) ((himage x).mpr (.inr ?_))⟩
      have hx := x.isLt
      have hlong : 2 ^ DstTySize ≤ A.Upper.toNat + 1 := by
        by_cases hactive : getActiveBits A.Upper ≤ DstTySize
        · rw [Bool.or_eq_true, decide_eq_true_eq, beq_iff_eq] at hcover
          have hones := hcover.resolve_left (Nat.not_lt.mpr hactive)
          rw [getActiveBits_le] at hactive
          exact Nat.le_of_eq ((trailingOnes_eq_iff h.2 hactive).mp hones).symm
        · rw [getActiveBits_le] at hactive
          omega
      by_cases hlt : x.toNat < A.Upper.toNat
      · exact .inr ⟨x.toNat, hlt, Nat.mod_eq_of_lt hx⟩
      · exact .inl (by omega)
    rw [if_neg hcover]
    rw [Bool.or_eq_true, decide_eq_true_eq, beq_iff_eq, not_or, gt_iff_lt, Nat.not_lt,
      getActiveBits_le] at hcover
    obtain ⟨hactive, hones⟩ := hcover
    have hshort : A.Upper.toNat + 1 < 2 ^ DstTySize := by
      have hne := mt (trailingOnes_eq_iff h.2 hactive).mpr hones
      omega
    have hlowPart : ∀ x : BitVec DstTySize,
        (∃ n, n < A.Upper.toNat ∧ n % 2 ^ DstTySize = x.toNat) ↔ x.toNat < A.Upper.toNat := by
      intro x
      constructor
      · rintro ⟨n, hn, hx⟩
        rw [Nat.mod_eq_of_lt (by omega)] at hx
        omega
      · intro hx
        exact ⟨x.toNat, hx, Nat.mod_eq_of_lt x.isLt⟩
    have hones' : (BitVec.allOnes DstTySize).toNat = 2 ^ DstTySize - 1 := BitVec.toNat_allOnes
    have hUtrunc : (A.Upper.setWidth DstTySize).toNat = A.Upper.toNat := by
      rw [BitVec.toNat_setWidth, Nat.mod_eq_of_lt hactive]
    obtain ⟨Union, hUnion, hmemU⟩ := mem_ofBounds (L := BitVec.allOnes DstTySize)
      (U := A.Upper.setWidth DstTySize) h.1 (by omega)
    have hmemUnion : ∀ x, x ∈ Union ↔ x.toNat = 2 ^ DstTySize - 1 ∨ x.toNat < A.Upper.toNat := by
      intro x
      have hx := x.isLt
      rw [hmemU]
      omega
    rw [hUnion, Option.bind_eq_bind, Option.bind_some]
    by_cases hmax : A.Lower = BitVec.allOnes w
    · rw [if_pos hmax]
      refine ⟨_, rfl, fun x => ?_⟩
      rw [hmemUnion, himage, hlowPart]
      rw [eq_iff, BitVec.toNat_allOnes] at hmax
      constructor
      · exact .inr
      · rintro (⟨n, hlow, hhigh, -⟩ | hx)
        · omega
        · exact hx
    · rw [if_neg hmax]
      rw [eq_iff, BitVec.toNat_allOnes] at hmax
      obtain ⟨R, hR, hcase⟩ := truncateDiv_spec h.2 Union (L := A.Lower) (U := BitVec.allOnes w)
        (by rw [BitVec.toNat_allOnes]; omega)
      simp only [BitVec.toNat_allOnes] at hcase
      refine ⟨R, hR, fun x => ?_⟩
      rw [himage, hlowPart]
      rcases hcase with ⟨P, rfl, hP⟩ | ⟨rfl, hall⟩
      · obtain ⟨C, hC⟩ := exists_wrapped (L := A.Lower) h.1 h.2 hshort
        rw [unionWith_exact ⟨C, fun y => by rw [hC, hP, hmemUnion]⟩, hP, hmemUnion]
      · exact iff_of_true (mem_getFull _ x) (.inl (hall x))
  · rw [if_neg hwrap]
    rw [isUpperWrapped_iff] at hwrap
    obtain ⟨R, hR, hcase⟩ := truncateDiv_spec h.2 (getEmpty h.1) (L := A.Lower) (U := A.Upper) (by omega)
    refine ⟨R, hR, fun x => ?_⟩
    have himage : (∃ a ∈ A, a.setWidth DstTySize = x) ↔
        ∃ n, A.Lower.toNat ≤ n ∧ n < A.Upper.toNat ∧ n % 2 ^ DstTySize = x.toNat := by
      rw [mem_trunc]
      constructor
      · rintro ⟨n, hn, ha, hx⟩
        rw [hmemA n hn] at ha
        exact ⟨n, by omega, by omega, hx⟩
      · rintro ⟨n, hlow, hhigh, hx⟩
        exact ⟨n, by omega, (hmemA n (by omega)).mpr (by omega), hx⟩
    rw [himage]
    rcases hcase with ⟨P, rfl, hP⟩ | ⟨rfl, hall⟩
    · rw [mem_unionWith_empty, hP]
    · exact iff_of_true (mem_getFull _ x) (hall x)

end RvLlvm.IR.ConstantRange
