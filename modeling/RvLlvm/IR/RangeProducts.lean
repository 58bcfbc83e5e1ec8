import RvLlvm.APInt.Saturating
import RvLlvm.IR.NoWrapRegion
import RvLlvm.IR.RangeArithmetic
import RvLlvm.IR.RangeCasts

/-!
# Products, shifts and saturating operations of ranges

Model of `ConstantRange::addWithNoWrap`, `subWithNoWrap`, `multiply`, `shl`, `lshr`, `ashr` and the
saturating operations (`llvm/lib/IR/ConstantRange.cpp:1013-1154` and `:1459-1638`). Their bounds are
the results at the ends of the operands; a product also tries both signs in words of twice the width
and takes the smaller range.

* `multiply_spec`, `mem_shl`, `mem_ashr`: each result of a pair of members is a member.
* `arithmetic_sound`: so for all operations, with sums, differences and casts exact.
-/

namespace RvLlvm.IR.ConstantRange

open Support.WordOrder
open APInt.Saturating (countl_zero toNat_uadd_sat toNat_usub_sat toInt_sadd_sat toInt_ssub_sat
  toNat_umul_sat toInt_smul_sat toNat_ushl_sat toInt_sshl_sat clamp)

variable {w : Nat}

/-- The range between two results, where both operands have members. -/
def boundsRange (A B : ConstantRange w) (NewL NewU : BitVec w) : ConstantRange w :=
  if A.isEmptySet || B.isEmptySet then getEmpty A.pos else getNonEmpty NewL (NewU + 1) A.pos

def uadd_sat (A B : ConstantRange w) : ConstantRange w :=
  boundsRange A B (APInt.Saturating.uadd_sat A.getUnsignedMin B.getUnsignedMin)
    (APInt.Saturating.uadd_sat A.getUnsignedMax B.getUnsignedMax)

def sadd_sat (A B : ConstantRange w) : ConstantRange w :=
  boundsRange A B (APInt.Saturating.sadd_sat A.getSignedMin B.getSignedMin)
    (APInt.Saturating.sadd_sat A.getSignedMax B.getSignedMax)

def usub_sat (A B : ConstantRange w) : ConstantRange w :=
  boundsRange A B (APInt.Saturating.usub_sat A.getUnsignedMin B.getUnsignedMax)
    (APInt.Saturating.usub_sat A.getUnsignedMax B.getUnsignedMin)

def ssub_sat (A B : ConstantRange w) : ConstantRange w :=
  boundsRange A B (APInt.Saturating.ssub_sat A.getSignedMin B.getSignedMax)
    (APInt.Saturating.ssub_sat A.getSignedMax B.getSignedMin)

def umul_sat (A B : ConstantRange w) : ConstantRange w :=
  boundsRange A B (APInt.Saturating.umul_sat A.getUnsignedMin B.getUnsignedMin)
    (APInt.Saturating.umul_sat A.getUnsignedMax B.getUnsignedMax)

/-- `std::min` with `slt`. -/
def smin (a b : BitVec w) : BitVec w := if b.slt a then b else a

/-- `std::max` with `slt`. -/
def smax (a b : BitVec w) : BitVec w := if a.slt b then b else a

/-- The least of the results at the four pairs of signed bounds. -/
def cornerMin {v : Nat} (f : BitVec w → BitVec w → BitVec v) (A B : ConstantRange w) : BitVec v :=
  smin (smin (smin (f A.getSignedMin B.getSignedMin) (f A.getSignedMin B.getSignedMax))
    (f A.getSignedMax B.getSignedMin)) (f A.getSignedMax B.getSignedMax)

/-- The greatest of them. -/
def cornerMax {v : Nat} (f : BitVec w → BitVec w → BitVec v) (A B : ConstantRange w) : BitVec v :=
  smax (smax (smax (f A.getSignedMin B.getSignedMin) (f A.getSignedMin B.getSignedMax))
    (f A.getSignedMax B.getSignedMin)) (f A.getSignedMax B.getSignedMax)

def smul_sat (A B : ConstantRange w) : ConstantRange w :=
  boundsRange A B (cornerMin APInt.Saturating.smul_sat A B) (cornerMax APInt.Saturating.smul_sat A B)

def ushl_sat (A B : ConstantRange w) : ConstantRange w :=
  boundsRange A B (APInt.Saturating.ushl_sat A.getUnsignedMin B.getUnsignedMin)
    (APInt.Saturating.ushl_sat A.getUnsignedMax B.getUnsignedMax)

def sshl_sat (A B : ConstantRange w) : ConstantRange w :=
  let Min := A.getSignedMin
  let Max := A.getSignedMax
  let ShAmtMin := B.getUnsignedMin
  let ShAmtMax := B.getUnsignedMax
  boundsRange A B (APInt.Saturating.sshl_sat Min (if Min.msb = false then ShAmtMin else ShAmtMax))
    (APInt.Saturating.sshl_sat Max (if Max.msb then ShAmtMin else ShAmtMax))

def addWithNoWrap (A B : ConstantRange w) (NoUnsignedWrap NoSignedWrap : Bool)
    (RangeType : PreferredRangeType) : ConstantRange w :=
  if A.isEmptySet || B.isEmptySet then getEmpty A.pos
  else if A.isFullSet && B.isFullSet then getFull A.pos
  else
    let Result := add A B
    let Result := if NoSignedWrap then Result.intersectWith (sadd_sat A B) RangeType else Result
    if NoUnsignedWrap then Result.intersectWith (uadd_sat A B) RangeType else Result

def subWithNoWrap (A B : ConstantRange w) (NoUnsignedWrap NoSignedWrap : Bool)
    (RangeType : PreferredRangeType) : ConstantRange w :=
  if A.isEmptySet || B.isEmptySet then getEmpty A.pos
  else if A.isFullSet && B.isFullSet then getFull A.pos
  else
    let Result := sub A B
    let Result := if NoSignedWrap then Result.intersectWith (ssub_sat A B) RangeType else Result
    if NoUnsignedWrap then
      -- the difference always overflows
      if A.getUnsignedMax.ult B.getUnsignedMin then getEmpty A.pos
      else Result.intersectWith (usub_sat A B) RangeType
    else Result

/-- The product of the unsigned bounds in twice the width. -/
def unsignedProduct (A B : ConstantRange w) : Option (ConstantRange w) := do
  let this_min := A.getUnsignedMin.setWidth (w * 2)
  let this_max := A.getUnsignedMax.setWidth (w * 2)
  let Other_min := B.getUnsignedMin.setWidth (w * 2)
  let Other_max := B.getUnsignedMax.setWidth (w * 2)
  let Result_zext ← ofBounds (this_min * Other_min) (this_max * Other_max + 1)
    (Nat.mul_pos A.pos (by decide))
  Result_zext.truncate w ⟨A.pos, by have := A.pos; omega⟩

/-- The products of the signed bounds in twice the width. -/
def signedProduct (A B : ConstantRange w) : Option (ConstantRange w) := do
  let product (a b : BitVec w) : BitVec (w * 2) := a.signExtend (w * 2) * b.signExtend (w * 2)
  let Result_sext ← ofBounds (cornerMin product A B) (cornerMax product A B + 1)
    (Nat.mul_pos A.pos (by decide))
  Result_sext.truncate w ⟨A.pos, by have := A.pos; omega⟩

def multiply (A B : ConstantRange w) : Option (ConstantRange w) :=
  if A.isEmptySet || B.isEmptySet then some (getEmpty A.pos)
  else if A.getSingleElement = some 1 then some B
  else if A.getSingleElement = some (BitVec.allOnes w) then some (sub (ofValue 0 A.pos) B)
  else if B.getSingleElement = some 1 then some A
  else if B.getSingleElement = some (BitVec.allOnes w) then some (sub (ofValue 0 A.pos) A)
  else do
    let UR ← unsignedProduct A B
    -- a range from one positive number to another is as good as any
    if !UR.isUpperWrapped && (!UR.Upper.msb || UR.Upper == BitVec.intMin w) then some UR
    else do
      let SR ← signedProduct A B
      some (if UR.isSizeStrictlySmallerThan SR then UR else SR)

def shl (A B : ConstantRange w) : ConstantRange w :=
  if A.isEmptySet || B.isEmptySet then getEmpty A.pos
  else
    let Min := A.getUnsignedMin
    let Max := A.getUnsignedMax
    match B.getSingleElement with
    | some RHS =>
      if w ≤ RHS.toNat then getEmpty A.pos
      else
        let EqualLeadingBits := countl_zero (Min ^^^ Max)
        if RHS.toNat ≤ EqualLeadingBits then
          getNonEmpty (Min <<< RHS.toNat) (Max <<< RHS.toNat + 1) A.pos
        else getNonEmpty 0 (getBitsSetFrom w RHS.toNat + 1) A.pos
    | none =>
      let OtherMax := B.getUnsignedMax
      -- there is overflow
      if countl_zero Max < OtherMax.toNat then getFull A.pos
      else getNonEmpty (Min <<< B.getUnsignedMin.toNat) (Max <<< OtherMax.toNat + 1) A.pos

def lshr (A B : ConstantRange w) : ConstantRange w :=
  boundsRange A B (A.getUnsignedMin >>> B.getUnsignedMax.toNat) (A.getUnsignedMax >>> B.getUnsignedMin.toNat)

def ashr (A B : ConstantRange w) : ConstantRange w :=
  let PosMax := A.getSignedMax.sshiftRight B.getUnsignedMin.toNat
  let PosMin := A.getSignedMin.sshiftRight B.getUnsignedMax.toNat
  let NegMax := A.getSignedMax.sshiftRight B.getUnsignedMax.toNat
  let NegMin := A.getSignedMin.sshiftRight B.getUnsignedMin.toNat
  if A.getSignedMin.msb = false then boundsRange A B PosMin PosMax
  else if A.getSignedMax.msb then boundsRange A B NegMin NegMax
  -- the members cross zero
  else boundsRange A B NegMin PosMax

variable {A B : ConstantRange w} {a b x : BitVec w}

/-! ## Results between two bounds -/

theorem mem_boundsRange_toNat {L U : BitVec w} (ha : a ∈ A) (hb : b ∈ B) (hL : L.toNat ≤ x.toNat)
    (hU : x.toNat ≤ U.toNat) : x ∈ boundsRange A B L U := by
  have h1 := toNat_one A.pos
  have hadd := toNat_add_cases U 1
  have hx := x.isLt
  have hU' := U.isLt
  unfold boundsRange
  rw [if_neg (by rw [nonempty_of_mem ha, nonempty_of_mem hb]; exact Bool.false_ne_true), mem_getNonEmpty]
  omega

theorem mem_boundsRange_toInt {L U : BitVec w} (ha : a ∈ A) (hb : b ∈ B) (hL : L.toInt ≤ x.toInt)
    (hU : x.toInt ≤ U.toInt) : x ∈ boundsRange A B L U := by
  unfold boundsRange
  rw [if_neg (by rw [nonempty_of_mem ha, nonempty_of_mem hb]; exact Bool.false_ne_true),
    mem_signedInterval (Int.le_trans hL hU)]
  exact ⟨hL, hU⟩

/-! ## Saturating sums, differences and products -/

theorem mem_uadd_sat (ha : a ∈ A) (hb : b ∈ B) : APInt.Saturating.uadd_sat a b ∈ uadd_sat A B := by
  have ha1 := getUnsignedMin_le ha
  have ha2 := le_getUnsignedMax ha
  have hb1 := getUnsignedMin_le hb
  have hb2 := le_getUnsignedMax hb
  refine mem_boundsRange_toNat ha hb ?_ ?_
  all_goals
    rw [toNat_uadd_sat, toNat_uadd_sat]
    omega

theorem mem_usub_sat (ha : a ∈ A) (hb : b ∈ B) : APInt.Saturating.usub_sat a b ∈ usub_sat A B := by
  have ha1 := getUnsignedMin_le ha
  have ha2 := le_getUnsignedMax ha
  have hb1 := getUnsignedMin_le hb
  have hb2 := le_getUnsignedMax hb
  refine mem_boundsRange_toNat ha hb ?_ ?_
  all_goals
    rw [toNat_usub_sat, toNat_usub_sat]
    omega

theorem mem_sadd_sat (ha : a ∈ A) (hb : b ∈ B) : APInt.Saturating.sadd_sat a b ∈ sadd_sat A B := by
  have ha1 := getSignedMin_le ha
  have ha2 := le_getSignedMax ha
  have hb1 := getSignedMin_le hb
  have hb2 := le_getSignedMax hb
  refine mem_boundsRange_toInt ha hb ?_ ?_
  all_goals
    rw [toInt_sadd_sat A.pos, toInt_sadd_sat A.pos]
    unfold clamp
    omega

theorem mem_ssub_sat (ha : a ∈ A) (hb : b ∈ B) : APInt.Saturating.ssub_sat a b ∈ ssub_sat A B := by
  have ha1 := getSignedMin_le ha
  have ha2 := le_getSignedMax ha
  have hb1 := getSignedMin_le hb
  have hb2 := le_getSignedMax hb
  refine mem_boundsRange_toInt ha hb ?_ ?_
  all_goals
    rw [toInt_ssub_sat A.pos, toInt_ssub_sat A.pos]
    unfold clamp
    omega

theorem mem_umul_sat (ha : a ∈ A) (hb : b ∈ B) : APInt.Saturating.umul_sat a b ∈ umul_sat A B := by
  have hlow := Nat.mul_le_mul (getUnsignedMin_le ha) (getUnsignedMin_le hb)
  have hhigh := Nat.mul_le_mul (le_getUnsignedMax ha) (le_getUnsignedMax hb)
  refine mem_boundsRange_toNat ha hb ?_ ?_
  all_goals
    rw [toNat_umul_sat A.pos, toNat_umul_sat A.pos]
    omega

theorem toInt_smin {v : Nat} (p q : BitVec v) : (smin p q).toInt = min p.toInt q.toInt := by
  unfold smin
  split_ifs with h
  all_goals
    rw [BitVec.slt_iff_toInt_lt] at h
    omega

theorem toInt_smax {v : Nat} (p q : BitVec v) : (smax p q).toInt = max p.toInt q.toInt := by
  unfold smax
  split_ifs with h
  all_goals
    rw [BitVec.slt_iff_toInt_lt] at h
    omega

/-- A product lies between the products at the ends of one factor. -/
theorem mul_between {l u a c : Int} (hl : l ≤ a) (hu : a ≤ u) :
    min (l * c) (u * c) ≤ a * c ∧ a * c ≤ max (l * c) (u * c) := by
  rcases Int.le_total 0 c with hc | hc
  · have h1 := Int.mul_le_mul_of_nonneg_right hl hc
    have h2 := Int.mul_le_mul_of_nonneg_right hu hc
    omega
  · have h1 := Int.mul_le_mul_of_nonpos_right hl hc
    have h2 := Int.mul_le_mul_of_nonpos_right hu hc
    omega

/-- A product lies between the products at the corners. -/
theorem mul_corners {l u l' u' a b : Int} (hl : l ≤ a) (hu : a ≤ u) (hl' : l' ≤ b) (hu' : b ≤ u') :
    min (min (min (l * l') (l * u')) (u * l')) (u * u') ≤ a * b ∧
      a * b ≤ max (max (max (l * l') (l * u')) (u * l')) (u * u') := by
  have hab := mul_between (c := b) hl hu
  have hlb := mul_between (c := l) hl' hu'
  have hub := mul_between (c := u) hl' hu'
  simp only [Int.mul_comm _ l, Int.mul_comm _ u] at hlb hub
  rw [Int.mul_comm l b, Int.mul_comm u b] at *
  simp only [Int.mul_comm b] at *
  omega

theorem clamp_le {m n : Int} (h : m ≤ n) : clamp w m ≤ clamp w n := by
  unfold clamp
  omega

theorem clamp_min (m n : Int) : clamp w (min m n) = min (clamp w m) (clamp w n) := by
  rcases Int.le_total m n with h | h
  · rw [Int.min_eq_left h, Int.min_eq_left (clamp_le h)]
  · rw [Int.min_eq_right h, Int.min_eq_right (clamp_le h)]

theorem clamp_max (m n : Int) : clamp w (max m n) = max (clamp w m) (clamp w n) := by
  rcases Int.le_total m n with h | h
  · rw [Int.max_eq_right h, Int.max_eq_right (clamp_le h)]
  · rw [Int.max_eq_left h, Int.max_eq_left (clamp_le h)]

theorem mem_smul_sat (ha : a ∈ A) (hb : b ∈ B) : APInt.Saturating.smul_sat a b ∈ smul_sat A B := by
  have hcorners := mul_corners (getSignedMin_le ha) (le_getSignedMax ha) (getSignedMin_le hb)
    (le_getSignedMax hb)
  refine mem_boundsRange_toInt ha hb ?_ ?_
  · simp only [cornerMin, toInt_smin, toInt_smul_sat A.pos, ← clamp_min]
    exact clamp_le hcorners.1
  · simp only [cornerMax, toInt_smax, toInt_smul_sat A.pos, ← clamp_max]
    exact clamp_le hcorners.2

theorem mem_ushl_sat (ha : a ∈ A) (hb : b ∈ B) : APInt.Saturating.ushl_sat a b ∈ ushl_sat A B := by
  have hb1 := getUnsignedMin_le hb
  have hb2 := le_getUnsignedMax hb
  have hlow := Nat.mul_le_mul (getUnsignedMin_le ha) (Nat.pow_le_pow_right (show 0 < 2 by decide) hb1)
  have hhigh := Nat.mul_le_mul (le_getUnsignedMax ha) (Nat.pow_le_pow_right (show 0 < 2 by decide) hb2)
  refine mem_boundsRange_toNat ha hb ?_ ?_
  all_goals
    rw [toNat_ushl_sat, toNat_ushl_sat]
    split_ifs <;> omega

theorem clamp_bounds (w : Nat) (n : Int) :
    -(2 ^ (w - 1) : Nat) ≤ clamp w n ∧ clamp w n ≤ (2 ^ (w - 1) : Nat) - 1 := by
  have hpos : 0 < 2 ^ (w - 1) := Nat.two_pow_pos _
  unfold clamp
  omega

/-- A number that is not negative grows with the shift. -/
theorem sshl_sat_grows (hw : 0 < w) {y s t : BitVec w} (hx : 0 ≤ x.toInt) (hxy : x.toInt ≤ y.toInt)
    (hst : s.toNat ≤ t.toNat) :
    (APInt.Saturating.sshl_sat x s).toInt ≤ (APInt.Saturating.sshl_sat y t).toInt := by
  have hbounds := clamp_bounds w (x.toInt * (2 ^ s.toNat : Nat))
  rw [toInt_sshl_sat hw, toInt_sshl_sat hw]
  simp only [APInt.Saturating.toInt_signedBound hw, msb_iff hw]
  by_cases ht : w ≤ t.toNat
  · rw [if_pos ht, if_neg (Int.not_lt.mpr hx), if_neg (Int.not_lt.mpr (Int.le_trans hx hxy))]
    split_ifs <;> omega
  · rw [if_neg ht, if_neg (by omega)]
    refine clamp_le ?_
    have hpow : ((2 ^ s.toNat : Nat) : Int) ≤ (2 ^ t.toNat : Nat) :=
      Int.ofNat_le.mpr (Nat.pow_le_pow_right (by decide) hst)
    calc x.toInt * (2 ^ s.toNat : Nat) ≤ y.toInt * (2 ^ s.toNat : Nat) :=
          Int.mul_le_mul_of_nonneg_right hxy (Int.natCast_nonneg _)
      _ ≤ y.toInt * (2 ^ t.toNat : Nat) := Int.mul_le_mul_of_nonneg_left hpow (Int.le_trans hx hxy)

/-- A negative number falls with the shift. -/
theorem sshl_sat_falls (hw : 0 < w) {y s t : BitVec w} (hx : x.toInt < 0) (hxy : x.toInt ≤ y.toInt)
    (hst : 0 ≤ y.toInt ∨ t.toNat ≤ s.toNat) :
    (APInt.Saturating.sshl_sat x s).toInt ≤ (APInt.Saturating.sshl_sat y t).toInt := by
  have hbounds := clamp_bounds w (y.toInt * (2 ^ t.toNat : Nat))
  have hpos : 0 < 2 ^ (w - 1) := Nat.two_pow_pos _
  have hxs : x.toInt * (2 ^ s.toNat : Nat) ≤ 0 :=
    Int.mul_nonpos_of_nonpos_of_nonneg (Int.le_of_lt hx) (Int.natCast_nonneg _)
  rw [toInt_sshl_sat hw, toInt_sshl_sat hw]
  simp only [APInt.Saturating.toInt_signedBound hw, msb_iff hw]
  rw [if_pos hx]
  by_cases hs : w ≤ s.toNat
  · rw [if_pos hs]
    split_ifs <;> omega
  rw [if_neg hs]
  by_cases hy : 0 ≤ y.toInt
  · have hyt : 0 ≤ y.toInt * (2 ^ t.toNat : Nat) := Int.mul_nonneg hy (Int.natCast_nonneg _)
    have hle := clamp_le (w := w) (Int.le_trans hxs hyt)
    have hclamp := clamp_bounds w (x.toInt * (2 ^ s.toNat : Nat))
    rw [if_neg (Int.not_lt.mpr hy)]
    split_ifs <;> omega
  · have hts := hst.resolve_left hy
    rw [if_neg (by omega)]
    refine clamp_le ?_
    have hpow : ((2 ^ t.toNat : Nat) : Int) ≤ (2 ^ s.toNat : Nat) :=
      Int.ofNat_le.mpr (Nat.pow_le_pow_right (by decide) hts)
    calc x.toInt * (2 ^ s.toNat : Nat) ≤ y.toInt * (2 ^ s.toNat : Nat) :=
          Int.mul_le_mul_of_nonneg_right hxy (Int.natCast_nonneg _)
      _ ≤ y.toInt * (2 ^ t.toNat : Nat) :=
          Int.mul_le_mul_of_nonpos_left (by omega) hpow

theorem mem_sshl_sat (ha : a ∈ A) (hb : b ∈ B) : APInt.Saturating.sshl_sat a b ∈ sshl_sat A B := by
  have ha1 := getSignedMin_le ha
  have ha2 := le_getSignedMax ha
  have hb1 := getUnsignedMin_le hb
  have hb2 := le_getUnsignedMax hb
  unfold sshl_sat
  dsimp only
  refine mem_boundsRange_toInt ha hb ?_ ?_
  · split_ifs with hmin
    · rw [← Bool.not_eq_true, msb_iff A.pos, Int.not_lt] at hmin
      exact sshl_sat_grows A.pos hmin ha1 hb1
    · rw [Bool.not_eq_false, msb_iff A.pos] at hmin
      exact sshl_sat_falls A.pos hmin ha1 (.inr hb2)
  · split_ifs with hmax
    · rw [msb_iff A.pos] at hmax
      exact sshl_sat_falls A.pos (Int.lt_of_le_of_lt ha2 hmax) ha2 (.inr hb1)
    · rw [msb_iff A.pos, Int.not_lt] at hmax
      by_cases ha0 : a.toInt < 0
      · exact sshl_sat_falls A.pos ha0 ha2 (.inl hmax)
      · exact sshl_sat_grows A.pos (Int.not_lt.mp ha0) ha2 hb2

/-! ## Shifts -/

theorem mem_lshr (ha : a ∈ A) (hb : b ∈ B) : a >>> b.toNat ∈ lshr A B := by
  have hb1 := Nat.pow_le_pow_right (show 0 < 2 by decide) (getUnsignedMin_le hb)
  have hb2 := Nat.pow_le_pow_right (show 0 < 2 by decide) (le_getUnsignedMax hb)
  refine mem_boundsRange_toNat ha hb ?_ ?_
  all_goals
    rw [BitVec.toNat_ushiftRight, BitVec.toNat_ushiftRight, Nat.shiftRight_eq_div_pow,
      Nat.shiftRight_eq_div_pow]
  · exact Nat.div_le_div (getUnsignedMin_le ha) hb2 (Nat.ne_of_gt (Nat.two_pow_pos _))
  · exact Nat.div_le_div (le_getUnsignedMax ha) hb1 (Nat.ne_of_gt (Nat.two_pow_pos _))

theorem toInt_ashr_le {y : BitVec w} (hxy : x.toInt ≤ y.toInt) (s : Nat) :
    (x.sshiftRight s).toInt ≤ (y.sshiftRight s).toInt := by
  rw [BitVec.toInt_sshiftRight, BitVec.toInt_sshiftRight, Int.shiftRight_eq_div_pow,
    Int.shiftRight_eq_div_pow]
  exact Int.ediv_le_ediv (Int.ofNat_lt.mpr (Nat.two_pow_pos s)) hxy

/-- A number that is not negative falls with the shift. -/
theorem toInt_ashr_falls (hx : 0 ≤ x.toInt) {s t : Nat} (hst : s ≤ t) :
    (x.sshiftRight t).toInt ≤ (x.sshiftRight s).toInt := by
  rw [BitVec.toInt_sshiftRight, BitVec.toInt_sshiftRight, Int.shiftRight_eq_div_pow,
    Int.shiftRight_eq_div_pow]
  obtain ⟨n, hn⟩ := Int.eq_ofNat_of_zero_le hx
  rw [hn, ← Int.natCast_ediv, ← Int.natCast_ediv]
  exact Int.ofNat_le.mpr (Nat.div_le_div_left (Nat.pow_le_pow_right (by decide) hst) (Nat.two_pow_pos s))

/-- A negative number grows with the shift. -/
theorem toInt_ashr_grows (hx : x.toInt < 0) {s t : Nat} (hst : s ≤ t) :
    (x.sshiftRight s).toInt ≤ (x.sshiftRight t).toInt := by
  rw [BitVec.toInt_sshiftRight, BitVec.toInt_sshiftRight, Int.shiftRight_eq_div_pow,
    Int.shiftRight_eq_div_pow]
  have hs : (0 : Int) < (2 ^ s : Nat) := Int.ofNat_lt.mpr (Nat.two_pow_pos s)
  have ht : (0 : Int) < (2 ^ t : Nat) := Int.ofNat_lt.mpr (Nat.two_pow_pos t)
  have hpow : ((2 ^ s : Nat) : Int) ≤ (2 ^ t : Nat) :=
    Int.ofNat_le.mpr (Nat.pow_le_pow_right (by decide) hst)
  have hneg : x.toInt / (2 ^ s : Nat) ≤ 0 := Int.le_of_lt (Int.ediv_neg_of_neg_of_pos hx hs)
  rw [Int.le_ediv_iff_mul_le ht]
  calc x.toInt / (2 ^ s : Nat) * (2 ^ t : Nat) ≤ x.toInt / (2 ^ s : Nat) * (2 ^ s : Nat) :=
        Int.mul_le_mul_of_nonpos_left hneg hpow
    _ ≤ x.toInt := Int.ediv_mul_le _ (Int.ne_of_gt hs)

theorem mem_ashr (ha : a ∈ A) (hb : b ∈ B) : a.sshiftRight b.toNat ∈ ashr A B := by
  have ha1 := getSignedMin_le ha
  have ha2 := le_getSignedMax ha
  have hb1 := getUnsignedMin_le hb
  have hb2 := le_getUnsignedMax hb
  have hlow := toInt_ashr_le ha1 b.toNat
  have hhigh := toInt_ashr_le ha2 b.toNat
  unfold ashr
  dsimp only
  split_ifs with hmin hmax
  · rw [← Bool.not_eq_true, msb_iff A.pos, Int.not_lt] at hmin
    have hmax : 0 ≤ A.getSignedMax.toInt := by omega
    exact mem_boundsRange_toInt ha hb (Int.le_trans (toInt_ashr_falls hmin hb2) hlow)
      (Int.le_trans hhigh (toInt_ashr_falls hmax hb1))
  · rw [Bool.not_eq_false, msb_iff A.pos] at hmin
    rw [msb_iff A.pos] at hmax
    exact mem_boundsRange_toInt ha hb (Int.le_trans (toInt_ashr_grows hmin hb1) hlow)
      (Int.le_trans hhigh (toInt_ashr_grows hmax hb2))
  · rw [Bool.not_eq_false, msb_iff A.pos] at hmin
    rw [msb_iff A.pos, Int.not_lt] at hmax
    exact mem_boundsRange_toInt ha hb (Int.le_trans (toInt_ashr_grows hmin hb1) hlow)
      (Int.le_trans hhigh (toInt_ashr_falls hmax hb1))

/-- Words whose high bits agree keep their order when these are shifted out. -/
theorem mem_shl_single {s : Nat} (ha : a ∈ A) (hs : s < w)
    (hlead : s ≤ countl_zero (A.getUnsignedMin ^^^ A.getUnsignedMax)) :
    a <<< s ∈ getNonEmpty (A.getUnsignedMin <<< s) (A.getUnsignedMax <<< s + 1) A.pos := by
  have hmin := getUnsignedMin_le ha
  have hmax := le_getUnsignedMax ha
  rw [APInt.Saturating.le_countl_zero (Nat.le_of_lt hs), BitVec.toNat_xor] at hlead
  generalize A.getUnsignedMin = Min at *
  generalize A.getUnsignedMax = Max at *
  have hP : 0 < 2 ^ (w - s) := Nat.two_pow_pos _
  have hpow : 2 ^ (w - s) * 2 ^ s = 2 ^ w := APInt.Saturating.pow_mul_pow (Nat.le_of_lt hs)
  have hshift : ∀ y : BitVec w, (y <<< s).toNat = y.toNat % 2 ^ (w - s) * 2 ^ s := by
    intro y
    rw [BitVec.toNat_shiftLeft, Nat.shiftLeft_eq, ← hpow, Nat.mul_mod_mul_right]
  have hsame : Min.toNat / 2 ^ (w - s) = Max.toNat / 2 ^ (w - s) := by
    have hxor : Min.toNat / 2 ^ (w - s) ^^^ Max.toNat / 2 ^ (w - s) = 0 := by
      rw [← Nat.shiftRight_eq_div_pow, ← Nat.shiftRight_eq_div_pow, ← Nat.shiftRight_xor_distrib,
        Nat.shiftRight_eq_div_pow, Nat.div_eq_of_lt hlead]
    rw [← Nat.xor_zero (Min.toNat / 2 ^ (w - s)), ← hxor, ← Nat.xor_assoc, Nat.xor_self, Nat.zero_xor]
  have hlow := Nat.div_le_div_right (c := 2 ^ (w - s)) hmin
  have hhigh := Nat.div_le_div_right (c := 2 ^ (w - s)) hmax
  have hda := Nat.div_add_mod a.toNat (2 ^ (w - s))
  have hdmin := Nat.div_add_mod Min.toNat (2 ^ (w - s))
  have hdmax := Nat.div_add_mod Max.toNat (2 ^ (w - s))
  have hqa : a.toNat / 2 ^ (w - s) = Max.toNat / 2 ^ (w - s) := by omega
  rw [hsame] at hdmin
  rw [hqa] at hda
  have hle1 : (Min <<< s).toNat ≤ (a <<< s).toNat := by
    rw [hshift, hshift]
    exact Nat.mul_le_mul_right _ (by omega)
  have hle2 : (a <<< s).toNat ≤ (Max <<< s).toNat := by
    rw [hshift, hshift]
    exact Nat.mul_le_mul_right _ (by omega)
  have h1 := toNat_one A.pos
  have hadd := toNat_add_cases (Max <<< s) 1
  have halt := (a <<< s).isLt
  have hmlt := (Max <<< s).isLt
  rw [mem_getNonEmpty]
  omega

/-- A shifted word ends with zeros. -/
theorem mem_shl_high {s : Nat} (hw : 0 < w) (a : BitVec w) (hs : s < w) :
    a <<< s ∈ getNonEmpty 0 (getBitsSetFrom w s + 1) hw := by
  have hpow : 2 ^ (w - s) * 2 ^ s = 2 ^ w := APInt.Saturating.pow_mul_pow (Nat.le_of_lt hs)
  have hP : 0 < 2 ^ (w - s) := Nat.two_pow_pos _
  have hhigh : (getBitsSetFrom w s).toNat + 2 ^ s = 2 ^ w := by
    have hset := toNat_getHighBitsSet (w - s) (Nat.sub_le w s)
    rw [getHighBitsSet, Nat.sub_sub_self (Nat.le_of_lt hs)] at hset
    exact hset
  have hle : (a <<< s).toNat ≤ (2 ^ (w - s) - 1) * 2 ^ s := by
    have hmod := Nat.mod_lt a.toNat hP
    rw [BitVec.toNat_shiftLeft, Nat.shiftLeft_eq, ← hpow, Nat.mul_mod_mul_right]
    exact Nat.mul_le_mul_right _ (by omega)
  rw [Nat.sub_mul, Nat.one_mul, hpow] at hle
  have h1 := toNat_one hw
  have hadd := toNat_add_cases (getBitsSetFrom w s) 1
  have hlt := (getBitsSetFrom w s).isLt
  rw [mem_getNonEmpty, toNat_zero]
  omega

theorem mem_shl (ha : a ∈ A) (hb : b ∈ B) (hbw : b.toNat < w) : a <<< b.toNat ∈ shl A B := by
  unfold shl
  rw [if_neg (by rw [nonempty_of_mem ha, nonempty_of_mem hb]; exact Bool.false_ne_true)]
  dsimp only
  split
  · rename_i RHS hB
    rw [← eq_of_getSingleElement hB hb, if_neg (Nat.not_le.mpr hbw)]
    split_ifs with hlead
    · exact mem_shl_single ha hbw hlead
    · exact mem_shl_high A.pos a hbw
  · have hamin := getUnsignedMin_le ha
    have hamax := le_getUnsignedMax ha
    have hbmin := getUnsignedMin_le hb
    have hbmax := le_getUnsignedMax hb
    split_ifs with hover
    · exact mem_getFull A.pos _
    · rw [Nat.not_lt] at hover
      generalize A.getUnsignedMin = Min at *
      generalize A.getUnsignedMax = Max at *
      generalize B.getUnsignedMin = OtherMin at *
      generalize B.getUnsignedMax = OtherMax at *
      have hwidth : OtherMax.toNat ≤ w := Nat.le_trans hover (Nat.sub_le _ _)
      have htop : Max.toNat * 2 ^ OtherMax.toNat < 2 ^ w := by
        rw [APInt.Saturating.le_countl_zero hwidth] at hover
        rw [← APInt.Saturating.pow_mul_pow hwidth]
        exact Nat.mul_lt_mul_of_pos_right hover (Nat.two_pow_pos _)
      have hlow := Nat.mul_le_mul hamin (Nat.pow_le_pow_right (show 0 < 2 by decide) hbmin)
      have hhigh := Nat.mul_le_mul hamax (Nat.pow_le_pow_right (show 0 < 2 by decide) hbmax)
      have h1 := toNat_one A.pos
      have hadd := toNat_add_cases (Max <<< OtherMax.toNat) 1
      simp only [BitVec.toNat_shiftLeft, Nat.shiftLeft_eq, Nat.mod_eq_of_lt htop] at hadd
      rw [mem_getNonEmpty]
      simp only [BitVec.toNat_shiftLeft, Nat.shiftLeft_eq]
      rw [Nat.mod_eq_of_lt (Nat.lt_of_le_of_lt hhigh htop),
        Nat.mod_eq_of_lt (Nat.lt_of_le_of_lt (Nat.le_trans hlow hhigh) htop)]
      omega

/-! ## Products -/

theorem unsignedProduct_spec (ha₀ : a ∈ A) (hb₀ : b ∈ B) :
    ∃ R, unsignedProduct A B = some R ∧ ∀ a ∈ A, ∀ b ∈ B, a * b ∈ R := by
  have hw := A.pos
  have hd : 0 < w * 2 := Nat.mul_pos hw (by decide)
  have hsq : 2 ^ w * 2 ^ w = 2 ^ (w * 2) := by rw [← Nat.pow_add, Nat.mul_two]
  have hpos : 0 < 2 ^ w := Nat.two_pow_pos w
  have hext : ∀ x y : BitVec w,
      (x.setWidth (w * 2) * y.setWidth (w * 2)).toNat = x.toNat * y.toNat ∧
        x.toNat * y.toNat + 1 < 2 ^ (w * 2) := by
    intro x y
    have hx := x.isLt
    have hy := y.isLt
    have hle : x.toNat * y.toNat ≤ (2 ^ w - 1) * (2 ^ w - 1) :=
      Nat.mul_le_mul (by omega) (by omega)
    have hM := two_le hw
    have hlt : (2 ^ w - 1) * (2 ^ w - 1) + 1 < 2 ^ (w * 2) := by
      obtain ⟨N, hN⟩ : ∃ N, 2 ^ w = N + 2 := ⟨2 ^ w - 2, by omega⟩
      rw [← hsq, hN, show N + 2 - 1 = N + 1 by omega,
        show (N + 2) * (N + 2) = (N + 1) * (N + 1) + (2 * N + 3) by ring]
      omega
    refine ⟨?_, by omega⟩
    rw [BitVec.toNat_mul, BitVec.toNat_setWidth_of_le (by omega), BitVec.toNat_setWidth_of_le (by omega),
      Nat.mod_eq_of_lt (by omega)]
  unfold unsignedProduct
  dsimp only
  have hlow₀ := Nat.mul_le_mul (getUnsignedMin_le ha₀) (getUnsignedMin_le hb₀)
  have hhigh₀ := Nat.mul_le_mul (le_getUnsignedMax ha₀) (le_getUnsignedMax hb₀)
  obtain ⟨hmin, -⟩ := hext A.getUnsignedMin B.getUnsignedMin
  obtain ⟨hmax, hmaxlt⟩ := hext A.getUnsignedMax B.getUnsignedMax
  have h1 := toNat_one hd
  have hadd := toNat_add_cases (A.getUnsignedMax.setWidth (w * 2) * B.getUnsignedMax.setWidth (w * 2)) 1
  obtain ⟨P, hP, hmem⟩ := mem_ofBounds (L := A.getUnsignedMin.setWidth (w * 2) * B.getUnsignedMin.setWidth (w * 2))
    (U := A.getUnsignedMax.setWidth (w * 2) * B.getUnsignedMax.setWidth (w * 2) + 1) hd (by omega)
  obtain ⟨R, hR, hmemR⟩ := truncate_spec P w ⟨hw, by omega⟩
  rw [hP, Option.bind_eq_bind, Option.bind_some]
  refine ⟨R, hR, fun a ha b hb => (hmemR _).mpr ⟨a.setWidth (w * 2) * b.setWidth (w * 2), ?_, ?_⟩⟩
  · have hlow := Nat.mul_le_mul (getUnsignedMin_le ha) (getUnsignedMin_le hb)
    have hhigh := Nat.mul_le_mul (le_getUnsignedMax ha) (le_getUnsignedMax hb)
    obtain ⟨hab, -⟩ := hext a b
    rw [hmem]
    omega
  · rw [BitVec.setWidth_mul _ _ (by omega), BitVec.setWidth_setWidth_of_le _ (by omega),
      BitVec.setWidth_setWidth_of_le _ (by omega), BitVec.setWidth_eq, BitVec.setWidth_eq]

theorem setWidth_signExtend {v : Nat} (h : w ≤ v) (a : BitVec w) : (a.signExtend v).setWidth w = a := by
  ext i hi
  rw [BitVec.getElem_setWidth, BitVec.getLsbD_signExtend, if_pos hi, BitVec.getLsbD_eq_getElem hi,
    decide_eq_true (show i < v by omega), Bool.true_and]

theorem mem_ofBounds_between {L U : BitVec w} (hw : 0 < w) (hne : L ≠ U + 1) (h : L.toInt ≤ U.toInt) :
    ∃ R, ofBounds L (U + 1) hw = some R ∧ ∀ x : BitVec w, L.toInt ≤ x.toInt → x.toInt ≤ U.toInt → x ∈ R := by
  have h1 := toNat_one hw
  have h2 := two_pow_eq hw
  have hadd := toNat_add_cases U 1
  have hL := toInt_cases hw L
  have hU := toInt_cases hw U
  have hLlt := L.isLt
  have hUlt := U.isLt
  rw [Ne, eq_iff] at hne
  obtain ⟨R, hR, hmem⟩ := mem_ofBounds (L := L) (U := U + 1) hw (fun heq => absurd heq hne)
  refine ⟨R, hR, fun x hxL hxU => ?_⟩
  have hx := toInt_cases hw x
  have hxlt := x.isLt
  rw [hmem]
  omega

theorem signedProduct_spec (ha₀ : a ∈ A) (hb₀ : b ∈ B) :
    ∃ R, signedProduct A B = some R ∧ ∀ a ∈ A, ∀ b ∈ B, a * b ∈ R := by
  have hw := A.pos
  have hd : 0 < w * 2 := Nat.mul_pos hw (by decide)
  have h2 := two_pow_eq hw
  have hd2 := two_pow_eq hd
  have hH : 0 < 2 ^ (w - 1) := Nat.two_pow_pos _
  have hsq : 2 ^ (w * 2 - 1) = 2 * (2 ^ (w - 1) * 2 ^ (w - 1)) := by
    rw [← Nat.pow_add, ← Nat.pow_succ']
    congr 1
    omega
  have hHH : 1 ≤ 2 ^ (w - 1) * 2 ^ (w - 1) := Nat.mul_pos hH hH
  -- a product of signed numbers is far from the bounds of the double width
  have hext : ∀ x y : BitVec w,
      (x.signExtend (w * 2) * y.signExtend (w * 2)).toInt = x.toInt * y.toInt ∧
        -((2 ^ (w - 1) * 2 ^ (w - 1) : Nat) : Int) ≤ x.toInt * y.toInt ∧
        x.toInt * y.toInt ≤ ((2 ^ (w - 1) * 2 ^ (w - 1) : Nat) : Int) := by
    intro x y
    have hxi := toInt_cases hw x
    have hyi := toInt_cases hw y
    have hx := x.isLt
    have hy := y.isLt
    have habs : (x.toInt * y.toInt).natAbs ≤ 2 ^ (w - 1) * 2 ^ (w - 1) := by
      rw [Int.natAbs_mul]
      exact Nat.mul_le_mul (by omega) (by omega)
    refine ⟨?_, by omega, by omega⟩
    have hxe : (x.signExtend (w * 2)).toInt = x.toInt := BitVec.toInt_signExtend_of_le (by omega)
    have hye : (y.signExtend (w * 2)).toInt = y.toInt := BitVec.toInt_signExtend_of_le (by omega)
    rw [APInt.Saturating.toInt_mul_exact hd (by rw [hxe, hye]; omega), hxe, hye]
  unfold signedProduct
  dsimp only
  have hcorner : ∀ a ∈ A, ∀ b ∈ B,
      (cornerMin (fun x y : BitVec w => x.signExtend (w * 2) * y.signExtend (w * 2)) A B).toInt ≤
        a.toInt * b.toInt ∧
      a.toInt * b.toInt ≤
        (cornerMax (fun x y : BitVec w => x.signExtend (w * 2) * y.signExtend (w * 2)) A B).toInt := by
    intro a ha b hb
    simp only [cornerMin, cornerMax, toInt_smin, toInt_smax, (hext _ _).1]
    exact mul_corners (getSignedMin_le ha) (le_getSignedMax ha) (getSignedMin_le hb) (le_getSignedMax hb)
  have hminLow : -((2 ^ (w - 1) * 2 ^ (w - 1) : Nat) : Int) ≤
      (cornerMin (fun x y : BitVec w => x.signExtend (w * 2) * y.signExtend (w * 2)) A B).toInt := by
    simp only [cornerMin, toInt_smin, (hext _ _).1]
    have h1 := (hext A.getSignedMin B.getSignedMin).2.1
    have h2 := (hext A.getSignedMin B.getSignedMax).2.1
    have h3 := (hext A.getSignedMax B.getSignedMin).2.1
    have h4 := (hext A.getSignedMax B.getSignedMax).2.1
    omega
  generalize cornerMin (fun x y : BitVec w => x.signExtend (w * 2) * y.signExtend (w * 2)) A B = Low at *
  generalize cornerMax (fun x y : BitVec w => x.signExtend (w * 2) * y.signExtend (w * 2)) A B = High at *
  have hLH := Int.le_trans (hcorner a ha₀ b hb₀).1 (hcorner a ha₀ b hb₀).2
  have hne : Low ≠ High + 1 := by
    have h1 := toNat_one hd
    have hadd := toNat_add_cases High 1
    have hLi := toInt_cases hd Low
    have hHi := toInt_cases hd High
    have hLlt := Low.isLt
    have hHlt := High.isLt
    rw [Ne, eq_iff]
    omega
  obtain ⟨P, hP, hmem⟩ := mem_ofBounds_between hd hne hLH
  obtain ⟨R, hR, hmemR⟩ := truncate_spec P w ⟨hw, by omega⟩
  rw [hP, Option.bind_eq_bind, Option.bind_some]
  refine ⟨R, hR, fun a ha b hb => (hmemR _).mpr ⟨a.signExtend (w * 2) * b.signExtend (w * 2), ?_, ?_⟩⟩
  · have hbounds := hcorner a ha b hb
    rw [← (hext a b).1] at hbounds
    exact hmem _ hbounds.1 hbounds.2
  · rw [BitVec.setWidth_mul _ _ (by omega), setWidth_signExtend (by omega),
      setWidth_signExtend (by omega)]

theorem multiply_spec (A B : ConstantRange w) :
    ∃ R, multiply A B = some R ∧ ∀ a ∈ A, ∀ b ∈ B, a * b ∈ R := by
  unfold multiply
  by_cases hempty : (A.isEmptySet || B.isEmptySet) = true
  · rw [if_pos hempty]
    rw [Bool.or_eq_true, isEmptySet_iff_forall, isEmptySet_iff_forall] at hempty
    refine ⟨_, rfl, fun a ha b hb => ?_⟩
    exact hempty.elim (fun h => absurd ha (h a)) fun h => absurd hb (h b)
  rw [if_neg hempty]
  rw [Bool.or_eq_true, not_or] at hempty
  obtain ⟨a₀, ha₀⟩ := exists_mem hempty.1
  obtain ⟨b₀, hb₀⟩ := exists_mem hempty.2
  -- the opposite of a word is its difference from zero
  have hneg : ∀ (C : ConstantRange w) (c : BitVec w), c ∈ C → BitVec.allOnes w * c ∈ sub (ofValue 0 A.pos) C := by
    intro C c hc
    refine mem_sub.mpr ⟨0, mem_ofValue A.pos 0, c, hc, ?_⟩
    rw [← BitVec.neg_one_eq_allOnes, BitVec.neg_mul, BitVec.one_mul, BitVec.ofNat_eq_ofNat, BitVec.zero_sub]
  split_ifs with h1 h2 h3 h4
  · refine ⟨B, rfl, fun a ha b hb => ?_⟩
    rw [eq_of_getSingleElement h1 ha, BitVec.ofNat_eq_ofNat, BitVec.one_mul]
    exact hb
  · refine ⟨_, rfl, fun a ha b hb => ?_⟩
    rw [eq_of_getSingleElement h2 ha]
    exact hneg B b hb
  · refine ⟨A, rfl, fun a ha b hb => ?_⟩
    rw [eq_of_getSingleElement h3 hb, BitVec.ofNat_eq_ofNat, BitVec.mul_one]
    exact ha
  · refine ⟨_, rfl, fun a ha b hb => ?_⟩
    rw [eq_of_getSingleElement h4 hb, BitVec.mul_comm]
    exact hneg A a ha
  · obtain ⟨UR, hUR, hmemU⟩ := unsignedProduct_spec ha₀ hb₀
    obtain ⟨SR, hSR, hmemS⟩ := signedProduct_spec ha₀ hb₀
    rw [hUR, Option.bind_eq_bind, Option.bind_some]
    split_ifs with hgood
    · exact ⟨UR, rfl, hmemU⟩
    · rw [hSR, Option.bind_some]
      refine ⟨_, rfl, fun a ha b hb => ?_⟩
      split_ifs
      · exact hmemU a ha b hb
      · exact hmemS a ha b hb

/-! ## Sums and differences that do not wrap -/

/-- A word of the numbers' sum, where the sum does not wrap in the flagged senses. -/
theorem mem_addWithNoWrap {NUW NSW : Bool} (type : PreferredRangeType) (ha : a ∈ A) (hb : b ∈ B)
    (hu : NUW = true → NoWrap .Add a b .NoUnsignedWrap) (hs : NSW = true → NoWrap .Add a b .NoSignedWrap) :
    a + b ∈ addWithNoWrap A B NUW NSW type := by
  have hsum : a + b ∈ add A B := mem_add.mpr ⟨a, ha, b, hb, rfl⟩
  have hnsw : NSW = true → a + b ∈ sadd_sat A B := by
    intro h
    have hrange := hs h nofun
    simp only [BinaryOp.exact, two_pow_cast] at hrange
    have hsat : APInt.Saturating.sadd_sat a b = a + b := by
      rw [toInt_eq_iff, toInt_sadd_sat A.pos]
      have h2 := two_pow_eq A.pos
      have hadd := toNat_add_cases a b
      have hai := toInt_cases A.pos a
      have hbi := toInt_cases A.pos b
      have hri := toInt_cases A.pos (a + b)
      have halt := a.isLt
      have hblt := b.isLt
      unfold clamp
      omega
    exact hsat ▸ mem_sadd_sat ha hb
  have hnuw : NUW = true → a + b ∈ uadd_sat A B := by
    intro h
    have hrange := hu h nofun
    simp only [BinaryOp.exact, two_pow_cast] at hrange
    have hsat : APInt.Saturating.uadd_sat a b = a + b := by
      rw [eq_iff, toNat_uadd_sat]
      have hadd := toNat_add_cases a b
      omega
    exact hsat ▸ mem_uadd_sat ha hb
  unfold addWithNoWrap
  rw [if_neg (by rw [nonempty_of_mem ha, nonempty_of_mem hb]; exact Bool.false_ne_true)]
  by_cases hfull : (A.isFullSet && B.isFullSet) = true
  · rw [if_pos hfull]
    exact mem_getFull A.pos _
  rw [if_neg hfull]
  cases NUW <;> cases NSW
  · exact hsum
  · exact mem_intersectWith hsum (hnsw rfl)
  · exact mem_intersectWith hsum (hnuw rfl)
  · exact mem_intersectWith (mem_intersectWith hsum (hnsw rfl)) (hnuw rfl)

theorem mem_subWithNoWrap {NUW NSW : Bool} (type : PreferredRangeType) (ha : a ∈ A) (hb : b ∈ B)
    (hu : NUW = true → NoWrap .Sub a b .NoUnsignedWrap) (hs : NSW = true → NoWrap .Sub a b .NoSignedWrap) :
    a - b ∈ subWithNoWrap A B NUW NSW type := by
  have hdiff : a - b ∈ sub A B := mem_sub.mpr ⟨a, ha, b, hb, rfl⟩
  have hnsw : NSW = true → a - b ∈ ssub_sat A B := by
    intro h
    have hrange := hs h nofun
    simp only [BinaryOp.exact, two_pow_cast] at hrange
    have hsat : APInt.Saturating.ssub_sat a b = a - b := by
      rw [toInt_eq_iff, toInt_ssub_sat A.pos]
      have h2 := two_pow_eq A.pos
      have hsub := toNat_sub_cases a b
      have hai := toInt_cases A.pos a
      have hbi := toInt_cases A.pos b
      have hri := toInt_cases A.pos (a - b)
      have halt := a.isLt
      have hblt := b.isLt
      unfold clamp
      omega
    exact hsat ▸ mem_ssub_sat ha hb
  have hle : NUW = true → b.toNat ≤ a.toNat := by
    intro h
    have hrange := hu h nofun
    simp only [BinaryOp.exact] at hrange
    omega
  have hnuw : NUW = true → a - b ∈ usub_sat A B := by
    intro h
    have hba := hle h
    have hsat : APInt.Saturating.usub_sat a b = a - b := by
      rw [eq_iff, toNat_usub_sat]
      have hsub := toNat_sub_cases a b
      omega
    exact hsat ▸ mem_usub_sat ha hb
  unfold subWithNoWrap
  rw [if_neg (by rw [nonempty_of_mem ha, nonempty_of_mem hb]; exact Bool.false_ne_true)]
  have hnever : NUW = true → ¬A.getUnsignedMax.ult B.getUnsignedMin = true := by
    intro h
    have hba := hle h
    have hamax := le_getUnsignedMax ha
    have hbmin := getUnsignedMin_le hb
    rw [BitVec.ult_iff_lt, BitVec.lt_def]
    omega
  by_cases hfull : (A.isFullSet && B.isFullSet) = true
  · rw [if_pos hfull]
    exact mem_getFull A.pos _
  rw [if_neg hfull]
  dsimp only
  cases NUW with
  | false =>
    cases NSW
    · exact hdiff
    · exact mem_intersectWith hdiff (hnsw rfl)
  | true =>
    rw [if_pos rfl, if_neg (hnever rfl)]
    cases NSW
    · exact mem_intersectWith hdiff (hnuw rfl)
    · exact mem_intersectWith (mem_intersectWith hdiff (hnsw rfl)) (hnuw rfl)

/-! ## All operations -/

/-- The range has the result of every pair of members. -/
def Contains (R A B : ConstantRange w) (op : BitVec w → BitVec w → BitVec w) : Prop :=
  ∀ a ∈ A, ∀ b ∈ B, op a b ∈ R

/-- Sums, differences and truncations are exact, extensions are where their words form a range, and
all other operations have every result. A shift is by less than the width, a sum or difference that
is flagged not to wrap does not wrap. -/
theorem arithmetic_sound (A B : ConstantRange w) :
    (∀ x, x ∈ add A B ↔ ∃ a ∈ A, ∃ b ∈ B, a + b = x) ∧
      (∀ x, x ∈ sub A B ↔ ∃ a ∈ A, ∃ b ∈ B, a - b = x) ∧
      (∀ d (h : w < d), ∃ R, zeroExtend A d h = some R ∧ Tight R fun x => ∃ a ∈ A, a.setWidth d = x) ∧
      (∀ d (h : w < d), ∃ R, signExtend A d h = some R ∧ Tight R fun x => ∃ a ∈ A, a.signExtend d = x) ∧
      (∀ d (h : 0 < d ∧ d < w), ∃ R, truncate A d h = some R ∧ Tight R fun x => ∃ a ∈ A, a.setWidth d = x) ∧
      (∃ R, multiply A B = some R ∧ Contains R A B (· * ·)) ∧
      (∀ a ∈ A, ∀ b ∈ B, b.toNat < w → a <<< b.toNat ∈ shl A B) ∧
      Contains (lshr A B) A B (fun a b => a >>> b.toNat) ∧
      Contains (ashr A B) A B (fun a b => a.sshiftRight b.toNat) ∧
      Contains (uadd_sat A B) A B APInt.Saturating.uadd_sat ∧
      Contains (sadd_sat A B) A B APInt.Saturating.sadd_sat ∧
      Contains (usub_sat A B) A B APInt.Saturating.usub_sat ∧
      Contains (ssub_sat A B) A B APInt.Saturating.ssub_sat ∧
      Contains (umul_sat A B) A B APInt.Saturating.umul_sat ∧
      Contains (smul_sat A B) A B APInt.Saturating.smul_sat ∧
      Contains (ushl_sat A B) A B APInt.Saturating.ushl_sat ∧
      Contains (sshl_sat A B) A B APInt.Saturating.sshl_sat ∧
      ∀ (NUW NSW : Bool) (t : PreferredRangeType), ∀ a ∈ A, ∀ b ∈ B,
        ((NUW = true → NoWrap .Add a b .NoUnsignedWrap) → (NSW = true → NoWrap .Add a b .NoSignedWrap) →
          a + b ∈ addWithNoWrap A B NUW NSW t) ∧
        ((NUW = true → NoWrap .Sub a b .NoUnsignedWrap) → (NSW = true → NoWrap .Sub a b .NoSignedWrap) →
          a - b ∈ subWithNoWrap A B NUW NSW t) := by
  refine ⟨fun x => mem_add, fun x => mem_sub, fun d h => zeroExtend_spec A d h,
    fun d h => signExtend_spec A d h, fun d h => ?_, multiply_spec A B, fun a ha b hb => mem_shl ha hb,
    fun a ha b hb => mem_lshr ha hb, fun a ha b hb => mem_ashr ha hb, fun a ha b hb => mem_uadd_sat ha hb,
    fun a ha b hb => mem_sadd_sat ha hb, fun a ha b hb => mem_usub_sat ha hb,
    fun a ha b hb => mem_ssub_sat ha hb, fun a ha b hb => mem_umul_sat ha hb,
    fun a ha b hb => mem_smul_sat ha hb, fun a ha b hb => mem_ushl_sat ha hb,
    fun a ha b hb => mem_sshl_sat ha hb, fun NUW NSW t a ha b hb =>
      ⟨fun hu hs => mem_addWithNoWrap t ha hb hu hs, fun hu hs => mem_subWithNoWrap t ha hb hu hs⟩⟩
  obtain ⟨R, hR, hmem⟩ := truncate_spec A d h
  exact ⟨R, hR, .of_iff hmem⟩

end RvLlvm.IR.ConstantRange
