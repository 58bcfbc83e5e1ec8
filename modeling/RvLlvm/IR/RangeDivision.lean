import RvLlvm.Support.WordDivision
import RvLlvm.IR.RangeSets

/-!
# Division, remainder and magnitude of ranges

Model of `ConstantRange::udiv`, `urem`, `srem` and `abs`
(`llvm/lib/IR/ConstantRange.cpp:1231-1250`, `:1340-1411` and `:1648-1688`). Where the source calls
the constructor with two bounds, its assertion may fail (`none`).

* `mem_udiv`, `mem_urem`, `abs_spec`, `srem_spec`: each result of a pair of members is a member.
-/

namespace RvLlvm.IR.ConstantRange

open Support.WordOrder

variable {w : Nat}

/-- `ConstantRange(L, U)`. -/
def ofBounds (L U : BitVec w) (hw : 0 < w) : Option (ConstantRange w) :=
  if h : L = U → L = BitVec.allOnes w ∨ L = 0 then some ⟨L, U, h, hw⟩ else none

/-- `APIntOps::umin`. -/
def umin (a b : BitVec w) : BitVec w := if a.ult b then a else b

/-- `APIntOps::umax`. -/
def umax (a b : BitVec w) : BitVec w := if b.ult a then a else b

def udiv (A B : ConstantRange w) : ConstantRange w :=
  if A.isEmptySet || B.isEmptySet || B.getUnsignedMax == 0 then getEmpty A.pos
  else
    let Lower := A.getUnsignedMin / B.getUnsignedMax
    let RHS_umin :=
      if B.getUnsignedMin = 0 then if B.Upper = 1 then B.Lower else 1 else B.getUnsignedMin
    let Upper := A.getUnsignedMax / RHS_umin + 1
    getNonEmpty Lower Upper A.pos

def urem (A B : ConstantRange w) : ConstantRange w :=
  if A.isEmptySet || B.isEmptySet || B.getUnsignedMax == 0 then getEmpty A.pos
  else
    let rest : ConstantRange w :=
      -- `L % R` for `L < R` is `L`
      if A.getUnsignedMax.ult B.getUnsignedMin then A
      else getNonEmpty 0 (umin A.getUnsignedMax (B.getUnsignedMax - 1) + 1) A.pos
    match B.getSingleElement with
    | some RHSInt =>
      if RHSInt = 0 then getEmpty A.pos
      else
        match A.getSingleElement with
        | some LHSInt => ofValue (LHSInt % RHSInt) A.pos
        | none => rest
    | none => rest

def abs (A : ConstantRange w) (IntMinIsPoison : Bool) : Option (ConstantRange w) :=
  if A.isEmptySet then some (getEmpty A.pos)
  else if A.isSignWrappedSet then
    -- whether the range crosses zero
    let Lo := if (0 : BitVec w).slt A.Upper || !(0 : BitVec w).slt A.Lower then 0
      else umin A.Lower (-A.Upper + 1)
    if IntMinIsPoison then ofBounds Lo (BitVec.intMin w) A.pos
    else ofBounds Lo (BitVec.intMin w + 1) A.pos
  else
    let SMax := A.getSignedMax
    if IntMinIsPoison && A.getSignedMin == BitVec.intMin w && SMax == BitVec.intMin w then
      some (getEmpty A.pos)
    else
      let SMin := if IntMinIsPoison && A.getSignedMin == BitVec.intMin w then A.getSignedMin + 1
        else A.getSignedMin
      if SMin.msb = false then ofBounds SMin (SMax + 1) A.pos
      else if SMax.msb then ofBounds (-SMax) (-SMin + 1) A.pos
      else some (getNonEmpty 0 (umax (-SMin) SMax + 1) A.pos)

/-- `srem` past its checks for a single divisor. -/
def sremBounds (A B : ConstantRange w) : Option (ConstantRange w) := do
  let AbsRHS ← B.abs false
  let MaxAbsRHS := AbsRHS.getUnsignedMax
  if MaxAbsRHS = 0 then some (getEmpty A.pos)
  else
    let MinAbsRHS := if AbsRHS.getUnsignedMin = 0 then 1 else AbsRHS.getUnsignedMin
    let MinLHS := A.getSignedMin
    let MaxLHS := A.getSignedMax
    if MinLHS.msb = false then
      -- `L % R` for `L < R` is `L`
      if MaxLHS.ult MinAbsRHS then some A
      else ofBounds 0 (umin MaxLHS (MaxAbsRHS - 1) + 1) A.pos
    else if MaxLHS.msb then
      if (-MinAbsRHS).ult MinLHS then some A
      else ofBounds (umax MinLHS (-MaxAbsRHS + 1)) 1 A.pos
    else
      ofBounds (umax MinLHS (-MaxAbsRHS + 1)) (umin MaxLHS (MaxAbsRHS - 1) + 1) A.pos

def srem (A B : ConstantRange w) : Option (ConstantRange w) :=
  if A.isEmptySet || B.isEmptySet then some (getEmpty A.pos)
  else
    match B.getSingleElement with
    | some RHSInt =>
      if RHSInt = 0 then some (getEmpty A.pos)
      else
        match A.getSingleElement with
        | some LHSInt => some (ofValue (LHSInt.srem RHSInt) A.pos)
        | none => sremBounds A B
    | none => sremBounds A B

variable {A B : ConstantRange w} {a b x : BitVec w}

/-! ## Bounds -/

theorem ofBounds_eq {L U : BitVec w} (hw : 0 < w) (h : L.toNat = U.toNat → L.toNat = 2 ^ w - 1 ∨ L.toNat = 0) :
    ∃ R : ConstantRange w, ofBounds L U hw = some R ∧ R.Lower = L ∧ R.Upper = U := by
  have hbounds : L = U → L = BitVec.allOnes w ∨ L = 0 := by
    rw [eq_iff, eq_iff, eq_iff, BitVec.toNat_allOnes, toNat_zero]
    exact h
  exact ⟨⟨L, U, hbounds, hw⟩, dif_pos hbounds, rfl, rfl⟩

/-- The words from `L` to `U`, which may be the last ones. -/
theorem mem_ofBounds {L U : BitVec w} (hw : 0 < w)
    (h : L.toNat = U.toNat → L.toNat = 2 ^ w - 1) :
    ∃ R, ofBounds L U hw = some R ∧
      ∀ x : BitVec w, x ∈ R ↔ L.toNat ≤ x.toNat ∧ x.toNat < U.toNat ∨
        U.toNat < L.toNat ∧ (L.toNat ≤ x.toNat ∨ x.toNat < U.toNat) ∨ L.toNat = U.toNat := by
  have hM := two_le hw
  obtain ⟨R, hR, hL, hU⟩ := ofBounds_eq hw fun heq => .inl (h heq)
  refine ⟨R, hR, fun x => ?_⟩
  rw [mem_iff, hL, hU]
  omega

theorem toNat_umin (a b : BitVec w) :
    (umin a b).toNat = a.toNat ∧ a.toNat ≤ b.toNat ∨ (umin a b).toNat = b.toNat ∧ b.toNat ≤ a.toNat := by
  unfold umin
  split_ifs with h
  all_goals
    rw [BitVec.ult_iff_lt, BitVec.lt_def] at h
    omega

theorem toNat_umax (a b : BitVec w) :
    (umax a b).toNat = a.toNat ∧ b.toNat ≤ a.toNat ∨ (umax a b).toNat = b.toNat ∧ a.toNat ≤ b.toNat := by
  unfold umax
  split_ifs with h
  all_goals
    rw [BitVec.ult_iff_lt, BitVec.lt_def] at h
    omega

theorem mem_ofValue (hw : 0 < w) (V : BitVec w) : V ∈ ofValue V hw := by
  have h1 := toNat_one hw
  have hV := V.isLt
  have hadd := toNat_add_cases V 1
  rw [ofValue, mem_ofNe]
  omega

theorem eq_of_getSingleElement {V : BitVec w} (h : A.getSingleElement = some V) (ha : a ∈ A) : a = V := by
  unfold getSingleElement at h
  split_ifs at h with hU
  rw [Option.some.injEq] at h
  have h1 := toNat_one A.pos
  have hadd := toNat_add_cases A.Lower 1
  have halt := a.isLt
  have hL := A.Lower.isLt
  have hM := two_le A.pos
  rw [mem_iff, hU] at ha
  rw [eq_iff, ← h]
  omega

/-! ## Unsigned division -/

/-- Neither operation stops where two members divide. -/
theorem not_stopped (ha : a ∈ A) (hb : b ∈ B) (hb0 : b ≠ 0) :
    ¬(A.isEmptySet || B.isEmptySet || B.getUnsignedMax == 0) = true := by
  have hBmax := le_getUnsignedMax hb
  rw [Ne, eq_iff, toNat_zero] at hb0
  rw [nonempty_of_mem ha, nonempty_of_mem hb, Bool.or_self, Bool.false_or, beq_iff_eq, eq_iff,
    toNat_zero]
  omega

theorem mem_udiv (ha : a ∈ A) (hb : b ∈ B) (hb0 : b ≠ 0) : a / b ∈ udiv A B := by
  have hAmax := le_getUnsignedMax ha
  have hAmin := getUnsignedMin_le ha
  have hBmax := le_getUnsignedMax hb
  have hBmin := getUnsignedMin_le hb
  have h1 := toNat_one A.pos
  unfold udiv
  rw [if_neg (not_stopped ha hb hb0)]
  rw [Ne, eq_iff, toNat_zero] at hb0
  dsimp only
  -- the least divisor that is not zero
  obtain ⟨umin, humin⟩ : ∃ d, (if B.getUnsignedMin = 0 then if B.Upper = 1 then B.Lower else 1
    else B.getUnsignedMin) = d := ⟨_, rfl⟩
  rw [humin]
  have hleast : 0 < umin.toNat ∧ umin.toNat ≤ b.toNat := by
    split_ifs at humin with hzero hupper
    · subst humin
      have hbl := b.isLt
      have hL := B.Lower.isLt
      rw [mem_iff, hupper] at hb
      omega
    · subst humin
      omega
    · subst humin
      rw [eq_iff, toNat_zero] at hzero
      omega
  have hlow : A.getUnsignedMin.toNat / B.getUnsignedMax.toNat ≤ a.toNat / b.toNat :=
    Nat.div_le_div hAmin hBmax hb0
  have hhigh : a.toNat / b.toNat ≤ A.getUnsignedMax.toNat / umin.toNat :=
    Nat.div_le_div hAmax hleast.2 (Nat.ne_of_gt hleast.1)
  have hupper := toNat_add_cases (A.getUnsignedMax / umin) 1
  have hlt := (A.getUnsignedMax / umin).isLt
  rw [BitVec.toNat_udiv] at hupper hlt
  simp only [mem_getNonEmpty, BitVec.toNat_udiv]
  generalize A.getUnsignedMin.toNat / B.getUnsignedMax.toNat = low at hlow
  generalize A.getUnsignedMax.toNat / umin.toNat = high at hhigh hupper hlt
  omega

theorem mem_urem (ha : a ∈ A) (hb : b ∈ B) (hb0 : b ≠ 0) : a % b ∈ urem A B := by
  have hAmax := le_getUnsignedMax ha
  have hBmax := le_getUnsignedMax hb
  have hBmin := getUnsignedMin_le hb
  have h1 := toNat_one A.pos
  have hbpos : 0 < b.toNat := by
    rw [Ne, eq_iff, toNat_zero] at hb0
    omega
  have hrest : a % b ∈ (if A.getUnsignedMax.ult B.getUnsignedMin then A
      else getNonEmpty 0 (umin A.getUnsignedMax (B.getUnsignedMax - 1) + 1) A.pos) := by
    have hmod := Nat.mod_lt a.toNat hbpos
    have hle := Nat.mod_le a.toNat b.toNat
    split_ifs with hlt
    · rw [BitVec.ult_iff_lt, BitVec.lt_def] at hlt
      have hsame : a % b = a := by
        rw [eq_iff, BitVec.toNat_umod]
        exact Nat.mod_eq_of_lt (by omega)
      rw [hsame]
      exact ha
    · have hsub := toNat_sub_cases B.getUnsignedMax 1
      have hmin := toNat_umin A.getUnsignedMax (B.getUnsignedMax - 1)
      have hadd := toNat_add_cases (umin A.getUnsignedMax (B.getUnsignedMax - 1)) 1
      rw [mem_getNonEmpty, toNat_zero, BitVec.toNat_umod]
      omega
  unfold urem
  rw [if_neg (not_stopped ha hb hb0)]
  dsimp only
  split
  · rename_i RHSInt hB
    rw [eq_of_getSingleElement hB hb] at *
    rw [if_neg hb0]
    split
    · rename_i LHSInt hA
      rw [eq_of_getSingleElement hA ha]
      exact mem_ofValue A.pos _
    · exact hrest
  · exact hrest

/-! ## Magnitudes -/

/-- The magnitudes between two signed bounds, where the least word may be left out. -/
theorem abs_flat (ha₀ : a ∈ A) (IntMinIsPoison : Bool) :
    ∃ R, (let SMax := A.getSignedMax
      if IntMinIsPoison && A.getSignedMin == BitVec.intMin w && SMax == BitVec.intMin w then
        some (getEmpty A.pos)
      else
        let SMin := if IntMinIsPoison && A.getSignedMin == BitVec.intMin w then A.getSignedMin + 1
          else A.getSignedMin
        if SMin.msb = false then ofBounds SMin (SMax + 1) A.pos
        else if SMax.msb then ofBounds (-SMax) (-SMin + 1) A.pos
        else some (getNonEmpty 0 (umax (-SMin) SMax + 1) A.pos)) = some R ∧
      (∀ a ∈ A, (IntMinIsPoison = true → a ≠ BitVec.intMin w) → a.abs ∈ R) ∧
      ∀ x ∈ R, x.toNat ≤ 2 ^ (w - 1) := by
  have h1 := toNat_one A.pos
  have h2 := two_pow_eq A.pos
  have hmin := toNat_intMin A.pos
  have hmini := toInt_cases A.pos (BitVec.intMin w)
  have hpos : 0 < 2 ^ (w - 1) := Nat.two_pow_pos _
  have hSMax : ∀ a ∈ A, a.toInt ≤ A.getSignedMax.toInt := fun a => le_getSignedMax
  have hSMin : ∀ a ∈ A, A.getSignedMin.toInt ≤ a.toInt := fun a => getSignedMin_le
  have hSMaxi := toInt_cases A.pos A.getSignedMax
  have hSMini := toInt_cases A.pos A.getSignedMin
  have hle := Int.le_trans (hSMin a ha₀) (hSMax a ha₀)
  generalize A.getSignedMax = SMax at *
  generalize A.getSignedMin = SMin₀ at *
  dsimp only
  by_cases hleft : (IntMinIsPoison && SMin₀ == BitVec.intMin w && SMax == BitVec.intMin w) = true
  · rw [if_pos hleft]
    refine ⟨_, rfl, fun a ha hne => absurd ?_ (hne ?_), fun x hx => absurd hx (not_mem_getEmpty A.pos x)⟩
    · simp only [Bool.and_eq_true, beq_iff_eq] at hleft
      have hup := hSMax a ha
      have hlow := hSMin a ha
      rw [hleft.1.2] at hlow
      rw [hleft.2] at hup
      exact toInt_eq_iff.mpr (Int.le_antisymm hup hlow)
    · simp only [Bool.and_eq_true] at hleft
      exact hleft.1.1
  rw [if_neg hleft]
  obtain ⟨SMin, hSMinEq⟩ : ∃ SMin, (if IntMinIsPoison && SMin₀ == BitVec.intMin w then SMin₀ + 1
      else SMin₀) = SMin := ⟨_, rfl⟩
  rw [hSMinEq]
  -- the bound without the least word
  have hbound : SMin.toInt ≤ SMax.toInt ∧
      ∀ a ∈ A, (IntMinIsPoison = true → a ≠ BitVec.intMin w) → SMin.toInt ≤ a.toInt := by
    split_ifs at hSMinEq with hskip
    · subst hSMinEq
      rw [Bool.and_eq_true, beq_iff_eq] at hskip
      have hSMaxNe : SMax ≠ BitVec.intMin w := by
        intro h
        exact hleft (by simp [hskip.1, hskip.2, h])
      have hadd := toNat_add_cases SMin₀ 1
      have haddi := toInt_cases A.pos (SMin₀ + 1)
      rw [Ne, eq_iff] at hSMaxNe
      rw [eq_iff] at hskip
      have hSMaxlt := SMax.isLt
      refine ⟨by omega, fun a ha hne => ?_⟩
      have hne := hne hskip.1
      rw [Ne, eq_iff] at hne
      have hai := toInt_cases A.pos a
      have halt := a.isLt
      omega
    · subst hSMinEq
      exact ⟨hle, fun a ha _ => hSMin a ha⟩
  have hSMini := toInt_cases A.pos SMin
  have hSMinlt := SMin.isLt
  have hSMaxlt := SMax.isLt
  have hM := two_le A.pos
  by_cases hnonneg : SMin.msb = false
  · rw [if_pos hnonneg]
    rw [msb_eq_false_iff] at hnonneg
    have hadd := toNat_add_cases SMax 1
    obtain ⟨R, hR, hmem⟩ := mem_ofBounds (L := SMin) (U := SMax + 1) A.pos (by omega)
    refine ⟨R, hR, fun a ha hne => (hmem a.abs).mpr ?_, fun x hx => by rw [hmem] at hx; omega⟩
    have habs := toNat_abs_cases a
    have hai := toInt_cases A.pos a
    have hup := hSMax a ha
    have hlow := hbound.2 a ha hne
    omega
  rw [if_neg hnonneg]
  rw [Bool.not_eq_false, msb_eq_true_iff] at hnonneg
  have hnegMin := toNat_neg_cases SMin
  by_cases hneg : SMax.msb = true
  · rw [if_pos hneg]
    rw [msb_eq_true_iff] at hneg
    have hnegMax := toNat_neg_cases SMax
    have hadd := toNat_add_cases (-SMin) 1
    obtain ⟨R, hR, hmem⟩ := mem_ofBounds (L := -SMax) (U := -SMin + 1) A.pos (by omega)
    refine ⟨R, hR, fun a ha hne => (hmem a.abs).mpr ?_, fun x hx => by rw [hmem] at hx; omega⟩
    have habs := toNat_abs_cases a
    have hai := toInt_cases A.pos a
    have halt := a.isLt
    have hup := hSMax a ha
    have hlow := hbound.2 a ha hne
    omega
  · rw [if_neg hneg]
    rw [msb_eq_true_iff] at hneg
    have hchoose := toNat_umax (-SMin) SMax
    have hadd := toNat_add_cases (umax (-SMin) SMax) 1
    refine ⟨_, rfl, fun a ha hne => ?_, fun x hx => by rw [mem_getNonEmpty, toNat_zero] at hx; omega⟩
    have habs := toNat_abs_cases a
    have hai := toInt_cases A.pos a
    have halt := a.isLt
    have hup := hSMax a ha
    have hlow := hbound.2 a ha hne
    rw [mem_getNonEmpty, toNat_zero]
    omega

theorem abs_spec (A : ConstantRange w) (IntMinIsPoison : Bool) :
    ∃ R, abs A IntMinIsPoison = some R ∧
      (∀ a ∈ A, (IntMinIsPoison = true → a ≠ BitVec.intMin w) → a.abs ∈ R) ∧
      ∀ x ∈ R, x.toNat ≤ 2 ^ (w - 1) := by
  have h1 := toNat_one A.pos
  have h2 := two_pow_eq A.pos
  have hmin := toNat_intMin A.pos
  have hpos : 0 < 2 ^ (w - 1) := Nat.two_pow_pos _
  unfold abs
  by_cases hempty : A.isEmptySet = true
  · rw [if_pos hempty]
    exact ⟨_, rfl, fun a ha => absurd ha (isEmptySet_iff_forall.mp hempty a),
      fun x hx => absurd hx (not_mem_getEmpty A.pos x)⟩
  rw [if_neg hempty]
  obtain ⟨a₀, ha₀⟩ := exists_mem hempty
  by_cases hwrap : A.isSignWrappedSet = true
  · rw [if_pos hwrap]
    dsimp only
    rw [isSignWrappedSet_iff] at hwrap
    have hU := toInt_cases A.pos A.Upper
    have hL := toInt_cases A.pos A.Lower
    have hLlt := A.Lower.isLt
    have hUlt := A.Upper.isLt
    have hz := toInt_cases A.pos (0 : BitVec w)
    have hz0 := toNat_zero (w := w)
    obtain ⟨Lo, hLo⟩ : ∃ Lo, (if (0 : BitVec w).slt A.Upper || !(0 : BitVec w).slt A.Lower then 0
        else umin A.Lower (-A.Upper + 1)) = Lo := ⟨_, rfl⟩
    rw [hLo]
    -- the least magnitude
    have hleast : Lo.toNat < 2 ^ (w - 1) ∧ ∀ a ∈ A, Lo.toNat ≤ a.abs.toNat := by
      split_ifs at hLo with hcross
      · subst hLo
        rw [toNat_zero]
        exact ⟨hpos, fun a _ => Nat.zero_le _⟩
      · rw [Bool.or_eq_true, Bool.not_eq_true', not_or, Bool.not_eq_false,
          BitVec.slt_iff_toInt_lt, BitVec.slt_iff_toInt_lt] at hcross
        have hchoose := toNat_umin A.Lower (-A.Upper + 1)
        have hneg := toNat_neg_cases A.Upper
        have hadd := toNat_add_cases (-A.Upper) 1
        rw [hLo] at hchoose
        refine ⟨by omega, fun a ha => ?_⟩
        have habs := toNat_abs_cases a
        have halt := a.isLt
        rw [mem_iff] at ha
        omega
    have hadd := toNat_add_cases (BitVec.intMin w) 1
    cases IntMinIsPoison with
    | true =>
      rw [if_pos rfl]
      obtain ⟨R, hR, hmem⟩ := mem_ofBounds (L := Lo) (U := BitVec.intMin w) A.pos (by omega)
      refine ⟨R, hR, fun a ha hne => (hmem a.abs).mpr ?_, fun x hx => by rw [hmem] at hx; omega⟩
      have habs := toNat_abs_cases a
      have hle := hleast.2 a ha
      have hne := hne rfl
      rw [Ne, eq_iff] at hne
      omega
    | false =>
      rw [if_neg Bool.false_ne_true]
      obtain ⟨R, hR, hmem⟩ := mem_ofBounds (L := Lo) (U := BitVec.intMin w + 1) A.pos (by omega)
      refine ⟨R, hR, fun a ha _ => (hmem a.abs).mpr ?_, fun x hx => by rw [hmem] at hx; omega⟩
      have habs := toNat_abs_cases a
      have hle := hleast.2 a ha
      omega
  · rw [if_neg hwrap]
    exact abs_flat ha₀ IntMinIsPoison

/-! ## Signed remainders -/

theorem srem_eq_of_abs_lt (hw : 0 < w) (hb0 : b ≠ 0) (h : a.abs.toNat < b.abs.toNat) :
    a.srem b = a := by
  obtain ⟨r, -, -, hsame, hsrem⟩ := toNat_srem_cases hw a hb0
  have habs := toNat_abs_cases a
  have hr := hsame h
  have halt := a.isLt
  rw [eq_iff]
  omega

/-- The remainder of a number from zero on. -/
theorem toNat_srem_nonneg (hw : 0 < w) (hb0 : b ≠ 0) (ha : a.toNat < 2 ^ (w - 1)) :
    (a.srem b).toNat ≤ a.toNat ∧ (a.srem b).toNat < b.abs.toNat := by
  obtain ⟨r, hra, hrb, -, hsrem⟩ := toNat_srem_cases hw a hb0
  have habs := toNat_abs_cases a
  omega

/-- The remainder of a negative number. -/
theorem toNat_srem_neg (hw : 0 < w) (hb0 : b ≠ 0) (ha : 2 ^ (w - 1) ≤ a.toNat) :
    (a.srem b).toNat = 0 ∨
      a.toNat ≤ (a.srem b).toNat ∧ 2 ^ w < (a.srem b).toNat + b.abs.toNat := by
  obtain ⟨r, hra, hrb, -, hsrem⟩ := toNat_srem_cases hw a hb0
  have habs := toNat_abs_cases a
  omega

section Bounds

variable {lo hi MaxAbs : BitVec w}

/-- The upper bound of a remainder. -/
theorem toNat_sremUpper (hi : BitVec w) (hw : 0 < w) (hpos : 0 < MaxAbs.toNat)
    (hle : MaxAbs.toNat ≤ 2 ^ (w - 1)) :
    (umin hi (MaxAbs - 1) + 1).toNat = min hi.toNat (MaxAbs.toNat - 1) + 1 := by
  have h1 := toNat_one hw
  have h2 := two_pow_eq hw
  have hsub := toNat_sub_cases MaxAbs 1
  have hmin := toNat_umin hi (MaxAbs - 1)
  have hadd := toNat_add_cases (umin hi (MaxAbs - 1)) 1
  have hvalue : (MaxAbs - 1).toNat = MaxAbs.toNat - 1 := by omega
  rw [hvalue] at hmin
  omega

/-- The lower bound of a remainder; it wraps to the dividend's own for divisors of one. -/
theorem toNat_sremLower (lo : BitVec w) (hw : 0 < w) (hpos : 0 < MaxAbs.toNat)
    (hle : MaxAbs.toNat ≤ 2 ^ (w - 1)) :
    lo.toNat ≤ (umax lo (-MaxAbs + 1)).toNat ∧
      (MaxAbs.toNat = 1 ∨ 2 ^ w < (umax lo (-MaxAbs + 1)).toNat + MaxAbs.toNat) ∧
      ((umax lo (-MaxAbs + 1)).toNat = lo.toNat ∨
        (umax lo (-MaxAbs + 1)).toNat + MaxAbs.toNat = 2 ^ w + 1) := by
  have h1 := toNat_one hw
  have h2 := two_pow_eq hw
  have hneg := toNat_neg_cases MaxAbs
  have hadd := toNat_add_cases (-MaxAbs) 1
  have hmax := toNat_umax lo (-MaxAbs + 1)
  have hlt := lo.isLt
  omega

theorem toNat_between_nonneg (hw : 0 < w) (ha : 0 ≤ a.toInt) (hup : a.toInt ≤ hi.toInt) :
    a.toNat < 2 ^ (w - 1) ∧ a.toNat ≤ hi.toNat := by
  have hai := toInt_cases hw a
  have hhi := toInt_cases hw hi
  have halt := a.isLt
  have hhlt := hi.isLt
  omega

theorem toNat_between_neg (hw : 0 < w) (ha : a.toInt < 0) (hlow : lo.toInt ≤ a.toInt) :
    2 ^ (w - 1) ≤ a.toNat ∧ lo.toNat ≤ a.toNat := by
  have hai := toInt_cases hw a
  have hlo := toInt_cases hw lo
  have halt := a.isLt
  have hllt := lo.isLt
  omega

end Bounds

theorem sremBounds_spec (ha₀ : a ∈ A) (hb₀ : b ∈ B) :
    ∃ R, sremBounds A B = some R ∧ ∀ a ∈ A, ∀ b ∈ B, b ≠ 0 → a.srem b ∈ R := by
  have h1 := toNat_one A.pos
  have h2 := two_pow_eq A.pos
  have hM := two_le A.pos
  have hpos : 0 < 2 ^ (w - 1) := Nat.two_pow_pos _
  have hMaxLHS : ∀ a ∈ A, a.toInt ≤ A.getSignedMax.toInt := fun a => le_getSignedMax
  have hMinLHS : ∀ a ∈ A, A.getSignedMin.toInt ≤ a.toInt := fun a => getSignedMin_le
  have hMaxi := toInt_cases A.pos A.getSignedMax
  have hMini := toInt_cases A.pos A.getSignedMin
  have hMaxlt := A.getSignedMax.isLt
  have hMinlt := A.getSignedMin.isLt
  have hle := Int.le_trans (hMinLHS a ha₀) (hMaxLHS a ha₀)
  obtain ⟨AbsRHS, hAbs, hAbsMem, hAbsLe⟩ := abs_spec B false
  have hMaxAbs : ∀ b ∈ B, b.abs.toNat ≤ AbsRHS.getUnsignedMax.toNat :=
    fun b hb => le_getUnsignedMax (hAbsMem b hb (fun h => absurd h Bool.false_ne_true))
  have hMinAbs : ∀ b ∈ B, AbsRHS.getUnsignedMin.toNat ≤ b.abs.toNat :=
    fun b hb => getUnsignedMin_le (hAbsMem b hb (fun h => absurd h Bool.false_ne_true))
  have hMaxAbsLe : AbsRHS.getUnsignedMax.toNat ≤ 2 ^ (w - 1) :=
    hAbsLe _ (getUnsignedMax_mem (hAbsMem b hb₀ fun h => absurd h Bool.false_ne_true))
  unfold sremBounds
  rw [hAbs, Option.bind_eq_bind, Option.bind_some]
  dsimp only
  generalize AbsRHS.getUnsignedMax = MaxAbs at *
  generalize AbsRHS.getUnsignedMin = MinAbs₀ at *
  generalize A.getSignedMin = MinLHS at *
  generalize A.getSignedMax = MaxLHS at *
  have hdivisor : ∀ b : BitVec w, b ≠ 0 → 0 < b.abs.toNat := by
    intro b hb0
    have hblt := b.isLt
    have hbabs := toNat_abs_cases b
    rw [Ne, eq_iff, toNat_zero] at hb0
    omega
  by_cases hMax0 : MaxAbs = 0
  · rw [if_pos hMax0]
    refine ⟨_, rfl, fun a _ b hb hb0 => ?_⟩
    have hmax := hMaxAbs b hb
    have hbpos := hdivisor b hb0
    rw [hMax0, toNat_zero] at hmax
    omega
  rw [if_neg hMax0]
  rw [eq_iff, toNat_zero] at hMax0
  obtain ⟨MinAbs, hMinEq⟩ : ∃ m, (if MinAbs₀ = 0 then 1 else MinAbs₀) = m := ⟨_, rfl⟩
  rw [hMinEq]
  have hMin : 0 < MinAbs.toNat ∧ ∀ b ∈ B, b ≠ 0 → MinAbs.toNat ≤ b.abs.toNat := by
    split_ifs at hMinEq with hzero
    · subst hMinEq
      refine ⟨by omega, fun b hb hb0 => ?_⟩
      have hbpos := hdivisor b hb0
      omega
    · subst hMinEq
      rw [eq_iff, toNat_zero] at hzero
      exact ⟨by omega, fun b hb _ => hMinAbs b hb⟩
  have hMaxPos : 0 < MaxAbs.toNat := Nat.pos_of_ne_zero hMax0
  have hupper := toNat_sremUpper MaxLHS A.pos hMaxPos hMaxAbsLe
  have hlower := toNat_sremLower MinLHS A.pos hMaxPos hMaxAbsLe
  have hz := toNat_zero (w := w)
  by_cases hnonneg : MinLHS.msb = false
  · rw [if_pos hnonneg]
    rw [msb_eq_false_iff] at hnonneg
    -- no dividend is negative
    have hdividend : ∀ a ∈ A, a.toNat < 2 ^ (w - 1) ∧ a.toNat ≤ MaxLHS.toNat := fun a ha =>
      toNat_between_nonneg A.pos (by have := hMinLHS a ha; omega) (hMaxLHS a ha)
    by_cases hsmall : MaxLHS.ult MinAbs = true
    · rw [if_pos hsmall]
      rw [BitVec.ult_iff_lt, BitVec.lt_def] at hsmall
      refine ⟨A, rfl, fun a ha b hb hb0 => ?_⟩
      have habs := toNat_abs_cases a
      have hrange := hdividend a ha
      have hbmin := hMin.2 b hb hb0
      rwa [srem_eq_of_abs_lt A.pos hb0 (by omega)]
    · rw [if_neg hsmall]
      obtain ⟨R, hR, hmem⟩ := mem_ofBounds (L := 0) (U := umin MaxLHS (MaxAbs - 1) + 1) A.pos (by omega)
      refine ⟨R, hR, fun a ha b hb hb0 => (hmem _).mpr (.inl ⟨hz ▸ Nat.zero_le _, ?_⟩)⟩
      have hrange := hdividend a ha
      have hsrem := toNat_srem_nonneg A.pos hb0 hrange.1
      have hbmax := hMaxAbs b hb
      omega
  rw [if_neg hnonneg]
  rw [Bool.not_eq_false, msb_eq_true_iff] at hnonneg
  by_cases hneg : MaxLHS.msb = true
  · rw [if_pos hneg]
    rw [msb_eq_true_iff] at hneg
    -- every dividend is negative
    have hdividend : ∀ a ∈ A, 2 ^ (w - 1) ≤ a.toNat ∧ MinLHS.toNat ≤ a.toNat := fun a ha =>
      toNat_between_neg A.pos (by have := hMaxLHS a ha; omega) (hMinLHS a ha)
    by_cases hsmall : (-MinAbs).ult MinLHS = true
    · rw [if_pos hsmall]
      rw [BitVec.ult_iff_lt, BitVec.lt_def] at hsmall
      refine ⟨A, rfl, fun a ha b hb hb0 => ?_⟩
      have habs := toNat_abs_cases a
      have hrange := hdividend a ha
      have hMinNeg := toNat_neg_cases MinAbs
      have hbmin := hMin.2 b hb hb0
      rwa [srem_eq_of_abs_lt A.pos hb0 (by omega)]
    · rw [if_neg hsmall]
      obtain ⟨R, hR, hmem⟩ := mem_ofBounds (L := umax MinLHS (-MaxAbs + 1)) (U := 1) A.pos (by omega)
      refine ⟨R, hR, fun a ha b hb hb0 => (hmem _).mpr ?_⟩
      have hrange := hdividend a ha
      have hsrem := toNat_srem_neg A.pos hb0 hrange.1
      have hbmax := hMaxAbs b hb
      omega
  · rw [if_neg hneg]
    rw [msb_eq_true_iff] at hneg
    obtain ⟨R, hR, hmem⟩ := mem_ofBounds (L := umax MinLHS (-MaxAbs + 1))
      (U := umin MaxLHS (MaxAbs - 1) + 1) A.pos (by omega)
    refine ⟨R, hR, fun a ha b hb hb0 => (hmem _).mpr ?_⟩
    have hbmax := hMaxAbs b hb
    rcases Int.lt_or_le a.toInt 0 with ha0 | ha0
    · have hrange := toNat_between_neg A.pos ha0 (hMinLHS a ha)
      have hsrem := toNat_srem_neg A.pos hb0 hrange.1
      omega
    · have hrange := toNat_between_nonneg A.pos ha0 (hMaxLHS a ha)
      have hsrem := toNat_srem_nonneg A.pos hb0 hrange.1
      omega

theorem srem_spec (A B : ConstantRange w) :
    ∃ R, srem A B = some R ∧ ∀ a ∈ A, ∀ b ∈ B, b ≠ 0 → a.srem b ∈ R := by
  unfold srem
  by_cases hempty : (A.isEmptySet || B.isEmptySet) = true
  · rw [if_pos hempty]
    rw [Bool.or_eq_true, isEmptySet_iff_forall, isEmptySet_iff_forall] at hempty
    refine ⟨_, rfl, fun a ha b hb => ?_⟩
    rcases hempty with h | h
    · exact absurd ha (h a)
    · exact absurd hb (h b)
  rw [if_neg hempty]
  rw [Bool.or_eq_true, not_or] at hempty
  obtain ⟨a₀, ha₀⟩ := exists_mem hempty.1
  obtain ⟨b₀, hb₀⟩ := exists_mem hempty.2
  have hbounds := sremBounds_spec ha₀ hb₀
  split
  · rename_i RHSInt hB
    by_cases hzero : RHSInt = 0
    · rw [if_pos hzero]
      exact ⟨_, rfl, fun a _ b hb hb0 => absurd ((eq_of_getSingleElement hB hb).trans hzero) hb0⟩
    · rw [if_neg hzero]
      split
      · rename_i LHSInt hA
        refine ⟨_, rfl, fun a ha b hb _ => ?_⟩
        rw [eq_of_getSingleElement hA ha, eq_of_getSingleElement hB hb]
        exact mem_ofValue A.pos _
      · exact hbounds
  · exact hbounds

end RvLlvm.IR.ConstantRange
