import RvLlvm.IR.RangeDivision

/-!
# Signed division of ranges

Model of `ConstantRange::sdiv` (`llvm/lib/IR/ConstantRange.cpp:1252-1338`): both operands are split
by sign, each pair of parts divides its magnitudes, and the least word divided by minus one is left
out.

* `part_spec`: a part has the members of its sign, and its two ends are members of the operand.
* `sdiv_spec`: each quotient of a pair of members is a member.
* `divisions_sound`: so for all divisions, remainders and magnitudes.
-/

namespace RvLlvm.IR.ConstantRange

open Support.WordOrder

variable {w : Nat}

/-- There are no positive words of one bit. -/
def posFilter (hw : 0 < w) : Option (ConstantRange w) :=
  if w = 1 then some (getEmpty hw) else ofBounds 1 (BitVec.intMin w) hw

def negFilter (hw : 0 < w) : Option (ConstantRange w) := ofBounds (BitVec.intMin w) 0 hw

/-- Positive by positive. -/
def sdivPosPos (PosL PosR : ConstantRange w) : Option (ConstantRange w) :=
  if !PosL.isEmptySet && !PosR.isEmptySet then
    ofBounds (PosL.Lower.sdiv (PosR.Upper - 1)) ((PosL.Upper - 1).sdiv PosR.Lower + 1) PosL.pos
  else some (getEmpty PosL.pos)

/-- The divisors without minus one. -/
def sdivNotMinusOne (B NegL NegR PosRes : ConstantRange w) : Option (ConstantRange w) :=
  if NegR.Lower ≠ BitVec.allOnes w then
    -- the negative part of `[-1, X]` without `-1` is `[SignedMin, X]`
    let AdjNegRUpper := if B.Lower = BitVec.allOnes w then B.Upper else NegR.Upper - 1
    (ofBounds ((NegL.Upper - 1).sdiv NegR.Lower) (NegL.Lower.sdiv (AdjNegRUpper - 1) + 1) B.pos).map
      fun R => PosRes.unionWith R .Smallest
  else some PosRes

/-- The dividends without the least word. -/
def sdivNotMin (A NegL NegR PosRes : ConstantRange w) : Option (ConstantRange w) :=
  if NegL.Upper ≠ BitVec.intMin w + 1 then
    -- the negative part of `[X, SignedMin]` without `SignedMin` is `[X, -1]`
    let AdjNegLLower := if A.Upper = BitVec.intMin w + 1 then A.Lower else NegL.Lower + 1
    (ofBounds ((NegL.Upper - 1).sdiv NegR.Lower) (AdjNegLLower.sdiv (NegR.Upper - 1) + 1) A.pos).map
      fun R => PosRes.unionWith R .Smallest
  else some PosRes

/-- Negative by negative. -/
def sdivNegNeg (A B NegL NegR PosRes : ConstantRange w) : Option (ConstantRange w) :=
  if !NegL.isEmptySet && !NegR.isEmptySet then
    if NegL.Lower = BitVec.intMin w ∧ NegR.Upper = 0 then do
      let PosRes ← sdivNotMinusOne B NegL NegR PosRes
      sdivNotMin A NegL NegR PosRes
    else
      (ofBounds ((NegL.Upper - 1).sdiv NegR.Lower) (NegL.Lower.sdiv (NegR.Upper - 1) + 1) A.pos).map
        fun R => PosRes.unionWith R .Smallest
  else some PosRes

/-- Positive by negative. -/
def sdivPosNeg (PosL NegR : ConstantRange w) : Option (ConstantRange w) :=
  if !PosL.isEmptySet && !NegR.isEmptySet then
    ofBounds ((PosL.Upper - 1).sdiv (NegR.Upper - 1)) (PosL.Lower.sdiv NegR.Lower + 1) PosL.pos
  else some (getEmpty PosL.pos)

/-- Negative by positive. -/
def sdivNegPos (NegL PosR NegRes : ConstantRange w) : Option (ConstantRange w) :=
  if !NegL.isEmptySet && !PosR.isEmptySet then
    (ofBounds (NegL.Lower.sdiv PosR.Lower) ((NegL.Upper - 1).sdiv (PosR.Upper - 1) + 1) NegL.pos).map
      fun R => NegRes.unionWith R .Smallest
  else some NegRes

def sdiv (A B : ConstantRange w) : Option (ConstantRange w) := do
  let PosFilter ← posFilter A.pos
  let NegFilter ← negFilter A.pos
  let PosL := A.intersectWith PosFilter .Smallest
  let NegL := A.intersectWith NegFilter .Smallest
  let PosR := B.intersectWith PosFilter .Smallest
  let NegR := B.intersectWith NegFilter .Smallest
  let PosRes ← sdivPosPos PosL PosR
  let PosRes ← sdivNegNeg A B NegL NegR PosRes
  let NegRes ← sdivPosNeg PosL NegR
  let NegRes ← sdivNegPos NegL PosR NegRes
  -- a range that does not wrap as signed is preferred
  let Res := NegRes.unionWith PosRes .Signed
  -- the zero that the split of the dividends dropped
  if A.contains 0 && (!PosR.isEmptySet || !NegR.isEmptySet) then
    some (Res.unionWith (ofValue 0 A.pos) .Smallest)
  else some Res

variable {A B F P N : ConstantRange w} {a b x : BitVec w}

/-! ## Parts -/

theorem size_eq (R : ConstantRange w) :
    R.Lower.toNat < R.Upper.toNat ∧ R.size = R.Upper.toNat - R.Lower.toNat ∨
      R.Upper.toNat < R.Lower.toNat ∧ R.size + R.Lower.toNat = 2 ^ w + R.Upper.toNat ∨
      R.Lower.toNat = R.Upper.toNat ∧ 0 < R.Lower.toNat ∧ R.size = 2 ^ w ∨
      R.Lower.toNat = 0 ∧ R.Upper.toNat = 0 ∧ R.size = 0 := by
  have hB := R.bounds_toNat
  have hL := R.Lower.isLt
  have hsub := toNat_sub_cases R.Upper R.Lower
  unfold size
  split_ifs with h
  all_goals
    rw [isFullSet_iff] at h
    omega

variable {hi lo : Nat}

/-- Where a range of at most half the words meets another one twice, both its ends are met and it is
the smaller one. -/
theorem split_filter (hF : ∀ x : BitVec w, x ∈ F ↔ lo ≤ x.toNat ∧ x.toNat < hi)
    (hs : Split fun x => x ∈ A ∧ x ∈ F) :
    A.Upper.toNat < A.Lower.toNat ∧ lo < A.Upper.toNat ∧ A.Lower.toNat < hi := by
  obtain ⟨p, q, r, s, hpq, hqr, hrs, hpr, hqs, hne⟩ := hs
  by_cases hp : p ∈ A ∧ p ∈ F
  · have hq : ¬(q ∈ A ∧ q ∈ F) := fun hq => hne (iff_of_true hp hq)
    obtain ⟨hrA, hrF⟩ := hpr.mp hp
    obtain ⟨hpA, hpF⟩ := hp
    rw [hF] at hpF hrF
    have hqA : q ∉ A := fun hqA => hq ⟨hqA, (hF q).mpr ⟨by omega, by omega⟩⟩
    rw [mem_iff] at hpA hqA hrA
    omega
  · have hq : q ∈ A ∧ q ∈ F := by_contra fun hq => hne (iff_of_false hp hq)
    obtain ⟨hsA, hsF⟩ := hqs.mp hq
    obtain ⟨hqA, hqF⟩ := hq
    rw [hF] at hqF hsF
    have hrA : r ∉ A := fun hrA => hp (hpr.mpr ⟨hrA, (hF r).mpr ⟨by omega, by omega⟩⟩)
    rw [mem_iff] at hqA hrA hsA
    omega

/-- An operand and the words of one sign. -/
theorem part_cases (hlo : lo < hi) (hhalf : hi ≤ lo + 2 ^ (w - 1)) (hFL : F.Lower.toNat = lo)
    (hFU : F.Upper.toNat = hi ∨ F.Upper.toNat = 0 ∧ hi = 2 ^ w)
    (hF : ∀ x : BitVec w, x ∈ F ↔ lo ≤ x.toNat ∧ x.toNat < hi) :
    (∀ x, x ∈ A.intersectWith F .Smallest ↔ x ∈ A ∧ x ∈ F) ∨
      A.intersectWith F .Smallest = F ∧ F.Lower ∈ A ∧ F.Upper - 1 ∈ A := by
  have h1 := toNat_one A.pos
  have h2 := two_pow_eq A.pos
  have hAL := A.Lower.isLt
  have hsub := toNat_sub_cases F.Upper 1
  rcases intersectWith_cases A F .Smallest with h | ⟨hpref, hs⟩
  · exact .inl h
  have hends := split_filter hF hs
  have hsizeA := size_eq A
  have hsizeF := size_eq F
  have hlt : F.size < A.size := by omega
  refine .inr ⟨?_, ?_, ?_⟩
  · rcases hpref with hpref | hpref
    · rw [hpref, getPreferredRange]
      have hnot : ¬A.isSizeStrictlySmallerThan F = true := by
        rw [isSizeStrictlySmallerThan_iff]
        omega
      simp [hnot]
    · rw [hpref, getPreferredRange]
      have hyes : F.isSizeStrictlySmallerThan A = true := isSizeStrictlySmallerThan_iff.mpr hlt
      simp [hyes]
  · rw [mem_iff]
    omega
  · rw [mem_iff]
    omega

/-- The part of an operand with one sign: an interval of members of that sign, that has all of the
operand and whose ends are in it. -/
structure Part (A P : ConstantRange w) (lo hi : Nat) : Prop where
  mem : ∀ x ∈ A, lo ≤ x.toNat → x.toNat < hi → x ∈ P
  lower : lo ≤ P.Lower.toNat
  upper : P.Lower.toNat ≤ (P.Upper - 1).toNat ∧ (P.Upper - 1).toNat < hi
  iff : ∀ x : BitVec w, x ∈ P ↔ P.Lower.toNat ≤ x.toNat ∧ x.toNat ≤ (P.Upper - 1).toNat
  lower_mem : P.Lower ∈ A
  upper_mem : P.Upper - 1 ∈ A

/-- The part of an operand with one sign, which may be empty. -/
structure PartOf (A P : ConstantRange w) (lo hi : Nat) : Prop where
  nonempty : ∀ a ∈ A, lo ≤ a.toNat → a.toNat < hi → P.isEmptySet = false
  part : ¬P.isEmptySet = true → Part A P lo hi

/-- A range of words below `hi` and from `lo > 0` is not wrapped around zero. -/
theorem interval_of_subset (hlo : 0 < lo) (hsub : ∀ x ∈ P, lo ≤ x.toNat ∧ x.toNat < hi)
    (hne : ¬P.isEmptySet = true) :
    P.Lower ∈ P ∧ P.Upper - 1 ∈ P ∧ P.Lower.toNat ≤ (P.Upper - 1).toNat ∧
      ∀ x : BitVec w, x ∈ P ↔ P.Lower.toNat ≤ x.toNat ∧ x.toNat ≤ (P.Upper - 1).toNat := by
  have h1 := toNat_one P.pos
  have hL := P.Lower.isLt
  have hU := P.Upper.isLt
  have hB := P.bounds_toNat
  have hsubU := toNat_sub_cases P.Upper 1
  have hzero : (0 : BitVec w) ∉ P := by
    intro h
    have hz := (hsub 0 h).1
    rw [toNat_zero] at hz
    omega
  rw [mem_iff, toNat_zero] at hzero
  rw [isEmptySet_iff] at hne
  refine ⟨?_, ?_, ?_, fun x => ?_⟩
  · rw [mem_iff]
    omega
  · rw [mem_iff]
    omega
  · omega
  · have hx := x.isLt
    rw [mem_iff]
    omega

theorem part_spec (hpos : 0 < lo) (hlo : lo < hi) (hhalf : hi ≤ lo + 2 ^ (w - 1))
    (hFL : F.Lower.toNat = lo) (hFU : F.Upper.toNat = hi ∨ F.Upper.toNat = 0 ∧ hi = 2 ^ w)
    (hF : ∀ x : BitVec w, x ∈ F ↔ lo ≤ x.toNat ∧ x.toNat < hi)
    (hne : ¬(A.intersectWith F .Smallest).isEmptySet = true) :
    Part A (A.intersectWith F .Smallest) lo hi := by
  rcases part_cases (A := A) hlo hhalf hFL hFU hF with hexact | ⟨heq, hlower, hupper⟩
  · have hsub : ∀ x ∈ A.intersectWith F .Smallest, lo ≤ x.toNat ∧ x.toNat < hi :=
      fun x hx => (hF x).mp ((hexact x).mp hx).2
    obtain ⟨hL, hU, hle, hiff⟩ := interval_of_subset hpos hsub hne
    exact ⟨fun x hx h1 h2 => (hexact x).mpr ⟨hx, (hF x).mpr ⟨h1, h2⟩⟩, (hsub _ hL).1,
      ⟨hle, (hsub _ hU).2⟩, hiff, ((hexact _).mp hL).1, ((hexact _).mp hU).1⟩
  · rw [heq] at hne ⊢
    have hsub : ∀ x ∈ F, lo ≤ x.toNat ∧ x.toNat < hi := fun x hx => (hF x).mp hx
    obtain ⟨hL, hU, hle, hiff⟩ := interval_of_subset hpos hsub hne
    exact ⟨fun x _ h1 h2 => (hF x).mpr ⟨h1, h2⟩, (hsub _ hL).1, ⟨hle, (hsub _ hU).2⟩, hiff, hlower,
      hupper⟩

/-- A word of the sign in the operand makes the part nonempty. -/
theorem part_nonempty (hF : ∀ x : BitVec w, x ∈ F ↔ lo ≤ x.toNat ∧ x.toNat < hi) (ha : a ∈ A)
    (h1 : lo ≤ a.toNat) (h2 : a.toNat < hi) : (A.intersectWith F .Smallest).isEmptySet = false :=
  nonempty_of_mem (mem_intersectWith ha ((hF a).mpr ⟨h1, h2⟩))

theorem posFilter_spec (hw : 0 < w) :
    ∃ F : ConstantRange w, posFilter hw = some F ∧ ∀ A : ConstantRange w,
      PartOf A (A.intersectWith F .Smallest) 1 (2 ^ (w - 1)) := by
  have h1 := toNat_one hw
  have h2 := two_pow_eq hw
  have hmin := toNat_intMin hw
  unfold posFilter
  split_ifs with hone
  · subst hone
    refine ⟨_, rfl, fun A => ⟨fun a _ hlow hhigh => ?_, fun h => absurd ?_ h⟩⟩
    · rw [Nat.sub_self, Nat.pow_zero] at hhigh
      omega
    · rw [isEmptySet_iff_forall]
      intro x hx
      rcases intersectWith_cases A (getEmpty hw) .Smallest with hexact | ⟨-, hs⟩
      · exact not_mem_getEmpty hw x ((hexact x).mp hx).2
      · obtain ⟨p, q, r, s, -, -, -, -, -, hne⟩ := hs
        exact hne (iff_of_false (fun h => not_mem_getEmpty hw _ h.2) fun h => not_mem_getEmpty hw _ h.2)
  · have hhalf : 2 ≤ 2 ^ (w - 1) := by
      calc 2 = 2 ^ 1 := rfl
        _ ≤ 2 ^ (w - 1) := Nat.pow_le_pow_right (by omega) (by omega)
    obtain ⟨F, hF, hL, hU⟩ := ofBounds_eq (L := 1) (U := BitVec.intMin w) hw (by omega)
    have hmem : ∀ x : BitVec w, x ∈ F ↔ 1 ≤ x.toNat ∧ x.toNat < 2 ^ (w - 1) := by
      intro x
      rw [mem_iff, hL, hU]
      omega
    refine ⟨F, hF, fun A => ⟨fun a ha hlow hhigh => part_nonempty hmem ha hlow hhigh, fun hne => ?_⟩⟩
    exact part_spec (by omega) (by omega) (by omega) (by rw [hL, h1]) (.inl (by rw [hU, hmin])) hmem hne

theorem negFilter_spec (hw : 0 < w) :
    ∃ F : ConstantRange w, negFilter hw = some F ∧ ∀ A : ConstantRange w,
      PartOf A (A.intersectWith F .Smallest) (2 ^ (w - 1)) (2 ^ w) := by
  have h2 := two_pow_eq hw
  have hmin := toNat_intMin hw
  have hz := toNat_zero (w := w)
  have hpos : 0 < 2 ^ (w - 1) := Nat.two_pow_pos _
  obtain ⟨F, hF, hL, hU⟩ := ofBounds_eq (L := BitVec.intMin w) (U := 0) hw (by omega)
  have hmem : ∀ x : BitVec w, x ∈ F ↔ 2 ^ (w - 1) ≤ x.toNat ∧ x.toNat < 2 ^ w := by
    intro x
    have hx := x.isLt
    rw [mem_iff, hL, hU]
    omega
  refine ⟨F, hF, fun A => ⟨fun a ha hlow hhigh => part_nonempty hmem ha hlow hhigh, fun hne => ?_⟩⟩
  exact part_spec hpos (by omega) (by omega) (by rw [hL, hmin]) (.inr ⟨by rw [hU, toNat_zero], rfl⟩)
    hmem hne

/-! ## Quotients -/

/-- Quotients of operands with the same sign. -/
theorem mem_quotients (hw : 0 < w) {x₁ x₂ y₁ y₂ : BitVec w} (h₁ : x₁.msb = y₂.msb) (h₂ : x₂.msb = y₁.msb)
    (hx : x₁.abs.toNat ≤ x₂.abs.toNat) (hy : y₁.abs.toNat ≤ y₂.abs.toNat) (hy₁ : 0 < y₁.abs.toNat)
    (hlt : x₂.abs.toNat / y₁.abs.toNat < 2 ^ (w - 1)) :
    ∃ R, ofBounds (x₁.sdiv y₂) (x₂.sdiv y₁ + 1) hw = some R ∧ ∀ x y : BitVec w, x.msb = y.msb →
      x₁.abs.toNat ≤ x.abs.toNat → x.abs.toNat ≤ x₂.abs.toNat →
      y₁.abs.toNat ≤ y.abs.toNat → y.abs.toNat ≤ y₂.abs.toNat → x.sdiv y ∈ R := by
  have h1 := toNat_one hw
  have h2 := two_pow_eq hw
  have hpos : 0 < 2 ^ (w - 1) := Nat.two_pow_pos _
  have hle : x₁.abs.toNat / y₂.abs.toNat ≤ x₂.abs.toNat / y₁.abs.toNat :=
    Nat.div_le_div hx hy (Nat.ne_of_gt hy₁)
  have hadd := toNat_add_cases (x₂.abs / y₁.abs) 1
  rw [sdiv_of_msb_eq h₁, sdiv_of_msb_eq h₂]
  rw [BitVec.toNat_udiv] at hadd
  obtain ⟨R, hR, hmem⟩ := mem_ofBounds (L := x₁.abs / y₂.abs) (U := x₂.abs / y₁.abs + 1) hw (by
    rw [BitVec.toNat_udiv]
    omega)
  refine ⟨R, hR, fun x y hxy hx1 hx2 hy1 hy2 => ?_⟩
  have hlow : x₁.abs.toNat / y₂.abs.toNat ≤ x.abs.toNat / y.abs.toNat :=
    Nat.div_le_div hx1 hy2 (by omega)
  have hhigh : x.abs.toNat / y.abs.toNat ≤ x₂.abs.toNat / y₁.abs.toNat :=
    Nat.div_le_div hx2 hy1 (by omega)
  rw [sdiv_of_msb_eq hxy, hmem]
  simp only [BitVec.toNat_udiv]
  generalize x₁.abs.toNat / y₂.abs.toNat = low at *
  generalize x₂.abs.toNat / y₁.abs.toNat = high at *
  omega

/-- Quotients of operands with different signs. -/
theorem mem_negQuotients (hw : 0 < w) (x₁ x₂ y₁ y₂ : BitVec w) (h₁ : x₂.msb ≠ y₁.msb)
    (h₂ : x₁.msb ≠ y₂.msb) (hx : x₁.abs.toNat ≤ x₂.abs.toNat) (hy : y₁.abs.toNat ≤ y₂.abs.toNat)
    (hy₁ : 0 < y₁.abs.toNat) :
    ∃ R, ofBounds (x₂.sdiv y₁) (x₁.sdiv y₂ + 1) hw = some R ∧ ∀ x y : BitVec w, x.msb ≠ y.msb →
      x₁.abs.toNat ≤ x.abs.toNat → x.abs.toNat ≤ x₂.abs.toNat →
      y₁.abs.toNat ≤ y.abs.toNat → y.abs.toNat ≤ y₂.abs.toNat → x.sdiv y ∈ R := by
  have h1 := toNat_one hw
  have h2 := two_pow_eq hw
  have hpos : 0 < 2 ^ (w - 1) := Nat.two_pow_pos _
  have hle : x₁.abs.toNat / y₂.abs.toNat ≤ x₂.abs.toNat / y₁.abs.toNat :=
    Nat.div_le_div hx hy (Nat.ne_of_gt hy₁)
  have hhalf : x₂.abs.toNat / y₁.abs.toNat ≤ 2 ^ (w - 1) :=
    Nat.le_trans (Nat.div_le_self _ _) (toNat_abs_le hw x₂)
  have hneg₂ := toNat_neg_cases (x₂.abs / y₁.abs)
  have hneg₁ := toNat_neg_cases (x₁.abs / y₂.abs)
  have hadd := toNat_add_cases (-(x₁.abs / y₂.abs)) 1
  rw [sdiv_of_msb_ne h₁, sdiv_of_msb_ne h₂]
  rw [BitVec.toNat_udiv] at hneg₁ hneg₂
  obtain ⟨R, hR, hmem⟩ := mem_ofBounds (L := -(x₂.abs / y₁.abs)) (U := -(x₁.abs / y₂.abs) + 1) hw (by
    generalize x₁.abs.toNat / y₂.abs.toNat = low at *
    generalize x₂.abs.toNat / y₁.abs.toNat = high at *
    omega)
  refine ⟨R, hR, fun x y hxy hx1 hx2 hy1 hy2 => ?_⟩
  have hlow : x₁.abs.toNat / y₂.abs.toNat ≤ x.abs.toNat / y.abs.toNat :=
    Nat.div_le_div hx1 hy2 (by omega)
  have hhigh : x.abs.toNat / y.abs.toNat ≤ x₂.abs.toNat / y₁.abs.toNat :=
    Nat.div_le_div hx2 hy1 (by omega)
  have hneg := toNat_neg_cases (x.abs / y.abs)
  rw [BitVec.toNat_udiv] at hneg
  rw [sdiv_of_msb_ne hxy, hmem]
  generalize x.abs.toNat / y.abs.toNat = quotient at *
  generalize x₁.abs.toNat / y₂.abs.toNat = low at *
  generalize x₂.abs.toNat / y₁.abs.toNat = high at *
  omega

/-! ## The four pairs of parts -/

theorem positive (h : x.toNat < 2 ^ (w - 1)) : x.msb = false ∧ x.abs.toNat = x.toNat := by
  have habs := toNat_abs_cases x
  exact ⟨(msb_eq_false_iff x).mpr h, by omega⟩

theorem negative (h : 2 ^ (w - 1) ≤ x.toNat) : x.msb = true ∧ x.abs.toNat + x.toNat = 2 ^ w := by
  have habs := toNat_abs_cases x
  exact ⟨(msb_eq_true_iff x).mpr h, by omega⟩

variable {PosL PosR NegL NegR PosRes NegRes : ConstantRange w}

theorem and_not_of_mem {lo' hi' : Nat} (hP : PartOf A P lo hi) (hN : PartOf B N lo' hi')
    (ha : a ∈ A) (halo : lo ≤ a.toNat) (hahi : a.toNat < hi) (hb : b ∈ B) (hblo : lo' ≤ b.toNat)
    (hbhi : b.toNat < hi') : (!P.isEmptySet && !N.isEmptySet) = true := by
  rw [hP.nonempty a ha halo hahi, hN.nonempty b hb hblo hbhi]
  rfl

theorem sdivPosPos_spec (hL : PartOf A PosL 1 (2 ^ (w - 1))) (hR : PartOf B PosR 1 (2 ^ (w - 1))) :
    ∃ R, sdivPosPos PosL PosR = some R ∧ ∀ a ∈ A, ∀ b ∈ B, 1 ≤ a.toNat → a.toNat < 2 ^ (w - 1) →
      1 ≤ b.toNat → b.toNat < 2 ^ (w - 1) → a.sdiv b ∈ R := by
  unfold sdivPosPos
  split_ifs with h
  · rw [Bool.and_eq_true, Bool.not_eq_true', Bool.not_eq_true', ← Bool.not_eq_true,
      ← Bool.not_eq_true] at h
    have p := hL.part h.1
    have q := hR.part h.2
    obtain ⟨hx₁, hx₁'⟩ := positive (Nat.lt_of_le_of_lt p.upper.1 p.upper.2)
    obtain ⟨hx₂, hx₂'⟩ := positive p.upper.2
    obtain ⟨hy₁, hy₁'⟩ := positive (Nat.lt_of_le_of_lt q.upper.1 q.upper.2)
    obtain ⟨hy₂, hy₂'⟩ := positive q.upper.2
    have hple := p.upper.1
    have hqle := q.upper.1
    have hqlow := q.lower
    have hlt : (PosL.Upper - 1).abs.toNat / PosR.Lower.abs.toNat < 2 ^ (w - 1) :=
      Nat.lt_of_le_of_lt (Nat.div_le_self _ _) (hx₂' ▸ p.upper.2)
    obtain ⟨R, hR', hmem⟩ := mem_quotients PosL.pos (hx₁.trans hy₂.symm) (hx₂.trans hy₁.symm)
      (by omega) (by omega) (by omega) hlt
    refine ⟨R, hR', fun a ha b hb ha1 ha2 hb1 hb2 => ?_⟩
    obtain ⟨hax, hax'⟩ := positive ha2
    obtain ⟨hbx, hbx'⟩ := positive hb2
    have hap := (p.iff a).mp (p.mem a ha ha1 ha2)
    have hbq := (q.iff b).mp (q.mem b hb hb1 hb2)
    exact hmem a b (hax.trans hbx.symm) (by omega) (by omega) (by omega) (by omega)
  · exact ⟨_, rfl, fun a ha b hb ha1 ha2 hb1 hb2 => absurd (and_not_of_mem hL hR ha ha1 ha2 hb hb1 hb2) h⟩

theorem sdivPosNeg_spec (hL : PartOf A PosL 1 (2 ^ (w - 1)))
    (hR : PartOf B NegR (2 ^ (w - 1)) (2 ^ w)) :
    ∃ R, sdivPosNeg PosL NegR = some R ∧ ∀ a ∈ A, ∀ b ∈ B, 1 ≤ a.toNat → a.toNat < 2 ^ (w - 1) →
      2 ^ (w - 1) ≤ b.toNat → a.sdiv b ∈ R := by
  unfold sdivPosNeg
  split_ifs with h
  · rw [Bool.and_eq_true, Bool.not_eq_true', Bool.not_eq_true', ← Bool.not_eq_true,
      ← Bool.not_eq_true] at h
    have p := hL.part h.1
    have q := hR.part h.2
    obtain ⟨hx₁, hx₁'⟩ := positive (Nat.lt_of_le_of_lt p.upper.1 p.upper.2)
    obtain ⟨hx₂, hx₂'⟩ := positive p.upper.2
    obtain ⟨hy₁, hy₁'⟩ := negative (Nat.le_trans q.lower q.upper.1)
    obtain ⟨hy₂, hy₂'⟩ := negative q.lower
    have hple := p.upper.1
    have hqle := q.upper.1
    have hqlt := q.upper.2
    obtain ⟨R, hR', hmem⟩ := mem_negQuotients PosL.pos PosL.Lower (PosL.Upper - 1)
      (NegR.Upper - 1) NegR.Lower (by rw [hx₂, hy₁]; exact Bool.false_ne_true)
      (by rw [hx₁, hy₂]; exact Bool.false_ne_true) (by omega) (by omega) (by omega)
    refine ⟨R, hR', fun a ha b hb ha1 ha2 hb1 => ?_⟩
    obtain ⟨hax, hax'⟩ := positive ha2
    obtain ⟨hbx, hbx'⟩ := negative hb1
    have hap := (p.iff a).mp (p.mem a ha ha1 ha2)
    have hbq := (q.iff b).mp (q.mem b hb hb1 b.isLt)
    exact hmem a b (by rw [hax, hbx]; exact Bool.false_ne_true) (by omega) (by omega) (by omega)
      (by omega)
  · exact ⟨_, rfl, fun a ha b hb ha1 ha2 hb1 =>
      absurd (and_not_of_mem hL hR ha ha1 ha2 hb hb1 b.isLt) h⟩

theorem sdivNegPos_spec (hL : PartOf A NegL (2 ^ (w - 1)) (2 ^ w))
    (hR : PartOf B PosR 1 (2 ^ (w - 1))) (NegRes : ConstantRange w) :
    ∃ R, sdivNegPos NegL PosR NegRes = some R ∧ (∀ x ∈ NegRes, x ∈ R) ∧ ∀ a ∈ A, ∀ b ∈ B,
      2 ^ (w - 1) ≤ a.toNat → 1 ≤ b.toNat → b.toNat < 2 ^ (w - 1) → a.sdiv b ∈ R := by
  unfold sdivNegPos
  split_ifs with h
  · rw [Bool.and_eq_true, Bool.not_eq_true', Bool.not_eq_true', ← Bool.not_eq_true,
      ← Bool.not_eq_true] at h
    have p := hL.part h.1
    have q := hR.part h.2
    obtain ⟨hx₁, hx₁'⟩ := negative (Nat.le_trans p.lower p.upper.1)
    obtain ⟨hx₂, hx₂'⟩ := negative p.lower
    obtain ⟨hy₁, hy₁'⟩ := positive (Nat.lt_of_le_of_lt q.upper.1 q.upper.2)
    obtain ⟨hy₂, hy₂'⟩ := positive q.upper.2
    have hple := p.upper.1
    have hqle := q.upper.1
    have hqlow := q.lower
    obtain ⟨R, hR', hmem⟩ := mem_negQuotients NegL.pos (NegL.Upper - 1) NegL.Lower
      PosR.Lower (PosR.Upper - 1) (by rw [hx₂, hy₁]; exact Bool.false_ne_true.symm)
      (by rw [hx₁, hy₂]; exact Bool.false_ne_true.symm) (by omega) (by omega) (by omega)
    rw [hR']
    refine ⟨_, rfl, fun x hx => mem_unionWith (.inl hx), fun a ha b hb ha1 hb1 hb2 => mem_unionWith (.inr ?_)⟩
    obtain ⟨hax, hax'⟩ := negative ha1
    obtain ⟨hbx, hbx'⟩ := positive hb2
    have hap := (p.iff a).mp (p.mem a ha ha1 a.isLt)
    have hbq := (q.iff b).mp (q.mem b hb hb1 hb2)
    exact hmem a b (by rw [hax, hbx]; exact Bool.false_ne_true.symm) (by omega) (by omega) (by omega)
      (by omega)
  · exact ⟨_, rfl, fun x hx => hx, fun a ha b hb ha1 hb1 hb2 =>
      absurd (and_not_of_mem hL hR ha ha1 a.isLt hb hb1 hb2) h⟩

/-! ## Negative by negative -/

/-- The divisors that remain without minus one. -/
theorem le_adjusted {Adj : BitVec w} (q : Part B NegR (2 ^ (w - 1)) (2 ^ w)) (hzero : NegR.Upper = 0)
    (hlower : NegR.Lower ≠ BitVec.allOnes w)
    (hAdj : (if B.Lower = BitVec.allOnes w then B.Upper else NegR.Upper - 1) = Adj) :
    2 ^ (w - 1) ≤ (Adj - 1).toNat ∧ (Adj - 1).toNat + 1 < 2 ^ w ∧
      ∀ b ∈ B, 2 ^ (w - 1) ≤ b.toNat → b ≠ BitVec.allOnes w → b.toNat ≤ (Adj - 1).toNat := by
  have h1 := toNat_one B.pos
  have h2 := two_pow_eq B.pos
  have hM := two_le B.pos
  have hlow := q.lower
  have hmem := q.lower_mem
  have hsub := toNat_sub_cases Adj 1
  have hLlt := NegR.Lower.isLt
  have hUlt := B.Upper.isLt
  have hones : (BitVec.allOnes w).toNat = 2 ^ w - 1 := BitVec.toNat_allOnes
  rw [Ne, eq_iff, hones] at hlower
  split_ifs at hAdj with hB
  · subst hAdj
    rw [mem_iff, hB, hones] at hmem
    refine ⟨by omega, by omega, fun b hb hneg hne => ?_⟩
    have hblt := b.isLt
    rw [mem_iff, hB, hones] at hb
    rw [Ne, eq_iff, hones] at hne
    omega
  · subst hAdj
    have hz := toNat_zero (w := w)
    have hsub0 := toNat_sub_cases (0 : BitVec w) 1
    rw [hzero] at hsub ⊢
    refine ⟨by omega, by omega, fun b hb hneg hne => ?_⟩
    have hblt := b.isLt
    rw [Ne, eq_iff, hones] at hne
    omega

/-- The dividends that remain without the least word. -/
theorem adjusted_le {Adj : BitVec w} (p : Part A NegL (2 ^ (w - 1)) (2 ^ w))
    (hmin : NegL.Lower = BitVec.intMin w) (hupper : NegL.Upper ≠ BitVec.intMin w + 1)
    (hAdj : (if A.Upper = BitVec.intMin w + 1 then A.Lower else NegL.Lower + 1) = Adj) :
    2 ^ (w - 1) < Adj.toNat ∧ Adj.toNat ≤ (NegL.Upper - 1).toNat ∧
      ∀ a ∈ A, 2 ^ (w - 1) ≤ a.toNat → a ≠ BitVec.intMin w → Adj.toNat ≤ a.toNat := by
  have h1 := toNat_one A.pos
  have h2 := two_pow_eq A.pos
  have hlow := p.upper.1
  have hmem := p.upper_mem
  have hminNat := toNat_intMin A.pos
  have hminAdd := toNat_add_cases (BitVec.intMin w) 1
  have hUlt := (NegL.Upper - 1).isLt
  have hLlt := A.Lower.isLt
  rw [hmin] at hlow
  have hne : (NegL.Upper - 1).toNat ≠ 2 ^ (w - 1) := by
    intro heq
    refine hupper ?_
    rw [← hminNat, ← eq_iff] at heq
    rw [← heq, BitVec.sub_add_cancel]
  split_ifs at hAdj with hA
  · subst hAdj
    rw [mem_iff, hA] at hmem
    have hbounds := A.bounds_toNat
    rw [hA] at hbounds
    refine ⟨by omega, by omega, fun a ha hneg hne' => ?_⟩
    have halt := a.isLt
    rw [mem_iff, hA] at ha
    rw [Ne, eq_iff] at hne'
    omega
  · subst hAdj
    rw [hmin]
    refine ⟨by omega, by omega, fun a ha hneg hne' => ?_⟩
    rw [Ne, eq_iff] at hne'
    omega

theorem sdivNotMinusOne_spec (p : Part A NegL (2 ^ (w - 1)) (2 ^ w))
    (q : Part B NegR (2 ^ (w - 1)) (2 ^ w)) (hzero : NegR.Upper = 0) (PosRes : ConstantRange w) :
    ∃ R, sdivNotMinusOne B NegL NegR PosRes = some R ∧ (∀ x ∈ PosRes, x ∈ R) ∧
      ∀ a ∈ A, ∀ b ∈ B, 2 ^ (w - 1) ≤ a.toNat → 2 ^ (w - 1) ≤ b.toNat → b ≠ BitVec.allOnes w →
        a.sdiv b ∈ R := by
  have h2 := two_pow_eq B.pos
  have hpos : 0 < 2 ^ (w - 1) := Nat.two_pow_pos _
  unfold sdivNotMinusOne
  by_cases hlower : NegR.Lower ≠ BitVec.allOnes w
  · rw [if_pos hlower]
    dsimp only
    obtain ⟨Adj, hAdj⟩ : ∃ Adj, (if B.Lower = BitVec.allOnes w then B.Upper else NegR.Upper - 1) = Adj :=
      ⟨_, rfl⟩
    rw [hAdj]
    obtain ⟨hadjLow, hadjHigh, hadj⟩ := le_adjusted q hzero hlower hAdj
    obtain ⟨hx₁, hx₁'⟩ := negative (Nat.le_trans p.lower p.upper.1)
    obtain ⟨hx₂, hx₂'⟩ := negative p.lower
    obtain ⟨hy₁, hy₁'⟩ := negative hadjLow
    obtain ⟨hy₂, hy₂'⟩ := negative q.lower
    have hple := p.upper.1
    have hlow := p.lower
    have hNegR : NegR.Lower.toNat ≤ (Adj - 1).toNat := hadj _ q.lower_mem q.lower hlower
    have hlt : NegL.Lower.abs.toNat / (Adj - 1).abs.toNat < 2 ^ (w - 1) :=
      Nat.lt_of_lt_of_le (Nat.div_lt_self (by omega) (by omega)) (show NegL.Lower.abs.toNat ≤ _ by omega)
    obtain ⟨R, hR, hmem⟩ := mem_quotients B.pos (hx₁.trans hy₂.symm) (hx₂.trans hy₁.symm)
      (by omega) (by omega) (by omega) hlt
    rw [hR]
    refine ⟨_, rfl, fun x hx => mem_unionWith (.inl hx),
      fun a ha b hb hneg hneg' hne => mem_unionWith (.inr ?_)⟩
    obtain ⟨hax, hax'⟩ := negative hneg
    obtain ⟨hbx, hbx'⟩ := negative hneg'
    have hap := (p.iff a).mp (p.mem a ha hneg a.isLt)
    have hbq := (q.iff b).mp (q.mem b hb hneg' b.isLt)
    have hb' := hadj b hb hneg' hne
    exact hmem a b (hax.trans hbx.symm) (by omega) (by omega) (by omega) (by omega)
  · rw [if_neg hlower]
    refine ⟨_, rfl, fun x hx => hx, fun a ha b hb hneg hneg' hne => absurd ?_ hne⟩
    have hbq := (q.iff b).mp (q.mem b hb hneg' b.isLt)
    have hblt := b.isLt
    rw [not_not, eq_iff, BitVec.toNat_allOnes] at hlower
    rw [eq_iff, BitVec.toNat_allOnes]
    omega

theorem sdivNotMin_spec (p : Part A NegL (2 ^ (w - 1)) (2 ^ w))
    (q : Part B NegR (2 ^ (w - 1)) (2 ^ w)) (hmin : NegL.Lower = BitVec.intMin w)
    (PosRes : ConstantRange w) :
    ∃ R, sdivNotMin A NegL NegR PosRes = some R ∧ (∀ x ∈ PosRes, x ∈ R) ∧
      ∀ a ∈ A, ∀ b ∈ B, 2 ^ (w - 1) ≤ a.toNat → 2 ^ (w - 1) ≤ b.toNat → a ≠ BitVec.intMin w →
        a.sdiv b ∈ R := by
  have h2 := two_pow_eq B.pos
  have hpos : 0 < 2 ^ (w - 1) := Nat.two_pow_pos _
  unfold sdivNotMin
  by_cases hupper : NegL.Upper ≠ BitVec.intMin w + 1
  · rw [if_pos hupper]
    dsimp only
    obtain ⟨Adj, hAdj⟩ : ∃ Adj, (if A.Upper = BitVec.intMin w + 1 then A.Lower else NegL.Lower + 1) = Adj :=
      ⟨_, rfl⟩
    rw [hAdj]
    obtain ⟨hadjLow, hadjHigh, hadj⟩ := adjusted_le p hmin hupper hAdj
    obtain ⟨hx₁, hx₁'⟩ := negative (Nat.le_trans p.lower p.upper.1)
    obtain ⟨hx₂, hx₂'⟩ := negative (Nat.le_of_lt hadjLow)
    obtain ⟨hy₁, hy₁'⟩ := negative (Nat.le_trans q.lower q.upper.1)
    obtain ⟨hy₂, hy₂'⟩ := negative q.lower
    have hqle := q.upper.1
    have hqlt := q.upper.2
    have hlt : Adj.abs.toNat / (NegR.Upper - 1).abs.toNat < 2 ^ (w - 1) :=
      Nat.lt_of_le_of_lt (Nat.div_le_self _ _) (by omega)
    obtain ⟨R, hR, hmem⟩ := mem_quotients A.pos (hx₁.trans hy₂.symm) (hx₂.trans hy₁.symm)
      (by omega) (by omega) (by omega) hlt
    rw [hR]
    refine ⟨_, rfl, fun x hx => mem_unionWith (.inl hx),
      fun a ha b hb hneg hneg' hne => mem_unionWith (.inr ?_)⟩
    obtain ⟨hax, hax'⟩ := negative hneg
    obtain ⟨hbx, hbx'⟩ := negative hneg'
    have hap := (p.iff a).mp (p.mem a ha hneg a.isLt)
    have hbq := (q.iff b).mp (q.mem b hb hneg' b.isLt)
    have ha' := hadj a ha hneg hne
    exact hmem a b (hax.trans hbx.symm) (by omega) (by omega) (by omega) (by omega)
  · rw [if_neg hupper]
    refine ⟨_, rfl, fun x hx => hx, fun a ha b hb hneg hneg' hne => absurd ?_ hne⟩
    have hap := (p.iff a).mp (p.mem a ha hneg a.isLt)
    rw [not_not] at hupper
    rw [hupper, BitVec.add_sub_cancel, toNat_intMin A.pos] at hap
    rw [eq_iff, toNat_intMin A.pos]
    omega

theorem sdivNegNeg_spec (hL : PartOf A NegL (2 ^ (w - 1)) (2 ^ w))
    (hR : PartOf B NegR (2 ^ (w - 1)) (2 ^ w)) (PosRes : ConstantRange w) :
    ∃ R, sdivNegNeg A B NegL NegR PosRes = some R ∧ (∀ x ∈ PosRes, x ∈ R) ∧
      ∀ a ∈ A, ∀ b ∈ B, 2 ^ (w - 1) ≤ a.toNat → 2 ^ (w - 1) ≤ b.toNat →
        ¬(a = BitVec.intMin w ∧ b = BitVec.allOnes w) → a.sdiv b ∈ R := by
  have h2 := two_pow_eq A.pos
  have hpos : 0 < 2 ^ (w - 1) := Nat.two_pow_pos _
  unfold sdivNegNeg
  split_ifs with h hcorner
  · rw [Bool.and_eq_true, Bool.not_eq_true', Bool.not_eq_true', ← Bool.not_eq_true,
      ← Bool.not_eq_true] at h
    have p := hL.part h.1
    have q := hR.part h.2
    obtain ⟨R₁, hR₁, hkeep₁, hmem₁⟩ := sdivNotMinusOne_spec p q hcorner.2 PosRes
    obtain ⟨R₂, hR₂, hkeep₂, hmem₂⟩ := sdivNotMin_spec p q hcorner.1 R₁
    rw [hR₁, Option.bind_eq_bind, Option.bind_some]
    refine ⟨R₂, hR₂, fun x hx => hkeep₂ x (hkeep₁ x hx), fun a ha b hb hneg hneg' hne => ?_⟩
    by_cases hb1 : b = BitVec.allOnes w
    · exact hmem₂ a ha b hb hneg hneg' fun ha1 => hne ⟨ha1, hb1⟩
    · exact hkeep₂ _ (hmem₁ a ha b hb hneg hneg' hb1)
  · rw [Bool.and_eq_true, Bool.not_eq_true', Bool.not_eq_true', ← Bool.not_eq_true,
      ← Bool.not_eq_true] at h
    have p := hL.part h.1
    have q := hR.part h.2
    obtain ⟨hx₁, hx₁'⟩ := negative (Nat.le_trans p.lower p.upper.1)
    obtain ⟨hx₂, hx₂'⟩ := negative p.lower
    obtain ⟨hy₁, hy₁'⟩ := negative (Nat.le_trans q.lower q.upper.1)
    obtain ⟨hy₂, hy₂'⟩ := negative q.lower
    have hple := p.upper.1
    have hlow := p.lower
    have hqle := q.upper.1
    have hqlt := q.upper.2
    -- the least word is not divided by minus one
    have hlt : NegL.Lower.abs.toNat / (NegR.Upper - 1).abs.toNat < 2 ^ (w - 1) := by
      by_cases hmin : NegL.Lower = BitVec.intMin w
      · have hupper : NegR.Upper ≠ 0 := fun hzero => hcorner ⟨hmin, hzero⟩
        have h1 := toNat_one A.pos
        have hsub := toNat_sub_cases NegR.Upper 1
        have hUlt := NegR.Upper.isLt
        rw [Ne, eq_iff, toNat_zero] at hupper
        exact Nat.lt_of_lt_of_le (Nat.div_lt_self (by omega) (by omega))
          (show NegL.Lower.abs.toNat ≤ _ by omega)
      · rw [eq_iff, toNat_intMin A.pos] at hmin
        exact Nat.lt_of_le_of_lt (Nat.div_le_self _ _) (by omega)
    obtain ⟨R, hR', hmem⟩ := mem_quotients A.pos (hx₁.trans hy₂.symm) (hx₂.trans hy₁.symm)
      (by omega) (by omega) (by omega) hlt
    rw [hR']
    refine ⟨_, rfl, fun x hx => mem_unionWith (.inl hx),
      fun a ha b hb hneg hneg' _ => mem_unionWith (.inr ?_)⟩
    obtain ⟨hax, hax'⟩ := negative hneg
    obtain ⟨hbx, hbx'⟩ := negative hneg'
    have hap := (p.iff a).mp (p.mem a ha hneg a.isLt)
    have hbq := (q.iff b).mp (q.mem b hb hneg' b.isLt)
    exact hmem a b (hax.trans hbx.symm) (by omega) (by omega) (by omega) (by omega)
  · exact ⟨_, rfl, fun x hx => hx, fun a ha b hb hneg hneg' _ =>
      absurd (and_not_of_mem hL hR ha hneg a.isLt hb hneg' b.isLt) h⟩

/-! ## All quotients -/

theorem sdiv_spec (A B : ConstantRange w) :
    ∃ R, sdiv A B = some R ∧ ∀ a ∈ A, ∀ b ∈ B, b ≠ 0 →
      ¬(a = BitVec.intMin w ∧ b = BitVec.allOnes w) → a.sdiv b ∈ R := by
  obtain ⟨PosFilter, hPF, hpart⟩ := posFilter_spec A.pos
  obtain ⟨NegFilter, hNF, hpart'⟩ := negFilter_spec A.pos
  have hPosL := hpart A
  have hPosR := hpart B
  have hNegL := hpart' A
  have hNegR := hpart' B
  obtain ⟨PosRes₁, hPos₁, hpp⟩ := sdivPosPos_spec hPosL hPosR
  obtain ⟨PosRes₂, hPos₂, hkeep, hnn⟩ := sdivNegNeg_spec hNegL hNegR PosRes₁
  obtain ⟨NegRes₁, hNeg₁, hpn⟩ := sdivPosNeg_spec hPosL hNegR
  obtain ⟨NegRes₂, hNeg₂, hkeep', hnp⟩ := sdivNegPos_spec hNegL hPosR NegRes₁
  unfold sdiv
  simp only [hPF, hNF, hPos₁, hPos₂, hNeg₁, hNeg₂, Option.bind_eq_bind, Option.bind_some]
  -- the quotients of dividends that are not zero
  have hmain : ∀ a ∈ A, ∀ b ∈ B, a ≠ 0 → b ≠ 0 → ¬(a = BitVec.intMin w ∧ b = BitVec.allOnes w) →
      a.sdiv b ∈ NegRes₂.unionWith PosRes₂ .Signed := by
    intro a ha b hb ha0 hb0 hover
    rw [Ne, eq_iff, toNat_zero] at ha0 hb0
    refine mem_unionWith ?_
    by_cases hneg : 2 ^ (w - 1) ≤ a.toNat <;> by_cases hneg' : 2 ^ (w - 1) ≤ b.toNat
    · exact .inr (hnn a ha b hb hneg hneg' hover)
    · exact .inl (hnp a ha b hb hneg (by omega) (by omega))
    · exact .inl (hkeep' _ (hpn a ha b hb (by omega) (by omega) hneg'))
    · exact .inr (hkeep _ (hpp a ha b hb (by omega) (by omega) (by omega) (by omega)))
  split_ifs with hzero
  · refine ⟨_, rfl, fun a ha b hb hb0 hover => ?_⟩
    by_cases ha0 : a = 0
    · rw [ha0, BitVec.ofNat_eq_ofNat, BitVec.zero_sdiv]
      exact mem_unionWith (.inr (mem_ofValue A.pos 0))
    · exact mem_unionWith (.inl (hmain a ha b hb ha0 hb0 hover))
  · refine ⟨_, rfl, fun a ha b hb hb0 hover => hmain a ha b hb (fun ha0 => hzero ?_) hb0 hover⟩
    rw [Ne, eq_iff, toNat_zero] at hb0
    rw [Bool.and_eq_true, Bool.or_eq_true, Bool.not_eq_true', Bool.not_eq_true']
    refine ⟨ha0 ▸ ha, ?_⟩
    by_cases hneg : 2 ^ (w - 1) ≤ b.toNat
    · exact .inr (hNegR.nonempty b hb hneg b.isLt)
    · exact .inl (hPosR.nonempty b hb (by omega) (by omega))

/-- The result has `op a b` for every pair of members for which it is defined, and is empty only
where there is no such pair. -/
def Covers (result : Option (ConstantRange w)) (A B : ConstantRange w)
    (op : BitVec w → BitVec w → BitVec w) (Defined : BitVec w → BitVec w → Prop) : Prop :=
  ∃ R, result = some R ∧ (∀ a ∈ A, ∀ b ∈ B, Defined a b → op a b ∈ R) ∧
    (R.isEmptySet = true → ∀ a ∈ A, ∀ b ∈ B, ¬Defined a b)

theorem covers_of_mem {result : Option (ConstantRange w)} {op : BitVec w → BitVec w → BitVec w}
    {Defined : BitVec w → BitVec w → Prop}
    (h : ∃ R, result = some R ∧ ∀ a ∈ A, ∀ b ∈ B, Defined a b → op a b ∈ R) :
    Covers result A B op Defined := by
  obtain ⟨R, hR, hmem⟩ := h
  exact ⟨R, hR, hmem, fun hempty a ha b hb hdef =>
    isEmptySet_iff_forall.mp hempty _ (hmem a ha b hb hdef)⟩

/-- The divisions for which the words have a quotient. -/
def NoOverflow (a b : BitVec w) : Prop := b ≠ 0 ∧ ¬(a = BitVec.intMin w ∧ b = BitVec.allOnes w)

/-- Division, remainder and magnitude have every result that is defined, and are empty only where
none is. -/
theorem divisions_sound (A B : ConstantRange w) (IntMinIsPoison : Bool) :
    Covers (some (udiv A B)) A B (· / ·) (fun _ b => b ≠ 0) ∧
      Covers (sdiv A B) A B BitVec.sdiv NoOverflow ∧
      Covers (some (urem A B)) A B (· % ·) (fun _ b => b ≠ 0) ∧
      Covers (srem A B) A B BitVec.srem NoOverflow ∧
      Covers (abs A IntMinIsPoison) A A (fun a _ => a.abs)
        (fun a _ => IntMinIsPoison = true → a ≠ BitVec.intMin w) := by
  refine ⟨covers_of_mem ⟨_, rfl, fun a ha b hb hb0 => mem_udiv ha hb hb0⟩, covers_of_mem ?_,
    covers_of_mem ⟨_, rfl, fun a ha b hb hb0 => mem_urem ha hb hb0⟩, covers_of_mem ?_, covers_of_mem ?_⟩
  · obtain ⟨R, hR, hmem⟩ := sdiv_spec A B
    exact ⟨R, hR, fun a ha b hb hdef => hmem a ha b hb hdef.1 hdef.2⟩
  · obtain ⟨R, hR, hmem⟩ := srem_spec A B
    exact ⟨R, hR, fun a ha b hb hdef => hmem a ha b hb hdef.1⟩
  · obtain ⟨R, hR, hmem, -⟩ := abs_spec A IntMinIsPoison
    exact ⟨R, hR, fun a ha _ _ hne => hmem a ha hne⟩

end RvLlvm.IR.ConstantRange
