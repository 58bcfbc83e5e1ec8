import RvLlvm.Support.WordOrder
import Mathlib.Data.Set.Card
import Mathlib.Order.Interval.Finset.Nat

/-!
# Ranges of machine words

Model of `ConstantRange` (`llvm/include/llvm/IR/ConstantRange.h`,
`llvm/lib/IR/ConstantRange.cpp:45-56` and `:363-468`): a half-open interval of words that may wrap
around, with two equal bounds standing for no word (both zero) or for every word (both all ones).
The assertions of the constructor are the fields of the structure. An `APInt` of `w` bits is a
`BitVec w`, and an integer type has at least one bit.

* `eq_of_mem_iff`: a range is given by its members.
* `getUnsignedMin_mem`, `getUnsignedMin_le` and their fellows: of a range with a member, the four
  bounds are members, and no member lies outside them.
-/

namespace RvLlvm.IR

open Support.WordOrder

variable {w : Nat}

/-- `ConstantRange`. -/
structure ConstantRange (w : Nat) where
  Lower : BitVec w
  Upper : BitVec w
  /-- The second assertion of the constructor. -/
  bounds : Lower = Upper → Lower = BitVec.allOnes w ∨ Lower = 0
  /-- An integer type has a bit. -/
  pos : 0 < w
deriving DecidableEq

namespace ConstantRange

/-- `ConstantRange(L, U)` with bounds that differ. -/
abbrev ofNe (L U : BitVec w) (hw : 0 < w) (h : L ≠ U) : ConstantRange w :=
  ⟨L, U, fun e => absurd e h, hw⟩

def getEmpty (hw : 0 < w) : ConstantRange w := ⟨0, 0, fun _ => .inr rfl, hw⟩

def getFull (hw : 0 < w) : ConstantRange w :=
  ⟨BitVec.allOnes w, BitVec.allOnes w, fun _ => .inl rfl, hw⟩

def getNonEmpty (L U : BitVec w) (hw : 0 < w) : ConstantRange w :=
  if h : L = U then getFull hw else ofNe L U hw h

theorem ne_add_one (hw : 0 < w) (x : BitVec w) : x ≠ x + 1 := by
  have h2 := two_pow_eq hw
  have hpos : 0 < 2 ^ (w - 1) := Nat.two_pow_pos _
  have hx := x.isLt
  have h1 := toNat_one hw
  have hadd := toNat_add_cases x 1
  rw [Ne, eq_iff]
  omega

/-- `ConstantRange(V)`. -/
def ofValue (V : BitVec w) (hw : 0 < w) : ConstantRange w := ofNe V (V + 1) hw (ne_add_one hw V)

def isFullSet (R : ConstantRange w) : Bool := R.Lower == R.Upper && R.Lower == BitVec.allOnes w

def isEmptySet (R : ConstantRange w) : Bool := R.Lower == R.Upper && R.Lower == 0

def isWrappedSet (R : ConstantRange w) : Bool := decide (R.Upper < R.Lower) && R.Upper != 0

def isUpperWrapped (R : ConstantRange w) : Bool := decide (R.Upper < R.Lower)

def isSignWrappedSet (R : ConstantRange w) : Bool :=
  R.Upper.slt R.Lower && R.Upper != BitVec.intMin w

def isUpperSignWrapped (R : ConstantRange w) : Bool := R.Upper.slt R.Lower

def isSizeStrictlySmallerThan (R Other : ConstantRange w) : Bool :=
  if R.isFullSet then false
  else if Other.isFullSet then true
  else (R.Upper - R.Lower).ult (Other.Upper - Other.Lower)

def getUnsignedMax (R : ConstantRange w) : BitVec w :=
  if R.isFullSet || R.isUpperWrapped then BitVec.allOnes w else R.Upper - 1

def getUnsignedMin (R : ConstantRange w) : BitVec w :=
  if R.isFullSet || R.isWrappedSet then 0 else R.Lower

def getSignedMax (R : ConstantRange w) : BitVec w :=
  if R.isFullSet || R.isUpperSignWrapped then BitVec.intMax w else R.Upper - 1

def getSignedMin (R : ConstantRange w) : BitVec w :=
  if R.isFullSet || R.isSignWrappedSet then BitVec.intMin w else R.Lower

def contains (R : ConstantRange w) (V : BitVec w) : Bool :=
  if R.Lower = R.Upper then R.isFullSet
  else if R.isUpperWrapped = false then decide (R.Lower ≤ V) && decide (V < R.Upper)
  else decide (R.Lower ≤ V) || decide (V < R.Upper)

/-- `contains` of a range. -/
def containsRange (R Other : ConstantRange w) : Bool :=
  if R.isFullSet || Other.isEmptySet then true
  else if R.isEmptySet || Other.isFullSet then false
  else if R.isUpperWrapped = false then
    if Other.isUpperWrapped then false
    else decide (R.Lower ≤ Other.Lower) && decide (Other.Upper ≤ R.Upper)
  else if Other.isUpperWrapped = false then
    decide (Other.Upper ≤ R.Upper) || decide (R.Lower ≤ Other.Lower)
  else decide (Other.Upper ≤ R.Upper) && decide (R.Lower ≤ Other.Lower)

def getSingleElement (R : ConstantRange w) : Option (BitVec w) :=
  if R.Upper = R.Lower + 1 then some R.Lower else none

def getSingleMissingElement (R : ConstantRange w) : Option (BitVec w) :=
  if R.Lower = R.Upper + 1 then some R.Upper else none

def isSingleElement (R : ConstantRange w) : Bool := R.getSingleElement.isSome

theorem inverse_bounds (R : ConstantRange w) (h : R.Upper = R.Lower) :
    R.Upper = BitVec.allOnes w ∨ R.Upper = 0 := h ▸ R.bounds h.symm

def inverse (R : ConstantRange w) : ConstantRange w :=
  if R.isFullSet then getEmpty R.pos
  else if R.isEmptySet then getFull R.pos
  else ⟨R.Upper, R.Lower, R.inverse_bounds, R.pos⟩

instance : Membership (BitVec w) (ConstantRange w) := ⟨fun R x => R.contains x = true⟩

instance (x : BitVec w) (R : ConstantRange w) : Decidable (x ∈ R) :=
  inferInstanceAs (Decidable (R.contains x = true))

/-! ## The two bounds as numbers -/

variable {R O A B : ConstantRange w} {x : BitVec w}

theorem bounds_toNat (R : ConstantRange w) (h : R.Lower.toNat = R.Upper.toNat) :
    R.Lower.toNat = 2 ^ w - 1 ∨ R.Lower.toNat = 0 := by
  rcases R.bounds (eq_iff.mpr h) with hL | hL
  · exact .inl (by rw [hL, BitVec.toNat_allOnes])
  · exact .inr (by rw [hL, toNat_zero])

theorem two_le (hw : 0 < w) : 2 ≤ 2 ^ w := by
  have h2 := two_pow_eq hw
  have hpos : 0 < 2 ^ (w - 1) := Nat.two_pow_pos _
  omega

theorem isFullSet_iff : R.isFullSet = true ↔ R.Lower.toNat = R.Upper.toNat ∧ 0 < R.Lower.toNat := by
  have hM := two_le R.pos
  have hB := R.bounds_toNat
  simp only [isFullSet, Bool.and_eq_true, beq_iff_eq, eq_iff, BitVec.toNat_allOnes]
  omega

theorem isEmptySet_iff : R.isEmptySet = true ↔ R.Lower.toNat = 0 ∧ R.Upper.toNat = 0 := by
  simp only [isEmptySet, Bool.and_eq_true, beq_iff_eq, eq_iff, toNat_zero]
  omega

theorem isUpperWrapped_iff : R.isUpperWrapped = true ↔ R.Upper.toNat < R.Lower.toNat := by
  simp only [isUpperWrapped, decide_eq_true_eq, BitVec.lt_def]

theorem isUpperWrapped_eq_false_iff : R.isUpperWrapped = false ↔ R.Lower.toNat ≤ R.Upper.toNat := by
  rw [← Bool.not_eq_true, isUpperWrapped_iff, Nat.not_lt]

theorem isWrappedSet_iff :
    R.isWrappedSet = true ↔ R.Upper.toNat < R.Lower.toNat ∧ 0 < R.Upper.toNat := by
  simp only [isWrappedSet, Bool.and_eq_true, decide_eq_true_eq, BitVec.lt_def, bne_iff_ne, Ne, eq_iff,
    toNat_zero]
  omega

theorem isUpperSignWrapped_iff : R.isUpperSignWrapped = true ↔ R.Upper.toInt < R.Lower.toInt :=
  BitVec.slt_iff_toInt_lt

theorem isSignWrappedSet_iff :
    R.isSignWrappedSet = true ↔
      R.Upper.toInt < R.Lower.toInt ∧ R.Upper.toNat ≠ 2 ^ (w - 1) := by
  simp only [isSignWrappedSet, Bool.and_eq_true, BitVec.slt_iff_toInt_lt, bne_iff_ne, Ne, eq_iff,
    BitVec.toNat_intMin_of_pos R.pos]

/-- Membership, by the order of the two bounds. -/
theorem mem_iff :
    x ∈ R ↔
      R.Lower.toNat < R.Upper.toNat ∧ R.Lower.toNat ≤ x.toNat ∧ x.toNat < R.Upper.toNat ∨
      R.Upper.toNat < R.Lower.toNat ∧ (R.Lower.toNat ≤ x.toNat ∨ x.toNat < R.Upper.toNat) ∨
      R.Lower.toNat = R.Upper.toNat ∧ 0 < R.Lower.toNat := by
  show R.contains x = true ↔ _
  unfold contains
  simp only [eq_iff]
  split_ifs with h1 h2
  · rw [isFullSet_iff]
    omega
  · have h3 : ¬R.Upper.toNat < R.Lower.toNat := by
      rw [← isUpperWrapped_iff, h2]
      exact Bool.false_ne_true
    simp only [Bool.and_eq_true, decide_eq_true_eq, BitVec.le_def, BitVec.lt_def]
    omega
  · have h3 := isUpperWrapped_iff.mp (by simpa using h2)
    simp only [Bool.or_eq_true, decide_eq_true_eq, BitVec.le_def, BitVec.lt_def]
    omega

@[simp] theorem not_mem_getEmpty (hw : 0 < w) (x : BitVec w) : x ∉ getEmpty hw := by
  rw [mem_iff]
  simp [getEmpty]

@[simp] theorem mem_getFull (hw : 0 < w) (x : BitVec w) : x ∈ getFull hw := by
  have hM := two_le hw
  have hL : (getFull hw).Lower.toNat = 2 ^ w - 1 := BitVec.toNat_allOnes
  have hU : (getFull hw).Upper.toNat = 2 ^ w - 1 := BitVec.toNat_allOnes
  rw [mem_iff]
  omega

theorem mem_ofNe {L U : BitVec w} {hw : 0 < w} {h : L ≠ U} :
    x ∈ ofNe L U hw h ↔
      L.toNat < U.toNat ∧ L.toNat ≤ x.toNat ∧ x.toNat < U.toNat ∨
      U.toNat < L.toNat ∧ (L.toNat ≤ x.toNat ∨ x.toNat < U.toNat) := by
  rw [Ne, eq_iff] at h
  rw [mem_iff]
  dsimp only
  omega

theorem mem_getNonEmpty {L U : BitVec w} {hw : 0 < w} :
    x ∈ getNonEmpty L U hw ↔
      L.toNat < U.toNat ∧ L.toNat ≤ x.toNat ∧ x.toNat < U.toNat ∨
      U.toNat ≤ L.toNat ∧ (L.toNat ≤ x.toNat ∨ x.toNat < U.toNat) := by
  unfold getNonEmpty
  split_ifs with h
  · have hx := mem_getFull hw x
    rw [eq_iff] at h
    simp only [hx, true_iff]
    omega
  · rw [mem_ofNe]
    rw [eq_iff] at h
    omega

theorem isEmptySet_iff_forall : R.isEmptySet = true ↔ ∀ x, x ∉ R := by
  have hB := R.bounds_toNat
  have hL := R.Lower.isLt
  constructor
  · intro h x
    rw [isEmptySet_iff] at h
    rw [mem_iff]
    omega
  · intro h
    have hl := h R.Lower
    have hu := h (R.Upper - 1)
    rw [isEmptySet_iff]
    rw [mem_iff] at hl
    omega

theorem exists_mem (h : ¬R.isEmptySet = true) : ∃ x, x ∈ R :=
  Classical.not_forall_not.mp (mt isEmptySet_iff_forall.mpr h)

theorem isFullSet_iff_forall : R.isFullSet = true ↔ ∀ x, x ∈ R := by
  have hM := two_le R.pos
  have hB := R.bounds_toNat
  have hU := R.Upper.isLt
  constructor
  · intro h x
    rw [isFullSet_iff] at h
    rw [mem_iff]
    omega
  · intro h
    have hu := h R.Upper
    have h0 := h 0
    rw [mem_iff] at hu h0
    rw [isFullSet_iff]
    omega

theorem mem_inverse : x ∈ R.inverse ↔ x ∉ R := by
  unfold inverse
  split_ifs with h1 h2
  · simp [isFullSet_iff_forall.mp h1 x]
  · simp [isEmptySet_iff_forall.mp h2 x]
  · have hB := R.bounds_toNat
    rw [isFullSet_iff] at h1
    rw [isEmptySet_iff] at h2
    rw [mem_iff, mem_iff]
    dsimp only
    omega

/-! ## Sizes -/

/-- A proper range, by the distance of a word from its lower end. -/
theorem mem_iff_sub (h : R.Lower ≠ R.Upper) :
    x ∈ R ↔ (x - R.Lower).toNat < (R.Upper - R.Lower).toNat := by
  have hx := x.isLt
  have hL := R.Lower.isLt
  have hU := R.Upper.isLt
  have hxL := toNat_sub_cases x R.Lower
  have hUL := toNat_sub_cases R.Upper R.Lower
  rw [Ne, eq_iff] at h
  rw [mem_iff]
  omega

/-- How many members a range has. -/
def size (R : ConstantRange w) : Nat :=
  if R.isFullSet then 2 ^ w else (R.Upper - R.Lower).toNat

theorem size_le (R : ConstantRange w) : R.size ≤ 2 ^ w := by
  unfold size
  split_ifs
  · exact Nat.le_refl _
  · exact Nat.le_of_lt (BitVec.isLt _)

/-- A range is an arc of `size` words from its lower end. -/
theorem mem_iff_lt_size : x ∈ R ↔ (x - R.Lower).toNat < R.size := by
  unfold size
  split_ifs with hfull
  · exact iff_of_true (isFullSet_iff_forall.mp hfull x) (BitVec.isLt _)
  · by_cases h : R.Lower = R.Upper
    · have hempty : R.isEmptySet = true := by
        rw [isEmptySet_iff]
        rw [isFullSet_iff] at hfull
        rw [eq_iff] at h
        omega
      rw [h, BitVec.sub_self]
      exact iff_of_false (isEmptySet_iff_forall.mp hempty x) (Nat.not_lt_zero _)
    · exact mem_iff_sub h

theorem ncard_members (R : ConstantRange w) : {x | x ∈ R}.ncard = R.size := by
  have himage : {x | x ∈ R} = (fun i => R.Lower + BitVec.ofNat w i) '' Set.Iio R.size := by
    ext x
    rw [Set.mem_setOf_eq, mem_iff_lt_size]
    constructor
    · intro h
      refine ⟨(x - R.Lower).toNat, h, ?_⟩
      dsimp only
      rw [BitVec.ofNat_toNat, BitVec.setWidth_eq, BitVec.add_comm, BitVec.sub_add_cancel]
    · rintro ⟨i, hi, rfl⟩
      dsimp only
      rw [BitVec.add_comm, BitVec.add_sub_cancel, BitVec.toNat_ofNat]
      exact Nat.lt_of_le_of_lt (Nat.mod_le _ _) hi
  have hinj : Set.InjOn (fun i => R.Lower + BitVec.ofNat w i) (Set.Iio R.size) := by
    intro i hi j hj hij
    have hsize := R.size_le
    rw [Set.mem_Iio] at hi hj
    have hword : BitVec.ofNat w i = BitVec.ofNat w j := (BitVec.add_right_inj _).mp hij
    have hnat := congrArg BitVec.toNat hword
    rwa [BitVec.toNat_ofNat, BitVec.toNat_ofNat, Nat.mod_eq_of_lt (by omega),
      Nat.mod_eq_of_lt (by omega)] at hnat
  rw [himage, hinj.ncard_image, Set.ncard_eq_toFinset_card']
  simp

/-! ## The members say which range it is -/

/-- Where a proper range starts. -/
theorem lower_iff (hR : R.Lower ≠ R.Upper) : x ∈ R ∧ x - 1 ∉ R ↔ x = R.Lower := by
  have h1 := toNat_one R.pos
  have hx := x.isLt
  have hL := R.Lower.isLt
  have hU := R.Upper.isLt
  have hsub := toNat_sub_cases x 1
  rw [Ne, eq_iff] at hR
  rw [mem_iff, mem_iff, eq_iff]
  omega

theorem upper_iff (hR : R.Lower ≠ R.Upper) : x ∉ R ∧ x - 1 ∈ R ↔ x = R.Upper := by
  have h1 := toNat_one R.pos
  have hx := x.isLt
  have hL := R.Lower.isLt
  have hU := R.Upper.isLt
  have hsub := toNat_sub_cases x 1
  rw [Ne, eq_iff] at hR
  rw [mem_iff, mem_iff, eq_iff]
  omega

theorem all_or_none (hR : R.Lower = R.Upper) : (∀ x, x ∈ R) ∨ ∀ x, x ∉ R := by
  rw [← isFullSet_iff_forall, ← isEmptySet_iff_forall, isFullSet_iff, isEmptySet_iff]
  rw [eq_iff] at hR
  omega

/-- Two ranges with the same members have the same bounds. -/
theorem eq_of_mem_iff (h : ∀ x, x ∈ A ↔ x ∈ B) : A = B := by
  have hends : A.Lower = B.Lower ∧ A.Upper = B.Upper := by
    by_cases hA : A.Lower = A.Upper
    · have hB : B.Lower = B.Upper := by
        by_contra hB
        obtain ⟨hin, hout⟩ := (lower_iff hB).mpr rfl
        rw [← h] at hin hout
        rcases all_or_none hA with hall | hnone
        · exact hout (hall _)
        · exact hnone _ hin
      have hAB := h 0
      have hBA := B.bounds_toNat
      have hAA := A.bounds_toNat
      rw [eq_iff] at hA hB
      rw [mem_iff, mem_iff] at hAB
      rw [eq_iff, eq_iff]
      omega
    · have hB : B.Lower ≠ B.Upper := by
        intro hB
        obtain ⟨hin, hout⟩ := (lower_iff hA).mpr rfl
        rw [h] at hin hout
        rcases all_or_none hB with hall | hnone
        · exact hout (hall _)
        · exact hnone _ hin
      have hl := (lower_iff hB).mpr rfl
      have hu := (upper_iff hB).mpr rfl
      rw [← h, ← h, lower_iff hA] at hl
      rw [← h, ← h, upper_iff hA] at hu
      exact ⟨hl.symm, hu.symm⟩
  cases A
  cases B
  obtain ⟨rfl, rfl⟩ := hends
  rfl

theorem mem_of_lt (h : R.Lower.toNat < R.Upper.toNat) :
    x ∈ R ↔ R.Lower.toNat ≤ x.toNat ∧ x.toNat < R.Upper.toNat := by
  rw [mem_iff]
  omega

theorem mem_of_gt (h : R.Upper.toNat < R.Lower.toNat) :
    x ∈ R ↔ R.Lower.toNat ≤ x.toNat ∨ x.toNat < R.Upper.toNat := by
  rw [mem_iff]
  omega

/-- Both ranges go upwards. -/
theorem subset_flat (hR : R.Lower.toNat < R.Upper.toNat) (hO : O.Lower.toNat < O.Upper.toNat) :
    R.Lower.toNat ≤ O.Lower.toNat ∧ O.Upper.toNat ≤ R.Upper.toNat ↔ ∀ x ∈ O, x ∈ R := by
  simp only [mem_of_lt hR, mem_of_lt hO]
  constructor
  · intro h x hx
    omega
  · intro h
    have h1 := toNat_one R.pos
    have hsub := toNat_sub_cases O.Upper 1
    have hlow := h O.Lower
    have hhigh := h (O.Upper - 1)
    omega

/-- The greater one is wrapped. -/
theorem subset_wrapped_flat (hR : R.Upper.toNat < R.Lower.toNat)
    (hO : O.Lower.toNat < O.Upper.toNat) :
    O.Upper.toNat ≤ R.Upper.toNat ∨ R.Lower.toNat ≤ O.Lower.toNat ↔ ∀ x ∈ O, x ∈ R := by
  simp only [mem_of_gt hR, mem_of_lt hO]
  constructor
  · intro h x hx
    omega
  · intro h
    have hlow := h O.Lower
    have hgap := h R.Upper
    omega

theorem subset_wrapped (hR : R.Upper.toNat < R.Lower.toNat) (hO : O.Upper.toNat < O.Lower.toNat) :
    O.Upper.toNat ≤ R.Upper.toNat ∧ R.Lower.toNat ≤ O.Lower.toNat ↔ ∀ x ∈ O, x ∈ R := by
  simp only [mem_of_gt hR, mem_of_gt hO]
  constructor
  · intro h x hx
    omega
  · intro h
    have hlow := h O.Lower
    have hgap := h R.Upper
    omega

/-- The greatest value of the width is in a wrapped range and in no other one. -/
theorem not_subset_flat_wrapped (hR : R.Lower.toNat < R.Upper.toNat)
    (hO : O.Upper.toNat < O.Lower.toNat) : ¬∀ x ∈ O, x ∈ R := by
  simp only [mem_of_lt hR, mem_of_gt hO]
  intro h
  have htop := h (BitVec.allOnes w)
  have hRU := R.Upper.isLt
  have hOL := O.Lower.isLt
  rw [BitVec.toNat_allOnes] at htop
  omega

theorem containsRange_iff : R.containsRange O = true ↔ ∀ x ∈ O, x ∈ R := by
  unfold containsRange
  by_cases htrue : (R.isFullSet || O.isEmptySet) = true
  · rw [if_pos htrue]
    rw [Bool.or_eq_true, isFullSet_iff_forall, isEmptySet_iff_forall] at htrue
    exact iff_of_true rfl fun x hx => htrue.elim (fun h => h x) fun h => absurd hx (h x)
  rw [if_neg htrue]
  rw [Bool.or_eq_true, not_or, isFullSet_iff_forall, isEmptySet_iff_forall] at htrue
  by_cases hfalse : (R.isEmptySet || O.isFullSet) = true
  · rw [if_pos hfalse]
    rw [Bool.or_eq_true, isEmptySet_iff_forall, isFullSet_iff_forall] at hfalse
    refine iff_of_false Bool.false_ne_true fun h => ?_
    rcases hfalse with hnone | hall
    · exact htrue.2 fun x hx => hnone x (h x hx)
    · exact htrue.1 fun x => h x (hall x)
  rw [if_neg hfalse]
  rw [Bool.or_eq_true, not_or, isEmptySet_iff_forall, isFullSet_iff_forall] at hfalse
  have hR : R.Lower ≠ R.Upper := fun h => (all_or_none h).elim htrue.1 hfalse.1
  have hO : O.Lower ≠ O.Upper := fun h => (all_or_none h).elim hfalse.2 htrue.2
  rw [Ne, eq_iff] at hR hO
  split_ifs with hRflat hOwrapped hOflat
  · rw [isUpperWrapped_eq_false_iff] at hRflat
    rw [isUpperWrapped_iff] at hOwrapped
    exact iff_of_false id
      (not_subset_flat_wrapped (lt_of_le_of_ne hRflat hR) hOwrapped)
  · rw [isUpperWrapped_eq_false_iff] at hRflat
    rw [isUpperWrapped_iff, not_lt] at hOwrapped
    rw [Bool.and_eq_true, decide_eq_true_eq, decide_eq_true_eq]
    exact subset_flat (lt_of_le_of_ne hRflat hR) (lt_of_le_of_ne hOwrapped hO)
  · rw [isUpperWrapped_eq_false_iff, not_le] at hRflat
    rw [isUpperWrapped_eq_false_iff] at hOflat
    rw [Bool.or_eq_true, decide_eq_true_eq, decide_eq_true_eq]
    exact subset_wrapped_flat hRflat (lt_of_le_of_ne hOflat hO)
  · rw [isUpperWrapped_eq_false_iff, not_le] at hRflat hOflat
    rw [Bool.and_eq_true, decide_eq_true_eq, decide_eq_true_eq]
    exact subset_wrapped hRflat hOflat

/-! ## The least and the greatest member -/

theorem nonempty_of_mem (h : x ∈ R) : R.isEmptySet = false := by
  rw [← Bool.not_eq_true, isEmptySet_iff_forall]
  exact fun he => he x h

theorem getUnsignedMax_mem (h : x ∈ R) : R.getUnsignedMax ∈ R := by
  have hM := two_le R.pos
  have hL := R.Lower.isLt
  have hU := R.Upper.isLt
  rw [mem_iff] at h ⊢
  unfold getUnsignedMax
  split_ifs with hc
  · rw [Bool.or_eq_true, isFullSet_iff, isUpperWrapped_iff] at hc
    rw [BitVec.toNat_allOnes]
    omega
  · have h1 := toNat_one R.pos
    have hsub := toNat_sub_cases R.Upper 1
    rw [Bool.or_eq_true, isFullSet_iff, isUpperWrapped_iff] at hc
    omega

theorem le_getUnsignedMax (h : x ∈ R) : x.toNat ≤ R.getUnsignedMax.toNat := by
  have hx := x.isLt
  rw [mem_iff] at h
  unfold getUnsignedMax
  split_ifs with hc
  · rw [BitVec.toNat_allOnes]
    omega
  · have h1 := toNat_one R.pos
    have hsub := toNat_sub_cases R.Upper 1
    rw [Bool.or_eq_true, isFullSet_iff, isUpperWrapped_iff] at hc
    omega

theorem getUnsignedMin_mem (h : x ∈ R) : R.getUnsignedMin ∈ R := by
  have hB := R.bounds_toNat
  rw [mem_iff] at h ⊢
  unfold getUnsignedMin
  split_ifs with hc
  · rw [Bool.or_eq_true, isFullSet_iff, isWrappedSet_iff] at hc
    rw [toNat_zero]
    omega
  · rw [Bool.or_eq_true, isFullSet_iff, isWrappedSet_iff] at hc
    omega

theorem getUnsignedMin_le (h : x ∈ R) : R.getUnsignedMin.toNat ≤ x.toNat := by
  have hB := R.bounds_toNat
  rw [mem_iff] at h
  unfold getUnsignedMin
  split_ifs with hc
  · rw [toNat_zero]
    omega
  · rw [Bool.or_eq_true, isFullSet_iff, isWrappedSet_iff] at hc
    omega

theorem getSignedMax_mem (h : x ∈ R) : R.getSignedMax ∈ R := by
  have h2 := two_pow_eq R.pos
  have hL := R.Lower.isLt
  have hU := R.Upper.isLt
  have hLi := toInt_cases R.pos R.Lower
  have hUi := toInt_cases R.pos R.Upper
  rw [mem_iff] at h ⊢
  unfold getSignedMax
  split_ifs with hc
  · rw [Bool.or_eq_true, isFullSet_iff, isUpperSignWrapped_iff] at hc
    rw [BitVec.toNat_intMax]
    omega
  · have h1 := toNat_one R.pos
    have hsub := toNat_sub_cases R.Upper 1
    rw [Bool.or_eq_true, isFullSet_iff, isUpperSignWrapped_iff] at hc
    omega

theorem le_getSignedMax (h : x ∈ R) : x.toInt ≤ R.getSignedMax.toInt := by
  have h2 := two_pow_eq R.pos
  have hx := x.isLt
  have hxi := toInt_cases R.pos x
  have hL := R.Lower.isLt
  have hU := R.Upper.isLt
  have hLi := toInt_cases R.pos R.Lower
  have hUi := toInt_cases R.pos R.Upper
  have hmi := toInt_cases R.pos R.getSignedMax
  rw [mem_iff] at h
  unfold getSignedMax at hmi ⊢
  split_ifs at hmi ⊢ with hc
  · have hmax : (BitVec.intMax w).toNat = _ := BitVec.toNat_intMax
    omega
  · have h1 := toNat_one R.pos
    have hsub := toNat_sub_cases R.Upper 1
    rw [Bool.or_eq_true, isFullSet_iff, isUpperSignWrapped_iff] at hc
    omega

theorem getSignedMin_mem (h : x ∈ R) : R.getSignedMin ∈ R := by
  have h2 := two_pow_eq R.pos
  have hB := R.bounds_toNat
  have hLi := toInt_cases R.pos R.Lower
  have hUi := toInt_cases R.pos R.Upper
  rw [mem_iff] at h ⊢
  unfold getSignedMin
  split_ifs with hc
  · rw [Bool.or_eq_true, isFullSet_iff, isSignWrappedSet_iff] at hc
    rw [BitVec.toNat_intMin_of_pos R.pos]
    omega
  · rw [Bool.or_eq_true, isFullSet_iff, isSignWrappedSet_iff] at hc
    omega

theorem getSignedMin_le (h : x ∈ R) : R.getSignedMin.toInt ≤ x.toInt := by
  have h2 := two_pow_eq R.pos
  have hB := R.bounds_toNat
  have hx := x.isLt
  have hxi := toInt_cases R.pos x
  have hL := R.Lower.isLt
  have hU := R.Upper.isLt
  have hLi := toInt_cases R.pos R.Lower
  have hUi := toInt_cases R.pos R.Upper
  rw [mem_iff] at h
  unfold getSignedMin
  split_ifs with hc
  · have hmi := toInt_cases R.pos (BitVec.intMin w)
    rw [BitVec.toNat_intMin_of_pos R.pos] at hmi
    omega
  · rw [Bool.or_eq_true, isFullSet_iff, isSignWrappedSet_iff] at hc
    omega

end ConstantRange

end RvLlvm.IR
