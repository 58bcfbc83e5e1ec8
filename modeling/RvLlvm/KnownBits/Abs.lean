import RvLlvm.KnownBits.Saturate

/-!
# The absolute value of known bits

Model of `KnownBits::abs` (`llvm/lib/Support/KnownBits.cpp:415-472`), a definition for each of its
special cases.

* `absTmp_mem`, `absHigh_mem`: the cases of a negative number that is not the least one.
* `absUnknownSign_mem`: the trailing bits and the sign where the sign is not known.
* `saturatingAbs`: this function and the saturating ones.
-/

namespace RvLlvm.KnownBits

variable {W : Nat}

/-- The variable `Tmp`: a last free bit of a negative number must be one. -/
def absTmp (IntMinIsPoison : Bool) (k : KnownBits W) : KnownBits W :=
  if IntMinIsPoison && decide (popcount k.Zero + 2 = W) then
    { k with One := k.One ||| BitVec.twoPow W k.countMinTrailingZeros }
  else k

/-- The high zeros of a negative number become ones. -/
def absHigh (IntMinIsPoison : Bool) (Tmp KnownAbs : KnownBits W) : KnownBits W :=
  if IntMinIsPoison && decide (Tmp.countMinPopulation = 1) && decide (Tmp.countMaxPopulation ≠ 1)
  then
    let Tmp := knownZeros (signMask W) Tmp
    { KnownAbs with One := KnownAbs.One ||| getBitsSet W (W - Tmp.countMinLeadingZeros) (W - 1) }
  else KnownAbs

/-- The last branch: the trailing bits and the sign. -/
def absUnknownSign (IntMinIsPoison : Bool) (k : KnownBits W) : KnownBits W :=
  let MaxTZ := k.countMaxTrailingZeros
  let MinTZ := k.countMinTrailingZeros
  let KnownAbs : KnownBits W :=
    ⟨getLowBitsSet W MinTZ, if MaxTZ = MinTZ ∧ MaxTZ < W then BitVec.twoPow W MaxTZ else 0⟩
  if IntMinIsPoison || (decide (k.One ≠ 0) && decide (k.One ≠ BitVec.intMin W)) then
    knownZeros (signMask W) KnownAbs
  else KnownAbs

def abs (IntMinIsPoison : Bool) (k : KnownBits W) : Option (KnownBits W) :=
  if k.isNonNegative then some k
  else if k.isNegative then
    let Tmp := absTmp IntMinIsPoison k
    (computeForAddSub false IntMinIsPoison (makeConstant 0) Tmp).bind fun KnownAbs =>
      check (absHigh IntMinIsPoison Tmp KnownAbs)
  else check (absUnknownSign IntMinIsPoison k)

section Negative

variable {k Tmp KnownAbs : KnownBits W} {x : BitVec W} {IntMinIsPoison : Bool}

/-- A negative number that is not the least has a bit below its sign. -/
theorem exists_low (hx : x.msb = true) (hne : x ≠ BitVec.intMin W) :
    ∃ i, i < W - 1 ∧ x.getLsbD i = true := by
  by_contra hno
  rw [not_exists] at hno
  refine hne (BitVec.eq_of_getLsbD_eq fun i hi => ?_)
  rw [BitVec.msb_eq_getLsbD_last] at hx
  rw [BitVec.getLsbD_intMin]
  rcases Nat.lt_or_ge i (W - 1) with hlt | hge
  · rw [decide_eq_false (by omega), ← Bool.not_eq_true]
    exact fun hbit => hno i ⟨hlt, hbit⟩
  · have hlast : i = W - 1 := by omega
    rw [hlast, hx, decide_eq_true (by omega)]

theorem zero_countMinTrailingZeros (h : k.countMinTrailingZeros < W) :
    k.Zero.getLsbD k.countMinTrailingZeros = false := by
  have hbit := getLsbD_countr_zero (x := ~~~k.Zero) h
  rw [BitVec.getLsbD_not, Bool.and_eq_true, Bool.not_eq_true'] at hbit
  exact hbit.2

/-- Where two bits are not zero, the one below the sign is the trailing one. -/
theorem trailing_of_popcount (hsign : k.Zero.msb = false) (hW : 0 < W)
    (hcount : popcount k.Zero + 2 = W) {i : Nat} (hi : i < W - 1)
    (hfree : k.Zero.getLsbD i = false) : k.countMinTrailingZeros = i := by
  -- the positions that are not known to be zero
  have hcard : ((Finset.range W).filter fun j => ¬k.Zero.getLsbD j = true).card = 2 := by
    have hsum := Finset.card_filter_add_card_filter_not (s := Finset.range W)
      (fun j => k.Zero.getLsbD j = true)
    rw [Finset.card_range] at hsum
    unfold popcount at hcount
    omega
  have hle : k.countMinTrailingZeros ≤ i := by
    by_contra hlt
    have hbit := getLsbD_of_lt_countr_zero (x := ~~~k.Zero) (Nat.not_le.mp hlt)
    rw [BitVec.getLsbD_not, decide_eq_true (by omega), hfree] at hbit
    exact absurd hbit (by decide)
  have htrail := zero_countMinTrailingZeros (hle.trans_lt (show i < W by omega))
  by_contra hne
  have hsub : {k.countMinTrailingZeros, i, W - 1} ⊆
      (Finset.range W).filter fun j => ¬k.Zero.getLsbD j = true := by
    intro j hj
    rw [BitVec.msb_eq_getLsbD_last] at hsign
    simp only [Finset.mem_insert, Finset.mem_singleton] at hj
    rw [Finset.mem_filter, Finset.mem_range, Bool.not_eq_true]
    rcases hj with rfl | rfl | rfl
    · exact ⟨by omega, htrail⟩
    · exact ⟨by omega, hfree⟩
    · exact ⟨by omega, hsign⟩
  have hthree := Finset.card_le_card hsub
  rw [hcard, Finset.card_eq_three.mpr ⟨_, _, _, hne, by omega, by omega, rfl⟩] at hthree
  omega

theorem pos_of_msb (h : x.msb = true) : 0 < W := by
  rcases Nat.eq_zero_or_pos W with rfl | hW
  · rw [BitVec.eq_nil x] at h
    exact absurd h (by decide)
  · exact hW

/-- **The first special case** keeps the negative numbers that are not the least one. -/
theorem absTmp_mem (hx : x ∈ k) (hneg : x.msb = true)
    (hne : IntMinIsPoison = true → x ≠ BitVec.intMin W) : x ∈ absTmp IntMinIsPoison k := by
  unfold absTmp
  split
  · next h =>
    rw [Bool.and_eq_true, decide_eq_true_eq] at h
    obtain ⟨i, hi, hbit⟩ := exists_low hneg (hne h.1)
    have hfree : k.Zero.getLsbD i = false := by
      rw [← Bool.not_eq_true]
      intro hz
      rw [(mem_iff.mp hx i).1 hz] at hbit
      exact absurd hbit (by decide)
    have hsign : k.Zero.msb = false := by
      rw [← Bool.not_eq_true]
      intro hz
      rw [msb_of_isNonNegative hx hz] at hneg
      exact absurd hneg (by decide)
    rw [trailing_of_popcount hsign (pos_of_msb hneg) h.2 hi hfree]
    refine mem_of_lt fun j hj => ⟨(mem_iff.mp hx j).1, fun ho => ?_⟩
    rw [getLsbD_or_twoPow (by omega), Bool.or_eq_true, decide_eq_true_eq] at ho
    rcases ho with ho | rfl
    · exact (mem_iff.mp hx j).2 ho
    · exact hbit
  · exact hx

theorem absTmp_not_hasConflict (h : ¬k.hasConflict) : ¬(absTmp IntMinIsPoison k).hasConflict := by
  unfold absTmp
  split
  · rw [hasConflict, not_not, BitVec.and_comm, and_eq_zero_iff]
    intro i hz
    have hi := BitVec.lt_of_getLsbD hz
    rw [BitVec.getLsbD_or, bit_of_not_hasConflict h hz, Bool.false_or, BitVec.getLsbD_twoPow,
      ← Bool.not_eq_true, Bool.and_eq_true, decide_eq_true_eq, decide_eq_true_eq]
    rintro ⟨hlt, heq⟩
    rw [← heq, zero_countMinTrailingZeros hlt] at hz
    exact absurd hz (by decide)
  · exact h

/-- The bits of a negated number below the sign and from the known zeros on. -/
theorem getLsbD_neg_high (hx : x ∈ Tmp) (hneg : x.msb = true) (hne : x ≠ BitVec.intMin W) {i : Nat}
    (hlow : W - (knownZeros (signMask W) Tmp).countMinLeadingZeros ≤ i) (hi : i < W - 1) :
    (-x).getLsbD i = true := by
  -- the bits from `i` to the sign are zero
  have hzero : ∀ j, i ≤ j → j < W - 1 → x.getLsbD j = false := by
    intro j hij hj
    have hlt := getLsbD_of_lt_two_pow (toNat_max_lt _) (hlow.trans hij)
    rw [getLsbD_max (by omega), Bool.not_eq_false', knownZeros, BitVec.getLsbD_or,
      getLsbD_signMask (by omega), decide_eq_false (by omega), Bool.or_false] at hlt
    exact (mem_iff.mp hx j).1 hlt
  obtain ⟨j, hj, hbit⟩ := exists_low hneg hne
  have hji : j < i := by
    by_contra hge
    rw [hzero j (Nat.not_lt.mp hge) hj] at hbit
    exact absurd hbit (by decide)
  rw [BitVec.getLsbD_neg, hzero i (le_refl i) hi, decide_eq_true (by omega),
    decide_eq_true ⟨j, hji, hbit⟩]
  rfl

/-- **The second special case.** -/
theorem absHigh_mem (hx : x ∈ Tmp) (hneg : x.msb = true)
    (hne : IntMinIsPoison = true → x ≠ BitVec.intMin W) (habs : -x ∈ KnownAbs) :
    -x ∈ absHigh IntMinIsPoison Tmp KnownAbs := by
  unfold absHigh
  split
  · next h =>
    rw [Bool.and_eq_true, Bool.and_eq_true] at h
    refine mem_of_lt fun i hi => ⟨(mem_iff.mp habs i).1, fun ho => ?_⟩
    rw [BitVec.getLsbD_or, getLsbD_getBitsSet hi, Bool.or_eq_true, Bool.and_eq_true,
      decide_eq_true_eq, decide_eq_true_eq] at ho
    rcases ho with ho | ⟨hlow, hhigh⟩
    · exact (mem_iff.mp habs i).2 ho
    · exact getLsbD_neg_high hx hneg (hne h.1.1) hlow hhigh
  · exact habs

/-- The second special case needs a member that is not the least number. -/
theorem max_ne_intMin (hneg : Tmp.getMaxValue.msb = true) (h : Tmp.countMaxPopulation ≠ 1) :
    Tmp.getMaxValue ≠ BitVec.intMin W := by
  intro heq
  have hW := pos_of_msb hneg
  have hfilter : ((Finset.range W).filter fun i => Tmp.Zero.getLsbD i = true) =
      Finset.range (W - 1) := by
    ext i
    rw [Finset.mem_filter, Finset.mem_range, Finset.mem_range]
    constructor
    · rintro ⟨hi, hz⟩
      have hbit := getLsbD_max (k := Tmp) hi
      rw [heq, BitVec.getLsbD_intMin, hz, Bool.not_true, decide_eq_false_iff_not] at hbit
      omega
    · intro hi
      have hbit := getLsbD_max (k := Tmp) (show i < W by omega)
      rw [heq, BitVec.getLsbD_intMin, decide_eq_false (by omega), eq_comm, Bool.not_eq_false'] at hbit
      exact ⟨by omega, hbit⟩
  apply h
  rw [countMaxPopulation, popcount, hfilter, Finset.card_range]
  omega

theorem msb_abs_of_ne (h : x ≠ BitVec.intMin W) : x.abs.msb = false := by
  rw [BitVec.msb_abs, decide_eq_false h, Bool.false_and]

theorem not_overflow_neg (h : x ≠ BitVec.intMin W) : ¬(0 : BitVec W).ssubOverflow x = true := by
  have hzero : (0 : BitVec W).msb = false := BitVec.msb_zero
  rw [BitVec.ssubOverflow_eq, hzero, Bool.not_false, Bool.true_and, Bool.false_and, Bool.false_and,
    Bool.or_false, Bool.and_eq_true]
  rintro ⟨hx, hneg⟩
  have habs : x.abs = -x := by
    rw [BitVec.abs, hx, if_pos rfl]
    rfl
  have hdiff : (0 : BitVec W) - x = -x := BitVec.zero_sub x
  rw [hdiff, ← habs, msb_abs_of_ne h] at hneg
  exact absurd hneg (by decide)

section Conflict

variable {M : BitVec W}

theorem not_hasConflict_orZero (h : ¬k.hasConflict)
    (hM : ∀ i, M.getLsbD i = true → k.One.getLsbD i = false) :
    ¬(KnownBits.mk (k.Zero ||| M) k.One).hasConflict := by
  rw [hasConflict, not_not, BitVec.and_comm, and_eq_zero_iff]
  intro i hz
  rw [BitVec.getLsbD_or, Bool.or_eq_true] at hz
  exact hz.elim (bit_of_not_hasConflict h) (hM i)

theorem not_hasConflict_orOne (h : ¬k.hasConflict)
    (hM : ∀ i, M.getLsbD i = true → k.Zero.getLsbD i = false) :
    ¬(KnownBits.mk k.Zero (k.One ||| M)).hasConflict := by
  have hswap := not_hasConflict_orZero (swap_not_hasConflict h) hM
  exact swap_not_hasConflict hswap

theorem solveSign_not_hasConflict {LHS RHS : KnownBits W} {NSW : Bool} (h : ¬k.hasConflict) :
    ¬(solveSign NSW LHS RHS k).hasConflict := by
  unfold solveSign
  split
  · next hun =>
    rw [Bool.and_eq_true, Bool.not_eq_true', Bool.not_eq_true'] at hun
    have hpos : ¬k.makeNonNegative.hasConflict :=
      not_hasConflict_orZero h fun i hm => (msb_of_signMask hm _).trans hun.1
    have hneg : ¬k.makeNegative.hasConflict :=
      not_hasConflict_orOne h fun i hm => (msb_of_signMask hm _).trans hun.2
    split_ifs <;> assumption
  · exact h

theorem computeForSub_not_hasConflict {LHS RHS : KnownBits W} {NSW : Bool} (hL : ¬LHS.hasConflict)
    (hR : ¬RHS.hasConflict) (hrun : computeForAddSub false NSW LHS RHS = some k) :
    ¬k.hasConflict := by
  have hc : ¬(false && true) = true := by decide
  obtain ⟨k₀, hrun₀, hk₀⟩ := staticComputeForAddCarry_spec hL (swap_not_hasConflict hR) hc
  rw [computeForAddSub, if_neg (by decide), hrun₀, Option.map_some] at hrun
  rw [← Option.some.inj hrun]
  exact solveSign_not_hasConflict (not_hasConflict_of_mem
    (hk₀.sound (min_mem hL) (min_mem (swap_not_hasConflict hR)) (allowed_sub.mpr rfl)))

end Conflict

theorem absTmp_isNegative (h : k.isNegative = true) :
    (absTmp IntMinIsPoison k).isNegative = true := by
  unfold absTmp
  split
  · rw [isNegative] at h ⊢
    rw [BitVec.msb_or, h, Bool.true_or]
  · exact h

/-- **The branch of the negative numbers.** -/
theorem abs_negative (h : ¬k.hasConflict) (hneg : k.isNegative = true) :
    ∃ r, ((computeForAddSub false IntMinIsPoison (makeConstant 0) (absTmp IntMinIsPoison k)).bind
        fun KnownAbs => check (absHigh IntMinIsPoison (absTmp IntMinIsPoison k) KnownAbs)) = some r ∧
      ∀ x ∈ k, (IntMinIsPoison = true → x ≠ BitVec.intMin W) → -x ∈ r := by
  have hzero : ¬(makeConstant (0 : BitVec W)).hasConflict :=
    not_hasConflict_of_mem (mem_makeConstant 0)
  have hTmp : ¬(absTmp IntMinIsPoison k).hasConflict := absTmp_not_hasConflict h
  have hTmpNeg : (absTmp IntMinIsPoison k).isNegative = true := absTmp_isNegative hneg
  obtain ⟨KnownAbs, hrun, hsound, -⟩ := computeForSub_spec IntMinIsPoison hzero hTmp
  have hmem : ∀ x ∈ absTmp IntMinIsPoison k, (IntMinIsPoison = true → x ≠ BitVec.intMin W) →
      -x ∈ absHigh IntMinIsPoison (absTmp IntMinIsPoison k) KnownAbs := by
    intro x hx hne
    have habs := hsound 0 (mem_makeConstant 0) x hx fun hp => not_overflow_neg (hne hp)
    exact absHigh_mem hx (msb_of_isNegative hx hTmpNeg) hne habs
  have hfree : ¬(absHigh IntMinIsPoison (absTmp IntMinIsPoison k) KnownAbs).hasConflict := by
    by_cases hmany : (absTmp IntMinIsPoison k).countMaxPopulation = 1
    · have hsame : absHigh IntMinIsPoison (absTmp IntMinIsPoison k) KnownAbs = KnownAbs := by
        rw [absHigh, if_neg]
        simp [hmany]
      rw [hsame]
      exact computeForSub_not_hasConflict hzero hTmp hrun
    · have hmax := max_mem hTmp
      exact not_hasConflict_of_mem
        (hmem _ hmax fun _ => max_ne_intMin (msb_of_isNegative hmax hTmpNeg) hmany)
  refine ⟨absHigh IntMinIsPoison (absTmp IntMinIsPoison k) KnownAbs, ?_, fun x hx hne => ?_⟩
  · rw [hrun, Option.bind_some, check, if_neg hfree]
  · exact hmem x (absTmp_mem hx (msb_of_isNegative hx hneg) hne) hne

end Negative

section UnknownSign

variable {k : KnownBits W} {x : BitVec W} {i : Nat} {IntMinIsPoison : Bool}

/-- The bits up to the lowest one are those of the absolute value. -/
theorem getLsbD_abs_low (h : ∀ j < i, x.getLsbD j = false) : x.abs.getLsbD i = x.getLsbD i := by
  unfold BitVec.abs
  split
  · have hno : ¬∃ j < i, x.getLsbD j = true := by
      rintro ⟨j, hj, hbit⟩
      rw [h j hj] at hbit
      exact absurd hbit (by decide)
    rw [show x.neg = -x from rfl, BitVec.getLsbD_neg, decide_eq_false hno, Bool.and_false,
      Bool.xor_false]
  · rfl

theorem getLsbD_zero : (0 : BitVec W).getLsbD i = false := BitVec.getLsbD_zero

/-- A known one that is not the sign excludes the least number. -/
theorem ne_intMin_of_one (hx : x ∈ k) (hzero : k.One ≠ 0) (hmin : k.One ≠ BitVec.intMin W) :
    x ≠ BitVec.intMin W := by
  rintro rfl
  have hlast : ∀ i, k.One.getLsbD i = true → i + 1 = W := fun i ho => by
    have hbit := (mem_iff.mp hx i).2 ho
    rwa [BitVec.getLsbD_intMin, decide_eq_true_eq] at hbit
  by_cases hsign : k.One.getLsbD (W - 1) = true
  · refine hmin (BitVec.eq_of_getLsbD_eq fun i hi => ?_)
    rw [BitVec.getLsbD_intMin, Bool.eq_iff_iff, decide_eq_true_eq]
    refine ⟨hlast i, fun heq => ?_⟩
    rwa [show i = W - 1 by omega]
  · refine hzero (BitVec.eq_of_getLsbD_eq fun i hi => ?_)
    rw [getLsbD_zero, ← Bool.not_eq_true]
    intro ho
    have heq := hlast i ho
    exact hsign (by rwa [show W - 1 = i by omega])

theorem absUnknownSign_mem (hx : x ∈ k) (hne : IntMinIsPoison = true → x ≠ BitVec.intMin W) :
    x.abs ∈ absUnknownSign IntMinIsPoison k := by
  have hlow : ∀ j < k.countMinTrailingZeros, x.getLsbD j = false := fun j hj =>
    getLsbD_of_trailingZeros hx hj
  have hbits : x.abs ∈ (⟨getLowBitsSet W k.countMinTrailingZeros,
      if k.countMaxTrailingZeros = k.countMinTrailingZeros ∧ k.countMaxTrailingZeros < W then
        BitVec.twoPow W k.countMaxTrailingZeros else 0⟩ : KnownBits W) := by
    refine mem_of_lt fun i hi => ⟨fun hz => ?_, fun ho => ?_⟩
    · rw [getLsbD_getLowBitsSet hi, decide_eq_true_eq] at hz
      rw [getLsbD_abs_low fun j hj => hlow j (hj.trans hz)]
      exact hlow i hz
    · simp only at ho
      split at ho
      · next hsame =>
        rw [BitVec.getLsbD_twoPow, Bool.and_eq_true, decide_eq_true_eq, decide_eq_true_eq] at ho
        obtain ⟨-, rfl⟩ := ho
        rw [getLsbD_abs_low fun j hj => hlow j (hsame.1 ▸ hj)]
        exact (mem_iff.mp hx _).2 (getLsbD_countr_zero hsame.2)
      · rw [getLsbD_zero] at ho
        exact absurd ho (by decide)
  unfold absUnknownSign
  simp only
  split
  · next hsign =>
    rw [Bool.or_eq_true, Bool.and_eq_true, decide_eq_true_eq, decide_eq_true_eq] at hsign
    have hmsb := msb_abs_of_ne (hsign.elim hne fun h => ne_intMin_of_one hx h.1 h.2)
    exact mem_knownZeros hbits fun i hm => (msb_of_signMask hm _).trans hmsb
  · exact hbits

theorem absUnknownSign_not_hasConflict (h : ¬k.hasConflict) (hneg : ¬k.isNegative = true) :
    ¬(absUnknownSign IntMinIsPoison k).hasConflict := by
  rcases Nat.eq_zero_or_pos W with rfl | hW
  · rw [hasConflict, not_not]
    exact BitVec.eq_nil _
  · refine not_hasConflict_of_mem (absUnknownSign_mem (min_mem h) fun _ heq => hneg ?_)
    rw [isNegative, show k.One = _ from heq, BitVec.msb_intMin]
    exact decide_eq_true hW

end UnknownSign

/-- **The absolute value** of each member. -/
theorem abs_spec {k : KnownBits W} (IntMinIsPoison : Bool) (h : ¬k.hasConflict) :
    ∃ r, abs IntMinIsPoison k = some r ∧
      ∀ x ∈ k, (IntMinIsPoison = true → x ≠ BitVec.intMin W) → x.abs ∈ r := by
  unfold abs
  by_cases hpos : k.isNonNegative = true
  · rw [if_pos hpos]
    refine ⟨k, rfl, fun x hx _ => ?_⟩
    rwa [BitVec.abs, if_neg (by rw [msb_of_isNonNegative hx hpos]; decide)]
  rw [if_neg hpos]
  by_cases hneg : k.isNegative = true
  · rw [if_pos hneg]
    obtain ⟨r, hr, hmem⟩ := abs_negative h hneg
    refine ⟨r, hr, fun x hx hne => ?_⟩
    rw [BitVec.abs, if_pos (msb_of_isNegative hx hneg)]
    exact hmem x hx hne
  · rw [if_neg hneg, check, if_neg (absUnknownSign_not_hasConflict h hneg)]
    exact ⟨_, rfl, fun x hx hne => absUnknownSign_mem hx hne⟩

/-- **Saturating arithmetic and the absolute value are sound.** -/
theorem saturatingAbs (W : Nat) :
    (∀ LHS RHS : KnownBits W, ¬LHS.hasConflict → ¬RHS.hasConflict → ∀ Add Signed,
      ∃ k, computeForSatAddSub Add Signed LHS RHS = some k ∧
        ∀ x ∈ LHS, ∀ y ∈ RHS, satResult Add Signed x y ∈ k) ∧
    ∀ k : KnownBits W, ¬k.hasConflict → ∀ IntMinIsPoison,
      ∃ r, abs IntMinIsPoison k = some r ∧
        ∀ x ∈ k, (IntMinIsPoison = true → x ≠ BitVec.intMin W) → x.abs ∈ r :=
  ⟨fun _ _ hL hR Add Signed => computeForSatAddSub_spec Add Signed hL hR,
    fun _ h IntMinIsPoison => abs_spec IntMinIsPoison h⟩

/-- The numbers from eight to eleven, of four bits. -/
theorem saturatingAbs_eight : ∃ r, abs true (⟨4, 8⟩ : KnownBits 4) = some r ∧
    ∀ x ∈ (⟨4, 8⟩ : KnownBits 4), (true = true → x ≠ BitVec.intMin 4) → x.abs ∈ r :=
  (saturatingAbs 4).2 ⟨4, 8⟩ (by decide) true

end RvLlvm.KnownBits
