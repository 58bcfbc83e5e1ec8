import RvLlvm.KnownBits.Basic

/-!
# Addition and subtraction of known bits

Model of `computeForAddCarry` and `computeForAddSub` (`llvm/lib/Support/KnownBits.cpp:21-86`). An
assertion that fails is `none`.

* `bits_of_sum`: what is known of a bit of the sum, by the least and the largest carry into it.
* `sound_of_bits`, `optimal_of_bits`: the known bits are right, and the others take both values.
* `addSub`: both functions.
-/

namespace RvLlvm.KnownBits

open BitVec (carry)

variable {W : Nat}

/-! ## The functions -/

/-- A flag as it is added to a number. -/
def carryBit (c : Bool) : BitVec W := (BitVec.ofBool c).setWidth W

/-- The variable `Known`: the bits where both operands and the carry are known. -/
def knownMask (LHS RHS : KnownBits W) (PossibleSumZero PossibleSumOne : BitVec W) : BitVec W :=
  let CarryKnownZero := ~~~(PossibleSumZero ^^^ LHS.Zero ^^^ RHS.Zero)
  let CarryKnownOne := PossibleSumOne ^^^ LHS.One ^^^ RHS.One
  let LHSKnownUnion := LHS.Zero ||| LHS.One
  let RHSKnownUnion := RHS.Zero ||| RHS.One
  let CarryKnownUnion := CarryKnownZero ||| CarryKnownOne
  LHSKnownUnion &&& RHSKnownUnion &&& CarryKnownUnion

/-- The `static` function. -/
def staticComputeForAddCarry (LHS RHS : KnownBits W) (CarryZero CarryOne : Bool) :
    Option (KnownBits W) :=
  if (CarryZero && CarryOne) = true then none
  else
    let PossibleSumZero := LHS.getMaxValue + RHS.getMaxValue + carryBit !CarryZero
    let PossibleSumOne := LHS.getMinValue + RHS.getMinValue + carryBit CarryOne
    let Known := knownMask LHS RHS PossibleSumZero PossibleSumOne
    if PossibleSumZero &&& Known ≠ PossibleSumOne &&& Known then none
    else some ⟨~~~PossibleSumZero &&& Known, PossibleSumOne &&& Known⟩

def computeForAddCarry (LHS RHS : KnownBits W) (Carry : KnownBits 1) : Option (KnownBits W) :=
  staticComputeForAddCarry LHS RHS (decide (Carry.Zero ≠ 0)) (decide (Carry.One ≠ 0))

/-- The step for the sign bit under `NSW`. -/
def solveSign (NSW : Bool) (LHS RHS KnownOut : KnownBits W) : KnownBits W :=
  if !KnownOut.isNegative && !KnownOut.isNonNegative then
    if NSW then
      if LHS.isNonNegative && RHS.isNonNegative then KnownOut.makeNonNegative
      else if LHS.isNegative && RHS.isNegative then KnownOut.makeNegative
      else KnownOut
    else KnownOut
  else KnownOut

def computeForAddSub (Add NSW : Bool) (LHS RHS : KnownBits W) : Option (KnownBits W) :=
  if Add then (staticComputeForAddCarry LHS RHS true false).map (solveSign NSW LHS RHS)
  else (staticComputeForAddCarry LHS RHS.swap false true).map (solveSign NSW LHS RHS.swap)

/-! ## Carries -/

section Carry

variable {x x' y y' : BitVec W} {c c' : Bool} {i : Nat}

theorem atLeastTwo_mono : ∀ {a a' b b' c c' : Bool}, (a = true → a' = true) →
    (b = true → b' = true) → (c = true → c' = true) →
    Bool.atLeastTwo a b c = true → Bool.atLeastTwo a' b' c' = true := by
  decide

/-- More bits carry more. -/
theorem carry_mono (hx : ∀ j, x.getLsbD j = true → x'.getLsbD j = true)
    (hy : ∀ j, y.getLsbD j = true → y'.getLsbD j = true) (hc : c = true → c' = true) :
    carry i x y c = true → carry i x' y' c' = true := by
  induction i with
  | zero => simpa only [BitVec.carry_zero] using hc
  | succ i ih =>
    rw [BitVec.carry_succ, BitVec.carry_succ]
    exact atLeastTwo_mono (hx i) (hy i) ih

/-- Only the lower bits carry. -/
theorem carry_congr (hx : ∀ j < i, x.getLsbD j = x'.getLsbD j)
    (hy : ∀ j < i, y.getLsbD j = y'.getLsbD j) : carry i x y c = carry i x' y' c := by
  induction i with
  | zero => rw [BitVec.carry_zero, BitVec.carry_zero]
  | succ i ih =>
    rw [BitVec.carry_succ, BitVec.carry_succ, hx i (Nat.lt_succ_self i), hy i (Nat.lt_succ_self i),
      ih (fun j hj => hx j (Nat.lt_succ_of_lt hj)) fun j hj => hy j (Nat.lt_succ_of_lt hj)]

theorem getLsbD_sum (hi : i < W) : (x + y + carryBit c).getLsbD i =
    (x.getLsbD i ^^ (y.getLsbD i ^^ carry i x y c)) :=
  BitVec.getLsbD_add_add_bool hi x y c

theorem getLsbD_or_twoPow (hi : i < W) (j : Nat) :
    (x ||| BitVec.twoPow W i).getLsbD j = (x.getLsbD j || decide (j = i)) := by
  rw [BitVec.getLsbD_or, BitVec.getLsbD_twoPow, decide_eq_true hi, Bool.true_and]
  simp only [eq_comm]

/-- A bit more in the left operand turns the bit of the sum. -/
theorem getLsbD_sum_left (hi : i < W) (hx : x.getLsbD i = false) :
    ((x ||| BitVec.twoPow W i) + y + carryBit c).getLsbD i = !(x + y + carryBit c).getLsbD i := by
  have hcarry : carry i (x ||| BitVec.twoPow W i) y c = carry i x y c :=
    carry_congr (fun j hj => by
      rw [getLsbD_or_twoPow hi, decide_eq_false (Nat.ne_of_lt hj), Bool.or_false]) fun _ _ => rfl
  rw [getLsbD_sum hi, getLsbD_sum hi, hcarry, getLsbD_or_twoPow hi, hx, decide_eq_true rfl,
    Bool.false_or, Bool.true_xor, Bool.false_xor]

/-- A bit more in the right operand. -/
theorem getLsbD_sum_right (hi : i < W) (hy : y.getLsbD i = false) :
    (x + (y ||| BitVec.twoPow W i) + carryBit c).getLsbD i =
      !(x + y + carryBit c).getLsbD i := by
  rw [BitVec.add_comm x, BitVec.add_comm x]
  exact getLsbD_sum_left hi hy

end Carry

/-! ## The bits of the sum -/

/-- The carries that the flags allow. -/
def Allowed (CarryZero CarryOne c : Bool) : Prop :=
  (CarryZero = true → c = false) ∧ (CarryOne = true → c = true)

/-- Whether the bit `i` of the sum is known: its bits of the operands and the carry into it are. -/
def sumKnown (LHS RHS : KnownBits W) (CarryZero CarryOne : Bool) (i : Nat) : Bool :=
  (LHS.Zero.getLsbD i || LHS.One.getLsbD i) && (RHS.Zero.getLsbD i || RHS.One.getLsbD i) &&
    (!carry i LHS.getMaxValue RHS.getMaxValue (!CarryZero) ||
      carry i LHS.getMinValue RHS.getMinValue CarryOne)

/-- `PossibleSumOne`. -/
def minSum (LHS RHS : KnownBits W) (CarryOne : Bool) : BitVec W :=
  LHS.getMinValue + RHS.getMinValue + carryBit CarryOne

section Bits

variable {LHS RHS k : KnownBits W} {CarryZero CarryOne c : Bool} {x y : BitVec W} {i : Nat}

theorem allowed_one (hc : ¬(CarryZero && CarryOne) = true) :
    Allowed CarryZero CarryOne CarryOne := by
  revert hc
  unfold Allowed
  decide +revert

theorem allowed_not_zero (hc : ¬(CarryZero && CarryOne) = true) :
    Allowed CarryZero CarryOne !CarryZero := by
  revert hc
  unfold Allowed
  decide +revert

/-- A known bit is the same in all members. -/
theorem eq_one_of_known (hx : x ∈ k) (h : (k.Zero.getLsbD i || k.One.getLsbD i) = true) :
    x.getLsbD i = k.One.getLsbD i := by
  cases ho : k.One.getLsbD i with
  | true => exact (mem_iff.mp hx i).2 ho
  | false =>
    rw [ho, Bool.or_false] at h
    exact (mem_iff.mp hx i).1 h

theorem least_carry (hx : x ∈ LHS) (hy : y ∈ RHS) (hc : Allowed CarryZero CarryOne c) :
    carry i LHS.getMinValue RHS.getMinValue CarryOne = true → carry i x y c = true :=
  carry_mono (fun _ => min_subset hx) (fun _ => min_subset hy) hc.2

theorem largest_carry (hx : x ∈ LHS) (hy : y ∈ RHS) (hc : Allowed CarryZero CarryOne c) :
    carry i x y c = true → carry i LHS.getMaxValue RHS.getMaxValue (!CarryZero) = true :=
  carry_mono (fun _ => subset_max hx) (fun _ => subset_max hy) fun h => by
    rw [Bool.not_eq_true', ← Bool.not_eq_true]
    exact fun hz => absurd (hc.1 hz) (by rw [h]; decide)

theorem eq_of_between : ∀ {a b c : Bool}, (a = true → b = true) → (b = true → c = true) →
    (!c || a) = true → b = a := by
  decide

/-- **A known bit of the sum** is that of the least sum. -/
theorem sum_eq_of_known (hi : i < W) (hx : x ∈ LHS) (hy : y ∈ RHS)
    (hc : Allowed CarryZero CarryOne c) (h : sumKnown LHS RHS CarryZero CarryOne i = true) :
    (x + y + carryBit c).getLsbD i = (minSum LHS RHS CarryOne).getLsbD i := by
  rw [sumKnown, Bool.and_eq_true, Bool.and_eq_true] at h
  obtain ⟨⟨hleft, hright⟩, hcarry⟩ := h
  have hsame : carry i x y c = carry i LHS.getMinValue RHS.getMinValue CarryOne :=
    eq_of_between (least_carry hx hy hc) (largest_carry hx hy hc) hcarry
  rw [minSum, getLsbD_sum hi, getLsbD_sum hi, hsame, eq_one_of_known hx hleft,
    eq_one_of_known hy hright]
  rfl

/-- The mask `Known`, bit by bit. -/
theorem known_bit : ∀ {zl ol zr oo cmax cmin : Bool},
    ((zl || ol) && (zr || oo) &&
      (!((!zl ^^ (!zr ^^ cmax)) ^^ zl ^^ zr) || ((ol ^^ (oo ^^ cmin)) ^^ ol ^^ oo))) =
      ((zl || ol) && (zr || oo) && (!cmax || cmin)) := by
  decide

theorem getLsbD_knownMask (hi : i < W) :
    (knownMask LHS RHS (LHS.getMaxValue + RHS.getMaxValue + carryBit !CarryZero)
      (minSum LHS RHS CarryOne)).getLsbD i = sumKnown LHS RHS CarryZero CarryOne i := by
  simp only [knownMask, BitVec.getLsbD_and, BitVec.getLsbD_or, BitVec.getLsbD_not,
    BitVec.getLsbD_xor, decide_eq_true hi, Bool.true_and]
  rw [getLsbD_sum hi, getLsbD_max hi, getLsbD_max hi, minSum, getLsbD_sum hi]
  exact known_bit

/-- What is returned: the known bits of the least sum. -/
def Returned (LHS RHS : KnownBits W) (CarryZero CarryOne : Bool) (k : KnownBits W) : Prop :=
  ∀ i < W,
    (k.Zero.getLsbD i = (sumKnown LHS RHS CarryZero CarryOne i &&
      !(minSum LHS RHS CarryOne).getLsbD i)) ∧
    k.One.getLsbD i = (sumKnown LHS RHS CarryZero CarryOne i &&
      (minSum LHS RHS CarryOne).getLsbD i)

/-- **The assertions hold** without conflicts, and the least sum is returned where it is known. -/
theorem staticComputeForAddCarry_spec (hL : ¬LHS.hasConflict) (hR : ¬RHS.hasConflict)
    (hc : ¬(CarryZero && CarryOne) = true) :
    ∃ k, staticComputeForAddCarry LHS RHS CarryZero CarryOne = some k ∧
      Returned LHS RHS CarryZero CarryOne k := by
  have hsum : ∀ i < W, sumKnown LHS RHS CarryZero CarryOne i = true →
      (LHS.getMaxValue + RHS.getMaxValue + carryBit !CarryZero).getLsbD i =
        (minSum LHS RHS CarryOne).getLsbD i := fun i hi =>
    sum_eq_of_known hi (max_mem hL) (max_mem hR) (allowed_not_zero hc)
  unfold staticComputeForAddCarry
  rw [if_neg hc, ← minSum]
  simp only
  rw [if_neg]
  · refine ⟨_, rfl, fun i hi => ⟨?_, ?_⟩⟩
    · rw [BitVec.getLsbD_and, getLsbD_knownMask hi, BitVec.getLsbD_not, decide_eq_true hi,
        Bool.true_and]
      cases hk : sumKnown LHS RHS CarryZero CarryOne i with
      | false => rw [Bool.and_false, Bool.false_and]
      | true => rw [hsum i hi hk, Bool.and_true, Bool.true_and]
    · rw [BitVec.getLsbD_and, getLsbD_knownMask hi, Bool.and_comm]
  · rw [not_not]
    apply BitVec.eq_of_getLsbD_eq
    intro i hi
    rw [BitVec.getLsbD_and, BitVec.getLsbD_and, getLsbD_knownMask hi]
    cases hk : sumKnown LHS RHS CarryZero CarryOne i with
    | false => rw [Bool.and_false, Bool.and_false]
    | true => rw [hsum i hi hk]

/-- **Every sum** of members is a member of what the function returns. -/
theorem Returned.sound (hk : Returned LHS RHS CarryZero CarryOne k) (hx : x ∈ LHS)
    (hy : y ∈ RHS) (hc : Allowed CarryZero CarryOne c) :
    x + y + carryBit c ∈ k := by
  refine mem_of_lt fun i hi => ?_
  rw [(hk i hi).1, (hk i hi).2, Bool.and_eq_true, Bool.and_eq_true, Bool.not_eq_true']
  exact ⟨fun h => (sum_eq_of_known hi hx hy hc h.1).trans h.2,
    fun h => (sum_eq_of_known hi hx hy hc h.1).trans h.2⟩

/-- The bit `i` of a sum of members takes the value `b`. -/
def Takes (LHS RHS : KnownBits W) (CarryZero CarryOne : Bool) (i : Nat) (b : Bool) : Prop :=
  ∃ x ∈ LHS, ∃ y ∈ RHS, ∃ c, Allowed CarryZero CarryOne c ∧ (x + y + carryBit c).getLsbD i = b

theorem takes_both {b : Bool} (h : Takes LHS RHS CarryZero CarryOne i b)
    (h' : Takes LHS RHS CarryZero CarryOne i !b) (b' : Bool) :
    Takes LHS RHS CarryZero CarryOne i b' := by
  cases b <;> cases b' <;> assumption

/-- **A bit that is not known** takes both values. -/
theorem takes_of_not_known (hi : i < W) (hL : ¬LHS.hasConflict) (hR : ¬RHS.hasConflict)
    (hc : ¬(CarryZero && CarryOne) = true) (h : sumKnown LHS RHS CarryZero CarryOne i = false)
    (b : Bool) : Takes LHS RHS CarryZero CarryOne i b := by
  have hleast : Takes LHS RHS CarryZero CarryOne i ((minSum LHS RHS CarryOne).getLsbD i) :=
    ⟨_, min_mem hL, _, min_mem hR, _, allowed_one hc, rfl⟩
  refine takes_both hleast ?_ b
  by_cases hleft : (LHS.Zero.getLsbD i || LHS.One.getLsbD i) = true
  swap
  · -- the left operand's bit is free
    rw [Bool.not_eq_true, Bool.or_eq_false_iff] at hleft
    exact ⟨_, set_mem (min_mem hL) hleft.1, _, min_mem hR, _, allowed_one hc,
      getLsbD_sum_left hi hleft.2⟩
  by_cases hright : (RHS.Zero.getLsbD i || RHS.One.getLsbD i) = true
  swap
  · rw [Bool.not_eq_true, Bool.or_eq_false_iff] at hright
    exact ⟨_, min_mem hL, _, set_mem (min_mem hR) hright.1, _, allowed_one hc,
      getLsbD_sum_right hi hright.2⟩
  -- the carry is free: the largest sum
  refine ⟨_, max_mem hL, _, max_mem hR, _, allowed_not_zero hc, ?_⟩
  rw [sumKnown, hleft, hright, Bool.true_and, Bool.true_and, Bool.or_eq_false_iff,
    Bool.not_eq_false'] at h
  rw [minSum, getLsbD_sum hi, getLsbD_sum hi, h.1, h.2, eq_one_of_known (max_mem hL) hleft,
    eq_one_of_known (max_mem hR) hright]
  simp [getMinValue]

/-- A bit without knowledge in the result. -/
def Unknown (k : KnownBits W) (i : Nat) : Prop :=
  k.Zero.getLsbD i = false ∧ k.One.getLsbD i = false

theorem Returned.optimal (hk : Returned LHS RHS CarryZero CarryOne k) (hL : ¬LHS.hasConflict)
    (hR : ¬RHS.hasConflict) (hc : ¬(CarryZero && CarryOne) = true) (hi : i < W)
    (h : k.Unknown i) (b : Bool) : Takes LHS RHS CarryZero CarryOne i b := by
  refine takes_of_not_known hi hL hR hc ?_ b
  obtain ⟨hz, ho⟩ := h
  rw [(hk i hi).1] at hz
  rw [(hk i hi).2] at ho
  cases hs : sumKnown LHS RHS CarryZero CarryOne i with
  | false => rfl
  | true =>
    rw [hs, Bool.true_and] at hz ho
    rw [ho] at hz
    exact absurd hz (by decide)

end Bits

/-! ## The carry of one bit -/

section OneBit

variable {Carry : KnownBits 1} {c : BitVec 1}

theorem setWidth_eq_carryBit (c : BitVec 1) : (c.setWidth W) = carryBit (c.getLsbD 0) := by
  have hbit : ∀ c : BitVec 1, c = BitVec.ofBool (c.getLsbD 0) := by decide
  rw [carryBit, ← hbit c]

theorem allowed_iff_mem : Allowed (decide (Carry.Zero ≠ 0)) (decide (Carry.One ≠ 0))
    (c.getLsbD 0) ↔ c ∈ Carry := by
  have hall : ∀ z o c : BitVec 1, (decide (z ≠ 0) = true → c.getLsbD 0 = false) ∧
      (decide (o ≠ 0) = true → c.getLsbD 0 = true) ↔ c &&& z = 0 ∧ c &&& o = o := by decide
  exact hall Carry.Zero Carry.One c

theorem not_both_of_not_hasConflict (h : ¬Carry.hasConflict) :
    ¬(decide (Carry.Zero ≠ 0) && decide (Carry.One ≠ 0)) = true := by
  have hall : ∀ z o : BitVec 1, ¬z &&& o ≠ 0 → ¬(decide (z ≠ 0) && decide (o ≠ 0)) = true := by
    decide
  exact hall Carry.Zero Carry.One h

theorem getLsbD_ofBool (c : Bool) : (BitVec.ofBool c).getLsbD 0 = c := by
  revert c
  decide

end OneBit

/-! ## The sign bit -/

section Sign

variable {LHS RHS k : KnownBits W} {NSW : Bool} {x y z : BitVec W}

theorem solveSign_of_not_nsw : solveSign false LHS RHS k = k := by
  simp [solveSign]

theorem mem_solveSign (h : z ∈ k)
    (hpos : NSW = true → LHS.isNonNegative = true → RHS.isNonNegative = true → z.msb = false)
    (hneg : NSW = true → LHS.isNegative = true → RHS.isNegative = true → z.msb = true) :
    z ∈ solveSign NSW LHS RHS k := by
  unfold solveSign
  split
  · split
    · next hnsw =>
      split
      · next hboth =>
        rw [Bool.and_eq_true] at hboth
        exact mem_makeNonNegative h (hpos hnsw hboth.1 hboth.2)
      · split
        · next hboth =>
          rw [Bool.and_eq_true] at hboth
          exact mem_makeNegative h (hneg hnsw hboth.1 hboth.2)
        · exact h
    · exact h
  · exact h

end Sign

/-! ## Both functions -/

/-- The sum or the difference. -/
def result (Add : Bool) (x y : BitVec W) : BitVec W := if Add then x + y else x - y

/-- The signed sum or difference is out of range. -/
def overflows (Add : Bool) (x y : BitVec W) : Bool :=
  if Add then x.saddOverflow y else x.ssubOverflow y

section Result

variable {LHS RHS : KnownBits W} {x y : BitVec W} {sign : Bool}

theorem msb_add (hno : ¬x.saddOverflow y = true) (hx : x.msb = sign) (hy : y.msb = sign) :
    (x + y).msb = sign := by
  rw [BitVec.msb_eq_toInt] at hx hy ⊢
  rw [BitVec.toInt_add_of_not_saddOverflow hno]
  cases sign with
  | false =>
    rw [decide_eq_false_iff_not] at *
    omega
  | true =>
    rw [decide_eq_true_eq] at *
    omega

theorem msb_sub (hno : ¬x.ssubOverflow y = true) (hx : x.msb = sign) (hy : y.msb = !sign) :
    (x - y).msb = sign := by
  rw [BitVec.msb_eq_toInt] at hx hy ⊢
  rw [BitVec.toInt_sub_of_not_ssubOverflow hno]
  cases sign with
  | false =>
    rw [Bool.not_false, decide_eq_true_eq] at hy
    rw [decide_eq_false_iff_not] at *
    omega
  | true =>
    rw [Bool.not_true, decide_eq_false_iff_not] at hy
    rw [decide_eq_true_eq] at *
    omega

theorem sub_eq_sum (x y : BitVec W) : x - y = x + ~~~y + carryBit true := by
  rw [BitVec.sub_eq_add_neg, BitVec.neg_eq_not_add, ← BitVec.add_assoc]
  congr 1
  apply BitVec.eq_of_toNat_eq
  simp [carryBit]

theorem add_eq_sum (x y : BitVec W) : x + y = x + y + carryBit false := by
  have hzero : (carryBit false : BitVec W) = 0 := by simp [carryBit]
  rw [hzero]
  exact (BitVec.add_zero _).symm

/-- **Addition** with any carry. -/
theorem computeForAddCarry_spec {Carry : KnownBits 1} (hL : ¬LHS.hasConflict)
    (hR : ¬RHS.hasConflict) (hC : ¬Carry.hasConflict) :
    ∃ k, computeForAddCarry LHS RHS Carry = some k ∧
      (∀ x ∈ LHS, ∀ y ∈ RHS, ∀ c ∈ Carry, x + y + c.setWidth W ∈ k) ∧
      ∀ i < W, k.Unknown i → ∀ b,
        ∃ x ∈ LHS, ∃ y ∈ RHS, ∃ c ∈ Carry, (x + y + c.setWidth W).getLsbD i = b := by
  have hc := not_both_of_not_hasConflict hC
  obtain ⟨k, hrun, hk⟩ := staticComputeForAddCarry_spec hL hR hc
  refine ⟨k, hrun, fun x hx y hy c hmem => ?_, fun i hi hun b => ?_⟩
  · rw [setWidth_eq_carryBit]
    exact hk.sound hx hy (allowed_iff_mem.mpr hmem)
  · obtain ⟨x, hx, y, hy, c, hallowed, hbit⟩ := hk.optimal hL hR hc hi hun b
    refine ⟨x, hx, y, hy, BitVec.ofBool c, allowed_iff_mem.mp ?_, ?_⟩
    · rw [getLsbD_ofBool]
      exact hallowed
    · exact hbit

theorem allowed_add {c : Bool} : Allowed true false c ↔ c = false := by
  revert c
  unfold Allowed
  decide

theorem allowed_sub {c : Bool} : Allowed false true c ↔ c = true := by
  revert c
  unfold Allowed
  decide

theorem computeForAdd_spec (NSW : Bool) (hL : ¬LHS.hasConflict) (hR : ¬RHS.hasConflict) :
    ∃ k, computeForAddSub true NSW LHS RHS = some k ∧
      (∀ x ∈ LHS, ∀ y ∈ RHS, (NSW = true → ¬x.saddOverflow y = true) → x + y ∈ k) ∧
      (NSW = false → ∀ i < W, k.Unknown i → ∀ b,
        ∃ x ∈ LHS, ∃ y ∈ RHS, (x + y).getLsbD i = b) := by
  have hc : ¬(true && false) = true := by decide
  obtain ⟨k, hrun, hk⟩ := staticComputeForAddCarry_spec hL hR hc
  refine ⟨solveSign NSW LHS RHS k, ?_, fun x hx y hy hno => ?_, ?_⟩
  · rw [computeForAddSub, if_pos rfl, hrun, Option.map_some]
  · have hsum := hk.sound hx hy (allowed_add.mpr rfl)
    rw [← add_eq_sum] at hsum
    exact mem_solveSign hsum
      (fun hnsw hl hr =>
        msb_add (hno hnsw) (msb_of_isNonNegative hx hl) (msb_of_isNonNegative hy hr))
      fun hnsw hl hr => msb_add (hno hnsw) (msb_of_isNegative hx hl) (msb_of_isNegative hy hr)
  · rintro rfl i hi hun b
    rw [solveSign_of_not_nsw] at hun
    obtain ⟨x, hx, y, hy, c, hallowed, hbit⟩ := hk.optimal hL hR hc hi hun b
    rw [allowed_add.mp hallowed, ← add_eq_sum] at hbit
    exact ⟨x, hx, y, hy, hbit⟩

theorem computeForSub_spec (NSW : Bool) (hL : ¬LHS.hasConflict) (hR : ¬RHS.hasConflict) :
    ∃ k, computeForAddSub false NSW LHS RHS = some k ∧
      (∀ x ∈ LHS, ∀ y ∈ RHS, (NSW = true → ¬x.ssubOverflow y = true) → x - y ∈ k) ∧
      (NSW = false → ∀ i < W, k.Unknown i → ∀ b,
        ∃ x ∈ LHS, ∃ y ∈ RHS, (x - y).getLsbD i = b) := by
  have hc : ¬(false && true) = true := by decide
  obtain ⟨k, hrun, hk⟩ := staticComputeForAddCarry_spec hL (swap_not_hasConflict hR) hc
  refine ⟨solveSign NSW LHS RHS.swap k, ?_, fun x hx y hy hno => ?_, ?_⟩
  · rw [computeForAddSub, if_neg (by decide), hrun, Option.map_some]
  · have hsum := hk.sound hx (swap_mem.mpr hy) (allowed_sub.mpr rfl)
    rw [← sub_eq_sum] at hsum
    -- the masks of the right operand are exchanged: its sign is the other one
    exact mem_solveSign hsum
      (fun hnsw hl hr => msb_sub (hno hnsw) (msb_of_isNonNegative hx hl) (msb_of_isNegative hy hr))
      fun hnsw hl hr => msb_sub (hno hnsw) (msb_of_isNegative hx hl) (msb_of_isNonNegative hy hr)
  · rintro rfl i hi hun b
    rw [solveSign_of_not_nsw] at hun
    obtain ⟨x, hx, y, hy, c, hallowed, hbit⟩ :=
      hk.optimal hL (swap_not_hasConflict hR) hc hi hun b
    refine ⟨x, hx, ~~~y, swap_mem.mp (by rwa [BitVec.not_not]), ?_⟩
    rw [sub_eq_sum, BitVec.not_not, ← allowed_sub.mp hallowed]
    exact hbit

end Result

/-- **Addition and subtraction of known bits are sound and optimal.** -/
theorem addSub {LHS RHS : KnownBits W} (hL : ¬LHS.hasConflict) (hR : ¬RHS.hasConflict) :
    (∀ Carry : KnownBits 1, ¬Carry.hasConflict → ∃ k, computeForAddCarry LHS RHS Carry = some k ∧
      (∀ x ∈ LHS, ∀ y ∈ RHS, ∀ c ∈ Carry, x + y + c.setWidth W ∈ k) ∧
      ∀ i < W, k.Unknown i → ∀ b,
        ∃ x ∈ LHS, ∃ y ∈ RHS, ∃ c ∈ Carry, (x + y + c.setWidth W).getLsbD i = b) ∧
    ∀ Add NSW, ∃ k, computeForAddSub Add NSW LHS RHS = some k ∧
      (∀ x ∈ LHS, ∀ y ∈ RHS, (NSW = true → ¬overflows Add x y = true) → result Add x y ∈ k) ∧
      (NSW = false → ∀ i < W, k.Unknown i → ∀ b,
        ∃ x ∈ LHS, ∃ y ∈ RHS, (result Add x y).getLsbD i = b) := by
  refine ⟨fun _ hC => computeForAddCarry_spec hL hR hC, fun Add NSW => ?_⟩
  cases Add with
  | false => exact computeForSub_spec NSW hL hR
  | true => exact computeForAdd_spec NSW hL hR

/-- An even number of four bits and a number below four. -/
theorem addSub_four : ∃ k, computeForAddSub true false (⟨1, 0⟩ : KnownBits 4) ⟨12, 0⟩ = some k ∧
    ∀ x ∈ (⟨1, 0⟩ : KnownBits 4), ∀ y ∈ (⟨12, 0⟩ : KnownBits 4), x + y ∈ k := by
  have hL : ¬(⟨1, 0⟩ : KnownBits 4).hasConflict := by decide
  have hR : ¬(⟨12, 0⟩ : KnownBits 4).hasConflict := by decide
  obtain ⟨k, hrun, hk, -⟩ := (addSub hL hR).2 true false
  exact ⟨k, hrun, fun x hx y hy => hk x hx y hy fun h => absurd h (by decide)⟩

end RvLlvm.KnownBits
