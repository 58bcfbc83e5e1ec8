import Mathlib.Logic.Function.Basic
import RvLlvm.APInt.DivideWords
import RvLlvm.Support.WordOrder

/-!
# Quotient and remainder in one call

Model of the four `udivrem` and `sdivrem` of `llvm/lib/Support/APInt.cpp:1764-1932`, whose results
are references that may name the operands. A state gives every variable its value, an operand is a
variable or a temporary (the negated operands of `sdivrem` are temporaries). The variables have the
width of the operands: where `reallocate` changes a width, the variable is no operand. A call that
fails an assertion, divides by zero or overflows has no result.

* `finish_spec`: the steps behind the check for the divisor one.
* `udivrem_right_iff`, `sdivrem_right_iff`: the check for the divisor one lacks a return, so that it
  overwrites operands that are read again.
* `udivremWord_right`, `sdivremWord_right_iff`: the calls with a 64-bit divisor.
-/

namespace RvLlvm.APInt.DivRem

open Function Support.WordOrder

variable {α : Type*} {W : Nat}

/-- What a constant reference names. -/
inductive Operand (α : Type*) (W : Nat)
  | temp (value : BitVec W)
  | var (x : α)
  deriving DecidableEq

def Operand.read (σ : α → BitVec W) : Operand α W → BitVec W
  | temp value => value
  | var x => σ x

section Model

variable [DecidableEq α]

/-- `Quotient = q; Remainder = r`. -/
def assign (Quotient Remainder : α) (q r : BitVec W) (σ : α → BitVec W) : α → BitVec W :=
  update (update σ Quotient q) Remainder r

/-- `udivrem` behind the check for the divisor one. -/
def finish (LHS RHS : Operand α W) (Quotient Remainder : α) (lhsWords rhsWords : Nat)
    (σ : α → BitVec W) : Option (α → BitVec W) :=
  if lhsWords < rhsWords ∨ LHS.read σ < RHS.read σ then
    some (update (update σ Remainder (LHS.read σ)) Quotient 0)
  else if LHS.read σ = RHS.read σ then some (assign Quotient Remainder 1 0 σ)
  else if lhsWords = 1 then
    let lhsValue := word (LHS.read σ) 0
    let rhsValue := word (RHS.read σ) 0
    if rhsValue = 0 then none
    else some (assign Quotient Remainder (BitVec.ofNat W (lhsValue / rhsValue))
      (BitVec.ofNat W (lhsValue % rhsValue)) σ)
  else
    (divide (words (LHS.read σ) lhsWords) (words (RHS.read σ) rhsWords)).map fun r =>
      assign Quotient Remainder (ofWords W r.1) (ofWords W r.2) σ

def udivrem (LHS RHS : Operand α W) (Quotient Remainder : α) (σ : α → BitVec W) :
    Option (α → BitVec W) :=
  if W ≤ 64 then
    if RHS.read σ = 0 then none
    else some (assign Quotient Remainder (LHS.read σ / RHS.read σ) (LHS.read σ % RHS.read σ) σ)
  else
    let lhsWords := getNumWords (getActiveBits (LHS.read σ))
    let rhsBits := getActiveBits (RHS.read σ)
    let rhsWords := getNumWords rhsBits
    if rhsWords = 0 then none
    else if lhsWords = 0 then some (assign Quotient Remainder 0 0 σ)
    -- there is no return behind the two assignments
    else if rhsBits = 1 then
      finish LHS RHS Quotient Remainder lhsWords rhsWords
        (assign Quotient Remainder (LHS.read σ) 0 σ)
    else finish LHS RHS Quotient Remainder lhsWords rhsWords σ

/-- `x.negate()`. -/
def negate (x : α) (σ : α → BitVec W) : α → BitVec W := update σ x (-σ x)

def sdivrem (LHS RHS : Operand α W) (Quotient Remainder : α) (σ : α → BitVec W) :
    Option (α → BitVec W) :=
  if (LHS.read σ).msb then
    (if (RHS.read σ).msb then
      udivrem (.temp (-LHS.read σ)) (.temp (-RHS.read σ)) Quotient Remainder σ
    else (udivrem (.temp (-LHS.read σ)) RHS Quotient Remainder σ).map (negate Quotient)).map
      (negate Remainder)
  else if (RHS.read σ).msb then
    (udivrem LHS (.temp (-RHS.read σ)) Quotient Remainder σ).map (negate Quotient)
  else udivrem LHS RHS Quotient Remainder σ

/-- `udivrem` with a `uint64_t` as divisor, and the remainder beside the state. -/
def udivremWord (LHS : Operand α W) (RHS : Nat) (Quotient : α) (σ : α → BitVec W) :
    Option ((α → BitVec W) × Nat) :=
  let lhsWords := getNumWords (getActiveBits (LHS.read σ))
  if RHS = 0 then none
  else if W ≤ 64 then
    some (update σ Quotient (BitVec.ofNat W ((LHS.read σ).toNat / RHS)), (LHS.read σ).toNat % RHS)
  else if lhsWords = 0 then some (update σ Quotient 0, 0)
  else if RHS = 1 then some (update σ Quotient (LHS.read σ), 0)
  else if (LHS.read σ).toNat < RHS then some (update σ Quotient 0, (LHS.read σ).toNat)
  else if (LHS.read σ).toNat = RHS then some (update σ Quotient 1, 0)
  else if lhsWords = 1 then
    let lhsValue := word (LHS.read σ) 0
    some (update σ Quotient (BitVec.ofNat W (lhsValue / RHS)), lhsValue % RHS)
  else
    (divide (words (LHS.read σ) lhsWords) [RHS]).map fun r =>
      (update σ Quotient (ofWords W r.1), r.2.headD 0)

/-- `sdivrem` with an `int64_t` as divisor. -/
def sdivremWord (LHS : Operand α W) (RHS : Int) (Quotient : α) (σ : α → BitVec W) :
    Option ((α → BitVec W) × Int) :=
  if (LHS.read σ).msb then
    (if RHS < 0 then
      (int64 (-RHS)).bind fun d => udivremWord (.temp (-LHS.read σ)) d.toNat Quotient σ
    else
      (udivremWord (.temp (-LHS.read σ)) RHS.toNat Quotient σ).map fun r =>
        (negate Quotient r.1, r.2)).map fun r => (r.1, (-(r.2 : Int)).bmod (2 ^ 64))
  else if RHS < 0 then
    (int64 (-RHS)).bind fun d => (udivremWord LHS d.toNat Quotient σ).map fun r =>
      (negate Quotient r.1, (r.2 : Int).bmod (2 ^ 64))
  else (udivremWord LHS RHS.toNat Quotient σ).map fun r => (r.1, (r.2 : Int).bmod (2 ^ 64))

/-! ## What is asked of the results -/

/-- The quotient and the remainder of the values on entry. -/
def Right (LHS RHS : Operand α W) (Quotient Remainder : α) (σ : α → BitVec W) : Prop :=
  ∃ σ', udivrem LHS RHS Quotient Remainder σ = some σ' ∧
    σ' Quotient = LHS.read σ / RHS.read σ ∧ σ' Remainder = LHS.read σ % RHS.read σ

/-- The signed ones, truncated towards zero. -/
def SignedRight (LHS RHS : Operand α W) (Quotient Remainder : α) (σ : α → BitVec W) : Prop :=
  ∃ σ', sdivrem LHS RHS Quotient Remainder σ = some σ' ∧
    σ' Quotient = (LHS.read σ).sdiv (RHS.read σ) ∧ σ' Remainder = (LHS.read σ).srem (RHS.read σ)

def WordRight (LHS : Operand α W) (RHS : Nat) (Quotient : α) (σ : α → BitVec W) : Prop :=
  ∃ σ' r, udivremWord LHS RHS Quotient σ = some (σ', r) ∧
    σ' Quotient = BitVec.ofNat W ((LHS.read σ).toNat / RHS) ∧ r = (LHS.read σ).toNat % RHS

def SignedWordRight (LHS : Operand α W) (RHS : Int) (Quotient : α) (σ : α → BitVec W) : Prop :=
  ∃ σ' r, sdivremWord LHS RHS Quotient σ = some (σ', r) ∧
    σ' Quotient = BitVec.ofInt W ((LHS.read σ).toInt.tdiv RHS) ∧ r = (LHS.read σ).toInt.tmod RHS

end Model

/-- Whether the operand is the variable. -/
def Operand.Names (x : α) : Operand α W → Prop
  | temp _ => False
  | var y => y = x

/-- No operand that is read again is overwritten for the divisor one. -/
def Unharmed (LHS RHS : Operand α W) (Quotient Remainder : α) (σ : α → BitVec W) : Prop :=
  W ≤ 64 ∨ RHS.read σ ≠ 1 ∨ LHS.read σ = 0 ∨ LHS = RHS ∨
    ¬LHS.Names Remainder ∧ ¬RHS.Names Remainder ∧ (¬RHS.Names Quotient ∨ LHS.read σ = 1)

/-! ## Words -/

section Words

variable {x y : BitVec W}

theorem isWords_words (x : BitVec W) (n : Nat) : IsWords (words x n) := by
  intro w hw
  obtain ⟨i, -, rfl⟩ := List.mem_map.mp hw
  exact Nat.mod_lt _ (Nat.two_pow_pos 64)

theorem length_words (x : BitVec W) (n : Nat) : (words x n).length = n := by
  rw [words, List.length_map, List.length_range]

theorem ofDigits_words_mod (x : BitVec W) (n : Nat) :
    Nat.ofDigits wordBase (words x n) = x.toNat % 2 ^ (64 * n) := by
  induction n with
  | zero => rw [Nat.mul_zero, Nat.pow_zero, Nat.mod_one]; rfl
  | succ n ih =>
    have hsnoc : words x (n + 1) = words x n ++ [word x n] := by
      rw [words, List.range_succ, List.map_append]
      rfl
    rw [hsnoc, Nat.ofDigits_append, ih, length_words, Nat.ofDigits_singleton, wordBase, ← Nat.pow_mul,
      Nat.mul_succ, Nat.pow_add, Nat.mod_mul]
    rfl

theorem lt_of_getNumWords (x : BitVec W) : x.toNat < 2 ^ (64 * getNumWords (getActiveBits x)) := by
  rw [getActiveBits_eq, getNumWords]
  exact (Nat.lt_size_self _).trans_le (Nat.pow_le_pow_right Nat.two_pos (by omega))

theorem ofDigits_words (x : BitVec W) :
    Nat.ofDigits wordBase (words x (getNumWords (getActiveBits x))) = x.toNat := by
  rw [ofDigits_words_mod, Nat.mod_eq_of_lt (lt_of_getNumWords x)]

theorem getNumWords_eq_zero : getNumWords (getActiveBits x) = 0 ↔ x = 0 := by
  have hsize : x.toNat.size = 0 ↔ x.toNat = 0 := Nat.size_eq_zero
  rw [getActiveBits_eq, getNumWords, eq_iff, toNat_zero]
  omega

theorem getNumWords_mono (h : x ≤ y) :
    getNumWords (getActiveBits x) ≤ getNumWords (getActiveBits y) := by
  rw [getActiveBits_eq, getActiveBits_eq, getNumWords, getNumWords]
  have hsize := Nat.size_le_size (BitVec.le_def.mp h)
  omega

theorem getActiveBits_eq_one (hW : 0 < W) : getActiveBits x = 1 ↔ x = 1 := by
  rw [getActiveBits_eq, eq_iff, toNat_one hW]
  have hle : x.toNat.size ≤ 1 ↔ x.toNat < 2 ^ 1 := Nat.size_le
  have hpos : 0 < x.toNat.size ↔ 0 < x.toNat := Nat.size_pos
  omega

theorem word_eq_toNat (h : getNumWords (getActiveBits x) ≤ 1) : word x 0 = x.toNat := by
  rw [word, Nat.mul_zero, Nat.pow_zero, Nat.div_one]
  refine Nat.mod_eq_of_lt ((lt_of_getNumWords x).trans_le ?_)
  exact Nat.pow_le_pow_right Nat.two_pos (by omega)

theorem ofWords_eq {ws : List Nat} {n : Nat} (h : Nat.ofDigits wordBase ws = n) :
    ofWords W ws = BitVec.ofNat W n := congrArg (BitVec.ofNat W) h

theorem ofNat_div (x y : BitVec W) : BitVec.ofNat W (x.toNat / y.toNat) = x / y := by
  apply BitVec.eq_of_toNat_eq
  rw [BitVec.toNat_ofNat, BitVec.toNat_udiv]
  exact Nat.mod_eq_of_lt ((Nat.div_le_self _ _).trans_lt x.isLt)

theorem ofNat_mod (x y : BitVec W) : BitVec.ofNat W (x.toNat % y.toNat) = x % y := by
  apply BitVec.eq_of_toNat_eq
  rw [BitVec.toNat_ofNat, BitVec.toNat_umod]
  exact Nat.mod_eq_of_lt ((Nat.mod_le _ _).trans_lt x.isLt)

end Words

/-! ## `udivrem` -/

section Unsigned

variable [DecidableEq α] {LHS RHS : Operand α W} {Quotient Remainder : α} {σ : α → BitVec W}

theorem assign_quotient (h : Quotient ≠ Remainder) (q r : BitVec W) :
    assign Quotient Remainder q r σ Quotient = q := by
  rw [assign, update_of_ne h, update_self]

theorem assign_remainder (q r : BitVec W) : assign Quotient Remainder q r σ Remainder = r := by
  rw [assign, update_self]

theorem assign_other {x : α} (hq : x ≠ Quotient) (hr : x ≠ Remainder) (q r : BitVec W) :
    assign Quotient Remainder q r σ x = σ x := by
  rw [assign, update_of_ne hr, update_of_ne hq]

/-- **The steps behind the check** divide the values they find. -/
theorem finish_spec (hne : Quotient ≠ Remainder) {a b : BitVec W} (ha : LHS.read σ = a)
    (hb : RHS.read σ = b) (h0 : b ≠ 0) :
    ∃ σ', finish LHS RHS Quotient Remainder (getNumWords (getActiveBits a))
        (getNumWords (getActiveBits b)) σ = some σ' ∧ σ' Quotient = a / b ∧ σ' Remainder = a % b := by
  have hb0 : b.toNat ≠ 0 := fun h => h0 (BitVec.eq_of_toNat_eq h)
  unfold finish
  rw [ha, hb]
  split
  · next hless =>
    have hlt : a.toNat < b.toNat := by
      rcases hless with hwords | hlt
      · by_contra hge
        exact absurd (getNumWords_mono (BitVec.le_def.mpr (Nat.not_lt.mp hge))) (Nat.not_le.mpr hwords)
      · exact BitVec.lt_def.mp hlt
    refine ⟨_, rfl, ?_, ?_⟩
    · rw [update_self, eq_iff, BitVec.toNat_udiv, Nat.div_eq_of_lt hlt, toNat_zero]
    · rw [update_of_ne hne.symm, update_self, eq_iff, BitVec.toNat_umod, Nat.mod_eq_of_lt hlt]
  · next hless =>
    rw [not_or, Nat.not_lt] at hless
    have hle : b.toNat ≤ a.toNat := BitVec.le_def.mp (BitVec.not_lt.mp hless.2)
    split
    · next heq =>
      have hW : 0 < W := by
        rcases Nat.eq_zero_or_pos W with rfl | hW
        · exact absurd (Subsingleton.elim b 0) h0
        · exact hW
      refine ⟨_, rfl, ?_, ?_⟩
      · rw [assign_quotient hne, heq, eq_iff, BitVec.toNat_udiv, toNat_one hW,
          Nat.div_self (Nat.pos_of_ne_zero hb0)]
      · rw [assign_remainder, heq, eq_iff, BitVec.toNat_umod, Nat.mod_self, toNat_zero]
    · split
      · next hone =>
        rw [word_eq_toNat hone.le, word_eq_toNat (hless.1.trans hone.le), if_neg hb0]
        refine ⟨_, rfl, ?_, ?_⟩
        · rw [assign_quotient hne, ofNat_div]
        · rw [assign_remainder, ofNat_mod]
      · obtain ⟨q, r, hdivide, -, hq, hr⟩ := divide_spec
          (isWords_words a (getNumWords (getActiveBits a)))
          (isWords_words b (getNumWords (getActiveBits b)))
          (by rw [length_words, length_words]; exact hless.1)
          (by rw [ofDigits_words]; exact hb0) (by rw [ofDigits_words, ofDigits_words]; exact hle)
        rw [ofDigits_words, ofDigits_words] at hq hr
        rw [hdivide, Option.map_some]
        refine ⟨_, rfl, ?_, ?_⟩
        · rw [assign_quotient hne, ofWords_eq hq, ofNat_div]
        · rw [assign_remainder, ofWords_eq hr, ofNat_mod]

theorem getNumWords_pos {b : BitVec W} (h0 : b ≠ 0) : getNumWords (getActiveBits b) ≠ 0 :=
  fun h => h0 (getNumWords_eq_zero.mp h)

/-- One word: nothing is read behind the first assignment. -/
theorem right_of_single (hne : Quotient ≠ Remainder) (h0 : RHS.read σ ≠ 0) (hW : W ≤ 64) :
    Right LHS RHS Quotient Remainder σ := by
  unfold Right udivrem
  rw [if_pos hW, if_neg h0]
  exact ⟨_, rfl, assign_quotient hne _ _, assign_remainder _ _⟩

theorem right_of_zero (hne : Quotient ≠ Remainder) (h0 : RHS.read σ ≠ 0) (hW : ¬W ≤ 64)
    (hzero : LHS.read σ = 0) : Right LHS RHS Quotient Remainder σ := by
  unfold Right udivrem
  simp only [if_neg hW, if_neg (getNumWords_pos h0), if_pos (getNumWords_eq_zero.mpr hzero)]
  refine ⟨_, rfl, ?_, ?_⟩
  · rw [assign_quotient hne, hzero, eq_iff, BitVec.toNat_udiv, toNat_zero, Nat.zero_div]
  · rw [assign_remainder, hzero, eq_iff, BitVec.toNat_umod, toNat_zero, Nat.zero_mod]

/-- A divisor that is not one. -/
theorem right_of_ne_one (hne : Quotient ≠ Remainder) (h0 : RHS.read σ ≠ 0) (hW : ¬W ≤ 64)
    (hzero : LHS.read σ ≠ 0) (hone : RHS.read σ ≠ 1) : Right LHS RHS Quotient Remainder σ := by
  obtain ⟨σ', hrun, hq, hr⟩ := finish_spec (σ := σ) hne (rfl : LHS.read σ = _) (rfl : RHS.read σ = _) h0
  refine ⟨σ', ?_, hq, hr⟩
  simp only [udivrem, if_neg hW, if_neg (getNumWords_pos h0), if_neg (getNumWords_pos hzero)]
  rw [if_neg fun h => hone ((getActiveBits_eq_one (by omega)).mp h)]
  exact hrun

/-- For the divisor one, the state behind the two assignments is read again. -/
theorem udivrem_one (hW : ¬W ≤ 64) (hzero : LHS.read σ ≠ 0) (hone : RHS.read σ = 1) :
    udivrem LHS RHS Quotient Remainder σ =
      finish LHS RHS Quotient Remainder (getNumWords (getActiveBits (LHS.read σ)))
        (getNumWords (getActiveBits (1 : BitVec W))) (assign Quotient Remainder (LHS.read σ) 0 σ) := by
  have hW' : 0 < W := by omega
  have h0 : (1 : BitVec W) ≠ 0 := fun h => by
    rw [eq_iff, toNat_one hW', toNat_zero] at h
    exact Nat.one_ne_zero h
  simp only [udivrem, hone, if_neg hW, if_neg (getNumWords_pos h0), if_neg (getNumWords_pos hzero)]
  rw [if_pos ((getActiveBits_eq_one hW').mpr rfl)]

theorem one_ne_zero (hW : 0 < W) : (1 : BitVec W) ≠ 0 := fun h => by
  rw [eq_iff, toNat_one hW, toNat_zero] at h
  exact Nat.one_ne_zero h

theorem div_one (hW : 0 < W) (a : BitVec W) : a / 1 = a := by
  rw [eq_iff, BitVec.toNat_udiv, toNat_one hW, Nat.div_one]

theorem mod_one (hW : 0 < W) (a : BitVec W) : a % 1 = 0 := by
  rw [eq_iff, BitVec.toNat_umod, toNat_one hW, Nat.mod_one, toNat_zero]

/-- The operands that are read again still have their values. -/
theorem right_of_kept (hne : Quotient ≠ Remainder) (hW : ¬W ≤ 64) (hzero : LHS.read σ ≠ 0)
    (hone : RHS.read σ = 1)
    (hl : LHS.read (assign Quotient Remainder (LHS.read σ) 0 σ) = LHS.read σ)
    (hr : RHS.read (assign Quotient Remainder (LHS.read σ) 0 σ) = 1) :
    Right LHS RHS Quotient Remainder σ := by
  obtain ⟨σ', hrun, hq, hrem⟩ := finish_spec hne hl hr (one_ne_zero (by omega))
  refine ⟨σ', (udivrem_one hW hzero hone).trans hrun, ?_, ?_⟩
  · rw [hq, hone]
  · rw [hrem, hone]

/-- Both operands are the variable, or the same temporary. -/
theorem right_of_same (hne : Quotient ≠ Remainder) (hW : ¬W ≤ 64) (hone : RHS.read σ = 1)
    (hsame : LHS = RHS) : Right LHS RHS Quotient Remainder σ := by
  subst hsame
  have h1 := one_ne_zero (W := W) (by omega)
  have hrun : udivrem LHS LHS Quotient Remainder σ = finish LHS LHS Quotient Remainder _ _ _ :=
    udivrem_one hW (fun h => h1 (hone.symm.trans h)) hone
  rw [finish, hone, if_neg fun h => h.elim (Nat.lt_irrefl _) (BitVec.lt_irrefl _), if_pos rfl] at hrun
  refine ⟨_, hrun, ?_, ?_⟩
  · rw [assign_quotient hne, hone, div_one (by omega)]
  · rw [assign_remainder, hone, mod_one (by omega)]

/-- The remainder overwrites the dividend. -/
theorem not_right_of_lhs (hne : Quotient ≠ Remainder) (hW : ¬W ≤ 64) (hzero : LHS.read σ ≠ 0)
    (hone : RHS.read σ = 1) (hdiff : LHS ≠ RHS) (hnames : LHS.Names Remainder) :
    ¬Right LHS RHS Quotient Remainder σ := by
  have h1 := one_ne_zero (W := W) (by omega)
  cases LHS with
  | temp a => exact hnames.elim
  | var x =>
    obtain rfl : x = Remainder := hnames
    have hl : (Operand.var x).read (assign Quotient x ((Operand.var x).read σ) 0 σ) = 0 :=
      assign_remainder _ _
    have hr : RHS.read (assign Quotient x ((Operand.var x).read σ) 0 σ) ≠ 0 := by
      cases RHS with
      | temp b => exact hone ▸ h1
      | var y =>
        have hy : y ≠ x := fun h => hdiff (h ▸ rfl)
        rcases eq_or_ne y Quotient with rfl | hyq
        · exact fun h => hzero ((assign_quotient hne _ _).symm.trans h)
        · have hkeep := assign_other (σ := σ) hyq hy ((Operand.var x).read σ) 0
          exact fun h => h1 (hone.symm.trans (hkeep.symm.trans h))
    rintro ⟨σ', hrun, hq, -⟩
    rw [udivrem_one hW hzero hone, finish, if_pos (Or.inr ?_)] at hrun
    · rw [← Option.some.inj hrun, update_self, hone, div_one (by omega)] at hq
      exact hzero hq.symm
    · rw [hl, BitVec.lt_def, toNat_zero]
      exact Nat.pos_of_ne_zero fun h => hr (BitVec.eq_of_toNat_eq h)

/-- The remainder overwrites the divisor. -/
theorem not_right_of_rhs (hne : Quotient ≠ Remainder) (hW : ¬W ≤ 64) (hzero : LHS.read σ ≠ 0)
    (hone : RHS.read σ = 1) (hdiff : LHS ≠ RHS) (hnames : RHS.Names Remainder)
    (hleft : ¬LHS.Names Remainder) : ¬Right LHS RHS Quotient Remainder σ := by
  cases RHS with
  | temp b => exact hnames.elim
  | var y =>
    obtain rfl : y = Remainder := hnames
    have hr : (Operand.var y).read (assign Quotient y (LHS.read σ) 0 σ) = 0 := assign_remainder _ _
    have hl : LHS.read (assign Quotient y (LHS.read σ) 0 σ) = LHS.read σ := by
      cases LHS with
      | temp a => rfl
      | var x =>
        rcases eq_or_ne x Quotient with rfl | hxq
        · exact assign_quotient hne _ _
        · exact assign_other hxq hleft _ _
    have hwords : getNumWords (getActiveBits (1 : BitVec W)) = 1 := by
      rw [(getActiveBits_eq_one (by omega)).mpr rfl]
      rfl
    have hword : word (0 : BitVec W) 0 = 0 := by simp [word]
    rintro ⟨σ', hrun, -, -⟩
    rw [udivrem_one hW hzero hone, finish, hl, hr, hwords, if_neg ?_, if_neg hzero] at hrun
    · split at hrun
      · simp only [hword, if_true] at hrun
        exact absurd hrun (by simp)
      · have hzeros : words (0 : BitVec W) 1 = [0] := by simp [words, word]
        rw [hzeros, divide_zero] at hrun
        exact absurd hrun (by simp)
    · rintro (h | h)
      · exact getNumWords_pos hzero (Nat.lt_one_iff.mp h)
      · exact BitVec.not_lt_zero h

/-- The quotient overwrites the divisor. -/
theorem not_right_of_quotient (hne : Quotient ≠ Remainder) (hW : ¬W ≤ 64) (hzero : LHS.read σ ≠ 0)
    (hone : RHS.read σ = 1) (hdiff : LHS ≠ RHS) (hnames : RHS.Names Quotient)
    (hleft : ¬LHS.Names Remainder) (hbig : LHS.read σ ≠ 1) :
    ¬Right LHS RHS Quotient Remainder σ := by
  cases RHS with
  | temp b => exact hnames.elim
  | var y =>
    obtain rfl : y = Quotient := hnames
    have hr : (Operand.var y).read (assign y Remainder (LHS.read σ) 0 σ) = LHS.read σ :=
      assign_quotient hne _ _
    have hl : LHS.read (assign y Remainder (LHS.read σ) 0 σ) = LHS.read σ := by
      cases LHS with
      | temp a => rfl
      | var x => exact assign_other (fun h => hdiff (congrArg Operand.var h)) hleft _ _
    rintro ⟨σ', hrun, hq, -⟩
    rw [udivrem_one hW hzero hone, finish, hl, hr, if_neg ?_, if_pos rfl] at hrun
    · rw [← Option.some.inj hrun, assign_quotient hne, hone, div_one (by omega)] at hq
      exact hbig hq.symm
    · rintro (h | h)
      · rw [(getActiveBits_eq_one (by omega)).mpr rfl] at h
        exact getNumWords_pos hzero (Nat.lt_one_iff.mp h)
      · exact BitVec.lt_irrefl _ h

/-- **`udivrem`** is right exactly where no operand that is read again is overwritten. -/
theorem udivrem_right_iff (hne : Quotient ≠ Remainder) (h0 : RHS.read σ ≠ 0) :
    Right LHS RHS Quotient Remainder σ ↔ Unharmed LHS RHS Quotient Remainder σ := by
  by_cases hW : W ≤ 64
  · exact iff_of_true (right_of_single hne h0 hW) (Or.inl hW)
  by_cases hzero : LHS.read σ = 0
  · exact iff_of_true (right_of_zero hne h0 hW hzero) (Or.inr (Or.inr (Or.inl hzero)))
  by_cases hone : RHS.read σ = 1
  swap
  · exact iff_of_true (right_of_ne_one hne h0 hW hzero hone) (Or.inr (Or.inl hone))
  by_cases hsame : LHS = RHS
  · exact iff_of_true (right_of_same hne hW hone hsame) (Or.inr (Or.inr (Or.inr (Or.inl hsame))))
  have hiff : Unharmed LHS RHS Quotient Remainder σ ↔
      ¬LHS.Names Remainder ∧ ¬RHS.Names Remainder ∧ (¬RHS.Names Quotient ∨ LHS.read σ = 1) := by
    simp only [Unharmed, hW, hzero, hone, hsame, false_or, ne_eq, not_true_eq_false]
  rw [hiff]
  by_cases hleft : LHS.Names Remainder
  · exact iff_of_false (not_right_of_lhs hne hW hzero hone hsame hleft) fun h => h.1 hleft
  by_cases hright : RHS.Names Remainder
  · exact iff_of_false (not_right_of_rhs hne hW hzero hone hsame hright hleft) fun h => h.2.1 hright
  by_cases hquot : RHS.Names Quotient ∧ LHS.read σ ≠ 1
  · exact iff_of_false (not_right_of_quotient hne hW hzero hone hsame hquot.1 hleft hquot.2)
      fun h => h.2.2.elim (fun hno => hno hquot.1) hquot.2
  · rw [not_and, not_not] at hquot
    refine iff_of_true (right_of_kept hne hW hzero hone ?_ ?_)
      ⟨hleft, hright, (Classical.em (RHS.Names Quotient)).symm.imp_right hquot⟩
    · cases LHS with
      | temp a => rfl
      | var x =>
        rcases eq_or_ne x Quotient with rfl | hxq
        · exact assign_quotient hne _ _
        · exact assign_other hxq hleft _ _
    · cases RHS with
      | temp b => exact hone
      | var y =>
        rcases eq_or_ne y Quotient with rfl | hyq
        · exact (assign_quotient hne _ _).trans (hquot rfl)
        · exact (assign_other hyq hright _ _).trans hone

end Unsigned

/-! ## `sdivrem` -/

/-- What stands for an operand in the unsigned division: the negated value is a temporary. -/
def Operand.magnitude (σ : α → BitVec W) (o : Operand α W) : Operand α W :=
  if (o.read σ).msb then .temp (-o.read σ) else o

section Signed

variable [DecidableEq α] {LHS RHS : Operand α W} {Quotient Remainder : α} {σ : α → BitVec W}

/-- Results that are changed behind the division are right where the division is. -/
theorem exists_map_iff {o : Option (α → BitVec W)} {f : (α → BitVec W) → α → BitVec W}
    {cq cr : BitVec W → BitVec W} (hcq : Injective cq) (hcr : Injective cr)
    (hfq : ∀ σ', f σ' Quotient = cq (σ' Quotient)) (hfr : ∀ σ', f σ' Remainder = cr (σ' Remainder))
    (q r : BitVec W) :
    (∃ σ', o.map f = some σ' ∧ σ' Quotient = cq q ∧ σ' Remainder = cr r) ↔
      ∃ σ', o = some σ' ∧ σ' Quotient = q ∧ σ' Remainder = r := by
  constructor
  · rintro ⟨σ', hrun, hq, hr⟩
    obtain ⟨σ'', rfl, rfl⟩ := Option.map_eq_some_iff.mp hrun
    rw [hfq] at hq
    rw [hfr] at hr
    exact ⟨σ'', rfl, hcq hq, hcr hr⟩
  · rintro ⟨σ', rfl, rfl, rfl⟩
    exact ⟨f σ', rfl, hfq σ', hfr σ'⟩

theorem neg_injective : Injective fun x : BitVec W => -x := fun x y h => by
  have hneg : - -x = - -y := congrArg (-·) h
  rwa [BitVec.neg_neg, BitVec.neg_neg] at hneg

theorem negate_self (x : α) : negate x σ x = -σ x := update_self _ _ _

theorem negate_of_ne {x y : α} (h : x ≠ y) : negate y σ x = σ x := update_of_ne h _ _

theorem neg_ne_zero {b : BitVec W} (h : b ≠ 0) : -b ≠ 0 := by
  intro h0
  have hb := BitVec.neg_neg (x := b)
  rw [h0] at hb
  exact h (hb.symm.trans (BitVec.neg_zero W))

/-- **`sdivrem`** is right exactly where the division of the magnitudes is. -/
theorem sdivrem_right_iff (hne : Quotient ≠ Remainder) (h0 : RHS.read σ ≠ 0) :
    SignedRight LHS RHS Quotient Remainder σ ↔
      Unharmed (LHS.magnitude σ) (RHS.magnitude σ) Quotient Remainder σ := by
  unfold Operand.magnitude SignedRight sdivrem
  rw [BitVec.sdiv_eq, BitVec.srem_eq]
  cases hl : (LHS.read σ).msb with
  | false =>
    cases hr : (RHS.read σ).msb with
    | false =>
      simp only [Bool.false_eq_true, if_false]
      exact udivrem_right_iff hne h0
    | true =>
      simp only [Bool.false_eq_true, if_false, if_true]
      rw [← (udivrem_right_iff hne (neg_ne_zero h0) :
        Right LHS (.temp (-RHS.read σ)) Quotient Remainder σ ↔ _)]
      exact exists_map_iff neg_injective injective_id (fun σ' => negate_self _)
        (fun σ' => negate_of_ne hne.symm) _ _
  | true =>
    cases hr : (RHS.read σ).msb with
    | false =>
      simp only [Bool.false_eq_true, if_false, if_true]
      rw [← (udivrem_right_iff hne h0 :
        Right (.temp (-LHS.read σ)) RHS Quotient Remainder σ ↔ _), Option.map_map]
      refine exists_map_iff neg_injective neg_injective (fun σ' => ?_) (fun σ' => ?_) _ _
      · exact (negate_of_ne hne).trans (negate_self _)
      · exact (negate_self _).trans (congrArg (-·) (negate_of_ne hne.symm))
    | true =>
      simp only [if_true]
      rw [← (udivrem_right_iff hne (neg_ne_zero h0) :
        Right (.temp (-LHS.read σ)) (.temp (-RHS.read σ)) Quotient Remainder σ ↔ _)]
      exact exists_map_iff injective_id neg_injective (fun σ' => negate_of_ne hne)
        (fun σ' => negate_self _) _ _

end Signed

/-! ## Divisors of 64 bits -/

section Word

variable [DecidableEq α] {LHS : Operand α W} {Quotient : α} {σ : α → BitVec W}

/-- **`udivrem` by a word** is right: every early exit returns. -/
theorem udivremWord_right {d : Nat} (h0 : d ≠ 0) (hd : d < 2 ^ 64) : WordRight LHS d Quotient σ := by
  unfold WordRight udivremWord
  generalize ha : LHS.read σ = a
  simp only [if_neg h0]
  split
  · exact ⟨_, _, rfl, update_self _ _ _, rfl⟩
  split
  · next hzero =>
    rw [getNumWords_eq_zero.mp hzero]
    exact ⟨_, _, rfl, by rw [update_self, toNat_zero, Nat.zero_div]; rfl,
      by rw [toNat_zero, Nat.zero_mod]⟩
  split
  · next hone =>
    subst hone
    exact ⟨_, _, rfl, by rw [update_self, Nat.div_one, BitVec.ofNat_toNat, BitVec.setWidth_eq],
      (Nat.mod_one _).symm⟩
  split
  · next hlt =>
    exact ⟨_, _, rfl, by rw [update_self, Nat.div_eq_of_lt hlt]; rfl, (Nat.mod_eq_of_lt hlt).symm⟩
  split
  · next heq =>
    rw [heq]
    exact ⟨_, _, rfl, by rw [update_self, Nat.div_self (Nat.pos_of_ne_zero h0)]; rfl,
      (Nat.mod_self d).symm⟩
  next hzero _ hlt _ =>
  split
  · next hwords =>
    rw [word_eq_toNat hwords.le]
    exact ⟨_, _, rfl, update_self _ _ _, rfl⟩
  · have hdval : Nat.ofDigits wordBase [d] = d := Nat.ofDigits_singleton
    obtain ⟨q, r, hdivide, hlen, hq, hr⟩ := divide_spec
      (isWords_words a (getNumWords (getActiveBits a)))
      (fun w hw => List.mem_singleton.mp hw ▸ hd : IsWords [d])
      (by rw [length_words]; exact Nat.pos_of_ne_zero hzero) (by rwa [hdval])
      (by rw [ofDigits_words, hdval]; exact Nat.not_lt.mp hlt)
    rw [ofDigits_words, hdval] at hq hr
    obtain ⟨x, rfl⟩ := List.length_eq_one_iff.mp hlen
    rw [hdivide, Option.map_some]
    refine ⟨_, _, rfl, ?_, ?_⟩
    · rw [update_self, ofWords_eq hq]
    · rw [← hr, Nat.ofDigits_singleton]
      rfl

theorem toInt_of_msb {a : BitVec W} (h : a.msb = true) : a.toInt = -((-a).toNat : Int) := by
  have hneg := toNat_neg_cases a
  have hint := BitVec.toInt_eq_msb_cond a
  have hlt := a.isLt
  have hpos : 0 < a.toNat := Nat.pos_of_ne_zero fun h0 => by
    rw [BitVec.eq_of_toNat_eq (h0.trans toNat_zero.symm)] at h
    simp at h
  rw [h, if_pos rfl] at hint
  omega

theorem toInt_of_not_msb {a : BitVec W} (h : a.msb = false) : a.toInt = a.toNat := by
  rw [BitVec.toInt_eq_msb_cond, h]
  rfl

/-- A remainder of a divisor below `2 ^ 63` is an `int64_t`. -/
theorem bmod_rem {m d : Nat} (h0 : d ≠ 0) (hd : d < 2 ^ 63) :
    ((m % d : Nat) : Int).bmod (2 ^ 64) = (m % d : Nat) ∧
      (-((m % d : Nat) : Int)).bmod (2 ^ 64) = -((m % d : Nat) : Int) := by
  have hlt := Nat.mod_lt m (Nat.pos_of_ne_zero h0)
  constructor
  · exact Int.bmod_eq_of_le_mul_two (by push_cast; omega) (by push_cast; omega)
  · exact Int.bmod_eq_of_le_mul_two (by push_cast; omega) (by push_cast; omega)

/-- A divisor whose magnitude is an `int64_t`. -/
theorem sdivremWord_right {e : Int} (h0 : e ≠ 0) (hlo : -2 ^ 63 < e) (hhi : e < 2 ^ 63) :
    SignedWordRight LHS e Quotient σ := by
  unfold SignedWordRight sdivremWord
  rcases lt_or_ge e 0 with hneg | hnonneg
  · obtain ⟨d, hd⟩ := Int.eq_ofNat_of_zero_le (Int.neg_nonneg_of_nonpos (Int.le_of_lt hneg))
    obtain rfl : e = -(d : Int) := by omega
    have hd0 : d ≠ 0 := by omega
    have hd63 : d < 2 ^ 63 := by omega
    have hint : int64 (-(-(d : Int))) = some (d : Int) := by
      rw [Int.neg_neg]
      exact int64_eq (by omega) (by omega)
    simp only [if_pos hneg, hint, Option.bind_some, Int.toNat_natCast]
    cases hmsb : (LHS.read σ).msb with
    | false =>
      obtain ⟨σ', r, hrun, hq, hr⟩ := (udivremWord_right hd0 (by omega) :
        WordRight LHS d Quotient σ)
      simp only [Bool.false_eq_true, if_false, hrun, Option.map_some]
      refine ⟨_, _, rfl, ?_, ?_⟩
      · rw [negate_self, hq, toInt_of_not_msb hmsb, Int.tdiv_neg, ← Int.ofNat_tdiv, BitVec.ofInt_neg,
          BitVec.ofInt_natCast]
      · rw [hr, (bmod_rem hd0 hd63).1, toInt_of_not_msb hmsb, Int.tmod_neg, ← Int.ofNat_tmod]
    | true =>
      obtain ⟨σ', r, hrun, hq, hr⟩ := (udivremWord_right hd0 (by omega) :
        WordRight (.temp (-LHS.read σ)) d Quotient σ)
      simp only [if_true, hrun, Option.map_some]
      refine ⟨_, _, rfl, ?_, ?_⟩
      · rw [hq, toInt_of_msb hmsb, Int.neg_tdiv_neg, ← Int.ofNat_tdiv, BitVec.ofInt_natCast]
        rfl
      · rw [hr, (bmod_rem hd0 hd63).2, toInt_of_msb hmsb, Int.tmod_neg, Int.neg_tmod, ← Int.ofNat_tmod]
        rfl
  · obtain ⟨d, rfl⟩ := Int.eq_ofNat_of_zero_le hnonneg
    have hd0 : d ≠ 0 := by omega
    have hd63 : d < 2 ^ 63 := by omega
    simp only [if_neg (Int.not_lt.mpr hnonneg), Int.toNat_natCast]
    cases hmsb : (LHS.read σ).msb with
    | false =>
      obtain ⟨σ', r, hrun, hq, hr⟩ := (udivremWord_right hd0 (by omega) :
        WordRight LHS d Quotient σ)
      simp only [Bool.false_eq_true, if_false, hrun, Option.map_some]
      refine ⟨_, _, rfl, ?_, ?_⟩
      · rw [hq, toInt_of_not_msb hmsb, ← Int.ofNat_tdiv, BitVec.ofInt_natCast]
      · rw [hr, (bmod_rem hd0 hd63).1, toInt_of_not_msb hmsb, ← Int.ofNat_tmod]
    | true =>
      obtain ⟨σ', r, hrun, hq, hr⟩ := (udivremWord_right hd0 (by omega) :
        WordRight (.temp (-LHS.read σ)) d Quotient σ)
      simp only [if_true, hrun, Option.map_some]
      refine ⟨_, _, rfl, ?_, ?_⟩
      · rw [negate_self, hq, toInt_of_msb hmsb, Int.neg_tdiv, ← Int.ofNat_tdiv, BitVec.ofInt_neg,
          BitVec.ofInt_natCast]
        rfl
      · rw [hr, (bmod_rem hd0 hd63).2, toInt_of_msb hmsb, Int.neg_tmod, ← Int.ofNat_tmod]
        rfl

/-- **`sdivrem` by a word** is right for every divisor that can be negated. -/
theorem sdivremWord_right_iff {e : Int} (h0 : e ≠ 0) (hlo : -2 ^ 63 ≤ e) (hhi : e < 2 ^ 63) :
    SignedWordRight LHS e Quotient σ ↔ e ≠ -2 ^ 63 := by
  constructor
  · rintro ⟨σ', r, hrun, -, -⟩ rfl
    have hint : int64 (-(-2 ^ 63)) = none := by decide
    unfold sdivremWord at hrun
    simp only [if_pos (by decide : (-2 ^ 63 : Int) < 0), hint, Option.bind_none, Option.map_none,
      ite_self] at hrun
    exact absurd hrun (by simp)
  · exact fun hne => sdivremWord_right h0 (lt_of_le_of_ne hlo hne.symm) hhi

end Word

/-! ## All four -/

section All

variable [DecidableEq α]

/-- **Quotient and remainder under aliasing**: the calls are right exactly where, for a divisor of
magnitude one and a dividend of more than one word, no operand that is read again is overwritten;
the calls by a word except for the least `int64_t`. -/
theorem divrem_right_iff (LHS RHS : Operand α W) {Quotient Remainder : α} (hne : Quotient ≠ Remainder)
    (σ : α → BitVec W) (h0 : RHS.read σ ≠ 0) {d : Nat} (hd0 : d ≠ 0) (hd : d < 2 ^ 64) {e : Int}
    (he0 : e ≠ 0) (hlo : -2 ^ 63 ≤ e) (hhi : e < 2 ^ 63) :
    (Right LHS RHS Quotient Remainder σ ↔ Unharmed LHS RHS Quotient Remainder σ) ∧
      (SignedRight LHS RHS Quotient Remainder σ ↔
        Unharmed (LHS.magnitude σ) (RHS.magnitude σ) Quotient Remainder σ) ∧
      WordRight LHS d Quotient σ ∧ (SignedWordRight LHS e Quotient σ ↔ e ≠ -2 ^ 63) :=
  ⟨udivrem_right_iff hne h0, sdivrem_right_iff hne h0, udivremWord_right hd0 hd,
    sdivremWord_right_iff he0 hlo hhi⟩

/-- Seven and one, with the remainder in the dividend. -/
def sevenAndOne : Bool → BitVec 65
  | false => 7
  | true => 1

theorem divrem_right_iff_seven :
    (Right (.var false) (.var true) true false sevenAndOne ↔
        Unharmed (.var false) (.var true) true false sevenAndOne) ∧
      (SignedRight (.var false) (.var true) true false sevenAndOne ↔
        Unharmed (Operand.magnitude sevenAndOne (.var false))
          (Operand.magnitude sevenAndOne (.var true)) true false sevenAndOne) ∧
      WordRight (.var false) 3 true sevenAndOne ∧
      (SignedWordRight (.var false) (-3) true sevenAndOne ↔ (-3 : Int) ≠ -2 ^ 63) :=
  divrem_right_iff (.var false) (.var true) (by decide) sevenAndOne (by decide) (by decide)
    (by decide) (by decide) (by decide) (by decide)

/-- Seven divided by one is zero where the remainder is stored in the dividend. -/
theorem not_right_seven : ¬Right (.var false) (.var true) true false sevenAndOne :=
  not_right_of_lhs (by decide) (by decide) (by decide) rfl (by decide) rfl

end All

end RvLlvm.APInt.DivRem
