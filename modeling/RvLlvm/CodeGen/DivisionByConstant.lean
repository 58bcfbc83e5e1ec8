import Mathlib.Algebra.Order.Ring.Nat
import Mathlib.Data.Nat.Size
import Mathlib.Data.Nat.Prime.Basic
import Mathlib.Tactic.Linarith
import RvLlvm.Support.DoWhile
import RvLlvm.Support.MagicDiv

/-!
# Magic numbers for division by a constant

Model of `UnsignedDivisionByConstantInfo::get` and `SignedDivisionByConstantInfo::get`
(`llvm/lib/Support/DivisionByConstantInfo.cpp`). Registers are words of `w` bits and every update
wraps.

* `Unsigned.Tracks`, `Signed.Tracks`: what the four registers stand for in turn `p`, quotient and
  remainder of `2 ^ p`.
* `Unsigned.search_spec`, `Signed.search_spec`: the loops stop, and where they do the multiplier is
  precise enough and not too large.
-/

namespace RvLlvm.CodeGen

open RvLlvm.Support RvLlvm.Support.MagicDiv

variable {w : Nat}

/-- The registers of the loop. -/
structure Search (w : Nat) where
  p : Nat
  q1 : BitVec w
  r1 : BitVec w
  q2 : BitVec w
  r2 : BitVec w
  isAdd : Bool

/-! ## Words as numbers -/

theorem ofNat_shiftLeft_one (x : Nat) : BitVec.ofNat w x <<< 1 = BitVec.ofNat w (2 * x) := by
  apply BitVec.eq_of_toNat_eq
  rw [BitVec.toNat_shiftLeft, BitVec.toNat_ofNat, BitVec.toNat_ofNat, Nat.shiftLeft_eq,
    Nat.pow_one, Nat.mod_mul_mod, Nat.mul_comm]

theorem ofNat_le {x y : Nat} (hx : x < 2 ^ w) (hy : y < 2 ^ w) :
    BitVec.ofNat w x ≤ BitVec.ofNat w y ↔ x ≤ y := by
  rw [BitVec.le_def, BitVec.toNat_ofNat, BitVec.toNat_ofNat, Nat.mod_eq_of_lt hx,
    Nat.mod_eq_of_lt hy]

theorem ofNat_lt {x y : Nat} (hx : x < 2 ^ w) (hy : y < 2 ^ w) :
    BitVec.ofNat w x < BitVec.ofNat w y ↔ x < y := by
  rw [BitVec.lt_def, BitVec.toNat_ofNat, BitVec.toNat_ofNat, Nat.mod_eq_of_lt hx,
    Nat.mod_eq_of_lt hy]

theorem ofNat_inj {x y : Nat} (hx : x < 2 ^ w) (hy : y < 2 ^ w) :
    BitVec.ofNat w x = BitVec.ofNat w y ↔ x = y := by
  rw [← BitVec.toNat_inj, BitVec.toNat_ofNat, BitVec.toNat_ofNat, Nat.mod_eq_of_lt hx,
    Nat.mod_eq_of_lt hy]

theorem two_pow_pred (hw : 0 < w) : 2 ^ w = 2 * 2 ^ (w - 1) := by
  rw [← Nat.pow_succ']
  congr 1
  omega

theorem ofNat_div_ofNat {x y : Nat} (hx : x < 2 ^ w) (hy : y < 2 ^ w) :
    BitVec.ofNat w x / BitVec.ofNat w y = BitVec.ofNat w (x / y) := by
  apply BitVec.eq_of_toNat_eq
  rw [BitVec.toNat_udiv, BitVec.toNat_ofNat, BitVec.toNat_ofNat, BitVec.toNat_ofNat,
    Nat.mod_eq_of_lt hx, Nat.mod_eq_of_lt hy,
    Nat.mod_eq_of_lt ((Nat.div_le_self x y).trans_lt hx)]

theorem ofNat_mod_ofNat {x y : Nat} (hx : x < 2 ^ w) (hy : y < 2 ^ w) :
    BitVec.ofNat w x % BitVec.ofNat w y = BitVec.ofNat w (x % y) := by
  apply BitVec.eq_of_toNat_eq
  rw [BitVec.toNat_umod, BitVec.toNat_ofNat, BitVec.toNat_ofNat, BitVec.toNat_ofNat,
    Nat.mod_eq_of_lt hx, Nat.mod_eq_of_lt hy,
    Nat.mod_eq_of_lt ((Nat.mod_le x y).trans_lt hx)]

theorem intMin_eq (hw : 0 < w) : BitVec.intMin w = BitVec.ofNat w (2 ^ (w - 1)) := by
  apply BitVec.eq_of_toNat_eq
  have hpow := two_pow_pred hw
  have hpos := Nat.two_pow_pos (w - 1)
  rw [BitVec.toNat_intMin_of_pos hw, BitVec.toNat_ofNat, Nat.mod_eq_of_lt (by omega)]

theorem intMax_eq (hw : 0 < w) : BitVec.intMax w = BitVec.ofNat w (2 ^ (w - 1) - 1) := by
  apply BitVec.eq_of_toNat_eq
  have hpow := two_pow_pred hw
  have hpos := Nat.two_pow_pos (w - 1)
  rw [BitVec.toNat_intMax, BitVec.toNat_ofNat, Nat.mod_eq_of_lt (by omega)]

/-- A comparison of doubles that does not overflow. -/
theorem sub_le_add_iff {r b c : Nat} (hr : r < c) (hc : c < 2 ^ w) (hb : b ≤ 1) :
    BitVec.ofNat w c - BitVec.ofNat w r ≤ BitVec.ofNat w r + BitVec.ofNat w b ↔
      c ≤ 2 * r + b := by
  rw [BitVec.ofNat_sub_ofNat_of_le _ _ (by omega) hr.le, ← BitVec.ofNat_add,
    ofNat_le (by omega) (by omega)]
  omega

/-- **One bit more** of the number whose quotient and remainder by `c` the registers hold. -/
theorem advance {x b c : Nat} (hc : 0 < c) (hcw : c < 2 ^ w) (hb : b ≤ 1) :
    (if BitVec.ofNat w c - BitVec.ofNat w (x % c) ≤ BitVec.ofNat w (x % c) + BitVec.ofNat w b then
      (BitVec.ofNat w (x / c) <<< 1 + 1,
        BitVec.ofNat w (x % c) <<< 1 + BitVec.ofNat w b - BitVec.ofNat w c)
    else
      (BitVec.ofNat w (x / c) <<< 1, BitVec.ofNat w (x % c) <<< 1 + BitVec.ofNat w b)) =
      (BitVec.ofNat w ((2 * x + b) / c), BitVec.ofNat w ((2 * x + b) % c)) := by
  have hcond := sub_le_add_iff (Nat.mod_lt x hc) hcw hb
  rw [double_div x hc hb, double_mod x hc hb, ofNat_shiftLeft_one, ofNat_shiftLeft_one]
  by_cases hle : c ≤ 2 * (x % c) + b
  · rw [if_pos (hcond.mpr hle), if_pos hle, if_pos hle, ← BitVec.ofNat_add _ b,
      BitVec.ofNat_sub_ofNat_of_le _ _ hcw hle, BitVec.ofNat_add _ 1]
    rfl
  · rw [if_neg (fun h => hle (hcond.mp h)), if_neg hle, if_neg hle, Nat.add_zero,
      BitVec.ofNat_add _ b]

/-! ## Unsigned division -/

structure UnsignedDivisionByConstantInfo (w : Nat) where
  magic : BitVec w
  isAdd : Bool
  postShift : Nat
  preShift : Nat

namespace Unsigned

/-- One turn of the loop. -/
def step (nc d : BitVec w) (s : Search w) : Search w :=
  let (q1, r1) :=
    if nc - s.r1 ≤ s.r1 then (s.q1 <<< 1 + 1, s.r1 <<< 1 - nc) else (s.q1 <<< 1, s.r1 <<< 1)
  if d - s.r2 ≤ s.r2 + 1 then
    ⟨s.p + 1, q1, r1, s.q2 <<< 1 + 1, s.r2 <<< 1 + 1 - d,
      s.isAdd || decide (BitVec.intMax w ≤ s.q2)⟩
  else
    ⟨s.p + 1, q1, r1, s.q2 <<< 1, s.r2 <<< 1 + 1, s.isAdd || decide (BitVec.intMin w ≤ s.q2)⟩

def delta (d : BitVec w) (s : Search w) : BitVec w := d - 1 - s.r2

/-- The condition of the loop. -/
def again (d : BitVec w) (s : Search w) : Bool :=
  decide (s.p < w * 2) && (decide (s.q1 < delta d s) || s.q1 == delta d s && s.r1 == 0)

def start (nc d : BitVec w) : Search w :=
  ⟨w - 1, BitVec.intMin w / nc, BitVec.intMin w % nc, BitVec.intMax w / d, BitVec.intMax w % d,
    false⟩

/-- `NC`, the largest dividend whose remainder is `D - 1`. -/
def nc (d : BitVec w) (leadingZeros : Nat) : BitVec w :=
  let allOnes := BitVec.allOnes w >>> leadingZeros
  allOnes - (allOnes + 1 - d) % d

def search (d : BitVec w) (leadingZeros : Nat) : Option (Search w) :=
  doWhile (step (nc d leadingZeros) d) (again d) (w + 2) (start (nc d leadingZeros) d)

/-- The registers hold quotient and remainder of `2 ^ p` by `c` and of `2 ^ p - 1` by `d`. -/
structure Tracks (c d : Nat) (s : Search w) : Prop where
  q1 : s.q1 = .ofNat w (2 ^ s.p / c)
  r1 : s.r1 = .ofNat w (2 ^ s.p % c)
  q2 : s.q2 = .ofNat w ((2 ^ s.p - 1) / d)
  r2 : s.r2 = .ofNat w ((2 ^ s.p - 1) % d)
  isAdd : s.isAdd = decide (2 ^ w ≤ (2 ^ s.p - 1) / d + 1)

theorem intMin_le_ofNat {q : Nat} (hw : 0 < w) (hq : q < 2 ^ w) :
    BitVec.intMin w ≤ BitVec.ofNat w q ↔ 2 ^ w ≤ 2 * q + 1 := by
  have hpow : 2 ^ w = 2 * 2 ^ (w - 1) := by
    rw [← Nat.pow_succ']
    congr 1
    omega
  rw [BitVec.le_def, BitVec.toNat_intMin_of_pos hw, BitVec.toNat_ofNat, Nat.mod_eq_of_lt hq]
  omega

theorem intMax_le_ofNat {q : Nat} (hw : 0 < w) (hq : q < 2 ^ w) :
    BitVec.intMax w ≤ BitVec.ofNat w q ↔ 2 ^ w ≤ 2 * q + 1 + 1 := by
  have hpow : 2 ^ w = 2 * 2 ^ (w - 1) := by
    rw [← Nat.pow_succ']
    congr 1
    omega
  rw [BitVec.le_def, BitVec.toNat_intMax, BitVec.toNat_ofNat, Nat.mod_eq_of_lt hq]
  omega

theorem pow_succ_sub_one (p : Nat) : 2 ^ (p + 1) - 1 = 2 * (2 ^ p - 1) + 1 := by
  have hpos := Nat.two_pow_pos p
  rw [Nat.pow_succ]
  omega

variable {d c : Nat} {s : Search w}

/-- The flag of the next turn. -/
theorem isAdd_step {x : Nat} (hw : 0 < w) (hd : 0 < d) (b : BitVec w)
    (hb : b = if d ≤ 2 * (x % d) + 1 then BitVec.intMax w else BitVec.intMin w) :
    (decide (2 ^ w ≤ x / d + 1) || decide (b ≤ BitVec.ofNat w (x / d))) =
      decide (2 ^ w ≤ (2 * x + 1) / d + 1) := by
  rw [double_div x hd (le_refl 1), ← Bool.decide_or, decide_eq_decide]
  by_cases hq : x / d < 2 ^ w
  · by_cases hle : d ≤ 2 * (x % d) + 1
    · rw [hb, if_pos hle, if_pos hle, intMax_le_ofNat hw hq]
      omega
    · rw [hb, if_neg hle, if_neg hle, intMin_le_ofNat hw hq]
      omega
  · exact ⟨fun _ => by omega, fun _ => Or.inl (by omega)⟩

/-- **A turn goes on to the next power.** -/
theorem Tracks.step (h : Tracks c d s) (hw : 0 < w) (hc : 0 < c) (hcw : c < 2 ^ w) (hd : 0 < d)
    (hdw : d < 2 ^ w) :
    (step (.ofNat w c) (.ofNat w d) s).p = s.p + 1 ∧
      Tracks c d (step (.ofNat w c) (.ofNat w d) s) := by
  have hfirst := advance (x := 2 ^ s.p) hc hcw (Nat.zero_le 1)
  have hsecond := advance (x := 2 ^ s.p - 1) hd hdw (le_refl 1)
  have hcond := sub_le_add_iff (Nat.mod_lt (2 ^ s.p - 1) hd) hdw (le_refl 1)
  have hflag := fun b hb => isAdd_step (x := 2 ^ s.p - 1) (d := d) hw hd b hb
  rw [← h.q1, ← h.r1, Nat.add_zero, ← Nat.pow_succ'] at hfirst
  simp only [BitVec.add_zero] at hfirst
  rw [← h.q2, ← h.r2, ← pow_succ_sub_one] at hsecond
  rw [← h.r2] at hcond
  rw [← h.isAdd, ← h.q2, ← pow_succ_sub_one] at hflag
  unfold Unsigned.step
  rw [hfirst]
  dsimp only
  by_cases hle : d ≤ 2 * ((2 ^ s.p - 1) % d) + 1
  · have hif : BitVec.ofNat w d - s.r2 ≤ s.r2 + 1 := hcond.mpr hle
    rw [if_pos (hcond.mpr hle)] at hsecond
    rw [if_pos hif]
    obtain ⟨hq2, hr2⟩ := Prod.mk.inj hsecond
    exact ⟨rfl, rfl, rfl, hq2, hr2, hflag _ (if_pos hle).symm⟩
  · have hif : ¬ BitVec.ofNat w d - s.r2 ≤ s.r2 + 1 := fun hn => hle (hcond.mp hn)
    rw [if_neg (fun hn => hle (hcond.mp hn))] at hsecond
    rw [if_neg hif]
    obtain ⟨hq2, hr2⟩ := Prod.mk.inj hsecond
    exact ⟨rfl, rfl, rfl, hq2, hr2, hflag _ (if_neg hle).symm⟩

/-! ### Where the loop starts -/

theorem tracks_start (hw : 0 < w) (hcw : c < 2 ^ w) (hdw : d < 2 ^ w) :
    Tracks c d (start (.ofNat w c) (.ofNat w d)) := by
  have hpow := two_pow_pred hw
  have hpos := Nat.two_pow_pos (w - 1)
  unfold start
  rw [intMin_eq hw, intMax_eq hw, ofNat_div_ofNat (by omega) hcw, ofNat_mod_ofNat (by omega) hcw,
    ofNat_div_ofNat (by omega) hdw, ofNat_mod_ofNat (by omega) hdw]
  refine ⟨rfl, rfl, rfl, rfl, ?_⟩
  have hle := Nat.div_le_self (2 ^ (w - 1) - 1) d
  symm
  rw [decide_eq_false_iff_not]
  dsimp only
  omega

/-- `NC` is the critical number of the dividends. -/
theorem nc_eq {d : BitVec w} {lz : Nat} (hlz : lz ≤ w) (hd : 0 < d.toNat)
    (hlt : d.toNat < 2 ^ (w - lz)) :
    nc d lz = BitVec.ofNat w (critical (2 ^ (w - lz) - 1) d.toNat) := by
  have hle : 2 ^ (w - lz) ≤ 2 ^ w := Nat.pow_le_pow_right (by decide) (by omega)
  have hones : BitVec.allOnes w >>> lz = BitVec.ofNat w (2 ^ (w - lz) - 1) := by
    apply BitVec.eq_of_toNat_eq
    have hpos := Nat.two_pow_pos lz
    have hmul : 2 ^ w = 2 ^ (w - lz) * 2 ^ lz := by
      rw [← Nat.pow_add]
      congr 1
      omega
    rw [BitVec.toNat_ushiftRight, BitVec.toNat_allOnes, BitVec.toNat_ofNat,
      Nat.mod_eq_of_lt (by omega), Nat.shiftRight_eq_div_pow]
    refine Nat.div_eq_of_lt_le ?_ ?_
    · rw [Nat.sub_mul, Nat.one_mul, ← hmul]
      omega
    · rw [Nat.sub_add_cancel (Nat.two_pow_pos _), ← hmul]
      omega
  have hpos := Nat.two_pow_pos (w - lz)
  have hself : BitVec.ofNat w d.toNat = d := by rw [BitVec.ofNat_toNat, BitVec.setWidth_eq]
  have hsucc : BitVec.ofNat w (2 ^ (w - lz) - 1) + 1 = BitVec.ofNat w (2 ^ (w - lz)) := by
    have hadd := BitVec.ofNat_add (n := w) (2 ^ (w - lz) - 1) 1
    rw [Nat.sub_add_cancel hpos] at hadd
    exact hadd.symm
  have hrem : (BitVec.ofNat w (2 ^ (w - lz)) - d) % d =
      BitVec.ofNat w (2 ^ (w - lz) % d.toNat) := by
    rw [Nat.mod_eq_sub_mod hlt.le, ← ofNat_mod_ofNat (by omega) (by omega),
      ← BitVec.ofNat_sub_ofNat_of_le _ _ (by omega) hlt.le, hself]
  have hmodlt := Nat.mod_lt (2 ^ (w - lz)) hd
  unfold nc critical
  dsimp only
  rw [hones, hsucc, hrem, BitVec.ofNat_sub_ofNat_of_le _ _ (by omega) (by omega),
    Nat.sub_add_cancel hpos]

/-! ### Where the loop stops -/

/-- What the multiplier `(2 ^ p - 1) / d + 1` is above `2 ^ p / d`. -/
def error (d p : Nat) : Nat := d - 1 - (2 ^ p - 1) % d

theorem multiplier_mul {p : Nat} (hd : 0 < d) : ((2 ^ p - 1) / d + 1) * d = 2 ^ p + error d p := by
  have hsplit := Nat.div_add_mod (2 ^ p - 1) d
  have hlt := Nat.mod_lt (2 ^ p - 1) hd
  have hpos := Nat.two_pow_pos p
  rw [Nat.mul_comm d] at hsplit
  rw [Nat.add_mul, Nat.one_mul, error]
  omega

/-- What brought the loop to `p`: its first turn, or too little precision before it. For a divisor
with the high bit set the comparison may be off by an overflow. -/
def Caused (c d w p : Nat) : Prop := p = w ∨ 2 ^ (p - 1) ≤ c * error d (p - 1) ∨ 2 ^ (w - 1) < d

/-- The loop invariant. -/
structure Turn (c d : Nat) (s : Search w) : Prop where
  tracks : Tracks c d s
  lower : w ≤ s.p
  upper : s.p ≤ w * 2
  caused : Caused c d w s.p
  exact : 2 ^ s.p / c < 2 ^ w ∨ 2 ^ (w - 1) < d

theorem delta_eq (h : Tracks c d s) (hd : 0 < d) (hdw : d < 2 ^ w) :
    delta (.ofNat w d) s = BitVec.ofNat w (error d s.p) := by
  have hlt := Nat.mod_lt (2 ^ s.p - 1) hd
  have hone : BitVec.ofNat w d - 1 = BitVec.ofNat w (d - 1) :=
    BitVec.ofNat_sub_ofNat_of_le d 1 (by omega) hd
  rw [delta, h.r2, hone, BitVec.ofNat_sub_ofNat_of_le _ _ (by omega) (by omega), error]

/-- **What the condition of the loop says**, where `Q1` has not overflowed. -/
theorem le_of_again (h : Tracks c d s) (hc : 0 < c) (hcw : c < 2 ^ w) (hd : 0 < d) (hdw : d < 2 ^ w)
    (hexact : 2 ^ s.p / c < 2 ^ w) (hagain : again (.ofNat w d) s = true) :
    s.p < w * 2 ∧ 2 ^ s.p ≤ c * error d s.p := by
  have hsplit := Nat.div_add_mod (2 ^ s.p) c
  have hmod := Nat.mod_lt (2 ^ s.p) hc
  have herr : error d s.p < 2 ^ w := by
    unfold error
    omega
  rw [again, delta_eq h hd hdw, h.q1, h.r1, Bool.and_eq_true, decide_eq_true_eq, Bool.or_eq_true,
    decide_eq_true_eq, Bool.and_eq_true, beq_iff_eq, beq_iff_eq, ofNat_lt hexact herr,
    ofNat_inj hexact herr] at hagain
  refine ⟨hagain.1, ?_⟩
  rcases hagain.2 with hlt | ⟨heq, hzero⟩
  · have hmul := Nat.mul_le_mul_left c (Nat.succ_le_of_lt hlt)
    rw [Nat.mul_succ] at hmul
    omega
  · have hr : 2 ^ s.p % c = 0 := (ofNat_inj (by omega) (Nat.two_pow_pos w)).mp hzero
    rw [← heq]
    omega

/-- **Where the loop stops the multiplier is precise**, overflow or not. -/
theorem lt_of_not_again (h : Tracks c d s) (hc : 0 < c) (hcw : c < 2 ^ w) (hd : 0 < d)
    (hdw : d < 2 ^ w) (hagain : again (.ofNat w d) s = false) : c * error d s.p < 2 ^ s.p := by
  have hsplit := Nat.div_add_mod (2 ^ s.p) c
  have hmod := Nat.mod_lt (2 ^ s.p) hc
  have herr : error d s.p < 2 ^ w := by
    unfold error
    omega
  rw [again, delta_eq h hd hdw, Bool.and_eq_false_iff, decide_eq_false_iff_not] at hagain
  rcases hagain with hp | hcmp
  · have hpow : 2 ^ w * 2 ^ w ≤ 2 ^ s.p := by
      rw [← Nat.pow_add]
      exact Nat.pow_le_pow_right (by decide) (by omega)
    exact (Nat.mul_lt_mul'' hcw herr).trans_le hpow
  · rw [Bool.or_eq_false_iff, decide_eq_false_iff_not, h.q1, BitVec.lt_def, BitVec.toNat_ofNat,
      BitVec.toNat_ofNat, Nat.mod_eq_of_lt herr] at hcmp
    have hle : error d s.p ≤ 2 ^ s.p / c :=
      (Nat.le_of_not_lt hcmp.1).trans (Nat.mod_le _ _)
    rcases Nat.eq_or_lt_of_le hle with heq | hlt
    · have hr : 2 ^ s.p % c ≠ 0 := by
        intro hzero
        have hr1 : s.r1 = 0 := by
          rw [h.r1, hzero]
          rfl
        rw [hr1, heq, beq_self_eq_true, beq_self_eq_true] at hcmp
        exact absurd hcmp.2 (by decide)
      rw [heq]
      omega
    · have hmul := Nat.mul_le_mul_left c (Nat.succ_le_of_lt hlt)
      rw [Nat.mul_succ] at hmul
      omega

theorem p_lt_of_again {d : BitVec w} (h : again d s = true) : s.p < w * 2 := by
  rw [again, Bool.and_eq_true, decide_eq_true_eq] at h
  exact h.1

theorem error_lt {p : Nat} (hd : 0 < d) : error d p < d := by
  unfold error
  omega

/-- A number that is not below a precision it lacks is small. -/
theorem pow_succ_div_lt {p : Nat} (hc : 0 < c) (hd : 0 < d) (hle : 2 ^ p ≤ c * error d p)
    (hdw : 2 * d ≤ 2 ^ w) : 2 ^ (p + 1) / c < 2 ^ w := by
  have herr := error_lt (p := p) hd
  have hmul : 2 ^ (p + 1) ≤ c * (2 * error d p) := by
    rw [Nat.pow_succ]
    calc 2 ^ p * 2 ≤ c * error d p * 2 := Nat.mul_le_mul_right 2 hle
      _ = c * (2 * error d p) := by ring
  have hdiv : 2 ^ (p + 1) / c ≤ 2 * error d p := Nat.div_le_of_le_mul hmul
  omega

/-- **One turn keeps the invariant.** -/
theorem Turn.step (h : Turn c d s) (hw : 0 < w) (hc : 0 < c) (hcw : c < 2 ^ w) (hd : 0 < d)
    (hdw : d < 2 ^ w) (hagain : again (.ofNat w d) s = true) :
    Turn c d (step (.ofNat w c) (.ofNat w d) s) ∧
      (Unsigned.step (.ofNat w c) (.ofNat w d) s).p = s.p + 1 := by
  obtain ⟨hp, htracks⟩ := h.tracks.step hw hc hcw hd hdw
  have hlt := p_lt_of_again hagain
  have hlower := h.lower
  have hpow := two_pow_pred hw
  refine ⟨⟨htracks, by omega, by omega, ?_, ?_⟩, hp⟩
  · rw [hp, Caused, Nat.add_sub_cancel]
    rcases h.exact with hexact | hlarge
    · exact Or.inr (Or.inl (le_of_again h.tracks hc hcw hd hdw hexact hagain).2)
    · exact Or.inr (Or.inr hlarge)
  · rw [hp]
    rcases h.exact with hexact | hlarge
    · by_cases hlarge : 2 ^ (w - 1) < d
      · exact Or.inr hlarge
      · have hle := (le_of_again h.tracks hc hcw hd hdw hexact hagain).2
        exact Or.inl (pow_succ_div_lt hc hd hle (by omega))
    · exact Or.inr hlarge

/-- The critical dividend of a divisor above one is above one. -/
theorem two_le_critical {k : Nat} (hd : 1 < d) (hlt : d < 2 ^ k) : 2 ≤ critical (2 ^ k - 1) d := by
  have hle := le_critical_succ (n := 2 ^ k - 1) (d := d) (by omega) (by omega)
  by_cases htwo : d = 2
  · subst htwo
    have hk : 2 ≤ k := by
      by_contra hlow
      have hone : k = 0 ∨ k = 1 := by omega
      rcases hone with rfl | rfl <;> exact absurd hlt (by decide)
    have hfour : 2 ^ 2 ≤ 2 ^ k := Nat.pow_le_pow_right (by decide) hk
    unfold critical
    omega
  · omega

/-- **The loop stops**, and the multiplier is precise where it does. -/
theorem search_spec {d : BitVec w} {lz : Nat} (hw : 1 < w) (hlz : lz ≤ w) (hd : 1 < d.toNat)
    (hlt : d.toNat < 2 ^ (w - lz)) :
    ∃ s, search d lz = some s ∧ Turn (critical (2 ^ (w - lz) - 1) d.toNat) d.toNat s ∧
      critical (2 ^ (w - lz) - 1) d.toNat * error d.toNat s.p < 2 ^ s.p := by
  have hle : 2 ^ (w - lz) ≤ 2 ^ w := Nat.pow_le_pow_right (by decide) (by omega)
  have hpos := Nat.two_pow_pos (w - lz)
  have hc := two_le_critical hd hlt
  have hcw : critical (2 ^ (w - lz) - 1) d.toNat < 2 ^ w :=
    (critical_le).trans_lt (by omega)
  have hself : BitVec.ofNat w d.toNat = d := by rw [BitVec.ofNat_toNat, BitVec.setWidth_eq]
  have hd0 : 0 < d.toNat := by omega
  have hdw := d.isLt
  obtain ⟨hp, htracks⟩ := (tracks_start (by omega) hcw hdw).step (by omega) (by omega) hcw hd0 hdw
  have hpw : w - 1 + 1 = w := by omega
  have hstart : (start (BitVec.ofNat w (critical (2 ^ (w - lz) - 1) d.toNat))
      (BitVec.ofNat w d.toNat)).p = w - 1 := rfl
  rw [hstart, hpw] at hp
  have hfirst := Turn.mk htracks (by omega) (by omega) (Or.inl hp) (Or.inl (by
    rw [hp]
    exact Nat.div_lt_self (Nat.two_pow_pos w) hc))
  obtain ⟨s, hs, hturn, hagain⟩ := doWhile_spec (n := w + 2)
    (Turn (critical (2 ^ (w - lz) - 1) d.toNat) d.toNat) (fun s => w * 2 - s.p)
    (fun s hQ hagain => by
      obtain ⟨hQ', hp'⟩ := hQ.step (by omega) (by omega) hcw hd0 hdw hagain
      have hlt' := p_lt_of_again hagain
      exact ⟨hQ', by omega⟩) hfirst (by omega)
  refine ⟨s, ?_, hturn, lt_of_not_again hturn.tracks (by omega) hcw hd0 hdw hagain⟩
  rw [search, nc_eq hlz hd0 hlt]
  rwa [hself] at hs

/-! ### The size of the multiplier -/

section Size

variable {c d : Nat} {s : Search w}

theorem multiplier_le_of_le {p : Nat} (hp : 0 < p) (hd : 0 < d)
    (hle : 2 ^ (p - 1) ≤ c * error d (p - 1)) : (2 ^ p - 1) / d + 1 ≤ 2 * c := by
  have herr := error_lt (p := p - 1) hd
  have hmul := Nat.mul_le_mul_left c herr.le
  have hpow := two_pow_pred hp
  rw [Nat.succ_le_iff, Nat.div_lt_iff_lt_mul hd, Nat.mul_assoc]
  have hpos := Nat.two_pow_pos (p - 1)
  omega

theorem multiplier_lt_of_first (hd : 1 < d) (hw : 0 < w) : (2 ^ w - 1) / d + 1 < 2 ^ w := by
  have hpow := two_pow_pred hw
  have hpos := Nat.two_pow_pos (w - 1)
  have hdiv : (2 ^ w - 1) / d ≤ (2 ^ w - 1) / 2 := Nat.div_le_div_left hd (by decide)
  omega

/-- The multiplier takes one bit more than a word at most. -/
theorem Turn.multiplier_lt (h : Turn c d s) (hw : 1 < w) (hcw : c < 2 ^ w) (hd : 1 < d) :
    (2 ^ s.p - 1) / d + 1 < 2 * 2 ^ w := by
  have hlower := h.lower
  have hd0 : 0 < d := by omega
  rcases h.caused with hp | hle | hlarge
  · have hfirst := multiplier_lt_of_first hd (w := w) (by omega)
    rw [hp]
    omega
  · have hsize := multiplier_le_of_le (by omega) hd0 hle
    omega
  · have hpow := two_pow_pred (w := w) (by omega)
    have hupper : 2 ^ s.p ≤ 2 ^ w * 2 ^ w := by
      rw [← Nat.pow_add]
      exact Nat.pow_le_pow_right (by decide) (by have := h.upper; omega)
    generalize hh : 2 ^ (w - 1) = h at hpow hlarge
    have hpos : 0 < h := hh ▸ Nat.two_pow_pos (w - 1)
    obtain ⟨x, hx⟩ : ∃ x, x + 1 = 4 * h := ⟨4 * h - 1, by omega⟩
    have hdiv : (2 ^ s.p - 1) / d < x := by
      rw [Nat.div_lt_iff_lt_mul hd0]
      calc 2 ^ s.p - 1 < 2 ^ s.p := Nat.sub_lt (Nat.two_pow_pos _) Nat.one_pos
        _ ≤ 4 * h * h := by
          refine hupper.trans_eq ?_
          rw [hpow]
          ring
        _ = x * h + h := by rw [← hx, Nat.succ_mul]
        _ ≤ x * h + x := by omega
        _ = x * (h + 1) := (Nat.mul_succ x h).symm
        _ ≤ x * d := Nat.mul_le_mul_left x hlarge
    omega

/-- It fits the word when the dividends leave a bit free. -/
theorem Turn.multiplier_fits (h : Turn c d s) (hw : 1 < w) (hc : c < 2 ^ (w - 1)) (hd : 1 < d)
    (hdw : d ≤ 2 ^ (w - 1)) : (2 ^ s.p - 1) / d + 1 < 2 ^ w := by
  have hlower := h.lower
  have hpow := two_pow_pred (w := w) (by omega)
  rcases h.caused with hp | hle | hlarge
  · rw [hp]
    exact multiplier_lt_of_first hd (by omega)
  · have hsize := multiplier_le_of_le (by omega) (by omega) hle
    omega
  · omega

/-- The multiplier of a power of two fits the word. -/
theorem Turn.multiplier_fits_pow {k : Nat} (h : Turn c (2 ^ k) s) (hw : 1 < w) (hk : 0 < k)
    (hkw : k < w) : (2 ^ s.p - 1) / 2 ^ k + 1 < 2 ^ w := by
  have hlower := h.lower
  rcases h.caused with hp | hle | hlarge
  · rw [hp]
    exact multiplier_lt_of_first (Nat.one_lt_two_pow (by omega)) (by omega)
  · have hzero : error (2 ^ k) (s.p - 1) = 0 := by
      have hmul := multiplier_mul (d := 2 ^ k) (p := s.p - 1) (Nat.two_pow_pos k)
      have hpow : 2 ^ k ∣ 2 ^ (s.p - 1) := Nat.pow_dvd_pow 2 (by omega)
      have hdvd : 2 ^ k ∣ error (2 ^ k) (s.p - 1) :=
        (Nat.dvd_add_right hpow).mp (hmul ▸ Nat.dvd_mul_left _ _)
      exact Nat.eq_zero_of_dvd_of_lt hdvd (error_lt (Nat.two_pow_pos k))
    rw [hzero, Nat.mul_zero] at hle
    exact absurd hle (Nat.not_le.mpr (Nat.two_pow_pos _))
  · exact absurd hlarge (Nat.not_lt.mpr (Nat.pow_le_pow_right (by decide) (by omega)))

end Size

/-! ### The result -/

/-- `countr_zero`, for a number of `n` bits. -/
def countrZero : Nat → Nat → Nat
  | 0, _ => 0
  | n + 1, x => if x % 2 = 1 then 0 else countrZero n (x / 2) + 1

theorem countrZero_spec {n x : Nat} (hpos : 0 < x) (hlt : x < 2 ^ n) :
    ∃ y, y % 2 = 1 ∧ x = y * 2 ^ countrZero n x := by
  induction n generalizing x with
  | zero =>
    rw [Nat.pow_zero] at hlt
    omega
  | succ n ih =>
    rw [countrZero]
    split
    · rename_i hodd
      exact ⟨x, hodd, (Nat.mul_one x).symm⟩
    · rw [Nat.pow_succ] at hlt
      obtain ⟨y, hy, hx⟩ := ih (x := x / 2) (by omega) (by omega)
      refine ⟨y, hy, ?_⟩
      rw [Nat.pow_succ, ← Nat.mul_assoc, ← hx]
      omega

theorem shifted_lt {d : BitVec w} (h0 : d ≠ 0) (heven : d.getLsbD 0 = false) :
    (d >>> countrZero w d.toNat).toNat < d.toNat := by
  have hpos : 0 < d.toNat := Nat.pos_of_ne_zero fun h => h0 (BitVec.eq_of_toNat_eq (by simpa using h))
  obtain ⟨y, hy, hx⟩ := countrZero_spec hpos d.isLt
  rw [BitVec.toNat_ushiftRight, Nat.shiftRight_eq_div_pow]
  refine Nat.div_lt_self hpos ?_
  refine Nat.one_lt_two_pow fun hzero => ?_
  rw [hzero, Nat.pow_zero, Nat.mul_one] at hx
  have hbit : d.getLsbD 0 = decide (d.toNat % 2 = 1) := by
    rw [BitVec.getLsbD, Nat.testBit_zero]
  rw [hbit, hx, decide_eq_false_iff_not] at heven
  exact heven hy

/-- The end of `get`, without a pre-shift. -/
def info (s : Search w) : Option (UnsignedDivisionByConstantInfo w) :=
  if s.isAdd then
    if 0 < s.p - w then some ⟨s.q2 + 1, true, s.p - w - 1, 0⟩ else none
  else some ⟨s.q2 + 1, false, s.p - w, 0⟩

/-- `UnsignedDivisionByConstantInfo::get`; nothing where an assertion fails. -/
def get (d : BitVec w) (leadingZeros : Nat) (allowEvenDivisorOptimization : Bool) :
    Option (UnsignedDivisionByConstantInfo w) :=
  if h : d = 0 ∨ d = 1 ∨ w ≤ 1 then none
  else if nc d leadingZeros % d ≠ d - 1 then none
  else
    match search d leadingZeros with
    | none => none
    | some s =>
      if heven : s.isAdd = true ∧ d.getLsbD 0 = false ∧ allowEvenDivisorOptimization = true then
        let preShift := countrZero w d.toNat
        have := shifted_lt (fun h0 => h (Or.inl h0)) heven.2.1
        match get (d >>> preShift) (leadingZeros + preShift) true with
        | none => none
        | some r => if !r.isAdd && r.preShift == 0 then some { r with preShift } else none
      else info s
termination_by d.toNat

/-- The quotient that the numbers of `r` give. -/
def quotient (r : UnsignedDivisionByConstantInfo w) (n : Nat) : Nat :=
  let q := n / 2 ^ r.preShift * r.magic.toNat / 2 ^ w
  (if r.isAdd then (n - q) / 2 + q else q) / 2 ^ r.postShift

/-- The numbers divide by `d`, with shifts that stay inside the word. -/
structure Correct (d : BitVec w) (leadingZeros : Nat) (r : UnsignedDivisionByConstantInfo w) :
    Prop where
  preShift_lt : r.preShift < w
  postShift_lt : r.postShift < w
  preShift_eq : r.isAdd = true → r.preShift = 0
  quotient_eq : ∀ n < 2 ^ (w - leadingZeros), quotient r n = n / d.toNat

section Info

variable {c d : Nat} {s : Search w}

theorem Turn.q2_succ (h : Turn c d s) :
    s.q2 + 1 = BitVec.ofNat w ((2 ^ s.p - 1) / d + 1) := by
  rw [h.tracks.q2, BitVec.ofNat_add]
  rfl

/-- The multiplier divides every number that is not beyond the next critical one. -/
theorem multiplier_div (hd : 0 < d) (hc : d ∣ c + 1) (hprecise : c * error d s.p < 2 ^ s.p)
    {n : Nat} (hn : n < c + d) : n * ((2 ^ s.p - 1) / d + 1) / 2 ^ s.p = n / d :=
  mul_div_eq_div hd (multiplier_mul hd) (lt_of_critical hd hc hprecise hn)

theorem Turn.p_lt_of_fits (h : Turn c d s) (hd : 0 < d) (hdw : d < 2 ^ w)
    (hfits : (2 ^ s.p - 1) / d + 1 < 2 ^ w) : s.p < w * 2 := by
  by_contra hge
  have hp : s.p = w + w := by
    have := h.upper
    omega
  have hmul := multiplier_mul (p := s.p) hd
  have hprod := Nat.mul_lt_mul'' hfits hdw
  rw [hp, Nat.pow_add] at hmul hprod
  omega

/-- Where the multiplier takes a bit more, a turn came before. -/
theorem Turn.lt_p_of_not_fits (h : Turn c d s) (hw : 0 < w) (hd : 1 < d)
    (hfits : 2 ^ w ≤ (2 ^ s.p - 1) / d + 1) : w < s.p := by
  have hlower := h.lower
  refine Nat.lt_of_le_of_ne hlower fun heq => ?_
  rw [← heq] at hfits
  exact absurd (multiplier_lt_of_first hd hw) (Nat.not_lt.mpr hfits)

/-- **The numbers of the loop's last turn divide.** -/
theorem Turn.info (h : Turn c d s) (hw : 1 < w) (hd : 1 < d) (hdw : d < 2 ^ w) (hcw : c < 2 ^ w)
    (hc : d ∣ c + 1) (hprecise : c * error d s.p < 2 ^ s.p) :
    ∃ r, info s = some r ∧ r.isAdd = s.isAdd ∧ r.preShift = 0 ∧ r.postShift < w ∧
      ∀ n, n < c + d → quotient r n = n / d := by
  have hlower := h.lower
  have hupper := h.upper
  have hpow : 2 ^ s.p = 2 ^ w * 2 ^ (s.p - w) := by
    rw [← Nat.pow_add]
    congr 1
    omega
  have hdiv := fun n hn => multiplier_div (n := n) (by omega) hc hprecise hn
  have hmagic : (s.q2 + 1).toNat = ((2 ^ s.p - 1) / d + 1) % 2 ^ w := by
    rw [h.q2_succ, BitVec.toNat_ofNat]
  have hflag := h.tracks.isAdd
  generalize hM : (2 ^ s.p - 1) / d + 1 = M at hdiv hmagic hflag
  cases hadd : s.isAdd with
  | false =>
    rw [hadd, eq_comm, decide_eq_false_iff_not, Nat.not_le] at hflag
    have hp := h.p_lt_of_fits (by omega) hdw (by omega)
    refine ⟨⟨s.q2 + 1, false, s.p - w, 0⟩, by rw [Unsigned.info, hadd]; rfl, rfl, rfl,
      by dsimp only; omega, fun n hn => ?_⟩
    rw [quotient]
    dsimp only
    rw [hmagic, Nat.mod_eq_of_lt hflag, Nat.pow_zero, Nat.div_one, if_neg (by decide),
      Nat.div_div_eq_div_mul, ← hpow, hdiv n hn]
  | true =>
    rw [hadd, eq_comm, decide_eq_true_eq] at hflag
    have hp := h.lt_p_of_not_fits (by omega) hd (by omega)
    have hlt := h.multiplier_lt hw hcw hd
    have hpos : 0 < s.p - w := by omega
    refine ⟨⟨s.q2 + 1, true, s.p - w - 1, 0⟩, by rw [Unsigned.info, hadd, if_pos hpos]; rfl, rfl,
      rfl, by dsimp only; omega, fun n hn => ?_⟩
    obtain ⟨m, rfl⟩ := Nat.exists_eq_add_of_le hflag
    have hm : m < 2 ^ w := by omega
    have hshift : 2 ^ w * (2 * 2 ^ (s.p - w - 1)) = 2 ^ s.p := by
      rw [hpow, ← two_pow_pred hpos]
    rw [quotient]
    dsimp only
    rw [hmagic, Nat.add_mod_left, Nat.mod_eq_of_lt hm, Nat.pow_zero, Nat.div_one, if_pos rfl,
      half_sum (Nat.two_pow_pos w) hm, Nat.div_div_eq_div_mul, Nat.div_div_eq_div_mul, hshift,
      hdiv n hn]

end Info

/-! ### Even divisors -/

section Get

variable {d : BitVec w} {leadingZeros : Nat}

theorem getLsbD_zero (d : BitVec w) : d.getLsbD 0 = decide (d.toNat % 2 = 1) := by
  rw [BitVec.getLsbD, Nat.testBit_zero]

theorem asserted (hw : 1 < w) (hd : 1 < d.toNat) : ¬ (d = 0 ∨ d = 1 ∨ w ≤ 1) := by
  rintro (rfl | rfl | hle)
  · exact absurd hd (by simp)
  · have hone : BitVec.toNat (1 : BitVec w) = 1 % 2 ^ w := rfl
    have hle := Nat.mod_le 1 (2 ^ w)
    omega
  · omega

theorem nc_mod (hlz : leadingZeros ≤ w) (hd : 1 < d.toNat)
    (hlt : d.toNat < 2 ^ (w - leadingZeros)) : nc d leadingZeros % d = d - 1 := by
  have hle : 2 ^ (w - leadingZeros) ≤ 2 ^ w := Nat.pow_le_pow_right (by decide) (by omega)
  have hcw : critical (2 ^ (w - leadingZeros) - 1) d.toNat < 2 ^ w :=
    (critical_le).trans_lt (by omega)
  have hself : BitVec.ofNat w d.toNat = d := by rw [BitVec.ofNat_toNat, BitVec.setWidth_eq]
  have hsub : BitVec.ofNat w d.toNat - 1 = BitVec.ofNat w (d.toNat - 1) :=
    BitVec.ofNat_sub_ofNat_of_le d.toNat 1 (by omega) (by omega)
  have hmod := critical_mod (n := 2 ^ (w - leadingZeros) - 1) (d := d.toNat) (by omega) (by omega)
  rw [hself] at hsub
  rw [nc_eq hlz (by omega) hlt, hsub, ← hmod, ← ofNat_mod_ofNat hcw d.isLt, hself]

theorem get_eq_info {allow : Bool} (hw : 1 < w) (hlz : leadingZeros ≤ w) (hd : 1 < d.toNat)
    (hlt : d.toNat < 2 ^ (w - leadingZeros)) {s : Search w} (hs : search d leadingZeros = some s)
    (hnot : ¬ (s.isAdd = true ∧ d.getLsbD 0 = false ∧ allow = true)) :
    get d leadingZeros allow = info s := by
  rw [get, dif_neg (asserted hw hd), if_neg (not_not.mpr (nc_mod hlz hd hlt)), hs]
  exact dif_neg hnot

theorem get_eq_shifted {allow : Bool} (hw : 1 < w) (hlz : leadingZeros ≤ w) (hd : 1 < d.toNat)
    (hlt : d.toNat < 2 ^ (w - leadingZeros)) {s : Search w} (hs : search d leadingZeros = some s)
    (heven : s.isAdd = true ∧ d.getLsbD 0 = false ∧ allow = true)
    {r : UnsignedDivisionByConstantInfo w}
    (hr : get (d >>> countrZero w d.toNat) (leadingZeros + countrZero w d.toNat) true = some r)
    (hadd : r.isAdd = false) (hpre : r.preShift = 0) :
    get d leadingZeros allow = some { r with preShift := countrZero w d.toNat } := by
  rw [get, dif_neg (asserted hw hd), if_neg (not_not.mpr (nc_mod hlz hd hlt)), hs]
  dsimp only
  rw [dif_pos heven, hr]
  dsimp only
  rw [hadd, hpre]
  rfl

/-- The numbers for the odd part of a divisor, where the pre-shift leaves a bit free. -/
theorem get_odd (hw : 1 < w) (hlz : leadingZeros ≤ w) (hlz0 : 0 < leadingZeros)
    (hd : 1 < d.toNat) (hodd : d.toNat % 2 = 1) (hlt : d.toNat < 2 ^ (w - leadingZeros)) :
    ∃ r, get d leadingZeros true = some r ∧ r.isAdd = false ∧ r.preShift = 0 ∧ r.postShift < w ∧
      ∀ n < 2 ^ (w - leadingZeros), quotient r n = n / d.toNat := by
  obtain ⟨s, hs, hturn, hprecise⟩ := search_spec hw hlz hd hlt
  have hle : 2 ^ (w - leadingZeros) ≤ 2 ^ (w - 1) := Nat.pow_le_pow_right (by decide) (by omega)
  have hle' : 2 ^ (w - 1) ≤ 2 ^ w := Nat.pow_le_pow_right (by decide) (by omega)
  have hpos := Nat.two_pow_pos (w - leadingZeros)
  have hc : critical (2 ^ (w - leadingZeros) - 1) d.toNat < 2 ^ (w - 1) :=
    (critical_le).trans_lt (by omega)
  have hfits := hturn.multiplier_fits hw hc hd (by omega)
  have hflag : s.isAdd = false := by
    rw [hturn.tracks.isAdd, decide_eq_false_iff_not]
    omega
  obtain ⟨r, hr, hadd, hpre, hpost, hquot⟩ := hturn.info hw hd d.isLt (by omega)
    (dvd_critical_succ (by omega) (by omega)) hprecise
  refine ⟨r, ?_, hadd.trans hflag, hpre, hpost, fun n hn => hquot n ?_⟩
  · rw [get_eq_info hw hlz hd hlt hs (by rw [hflag]; simp), hr]
  · have hadd := lt_critical_add (n := 2 ^ (w - leadingZeros) - 1) (d := d.toNat) (by omega)
    omega

/-- **`get` returns, and its numbers divide.** -/
theorem get_spec (hw : 1 < w) (hlz : leadingZeros ≤ w) (hd : 1 < d.toNat)
    (hlt : d.toNat < 2 ^ (w - leadingZeros)) :
    ∃ r, get d leadingZeros true = some r ∧ Correct d leadingZeros r := by
  obtain ⟨s, hs, hturn, hprecise⟩ := search_spec hw hlz hd hlt
  by_cases heven : s.isAdd = true ∧ d.getLsbD 0 = false ∧ true = true
  · obtain ⟨y, hy, hx⟩ := countrZero_spec (n := w) (by omega) d.isLt
    generalize hk : countrZero w d.toNat = k at hx
    have hkpos := Nat.two_pow_pos k
    have hshift : (d >>> k).toNat = y := by
      rw [BitVec.toNat_ushiftRight, Nat.shiftRight_eq_div_pow, hx, Nat.mul_div_cancel _ hkpos]
    have hk0 : 0 < k := by
      refine Nat.pos_of_ne_zero fun hzero => ?_
      rw [getLsbD_zero, decide_eq_false_iff_not, hx, hzero] at heven
      omega
    have hkw : k < w - leadingZeros := by
      have hle : 2 ^ k ≤ y * 2 ^ k := Nat.le_mul_of_pos_left _ (by omega)
      have hlt' : 2 ^ k < 2 ^ (w - leadingZeros) := by omega
      exact (Nat.pow_lt_pow_iff_right (by decide)).mp hlt'
    have hy1 : 1 < y := by
      by_contra hle
      have hone : y = 1 := by omega
      rw [hone, Nat.one_mul] at hx
      have hflag := heven.1
      rw [hx] at hturn
      rw [hturn.tracks.isAdd, decide_eq_true_eq] at hflag
      have hfits := hturn.multiplier_fits_pow hw hk0 (by omega)
      omega
    have hylt : y < 2 ^ (w - (leadingZeros + k)) := by
      have hpow : 2 ^ (w - leadingZeros) = 2 ^ (w - (leadingZeros + k)) * 2 ^ k := by
        rw [← Nat.pow_add]
        congr 1
        omega
      rw [hx, hpow] at hlt
      exact Nat.lt_of_mul_lt_mul_right hlt
    obtain ⟨r, hr, hadd, hpre, hpost, hquot⟩ := get_odd (d := d >>> k) hw
      (show leadingZeros + k ≤ w by omega) (by omega) (by omega) (by omega) (by omega)
    refine ⟨{ r with preShift := k }, ?_, ⟨by dsimp only; omega, hpost, ?_, ?_⟩⟩
    · rw [← hk] at hr ⊢
      exact get_eq_shifted hw hlz hd hlt hs heven hr hadd hpre
    · intro h
      rw [hadd] at h
      exact absurd h (by decide)
    · intro n hn
      have hnk : n / 2 ^ k < 2 ^ (w - (leadingZeros + k)) := by
        rw [Nat.div_lt_iff_lt_mul hkpos, ← Nat.pow_add]
        have hexp : w - (leadingZeros + k) + k = w - leadingZeros := by omega
        rwa [hexp]
      have hq := hquot _ hnk
      rw [hshift, Nat.div_div_eq_div_mul, Nat.mul_comm (2 ^ k), ← hx] at hq
      rw [← hq]
      simp only [quotient, hadd, hpre, Nat.pow_zero, Nat.div_one, Bool.false_eq_true, if_false]
  · have hpos := Nat.two_pow_pos (w - leadingZeros)
    have hle : 2 ^ (w - leadingZeros) ≤ 2 ^ w := Nat.pow_le_pow_right (by decide) (by omega)
    have hc : critical (2 ^ (w - leadingZeros) - 1) d.toNat < 2 ^ w :=
      (critical_le).trans_lt (by omega)
    obtain ⟨r, hr, hadd, hpre, hpost, hquot⟩ := hturn.info hw hd d.isLt hc
      (dvd_critical_succ (by omega) (by omega)) hprecise
    refine ⟨r, ?_, ⟨by omega, hpost, fun _ => hpre, fun n hn => hquot n ?_⟩⟩
    · rw [get_eq_info hw hlz hd hlt hs heven, hr]
    · have hnext := lt_critical_add (n := 2 ^ (w - leadingZeros) - 1) (d := d.toNat) (by omega)
      omega

end Get

end Unsigned

end RvLlvm.CodeGen
