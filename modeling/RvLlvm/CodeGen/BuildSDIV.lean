import Mathlib.Tactic.LinearCombination
import RvLlvm.CodeGen.SignedDivision

/-!
# Signed division by a constant

Model of one lane of `TargetLowering::BuildSDIV`
(`llvm/lib/CodeGen/SelectionDAG/TargetLowering.cpp:5956-6076`), without the `exact` flag. The
product is formed in `m` bits: twice the word for `MULHS` and `SMUL_LOHI`, the wider type otherwise.
`SelectionDAG::getConstant` takes its value as 64 bits and extends it by zeros.

* `divides_iff`: a lane divides every dividend exactly when the word has at most 64 bits or the
  dividend is not subtracted.
* `not_divides_wide`: for 128 bits and the divisor minus one it does not.
-/

namespace RvLlvm.CodeGen.BuildSDIV

open RvLlvm.Support.MagicDiv Signed

variable {w : Nat}

/-- The constants of a lane. -/
structure Lane (w : Nat) where
  magicFactor : BitVec w
  factor : BitVec w
  shift : Nat
  shiftMask : BitVec w

/-- `SelectionDAG::getConstant` of an `int`. -/
def getConstant (w : Nat) (val : Int) : BitVec w := BitVec.ofNat w (BitVec.ofInt 64 val).toNat

/-- `BuildSDIVPattern`. -/
def buildSDIVPattern (divisor : BitVec w) : Option (Lane w) :=
  if divisor = 0 then none
  else do
    let magics ← get divisor
    if divisor = 1 ∨ divisor = BitVec.allOnes w then
      some ⟨0, getConstant w divisor.toInt, 0, getConstant w 0⟩
    else
      let numeratorFactor : Int :=
        if 0 < divisor.toInt ∧ magics.magic.msb = true then 1
        else if divisor.msb = true ∧ 0 < magics.magic.toInt then -1
        else 0
      some ⟨magics.magic, getConstant w numeratorFactor, magics.shiftAmount, getConstant w (-1)⟩

/-- `GetMULHS` in `m` bits. -/
def getMULHS (m : Nat) (x y : BitVec w) : BitVec w :=
  ((x.signExtend m * y.signExtend m) >>> w).setWidth w

/-- The nodes of a lane. -/
def Lane.run (lane : Lane w) (m : Nat) (n : BitVec w) : BitVec w :=
  let q := getMULHS m n lane.magicFactor
  let factor := n * lane.factor
  let q := q + factor
  let q := q.sshiftRight lane.shift
  let t := q >>> (w - 1)
  let t := t &&& lane.shiftMask
  q + t

/-! ## The nodes as integers -/

theorem getMULHS_eq {m : Nat} (hm : w * 2 ≤ m) (x y : BitVec w) :
    getMULHS m x y = BitVec.ofInt w (x.toInt * y.toInt / (2 ^ w : Nat)) := by
  have hmul : x.signExtend m * y.signExtend m = BitVec.ofInt m (x.toInt * y.toInt) := by
    rw [BitVec.ofInt_mul]
    rfl
  have hpow : (2 : Int) ^ m = 2 ^ w * 2 ^ (m - w) := by
    rw [← pow_add]
    congr 1
    omega
  have hdvd : (2 : Int) ^ w ∣ 2 ^ (m - w) := pow_dvd_pow 2 (by omega)
  have hpos : (0 : Int) < 2 ^ w := by positivity
  have hnonneg : 0 ≤ x.toInt * y.toInt % 2 ^ m := Int.emod_nonneg _ (by positivity)
  apply BitVec.eq_of_toNat_eq
  rw [getMULHS, hmul, BitVec.toNat_setWidth, BitVec.toNat_ushiftRight, BitVec.toNat_ofInt,
    BitVec.toNat_ofInt, Nat.shiftRight_eq_div_pow]
  zify
  rw [Int.toNat_of_nonneg hnonneg, Int.toNat_of_nonneg (Int.emod_nonneg _ hpos.ne'), hpow,
    emod_ediv _ hpos, Int.emod_emod_of_dvd _ hdvd]

/-- The sign bit, as a word. -/
theorem sign_bit (hw : 0 < w) (x : BitVec w) :
    x >>> (w - 1) = BitVec.ofNat w (if x.toInt < 0 then 1 else 0) := by
  have hpow := two_pow_pred hw
  have hpos := Nat.two_pow_pos (w - 1)
  have hlt := x.isLt
  have hsign := BitVec.toInt_eq_toNat_cond x
  apply BitVec.eq_of_toNat_eq
  rw [BitVec.toNat_ushiftRight, Nat.shiftRight_eq_div_pow, BitVec.toNat_ofNat]
  by_cases hneg : x.toInt < 0
  · have hge : 2 ^ (w - 1) ≤ x.toNat := by
      by_contra hlow
      rw [if_pos (by omega)] at hsign
      omega
    rw [if_pos hneg, Nat.mod_eq_of_lt (by omega)]
    exact Nat.div_eq_of_lt_le (by omega) (by omega)
  · have hlow : x.toNat < 2 ^ (w - 1) := by
      by_contra hge
      rw [if_neg (by omega)] at hsign
      omega
    rw [if_neg hneg, Nat.zero_mod]
    exact Nat.div_eq_of_lt hlow

/-! ## Constants -/

theorem getConstant_of_nonneg {k : Nat} (hk : k < 2 ^ 64) : getConstant w k = BitVec.ofNat w k := by
  rw [getConstant, BitVec.ofInt_natCast, BitVec.toNat_ofNat, Nat.mod_eq_of_lt hk]

theorem getConstant_neg_one : getConstant w (-1) = BitVec.ofNat w (2 ^ 64 - 1) := rfl

/-- Minus one is extended by zeros. -/
theorem getConstant_neg_one_of_le (hw : w ≤ 64) : getConstant w (-1) = BitVec.ofInt w (-1) := by
  have hdvd : 2 ^ w ∣ 2 ^ 64 := Nat.pow_dvd_pow 2 hw
  have hpos := Nat.two_pow_pos w
  have hsum : BitVec.ofNat w (2 ^ 64 - 1) + BitVec.ofNat w 1 = 0 := by
    rw [← BitVec.ofNat_add, Nat.sub_add_cancel (by decide)]
    apply BitVec.eq_of_toNat_eq
    rw [BitVec.toNat_ofNat, Nat.mod_eq_zero_of_dvd hdvd]
    rfl
  have hneg : BitVec.ofInt w (-1) + BitVec.ofNat w 1 = 0 := by
    rw [← BitVec.ofInt_natCast, ← BitVec.ofInt_add]
    rfl
  rw [getConstant_neg_one]
  exact (BitVec.add_left_inj _).mp (hsum.trans hneg.symm)

/-- The mask keeps the sign bit. -/
theorem and_mask (hw : 0 < w) (b : Prop) [Decidable b] :
    BitVec.ofNat w (if b then 1 else 0) &&& getConstant w (-1) =
      BitVec.ofNat w (if b then 1 else 0) := by
  have hdvd : 2 ∣ 2 ^ w := dvd_pow_self 2 (by omega)
  have hpow := Nat.one_lt_two_pow (n := w) (by omega)
  have hodd : (getConstant w (-1)).toNat % 2 = 1 := by
    rw [getConstant_neg_one, BitVec.toNat_ofNat, Nat.mod_mod_of_dvd _ hdvd]
    rfl
  apply BitVec.eq_of_toNat_eq
  rw [BitVec.toNat_and, BitVec.toNat_ofNat]
  split
  · rw [Nat.mod_eq_of_lt (by omega), Nat.one_and_eq_mod_two, hodd]
  · rw [Nat.zero_mod, Nat.zero_and]

/-! ## A lane -/

section Lane

variable {m : Nat} {lane : Lane w} {n : BitVec w}

/-- What the last nodes make of the sum `y` of product and dividend. -/
theorem run_of_sum (hw : 0 < w) (hmask : lane.shiftMask = getConstant w (-1)) {y : Int}
    (hy : getMULHS m n lane.magicFactor + n * lane.factor = BitVec.ofInt w y)
    (hlo : -2 ^ (w - 1) ≤ y) (hhi : y < 2 ^ (w - 1)) :
    (lane.run m n).toInt =
      y / (2 ^ lane.shift : Nat) + if y / (2 ^ lane.shift : Nat) < 0 then 1 else 0 := by
  have hq : ((BitVec.ofInt w y).sshiftRight lane.shift).toInt = y / (2 ^ lane.shift : Nat) := by
    rw [BitVec.toInt_sshiftRight, BitVec.toInt_ofInt_eq_self hw hlo hhi, Int.shiftRight_eq_div_pow]
  have hlt := BitVec.toInt_lt (x := (BitVec.ofInt w y).sshiftRight lane.shift)
  have hle := BitVec.le_toInt ((BitVec.ofInt w y).sshiftRight lane.shift)
  rw [hq] at hlt hle
  have hself : (BitVec.ofInt w y).sshiftRight lane.shift =
      BitVec.ofInt w (y / (2 ^ lane.shift : Nat)) := by
    rw [← hq, BitVec.ofInt_toInt]
  have hpos : (0 : Int) < 2 ^ (w - 1) := by positivity
  unfold Lane.run
  dsimp only
  rw [hy, sign_bit hw, hmask, and_mask hw, hself, BitVec.toInt_ofInt_eq_self hw hle hlt,
    ← BitVec.ofInt_natCast, ← BitVec.ofInt_add]
  split
  · rw [BitVec.toInt_ofInt_eq_self hw (by omega) (by omega)]
    rfl
  · rw [BitVec.toInt_ofInt_eq_self hw (by omega) (by omega)]
    rfl

/-- **A lane divides** if its product and factor make up the multiplier. -/
theorem run_eq_tdiv {d : BitVec w} (hw : 3 ≤ w) (hm : w * 2 ≤ m) (h0 : d ≠ 0)
    (hd : 1 < d.abs.toNat) {p : Nat} (hleast : Least d p)
    (hfits : 2 ^ p / d.abs.toNat + 1 < 2 ^ w) {f : Int} (hfactor : lane.factor = BitVec.ofInt w f)
    (hmagic : lane.magicFactor.toInt + (2 ^ w : Nat) * f =
      (if d.msb then -1 else 1) * (2 ^ p / d.abs.toNat + 1 : Nat))
    (hshift : lane.shift = p - w) (hmask : lane.shiftMask = getConstant w (-1)) :
    (lane.run m n).toInt = n.toInt.tdiv d.toInt := by
  have S := setting hw h0
  have hlower := hleast.lower
  have hpow : ((2 ^ w : Nat) : Int) = 2 * 2 ^ (w - 1) := by
    exact_mod_cast congrArg (Nat.cast (R := Int)) S.pow_eq
  have hposw : (0 : Int) < (2 ^ w : Nat) := by exact_mod_cast Nat.two_pow_pos w
  have hlt := n.toInt_lt
  have hle := n.le_toInt
  generalize hx : (if d.msb then -n.toInt else n.toInt) = x
  have hxlo : -2 ^ (w - 1) ≤ x ∧ x ≤ 2 ^ (w - 1) := by
    rw [← hx]
    split <;> omega
  generalize hM : 2 ^ p / d.abs.toNat + 1 = M at hfits hmagic
  have hsum : getMULHS m n lane.magicFactor + n * lane.factor =
      BitVec.ofInt w (x * M / (2 ^ w : Nat)) := by
    have hprod : x * M = n.toInt * lane.magicFactor.toInt + n.toInt * f * (2 ^ w : Nat) := by
      rw [← hx]
      split at hmagic
      · rename_i hsign
        rw [if_pos hsign]
        linear_combination (-n.toInt) * hmagic
      · rename_i hsign
        rw [if_neg hsign]
        linear_combination (-n.toInt) * hmagic
    have hself : BitVec.ofInt w n.toInt = n := BitVec.ofInt_toInt
    rw [hprod, Int.add_mul_ediv_right _ _ hposw.ne', BitVec.ofInt_add, ← getMULHS_eq hm,
      BitVec.ofInt_mul, hself, hfactor]
  have hMpos : (0 : Int) < M := by
    rw [← hM]
    positivity
  have hMlt : (M : Int) < (2 ^ w : Nat) := by exact_mod_cast hfits
  have hhalf : (0 : Int) < 2 ^ (w - 1) := by positivity
  have hlo : -2 ^ (w - 1) ≤ x * M / (2 ^ w : Nat) := by
    rw [Int.le_ediv_iff_mul_le hposw]
    nlinarith
  have hhi : x * M / (2 ^ w : Nat) < 2 ^ (w - 1) := by
    rw [Int.ediv_lt_iff_lt_mul hposw]
    nlinarith
  have hshiftpow : ((2 ^ w : Nat) : Int) * (2 ^ lane.shift : Nat) = (2 ^ p : Nat) := by
    rw [hshift, ← Nat.cast_mul, ← Nat.pow_add]
    congr 2
    omega
  have hxt : x < bound d ∧ (-x < bound d ∨ -x = bound d ∧ bound d = 2 ^ (w - 1)) := by
    have hcast : ((2 ^ (w - 1) : Nat) : Int) = 2 ^ (w - 1) := by norm_cast
    rw [← hx, bound]
    split
    · push_cast
      omega
    · push_cast
      omega
  have htdiv : x.tdiv d.abs.toNat = n.toInt.tdiv d.toInt := by
    have habs := BitVec.toNat_abs (x := d)
    have hsigned := BitVec.toInt_eq_msb_cond d
    have hdlt := d.isLt
    rw [← hx]
    split
    · rename_i hsign
      rw [if_pos hsign] at habs hsigned
      have hd' : d.toInt = -(d.abs.toNat : Int) := by omega
      rw [hd', Int.neg_tdiv, Int.tdiv_neg]
    · rename_i hsign
      rw [if_neg hsign] at habs hsigned
      rw [hsigned, habs]
  rw [run_of_sum (by omega) hmask hsum hlo hhi, Int.ediv_ediv_of_nonneg hposw.le, hshiftpow,
    ← htdiv, ← mul_ediv_add S hd hlower hleast.precise hxt.1 hxt.2, hM]
  congr 1
  have hpos : (0 : Int) < (2 ^ p : Nat) := by exact_mod_cast Nat.two_pow_pos p
  by_cases hneg : x < 0
  · rw [if_pos hneg, if_pos (Int.ediv_neg_of_neg_of_pos (by nlinarith) hpos)]
  · rw [if_neg hneg, if_neg]
    exact Int.not_lt.mpr (Int.ediv_nonneg (by nlinarith) hpos.le)

end Lane

/-! ## Which divisors are right -/

/-- The dividend is subtracted: the divisor is minus one, or it is negative and the multiplier takes
the highest bit of the word. -/
def Subtracts (d : BitVec w) : Prop :=
  d = BitVec.allOnes w ∨
    d.msb = true ∧ ∃ p, Least d p ∧ 2 ^ (w - 1) ≤ 2 ^ p / d.abs.toNat

/-- The sequence for `d` gives the truncated quotient wherever that is defined, with a shift inside
the word. -/
def Divides (m : Nat) (d : BitVec w) : Prop :=
  ∃ lane, buildSDIVPattern d = some lane ∧ lane.shift < w ∧
    ∀ n, ¬ (n = BitVec.intMin w ∧ d = BitVec.allOnes w) →
      (lane.run m n).toInt = n.toInt.tdiv d.toInt

section Divides

variable {d : BitVec w}

theorem one_lt_abs (hw : 3 ≤ w) (h0 : d ≠ 0) (h1 : d ≠ 1) (hones : d ≠ BitVec.allOnes w) :
    1 < d.abs.toNat := by
  have S := setting hw h0
  have hpos := S.pos
  have hpow := S.pow_eq
  have hfour := S.four_le
  have habs := BitVec.toNat_abs (x := d)
  have hlt := d.isLt
  by_contra hle
  have hone : d.abs.toNat = 1 := by omega
  split at habs
  · refine hones (BitVec.eq_of_toNat_eq ?_)
    rw [BitVec.toNat_allOnes]
    omega
  · refine h1 (BitVec.eq_of_toNat_eq ?_)
    have hlit : (1 : BitVec w).toNat = 1 % 2 ^ w := rfl
    rw [hlit, Nat.mod_eq_of_lt (by omega)]
    omega

/-- **The constants of a lane**: what is added to or taken from the product of the magic number
makes it the product of the multiplier. -/
theorem pattern_spec (hw : 3 ≤ w) (h0 : d ≠ 0) (h1 : d ≠ 1) (hones : d ≠ BitVec.allOnes w) :
    ∃ (p : Nat) (lane : Lane w) (f : Int), Least d p ∧ p - w < w - 1 ∧
      2 ^ p / d.abs.toNat + 1 < 2 ^ w ∧ buildSDIVPattern d = some lane ∧
      lane.factor = getConstant w f ∧ (f = 0 ∨ f = 1 ∨ f = -1) ∧ (f = -1 ↔ Subtracts d) ∧
      lane.magicFactor.toInt + (2 ^ w : Nat) * f =
        (if d.msb then -1 else 1) * (2 ^ p / d.abs.toNat + 1 : Nat) ∧
      lane.shift = p - w ∧ lane.shiftMask = getConstant w (-1) := by
  have S := setting hw h0
  have hd := one_lt_abs hw h0 h1 hones
  obtain ⟨p, hleast, hp, hget, hfits⟩ := get_spec hw h0
  have hlt := hfits hd
  have hpow := S.pow_eq
  have hsub : Subtracts d ↔ d.msb = true ∧ 2 ^ (w - 1) < 2 ^ p / d.abs.toNat + 1 := by
    constructor
    · rintro (h | ⟨hsign, p', hp', hle⟩)
      · exact absurd h hones
      · rw [hp'.unique hleast] at hle
        exact ⟨hsign, by omega⟩
    · rintro ⟨hsign, hle⟩
      exact Or.inr ⟨hsign, p, hleast, by omega⟩
  generalize hM : 2 ^ p / d.abs.toNat + 1 = M at hget hlt hsub
  have hMpos : 0 < M := hM ▸ Nat.succ_pos _
  have hor : ¬ (d = 1 ∨ d = BitVec.allOnes w) := fun h => h.elim h1 hones
  have hdsigned := BitVec.toInt_eq_msb_cond d
  have hdlt := d.isLt
  have hdpos : d.toNat ≠ 0 := fun h => h0 (BitVec.eq_of_toNat_eq (by simpa using h))
  have hof : (BitVec.ofNat w M).toNat = M := by
    rw [BitVec.toNat_ofNat, Nat.mod_eq_of_lt hlt]
  cases hsign : d.msb with
  | false =>
    rw [hsign] at hget hdsigned hsub
    have hdpos' : 0 < d.toInt := by
      rw [hdsigned, if_neg (by decide)]
      omega
    have hcond := BitVec.toInt_eq_toNat_cond (BitVec.ofNat w M)
    have hmsb := BitVec.msb_eq_decide (BitVec.ofNat w M)
    rw [hof] at hcond hmsb
    rw [if_neg (by decide)] at hget
    have hnot : ¬ Subtracts d := fun h => absurd (hsub.mp h).1 (by decide)
    by_cases hhigh : 2 ^ (w - 1) ≤ M
    · rw [if_neg (by omega)] at hcond
      refine ⟨p, ⟨BitVec.ofNat w M, getConstant w 1, p - w, getConstant w (-1)⟩, 1, hleast, hp,
        by rwa [hM], ?_, rfl, by omega, ⟨fun h => absurd h (by decide), fun h => absurd h hnot⟩,
        ?_, rfl, rfl⟩
      · rw [buildSDIVPattern, if_neg h0, hget]
        dsimp only [Option.bind_eq_bind, Option.bind_some]
        rw [if_neg hor, if_pos ⟨hdpos', by rw [hmsb, decide_eq_true hhigh]⟩]
      · dsimp only
        rw [hcond, hM, if_neg (by decide)]
        ring
    · rw [if_pos (by omega)] at hcond
      refine ⟨p, ⟨BitVec.ofNat w M, getConstant w 0, p - w, getConstant w (-1)⟩, 0, hleast, hp,
        by rwa [hM], ?_, rfl, by omega, ⟨fun h => absurd h (by decide), fun h => absurd h hnot⟩,
        ?_, rfl, rfl⟩
      · rw [buildSDIVPattern, if_neg h0, hget]
        dsimp only [Option.bind_eq_bind, Option.bind_some]
        rw [if_neg hor, if_neg (fun h => hhigh (by rw [hmsb] at h; exact of_decide_eq_true h.2)),
          if_neg (fun h => by rw [hsign] at h; exact absurd h.1 (by decide))]
      · dsimp only
        rw [hcond, hM, if_neg (by decide)]
        ring
  | true =>
    rw [hsign] at hget hdsigned hsub
    have hdneg : ¬ 0 < d.toInt := by
      rw [hdsigned, if_pos rfl]
      omega
    have hneg : (-BitVec.ofNat w M).toNat = 2 ^ w - M := by
      rw [BitVec.toNat_neg, hof, Nat.mod_eq_of_lt (by omega)]
    have hcond := BitVec.toInt_eq_toNat_cond (-BitVec.ofNat w M)
    rw [hneg] at hcond
    rw [if_pos rfl] at hget
    by_cases hhigh : 2 ^ (w - 1) < M
    · rw [if_pos (by omega)] at hcond
      refine ⟨p, ⟨-BitVec.ofNat w M, getConstant w (-1), p - w, getConstant w (-1)⟩, -1, hleast, hp,
        by rwa [hM], ?_, rfl, by omega, ⟨fun _ => hsub.mpr ⟨rfl, hhigh⟩, fun _ => rfl⟩, ?_, rfl, rfl⟩
      · rw [buildSDIVPattern, if_neg h0, hget]
        dsimp only [Option.bind_eq_bind, Option.bind_some]
        rw [if_neg hor, if_neg (fun h => hdneg h.1), if_pos ⟨hsign, by rw [hcond]; omega⟩]
      · dsimp only
        rw [hcond, hM, if_pos rfl]
        omega
    · rw [if_neg (by omega)] at hcond
      refine ⟨p, ⟨-BitVec.ofNat w M, getConstant w 0, p - w, getConstant w (-1)⟩, 0, hleast, hp,
        by rwa [hM], ?_, rfl, by omega,
        ⟨fun h => absurd h (by decide), fun h => absurd (hsub.mp h).2 hhigh⟩, ?_, rfl, rfl⟩
      · rw [buildSDIVPattern, if_neg h0, hget]
        dsimp only [Option.bind_eq_bind, Option.bind_some]
        rw [if_neg hor, if_neg (fun h => hdneg h.1),
          if_neg (fun h => by rw [hcond] at h; omega)]
      · dsimp only
        rw [hcond, hM, if_pos rfl]
        omega

/-- A division by one or by minus one multiplies. -/
theorem run_of_unit {m : Nat} (hm : w * 2 ≤ m) (hw : 0 < w) (c n : BitVec w) :
    (Lane.mk 0 c 0 (getConstant w 0)).run m n = n * c := by
  have hzero : getMULHS m n 0 = 0 := by
    rw [getMULHS_eq hm]
    have hlit : (0 : BitVec w).toInt = 0 := BitVec.toInt_zero
    rw [hlit, Int.mul_zero, Int.zero_ediv]
    rfl
  have hmask : getConstant w 0 = 0 := rfl
  have hadd : (0 : BitVec w) + n * c = n * c := BitVec.zero_add _
  have hand : (n * c) >>> (w - 1) &&& (0 : BitVec w) = 0 := BitVec.and_zero
  unfold Lane.run
  dsimp only
  rw [hzero, hadd, BitVec.sshiftRight_zero, hmask, hand]
  exact BitVec.add_zero _

theorem toInt_one (hw : 3 ≤ w) : (1 : BitVec w).toInt = 1 := by
  have hlt : 2 * 1 < 2 ^ w := by
    have hle : 2 ^ 3 ≤ 2 ^ w := Nat.pow_le_pow_right (by decide) hw
    omega
  have hlit : (1 : BitVec w).toNat = 1 := Nat.mod_eq_of_lt (by omega : 1 < 2 ^ w)
  rw [BitVec.toInt_eq_toNat_cond, hlit, if_pos hlt]
  rfl

theorem one_ne (hw : 3 ≤ w) : (1 : BitVec w) ≠ 0 ∧ (1 : BitVec w) ≠ BitVec.allOnes w := by
  have hone := toInt_one hw
  constructor
  · intro h
    rw [h] at hone
    exact absurd hone (by rw [show (0 : BitVec w).toInt = 0 from BitVec.toInt_zero]; decide)
  · intro h
    rw [h, BitVec.toInt_allOnes, if_pos (by omega)] at hone
    exact absurd hone (by decide)

theorem pattern_unit (hw : 3 ≤ w) (h0 : d ≠ 0) (hor : d = 1 ∨ d = BitVec.allOnes w) :
    buildSDIVPattern d = some ⟨0, getConstant w d.toInt, 0, getConstant w 0⟩ := by
  obtain ⟨p, _, _, hget, _⟩ := get_spec hw h0
  rw [buildSDIVPattern, if_neg h0, hget]
  dsimp only [Option.bind_eq_bind, Option.bind_some]
  rw [if_pos hor]

/-- **Division by one** is right in every word. -/
theorem divides_one {m : Nat} (hw : 3 ≤ w) (hm : w * 2 ≤ m) : Divides m (1 : BitVec w) := by
  refine ⟨_, pattern_unit hw (one_ne hw).1 (Or.inl rfl), by dsimp only; omega, fun n _ => ?_⟩
  have hconst : getConstant w 1 = 1 := getConstant_of_nonneg (k := 1) (by decide)
  rw [toInt_one hw, hconst, run_of_unit hm (by omega), Int.tdiv_one]
  exact congrArg _ (BitVec.mul_one n)

theorem toInt_allOnes (hw : 3 ≤ w) : (BitVec.allOnes w).toInt = -1 := by
  rw [BitVec.toInt_allOnes, if_pos (by omega)]

/-- **Division by minus one** is right exactly in words of at most 64 bits. -/
theorem divides_allOnes {m : Nat} (hw : 3 ≤ w) (hm : w * 2 ≤ m) :
    Divides m (BitVec.allOnes w) ↔ w ≤ 64 := by
  have hne : BitVec.allOnes w ≠ 0 := by
    intro h
    have hval := toInt_allOnes hw
    rw [h, show (0 : BitVec w).toInt = 0 from BitVec.toInt_zero] at hval
    exact absurd hval (by decide)
  have hpattern := pattern_unit hw hne (Or.inr rfl)
  constructor
  · rintro ⟨lane, hlane, _, hdiv⟩
    by_contra hwide
    rw [hpattern] at hlane
    obtain rfl := Option.some.inj hlane
    -- the dividend one becomes a positive number
    have hmin : ¬ ((1 : BitVec w) = BitVec.intMin w ∧ BitVec.allOnes w = BitVec.allOnes w) := by
      rintro ⟨h, _⟩
      have hval := congrArg BitVec.toNat h
      have hlit : (1 : BitVec w).toNat = 1 % 2 ^ w := rfl
      have hle : 2 ^ 2 ≤ 2 ^ (w - 1) := Nat.pow_le_pow_right (by decide) (by omega)
      have hpow := two_pow_pred (w := w) (by omega)
      rw [hlit, BitVec.toNat_intMin_of_pos (by omega), Nat.mod_eq_of_lt (by omega)] at hval
      omega
    have hone := hdiv 1 hmin
    have hmul : (1 : BitVec w) * getConstant w (-1) = getConstant w (-1) := BitVec.one_mul _
    rw [toInt_allOnes hw, run_of_unit hm (by omega), hmul, getConstant_neg_one, toInt_one hw]
      at hone
    have hle : 2 ^ 65 ≤ 2 ^ w := Nat.pow_le_pow_right (by decide) (by omega)
    rw [BitVec.toInt_eq_toNat_cond, BitVec.toNat_ofNat, Nat.mod_eq_of_lt (by omega),
      if_pos (by omega)] at hone
    exact absurd hone (by decide)
  · intro hle
    refine ⟨_, hpattern, by dsimp only; omega, fun n hn => ?_⟩
    have hlo := n.le_toInt
    have hhi := n.toInt_lt
    have hstrict : n.toInt ≠ -2 ^ (w - 1) := by
      intro h
      refine hn ⟨?_, rfl⟩
      rw [← BitVec.ofInt_toInt (x := n), h, ← BitVec.toInt_intMin_of_pos (by omega : 0 < w),
        BitVec.ofInt_toInt]
    have hself : BitVec.ofInt w n.toInt = n := BitVec.ofInt_toInt
    have hmul : n * BitVec.ofInt w (-1) = BitVec.ofInt w (-n.toInt) := by
      conv_lhs => rw [← hself]
      rw [← BitVec.ofInt_mul, Int.mul_neg, Int.mul_one]
    rw [toInt_allOnes hw, run_of_unit hm (by omega), getConstant_neg_one_of_le hle, hmul,
      BitVec.toInt_ofInt_eq_self (by omega) (by omega) (by omega), Int.tdiv_neg, Int.tdiv_one]

/-- In a wider word a dividend that is subtracted leaves a carry. -/
theorem not_divides_of_subtracts {m : Nat} (hw : 64 < w) (hm : w * 2 ≤ m) (h0 : d ≠ 0)
    (h1 : d ≠ 1) (hones : d ≠ BitVec.allOnes w) (hsub : Subtracts d) : ¬ Divides m d := by
  rintro ⟨lane, hlane', _, hdiv⟩
  obtain ⟨p, lane', f, hleast, hp, hfits, hlane, hfactor, _, hf, hmagic, hshift, hmask⟩ :=
    pattern_spec (by omega) h0 h1 hones
  obtain rfl : lane = lane' := Option.some.inj (hlane'.symm.trans hlane)
  have hsign : d.msb = true := by
    rcases hsub with h | h
    · exact absurd h hones
    · exact h.1
  have hfneg : f = -1 := hf.mpr hsub
  rw [hsign, if_pos rfl, hfneg] at hmagic
  generalize hM : 2 ^ p / d.abs.toNat + 1 = M at hfits hmagic
  have hMpos : (0 : Int) < M := by
    rw [← hM]
    positivity
  have hMlt : (M : Int) < (2 ^ w : Nat) := by exact_mod_cast hfits
  have hmu : lane.magicFactor.toInt = (2 ^ w : Nat) - M := by omega
  have hposw : (0 : Int) < (2 ^ w : Nat) := by exact_mod_cast Nat.two_pow_pos w
  -- a dividend whose product with the carry is the highest bit
  have hk : 2 ^ (w - 65) * 2 ^ 64 = 2 ^ (w - 1) := by
    rw [← Nat.pow_add]
    congr 1
    omega
  have hkpos := Nat.two_pow_pos (w - 65)
  have hpow := two_pow_pred (w := w) (by omega)
  have hpow' := two_pow_pred (w := w - 1) (by omega)
  have hn : (BitVec.ofNat w (2 ^ (w - 65))).toInt = (2 ^ (w - 65) : Nat) := by
    rw [BitVec.toInt_eq_toNat_cond, BitVec.toNat_ofNat, Nat.mod_eq_of_lt (by omega),
      if_pos (by omega)]
  generalize hz : ((2 ^ (w - 65) : Nat) : Int) * ((2 ^ w : Nat) - M) / (2 ^ w : Nat) = z
  have hzlo : 0 ≤ z := by
    rw [← hz]
    exact Int.ediv_nonneg (mul_nonneg (by positivity) (by omega)) hposw.le
  have hzhi : z < (2 ^ (w - 65) : Nat) := by
    rw [← hz, Int.ediv_lt_iff_lt_mul hposw]
    exact mul_lt_mul_of_pos_left (by omega) (by exact_mod_cast hkpos)
  have hprod : (2 ^ (w - 65) * (2 ^ 64 - 1) : Nat) = 2 ^ (w - 1) - 2 ^ (w - 65) := by
    rw [Nat.mul_sub, Nat.mul_one, hk]
  have hsum : getMULHS m (BitVec.ofNat w (2 ^ (w - 65))) lane.magicFactor +
      BitVec.ofNat w (2 ^ (w - 65)) * lane.factor =
        BitVec.ofInt w (z + (2 ^ (w - 1) - 2 ^ (w - 65) : Nat)) := by
    rw [getMULHS_eq hm, hn, hmu, hz, hfactor, hfneg, getConstant_neg_one, ← BitVec.ofNat_mul,
      hprod, BitVec.ofInt_add, BitVec.ofInt_natCast]
  have hcast : ((2 ^ (w - 1) : Nat) : Int) = 2 ^ (w - 1) := by norm_cast
  have hrun := run_of_sum (by omega) hmask hsum (by omega) (by omega)
  have hs : 2 ^ lane.shift ≤ 2 ^ (w - 1 - 1) := Nat.pow_le_pow_right (by decide) (by omega)
  have hquot : 1 ≤ (z + (2 ^ (w - 1) - 2 ^ (w - 65) : Nat)) / (2 ^ lane.shift : Nat) := by
    rw [Int.le_ediv_iff_mul_le (by exact_mod_cast Nat.two_pow_pos lane.shift)]
    omega
  rw [if_neg (by omega), hdiv _ (fun h => hones h.2), hn] at hrun
  have hdneg : d.toInt ≤ 0 := by
    have hlt := BitVec.msb_eq_toInt (x := d)
    rw [hsign, eq_comm, decide_eq_true_eq] at hlt
    omega
  have hle := Int.tdiv_nonpos_of_nonneg_of_nonpos
    (show (0 : Int) ≤ (2 ^ (w - 65) : Nat) by positivity) hdneg
  omega

/-- **Which divisors are right**: all of them in words of at most 64 bits, and in wider ones those
that do not subtract the dividend. -/
theorem divides_iff {m : Nat} (hw : 3 ≤ w) (hm : w * 2 ≤ m) (h0 : d ≠ 0) :
    Divides m d ↔ w ≤ 64 ∨ ¬ Subtracts d := by
  by_cases h1 : d = 1
  · subst h1
    refine ⟨fun _ => Or.inr ?_, fun _ => divides_one hw hm⟩
    rintro (h | ⟨h, _⟩)
    · exact (one_ne hw).2 h
    · rw [BitVec.msb_eq_toInt, toInt_one hw] at h
      exact absurd h (by decide)
  by_cases hones : d = BitVec.allOnes w
  · subst hones
    rw [divides_allOnes hw hm]
    exact ⟨Or.inl, fun h => h.resolve_right (fun hnot => hnot (Or.inl rfl))⟩
  · constructor
    · intro hdiv
      by_contra hnot
      rw [not_or, not_not] at hnot
      exact not_divides_of_subtracts (by omega) hm h0 h1 hones hnot.2 hdiv
    · intro hcond
      obtain ⟨p, lane, f, hleast, hp, hfits, hlane, hfactor, hf, hsub, hmagic, hshift, hmask⟩ :=
        pattern_spec hw h0 h1 hones
      have hconst : getConstant w f = BitVec.ofInt w f := by
        rcases hf with rfl | rfl | rfl
        · exact getConstant_of_nonneg (k := 0) (by decide)
        · exact getConstant_of_nonneg (k := 1) (by decide)
        · exact getConstant_neg_one_of_le (hcond.resolve_right (fun h => h (hsub.mp rfl)))
      refine ⟨lane, hlane, by omega, fun n _ => ?_⟩
      exact run_eq_tdiv hw hm h0 (one_lt_abs hw h0 h1 hones) hleast hfits (hfactor.trans hconst)
        hmagic hshift hmask

end Divides

theorem divides_seven : Divides 128 (7 : BitVec 64) :=
  (divides_iff (by decide) (by decide) (by decide)).mpr (Or.inl (by decide))

/-- **Minus one in 128 bits**: the constant is extended by zeros. -/
theorem not_divides_wide :
    ¬ ∀ (w m : Nat) (d : BitVec w), 3 ≤ w → w * 2 ≤ m → d ≠ 0 → Divides m d := by
  intro h
  have hdiv := h 128 256 (BitVec.allOnes 128) (by decide) (by decide) (by decide)
  exact absurd ((divides_allOnes (by decide) (by decide)).mp hdiv) (by decide)

end RvLlvm.CodeGen.BuildSDIV
