import RvLlvm.CodeGen.DivisionByConstant
import RvLlvm.Support.Pairwise

/-!
# Unsigned division by a constant

Model of `TargetLowering::BuildUDIV` (`llvm/lib/CodeGen/SelectionDAG/TargetLowering.cpp:6117-6274`)
for a scalar or for the lanes of a vector. The product is formed in `m` bits: twice the word for
`MULHU` and `UMUL_LOHI`, the wider type otherwise.

* `run_eq_div`: every lane whose divisor is not one gets the quotient, with shifts that stay
  inside the word; a lane that divides by one keeps its dividend.
-/

namespace RvLlvm.CodeGen.BuildUDIV

open Unsigned RvLlvm.Support

variable {w : Nat}

/-- A lane: its divisor, its constants, and the magic numbers if they were computed. -/
structure Lane (w : Nat) where
  divisor : BitVec w
  preShift : Nat
  magicFactor : BitVec w
  npqFactor : BitVec w
  postShift : Nat
  magics : Option (UnsignedDivisionByConstantInfo w)

/-- The emitted sequence: its lanes, and the steps that are there at all. -/
structure Sequence (w : Nat) where
  lanes : List (Lane w)
  useNPQ : Bool
  usePreShift : Bool
  usePostShift : Bool

/-- `countl_zero`. -/
def countlZero (d : BitVec w) : Nat := w - d.toNat.size

/-- The leading zeros that are used: those known of a scalar dividend, but not more than the
divisor has. -/
def leadingZeros (isVector : Bool) (known : Nat) (divisors : List (BitVec w)) : Nat :=
  match isVector, divisors with
  | false, [d] => min known (countlZero d)
  | _, _ => 0

/-- `BuildUDIVPattern`. The constants of a division by one are undefined: any there may be. -/
def buildUDIVPattern (undef : Lane w) (lz : Nat) (d : BitVec w) : Option (Lane w) :=
  if d = 0 then none
  else if d = 1 then some { undef with divisor := d, magics := none }
  else do
    let magics ← get d lz true
    if magics.preShift < w && magics.postShift < w && (!magics.isAdd || magics.preShift == 0) then
      some ⟨d, magics.preShift, magics.magic,
        if magics.isAdd then BitVec.twoPow w (w - 1) else 0, magics.postShift, some magics⟩
    else none

/-- The sequence of the lanes: a step is there if some lane needs it. -/
def Sequence.ofLanes (lanes : List (Lane w)) : Sequence w :=
  let magics := lanes.filterMap Lane.magics
  ⟨lanes, magics.any (·.isAdd), magics.any (·.preShift != 0), magics.any (·.postShift != 0)⟩

/-- `BuildUDIV`, up to the nodes. A scalar divisor is not one. -/
def buildUDIV (isVector : Bool) (undef : Lane w) (known : Nat) (divisors : List (BitVec w)) :
    Option (Sequence w) :=
  if !isVector && divisors.contains 1 then none
  else do
    let lanes ← divisors.mapM (buildUDIVPattern undef (leadingZeros isVector known divisors))
    some (Sequence.ofLanes lanes)

/-- `GetMULHU` in `m` bits. -/
def getMULHU (m : Nat) (x y : BitVec w) : BitVec w :=
  ((x.setWidth m * y.setWidth m) >>> w).setWidth w

/-- The nodes of one lane. -/
def runLane (m : Nat) (isVector : Bool) (S : Sequence w) (lane : Lane w) (n : BitVec w) :
    BitVec w :=
  let q := if S.usePreShift then n >>> lane.preShift else n
  let q := getMULHU m q lane.magicFactor
  let q :=
    if S.useNPQ then
      let npq := n - q
      let npq := if isVector then getMULHU m npq lane.npqFactor else npq >>> 1
      npq + q
    else q
  let q := if S.usePostShift then q >>> lane.postShift else q
  if lane.divisor = 1 then n else q

/-- The sequence on the dividends of its lanes. -/
def Sequence.run (S : Sequence w) (m : Nat) (isVector : Bool) (dividends : List (BitVec w)) :
    List (BitVec w) :=
  List.zipWith (runLane m isVector S) S.lanes dividends

/-! ## The product -/

theorem getMULHU_toNat {m : Nat} (hm : w * 2 ≤ m) (x y : BitVec w) :
    (getMULHU m x y).toNat = x.toNat * y.toNat / 2 ^ w := by
  have hx := x.isLt
  have hy := y.isLt
  have hle : 2 ^ w ≤ 2 ^ m := Nat.pow_le_pow_right (by decide) (by omega)
  have hprod : x.toNat * y.toNat < 2 ^ w * 2 ^ w := Nat.mul_lt_mul'' hx hy
  have hpow : 2 ^ w * 2 ^ w ≤ 2 ^ m := by
    rw [← Nat.pow_add]
    exact Nat.pow_le_pow_right (by decide) (by omega)
  rw [getMULHU, BitVec.toNat_setWidth, BitVec.toNat_ushiftRight, BitVec.toNat_mul,
    BitVec.toNat_setWidth, BitVec.toNat_setWidth, Nat.mod_eq_of_lt (hx.trans_le hle),
    Nat.mod_eq_of_lt (hy.trans_le hle), Nat.mod_eq_of_lt (hprod.trans_le hpow),
    Nat.shiftRight_eq_div_pow, Nat.mod_eq_of_lt]
  exact Nat.div_lt_of_lt_mul hprod

/-- The high product with the highest bit is a shift by one. -/
theorem getMULHU_twoPow {m : Nat} (hm : w * 2 ≤ m) (hw : 0 < w) (x : BitVec w) :
    getMULHU m x (BitVec.twoPow w (w - 1)) = x >>> 1 := by
  have hpow := two_pow_pred hw
  have hpos := Nat.two_pow_pos (w - 1)
  apply BitVec.eq_of_toNat_eq
  rw [getMULHU_toNat hm, BitVec.toNat_twoPow, Nat.mod_eq_of_lt (by omega),
    BitVec.toNat_ushiftRight, Nat.shiftRight_eq_div_pow, hpow, Nat.mul_div_mul_right _ _ hpos,
    Nat.pow_one]

theorem getMULHU_zero {m : Nat} (hm : w * 2 ≤ m) (x : BitVec w) : getMULHU m x 0 = 0 := by
  apply BitVec.eq_of_toNat_eq
  have hzero : (0 : BitVec w).toNat = 0 := by simp
  rw [getMULHU_toNat hm, hzero, Nat.mul_zero, Nat.zero_div]

/-! ## A lane -/

/-- The constants are those of magic numbers that divide. -/
structure Lane.Divides (lz : Nat) (lane : Lane w) (r : UnsignedDivisionByConstantInfo w) : Prop where
  magics : lane.magics = some r
  correct : Correct lane.divisor lz r
  preShift : lane.preShift = r.preShift
  magicFactor : lane.magicFactor = r.magic
  npqFactor : lane.npqFactor = if r.isAdd then BitVec.twoPow w (w - 1) else 0
  postShift : lane.postShift = r.postShift

/-- Every step that the numbers `r` need is there, and for a scalar no other halving. -/
structure Sequence.Uses (S : Sequence w) (isVector : Bool) (r : UnsignedDivisionByConstantInfo w) :
    Prop where
  useNPQ : r.isAdd = true → S.useNPQ = true
  usePreShift : r.preShift ≠ 0 → S.usePreShift = true
  usePostShift : r.postShift ≠ 0 → S.usePostShift = true
  scalar : isVector = false → S.useNPQ = r.isAdd

section RunLane

variable {m lz : Nat} {isVector : Bool} {S : Sequence w} {lane : Lane w}
  {r : UnsignedDivisionByConstantInfo w}

theorem shift_toNat {use : Bool} {k : Nat} (h : k ≠ 0 → use = true) (x : BitVec w) :
    (if use then x >>> k else x).toNat = x.toNat / 2 ^ k := by
  cases use with
  | true => rw [if_pos rfl, BitVec.toNat_ushiftRight, Nat.shiftRight_eq_div_pow]
  | false =>
    have hk : k = 0 := by
      by_contra hne
      exact absurd (h hne) (by decide)
    rw [hk, Nat.pow_zero, Nat.div_one, if_neg (by decide)]

/-- Half the difference and the quotient do not overflow. -/
theorem half_toNat {n q : BitVec w} (h : q.toNat ≤ n.toNat) :
    ((n - q) >>> 1 + q).toNat = (n.toNat - q.toNat) / 2 + q.toNat := by
  have hn := n.isLt
  rw [BitVec.toNat_add, BitVec.toNat_ushiftRight, BitVec.toNat_sub_of_le (BitVec.le_def.mpr h),
    Nat.shiftRight_eq_div_pow, Nat.pow_one, Nat.mod_eq_of_lt (by omega)]

/-- **A lane divides.** -/
theorem runLane_eq_div (hw : 1 < w) (hm : w * 2 ≤ m) (h : lane.Divides lz r)
    (huses : S.Uses isVector r) (hone : lane.divisor ≠ 1) {n : BitVec w}
    (hn : n.toNat < 2 ^ (w - lz)) : runLane m isVector S lane n = n / lane.divisor := by
  apply BitVec.eq_of_toNat_eq
  rw [BitVec.toNat_udiv, ← h.correct.quotient_eq _ hn, quotient, runLane, if_neg hone,
    h.preShift, h.magicFactor, h.npqFactor, h.postShift, shift_toNat huses.usePostShift]
  congr 1
  have hq : (getMULHU m (if S.usePreShift then n >>> r.preShift else n) r.magic).toNat =
      n.toNat / 2 ^ r.preShift * r.magic.toNat / 2 ^ w := by
    rw [getMULHU_toNat hm, shift_toNat huses.usePreShift]
  generalize getMULHU m (if S.usePreShift then n >>> r.preShift else n) r.magic = q at hq
  rw [← hq]
  have hle : q.toNat ≤ n.toNat := by
    rw [hq]
    have hmagic := r.magic.isLt
    have hdiv := Nat.div_le_self n.toNat (2 ^ r.preShift)
    refine (Nat.div_le_of_le_mul ?_).trans hdiv
    rw [Nat.mul_comm]
    exact Nat.mul_le_mul_right _ hmagic.le
  cases hadd : r.isAdd with
  | true =>
    rw [huses.useNPQ hadd, if_pos rfl, if_pos rfl]
    dsimp only
    rw [if_pos rfl, getMULHU_twoPow hm (by omega), ite_self, half_toNat hle]
  | false =>
    simp only [Bool.false_eq_true, if_false]
    cases huse : S.useNPQ with
    | false => simp only [Bool.false_eq_true, if_false]
    | true =>
      cases hvector : isVector with
      | false =>
        have hscalar := huses.scalar hvector
        rw [hadd, huse] at hscalar
        exact absurd hscalar (by decide)
      | true =>
        have hzero : (0 : BitVec w) + q = q := BitVec.zero_add q
        simp only [if_true, getMULHU_zero hm, hzero]

end RunLane

/-! ## All lanes -/

theorem lt_of_countlZero (d : BitVec w) {lz : Nat} (h : lz ≤ countlZero d) :
    lz ≤ w ∧ d.toNat < 2 ^ (w - lz) := by
  have hsize := Nat.lt_size_self d.toNat
  have hle : d.toNat.size ≤ w := Nat.size_le.mpr d.isLt
  unfold countlZero at h
  exact ⟨by omega, hsize.trans_le (Nat.pow_le_pow_right (by decide) (by omega))⟩

variable {divisors : List (BitVec w)}

/-- The leading zeros never exceed those of a divisor. -/
theorem leadingZeros_le {isVector : Bool} {known : Nat} {d : BitVec w} (hd : d ∈ divisors) :
    leadingZeros isVector known divisors ≤ countlZero d := by
  unfold leadingZeros
  split
  · obtain rfl := List.mem_singleton.mp hd
    exact min_le_right _ _
  · exact Nat.zero_le _

/-- What a lane is: a division by one, or one with magic numbers that divide. -/
def Lane.Ready (lz : Nat) (d : BitVec w) (lane : Lane w) : Prop :=
  lane.divisor = d ∧
    (d = 1 ∧ lane.magics = none ∨ d ≠ 1 ∧ ∃ r, lane.Divides lz r)

theorem buildUDIVPattern_ready (hw : 1 < w) (undef : Lane w) {lz : Nat} {d : BitVec w}
    (h0 : d ≠ 0) (hlz : lz ≤ countlZero d) :
    ∃ lane, buildUDIVPattern undef lz d = some lane ∧ lane.Ready lz d := by
  rw [buildUDIVPattern, if_neg h0]
  by_cases hone : d = 1
  · rw [if_pos hone]
    exact ⟨_, rfl, rfl, Or.inl ⟨hone, rfl⟩⟩
  · have hd : 1 < d.toNat := by
      have hzero : d.toNat ≠ 0 := fun h => h0 (BitVec.eq_of_toNat_eq (by simpa using h))
      have hne : d.toNat ≠ 1 := by
        intro h
        refine hone (BitVec.eq_of_toNat_eq ?_)
        have hlit : (1 : BitVec w).toNat = 1 % 2 ^ w := rfl
        have hlt := d.isLt
        rw [h, hlit, Nat.mod_eq_of_lt (by omega)]
      omega
    obtain ⟨hle, hlt⟩ := lt_of_countlZero d hlz
    obtain ⟨r, hr, hcorrect⟩ := get_spec hw hle hd hlt
    have hchecks : (decide (r.preShift < w) && decide (r.postShift < w) &&
        (!r.isAdd || r.preShift == 0)) = true := by
      rw [decide_eq_true hcorrect.preShift_lt, decide_eq_true hcorrect.postShift_lt]
      cases hadd : r.isAdd with
      | false => rfl
      | true =>
        rw [hcorrect.preShift_eq hadd]
        rfl
    rw [if_neg hone, hr]
    dsimp only [Option.bind_eq_bind, Option.bind_some]
    rw [if_pos hchecks]
    exact ⟨_, rfl, rfl, Or.inr ⟨hone, r, rfl, hcorrect, rfl, rfl, rfl, rfl⟩⟩

theorem mapM_ready (hw : 1 < w) (undef : Lane w) {lz : Nat} (h0 : ∀ d ∈ divisors, d ≠ 0)
    (hlz : ∀ d ∈ divisors, lz ≤ countlZero d) :
    ∃ lanes, divisors.mapM (buildUDIVPattern undef lz) = some lanes ∧
      List.Forall₂ (Lane.Ready lz) divisors lanes := by
  induction divisors with
  | nil => exact ⟨[], rfl, .nil⟩
  | cons d rest ih =>
    rw [List.forall_mem_cons] at h0 hlz
    obtain ⟨lane, hlane, hready⟩ := buildUDIVPattern_ready hw undef h0.1 hlz.1
    obtain ⟨lanes, hlanes, hrest⟩ := ih h0.2 hlz.2
    refine ⟨lane :: lanes, ?_, .cons hready hrest⟩
    rw [List.mapM_cons, hlane, hlanes]
    rfl

theorem run_lanes {m lz : Nat} {isVector : Bool} {S : Sequence w} (hw : 1 < w) (hm : w * 2 ≤ m)
    {lanes : List (Lane w)} (h : List.Forall₂ (Lane.Ready lz) divisors lanes)
    (huses : ∀ lane ∈ lanes, ∀ r, lane.magics = some r → S.Uses isVector r)
    {dividends : List (BitVec w)} (hn : ∀ n ∈ dividends, n.toNat < 2 ^ (w - lz)) :
    List.zipWith (runLane m isVector S) lanes dividends =
      List.zipWith (· / ·) dividends divisors := by
  induction h generalizing dividends with
  | nil => rw [List.zipWith_nil_left, List.zipWith_nil_right]
  | cons hready _ ih =>
    cases dividends with
    | nil => rfl
    | cons n rest =>
      rw [List.forall_mem_cons] at huses hn
      rw [List.zipWith_cons_cons, List.zipWith_cons_cons, ih huses.2 hn.2]
      congr 1
      obtain ⟨rfl, ⟨hone, _⟩ | ⟨hne, r, hdivides⟩⟩ := hready
      · rw [runLane, if_pos hone, hone]
        exact (BitVec.udiv_one).symm
      · exact runLane_eq_div hw hm hdivides (huses.1 r hdivides.magics) hne hn.1

theorem uses_of_mem {isVector : Bool} {lanes : List (Lane w)} {r : UnsignedDivisionByConstantInfo w}
    (hr : r ∈ lanes.filterMap Lane.magics) (hscalar : isVector = false → lanes.length = 1) :
    (Sequence.ofLanes lanes).Uses isVector r := by
  refine ⟨fun h => ?_, fun h => ?_, fun h => ?_, fun h => ?_⟩
  · exact List.any_eq_true.mpr ⟨r, hr, h⟩
  · exact List.any_eq_true.mpr ⟨r, hr, bne_iff_ne.mpr h⟩
  · exact List.any_eq_true.mpr ⟨r, hr, bne_iff_ne.mpr h⟩
  · obtain ⟨lane, rfl⟩ := List.length_eq_one_iff.mp (hscalar h)
    obtain ⟨l, hl, hmagics⟩ := List.mem_filterMap.mp hr
    obtain rfl := List.mem_singleton.mp hl
    rw [Sequence.ofLanes, List.filterMap_cons, hmagics]
    simp

/-- **The emitted sequence divides** in every lane, for dividends with the leading zeros that were
used, and no shift of it leaves the word. -/
theorem run_eq_div (hw : 1 < w) {m : Nat} (hm : w * 2 ≤ m) {isVector : Bool} {undef : Lane w}
    {known : Nat} {divisors : List (BitVec w)} (h0 : ∀ d ∈ divisors, d ≠ 0)
    (hscalar : isVector = false → ∃ d, divisors = [d] ∧ d ≠ 1) :
    ∃ S, buildUDIV isVector undef known divisors = some S ∧
      (∀ lane ∈ S.lanes, lane.divisor ≠ 1 → lane.preShift < w ∧ lane.postShift < w) ∧
      ∀ dividends : List (BitVec w),
        (∀ n ∈ dividends, n.toNat < 2 ^ (w - leadingZeros isVector known divisors)) →
        S.run m isVector dividends = List.zipWith (· / ·) dividends divisors := by
  have hlz : ∀ d ∈ divisors, leadingZeros isVector known divisors ≤ countlZero d :=
    fun d hd => leadingZeros_le hd
  obtain ⟨lanes, hlanes, hready⟩ := mapM_ready hw undef h0 hlz
  have hguard : (!isVector && divisors.contains 1) = false := by
    cases hvector : isVector with
    | true => rfl
    | false =>
      obtain ⟨d, rfl, hd⟩ := hscalar hvector
      simpa using Ne.symm hd
  refine ⟨Sequence.ofLanes lanes, ?_, ?_, ?_⟩
  · rw [buildUDIV, hguard, hlanes]
    rfl
  · intro lane hmem hne
    obtain ⟨d, _, rfl, ⟨hone, _⟩ | ⟨_, r, hdivides⟩⟩ := exists_of_forall₂_right hready hmem
    · exact absurd hone hne
    · rw [hdivides.preShift, hdivides.postShift]
      exact ⟨hdivides.correct.preShift_lt, hdivides.correct.postShift_lt⟩
  · intro dividends hn
    refine run_lanes hw hm hready (fun lane hlane r hr => ?_) hn
    refine uses_of_mem (List.mem_filterMap.mpr ⟨lane, hlane, hr⟩) fun h => ?_
    obtain ⟨d, rfl, _⟩ := hscalar h
    exact hready.length_eq.symm

/-- Three lanes: by seven with the addition, by one, by six. -/
theorem run_eq_div_lanes :
    ∃ S, buildUDIV true (Lane.mk (0 : BitVec 8) 0 0 0 0 none) 0 [7, 1, 6] = some S ∧
      (∀ lane ∈ S.lanes, lane.divisor ≠ 1 → lane.preShift < 8 ∧ lane.postShift < 8) ∧
      ∀ dividends : List (BitVec 8), (∀ n ∈ dividends, n.toNat < 2 ^ 8) →
        S.run 16 true dividends = List.zipWith (· / ·) dividends [7, 1, 6] :=
  run_eq_div (by decide) (by decide) (by decide) (by decide)

end RvLlvm.CodeGen.BuildUDIV
