import RvLlvm.KnownBits.Counts

/-!
# Saturating sums and differences of known bits

Model of `computeForSatAddSub` (`llvm/lib/Support/KnownBits.cpp:474-616`). The steps of the function
have a definition each, and its final assertion is `check`.

* `fits_uadd`, `fits_usub`, `fits_signed`: what the function keeps is true of each saturated value.
* `computeForSatAddSub_spec`: the four operations.
-/

namespace RvLlvm.KnownBits

open APInt.Saturating (uadd_ov usub_ov sadd_ov ssub_ov uadd_sat usub_sat sadd_sat ssub_sat
  toNat_uadd_sat toNat_usub_sat saturate signedBound)
open Support.WordOrder (eq_iff toNat_add_cases toNat_sub_cases toNat_zero)

variable {W : Nat}

/-- The assertion `!hasConflict()`. -/
def check (k : KnownBits W) : Option (KnownBits W) := if k.hasConflict then none else some k

def SignBitKnown (k : KnownBits W) : Bool := k.Zero.msb || k.One.msb

/-- The variable `Overflow`. -/
def satOverflow (Add Signed : Bool) (LHS RHS Res : KnownBits W) : Option Bool :=
  if Signed then
    if SignBitKnown LHS && SignBitKnown RHS && SignBitKnown Res then
      if Add then
        some (LHS.isNonNegative == RHS.isNonNegative && Res.isNonNegative != LHS.isNonNegative)
      else
        some (LHS.isNonNegative != RHS.isNonNegative && Res.isNonNegative != LHS.isNonNegative)
    else none
  else if Add then
    if (uadd_ov LHS.getMaxValue RHS.getMaxValue).2 = false then some false
    else if (uadd_ov LHS.getMinValue RHS.getMinValue).2 then some true else none
  else
    if (usub_ov LHS.getMinValue RHS.getMaxValue).2 = false then some false
    else if (usub_ov LHS.getMaxValue RHS.getMinValue).2 then some true else none

/-- The signs and the leading bits that an overflow does not change. -/
def satStrengthen (Add Signed : Bool) (LHS RHS Res : KnownBits W) : KnownBits W :=
  if Signed then
    if Add then
      let Res := if LHS.isNonNegative && RHS.isNonNegative then knownZeros (signMask W) Res else Res
      if LHS.isNegative && RHS.isNegative then knownOnes (signMask W) Res else Res
    else
      if LHS.isNegative && RHS.isNonNegative then knownOnes (signMask W) Res
      else if LHS.isNonNegative && RHS.isNegative then knownZeros (signMask W) Res
      else Res
  else
    let LeadingKnown :=
      if Add then max LHS.countMinLeadingOnes RHS.countMinLeadingOnes
      else max LHS.countMinLeadingZeros RHS.countMinLeadingOnes
    let Mask := getHighBitsSet W LeadingKnown
    if Add then knownOnes Mask Res else knownZeros Mask Res

/-- The constant of an overflow. -/
def satConstant (Add Signed : Bool) (LHS : KnownBits W) : BitVec W :=
  if Signed then if LHS.isNegative then BitVec.intMin W else BitVec.intMax W
  else if Add then BitVec.allOnes W else 0

/-- What is kept where nothing is known of the overflow. -/
def satKeep (Add Signed : Bool) (Res : KnownBits W) : KnownBits W :=
  if Signed then
    ⟨Res.Zero &&& ~~~getLowBitsSet W (W - 1), Res.One &&& ~~~getLowBitsSet W (W - 1)⟩
  else if Add then { Res with Zero := 0 }
  else { Res with One := 0 }

def satFinish (Add Signed : Bool) (LHS Res : KnownBits W) : Option Bool → Option (KnownBits W)
  | some false => check Res
  | some true =>
    if Signed && !SignBitKnown LHS then none else check (makeConstant (satConstant Add Signed LHS))
  | none => check (satKeep Add Signed Res)

def computeForSatAddSub (Add Signed : Bool) (LHS RHS : KnownBits W) : Option (KnownBits W) :=
  if LHS.hasConflict ∨ RHS.hasConflict then none
  else (computeForAddSub Add false LHS RHS).bind fun Res =>
    satFinish Add Signed LHS (satStrengthen Add Signed LHS RHS Res)
      (satOverflow Add Signed LHS RHS Res)

section Lemmas

variable {LHS RHS Res k : KnownBits W} {Add Signed : Bool} {x y z s : BitVec W}

theorem check_of_mem (h : z ∈ k) : check k = some k := if_neg (not_hasConflict_of_mem h)

/-- What the last part of the function needs of a value. -/
def Fits (Add Signed : Bool) (LHS Res : KnownBits W) (z : BitVec W) : Option Bool → Prop
  | some false => z ∈ Res
  | some true => z = satConstant Add Signed LHS ∧ (Signed = true → SignBitKnown LHS = true)
  | none => z ∈ satKeep Add Signed Res

theorem satFinish_spec {S : BitVec W → Prop} {Overflow : Option Bool} (hne : ∃ z, S z)
    (hfit : ∀ z, S z → Fits Add Signed LHS Res z Overflow) :
    ∃ k, satFinish Add Signed LHS Res Overflow = some k ∧ ∀ z, S z → z ∈ k := by
  obtain ⟨z₀, hz₀⟩ := hne
  have hfit₀ := hfit z₀ hz₀
  match Overflow with
  | some false => exact ⟨Res, check_of_mem hfit₀, hfit⟩
  | none => exact ⟨_, check_of_mem hfit₀, hfit⟩
  | some true =>
    refine ⟨makeConstant (satConstant Add Signed LHS), ?_, fun z hz => ?_⟩
    swap
    · rw [(hfit z hz).1]
      exact mem_makeConstant _
    rw [satFinish, if_neg, check_of_mem (mem_makeConstant _)]
    rw [Bool.and_eq_true, Bool.not_eq_true', not_and, Bool.not_eq_false]
    exact hfit₀.2

/-! ### Unsigned -/

theorem uadd_ov_snd (x y : BitVec W) : (uadd_ov x y).2 = true ↔ 2 ^ W ≤ x.toNat + y.toNat := by
  have hadd := toNat_add_cases x y
  have hx := x.isLt
  have hult : (x + y).ult y = true ↔ (x + y).toNat < y.toNat := by
    rw [BitVec.ult_iff_lt, BitVec.lt_def]
  unfold uadd_ov
  rw [hult]
  omega

theorem usub_ov_snd (x y : BitVec W) : (usub_ov x y).2 = true ↔ x.toNat < y.toNat := by
  have hsub := toNat_sub_cases x y
  have hy := y.isLt
  have hult : x.ult (x - y) = true ↔ x.toNat < (x - y).toNat := by
    rw [BitVec.ult_iff_lt, BitVec.lt_def]
  unfold usub_ov
  rw [hult]
  omega

theorem toNat_not (x : BitVec W) : (~~~x).toNat = 2 ^ W - 1 - x.toNat := BitVec.toNat_not

/-- The leading ones of both operands. -/
theorem leadingOnes_uadd_sat (hx : x ∈ LHS) (hy : y ∈ RHS) :
    (~~~uadd_sat x y).toNat <
      2 ^ (W - max LHS.countMinLeadingOnes RHS.countMinLeadingOnes) := by
  have hsat := toNat_uadd_sat x y
  have hxlt := x.isLt
  have hylt := y.isLt
  have hleft := toNat_not_lt_of_leadingOnes hx
  have hright := toNat_not_lt_of_leadingOnes hy
  rw [toNat_not] at hleft hright ⊢
  rcases max_choice LHS.countMinLeadingOnes RHS.countMinLeadingOnes with h | h
  · rw [h]
    omega
  · rw [h]
    omega

/-- The leading zeros of the left operand and the leading ones of the right one. -/
theorem leadingZeros_usub_sat (hx : x ∈ LHS) (hy : y ∈ RHS) :
    (usub_sat x y).toNat <
      2 ^ (W - max LHS.countMinLeadingZeros RHS.countMinLeadingOnes) := by
  have hsat := toNat_usub_sat x y
  have hxlt := x.isLt
  have hleft := toNat_lt_of_leadingZeros hx
  have hright := toNat_not_lt_of_leadingOnes hy
  rw [toNat_not] at hright
  rcases max_choice LHS.countMinLeadingZeros RHS.countMinLeadingOnes with h | h
  · rw [h]
    omega
  · rw [h]
    omega

theorem fits_uadd (hx : x ∈ LHS) (hy : y ∈ RHS) (hsum : x + y ∈ Res) :
    Fits true false LHS (satStrengthen true false LHS RHS Res) (uadd_sat x y)
      (satOverflow true false LHS RHS Res) := by
  have hmask := fun i => high_of_not_lt (i := i) (leadingOnes_uadd_sat hx hy)
  have hsat := toNat_uadd_sat x y
  have hadd := toNat_add_cases x y
  have hmaxL := toNat_le_max hx
  have hmaxR := toNat_le_max hy
  have hminL := min_le_toNat hx
  have hminR := min_le_toNat hy
  -- the sum itself, or all ones
  have hcases : uadd_sat x y = x + y ∧ x.toNat + y.toNat < 2 ^ W ∨
      uadd_sat x y = BitVec.allOnes W ∧ 2 ^ W ≤ x.toNat + y.toNat := by
    rw [eq_iff, eq_iff, BitVec.toNat_allOnes]
    omega
  unfold satOverflow
  simp only [Bool.false_eq_true, if_false, if_true]
  split
  · next hno =>
    rw [← Bool.not_eq_true, uadd_ov_snd] at hno
    rcases hcases with ⟨heq, -⟩ | ⟨-, hover⟩
    · exact mem_knownOnes (heq ▸ hsum) hmask
    · omega
  split
  · next hover =>
    rw [uadd_ov_snd] at hover
    rcases hcases with ⟨-, hlt⟩ | ⟨heq, -⟩
    · omega
    · exact ⟨heq, fun h => absurd h (by decide)⟩
  · refine mem_iff.mpr fun i => ⟨fun hz => absurd hz (by simp [satKeep]), fun ho => ?_⟩
    have ho : (Res.One ||| getHighBitsSet W _).getLsbD i = true := ho
    rw [BitVec.getLsbD_or, Bool.or_eq_true] at ho
    rcases ho with ho | ho
    · rcases hcases with ⟨heq, -⟩ | ⟨heq, -⟩
      · rw [heq]
        exact (mem_iff.mp hsum i).2 ho
      · rw [heq, BitVec.getLsbD_allOnes]
        exact decide_eq_true (BitVec.lt_of_getLsbD ho)
    · exact hmask i ho

theorem fits_usub (hx : x ∈ LHS) (hy : y ∈ RHS) (hdiff : x - y ∈ Res) :
    Fits false false LHS (satStrengthen false false LHS RHS Res) (usub_sat x y)
      (satOverflow false false LHS RHS Res) := by
  have hmask := fun i => high_of_lt (i := i) (leadingZeros_usub_sat hx hy)
  have hsat := toNat_usub_sat x y
  have hsub := toNat_sub_cases x y
  have hmaxL := toNat_le_max hx
  have hmaxR := toNat_le_max hy
  have hminL := min_le_toNat hx
  have hminR := min_le_toNat hy
  have hcases : usub_sat x y = x - y ∧ y.toNat ≤ x.toNat ∨
      usub_sat x y = 0 ∧ x.toNat < y.toNat := by
    rw [eq_iff, eq_iff, toNat_zero]
    omega
  unfold satOverflow
  simp only [Bool.false_eq_true, if_false]
  split
  · next hno =>
    rw [← Bool.not_eq_true, usub_ov_snd] at hno
    rcases hcases with ⟨heq, -⟩ | ⟨-, hover⟩
    · exact mem_knownZeros (heq ▸ hdiff) hmask
    · omega
  split
  · next hover =>
    rw [usub_ov_snd] at hover
    rcases hcases with ⟨-, hlt⟩ | ⟨heq, -⟩
    · omega
    · exact ⟨heq, fun h => absurd h (by decide)⟩
  · refine mem_iff.mpr fun i => ⟨fun hz => ?_, fun ho => absurd ho (by simp [satKeep])⟩
    have hz : (Res.Zero ||| getHighBitsSet W _).getLsbD i = true := hz
    rw [BitVec.getLsbD_or, Bool.or_eq_true] at hz
    rcases hz with hz | hz
    · rcases hcases with ⟨heq, -⟩ | ⟨heq, -⟩
      · rw [heq]
        exact (mem_iff.mp hdiff i).1 hz
      · rw [heq]
        exact BitVec.getLsbD_zero
    · exact hmask i hz

/-! ### Signed -/

/-- The sign of the right operand as it is added. -/
def addedSign (Add : Bool) (y : BitVec W) : Bool := if Add then y.msb else !y.msb

/-- The signed result leaves the range. -/
def signedFlag (Add : Bool) (x y : BitVec W) : Bool :=
  x.msb == addedSign Add y && (result Add x y).msb != x.msb

def signedSat (Add : Bool) (x y : BitVec W) : BitVec W := if Add then sadd_sat x y else ssub_sat x y

theorem signedSat_eq (Add : Bool) (x y : BitVec W) :
    signedSat Add x y =
      if signedFlag Add x y = false then result Add x y else signedBound W x.msb := by
  cases Add with
  | true => rfl
  | false =>
    have hne : (x.msb != y.msb) = (x.msb == !y.msb) := by
      generalize x.msb = a
      generalize y.msb = b
      revert a b
      decide
    simp only [signedSat, ssub_sat, saturate, ssub_ov, signedFlag, addedSign, result, hne,
      Bool.false_eq_true, if_false]

theorem msb_signedBound (x : BitVec W) : (signedBound W x.msb).msb = x.msb := by
  rcases Nat.eq_zero_or_pos W with rfl | hW
  · rw [BitVec.eq_nil x, BitVec.eq_nil (signedBound 0 _)]
  · have hpos : 0 < 2 ^ (W - 1) := Nat.two_pow_pos _
    rw [BitVec.msb_eq_toInt, APInt.Saturating.toInt_signedBound hW]
    cases x.msb with
    | true =>
      rw [if_pos rfl, decide_eq_true_eq]
      omega
    | false =>
      rw [if_neg (by decide), decide_eq_false_iff_not]
      omega

/-- Operands of one sign keep it. -/
theorem msb_signedSat (h : x.msb = addedSign Add y) : (signedSat Add x y).msb = x.msb := by
  rw [signedSat_eq]
  split
  · next hflag =>
    rw [signedFlag, ← h, beq_self_eq_true, Bool.true_and, bne_eq_false_iff_eq] at hflag
    exact hflag
  · exact msb_signedBound x

theorem isNonNegative_eq (hx : x ∈ k) (h : SignBitKnown k = true) :
    k.isNonNegative = !x.msb := by
  cases hz : k.isNonNegative with
  | true => rw [msb_of_isNonNegative hx hz, Bool.not_false]
  | false =>
    rw [SignBitKnown, Bool.or_eq_true] at h
    rw [msb_of_isNegative hx (h.resolve_left (Bool.not_eq_true _ ▸ hz)), Bool.not_true]

theorem isNegative_eq (hx : x ∈ k) (h : SignBitKnown k = true) : k.isNegative = x.msb := by
  cases ho : k.isNegative with
  | true => rw [msb_of_isNegative hx ho]
  | false =>
    rw [SignBitKnown, Bool.or_eq_true] at h
    rw [msb_of_isNonNegative hx (h.resolve_right (Bool.not_eq_true _ ▸ ho))]

/-- The flag is that of every pair of members. -/
theorem satOverflow_signed (hx : x ∈ LHS) (hy : y ∈ RHS) (hres : result Add x y ∈ Res)
    (h : (SignBitKnown LHS && SignBitKnown RHS && SignBitKnown Res) = true) :
    satOverflow Add true LHS RHS Res = some (signedFlag Add x y) := by
  unfold satOverflow
  rw [if_pos rfl, if_pos h]
  rw [Bool.and_eq_true, Bool.and_eq_true] at h
  rw [isNonNegative_eq hx h.1.1, isNonNegative_eq hy h.1.2, isNonNegative_eq hres h.2, signedFlag,
    addedSign]
  generalize (result Add x y).msb = c
  generalize x.msb = a
  generalize y.msb = b
  clear h hx hy hres
  revert Add a b c
  decide

theorem msb_of_signMask {i : Nat} (hm : (signMask W).getLsbD i = true) (x : BitVec W) :
    x.getLsbD i = x.msb := by
  rw [getLsbD_signMask (BitVec.lt_of_getLsbD hm), decide_eq_true_eq] at hm
  rw [hm, BitVec.msb_eq_getLsbD_last]

theorem mem_satStrengthen (hx : x ∈ LHS) (hy : y ∈ RHS) (hs : s ∈ Res)
    (hsign : x.msb = addedSign Add y → s.msb = x.msb) :
    s ∈ satStrengthen Add true LHS RHS Res := by
  have hzeros : ∀ {k : KnownBits W}, s ∈ k → x.msb = false → addedSign Add y = false →
      s ∈ knownZeros (signMask W) k := fun hk hl hr => mem_knownZeros hk fun i hm => by
    rw [msb_of_signMask hm, hsign (hl.trans hr.symm), hl]
  have hones : ∀ {k : KnownBits W}, s ∈ k → x.msb = true → addedSign Add y = true →
      s ∈ knownOnes (signMask W) k := fun hk hl hr => mem_knownOnes hk fun i hm => by
    rw [msb_of_signMask hm, hsign (hl.trans hr.symm), hl]
  cases Add with
  | true =>
    have hfirst : s ∈ if (LHS.isNonNegative && RHS.isNonNegative) = true then
        knownZeros (signMask W) Res else Res := by
      split
      · next h =>
        rw [Bool.and_eq_true] at h
        exact hzeros hs (msb_of_isNonNegative hx h.1) (msb_of_isNonNegative hy h.2)
      · exact hs
    unfold satStrengthen
    simp only [if_true]
    split
    · next h =>
      rw [Bool.and_eq_true] at h
      exact hones hfirst (msb_of_isNegative hx h.1) (msb_of_isNegative hy h.2)
    · exact hfirst
  | false =>
    unfold satStrengthen
    simp only [if_true, Bool.false_eq_true, if_false]
    split
    · next h =>
      rw [Bool.and_eq_true] at h
      refine hones hs (msb_of_isNegative hx h.1) ?_
      rw [addedSign, if_neg (by decide), msb_of_isNonNegative hy h.2, Bool.not_false]
    split
    · next h =>
      rw [Bool.and_eq_true] at h
      refine hzeros hs (msb_of_isNonNegative hx h.1) ?_
      rw [addedSign, if_neg (by decide), msb_of_isNegative hy h.2, Bool.not_true]
    · exact hs

theorem msb_of_knownOnes {M : BitVec W} (h : (knownOnes M k).Zero.msb = true) :
    k.Zero.msb = true := by
  rw [knownOnes, BitVec.msb_and, Bool.and_eq_true] at h
  exact h.1

theorem msb_of_knownZeros {M : BitVec W} (h : (knownZeros M k).One.msb = true) :
    k.One.msb = true := by
  rw [knownZeros, BitVec.msb_and, Bool.and_eq_true] at h
  exact h.1

/-- Without the sign of the result, only the signs of the operands tell that of the kept bits. -/
theorem sign_satStrengthen (Add : Bool) (hx : x ∈ LHS) (hy : y ∈ RHS)
    (hun : SignBitKnown Res = false) :
    ((satStrengthen Add true LHS RHS Res).Zero.msb = true →
      x.msb = false ∧ addedSign Add y = false) ∧
    ((satStrengthen Add true LHS RHS Res).One.msb = true →
      x.msb = true ∧ addedSign Add y = true) := by
  rw [SignBitKnown, Bool.or_eq_false_iff] at hun
  have hz : ¬Res.Zero.msb = true := by rw [hun.1]; decide
  have ho : ¬Res.One.msb = true := by rw [hun.2]; decide
  unfold satStrengthen
  cases Add with
  | true =>
    simp only [if_true]
    refine ⟨fun h => ?_, fun h => ?_⟩
    · by_cases hnn : (LHS.isNonNegative && RHS.isNonNegative) = true
      · rw [Bool.and_eq_true] at hnn
        exact ⟨msb_of_isNonNegative hx hnn.1, msb_of_isNonNegative hy hnn.2⟩
      · rw [if_neg hnn] at h
        split at h
        · exact absurd (msb_of_knownOnes h) hz
        · exact absurd h hz
    · split at h
      · next hneg =>
        rw [Bool.and_eq_true] at hneg
        exact ⟨msb_of_isNegative hx hneg.1, msb_of_isNegative hy hneg.2⟩
      split at h
      · exact absurd (msb_of_knownZeros h) ho
      · exact absurd h ho
  | false =>
    simp only [if_true, Bool.false_eq_true, if_false]
    have hadded : addedSign false y = !y.msb := rfl
    rw [hadded, Bool.not_eq_false', Bool.not_eq_true']
    refine ⟨fun h => ?_, fun h => ?_⟩
    · split at h
      · exact absurd (msb_of_knownOnes h) hz
      split at h
      · next hpos =>
        rw [Bool.and_eq_true] at hpos
        exact ⟨msb_of_isNonNegative hx hpos.1, msb_of_isNegative hy hpos.2⟩
      · exact absurd h hz
    · split at h
      · next hneg =>
        rw [Bool.and_eq_true] at hneg
        exact ⟨msb_of_isNegative hx hneg.1, msb_of_isNonNegative hy hneg.2⟩
      split at h
      · exact absurd (msb_of_knownZeros h) ho
      · exact absurd h ho

/-- **A signed value** fits what is kept. -/
theorem fits_signed (hx : x ∈ LHS) (hy : y ∈ RHS) (hres : result Add x y ∈ Res)
    (hknown : SignBitKnown Res = true → (SignBitKnown LHS && SignBitKnown RHS) = true) :
    Fits Add true LHS (satStrengthen Add true LHS RHS Res) (signedSat Add x y)
      (satOverflow Add true LHS RHS Res) := by
  have hsat := signedSat_eq Add x y
  by_cases hall : (SignBitKnown LHS && SignBitKnown RHS && SignBitKnown Res) = true
  · rw [satOverflow_signed hx hy hres hall]
    rw [Bool.and_eq_true, Bool.and_eq_true] at hall
    cases hflag : signedFlag Add x y with
    | false =>
      rw [if_pos hflag] at hsat
      rw [Fits, hsat]
      exact mem_satStrengthen hx hy hres fun hsign => by
        rw [← hsat, msb_signedSat hsign]
    | true =>
      rw [if_neg (by rw [hflag]; decide)] at hsat
      refine ⟨?_, fun _ => hall.1.1⟩
      rw [hsat, satConstant, if_pos rfl, isNegative_eq hx hall.1.1, signedBound]
  · have hun : SignBitKnown Res = false := by
      rw [← Bool.not_eq_true]
      exact fun h => hall (by rw [hknown h, h]; rfl)
    have hoverflow : satOverflow Add true LHS RHS Res = none := by
      rw [satOverflow, if_pos rfl, if_neg hall]
    obtain ⟨hzero, hone⟩ := sign_satStrengthen Add hx hy hun
    rw [hoverflow, Fits, satKeep, if_pos rfl]
    have hlast : ∀ {i : Nat} {m : BitVec W}, (m &&& ~~~getLowBitsSet W (W - 1)).getLsbD i = true →
        m.msb = true ∧ ∀ v : BitVec W, v.getLsbD i = v.msb := by
      intro i m h
      have hi := BitVec.lt_of_getLsbD h
      rw [BitVec.getLsbD_and, BitVec.getLsbD_not, getLsbD_getLowBitsSet hi, decide_eq_true hi,
        Bool.true_and, Bool.and_eq_true, Bool.not_eq_true', decide_eq_false_iff_not] at h
      have hlast : i = W - 1 := by omega
      have hmsb : ∀ v : BitVec W, v.getLsbD i = v.msb := fun v => by
        rw [hlast, BitVec.msb_eq_getLsbD_last]
      exact ⟨hmsb m ▸ h.1, hmsb⟩
    refine mem_iff.mpr fun i => ⟨fun h => ?_, fun h => ?_⟩
    · obtain ⟨hm, hv⟩ := hlast h
      obtain ⟨hl, hr⟩ := hzero hm
      rw [hv, msb_signedSat (hl.trans hr.symm), hl]
    · obtain ⟨hm, hv⟩ := hlast h
      obtain ⟨hl, hr⟩ := hone hm
      rw [hv, msb_signedSat (hl.trans hr.symm), hl]

/-! ### The four operations -/

/-- The saturating operation of the flags. -/
def satResult (Add Signed : Bool) (x y : BitVec W) : BitVec W :=
  if Signed then signedSat Add x y else if Add then uadd_sat x y else usub_sat x y

/-- The sign of a sum is known only with those of the operands. -/
theorem Returned.signBitKnown {CarryZero CarryOne : Bool}
    (hk : Returned LHS RHS CarryZero CarryOne k) (h : SignBitKnown k = true) :
    (SignBitKnown LHS && SignBitKnown RHS) = true := by
  rw [SignBitKnown, BitVec.msb_eq_getLsbD_last, BitVec.msb_eq_getLsbD_last, Bool.or_eq_true] at h
  have hi : W - 1 < W := h.elim BitVec.lt_of_getLsbD BitVec.lt_of_getLsbD
  rw [(hk _ hi).1, (hk _ hi).2, Bool.and_eq_true, Bool.and_eq_true] at h
  have hsum := h.elim And.left And.left
  rw [sumKnown, Bool.and_eq_true] at hsum
  simpa only [SignBitKnown, BitVec.msb_eq_getLsbD_last] using hsum.1

/-- The sum or the difference without `NSW`, and when its sign is known. -/
theorem computeForAddSub_res (Add : Bool) (hL : ¬LHS.hasConflict) (hR : ¬RHS.hasConflict) :
    ∃ Res, computeForAddSub Add false LHS RHS = some Res ∧
      (∀ x ∈ LHS, ∀ y ∈ RHS, result Add x y ∈ Res) ∧
      (SignBitKnown Res = true → (SignBitKnown LHS && SignBitKnown RHS) = true) := by
  cases Add with
  | true =>
    have hc : ¬(true && false) = true := by decide
    obtain ⟨k, hrun, hk⟩ := staticComputeForAddCarry_spec hL hR hc
    refine ⟨k, ?_, fun x hx y hy => ?_, hk.signBitKnown⟩
    · rw [computeForAddSub, if_pos rfl, hrun, Option.map_some, solveSign_of_not_nsw]
    · have hsum := hk.sound hx hy (allowed_add.mpr rfl)
      rwa [← add_eq_sum] at hsum
  | false =>
    have hc : ¬(false && true) = true := by decide
    obtain ⟨k, hrun, hk⟩ := staticComputeForAddCarry_spec hL (swap_not_hasConflict hR) hc
    refine ⟨k, ?_, fun x hx y hy => ?_, fun h => ?_⟩
    · rw [computeForAddSub, if_neg (by decide), hrun, Option.map_some, solveSign_of_not_nsw]
    · have hsum := hk.sound hx (swap_mem.mpr hy) (allowed_sub.mpr rfl)
      rwa [← sub_eq_sum] at hsum
    · have hswap : SignBitKnown RHS.swap = SignBitKnown RHS := Bool.or_comm _ _
      rw [← hswap]
      exact hk.signBitKnown h

theorem computeForSatAddSub_spec (Add Signed : Bool) (hL : ¬LHS.hasConflict)
    (hR : ¬RHS.hasConflict) :
    ∃ k, computeForSatAddSub Add Signed LHS RHS = some k ∧
      ∀ x ∈ LHS, ∀ y ∈ RHS, satResult Add Signed x y ∈ k := by
  obtain ⟨Res, hrun, hres, hknown⟩ := computeForAddSub_res Add hL hR
  have hfit : ∀ x ∈ LHS, ∀ y ∈ RHS,
      Fits Add Signed LHS (satStrengthen Add Signed LHS RHS Res) (satResult Add Signed x y)
        (satOverflow Add Signed LHS RHS Res) := by
    intro x hx y hy
    have hxy := hres x hx y hy
    cases Signed with
    | true => exact fits_signed hx hy hxy hknown
    | false =>
      cases Add with
      | true => exact fits_uadd hx hy hxy
      | false => exact fits_usub hx hy hxy
  obtain ⟨k, hk, hmem⟩ := satFinish_spec
    (S := fun z => ∃ x ∈ LHS, ∃ y ∈ RHS, satResult Add Signed x y = z)
    ⟨_, _, min_mem hL, _, min_mem hR, rfl⟩ (fun z ⟨x, hx, y, hy, heq⟩ => heq ▸ hfit x hx y hy)
  refine ⟨k, ?_, fun x hx y hy => hmem _ ⟨x, hx, y, hy, rfl⟩⟩
  rw [computeForSatAddSub, if_neg (not_or.mpr ⟨hL, hR⟩), hrun, Option.bind_some, hk]

end Lemmas

end RvLlvm.KnownBits
