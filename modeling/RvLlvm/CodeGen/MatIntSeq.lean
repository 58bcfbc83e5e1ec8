import RvLlvm.CodeGen.MatIntImpl
import Mathlib.Tactic.Ring

/-!
# The competing sequences

`RISCVMatInt::generateInstSeq`: the recursive expansion of the constant, or a shorter sequence that
ends in an instruction of an extension. Each attempt expands another constant and gives back the
first one, so it keeps the invariant that the sequence at hand is right.

Results:
* `run_generateInstSeq`: on RV64 every constant, on RV32 every constant of 32 bits.
-/

namespace RvLlvm.CodeGen.MatInt

open Support

/-! ## The attempts -/

/-- Keep the new sequence if it is an improvement. -/
def improve (tmpSeq res : InstSeq) (i : Inst) : InstSeq :=
  if tmpSeq.length + 1 < res.length then tmpSeq ++ [i] else res

/-- No trailing zeros, and a final SLLI to restore them. -/
def trySLLI (f : FeatureBitset) (val : BitVec 64) (res : InstSeq) : InstSeq :=
  if val &&& 0xfff ≠ 0 ∧ val &&& 1 = 0 ∧ 2 ≤ res.length then
    let trailingZeros := val.ctz.toNat
    let shiftedVal := val.sshiftRight trailingZeros
    let isShiftedCompressible := isInt 6 shiftedVal ∧ ¬f.tuneLUIADDIFusion
    let tmpSeq := generateInstSeqImpl f shiftedVal
    if tmpSeq.length + 1 < res.length ∨ isShiftedCompressible then tmpSeq ++ [⟨.SLLI, trailingZeros⟩]
    else res
  else res

def maskTrailingOnes (n : Nat) : BitVec 64 := BitVec.allOnes 64 >>> (64 - n)

/-- No leading zeros, and a final SRLI (or ADD.UW of 32 ones) to restore them. -/
def trySRLI (f : FeatureBitset) (val : BitVec 64) (res : InstSeq) : InstSeq :=
  if 0 < val.toInt then
    let leadingZeros := val.clz.toNat
    -- Fill in the bits that will be shifted out with 1s.
    let shiftedVal := val <<< leadingZeros ||| maskTrailingOnes leadingZeros
    let res := improve (generateInstSeqImpl f shiftedVal) res ⟨.SRLI, leadingZeros⟩
    -- Some cases can benefit from filling the lower bits with zeros instead.
    let shiftedVal := shiftedVal &&& ~~~maskTrailingOnes leadingZeros
    let res := improve (generateInstSeqImpl f shiftedVal) res ⟨.SRLI, leadingZeros⟩
    if leadingZeros = 32 ∧ f.stdExtZba then
      improve (generateInstSeqImpl f (val ||| highOnes)) res ⟨.ADD_UW, 0⟩
    else res
  else res

/-- The low and high halves are the same. -/
def tryPACK (f : FeatureBitset) (val : BitVec 64) (res : InstSeq) : InstSeq :=
  if 2 < res.length ∧ f.stdExtZbkb then
    let loVal := signExtend64 32 val
    let hiVal := signExtend64 32 (val.sshiftRight 32)
    if loVal = hiVal then improve (generateInstSeqImpl f loVal) res ⟨.PACK, 0⟩ else res
  else res

def bit31 : BitVec 64 := 0x80000000

/-- One bit away from an int32. -/
def tryBit31 (f : FeatureBitset) (val : BitVec 64) (res : InstSeq) : InstSeq :=
  let newVal := if val.toInt < 0 then val ||| bit31 else val &&& ~~~bit31
  let opc := if val.toInt < 0 then .BCLRI else .BSETI
  if isInt 32 newVal then improve (generateInstSeqImpl f newVal) res ⟨opc, 31⟩ else res

theorem and_sub_one_lt {hi : BitVec 32} (h : hi ≠ 0) : (hi &&& (hi - 1)).toNat < hi.toNat := by
  have hpos : 0 < hi.toNat := Nat.pos_of_ne_zero fun h0 => h (BitVec.eq_of_toNat_eq h0)
  have hsub : (hi - 1).toNat = hi.toNat - 1 :=
    BitVec.toNat_sub_of_le (BitVec.le_def.mpr hpos)
  rw [BitVec.toNat_and, hsub]
  exact Nat.lt_of_le_of_lt Nat.and_le_right (Nat.sub_lt hpos Nat.one_pos)

/-- BCLRI or BSETI for each bit. -/
def bitInsts (opc : Opcode) (hi : BitVec 32) : InstSeq :=
  if h : hi = 0 then []
  else ⟨opc, (hi.ctz.toNat + 32 : Nat)⟩ :: bitInsts opc (hi &&& (hi - 1))
termination_by hi.toNat
decreasing_by exact and_sub_one_lt h

/-- The upper half bit by bit. -/
def tryUpperBits (f : FeatureBitset) (val : BitVec 64) (res : InstSeq) : InstSeq :=
  let lo := val.setWidth 32
  let hi := (val >>> 32).setWidth 32
  let tmpSeq := generateInstSeqImpl f (lo.signExtend 64)
  let tmpSeq' :=
    if 0 < lo.toInt ∧ tmpSeq.length + hi.cpop.toNat < res.length then
      some (tmpSeq ++ bitInsts .BSETI hi)
    else if lo.toInt < 0 ∧ tmpSeq.length + (~~~hi).cpop.toNat < res.length then
      some (tmpSeq ++ bitInsts .BCLRI (~~~hi))
    else none
  match tmpSeq' with
  | some tmpSeq => if tmpSeq.length < res.length then tmpSeq else res
  | none => res

def tryZbs (f : FeatureBitset) (val : BitVec 64) (res : InstSeq) : InstSeq :=
  if 2 < res.length ∧ f.stdExtZbs then tryUpperBits f val (tryBit31 f val res) else res

/-- The quotient, and the instruction that multiplies by the divisor. -/
def selectShAdd (val : BitVec 64) : Option (BitVec 64 × Opcode) :=
  let quotient (div : Int) : BitVec 64 := BitVec.ofInt 64 (val.toInt.tdiv div)
  if val.toInt.tmod 3 = 0 ∧ isInt 32 (quotient 3) then some (quotient 3, .SH1ADD)
  else if val.toInt.tmod 5 = 0 ∧ isInt 32 (quotient 5) then some (quotient 5, .SH2ADD)
  else if val.toInt.tmod 9 = 0 ∧ isInt 32 (quotient 9) then some (quotient 9, .SH3ADD)
  else none

def tryShAdd (f : FeatureBitset) (val : BitVec 64) (res : InstSeq) : InstSeq :=
  if 2 < res.length ∧ f.stdExtZba then
    match selectShAdd val with
    | some (quotient, opc) => improve (generateInstSeqImpl f quotient) res ⟨opc, 0⟩
    | none =>
      -- Try to use LUI+SH*ADD+ADDI.
      let hi52 := (val + 0x800) &&& ~~~0xfff
      let lo12 := signExtend64 12 val
      match selectShAdd hi52 with
      | some (quotient, opc) =>
        let tmpSeq := generateInstSeqImpl f quotient
        if tmpSeq.length + 2 < res.length then tmpSeq ++ [⟨opc, 0⟩, ⟨.ADDI, lo12.toInt⟩] else res
      | none => res
  else res

def countlOne {w : Nat} (x : BitVec w) : Nat := (~~~x).clz.toNat

def countrOne {w : Nat} (x : BitVec w) : Nat := (~~~x).ctz.toNat

def extractRotateInfo (val : BitVec 64) : Nat :=
  -- for case: 0b111..1..xxxxxx1..1..
  let leadingOnes := countlOne val
  let trailingOnes := countrOne val
  if 0 < trailingOnes ∧ trailingOnes < 64 ∧ 64 - 12 < leadingOnes + trailingOnes then
    64 - trailingOnes
  else
    -- for case: 0bxxx1..1..1...xxx
    let upperTrailingOnes := countrOne ((val >>> 32).setWidth 32)
    let lowerLeadingOnes := countlOne (val.setWidth 32)
    if upperTrailingOnes < 32 ∧ 64 - 12 < upperTrailingOnes + lowerLeadingOnes then
      32 - upperTrailingOnes
    else 0

def tryRotate (f : FeatureBitset) (val : BitVec 64) (res : InstSeq) : InstSeq :=
  if 2 < res.length ∧ (f.stdExtZbb ∨ f.vendorXTHeadBb) then
    let rotate := extractRotateInfo val
    if rotate ≠ 0 then
      let negImm12 := val.rotateLeft rotate
      [⟨.ADDI, negImm12.toInt⟩, ⟨if f.stdExtZbb then .RORI else .TH_SRRI, rotate⟩]
    else res
  else res

def generateInstSeq (f : FeatureBitset) (val : BitVec 64) : InstSeq :=
  let res := trySLLI f val (generateInstSeqImpl f val)
  -- If we have a 1 or 2 instruction sequence this is the best we can do.
  if res.length ≤ 2 then res
  else tryRotate f val (tryShAdd f val (tryZbs f val (tryPACK f val (trySRLI f val res))))


/-! ## Each attempt is right -/

section
variable {f : FeatureBitset} {w : Nat} {val x : BitVec 64} {res tmpSeq : InstSeq} {i : Inst}

theorem run_improve {v : BitVec w} {y : BitVec w} (hres : run f w res = some v)
    (htmp : run f w tmpSeq = some y) (hexec : exec f y i = some v) :
    run f w (improve tmpSeq res i) = some v := by
  rw [improve]
  split
  · rw [run_concat htmp, hexec]
  · exact hres

theorem exec_srli {k : Nat} (h : k < 64) : exec f x ⟨.SRLI, k⟩ = some (x >>> k) :=
  if_pos ⟨Int.natCast_nonneg k, Int.ofNat_lt.mpr h⟩

theorem exec_add_uw (hf : f.feature64Bit) (hz : f.stdExtZba) :
    exec f x ⟨.ADD_UW, 0⟩ = some (zextW x) :=
  (if_pos ⟨hf, hz⟩).trans (congrArg some (BitVec.zero_add _))

theorem exec_bclri {k : Nat} (hz : f.stdExtZbs) (h : k < 64) :
    exec f x ⟨.BCLRI, k⟩ = some (x &&& ~~~BitVec.twoPow 64 k) :=
  if_pos ⟨hz, Int.natCast_nonneg k, Int.ofNat_lt.mpr h⟩

/-! ### SLLI -/

theorem ctz_lt_of_low (h : val &&& 0xfff ≠ 0) : val.ctz.toNat < 12 := by
  by_contra hge
  refine h (BitVec.eq_of_getLsbD_eq fun i hi => ?_)
  rw [BitVec.getLsbD_and]
  by_cases hi12 : i < 12
  · rw [BitVec.getLsbD_false_of_lt_ctz (by omega)]
    simp
  · have hmask : (0xfff : BitVec 64).getLsbD i = false := by
      rw [show (0xfff : BitVec 64) = BitVec.ofNat 64 (2 ^ 12 - 1) from rfl, BitVec.getLsbD_ofNat,
        Nat.testBit_two_pow_sub_one, decide_eq_false hi12, Bool.and_false]
    rw [hmask, Bool.and_false]
    simp

theorem ne_zero_of_low (h : val &&& 0xfff ≠ 0) : val ≠ 0 := by
  rintro rfl
  exact h rfl

theorem sshiftRight_ctz (val : BitVec 64) : val.sshiftRight val.ctz.toNat <<< val.ctz.toNat = val :=
  sshiftRight_shiftLeft fun _ hi => BitVec.getLsbD_false_of_lt_ctz hi

theorem run_trySLLI (hf : f.feature64Bit) (hres : run f 64 res = some val) :
    run f 64 (trySLLI f val res) = some val := by
  rw [trySLLI]
  split
  · rename_i h
    dsimp only
    split
    · rw [run_concat (run_generateInstSeqImpl hf _), exec_slli (ctz_lt (ne_zero_of_low h.1)),
        sshiftRight_ctz]
    · exact hres
  · exact hres

theorem isInt_sshiftRight {n : Nat} (hn : n ≤ 64) (hpos : 0 < n) (h : isInt n x) (k : Nat) :
    isInt n (x.sshiftRight k) := by
  rw [isInt_iff_bits hn hpos] at h ⊢
  have hall : ∀ i, n - 1 ≤ i → i < 64 → (x.sshiftRight k).getLsbD i = x.getLsbD (n - 1) := by
    intro i hi hlt
    rw [BitVec.getLsbD_sshiftRight, decide_eq_false (Nat.not_le.mpr hlt)]
    have hbit : ∀ j, n - 1 ≤ j → j < 64 → x.getLsbD j = x.getLsbD (n - 1) := fun j hj hj' => by
      rcases Nat.eq_or_lt_of_le hj with rfl | hj
      · rfl
      · exact h j (by omega) hj'
    split
    · exact hbit _ (by omega) ‹_›
    · exact hbit 63 (by omega) (by decide)
  intro i hi hlt
  rw [hall i (by omega) hlt, hall (n - 1) (Nat.le_refl _) (by omega)]

theorem run_trySLLI32 (hf : ¬f.feature64Bit) (h32 : isInt 32 val)
    (hres : run f 32 res = some (val.setWidth 32)) :
    run f 32 (trySLLI f val res) = some (val.setWidth 32) := by
  rw [trySLLI]
  split
  · rename_i h
    dsimp only
    split
    · have hlt := ctz_lt_of_low h.1
      have hshift := isInt_sshiftRight (by decide) (by decide) h32 val.ctz.toNat
      rw [run_concat (run_generateInstSeqImpl32 hf hshift), exec_slli (by omega)]
      refine congrArg some ?_
      conv => rhs; rw [← sshiftRight_ctz val]
      refine BitVec.eq_of_getLsbD_eq fun i hi => ?_
      simp only [BitVec.getLsbD_shiftLeft, BitVec.getLsbD_setWidth, hi, decide_true, Bool.true_and,
        show i - val.ctz.toNat < 32 by omega, show i < 64 by omega]
    · exact hres
  · exact hres

/-- A constant of six bits takes one. -/
theorem length_generateInstSeqImpl_six (f : FeatureBitset) (h : isInt 6 val) :
    (generateInstSeqImpl f val).length ≤ 1 := by
  have h32 : isInt 32 val := by
    rw [isInt] at h ⊢
    omega
  rw [generateInstSeqImpl]
  split
  · exact Nat.le_refl 1
  · obtain ⟨q, hhi, hlo, -⟩ := int32_split h32
    have himm := imm12_signExtend64 val
    rw [isInt] at h
    have hzero : ((val + 0x800).sshiftRight 12 &&& 0xFFFFF).toNat = 0 := by omega
    rw [int32Seq, hzero]
    simp

theorem length_trySLLI_le (f : FeatureBitset) (hres : res.length ≤ 2) :
    (trySLLI f val res).length ≤ 2 := by
  rw [trySLLI]
  split
  · dsimp only
    split
    · rename_i h
      rw [List.length_append, List.length_singleton]
      rcases h with h | h
      · omega
      · exact Nat.succ_le_succ (length_generateInstSeqImpl_six f h.1)
    · exact hres
  · exact hres

/-! ### SRLI and ADD.UW -/

theorem getLsbD_maskTrailingOnes {n : Nat} (hn : n ≤ 64) (i : Nat) :
    (maskTrailingOnes n).getLsbD i = decide (i < n) := by
  rw [maskTrailingOnes, BitVec.getLsbD_ushiftRight, BitVec.getLsbD_allOnes]
  exact decide_eq_decide.mpr (by omega)

theorem getLsbD_of_clz_le {x : BitVec w} {i : Nat} (h : w - x.clz.toNat ≤ i) :
    x.getLsbD i = false := by
  rw [← BitVec.testBit_toNat]
  exact Nat.testBit_lt_two_pow
    (Nat.lt_of_lt_of_le BitVec.toNat_lt_two_pow_sub_clz (Nat.pow_le_pow_right (by decide) h))

/-- A value whose upper bits are those of `val` is shifted right to it. -/
theorem ushiftRight_clz {y : BitVec 64} (h : ∀ i, i + val.clz.toNat < 64 →
    y.getLsbD (i + val.clz.toNat) = val.getLsbD i) : y >>> val.clz.toNat = val := by
  refine BitVec.eq_of_getLsbD_eq fun i hi => ?_
  rw [BitVec.getLsbD_ushiftRight, Nat.add_comm]
  by_cases hlt : i + val.clz.toNat < 64
  · exact h i hlt
  · rw [BitVec.getLsbD_of_ge _ _ (Nat.not_lt.mp hlt), getLsbD_of_clz_le (by omega)]

theorem run_trySRLI (hf : f.feature64Bit) (hres : run f 64 res = some val) :
    run f 64 (trySRLI f val res) = some val := by
  rw [trySRLI]
  split
  · rename_i hval
    have hne : val ≠ 0 := by
      rintro rfl
      exact absurd hval (by decide)
    have hlz : val.clz.toNat < 64 := BitVec.clz_lt_iff_ne_zero.mpr hne
    have hones : (val <<< val.clz.toNat ||| maskTrailingOnes val.clz.toNat) >>> val.clz.toNat =
        val := ushiftRight_clz fun i hi => by
      have hnot := Nat.not_lt.mpr (Nat.le_add_left val.clz.toNat i)
      rw [BitVec.getLsbD_or, getLsbD_maskTrailingOnes hlz.le, BitVec.getLsbD_shiftLeft]
      simp [hi, hnot]
    have hzeros : ((val <<< val.clz.toNat ||| maskTrailingOnes val.clz.toNat) &&&
        ~~~maskTrailingOnes val.clz.toNat) >>> val.clz.toNat = val := ushiftRight_clz fun i hi => by
      have hnot := Nat.not_lt.mpr (Nat.le_add_left val.clz.toNat i)
      rw [BitVec.getLsbD_and, BitVec.getLsbD_not, BitVec.getLsbD_or,
        getLsbD_maskTrailingOnes hlz.le, BitVec.getLsbD_shiftLeft]
      simp [hi, hnot]
    have hfirst := run_improve hres (run_generateInstSeqImpl hf _)
      ((exec_srli hlz).trans (congrArg some hones))
    have hsecond := run_improve hfirst (run_generateInstSeqImpl hf _)
      ((exec_srli hlz).trans (congrArg some hzeros))
    dsimp only
    split
    · rename_i hz
      have hsmall : val.toNat < 2 ^ 32 := by
        have hlt := BitVec.toNat_lt_two_pow_sub_clz (x := val)
        rwa [hz.1] at hlt
      exact run_improve hsecond (run_generateInstSeqImpl hf _)
        ((exec_add_uw hf hz.2).trans (congrArg some (zextW_or_highOnes hsmall)))
    · exact hsecond
  · exact hres

/-! ### PACK -/

theorem exec_pack (hz : f.stdExtZbkb) :
    exec f x ⟨.PACK, 0⟩ = some ((x.setWidth 32).setWidth 64 ||| x.setWidth 64 <<< 32) := if_pos hz

theorem run_tryPACK (hf : f.feature64Bit) (hres : run f 64 res = some val) :
    run f 64 (tryPACK f val res) = some val := by
  rw [tryPACK]
  split
  · rename_i h
    dsimp only
    split
    · rename_i heq
      refine run_improve hres (run_generateInstSeqImpl hf _)
        ((exec_pack h.2).trans (congrArg some (BitVec.eq_of_getLsbD_eq fun i hi => ?_)))
      have hlow : ∀ j < 32, (signExtend64 32 val).getLsbD j = val.getLsbD j := fun j hj => by
        rw [getLsbD_signExtend64 (by decide), if_pos hj, decide_eq_true (by omega), Bool.true_and]
      rw [BitVec.getLsbD_or, BitVec.getLsbD_shiftLeft]
      simp only [BitVec.getLsbD_setWidth, hi, decide_true, Bool.true_and]
      by_cases h32 : i < 32
      · simp [h32, hlow i h32]
      · have hhigh : (signExtend64 32 val).getLsbD (i - 32) = val.getLsbD i := by
          rw [heq, getLsbD_signExtend64 (by decide), if_pos (by omega),
            BitVec.getLsbD_sshiftRight, if_pos (by omega), Nat.add_sub_cancel' (by omega)]
          simp [show i - 32 < 64 by omega]
        rw [hhigh]
        simp [h32, show i - 32 < 64 by omega]
    · exact hres
  · exact hres

/-! ### BSETI and BCLRI -/

theorem getLsbD_bit31 (i : Nat) : bit31.getLsbD i = decide (i = 31) := by
  rw [show bit31 = BitVec.twoPow 64 31 from rfl, BitVec.getLsbD_twoPow]
  exact Bool.eq_iff_iff.mpr (by simp; omega)

theorem run_tryBit31 (hf : f.feature64Bit) (hz : f.stdExtZbs) (hval : ¬isInt 32 val)
    (hres : run f 64 res = some val) : run f 64 (tryBit31 f val res) = some val := by
  rw [tryBit31]
  by_cases hneg : val.toInt < 0
  · simp only [if_pos hneg]
    split
    · rename_i hnew
      have hclear : val.getLsbD 31 = false := by
        by_contra hset
        refine hval ((?_ : val ||| bit31 = val) ▸ hnew)
        refine BitVec.eq_of_getLsbD_eq fun i hi => ?_
        rw [BitVec.getLsbD_or, getLsbD_bit31]
        by_cases h : i = 31 <;> simp_all
      refine run_improve hres (run_generateInstSeqImpl hf _)
        ((exec_bclri hz (by decide)).trans (congrArg some (BitVec.eq_of_getLsbD_eq fun i hi => ?_)))
      rw [BitVec.getLsbD_and, BitVec.getLsbD_not, BitVec.getLsbD_or, getLsbD_bit31,
        show BitVec.twoPow 64 31 = bit31 from rfl, getLsbD_bit31]
      by_cases h : i = 31 <;> simp_all
    · exact hres
  · simp only [if_neg hneg]
    split
    · rename_i hnew
      have hset : val.getLsbD 31 = true := by
        by_contra hclear
        refine hval ((?_ : val &&& ~~~bit31 = val) ▸ hnew)
        refine BitVec.eq_of_getLsbD_eq fun i hi => ?_
        rw [BitVec.getLsbD_and, BitVec.getLsbD_not, getLsbD_bit31]
        by_cases h : i = 31 <;> simp_all
      refine run_improve hres (run_generateInstSeqImpl hf _)
        ((exec_bseti hz (by decide)).trans (congrArg some (BitVec.eq_of_getLsbD_eq fun i hi => ?_)))
      rw [BitVec.getLsbD_or, BitVec.getLsbD_and, BitVec.getLsbD_not, getLsbD_bit31,
        show BitVec.twoPow 64 31 = bit31 from rfl, getLsbD_bit31]
      by_cases h : i = 31 <;> simp_all
    · exact hres

/-- The upper half, in place. -/
def upper (hi : BitVec 32) : BitVec 64 := hi.setWidth 64 <<< 32

theorem getLsbD_upper (hi : BitVec 32) (i : Nat) :
    (upper hi).getLsbD i = (decide (32 ≤ i) && hi.getLsbD (i - 32)) := by
  rw [upper, BitVec.getLsbD_shiftLeft, BitVec.getLsbD_setWidth]
  by_cases h : 32 ≤ i
  · by_cases h64 : i < 64
    · simp [h, h64, show i - 32 < 64 by omega]
    · rw [BitVec.getLsbD_of_ge hi _ (by omega)]
      simp
  · simp [h]

theorem upper_ctz {hi : BitVec 32} (h : hi ≠ 0) :
    upper hi = upper (hi &&& (hi - 1)) ||| BitVec.twoPow 64 (hi.ctz.toNat + 32) := by
  have hlt : hi.ctz.toNat < 32 := BitVec.ctz_lt_iff_ne_zero.mpr h
  have hbit := BitVec.getLsbD_true_ctz_of_ne_zero h
  refine BitVec.eq_of_getLsbD_eq fun i hi' => ?_
  rw [BitVec.getLsbD_or, getLsbD_upper, getLsbD_upper, and_sub_one h, BitVec.getLsbD_and,
    BitVec.getLsbD_not, BitVec.getLsbD_twoPow, BitVec.getLsbD_twoPow]
  by_cases hc : i = hi.ctz.toNat + 32
  · subst hc
    simp [hbit, show hi.ctz.toNat + 32 < 64 by omega]
  · by_cases h32 : 32 ≤ i
    · simp [h32, Ne.symm hc, show i - 32 < 32 by omega, show hi.ctz.toNat ≠ i - 32 by omega]
    · simp [h32, Ne.symm hc]

theorem exec_bitInsts_bseti (hz : f.stdExtZbs) (hi : BitVec 32) (x : BitVec 64) :
    (bitInsts .BSETI hi).foldlM (exec f) x = some (x ||| upper hi) := by
  induction hi using bitInsts.induct generalizing x with
  | case1 =>
    rw [bitInsts, dif_pos rfl]
    exact congrArg some (by simp [upper])
  | case2 hi h ih =>
    have hlt : hi.ctz.toNat < 32 := BitVec.ctz_lt_iff_ne_zero.mpr h
    rw [bitInsts, dif_neg h, List.foldlM_cons, exec_bseti hz (by omega)]
    refine (ih _).trans (congrArg some ?_)
    rw [upper_ctz h, BitVec.or_assoc, BitVec.or_comm (BitVec.twoPow 64 _)]

theorem exec_bitInsts_bclri (hz : f.stdExtZbs) (hi : BitVec 32) (x : BitVec 64) :
    (bitInsts .BCLRI hi).foldlM (exec f) x = some (x &&& ~~~upper hi) := by
  induction hi using bitInsts.induct generalizing x with
  | case1 =>
    rw [bitInsts, dif_pos rfl]
    refine congrArg some (BitVec.eq_of_getLsbD_eq fun i hi => ?_)
    rw [BitVec.getLsbD_and, BitVec.getLsbD_not, getLsbD_upper]
    simp [hi]
  | case2 hi h ih =>
    have hlt : hi.ctz.toNat < 32 := BitVec.ctz_lt_iff_ne_zero.mpr h
    rw [bitInsts, dif_neg h, List.foldlM_cons, exec_bclri hz (by omega)]
    refine (ih _).trans (congrArg some ?_)
    rw [upper_ctz h, BitVec.not_or, BitVec.and_assoc, BitVec.and_comm (~~~BitVec.twoPow 64 _)]

theorem run_tryUpperBits (hf : f.feature64Bit) (hz : f.stdExtZbs)
    (hres : run f 64 res = some val) : run f 64 (tryUpperBits f val res) = some val := by
  have hlo : ∀ i < 64, ((val.setWidth 32).signExtend 64).getLsbD i =
      if i < 32 then val.getLsbD i else (val.setWidth 32).msb := fun i hi => by
    rw [BitVec.getLsbD_signExtend, decide_eq_true hi, Bool.true_and, BitVec.getLsbD_setWidth]
    split
    · rename_i h
      rw [decide_eq_true h, Bool.true_and]
    · rfl
  have hhi : ∀ i, 32 ≤ i → i < 64 → ((val >>> 32).setWidth 32).getLsbD (i - 32) = val.getLsbD i :=
    fun i h32 h64 => by
      rw [BitVec.getLsbD_setWidth, BitVec.getLsbD_ushiftRight, decide_eq_true (by omega),
        Bool.true_and, Nat.add_sub_cancel' h32]
  have htmp := run_generateInstSeqImpl hf ((val.setWidth 32).signExtend 64)
  rw [tryUpperBits]
  split
  · rename_i tmpSeq hsome
    suffices hrun : run f 64 tmpSeq = some val by
      split
      · exact hrun
      · exact hres
    split at hsome
    · rename_i hpos
      obtain rfl := Option.some.inj hsome
      have hmsb : (val.setWidth 32).msb = false := by
        rw [BitVec.msb_eq_toInt]
        exact decide_eq_false (by omega)
      rw [run_append htmp, exec_bitInsts_bseti hz]
      refine congrArg some (BitVec.eq_of_getLsbD_eq fun i hi => ?_)
      rw [BitVec.getLsbD_or, hlo i hi, getLsbD_upper, hmsb]
      by_cases h32 : 32 ≤ i
      · simp [h32, hhi i h32 hi, Nat.not_lt.mpr h32]
      · simp [h32, Nat.not_le.mp h32]
    · split at hsome
      · rename_i hneg
        obtain rfl := Option.some.inj hsome
        have hmsb : (val.setWidth 32).msb = true := by
          rw [BitVec.msb_eq_toInt]
          exact decide_eq_true hneg.1
        rw [run_append htmp, exec_bitInsts_bclri hz]
        refine congrArg some (BitVec.eq_of_getLsbD_eq fun i hi => ?_)
        rw [BitVec.getLsbD_and, BitVec.getLsbD_not, hlo i hi, getLsbD_upper, hmsb,
          BitVec.getLsbD_not]
        by_cases h32 : 32 ≤ i
        · simp only [hhi i h32 hi]
          simp [h32, hi, Nat.not_lt.mpr h32, show i - 32 < 32 by omega]
        · simp [h32, hi, Nat.not_le.mp h32]
      · cases hsome
  · exact hres

theorem run_tryZbs (hf : f.feature64Bit) (hval : ¬isInt 32 val) (hres : run f 64 res = some val) :
    run f 64 (tryZbs f val res) = some val := by
  rw [tryZbs]
  split
  · rename_i hz
    exact run_tryUpperBits hf hz.2 (run_tryBit31 hf hz.2 hval hres)
  · exact hres

/-! ### SH1ADD, SH2ADD and SH3ADD -/

theorem exec_selectShAdd (hz : f.stdExtZba) {q : BitVec 64} {opc : Opcode}
    (h : selectShAdd val = some (q, opc)) : exec f q ⟨opc, 0⟩ = some val := by
  have hmul : ∀ (k d : Nat), d = 2 ^ k + 1 → val.toInt.tmod d = 0 →
      BitVec.ofInt 64 (val.toInt.tdiv d) + BitVec.ofInt 64 (val.toInt.tdiv d) <<< k = val := by
    rintro k _ rfl hmod
    have hdiv := Int.tmod_add_mul_tdiv val.toInt ((2 ^ k + 1 : Nat) : Int)
    rw [hmod, Int.zero_add] at hdiv
    have htwo : BitVec.twoPow 64 k = BitVec.ofInt 64 ((2 ^ k : Nat) : Int) := by
      rw [BitVec.ofInt_natCast]
      exact BitVec.eq_of_toNat_eq (by rw [BitVec.toNat_twoPow, BitVec.toNat_ofNat])
    rw [BitVec.shiftLeft_eq_mul_twoPow, htwo, ← BitVec.ofInt_mul, ← BitVec.ofInt_add]
    conv => rhs; rw [← @BitVec.ofInt_toInt 64 val, ← hdiv]
    congr 1
    push_cast
    ring
  rw [selectShAdd] at h
  dsimp only at h
  split at h
  · rename_i h3
    obtain ⟨rfl, rfl⟩ := Prod.mk.inj (Option.some.inj h)
    exact (if_pos hz).trans (congrArg some (hmul 1 3 rfl h3.1))
  · split at h
    · rename_i h5
      obtain ⟨rfl, rfl⟩ := Prod.mk.inj (Option.some.inj h)
      exact (if_pos hz).trans (congrArg some (hmul 2 5 rfl h5.1))
    · split at h
      · rename_i h9
        obtain ⟨rfl, rfl⟩ := Prod.mk.inj (Option.some.inj h)
        exact (if_pos hz).trans (congrArg some (hmul 3 9 rfl h9.1))
      · cases h

theorem toInt_or (x : BitVec 64) : x.toInt = x.toNat ∨ x.toInt = x.toNat - 2 ^ 64 := by
  rw [BitVec.toInt_eq_toNat_cond]
  split
  · exact .inl rfl
  · exact .inr rfl

theorem round_sub {n s : Nat} {v l q : Int} (hs : s < 2 ^ 64)
    (hv : v = n ∨ v = n - 2 ^ 64) (hl : l = s ∨ l = s - 2 ^ 64) (hlo : -2 ^ 11 ≤ l)
    (hhi : l < 2 ^ 11) (hq : v = l + 2 ^ 12 * q) :
    (n + 0x800) % 2 ^ 64 / 2 ^ 12 * 2 ^ 12 % 2 ^ 64 = (2 ^ 64 - s + n) % 2 ^ 64 := by
  omega

theorem and_not_0xfff (y : BitVec 64) : y &&& ~~~(0xfff : BitVec 64) = y >>> 12 <<< 12 := by
  refine BitVec.eq_of_getLsbD_eq fun i hi => ?_
  rw [BitVec.getLsbD_and, BitVec.getLsbD_not, BitVec.getLsbD_shiftLeft,
    BitVec.getLsbD_ushiftRight, show (0xfff : BitVec 64) = BitVec.ofNat 64 (2 ^ 12 - 1) from rfl,
    BitVec.getLsbD_ofNat, Nat.testBit_two_pow_sub_one]
  by_cases h : i < 12
  · simp [h, hi]
  · simp [h, hi, Nat.add_sub_cancel' (Nat.not_lt.mp h)]

/-- Rounded to a multiple of 4096. -/
theorem hi52_eq (val : BitVec 64) :
    (val + 0x800) &&& ~~~(0xfff : BitVec 64) = val - signExtend64 12 val := by
  have himm := imm12_signExtend64 val
  have hq : val.toInt = (signExtend64 12 val).toInt + 2 ^ 12 * ((val.toInt + 0x800) / 2 ^ 12) := by
    rw [toInt_signExtend64 (by decide), Int.bmod_def]
    omega
  rw [and_not_0xfff]
  apply BitVec.eq_of_toNat_eq
  rw [BitVec.toNat_shiftLeft, BitVec.toNat_ushiftRight, BitVec.toNat_add, BitVec.toNat_sub,
    Nat.shiftLeft_eq, Nat.shiftRight_eq_div_pow]
  exact round_sub (signExtend64 12 val).isLt (toInt_or val) (toInt_or _) himm.1 himm.2 hq

theorem run_tryShAdd (hf : f.feature64Bit) (hres : run f 64 res = some val) :
    run f 64 (tryShAdd f val res) = some val := by
  rw [tryShAdd]
  split
  · rename_i h
    split
    · rename_i q opc hsel
      exact run_improve hres (run_generateInstSeqImpl hf q) (exec_selectShAdd h.2 hsel)
    · dsimp only
      split
      · rename_i q opc hsel
        split
        · have hmul := exec_selectShAdd h.2 hsel
          have hrun := (run_concat (run_generateInstSeqImpl hf q) ⟨opc, 0⟩).trans hmul
          have happ : generateInstSeqImpl f q ++
              [⟨opc, 0⟩, ⟨.ADDI, (signExtend64 12 val).toInt⟩] = generateInstSeqImpl f q ++
              [⟨opc, 0⟩] ++ [⟨.ADDI, (signExtend64 12 val).toInt⟩] := by simp
          rw [happ, run_concat hrun, exec_addi (imm12_signExtend64 val), hi52_eq,
            BitVec.ofInt_toInt, BitVec.sub_add_cancel]
        · exact hres
      · exact hres
  · exact hres

/-! ### RORI and TH.SRRI -/

theorem getLsbD_of_lt_countrOne {x : BitVec w} {i : Nat} (h : i < countrOne x) (hi : i < w) :
    x.getLsbD i = true := by
  have hbit := BitVec.getLsbD_false_of_lt_ctz h
  rw [BitVec.getLsbD_not, decide_eq_true hi, Bool.true_and, Bool.not_eq_false'] at hbit
  exact hbit

theorem getLsbD_of_le_countlOne {x : BitVec w} {i : Nat} (h : w - countlOne x ≤ i) (hi : i < w) :
    x.getLsbD i = true := by
  have hbit := getLsbD_of_clz_le (x := ~~~x) h
  rw [BitVec.getLsbD_not, decide_eq_true hi, Bool.true_and, Bool.not_eq_false'] at hbit
  exact hbit

theorem countlOne_le (x : BitVec w) : countlOne x ≤ w := by
  have h := BitVec.clz_le (x := ~~~x)
  rw [BitVec.le_def] at h
  exact h.trans (Nat.mod_le w _)

/-- The ones end up on top, at least 53 of them. -/
theorem extractRotateInfo_spec (h : extractRotateInfo val ≠ 0) : extractRotateInfo val < 64 ∧
    ∀ i, 11 ≤ i → i < 64 → (val.rotateLeft (extractRotateInfo val)).getLsbD i = true := by
  rw [extractRotateInfo] at h ⊢
  dsimp only at h ⊢
  split at h
  · rename_i hones
    rw [if_pos hones]
    refine ⟨by omega, fun i hi hlt => ?_⟩
    rw [BitVec.getLsbD_rotateLeft_of_le (by omega)]
    by_cases hwrap : i < 64 - countrOne val
    · rw [decide_eq_true hwrap, cond_true]
      exact getLsbD_of_le_countlOne (by omega) (by omega)
    · rw [decide_eq_false hwrap, cond_false, decide_eq_true hlt, Bool.true_and]
      exact getLsbD_of_lt_countrOne (by omega) (by omega)
  · rename_i hnot
    split at h
    · rename_i hones
      rw [if_neg hnot, if_pos hones]
      have hle := countlOne_le (val.setWidth 32)
      refine ⟨by omega, fun i hi hlt => ?_⟩
      rw [BitVec.getLsbD_rotateLeft_of_le (by omega), decide_eq_false (by omega), cond_false,
        decide_eq_true hlt, Bool.true_and]
      generalize hj : i - (32 - countrOne ((val >>> 32).setWidth 32)) = j
      by_cases hhigh : 32 ≤ j
      · have hbit : ((val >>> 32).setWidth 32).getLsbD (j - 32) = true :=
          getLsbD_of_lt_countrOne (by omega) (by omega)
        rwa [BitVec.getLsbD_setWidth, BitVec.getLsbD_ushiftRight, decide_eq_true (by omega),
          Bool.true_and, Nat.add_sub_cancel' hhigh] at hbit
      · have hbit : (val.setWidth 32).getLsbD j = true :=
          getLsbD_of_le_countlOne (by omega) (by omega)
        rwa [BitVec.getLsbD_setWidth, decide_eq_true (by omega), Bool.true_and] at hbit
    · exact absurd rfl h

theorem rotateRight_rotateLeft {r : Nat} (hr : r < 64) (x : BitVec 64) :
    (x.rotateLeft r).rotateRight r = x := by
  refine BitVec.eq_of_getLsbD_eq fun i hi => ?_
  rw [BitVec.getLsbD_rotateRight_of_lt hr, BitVec.getLsbD_rotateLeft_of_le hr,
    BitVec.getLsbD_rotateLeft_of_le hr]
  by_cases h : i < 64 - r
  · rw [decide_eq_true h, cond_true, decide_eq_false (by omega), cond_false,
      decide_eq_true (by omega), Bool.true_and, Nat.add_sub_cancel_left]
  · rw [decide_eq_false h, cond_false, decide_eq_true hi, Bool.true_and, decide_eq_true (by omega),
      cond_true, Nat.add_sub_cancel' (Nat.not_lt.mp h)]

theorem run_tryRotate (hres : run f 64 res = some val) :
    run f 64 (tryRotate f val res) = some val := by
  rw [tryRotate]
  split
  · rename_i h
    dsimp only
    split
    · rename_i hrot
      obtain ⟨hlt, hones⟩ := extractRotateInfo_spec hrot
      have himm : isInt 12 (val.rotateLeft (extractRotateInfo val)) :=
        (isInt_iff_bits (by decide) (by decide)).mpr fun i hi hi' => by
          rw [hones i (by omega) hi', hones 11 (by decide) (by decide)]
      have hfirst : run f 64 [⟨.ADDI, (val.rotateLeft (extractRotateInfo val)).toInt⟩] =
          some (val.rotateLeft (extractRotateInfo val)) := by
        rw [run_singleton, exec_addi himm, BitVec.ofInt_toInt]
        exact congrArg some (BitVec.zero_add _)
      refine (run_concat hfirst _).trans ?_
      by_cases hz : f.stdExtZbb
      · rw [if_pos hz]
        exact (if_pos ⟨hz, Int.natCast_nonneg _, Int.ofNat_lt.mpr hlt⟩).trans
          (congrArg some (rotateRight_rotateLeft hlt val))
      · rw [if_neg hz]
        exact (if_pos ⟨h.2.resolve_left hz, Int.natCast_nonneg _, Int.ofNat_lt.mpr hlt⟩).trans
          (congrArg some (rotateRight_rotateLeft hlt val))
    · exact hres
  · exact hres

end

/-! ## The sequence -/

theorem run_generateInstSeq_rv64 {f : FeatureBitset} (hf : f.feature64Bit) (val : BitVec 64) :
    run f 64 (generateInstSeq f val) = some val := by
  have hfirst := run_trySLLI hf (run_generateInstSeqImpl hf val)
  rw [generateInstSeq]
  split
  · exact hfirst
  · rename_i hlong
    have hwide : ¬isInt 32 val := fun h32 =>
      hlong (length_trySLLI_le f (length_generateInstSeqImpl_le f h32))
    have hpack := run_tryPACK hf (run_trySRLI hf hfirst)
    exact run_tryRotate (run_tryShAdd hf (run_tryZbs hf hwide hpack))

theorem run_generateInstSeq_rv32 {f : FeatureBitset} {val : BitVec 64} (hf : ¬f.feature64Bit)
    (h32 : isInt 32 val) : run f 32 (generateInstSeq f val) = some (val.setWidth 32) := by
  have hshort : (trySLLI f val (generateInstSeqImpl f val)).length ≤ 2 :=
    length_trySLLI_le f (length_generateInstSeqImpl_le f h32)
  rw [generateInstSeq, if_pos hshort]
  exact run_trySLLI32 hf h32 (run_generateInstSeqImpl32 hf h32)

/-- **Executing `generateInstSeq`'s sequence from `x0` leaves the constant**: every constant on
RV64, and every constant of 32 bits on RV32. -/
theorem run_generateInstSeq (f : FeatureBitset) (val : BitVec 64) :
    (f.feature64Bit → run f 64 (generateInstSeq f val) = some val) ∧
      (¬f.feature64Bit → isInt 32 val →
        run f 32 (generateInstSeq f val) = some (val.setWidth 32)) :=
  ⟨fun hf => run_generateInstSeq_rv64 hf val, fun hf h32 => run_generateInstSeq_rv32 hf h32⟩

/-- A constant that all extensions leave to the expansion, and one of RV32. -/
theorem run_generateInstSeq_words :
    run ⟨true, true, true, true, true, true, false⟩ 64
        (generateInstSeq ⟨true, true, true, true, true, true, false⟩ 0x123456789abcdef0) =
      some 0x123456789abcdef0 ∧
    run ⟨false, true, false, true, false, false, false⟩ 32
        (generateInstSeq ⟨false, true, false, true, false, false, false⟩ 0x12345678) =
      some 0x12345678 :=
  ⟨(run_generateInstSeq _ _).1 rfl, (run_generateInstSeq _ _).2 (by decide) (by decide)⟩

end RvLlvm.CodeGen.MatInt
