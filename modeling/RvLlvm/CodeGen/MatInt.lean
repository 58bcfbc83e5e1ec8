import RvLlvm.Support.SignedWord

/-!
# Materialising an immediate

`RISCVMatInt` (`llvm/lib/Target/RISCV/MCTargetDesc/RISCVMatInt.cpp`): the instructions that leave a
constant in a register, and what they do by the ISA.

* `generateInstSeqImpl` peels the low 12 bits off the constant and shifts the rest down, until 32
  bits are left for LUI and ADDI(W).
* `generateInstSeq` then tries, one after the other, to do better with the extensions at hand.
* `exec` runs one instruction; `none` is an immediate that cannot be encoded or an instruction that
  the target does not have.
-/

namespace RvLlvm.CodeGen.MatInt

open Support

/-! ## Targets and instructions -/

/-- The features that the code asks for. -/
structure FeatureBitset where
  feature64Bit : Bool
  stdExtZba : Bool
  stdExtZbb : Bool
  stdExtZbs : Bool
  stdExtZbkb : Bool
  vendorXTHeadBb : Bool
  tuneLUIADDIFusion : Bool
deriving DecidableEq, Repr

inductive Opcode
  | LUI | ADDI | ADDIW | SLLI | SRLI | SLLI_UW | ADD_UW | SH1ADD | SH2ADD | SH3ADD
  | BSETI | BCLRI | RORI | TH_SRRI | PACK
deriving DecidableEq, Repr

/-- `RISCVMatInt::Inst`. -/
structure Inst where
  opc : Opcode
  imm : Int
deriving DecidableEq, Repr

abbrev InstSeq := List Inst

inductive OpndKind | RegImm | Imm | RegReg | RegX0
deriving DecidableEq, Repr

def Inst.getOpndKind (i : Inst) : OpndKind :=
  match i.opc with
  | .LUI => .Imm
  | .ADD_UW => .RegX0
  | .SH1ADD | .SH2ADD | .SH3ADD | .PACK => .RegReg
  | _ => .RegImm

/-! ## The instructions by the ISA -/

/-- The target has the instruction, and its immediate can be encoded (`w` bits in a register). -/
def Inst.legal (f : FeatureBitset) (w : Nat) (i : Inst) : Prop :=
  match i.opc with
  | .LUI => 0 ≤ i.imm ∧ i.imm < 2 ^ 20
  | .ADDI => -2 ^ 11 ≤ i.imm ∧ i.imm < 2 ^ 11
  | .ADDIW => f.feature64Bit ∧ -2 ^ 11 ≤ i.imm ∧ i.imm < 2 ^ 11
  | .SLLI | .SRLI => 0 ≤ i.imm ∧ i.imm < w
  | .SLLI_UW => f.feature64Bit ∧ f.stdExtZba ∧ 0 ≤ i.imm ∧ i.imm < w
  | .ADD_UW => f.feature64Bit ∧ f.stdExtZba
  | .SH1ADD | .SH2ADD | .SH3ADD => f.stdExtZba
  | .BSETI | .BCLRI => f.stdExtZbs ∧ 0 ≤ i.imm ∧ i.imm < w
  | .RORI => f.stdExtZbb ∧ 0 ≤ i.imm ∧ i.imm < w
  | .TH_SRRI => f.vendorXTHeadBb ∧ 0 ≤ i.imm ∧ i.imm < w
  | .PACK => f.stdExtZbkb

instance (f : FeatureBitset) (w : Nat) (i : Inst) : Decidable (i.legal f w) := by
  unfold Inst.legal
  cases i.opc <;> exact inferInstance

variable {w : Nat}

/-- The register's low 32 bits, as an unsigned number. -/
def zextW (x : BitVec w) : BitVec w := (x.setWidth 32).setWidth w

/-- What an instruction computes from its source registers. -/
def Inst.value (i : Inst) (rs1 rs2 : BitVec w) : BitVec w :=
  match i.opc with
  | .LUI => (BitVec.ofInt 32 (i.imm * 2 ^ 12)).signExtend w
  | .ADDI => rs1 + BitVec.ofInt w i.imm
  | .ADDIW => (rs1.setWidth 32 + BitVec.ofInt 32 i.imm).signExtend w
  | .SLLI => rs1 <<< i.imm.toNat
  | .SRLI => rs1 >>> i.imm.toNat
  | .SLLI_UW => zextW rs1 <<< i.imm.toNat
  | .ADD_UW => rs2 + zextW rs1
  | .SH1ADD => rs2 + rs1 <<< 1
  | .SH2ADD => rs2 + rs1 <<< 2
  | .SH3ADD => rs2 + rs1 <<< 3
  | .BSETI => rs1 ||| BitVec.twoPow w i.imm.toNat
  | .BCLRI => rs1 &&& ~~~BitVec.twoPow w i.imm.toNat
  | .RORI | .TH_SRRI => rs1.rotateRight i.imm.toNat
  | .PACK => (rs1.setWidth (w / 2)).setWidth w ||| (rs2.setWidth w) <<< (w / 2)

/-- One instruction of the sequence on the destination register (`RISCVInstrInfo::movImm`). -/
def exec (f : FeatureBitset) (x : BitVec w) (i : Inst) : Option (BitVec w) :=
  if i.legal f w then some (i.value x (if i.getOpndKind = .RegX0 then 0 else x)) else none

/-- The sequence, from `x0`. -/
def run (f : FeatureBitset) (w : Nat) (seq : InstSeq) : Option (BitVec w) :=
  seq.foldlM (exec f) 0

/-! ## The recursive expansion -/

/-- The value, the amount and the kind of the shift that gives `val` back. -/
structure Shifted where
  val : BitVec 64
  amount : Nat
  isUnsigned : Bool

def highOnes : BitVec 64 := 0xffffffff00000000

/-- Leave 12 zeros where LUI has them. -/
def shiftForLUI (f : FeatureBitset) (val : BitVec 64) (amount : Nat) : Shifted :=
  if 12 < amount ∧ ¬isInt 12 val then
    if isInt 32 (val <<< 12) then ⟨val <<< 12, amount - 12, false⟩
    else if (val <<< 12).toNat < 2 ^ 32 ∧ f.stdExtZba then
      ⟨val <<< 12 ||| highOnes, amount - 12, true⟩
    else ⟨val, amount, false⟩
  else ⟨val, amount, false⟩

/-- Try to use SLLI_UW for `Val` when it is uint32 but not int32. -/
def shiftUW (f : FeatureBitset) (s : Shifted) : Shifted :=
  if s.val.toNat < 2 ^ 32 ∧ ¬isInt 32 s.val ∧ f.stdExtZba then ⟨s.val ||| highOnes, s.amount, true⟩
  else s

/-- The middle of `generateInstSeqImpl`: the low 12 bits of `val` are zero. -/
def shiftDown (f : FeatureBitset) (val : BitVec 64) : Shifted :=
  -- `Val` might now be valid for LUI without needing a shift.
  if isInt 32 val then ⟨val, 0, false⟩
  else shiftUW f (shiftForLUI f (val.sshiftRight val.ctz.toNat) val.ctz.toNat)

/-- LUI and ADDI(W), as far as they are needed. -/
def int32Seq (f : FeatureBitset) (val : BitVec 64) : InstSeq :=
  let hi20 := ((val + 0x800).sshiftRight 12 &&& 0xFFFFF).toNat
  let lo12 := (signExtend64 12 val).toInt
  (if hi20 ≠ 0 then [⟨.LUI, hi20⟩] else []) ++
    if lo12 ≠ 0 ∨ hi20 = 0 then [⟨if f.feature64Bit ∧ hi20 ≠ 0 then .ADDIW else .ADDI, lo12⟩] else []

/-- `has_single_bit`. -/
def isPowerOf2_64 (val : BitVec 64) : Prop := val ≠ 0 ∧ val &&& (val - 1) = 0

instance (val : BitVec 64) : Decidable (isPowerOf2_64 val) := inferInstanceAs (Decidable (_ ∧ _))

/-- The level of the recursion: a constant of 32 bits is not taken apart. -/
def level (val : BitVec 64) : Nat := if isInt 32 val then 0 else val.toInt.natAbs

theorem getLsbD_highOnes (i : Nat) : highOnes.getLsbD i = (decide (32 ≤ i) && decide (i < 64)) := by
  by_cases hi : i < 64
  · have hall : ∀ j : Fin 64, highOnes.getLsbD j = (decide (32 ≤ j.val) && decide (j.val < 64)) := by
      decide
    exact hall ⟨i, hi⟩
  · rw [BitVec.getLsbD_of_ge _ _ (Nat.not_lt.mp hi), decide_eq_false hi, Bool.and_false]

theorem getLsbD_of_toNat_lt {x : BitVec 64} (h : x.toNat < 2 ^ 32) {i : Nat} (hi : 32 ≤ i) :
    x.getLsbD i = false := by
  rw [← BitVec.testBit_toNat]
  exact Nat.testBit_lt_two_pow (Nat.lt_of_lt_of_le h (Nat.pow_le_pow_right (by decide) hi))

/-- With its upper half filled, a `uint32_t` that is no `int32_t` becomes one. -/
theorem isInt_or_highOnes {x : BitVec 64} (hx : x.toNat < 2 ^ 32) (hn : ¬isInt 32 x) :
    isInt 32 (x ||| highOnes) := by
  have hsign : x.getLsbD 31 = true := by
    by_contra hclear
    refine hn ((isInt_iff_bits (by decide) (by decide)).mpr fun i hi _ => ?_)
    rw [getLsbD_of_toNat_lt hx hi, Bool.eq_false_iff.mpr hclear]
  refine (isInt_iff_bits (by decide) (by decide)).mpr fun i hi hlt => ?_
  rw [BitVec.getLsbD_or, BitVec.getLsbD_or, getLsbD_highOnes, decide_eq_true hi, decide_eq_true hlt,
    hsign, Bool.true_and, Bool.or_true, Bool.true_or]

theorem shiftForLUI_val (f : FeatureBitset) (val : BitVec 64) (amount : Nat) :
    isInt 32 (shiftForLUI f val amount).val ∨ (shiftForLUI f val amount).val = val := by
  rw [shiftForLUI]
  split
  · split
    · rename_i h
      exact .inl h
    · split
      · rename_i hwide h
        exact .inl (isInt_or_highOnes h.1 hwide)
      · exact .inr rfl
  · exact .inr rfl

theorem shiftUW_val (f : FeatureBitset) (s : Shifted) :
    isInt 32 (shiftUW f s).val ∨ (shiftUW f s).val = s.val := by
  rw [shiftUW]
  split
  · rename_i h
    exact .inl (isInt_or_highOnes h.1 h.2.1)
  · exact .inr rfl

/-- What is left fits 32 bits, or nothing was done but the shift. -/
theorem shiftDown_val (f : FeatureBitset) (x : BitVec 64) :
    isInt 32 (shiftDown f x).val ∨ (shiftDown f x).val = x.sshiftRight x.ctz.toNat := by
  rw [shiftDown]
  split
  · rename_i h
    exact .inl h
  · rcases shiftUW_val f (shiftForLUI f (x.sshiftRight x.ctz.toNat) x.ctz.toNat) with h | h
    · exact .inl h
    · rw [h]
      exact shiftForLUI_val f _ _

/-- Without its low 12 bits. -/
theorem getLsbD_sub_signExtend64 (x : BitVec 64) {i : Nat} (hi : i < 12) :
    (x - signExtend64 12 x).getLsbD i = false := by
  have hlow : (x - signExtend64 12 x).setWidth 12 = 0 := by
    rw [BitVec.sub_eq_add_neg, BitVec.setWidth_add _ _ (by decide),
      BitVec.setWidth_neg_of_le (by decide), setWidth_signExtend64 (by decide), BitVec.add_right_neg]
    rfl
  have hbit := congrArg (fun y => y.getLsbD i) hlow
  simpa [hi] using hbit

theorem le_ctz {x : BitVec 64} (hx : x ≠ 0) (hlow : ∀ i < 12, x.getLsbD i = false) :
    12 ≤ x.ctz.toNat := by
  by_contra hlt
  have hset := BitVec.getLsbD_true_ctz_of_ne_zero hx
  rw [hlow _ (Nat.not_le.mp hlt)] at hset
  cases hset

theorem level_shiftDown_lt (f : FeatureBitset) {val : BitVec 64} (h : ¬isInt 32 val) :
    level (shiftDown f (val - signExtend64 12 val)).val < level val := by
  have hwide : 2 ^ 31 ≤ val.toInt.natAbs := by
    rw [isInt] at h
    omega
  rw [level, level, if_neg h]
  split
  · exact Nat.lt_of_lt_of_le (by decide) hwide
  · rename_i hs
    obtain hval := (shiftDown_val f (val - signExtend64 12 val)).resolve_left hs
    rw [hval] at hs ⊢
    have hne : val - signExtend64 12 val ≠ 0 := fun h0 => hs (by simp [h0, isInt])
    have hctz := le_ctz hne fun i hi => getLsbD_sub_signExtend64 val hi
    have hlo := isInt_signExtend64 (show 12 ≤ 64 by decide) (by decide) val
    rw [isInt] at hlo
    have hsmall : (val - signExtend64 12 val).toInt.natAbs ≤ val.toInt.natAbs + 2 ^ 11 := by
      rw [BitVec.toInt_sub, Int.bmod_def]
      omega
    have hshift : (val - signExtend64 12 val).toInt >>> (val - signExtend64 12 val).ctz.toNat =
        (val - signExtend64 12 val).toInt / 2 ^ 12 /
          2 ^ ((val - signExtend64 12 val).ctz.toNat - 12) := by
      rw [Int.ediv_ediv_of_nonneg (by decide), ← Int.pow_add, Nat.add_sub_cancel' hctz,
        Int.shiftRight_eq_div_pow]
      norm_cast
    have hle := Int.natAbs_ediv_le_natAbs ((val - signExtend64 12 val).toInt / 2 ^ 12)
      (2 ^ ((val - signExtend64 12 val).ctz.toNat - 12))
    rw [BitVec.toInt_sshiftRight, hshift]
    omega

def generateInstSeqImpl (f : FeatureBitset) (val : BitVec 64) : InstSeq :=
  if f.stdExtZbs ∧ isPowerOf2_64 val ∧ (¬isInt 32 val ∨ val = 0x800) then
    [⟨.BSETI, val.ctz.toNat⟩]
  else if h : isInt 32 val then int32Seq f val
  else
    let lo12 := signExtend64 12 val
    let s := shiftDown f (val - lo12)
    generateInstSeqImpl f s.val ++
      (if s.amount ≠ 0 then [⟨if s.isUnsigned then .SLLI_UW else .SLLI, s.amount⟩] else []) ++
      if lo12 ≠ 0 then [⟨.ADDI, lo12.toInt⟩] else []
termination_by level val
decreasing_by exact level_shiftDown_lt f h

end RvLlvm.CodeGen.MatInt
