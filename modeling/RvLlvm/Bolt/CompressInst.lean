import RvLlvm.Bolt.Exec

/-!
# Compressing single instructions

Model of `compressInst` (`bolt/lib/Passes/RISCV/RISCVCompressPeephole.cpp:36-355`) beside what the
instruction tables declare of the operands of the 32-bit and the 16-bit forms (`RISCVInstrInfo.td`,
`RISCVInstrInfoC.td`): their classes, the ranges of the immediates and the operands that are tied.

* `exec` reads the operands as they are declared, and means nothing of any other list.
* `compressInst_iff`: the form that is returned is declared so and does what the instruction does
  exactly when it has no tied operand (`Untied`): for those that have one it is left out.
-/

namespace RvLlvm.Bolt.Compress

open Support

/-! ## Instructions -/

/-- The opcodes of `RISCV` that the compression names. -/
inductive Op
  | addi | lui | slli | srli | srai | andi | add | sub | xor | or | and | lw | sw | jalr | ebreak
  | cNop | cAddi16sp | cAddi4spn | cLi | cAddi | cMv | cLui | cSlli | cSrli | cSrai | cAndi
  | cAdd | cSub | cXor | cOr | cAnd | cLwsp | cLw | cSwsp | cSw | cJr | cEbreak
  | other (n : Nat)
  deriving DecidableEq

/-- `MCInst`. -/
structure Inst where
  opcode : Op
  operands : List MCOperand
  deriving DecidableEq

def isX0 (r : MCPhysReg) : Bool := r == gpr 0

def isSP (r : MCPhysReg) : Bool := r == gpr 2

def isNonZeroGPR (r : MCPhysReg) : Bool := r != gpr 0

/-- `X8` to `X15`. -/
def isGPRC (r : MCPhysReg) : Bool := decide (gpr 8 ≤ r ∧ r ≤ gpr 15)

def isSImm6 (v : Int) : Bool := decide (-32 ≤ v ∧ v ≤ 31)

def isUImmScaled (v max scale : Int) : Bool := decide (0 ≤ v ∧ v ≤ max ∧ v % scale = 0)

def isCAddi16SPImm (v : Int) : Bool := decide (v ≠ 0 ∧ -512 ≤ v ∧ v ≤ 496 ∧ v % 16 = 0)

def make0 (op : Op) : Inst := ⟨op, []⟩

def makeReg (op : Op) (r : MCPhysReg) : Inst := ⟨op, [.reg r]⟩

def makeRegImm (op : Op) (r : MCPhysReg) (v : Int) : Inst := ⟨op, [.reg r, .imm v]⟩

def makeRegReg (op : Op) (a b : MCPhysReg) : Inst := ⟨op, [.reg a, .reg b]⟩

def makeRegRegImm (op : Op) (a b : MCPhysReg) (v : Int) : Inst := ⟨op, [.reg a, .reg b, .imm v]⟩

/-! ## The compression -/

def compressADDI (i : Inst) : Option Inst :=
  match i.operands with
  | .reg rd :: .reg rs1 :: .imm v :: _ =>
    if isX0 rd && isX0 rs1 && v == 0 then some (make0 .cNop)
    else if isSP rd && isSP rs1 && isCAddi16SPImm v then some (makeRegImm .cAddi16sp rd v)
    else if isGPRC rd && isSP rs1 && isUImmScaled v 1020 4 && v != 0 then
      some (makeRegRegImm .cAddi4spn rd rs1 v)
    else if isNonZeroGPR rd && isX0 rs1 && isSImm6 v then some (makeRegImm .cLi rd v)
    else if isNonZeroGPR rd && rd == rs1 && v != 0 && isSImm6 v then some (makeRegImm .cAddi rd v)
    else if isNonZeroGPR rd && isNonZeroGPR rs1 && v == 0 then some (makeRegReg .cMv rd rs1)
    else none
  | _ => none

def compressLUI (i : Inst) : Option Inst :=
  match i.operands with
  | .reg rd :: .imm v :: _ =>
    if rd == gpr 0 || rd == gpr 2 || v == 0 || !isSImm6 v then none
    else some (makeRegImm .cLui rd v)
  | _ => none

def compressShiftOrAndI (i : Inst) : Option Inst :=
  match i.operands with
  | .reg rd :: .reg rs1 :: .imm v :: _ =>
    if rd != rs1 then none
    else
      match i.opcode with
      | .slli =>
        if isNonZeroGPR rd && decide (1 ≤ v ∧ v ≤ 31) then some (makeRegImm .cSlli rd v) else none
      | .srli => if isGPRC rd && decide (1 ≤ v ∧ v ≤ 31) then
        some (makeRegImm .cSrli rd v) else none
      | .srai => if isGPRC rd && decide (1 ≤ v ∧ v ≤ 31) then
        some (makeRegImm .cSrai rd v) else none
      | .andi => if isGPRC rd && isSImm6 v then some (makeRegImm .cAndi rd v) else none
      | _ => none
  | _ => none

/-- `TryCA`. -/
def tryCA (rd rs1 rs2 : MCPhysReg) (op : Op) (commutative : Bool) : Option Inst :=
  if isGPRC rd && rd == rs1 && isGPRC rs2 then some (makeRegReg op rd rs2)
  else if commutative && isGPRC rd && rd == rs2 && isGPRC rs1 then some (makeRegReg op rd rs1)
  else none

def compressALU (i : Inst) : Option Inst :=
  match i.operands with
  | .reg rd :: .reg rs1 :: .reg rs2 :: _ =>
    match i.opcode with
    | .add =>
      if isNonZeroGPR rd && isX0 rs1 && isX0 rs2 then some (makeRegImm .cLi rd 0)
      else if isNonZeroGPR rd && isX0 rs1 && isNonZeroGPR rs2 then some (makeRegReg .cMv rd rs2)
      else if isNonZeroGPR rd && isNonZeroGPR rs1 && isX0 rs2 then some (makeRegReg .cMv rd rs1)
      else if isNonZeroGPR rd && rd == rs1 && isNonZeroGPR rs2 then some (makeRegReg .cAdd rd rs2)
      else if isNonZeroGPR rd && rd == rs2 && isNonZeroGPR rs1 then some (makeRegReg .cAdd rd rs1)
      else none
    | .sub => tryCA rd rs1 rs2 .cSub false
    | .xor => tryCA rd rs1 rs2 .cXor true
    | .or => tryCA rd rs1 rs2 .cOr true
    | .and => tryCA rd rs1 rs2 .cAnd true
    | _ => none
  | _ => none

def compressLoadStore (i : Inst) : Option Inst :=
  match i.operands with
  | .reg r :: .reg base :: .imm v :: _ =>
    match i.opcode with
    | .lw =>
      if isNonZeroGPR r && isSP base && isUImmScaled v 252 4 then
        some (makeRegRegImm .cLwsp r base v)
      else if isGPRC r && isGPRC base && isUImmScaled v 124 4 then
        some (makeRegRegImm .cLw r base v)
      else none
    | .sw =>
      if isSP base && isUImmScaled v 252 4 then some (makeRegRegImm .cSwsp r base v)
      else if isGPRC r && isGPRC base && isUImmScaled v 124 4 then
        some (makeRegRegImm .cSw r base v)
      else none
    | _ => none
  | _ => none

def compressJALR (i : Inst) : Option Inst :=
  match i.operands with
  | .reg rd :: .reg rs1 :: .imm v :: _ =>
    if v != 0 || !isNonZeroGPR rs1 then none
    else if rd == gpr 0 then some (makeReg .cJr rs1)
    else none
  | _ => none

/-- `compressInst`; `Out` is the result. -/
def compressInst (i : Inst) : Option Inst :=
  match i.opcode with
  | .addi => compressADDI i
  | .lui => compressLUI i
  | .slli | .srli | .srai | .andi => compressShiftOrAndI i
  | .add | .sub | .xor | .or | .and => compressALU i
  | .lw | .sw => compressLoadStore i
  | .jalr => compressJALR i
  | .ebreak => some (make0 .cEbreak)
  | _ => none

/-! ## Declared operands -/

/-- The register classes (`RISCVRegisterInfo.td`). -/
inductive RegClass
  | gpr | gprNoX0 | gprNoX0X2 | gprC | sp
  deriving DecidableEq

def RegClass.contains (c : RegClass) (r : MCPhysReg) : Bool :=
  match c with
  | .gpr => decide (Bolt.gpr 0 ≤ r ∧ r ≤ Bolt.gpr 31)
  | .gprNoX0 => decide (Bolt.gpr 1 ≤ r ∧ r ≤ Bolt.gpr 31)
  | .gprNoX0X2 => decide (Bolt.gpr 1 ≤ r ∧ r ≤ Bolt.gpr 31 ∧ r ≠ Bolt.gpr 2)
  | .gprC => decide (Bolt.gpr 8 ≤ r ∧ r ≤ Bolt.gpr 15)
  | .sp => r == Bolt.gpr 2

/-- The immediate operands. -/
inductive ImmClass
  | simm12 | uimm20Lui | uimmlog2xlen
  | simm6 | simm6nonzero | uimmlog2xlennonzero | cLuiImm
  | uimm7Lsb00 | uimm8Lsb00 | uimm10Lsb00nonzero | simm10Lsb0000nonzero
  deriving DecidableEq

/-- The immediates of a class, with registers of `w` bits. -/
def ImmClass.contains (w : Nat) (c : ImmClass) (v : Int) : Bool :=
  match c with
  | .simm12 => decide (-2048 ≤ v ∧ v < 2048)
  | .uimm20Lui => decide (0 ≤ v ∧ v < 2 ^ 20)
  | .uimmlog2xlen => decide (0 ≤ v ∧ v < if w = 64 then 64 else 32)
  | .simm6 => decide (-32 ≤ v ∧ v < 32)
  | .simm6nonzero => decide (v ≠ 0 ∧ -32 ≤ v ∧ v < 32)
  | .uimmlog2xlennonzero => decide (v ≠ 0 ∧ 0 ≤ v ∧ v < if w = 64 then 64 else 32)
  | .cLuiImm => decide (v ≠ 0 ∧ (0 ≤ v ∧ v < 32 ∨ 0xfffe0 ≤ v ∧ v ≤ 0xfffff))
  | .uimm7Lsb00 => decide (0 ≤ v ∧ v < 128 ∧ v % 4 = 0)
  | .uimm8Lsb00 => decide (0 ≤ v ∧ v < 256 ∧ v % 4 = 0)
  | .uimm10Lsb00nonzero => decide (v ≠ 0 ∧ 0 ≤ v ∧ v < 1024 ∧ v % 4 = 0)
  | .simm10Lsb0000nonzero => decide (v ≠ 0 ∧ -512 ≤ v ∧ v < 512 ∧ v % 16 = 0)

/-- The classes that a symbol may stand for. -/
def ImmClass.symbolic : ImmClass → Bool
  | .simm12 | .uimm20Lui | .simm6 | .simm6nonzero | .cLuiImm => true
  | _ => false

/-- A declared operand. -/
inductive OperandInfo
  | reg (c : RegClass)
  | imm (c : ImmClass)
  deriving DecidableEq

/-- The operands of an opcode, those written first; `none` where nothing is said here. -/
def operandInfo : Op → Option (List OperandInfo)
  | .addi | .andi | .jalr | .lw | .sw => some [.reg .gpr, .reg .gpr, .imm .simm12]
  | .lui => some [.reg .gpr, .imm .uimm20Lui]
  | .slli | .srli | .srai => some [.reg .gpr, .reg .gpr, .imm .uimmlog2xlen]
  | .add | .sub | .xor | .or | .and => some [.reg .gpr, .reg .gpr, .reg .gpr]
  | .ebreak | .cNop | .cEbreak => some []
  | .cAddi16sp => some [.reg .sp, .reg .sp, .imm .simm10Lsb0000nonzero]
  | .cAddi4spn => some [.reg .gprC, .reg .sp, .imm .uimm10Lsb00nonzero]
  | .cLi => some [.reg .gprNoX0, .imm .simm6]
  | .cAddi => some [.reg .gprNoX0, .reg .gprNoX0, .imm .simm6nonzero]
  | .cMv => some [.reg .gprNoX0, .reg .gprNoX0]
  | .cLui => some [.reg .gprNoX0X2, .imm .cLuiImm]
  | .cSlli => some [.reg .gprNoX0, .reg .gprNoX0, .imm .uimmlog2xlennonzero]
  | .cSrli | .cSrai => some [.reg .gprC, .reg .gprC, .imm .uimmlog2xlennonzero]
  | .cAndi => some [.reg .gprC, .reg .gprC, .imm .simm6]
  | .cAdd => some [.reg .gprNoX0, .reg .gprNoX0, .reg .gprNoX0]
  | .cSub | .cXor | .cOr | .cAnd => some [.reg .gprC, .reg .gprC, .reg .gprC]
  | .cLwsp => some [.reg .gprNoX0, .reg .sp, .imm .uimm8Lsb00]
  | .cSwsp => some [.reg .gpr, .reg .sp, .imm .uimm8Lsb00]
  | .cLw | .cSw => some [.reg .gprC, .reg .gprC, .imm .uimm7Lsb00]
  | .cJr => some [.reg .gprNoX0]
  | .other _ => none

/-- `Constraints`: the operand that is written is the first that is read. -/
def isTied : Op → Bool
  | .cAddi16sp | .cAddi | .cSlli | .cSrli | .cSrai | .cAndi | .cAdd | .cSub | .cXor | .cOr |
    .cAnd => true
  | _ => false

def OperandInfo.allows (w : Nat) : OperandInfo → MCOperand → Bool
  | .reg c, .reg r => c.contains r
  | .imm c, .imm v => c.contains w v
  | .imm c, .expr _ => c.symbolic
  | _, _ => false

/-- The operands are those declared, one for one. -/
def fits (w : Nat) : List OperandInfo → List MCOperand → Bool
  | [], [] => true
  | d :: ds, o :: os => d.allows w o && fits w ds os
  | _, _ => false

/-- The instruction has the operands that its opcode declares. -/
def wellFormed (w : Nat) (i : Inst) : Bool :=
  (match operandInfo i.opcode with
    | some ds => fits w ds i.operands
    | none => true) &&
    (!isTied i.opcode || i.operands[0]? == i.operands[1]?)

/-! ## What the instructions do -/

/-- Where execution goes on. -/
inductive Control (w : Nat)
  | next
  | jump (target : BitVec w)
  | trap
  deriving DecidableEq

/-- What an instruction does. -/
structure Effect (w : Nat) where
  state : State w
  control : Control w

section Exec

variable {w : Nat}

/-- A jump through a register; the lowest bit of the target is cleared. -/
def jumpTo (s : State w) (a : BitVec w) : Effect w := ⟨s, .jump (a &&& ~~~1#w)⟩

/-- Instructions of two registers and an immediate. -/
def execImm (pc : BitVec w) (op : Op) (d a : MCPhysReg) (v : Int) (s : State w) :
    Option (Effect w) :=
  match op with
  | .addi | .cAddi | .cAddi16sp | .cAddi4spn => some ⟨s.set d (s.get a + BitVec.ofInt w v), .next⟩
  | .andi | .cAndi => some ⟨s.set d (s.get a &&& BitVec.ofInt w v), .next⟩
  | .slli | .cSlli => some ⟨s.set d (s.get a <<< v.toNat), .next⟩
  | .srli | .cSrli => some ⟨s.set d (s.get a >>> v.toNat), .next⟩
  | .srai | .cSrai => some ⟨s.set d ((s.get a).sshiftRight v.toNat), .next⟩
  | .lw | .cLw | .cLwsp => some ⟨s.load d (s.get a + BitVec.ofInt w v) (4, true), .next⟩
  | .sw | .cSw | .cSwsp => some ⟨s.store d (s.get a + BitVec.ofInt w v) 4, .next⟩
  | .jalr => some (jumpTo (s.set d (pc + 4#w)) (s.get a + BitVec.ofInt w v))
  | _ => none

/-- Instructions of three registers. -/
def execReg (op : Op) (d a b : MCPhysReg) (s : State w) : Option (Effect w) :=
  match op with
  | .add | .cAdd => some ⟨s.set d (s.get a + s.get b), .next⟩
  | .sub | .cSub => some ⟨s.set d (s.get a - s.get b), .next⟩
  | .xor | .cXor => some ⟨s.set d (s.get a ^^^ s.get b), .next⟩
  | .or | .cOr => some ⟨s.set d (s.get a ||| s.get b), .next⟩
  | .and | .cAnd => some ⟨s.set d (s.get a &&& s.get b), .next⟩
  | _ => none

/-- One instruction at `pc`, with its operands as they are declared. -/
def exec (pc : BitVec w) (i : Inst) (s : State w) : Option (Effect w) :=
  match i.operands with
  | [.reg d, .reg a, .imm v] => execImm pc i.opcode d a v s
  | [.reg d, .reg a, .reg b] => execReg i.opcode d a b s
  | [.reg d, .imm v] =>
    match i.opcode with
    | .lui | .cLui => some ⟨s.set d (luiValue w v), .next⟩
    | .cLi => some ⟨s.set d (BitVec.ofInt w v), .next⟩
    | _ => none
  | [.reg d, .reg b] => if i.opcode = .cMv then some ⟨s.set d (s.get b), .next⟩ else none
  | [.reg a] => if i.opcode = .cJr then some (jumpTo s (s.get a)) else none
  | [] =>
    match i.opcode with
    | .cNop => some ⟨s, .next⟩
    | .ebreak | .cEbreak => some ⟨s, .trap⟩
    | _ => none
  | _ => none

end Exec

/-- A form that is declared so and does what the instruction does. -/
def Faithful (w : Nat) (i out : Inst) : Prop :=
  wellFormed w out = true ∧ ∀ (pc : BitVec w) s, exec pc out s = exec pc i s

/-- The operands are not those for which the compression takes a form with a tied operand. -/
def Untied (i : Inst) : Prop :=
  match i.opcode, i.operands with
  | .addi, .reg rd :: .reg rs1 :: .imm v :: _ =>
    ¬ (rd = rs1 ∧ rd ≠ gpr 0 ∧ v ≠ 0 ∧ (isSImm6 v ∨ rd = gpr 2 ∧ isCAddi16SPImm v))
  | .slli, .reg rd :: .reg rs1 :: .imm v :: _ => ¬ (rd = rs1 ∧ rd ≠ gpr 0 ∧ 1 ≤ v ∧ v ≤ 31)
  | .srli, .reg rd :: .reg rs1 :: .imm v :: _ | .srai, .reg rd :: .reg rs1 :: .imm v :: _ =>
    ¬ (rd = rs1 ∧ isGPRC rd ∧ 1 ≤ v ∧ v ≤ 31)
  | .andi, .reg rd :: .reg rs1 :: .imm v :: _ => ¬ (rd = rs1 ∧ isGPRC rd ∧ isSImm6 v)
  | .add, .reg rd :: .reg rs1 :: .reg rs2 :: _ =>
    ¬ (rd ≠ gpr 0 ∧ rs1 ≠ gpr 0 ∧ rs2 ≠ gpr 0 ∧ (rd = rs1 ∨ rd = rs2))
  | .sub, .reg rd :: .reg rs1 :: .reg rs2 :: _ => ¬ (isGPRC rd ∧ rd = rs1 ∧ isGPRC rs2)
  | .xor, .reg rd :: .reg rs1 :: .reg rs2 :: _ | .or, .reg rd :: .reg rs1 :: .reg rs2 :: _
  | .and, .reg rd :: .reg rs1 :: .reg rs2 :: _ =>
    ¬ (isGPRC rd ∧ isGPRC rs1 ∧ isGPRC rs2 ∧ (rd = rs1 ∨ rd = rs2))
  | _, _ => True

/-! ## Forms and instructions -/

section Forms

variable {w : Nat} {rd rs1 rs2 : MCPhysReg} {v : Int}

attribute [local grind =] isTied operandInfo fits OperandInfo.allows RegClass.contains
  ImmClass.contains wellFormed exec execImm execReg

theorem set_x0 (s : State w) (x : BitVec w) : s.set (gpr 0) x = s := if_pos (Nat.le_refl _)

theorem get_x0 (s : State w) : s.get (gpr 0) = 0 := s.get_of_le (Nat.le_refl _)

/-- What holds of every result holds of the one there is. -/
theorem forall_some_iff {x : Inst} {P : Inst → Prop} :
    (∀ out, some x = some out → P out) ↔ P x := by
  simp only [Option.some.injEq, forall_eq']

theorem forall_none_iff {P : Inst → Prop} :
    (∀ out, (none : Option Inst) = some out → P out) ↔ True := by
  simp

/-- A form with a tied operand has more than two operands. -/
theorem not_faithful_of_tied {i : Inst} {op : Op} (h : isTied op = true) (a b : MCOperand) :
    ¬ Faithful w i ⟨op, [a, b]⟩ := by
  rintro ⟨hform, -⟩
  cases op <;> simp [isTied, wellFormed, operandInfo, fits] at h hform

theorem faithful_nop : Faithful w ⟨.addi, [.reg (gpr 0), .reg (gpr 0), .imm 0]⟩ (make0 .cNop) := by
  refine ⟨rfl, fun pc s => ?_⟩
  simp only [exec, make0, execImm, set_x0]

theorem faithful_addi4spn (hrd : isGPRC rd) (himm : isUImmScaled v 1020 4) (hv : v ≠ 0) :
    Faithful w ⟨.addi, [.reg rd, .reg (gpr 2), .imm v]⟩
      (makeRegRegImm .cAddi4spn rd (gpr 2) v) := by
  simp only [isGPRC, isUImmScaled, decide_eq_true_eq] at hrd himm
  refine ⟨?_, fun pc s => rfl⟩
  simp [wellFormed, makeRegRegImm, operandInfo, fits, OperandInfo.allows, RegClass.contains,
    ImmClass.contains, isTied]
  exact ⟨hrd, hv, by omega⟩

/-- A register of the class without `X0`. -/
theorem gprNoX0_of_gpr {r : MCPhysReg} (h : RegClass.gpr.contains r) (h0 : r ≠ gpr 0) :
    RegClass.gprNoX0.contains r := by
  simp only [RegClass.contains, decide_eq_true_eq] at *
  unfold Bolt.gpr MCPhysReg at *
  omega

theorem wellFormed_li (hrd : RegClass.gprNoX0.contains rd) (hv : isSImm6 v) :
    wellFormed w (makeRegImm .cLi rd v) = true := by
  simp only [isSImm6, decide_eq_true_eq] at hv
  simp [wellFormed, makeRegImm, operandInfo, fits, OperandInfo.allows, ImmClass.contains,
    isTied, hrd]
  omega

theorem wellFormed_mv (hrd : RegClass.gprNoX0.contains rd) (hrs : RegClass.gprNoX0.contains rs1) :
    wellFormed w (makeRegReg .cMv rd rs1) = true := by
  simp [wellFormed, makeRegReg, operandInfo, fits, OperandInfo.allows, isTied, hrd, hrs]

theorem faithful_li (hrd : RegClass.gprNoX0.contains rd) (hv : isSImm6 v) :
    Faithful w ⟨.addi, [.reg rd, .reg (gpr 0), .imm v]⟩ (makeRegImm .cLi rd v) := by
  refine ⟨wellFormed_li hrd hv, fun pc s => ?_⟩
  simp [exec, makeRegImm, execImm, get_x0]

theorem faithful_mv (hrd : RegClass.gprNoX0.contains rd) (hrs : RegClass.gprNoX0.contains rs1) :
    Faithful w ⟨.addi, [.reg rd, .reg rs1, .imm 0]⟩ (makeRegReg .cMv rd rs1) := by
  refine ⟨wellFormed_mv hrd hrs, fun pc s => ?_⟩
  simp [exec, makeRegReg, execImm]

theorem compressADDI_iff (hrd : RegClass.gpr.contains rd) (hrs : RegClass.gpr.contains rs1) :
    (∀ out, compressADDI ⟨.addi, [.reg rd, .reg rs1, .imm v]⟩ = some out →
      Faithful w ⟨.addi, [.reg rd, .reg rs1, .imm v]⟩ out) ↔
      Untied ⟨.addi, [.reg rd, .reg rs1, .imm v]⟩ := by
  simp only [compressADDI, Untied]
  split_ifs with hnop hsp hspn hli hadd hmv <;>
    simp only [Bool.and_eq_true, beq_iff_eq, bne_iff_ne, isX0, isSP, isNonZeroGPR] at *
  · obtain ⟨⟨rfl, rfl⟩, rfl⟩ := hnop
    exact forall_some_iff.trans (iff_of_true faithful_nop fun h => h.2.1 rfl)
  · obtain ⟨⟨rfl, rfl⟩, himm⟩ := hsp
    have hv : v ≠ 0 := by
      simp only [isCAddi16SPImm, decide_eq_true_eq] at himm
      exact himm.1
    exact forall_some_iff.trans (iff_of_false (not_faithful_of_tied rfl _ _)
      (not_not_intro ⟨rfl, by decide, hv, .inr ⟨rfl, himm⟩⟩))
  · obtain ⟨⟨⟨hc, rfl⟩, himm⟩, hv⟩ := hspn
    refine forall_some_iff.trans (iff_of_true (faithful_addi4spn hc himm hv) fun h => ?_)
    rw [h.1] at hc
    exact absurd hc (by decide)
  · obtain ⟨⟨h0, rfl⟩, himm⟩ := hli
    exact forall_some_iff.trans (iff_of_true (faithful_li (gprNoX0_of_gpr hrd h0) himm)
      fun h => h0 h.1)
  · obtain ⟨⟨⟨h0, rfl⟩, hv⟩, himm⟩ := hadd
    exact forall_some_iff.trans (iff_of_false (not_faithful_of_tied rfl _ _)
      (not_not_intro ⟨rfl, h0, hv, .inl himm⟩))
  · obtain ⟨⟨h0, h1⟩, rfl⟩ := hmv
    exact forall_some_iff.trans (iff_of_true
      (faithful_mv (gprNoX0_of_gpr hrd h0) (gprNoX0_of_gpr hrs h1)) fun h => h.2.2.1 rfl)
  · refine iff_of_true (fun _ h => absurd h (by simp)) ?_
    rintro ⟨rfl, h0, hv, himm | ⟨rfl, himm⟩⟩
    · exact hadd ⟨⟨⟨h0, rfl⟩, hv⟩, himm⟩
    · exact hsp ⟨⟨rfl, rfl⟩, himm⟩

theorem compressLUI_iff (hrd : RegClass.gpr.contains rd) (hv : ImmClass.uimm20Lui.contains w v) :
    (∀ out, compressLUI ⟨.lui, [.reg rd, .imm v]⟩ = some out →
      Faithful w ⟨.lui, [.reg rd, .imm v]⟩ out) ↔ Untied ⟨.lui, [.reg rd, .imm v]⟩ := by
  refine iff_of_true (fun out hout => ?_) trivial
  simp only [compressLUI] at hout
  split at hout
  · exact absurd hout (by simp)
  next himm =>
    obtain rfl := Option.some.inj hout
    refine ⟨?_, fun pc s => rfl⟩
    simp only [Bool.or_eq_true, beq_iff_eq, Bool.not_eq_true', not_or, isSImm6,
      decide_eq_false_iff_not, RegClass.contains, ImmClass.contains, decide_eq_true_eq] at *
    simp [wellFormed, makeRegImm, operandInfo, fits, OperandInfo.allows, isTied, RegClass.contains,
      ImmClass.contains]
    unfold Bolt.gpr MCPhysReg at *
    omega

theorem compressShiftOrAndI_iff {op : Op}
    (hop : op = .slli ∨ op = .srli ∨ op = .srai ∨ op = .andi) :
    (∀ out, compressShiftOrAndI ⟨op, [.reg rd, .reg rs1, .imm v]⟩ = some out →
      Faithful w ⟨op, [.reg rd, .reg rs1, .imm v]⟩ out) ↔
      Untied ⟨op, [.reg rd, .reg rs1, .imm v]⟩ := by
  -- where a form is taken it has a tied operand
  have hshort : ∀ {c : Bool} {P : Prop} {form : Op}, isTied form = true → (c = true ↔ P) →
      ((∀ out, (if c then some (makeRegImm form rd v) else none) = some out →
        Faithful w ⟨op, [.reg rd, .reg rs1, .imm v]⟩ out) ↔ ¬ P) := by
    intro c P form hform hc
    rw [← hc]
    cases c with
    | true => exact forall_some_iff.trans (iff_of_false (not_faithful_of_tied hform _ _) (by simp))
    | false => exact forall_none_iff.trans (iff_of_true trivial (by simp))
  by_cases heq : rd = rs1
  · subst heq
    rcases hop with rfl | rfl | rfl | rfl <;>
      simp only [compressShiftOrAndI, bne_self_eq_false, Bool.false_eq_true, if_false, Untied,
        true_and] <;> refine hshort rfl ?_ <;> simp [isNonZeroGPR]
  · have hne : (rd != rs1) = true := by simpa using heq
    simp only [compressShiftOrAndI, hne, if_true]
    refine forall_none_iff.trans (iff_of_true trivial ?_)
    rcases hop with rfl | rfl | rfl | rfl <;> exact fun h => heq h.1

theorem tryCA_iff {i : Inst} {form : Op} (hform : isTied form = true) (commutative : Bool) :
    (∀ out, tryCA rd rs1 rs2 form commutative = some out → Faithful w i out) ↔
      ¬ (isGPRC rd ∧ (rd = rs1 ∧ isGPRC rs2 ∨ commutative ∧ rd = rs2 ∧ isGPRC rs1)) := by
  rw [tryCA]
  split_ifs with hleft hright <;> simp only [Bool.and_eq_true, beq_iff_eq] at *
  · exact forall_some_iff.trans (iff_of_false (not_faithful_of_tied hform _ _)
      (not_not_intro ⟨hleft.1.1, .inl ⟨hleft.1.2, hleft.2⟩⟩))
  · exact forall_some_iff.trans (iff_of_false (not_faithful_of_tied hform _ _)
      (not_not_intro ⟨hright.1.1.2, .inr ⟨hright.1.1.1, hright.1.2, hright.2⟩⟩))
  · refine iff_of_true (fun _ h => absurd h (by simp)) ?_
    rintro ⟨hc, ⟨heq, hc2⟩ | ⟨hcomm, heq, hc1⟩⟩
    · exact hleft ⟨⟨hc, heq⟩, hc2⟩
    · exact hright ⟨⟨⟨hcomm, hc⟩, heq⟩, hc1⟩

theorem faithful_li_add (hrd : RegClass.gprNoX0.contains rd) :
    Faithful w ⟨.add, [.reg rd, .reg (gpr 0), .reg (gpr 0)]⟩ (makeRegImm .cLi rd 0) := by
  refine ⟨wellFormed_li hrd (by decide), fun pc s => ?_⟩
  simp [exec, makeRegImm, execReg, get_x0]

theorem faithful_mv_right (hrd : RegClass.gprNoX0.contains rd)
    (hrs : RegClass.gprNoX0.contains rs2) :
    Faithful w ⟨.add, [.reg rd, .reg (gpr 0), .reg rs2]⟩ (makeRegReg .cMv rd rs2) := by
  refine ⟨wellFormed_mv hrd hrs, fun pc s => ?_⟩
  simp [exec, makeRegReg, execReg, get_x0]

theorem faithful_mv_left (hrd : RegClass.gprNoX0.contains rd)
    (hrs : RegClass.gprNoX0.contains rs1) :
    Faithful w ⟨.add, [.reg rd, .reg rs1, .reg (gpr 0)]⟩ (makeRegReg .cMv rd rs1) := by
  refine ⟨wellFormed_mv hrd hrs, fun pc s => ?_⟩
  simp [exec, makeRegReg, execReg, get_x0]

theorem compressADD_iff (hrd : RegClass.gpr.contains rd) (hrs1 : RegClass.gpr.contains rs1)
    (hrs2 : RegClass.gpr.contains rs2) :
    (∀ out, compressALU ⟨.add, [.reg rd, .reg rs1, .reg rs2]⟩ = some out →
      Faithful w ⟨.add, [.reg rd, .reg rs1, .reg rs2]⟩ out) ↔
      Untied ⟨.add, [.reg rd, .reg rs1, .reg rs2]⟩ := by
  simp only [compressALU, Untied]
  split_ifs with hli hright hleft hadd hswap <;>
    simp only [Bool.and_eq_true, beq_iff_eq, bne_iff_ne, isX0, isNonZeroGPR] at *
  · obtain ⟨⟨h0, rfl⟩, rfl⟩ := hli
    exact forall_some_iff.trans (iff_of_true (faithful_li_add (gprNoX0_of_gpr hrd h0))
      fun h => h.2.1 rfl)
  · obtain ⟨⟨h0, rfl⟩, h2⟩ := hright
    exact forall_some_iff.trans (iff_of_true
      (faithful_mv_right (gprNoX0_of_gpr hrd h0) (gprNoX0_of_gpr hrs2 h2)) fun h => h.2.1 rfl)
  · obtain ⟨⟨h0, h1⟩, rfl⟩ := hleft
    exact forall_some_iff.trans (iff_of_true
      (faithful_mv_left (gprNoX0_of_gpr hrd h0) (gprNoX0_of_gpr hrs1 h1)) fun h => h.2.2.1 rfl)
  · obtain ⟨⟨h0, rfl⟩, h2⟩ := hadd
    exact forall_some_iff.trans (iff_of_false (not_faithful_of_tied rfl _ _)
      (not_not_intro ⟨h0, h0, h2, .inl rfl⟩))
  · obtain ⟨⟨h0, rfl⟩, h1⟩ := hswap
    exact forall_some_iff.trans (iff_of_false (not_faithful_of_tied rfl _ _)
      (not_not_intro ⟨h0, h1, h0, .inr rfl⟩))
  · refine iff_of_true (fun _ h => absurd h (by simp)) ?_
    rintro ⟨h0, h1, h2, rfl | rfl⟩
    · exact hadd ⟨⟨h0, rfl⟩, h2⟩
    · exact hswap ⟨⟨h0, rfl⟩, h1⟩

theorem compressALU_iff {op : Op} (hop : op = .sub ∨ op = .xor ∨ op = .or ∨ op = .and) :
    (∀ out, compressALU ⟨op, [.reg rd, .reg rs1, .reg rs2]⟩ = some out →
      Faithful w ⟨op, [.reg rd, .reg rs1, .reg rs2]⟩ out) ↔
      Untied ⟨op, [.reg rd, .reg rs1, .reg rs2]⟩ := by
  rcases hop with rfl | rfl | rfl | rfl <;> simp only [compressALU, Untied] <;>
    refine (tryCA_iff rfl _).trans (not_congr ?_)
  · simp
  all_goals
    constructor
    · rintro ⟨hc, ⟨rfl, hc2⟩ | ⟨-, rfl, hc1⟩⟩
      · exact ⟨hc, hc, hc2, .inl rfl⟩
      · exact ⟨hc, hc1, hc, .inr rfl⟩
    · rintro ⟨hc, hc1, hc2, rfl | rfl⟩
      · exact ⟨hc, .inl ⟨rfl, hc2⟩⟩
      · exact ⟨hc, .inr ⟨rfl, rfl, hc1⟩⟩

/-- Loads and stores keep their operands. -/
theorem faithful_access {op form : Op} {a b : MCPhysReg}
    (hop : op = .lw ∧ (form = .cLw ∨ form = .cLwsp) ∨ op = .sw ∧ (form = .cSw ∨ form = .cSwsp))
    (hform : wellFormed w (makeRegRegImm form a b v) = true) :
    Faithful w ⟨op, [.reg a, .reg b, .imm v]⟩ (makeRegRegImm form a b v) := by
  refine ⟨hform, fun pc s => ?_⟩
  rcases hop with ⟨rfl, rfl | rfl⟩ | ⟨rfl, rfl | rfl⟩ <;> rfl

theorem compressLoadStore_faithful {op : Op} (hop : op = .lw ∨ op = .sw) {a b : MCPhysReg}
    (ha : RegClass.gpr.contains a) {out : Inst}
    (h : compressLoadStore ⟨op, [.reg a, .reg b, .imm v]⟩ = some out) :
    Faithful w ⟨op, [.reg a, .reg b, .imm v]⟩ out := by
  rcases hop with rfl | rfl <;> simp only [compressLoadStore] at h <;>
    split_ifs at h with hsp hc <;>
    obtain rfl := Option.some.inj h <;> refine faithful_access (by simp) ?_ <;>
    simp only [Bool.and_eq_true, isNonZeroGPR, isSP, isGPRC, isUImmScaled, RegClass.contains,
      decide_eq_true_eq, beq_iff_eq, bne_iff_ne] at * <;>
    simp [wellFormed, makeRegRegImm, operandInfo, fits, OperandInfo.allows, isTied,
      RegClass.contains, ImmClass.contains] <;> unfold Bolt.gpr MCPhysReg at * <;> omega

theorem compressJALR_faithful {out : Inst} (hrs : RegClass.gpr.contains rs1)
    (h : compressJALR ⟨.jalr, [.reg rd, .reg rs1, .imm v]⟩ = some out) :
    Faithful w ⟨.jalr, [.reg rd, .reg rs1, .imm v]⟩ out := by
  simp only [compressJALR] at h
  split_ifs at h with himm hrd
  obtain rfl := Option.some.inj h
  simp only [Bool.or_eq_true, not_or, isNonZeroGPR, bne_iff_ne, ne_eq, Decidable.not_not,
    Bool.not_eq_true', Bool.not_eq_false, beq_iff_eq] at himm hrd
  obtain ⟨rfl, h1⟩ := himm
  obtain rfl := hrd
  refine ⟨?_, fun pc s => ?_⟩
  · simp [wellFormed, makeReg, operandInfo, fits, OperandInfo.allows, isTied,
      gprNoX0_of_gpr hrs h1]
  · simp [exec, makeReg, execImm, set_x0]

end Forms

/-! ## Every instruction -/

section Operands

variable {w : Nat} {os : List MCOperand}

theorem fits_cons {d : OperandInfo} {ds : List OperandInfo} (h : fits w (d :: ds) os = true) :
    ∃ o rest, os = o :: rest ∧ d.allows w o = true ∧ fits w ds rest = true := by
  cases os with
  | nil => exact absurd h (by simp [fits])
  | cons o rest =>
    rw [fits, Bool.and_eq_true] at h
    exact ⟨o, rest, rfl, h⟩

theorem fits_nil (h : fits w [] os = true) : os = [] := by
  cases os with
  | nil => rfl
  | cons o rest => exact absurd h (by simp [fits])

theorem allows_reg {c : RegClass} {o : MCOperand} (h : (OperandInfo.reg c).allows w o = true) :
    ∃ r, o = .reg r ∧ c.contains r = true := by
  cases o with
  | reg r => exact ⟨r, rfl, h⟩
  | imm v => exact absurd h (by simp [OperandInfo.allows])
  | expr e => exact absurd h (by simp [OperandInfo.allows])

theorem allows_imm {c : ImmClass} {o : MCOperand} (h : (OperandInfo.imm c).allows w o = true) :
    (∃ v, o = .imm v ∧ c.contains w v = true) ∨ ∃ e, o = .expr e := by
  cases o with
  | reg r => exact absurd h (by simp [OperandInfo.allows])
  | imm v => exact .inl ⟨v, rfl, h⟩
  | expr e => exact .inr ⟨e, rfl⟩

theorem fits_regImm {a : RegClass} {c : ImmClass} (h : fits w [.reg a, .imm c] os = true) :
    ∃ r, a.contains r = true ∧ ((∃ v, os = [.reg r, .imm v] ∧ c.contains w v = true) ∨
      ∃ e, os = [.reg r, .expr e]) := by
  obtain ⟨o, rest, rfl, ho, hrest⟩ := fits_cons h
  obtain ⟨r, rfl, hr⟩ := allows_reg ho
  obtain ⟨o, rest, rfl, ho, hnil⟩ := fits_cons hrest
  obtain rfl := fits_nil hnil
  rcases allows_imm ho with ⟨v, rfl, hv⟩ | ⟨e, rfl⟩
  · exact ⟨r, hr, .inl ⟨v, rfl, hv⟩⟩
  · exact ⟨r, hr, .inr ⟨e, rfl⟩⟩

theorem fits_regRegImm {a b : RegClass} {c : ImmClass}
    (h : fits w [.reg a, .reg b, .imm c] os = true) :
    ∃ r q, a.contains r = true ∧ b.contains q = true ∧
      ((∃ v, os = [.reg r, .reg q, .imm v]) ∨ ∃ e, os = [.reg r, .reg q, .expr e]) := by
  obtain ⟨o, rest, rfl, ho, hrest⟩ := fits_cons h
  obtain ⟨r, rfl, hr⟩ := allows_reg ho
  obtain ⟨q, hq, ⟨v, rfl, -⟩ | ⟨e, rfl⟩⟩ := fits_regImm hrest
  · exact ⟨r, q, hr, hq, .inl ⟨v, rfl⟩⟩
  · exact ⟨r, q, hr, hq, .inr ⟨e, rfl⟩⟩

theorem fits_regRegReg {a b c : RegClass} (h : fits w [.reg a, .reg b, .reg c] os = true) :
    ∃ r q t, os = [.reg r, .reg q, .reg t] ∧ a.contains r = true ∧ b.contains q = true ∧
      c.contains t = true := by
  obtain ⟨o, rest, rfl, ho, hsecond⟩ := fits_cons h
  obtain ⟨r, rfl, hr⟩ := allows_reg ho
  obtain ⟨o, rest, rfl, ho, hthird⟩ := fits_cons hsecond
  obtain ⟨q, rfl, hq⟩ := allows_reg ho
  obtain ⟨o, rest, rfl, ho, hnil⟩ := fits_cons hthird
  obtain ⟨t, rfl, ht⟩ := allows_reg ho
  obtain rfl := fits_nil hnil
  exact ⟨r, q, t, rfl, hr, hq, ht⟩

theorem fits_of_wellFormed {i : Inst} (h : wellFormed w i = true) {ds : List OperandInfo}
    (hinfo : operandInfo i.opcode = some ds) : fits w ds i.operands = true := by
  rw [wellFormed, hinfo, Bool.and_eq_true] at h
  exact h.1

end Operands

/-- Nothing is returned, and nothing is asked. -/
theorem iff_of_none {w : Nat} {i : Inst} (h : compressInst i = none) (hi : Untied i) :
    (∀ out, compressInst i = some out → Faithful w i out) ↔ Untied i :=
  iff_of_true (fun out hout => absurd hout (by simp [h])) hi

/-- **Compressed forms**: for a 32-bit instruction with the operands its opcode declares, what
`compressInst` returns has the operands that its own opcode declares and does the same, exactly when
the form that it takes has no tied operand. -/
theorem compressInst_iff (w : Nat) {i : Inst} (h : wellFormed w i = true) :
    (∀ out, compressInst i = some out → Faithful w i out) ↔ Untied i := by
  obtain ⟨op, os⟩ := i
  have hfits := @fits_of_wellFormed w _ h
  cases op with
  | addi =>
    obtain ⟨rd, rs, hrd, hrs, ⟨v, rfl⟩ | ⟨e, rfl⟩⟩ := fits_regRegImm (hfits rfl)
    · exact compressADDI_iff hrd hrs
    · exact iff_of_none rfl trivial
  | lui =>
    obtain ⟨rd, hrd, ⟨v, rfl, hv⟩ | ⟨e, rfl⟩⟩ := fits_regImm (hfits rfl)
    · exact compressLUI_iff hrd hv
    · exact iff_of_none rfl trivial
  | slli | srli | srai | andi =>
    obtain ⟨rd, rs, -, -, ⟨v, rfl⟩ | ⟨e, rfl⟩⟩ := fits_regRegImm (hfits rfl)
    · simp only [compressInst]
      refine compressShiftOrAndI_iff ?_
      simp
    · exact iff_of_none rfl trivial
  | add =>
    obtain ⟨rd, rs1, rs2, rfl, hrd, hrs1, hrs2⟩ := fits_regRegReg (hfits rfl)
    exact compressADD_iff hrd hrs1 hrs2
  | sub | xor | or | and =>
    obtain ⟨rd, rs1, rs2, rfl, -⟩ := fits_regRegReg (hfits rfl)
    simp only [compressInst]
    refine compressALU_iff ?_
    simp
  | lw | sw =>
    obtain ⟨r, base, hr, -, ⟨v, rfl⟩ | ⟨e, rfl⟩⟩ := fits_regRegImm (hfits rfl)
    · simp only [compressInst]
      refine iff_of_true (fun out hout => compressLoadStore_faithful ?_ hr hout) trivial
      simp
    · exact iff_of_none rfl trivial
  | jalr =>
    obtain ⟨rd, rs, -, hrs, ⟨v, rfl⟩ | ⟨e, rfl⟩⟩ := fits_regRegImm (hfits rfl)
    · exact iff_of_true (fun out hout => compressJALR_faithful hrs hout) trivial
    · exact iff_of_none rfl trivial
  | ebreak =>
    obtain rfl := fits_nil (hfits rfl)
    refine iff_of_true (fun out hout => ?_) trivial
    obtain rfl := Option.some.inj hout
    exact ⟨rfl, fun _ _ => rfl⟩
  | _ => exact iff_of_none rfl trivial

/-- `addi a0, a1, 0` is `c.mv a0, a1`. -/
theorem compressInst_move :
    (∀ out, compressInst ⟨.addi, [.reg (gpr 10), .reg (gpr 11), .imm 0]⟩ = some out →
      Faithful 32 ⟨.addi, [.reg (gpr 10), .reg (gpr 11), .imm 0]⟩ out) ↔
      Untied ⟨.addi, [.reg (gpr 10), .reg (gpr 11), .imm 0]⟩ :=
  compressInst_iff 32 (by decide)

/-- `addi a0, a0, 1` becomes a `c.addi` with two operands in place of three. -/
theorem not_faithful_addi : ¬ ∀ i, wellFormed 32 i = true →
    ∀ out, compressInst i = some out → Faithful 32 i out := by
  intro hall
  obtain ⟨hform, -⟩ := hall ⟨.addi, [.reg (gpr 10), .reg (gpr 10), .imm 1]⟩ (by decide) _ rfl
  exact absurd hform (by decide)

end RvLlvm.Bolt.Compress
