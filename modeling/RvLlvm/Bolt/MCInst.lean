import Mathlib.Algebra.Order.Ring.Int
import Mathlib.Data.List.Basic

/-!
# Machine instructions of the rewriter

`MCInst` with its operands and expressions (`llvm/include/llvm/MC/MCInst.h`, `MCExpr.h`), what the
instruction tables say of an opcode (`RISCVInstrInfo.td`, `RISCVInstrInfoC.td`) and the tests of
`RISCVMCInstrAnalysis` (`RISCVMCTargetDesc.cpp:115-235`) and `RISCVMCPlusBuilder` on top of them.

The opcodes that some modelled pass names are constructors; the tables of all others are a
parameter, as are their numbers.
-/

namespace RvLlvm.Bolt

/-! ## Instructions -/

/-- `MCPhysReg`: zero is no register, and `gpr n` is `RISCV::Xn`. -/
abbrev MCPhysReg := Nat

/-- The number of an integer register. -/
def gpr (n : Nat) : MCPhysReg := n + 1

/-- `MCSymbol`. -/
abbrev MCSymbol := Nat

/-- `MCExpr`; `target` is a `RISCVMCExpr` with its variant kind. -/
inductive MCExpr
  | constant (value : Int)
  | symbolRef (kind : Nat) (symbol : MCSymbol)
  | unary (op : Nat) (sub : MCExpr)
  | binary (op : Nat) (lhs rhs : MCExpr)
  | target (kind : Nat) (sub : MCExpr)
  deriving DecidableEq

/-- `MCOperand`. -/
inductive MCOperand
  | reg (r : MCPhysReg)
  | imm (v : Int)
  | expr (e : MCExpr)
  deriving DecidableEq

/-- The opcodes of `RISCV` that the passes name. -/
inductive Opcode
  | lb | lbu | lh | lhu | lw | lwu | ld | flw | fld | cLw | cLwsp
  | sb | sh | sw | sd | fsw | fsd | cSw | cSwsp
  | lui | addi | add | cLui | cLi | cMv | cAddi | cNop
  | jal | jalr | cJ | cJal | cJr | cJalr
  | beq | bne | blt | bge | bltu | bgeu | cBeqz | cBnez
  | other (n : Nat)
  deriving DecidableEq

/-- `MCInst`; `tailCall` is the annotation `kTailCall`. -/
structure MCInst where
  opcode : Opcode
  operands : List MCOperand
  tailCall : Bool
  deriving DecidableEq

/-- `getReg` of an operand, and no register where it is not one. -/
def MCInst.getReg (i : MCInst) (k : Nat) : MCPhysReg :=
  match i.operands[k]? with
  | some (.reg r) => r
  | _ => 0

/-! ## Tables -/

/-- `MCInstrDesc`. -/
structure MCInstrDesc where
  numDefs : Nat := 0
  implicitDefs : List MCPhysReg := []
  implicitUses : List MCPhysReg := []
  isPseudo : Bool := false
  isTerminator : Bool := false
  isBranch : Bool := false
  isBarrier : Bool := false
  isIndirectBranch : Bool := false
  isCall : Bool := false
  isReturn : Bool := false
  mayLoad : Bool := false
  mayStore : Bool := false
  hasUnmodeledSideEffects : Bool := false
  deriving DecidableEq

/-- The tables of the opcodes that are not named. -/
abbrev MCInstrInfo := Nat → MCInstrDesc

/-- `MCII.get`. `JAL` and `JALR` are not calls here (`RISCVInstrInfo.td:643-650`). -/
def MCInstrInfo.get (I : MCInstrInfo) : Opcode → MCInstrDesc
  | .lb | .lbu | .lh | .lhu | .lw | .lwu | .ld | .flw | .fld | .cLw | .cLwsp =>
    { numDefs := 1, mayLoad := true }
  | .sb | .sh | .sw | .sd | .fsw | .fsd | .cSw | .cSwsp => { mayStore := true }
  | .lui | .addi | .add | .cLui | .cLi | .cMv | .cAddi | .jal | .jalr => { numDefs := 1 }
  | .cNop => {}
  | .cJ => { isTerminator := true, isBranch := true, isBarrier := true }
  | .cJal | .cJalr => { implicitDefs := [gpr 1], isCall := true }
  | .cJr => { isTerminator := true, isBarrier := true }
  | .beq | .bne | .blt | .bge | .bltu | .bgeu | .cBeqz | .cBnez =>
    { isTerminator := true, isBranch := true }
  | .other n => I n

/-- The tables know no branches but those that are named. -/
def MCInstrInfo.BaseBranches (I : MCInstrInfo) : Prop :=
  ∀ n, (I n).isBranch = false ∧ (I n).isIndirectBranch = false

/-- Tables without further instructions. -/
def noOthers : MCInstrInfo := fun _ => {}

theorem noOthers_baseBranches : noOthers.BaseBranches := fun _ => ⟨rfl, rfl⟩

/-! ## Tests -/

section Tests

variable (I : MCInstrInfo) (i : MCInst)

/-- `maybeReturnAddress`. -/
def maybeReturnAddress (r : MCPhysReg) : Bool := r == gpr 1 || r == gpr 5

/-- `isBranchImpl`. -/
def isBranchImpl : Bool :=
  match i.opcode with
  | .jal => i.getReg 0 == gpr 0
  | .jalr => i.getReg 0 == gpr 0 && !maybeReturnAddress (i.getReg 1)
  | .cJr => !maybeReturnAddress (i.getReg 0)
  | _ => false

def isPseudo : Bool := (I.get i.opcode).isPseudo

def isTerminator : Bool :=
  (I.get i.opcode).isTerminator ||
    match i.opcode with
    | .jal | .jalr => i.getReg 0 == gpr 0
    | _ => false

def isCall : Bool :=
  (I.get i.opcode).isCall ||
    match i.opcode with
    | .jal | .jalr => i.getReg 0 != gpr 0
    | _ => false

def isBranch : Bool := (I.get i.opcode).isBranch || isBranchImpl i

/-- `isUnconditionalBranch` of the builder: that of the analysis, without tail calls. -/
def isUnconditionalBranch : Bool :=
  (((I.get i.opcode).isBranch && (I.get i.opcode).isBarrier &&
      !(I.get i.opcode).isIndirectBranch) || isBranchImpl i) && !i.tailCall

def isIndirectBranch : Bool :=
  (I.get i.opcode).isIndirectBranch ||
    match i.opcode with
    | .jalr => i.getReg 0 == gpr 0 && !maybeReturnAddress (i.getReg 1)
    | .cJr => !maybeReturnAddress (i.getReg 0)
    | _ => false

/-- `isNoop`: `isNop` or `isCNop`. -/
def isNoop : Bool :=
  (i.opcode == .addi && i.getReg 0 == gpr 0 && i.getReg 1 == gpr 0 && i.operands[2]? == some (.imm 0)) ||
    i.opcode == .cNop

end Tests

/-- `getSymbolRefOperandNum`. -/
def getSymbolRefOperandNum (i : MCInst) : Option Nat :=
  match i.opcode with
  | .cJ | .cJal => some 0
  | .jal | .cBeqz | .cBnez => some 1
  | .beq | .bge | .bgeu | .bne | .blt | .bltu => some 2
  | _ => none

/-- `getTargetSymbol` of an expression. -/
def MCExpr.getTargetSymbol : MCExpr → Option MCSymbol
  | .target _ sub => sub.getTargetSymbol
  | .binary _ lhs _ => lhs.getTargetSymbol
  | .symbolRef 0 s => some s
  | _ => none

/-- `getTargetSymbol`. -/
def getTargetSymbol (i : MCInst) : Option MCSymbol :=
  (getSymbolRefOperandNum i).bind fun k =>
    match i.operands[k]? with
    | some (.expr e) => e.getTargetSymbol
    | _ => none

/-! ## Blocks -/

/-- `BinaryBasicBlock`. Blocks are known by their labels. -/
structure BasicBlock where
  label : MCSymbol
  insts : List MCInst
  succs : List MCSymbol
  preds : List MCSymbol
  deriving DecidableEq

/-! ## Places in a block -/

theorem eraseIdx_middle {A B : List MCInst} {x : MCInst} {k : Nat} (hk : k = A.length) :
    (A ++ x :: B).eraseIdx k = A ++ B := by
  rw [hk, List.eraseIdx_append_of_length_le (Nat.le_refl _), Nat.sub_self, List.eraseIdx_cons_zero]

theorem set_middle {A B : List MCInst} {x y : MCInst} {k : Nat} (hk : k = A.length) :
    (A ++ x :: B).set k y = A ++ y :: B := by
  rw [hk, List.set_append_right _ _ (Nat.le_refl _), Nat.sub_self, List.set_cons_zero]

theorem getElem?_middle {A B : List MCInst} {x : MCInst} {k : Nat} (hk : k = A.length) :
    (A ++ x :: B)[k]? = some x := by
  rw [hk, List.getElem?_append_right (Nat.le_refl _), Nat.sub_self, List.getElem?_cons_zero]

theorem drop_middle {A B : List MCInst} {x : MCInst} {k : Nat} (hk : k = A.length) :
    (A ++ x :: B).drop (k + 1) = B := by
  rw [hk, List.drop_append, List.drop_eq_nil_of_le (Nat.le_succ _), Nat.add_sub_cancel_left]
  rfl

end RvLlvm.Bolt
