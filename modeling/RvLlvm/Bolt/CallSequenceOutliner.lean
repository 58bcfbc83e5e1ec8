import RvLlvm.Bolt.ConstLUIReuse

/-!
# Outlining sequences of calls

Model of `RISCVCallSequenceOutliner` (`bolt/lib/Passes/RISCV/RISCVCallSequenceOutliner.cpp`): the
units `lui; addi a2; jal ra`, the runs of units in a block, the groups of runs with one key, the
registers and the body of a helper, and what becomes of a block. `RegAnalysis` is a parameter, of
which `CallSequenceSound` says what it finds out.
-/

namespace RvLlvm.Bolt

/-! ## Units and runs -/

/-- `CallUnit`; the opcode of `lui` is that of the instruction. -/
structure CallUnit where
  lui : MCInst
  addi : MCInst
  call : MCInst
  target : MCSymbol
  temp : MCPhysReg
  highValue : Int
  lowValue : Int
  deriving DecidableEq

/-- `getLUIValue` of this pass. -/
def outlinerLUIValue (i : MCInst) : Option Int :=
  match i.opcode, i.operands with
  | .lui, .reg _ :: .imm v :: _ =>
    if v = 0 ∨ v < -2 ^ 19 ∨ 2 ^ 20 - 1 < v then none else some (getLUIValue v)
  | .cLui, .reg _ :: .imm v :: _ => if v = 0 ∨ v < -32 ∨ 31 < v then none else some (getLUIValue v)
  | _, _ => none

/-- `isCallerSavedGPR`. -/
def isCallerSavedGPR (r : MCPhysReg) : Bool :=
  r ∈ [gpr 5, gpr 6, gpr 7, gpr 10, gpr 11, gpr 12, gpr 13, gpr 14, gpr 15, gpr 16, gpr 17, gpr 28, gpr 29,
    gpr 30, gpr 31]

/-- `parseUnit`, at the front of a list of instructions. -/
def parseUnit : List MCInst → Option CallUnit
  | lui :: addi :: call :: _ =>
    (outlinerLUIValue lui).bind fun high =>
      match lui.operands.head?, isADDI addi, call.opcode, call.operands with
      | some (.reg temp), some (d, s, .imm low), .jal, .reg ra :: _ :: _ =>
        if temp ≠ gpr 0 ∧ isCallerSavedGPR temp ∧ d = gpr 12 ∧ s = temp ∧ isInt 12 low ∧ ra = gpr 1 then
          (getTargetSymbol call).map fun target => ⟨lui, addi, call, target, temp, high, low⟩
        else none
      | _, _, _, _ => none
  | _ => none

/-- The units from a place on, as far as they follow each other; `n` bounds their number. -/
def parseUnits : Nat → List MCInst → List CallUnit
  | 0, _ => []
  | n + 1, insts =>
    match parseUnit insts with
    | some u => u :: parseUnits n (insts.drop 3)
    | none => []

/-- `startsAfterUnit`. -/
def startsAfterUnit (insts : List MCInst) (k : Nat) : Bool :=
  decide (3 ≤ k) && (parseUnit (insts.drop (k - 3))).isSome

/-- `CallRun`: the function, the place of the block, the place in the block and the units. -/
structure CallRun where
  function : MCSymbol
  block : Nat
  startIndex : Nat
  units : List CallUnit
  deriving DecidableEq

/-- `LowValue` of the first unit. -/
def CallRun.baseLow (R : CallRun) : Int := (R.units.head?.map CallUnit.lowValue).getD 0

/-- `HighValue` of the first unit. -/
def CallRun.high (R : CallRun) : Int := (R.units.head?.map CallUnit.highValue).getD 0

/-- `isOutlineable`; `minCalls` is the option. -/
def isOutlineable (minCalls : Nat) (R : CallRun) : Bool :=
  decide (minCalls ≤ R.units.length) && !R.units.isEmpty &&
    R.units.all fun u => u.highValue == R.high && isInt 12 (u.lowValue - R.baseLow)

/-- `getRunKey`. -/
def getRunKey (R : CallRun) : Int × List (MCSymbol × MCPhysReg × Opcode × Int) :=
  (R.high, R.units.map fun u => (u.target, u.temp, u.lui.opcode, u.lowValue - R.baseLow))

/-- A function of the program, with its blocks. -/
structure OutlinerFunction where
  symbol : MCSymbol
  blocks : List (List MCInst)

/-- The runs of a block that may be outlined. -/
def blockRuns (minCalls : Nat) (f : MCSymbol) (block : Nat) (insts : List MCInst) : List CallRun :=
  (((List.range insts.length).filter fun k => !startsAfterUnit insts k).map fun k =>
    ⟨f, block, k, parseUnits insts.length (insts.drop k)⟩).filter (isOutlineable minCalls)

/-- The runs of the program, in the order in which they are found. -/
def collectRuns (minCalls : Nat) (p : List OutlinerFunction) : List CallRun :=
  p.flatMap fun F => F.blocks.zipIdx.flatMap fun b => blockRuns minCalls F.symbol b.2 b.1

/-! ## Helpers -/

/-- `HelperRegisters`. -/
structure HelperRegisters where
  base : MCPhysReg
  ret : MCPhysReg
  deriving DecidableEq

/-- `Candidates`. -/
def candidates : List MCPhysReg := [gpr 5, gpr 6, gpr 7, gpr 28, gpr 29, gpr 30, gpr 31]

/-- A pair of registers that no unit uses and no callee clobbers. `clobbers` is `none` where there
is no function for the symbol. -/
def isSafePair (clobbers : MCSymbol → Option (MCPhysReg → Bool)) (R : CallRun)
    (h : HelperRegisters) : Bool :=
  h.base != h.ret &&
    R.units.all (fun u => u.temp != h.base && u.temp != h.ret) &&
    R.units.all fun u => (clobbers u.target).any fun c => !c h.base && !c h.ret

/-- `chooseHelperRegisters`: the first pair. -/
def chooseHelperRegisters (clobbers : MCSymbol → Option (MCPhysReg → Bool)) (R : CallRun) :
    Option HelperRegisters :=
  (candidates.flatMap fun base => candidates.map fun ret => ⟨base, ret⟩).find? (isSafePair clobbers R)

/-- `makeDirectCall`. -/
def makeDirectCall (target : MCSymbol) : MCInst :=
  ⟨.jal, [.reg (gpr 1), .expr (.symbolRef 0 target)], false⟩

/-- `makeIndirectReturn`. -/
def makeIndirectReturn (r : MCPhysReg) : MCInst := ⟨.jalr, [.reg (gpr 0), .reg r, .imm 0], false⟩

/-- A unit behind the first one, in a helper. -/
def helperUnit (h : HelperRegisters) (baseLow : Int) (u : CallUnit) : List MCInst :=
  (if u.temp ≠ gpr 12 then [u.lui] else []) ++
    [makeADDI (gpr 12) h.base (u.lowValue - baseLow), u.call]

/-- `addHelperBody`. -/
def helperBody (R : CallRun) (h : HelperRegisters) : List MCInst :=
  [makeADDI h.base (gpr 12) 0, makeADDI h.ret (gpr 1) 0] ++ (R.units.head?.map CallUnit.call).toList ++
    R.units.tail.flatMap (helperUnit h R.baseLow) ++ [makeIndirectReturn h.ret]

/-- `replaceRun`: the first call goes to the helper, and the other units are erased from the last
one on. -/
def replaceRun (helper : MCSymbol) (R : CallRun) (insts : List MCInst) : List MCInst :=
  (List.range' 1 (R.units.length - 1)).foldr
    (fun i insts => ((insts.eraseIdx (R.startIndex + 3 * i + 2)).eraseIdx (R.startIndex + 3 * i + 1)).eraseIdx
      (R.startIndex + 3 * i))
    (insts.set (R.startIndex + 2) (makeDirectCall helper))

section Outline

variable (clobbers : MCSymbol → Option (MCPhysReg → Bool)) (minCalls : Nat) (p : List OutlinerFunction)

/-- The runs with the key of a run. -/
def groupOfRun (R : CallRun) : List CallRun :=
  (collectRuns minCalls p).filter (getRunKey · == getRunKey R)

/-- The helper of a run, if the pass makes one: the run whose body it has, and its registers. -/
def helperOf (R : CallRun) : Option (CallRun × HelperRegisters) :=
  if 2 ≤ (groupOfRun minCalls p R).length then
    (groupOfRun minCalls p R).head?.bind fun front =>
      (chooseHelperRegisters clobbers front).map fun h => (front, h)
  else none

end Outline

end RvLlvm.Bolt
