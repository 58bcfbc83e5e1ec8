import RvLlvm.Bolt.ConstLUIReuse

/-!
# Addresses relative to the global pointer

Model of `RISCVGPRelax` (`bolt/lib/Passes/RISCV/RISCVGPRelax.cpp`): a `lui` of a high part is
deleted when what follows it uses the low parts of its symbol within reach of `__global_pointer$`,
and its register is set before it is read again. Nothing in front of the iterator is touched, so the
loop is a recursion on what is left of the block, one instruction a turn. Symbol values are signed.
-/

namespace RvLlvm.Bolt

/-- A symbol of the data: its names, the first of which is `getName`, and its address. -/
structure BinaryData where
  names : List String
  address : Int

/-- `getGlobalPointerData`; the data stand in the order of their addresses. -/
def getGlobalPointerData (data : List BinaryData) : Option BinaryData :=
  let byName (name : String) := data.find? (·.names.contains name)
  (byName "__global_pointer$").or ((byName "__global_pointer$/1").or
    (data.find? (·.names.head?.any (·.startsWith "__global_pointer$"))))

/-! ## Sinks -/

/-- `isIFormatGPSink`, but for the number of operands. -/
def isIFormatGPOpcode (op : Opcode) : Bool := op == .addi || isIFormatOpcode op

/-- `isGPSink`, but for the number of operands. -/
def isGPOpcode (op : Opcode) : Bool := isIFormatGPOpcode op || isSFormatOpcode op

/-- `isAbsoluteLO`. -/
def isAbsoluteLO : MCOperand → Bool
  | .expr (.target k _) => k == vkLo
  | _ => false

/-- `definesReg`. -/
def definesReg (i : MCInst) (r : MCPhysReg) : Bool :=
  isIFormatGPOpcode i.opcode && decide (3 ≤ i.operands.length) && i.operands.head? == some (.reg r)

/-- A sink of the `lui` of `r`. -/
def isLUISink (r : MCPhysReg) (i : MCInst) : Bool :=
  isGPOpcode i.opcode &&
    match i.operands with
    | _ :: .reg b :: o :: _ => b == r && isAbsoluteLO o
    | _ => false

/-- `makeGPRelaxedInst`. -/
def makeGPRelaxedInst (i : MCInst) (offset : Int) : MCInst :=
  { i with operands := (i.operands.set 1 (.reg (gpr 3))).set 2 (.imm offset) }

section Pass

variable (I : MCInstrInfo) (gp : Int) (symbolValue : MCSymbol → Option Int)

/-- The sink relative to `gp`, when its symbol is that of the `lui` and is in reach. -/
def relaxSink (symbol : MCSymbol) (i : MCInst) : Option MCInst :=
  (i.operands[2]?.bind (getRISCVExprSymbolAddend vkLo)).bind fun lo =>
    if symbol = lo.1 then
      (symbolValue lo.1).bind fun value =>
        if isInt 12 (value + lo.2 - gp) then
          some (makeGPRelaxedInst i (value + lo.2 - gp)) else none
    else none

/-- What a scan has found: `Relaxed`, the instructions from `Scan` on, and `KillsBaseReg`. -/
structure SinkScan where
  relaxed : List MCInst
  rest : List MCInst
  kills : Bool

/-- The scan behind the `lui`; nothing is left of it in front of a store of the register itself. -/
def scanSinks (r : MCPhysReg) (symbol : MCSymbol) : List MCInst → Option SinkScan
  | [] => some ⟨[], [], false⟩
  | i :: rest =>
    if !isLUISink r i then some ⟨[], i :: rest, false⟩
    else if isSFormatOpcode i.opcode && i.operands.head? == some (.reg r) then none
    else
      match relaxSink gp symbolValue symbol i with
      | none => some ⟨[], i :: rest, false⟩
      | some new =>
        if definesReg i r then some ⟨[new], rest, true⟩
        else (scanSinks r symbol rest).map fun scan => { scan with relaxed := new :: scan.relaxed }

/-- A `lui` with its register, symbol and addend, and the scan behind it. -/
structure GPChain where
  reg : MCPhysReg
  hi : MCSymbol × Int
  scan : SinkScan

/-- The `lui` that is deleted at the beginning of `i :: rest`. -/
def findChain (i : MCInst) (rest : List MCInst) : Option GPChain :=
  match i.opcode, i.operands with
  | .lui, .reg r :: o :: _ =>
    (getRISCVExprSymbolAddend vkHi o).bind fun hi =>
      (scanSinks gp symbolValue r hi.1 rest).bind fun scan =>
        if scan.relaxed.isEmpty || !scan.kills && !isRegRedefinedBeforeUse I r scan.rest then none
        else some ⟨r, hi, scan⟩
  | _, _ => none

/-- The loop over what is left of a block, of at most that many instructions. -/
def gpRelax : Nat → List MCInst → List MCInst
  | n + 1, i :: rest =>
    match findChain I gp symbolValue i rest with
    | some c => gpRelax n (c.scan.relaxed ++ c.scan.rest)
    | none => i :: gpRelax n rest
  | _, insts => insts

end Pass

/-- `runOnFunction`. -/
def gpRelaxFunction (I : MCInstrInfo) (data : List BinaryData) (symbolValue : MCSymbol → Option Int)
    (blocks : List BasicBlock) : List BasicBlock :=
  match getGlobalPointerData data with
  | none => blocks
  | some gp =>
    blocks.map fun b => { b with insts := gpRelax I gp.address symbolValue b.insts.length b.insts }

end RvLlvm.Bolt
