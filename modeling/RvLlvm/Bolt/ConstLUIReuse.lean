import RvLlvm.Bolt.Exec

/-!
# Reusing constants that `lui` makes

Model of `RISCVConstLUIReuse` (`bolt/lib/Passes/RISCV/RISCVConstLUIReuse.cpp`): the values that
registers are known to hold, the pairs of `lui` with an `addi` or a memory access, and the loop over
the blocks of a function. As in the pass over stack stores, iterators are places in the vector of
instructions.

The section of a known value is left out: nothing reads it.
-/

namespace RvLlvm.Bolt

/-! ## Values -/

/-- `KnownValue`. -/
structure KnownValue where
  value : Int
  symbol : Option MCSymbol
  addend : Int
  deriving DecidableEq

/-- `KnownValue::absolute`. -/
def KnownValue.absolute (v : Int) : KnownValue := ⟨v, none, 0⟩

/-- `RegValueMap`, in the order of its keys. -/
abbrev RegValueMap := List (MCPhysReg × KnownValue)

/-- `Values.erase`. -/
def RegValueMap.erase (values : RegValueMap) (r : MCPhysReg) : RegValueMap :=
  values.filter (·.1 ≠ r)

/-- `Values[Reg] = Value`. -/
def RegValueMap.insert (values : RegValueMap) (r : MCPhysReg) (v : KnownValue) : RegValueMap :=
  values.filter (·.1 < r) ++ (r, v) :: values.filter (r < ·.1)

/-- `Values.clear(); Values[RISCV::X0] = KnownValue::absolute(0)`. -/
def RegValueMap.cleared : RegValueMap := [(gpr 0, .absolute 0)]

/-- `sext32`. -/
def sext32 (v : Int) : Int := v.bmod (2 ^ 32)

def add32 (l r : Int) : Int := sext32 (l + r)

def sub32 (l r : Int) : Int := sext32 (l - r)

/-- `getLUIValue`. -/
def getLUIValue (imm : Int) : Int := sext32 (imm % 2 ^ 20 * 2 ^ 12)

/-- `isInt<N>`. -/
def isInt (n : Nat) (v : Int) : Bool := decide (-2 ^ (n - 1) ≤ v ∧ v < 2 ^ (n - 1))

/-! ## Instructions -/

/-- An operand that is an immediate or an expression. -/
def MCOperand.isImmOrExpr : MCOperand → Bool
  | .reg _ => false
  | _ => true

/-- `isLUI`, with its operands. -/
def isLUI (i : MCInst) : Option (MCPhysReg × MCOperand) :=
  match i.opcode, i.operands with
  | .lui, .reg r :: o :: _ => if o.isImmOrExpr then some (r, o) else none
  | _, _ => none

/-- `isADDI`, with its operands. -/
def isADDI (i : MCInst) : Option (MCPhysReg × MCPhysReg × MCOperand) :=
  match i.opcode, i.operands with
  | .addi, .reg d :: .reg s :: o :: _ => some (d, s, o)
  | _, _ => none

/-- The opcodes of `isIFormatMemorySink`. -/
def isIFormatOpcode : Opcode → Bool
  | .lb | .lbu | .lh | .lhu | .lw | .lwu | .ld | .flw | .fld => true
  | _ => false

/-- The opcodes of `isSFormatMemorySink`. -/
def isSFormatOpcode : Opcode → Bool
  | .sb | .sh | .sw | .sd | .fsw | .fsd => true
  | _ => false

/-- `isMemorySink`, with its operands. -/
def isMemorySink (i : MCInst) : Option (MCPhysReg × MCPhysReg × MCOperand) :=
  if isIFormatOpcode i.opcode || isSFormatOpcode i.opcode then
    match i.operands with
    | .reg r :: .reg b :: o :: _ => some (r, b, o)
    | _ => none
  else none

/-- `RISCVMCExpr::VK_RISCV_LO` and `VK_RISCV_HI`. -/
def vkLo : Nat := 1
def vkHi : Nat := 2

/-- `MCBinaryExpr::Add` and `MCBinaryExpr::Sub`. -/
def opAdd : Nat := 0
def opSub : Nat := 18

/-- `SymbolAddend`. -/
structure SymbolAddend where
  symbol : Option MCSymbol
  addend : Int
  deriving DecidableEq

/-- `extractSymbolAddend`. -/
def extractSymbolAddend : MCExpr → SymbolAddend → Int → Option SymbolAddend
  | .target _ sub, out, scale => extractSymbolAddend sub out scale
  | .symbolRef _ s, out, _ =>
    match out.symbol with
    | some s' => if s' ≠ s then none else some out
    | none => some { out with symbol := some s }
  | .constant v, out, scale => some { out with addend := out.addend + scale * v }
  | .binary op lhs rhs, out, scale =>
    if op = opAdd then
      (extractSymbolAddend lhs out scale).bind fun out => extractSymbolAddend rhs out scale
    else if op = opSub then
      (extractSymbolAddend lhs out scale).bind fun out => extractSymbolAddend rhs out (-scale)
    else none
  | .unary _ _, _, _ => none

/-- `getRISCVExprSymbolAddend` for an operand of kind `kind` (`isAbsoluteHI`, `isAbsoluteLO`). -/
def getRISCVExprSymbolAddend (kind : Nat) : MCOperand → Option (MCSymbol × Int)
  | .expr (.target k sub) =>
    if k = kind then
      (extractSymbolAddend sub ⟨none, 0⟩ 1).bind fun out => out.symbol.map fun s => (s, out.addend)
    else none
  | _ => none

/-- `makeADDI`. -/
def makeADDI (rd rs1 : MCPhysReg) (imm : Int) : MCInst :=
  ⟨.addi, [.reg rd, .reg rs1, .imm imm], false⟩

/-- `makeMemoryWithBaseAndOffset`. -/
def makeMemoryWithBaseAndOffset (i : MCInst) (base : MCPhysReg) (offset : Int) : MCInst :=
  { i with operands := (i.operands.set 1 (.reg base)).set 2 (.imm offset) }

/-- `forgetReg`. -/
def forgetReg (values : RegValueMap) (r : MCPhysReg) : RegValueMap :=
  if r = gpr 0 then values else values.erase r

/-- `setKnownValue`. -/
def setKnownValue (values : RegValueMap) (r : MCPhysReg) (v : KnownValue) : RegValueMap :=
  if r = gpr 0 then values else values.insert r v

section Instructions

variable (I : MCInstrInfo)

/-- `isRegRedefinedBeforeUse`. -/
def isRegRedefinedBeforeUse (r : MCPhysReg) : List MCInst → Bool
  | [] => false
  | i :: rest =>
    if readsReg I i r then false
    else if writesReg I i r then true
    else isRegRedefinedBeforeUse r rest

/-- `canDeleteLUI`; `rest` is behind the sink. -/
def canDeleteLUI (sink : MCInst) (rest : List MCInst) (r : MCPhysReg) : Bool :=
  writesReg I sink r || isRegRedefinedBeforeUse I r rest

/-- `forgetDefs`. -/
def forgetDefs (values : RegValueMap) (i : MCInst) : RegValueMap :=
  ((definedRegs I i).foldl forgetReg values).insert (gpr 0) (.absolute 0)

/-- `isBarrier`, with the calls that the tables do not show. -/
def isLUIBarrier (i : MCInst) : Bool :=
  isBarrierDesc (I.get i.opcode) || i.opcode == .jal || i.opcode == .jalr

end Instructions

/-! ## Reuse -/

/-- `canUseFixedDiff`. -/
def canUseFixedDiff (base target : KnownValue) : Bool :=
  match target.symbol, base.symbol with
  | none, b => b.isNone
  | some _, none => false
  | some t, some b => b == t

/-- `getStableDiff`. -/
def getStableDiff (base target : KnownValue) : Int :=
  if base.symbol.isSome && base.symbol == target.symbol then target.addend - base.addend
  else sub32 target.value base.value

/-- The offset at which `target` is reached from `base`. -/
def fixedDiff (base target : KnownValue) : Option Int :=
  if canUseFixedDiff base target && isInt 12 (getStableDiff base target) &&
      add32 base.value (getStableDiff base target) == target.value then
    some (getStableDiff base target)
  else none

/-- One turn of the loop of `findReusableBase`. -/
def betterBase (target : KnownValue) (found : Option (MCPhysReg × Int))
    (e : MCPhysReg × KnownValue) :
    Option (MCPhysReg × Int) :=
  match fixedDiff e.2 target, found with
  | none, found => found
  | some diff, none => some (e.1, diff)
  | some diff, some (r, best) => if diff.natAbs < best.natAbs then some (e.1, diff) else some (r, best)

/-- `findReusableBase`: of the bases with the smallest offset the first. -/
def findReusableBase (values : RegValueMap) (target : KnownValue) : Option (MCPhysReg × Int) :=
  values.foldl (betterBase target) none

/-- `getLUIHighAndTarget`: the target, and the high part where it is known. `data` is
`getBinaryDataByName` with `getAddress`. -/
def getLUIHighAndTarget (data : MCSymbol → Option Int) (hi lo : MCOperand) :
    Option (Option KnownValue × KnownValue) :=
  match hi, lo with
  | .imm h, .imm l =>
    some (some (.absolute (getLUIValue h)), .absolute (add32 (getLUIValue h) l))
  | hi, lo =>
    (getRISCVExprSymbolAddend vkHi hi).bind fun hiRef =>
      (getRISCVExprSymbolAddend vkLo lo).bind fun loRef =>
        if hiRef = loRef then
          (data loRef.1).map fun address => (none, ⟨sext32 (address + loRef.2), some loRef.1, loRef.2⟩)
        else none

/-- `MaterializedPair` and `MemoryPair` without the sink, which is the instruction behind the
`lui`. -/
structure LUIPair where
  luiReg : MCPhysReg
  /-- The register operand of the sink: what the pair makes, loads or stores. -/
  reg : MCPhysReg
  target : KnownValue
  high : Option KnownValue
  deriving DecidableEq

section Pairs

variable (data : MCSymbol → Option Int)

/-- A `lui` and the operands of its sink. -/
def getPair (lui : MCInst) (sink : Option (MCPhysReg × MCPhysReg × MCOperand)) : Option LUIPair :=
  (isLUI lui).bind fun l =>
    sink.bind fun s =>
      if s.2.2.isImmOrExpr && s.2.1 == l.1 then
        (getLUIHighAndTarget data l.2 s.2.2).map fun t => ⟨l.1, s.1, t.2, t.1⟩
      else none

/-- `getMaterializedPair`. -/
def getMaterializedPair (lui sink : MCInst) : Option LUIPair := getPair data lui (isADDI sink)

/-- `getMemoryPair`. -/
def getMemoryPair (lui sink : MCInst) : Option LUIPair :=
  (getPair data lui (isMemorySink sink)).filter fun p =>
    !(isSFormatOpcode sink.opcode && p.reg == p.luiReg)

end Pairs

/-! ## Learning -/

/-- `learnMaterializedPair`. -/
def learnMaterializedPair (values : RegValueMap) (p : LUIPair) : RegValueMap :=
  if p.reg = p.luiReg then setKnownValue values p.reg p.target
  else
    let values := forgetReg values p.luiReg
    let values := match p.high with
      | some high => setKnownValue values p.luiReg high
      | none => values
    setKnownValue values p.reg p.target

/-- `learnMemoryPair`. -/
def learnMemoryPair (values : RegValueMap) (p : LUIPair) : RegValueMap :=
  let values := forgetReg values p.luiReg
  match p.high with
  | some high => setKnownValue values p.luiReg high
  | none => values

/-- The value that `learnSimpleValue` computes for an instruction, with the register. -/
def simpleValue (values : RegValueMap) (i : MCInst) : Option (MCPhysReg × KnownValue) :=
  match i.opcode, i.operands with
  | .lui, .reg rd :: .imm v :: _ => some (rd, .absolute (getLUIValue v))
  | .cLui, .reg rd :: .imm v :: _ => some (rd, .absolute (getLUIValue v))
  | .cLi, .reg rd :: .imm v :: _ => some (rd, .absolute (sext32 v))
  | .addi, .reg rd :: .reg rs1 :: .imm v :: _ =>
    (values.lookup rs1).bind fun k =>
      if k.symbol.isNone then some (rd, .absolute (add32 k.value v)) else none
  | .cAddi, .reg rd :: .imm v :: _ =>
    (values.lookup rd).bind fun k =>
      if k.symbol.isNone then some (rd, .absolute (add32 k.value v)) else none
  | .add, .reg rd :: .reg rs1 :: .reg rs2 :: _ =>
    (values.lookup rs1).bind fun k =>
      (values.lookup rs2).bind fun l =>
        if k.symbol.isNone && l.symbol.isNone then some (rd, .absolute (add32 k.value l.value)) else none
  | .cMv, .reg rd :: .reg rs :: _ => (values.lookup rs).map fun k => (rd, k)
  | _, _ => none

/-- `learnSimpleValue`. -/
def learnSimpleValue (I : MCInstrInfo) (values : RegValueMap) (i : MCInst) : RegValueMap :=
  if isLUIBarrier I i then .cleared
  else
    match simpleValue values i with
    | some (rd, v) =>
      if rd = gpr 0 then forgetDefs I values i else (forgetDefs I values i).insert rd v
    | none => forgetDefs I values i

/-! ## The loop -/

/-- The state of the loop over a block; `pos` is `II`. -/
structure LUIPass where
  insts : List MCInst
  pos : Nat
  values : RegValueMap

section Loop

variable (I : MCInstrInfo) (data : MCSymbol → Option Int)

/-- `lui` with an immediate whose value is held. -/
def standaloneLUI (values : RegValueMap) (i : MCInst) :
    Option (MCPhysReg × KnownValue × MCPhysReg × Int) :=
  match isLUI i with
  | some (rd, .imm v) =>
    if rd = gpr 0 then none
    else
      (findReusableBase values (.absolute (getLUIValue v))).bind fun b =>
        if (b.1 = rd ∧ isInt 6 b.2) ∨ (b.2 = 0 ∧ b.1 ≠ gpr 0) then
          some (rd, .absolute (getLUIValue v), b)
        else none
  | _ => none

/-- The base that a pair may use instead of its `lui`. -/
def reuse (values : RegValueMap) (sink : MCInst) (rest : List MCInst) (p : LUIPair) :
    Option (MCPhysReg × Int) :=
  if canDeleteLUI I sink rest p.luiReg then findReusableBase values p.target else none

/-- What the loop does at an instruction. -/
inductive LUITurn
  | barrier
  | reuseMaterialized (p : LUIPair) (base : MCPhysReg) (diff : Int)
  | learnMaterialized (p : LUIPair)
  | reuseMemory (p : LUIPair) (sink : MCInst) (base : MCPhysReg) (diff : Int)
  | learnMemory (p : LUIPair) (sink : MCInst)
  | reuseLUI (rd : MCPhysReg) (v : KnownValue) (base : MCPhysReg) (diff : Int)
  | simple
  deriving DecidableEq

/-- The tests of the loop at `i`, with `rest` behind it. -/
def luiTurn (values : RegValueMap) (i : MCInst) (rest : List MCInst) : LUITurn :=
  if isLUIBarrier I i then .barrier
  else
    match rest.head?.bind (getMaterializedPair data i), rest.head?.bind fun sink =>
        (getMemoryPair data i sink).map fun p => (p, sink) with
    | some p, _ =>
      match if p.reg = gpr 0 then none else rest.head?.bind fun sink => reuse I values sink rest.tail p with
      | some (base, diff) => .reuseMaterialized p base diff
      | none => .learnMaterialized p
    | none, some (p, sink) =>
      match reuse I values sink rest.tail p with
      | some (base, diff) => .reuseMemory p sink base diff
      | none => .learnMemory p sink
    | none, none =>
      match standaloneLUI values i with
      | some (rd, v, base, diff) => .reuseLUI rd v base diff
      | none => .simple

/-- One turn of the loop of `runOnFunction` over a block. After a memory access has got another
base, the iterator `MemPair.Sink` points behind it, since its `lui` is gone. -/
def LUIPass.step (t : LUIPass) : Option LUIPass :=
  t.insts[t.pos]?.bind fun i =>
    match luiTurn I data t.values i (t.insts.drop (t.pos + 1)) with
    | .barrier => some { t with pos := t.pos + 1, values := .cleared }
    | .reuseMaterialized p base diff =>
      some
        { insts := (t.insts.set (t.pos + 1) (makeADDI p.reg base diff)).eraseIdx t.pos
          pos := t.pos + 1
          values := setKnownValue t.values p.reg p.target }
    | .learnMaterialized p =>
      some { t with pos := t.pos + 2, values := learnMaterializedPair t.values p }
    | .reuseMemory _ sink base diff =>
      let insts := (t.insts.set (t.pos + 1) (makeMemoryWithBaseAndOffset sink base diff)).eraseIdx t.pos
      insts[t.pos + 1]?.map fun stale =>
        { insts := insts, pos := t.pos + 1, values := learnSimpleValue I t.values stale }
    | .learnMemory p _ => some { t with pos := t.pos + 2, values := learnMemoryPair t.values p }
    | .reuseLUI rd v base diff =>
      some
        { insts := t.insts.set t.pos (makeADDI rd base diff)
          pos := t.pos + 1
          values := setKnownValue t.values rd v }
    | .simple => some { t with pos := t.pos + 1, values := learnSimpleValue I t.values i }

/-- The loop; it ends where `II` is the end of the vector. -/
def LUIPass.loop : Nat → LUIPass → Option LUIPass
  | 0, _ => none
  | n + 1, t => if t.pos = t.insts.length then some t else (t.step I data).bind (loop n)

/-- One block, with the values known at its beginning: the block, and the values behind it. -/
def reuseBlock (values : RegValueMap) (insts : List MCInst) : Option (List MCInst × RegValueMap) :=
  (LUIPass.loop I data (insts.length + 1) ⟨insts, 0, values⟩).map fun t => (t.insts, t.values)

/-- `canCarryValuesToBlock`. -/
def canCarryValuesToBlock (hasCFG : Bool) (prev : Option BasicBlock) (cur : BasicBlock) : Bool :=
  match prev with
  | none => false
  | some prev => hasCFG && cur.preds == [prev.label] && prev.succs == [cur.label]

/-- The values at the beginning of a block. -/
def valuesAt (hasCFG : Bool) (prev : Option BasicBlock) (values : RegValueMap) (cur : BasicBlock) :
    RegValueMap :=
  if canCarryValuesToBlock hasCFG prev cur then values else .cleared

/-- `runOnFunction`, from a block on: `prev` is the block in front and `values` what is known behind
it. -/
def reuseFunction (hasCFG : Bool) :
    Option BasicBlock → RegValueMap → List BasicBlock → Option (List BasicBlock)
  | _, _, [] => some []
  | prev, values, b :: rest =>
    (reuseBlock I data (valuesAt hasCFG prev values b) b.insts).bind fun q =>
      (reuseFunction hasCFG (some b) q.2 rest).map ({ b with insts := q.1 } :: ·)

end Loop

end RvLlvm.Bolt
