import RvLlvm.Bolt.ConstLUISound

/-!
# Chains of `lui` and `addi`

Model of `RISCVReuseLUIAggressive` (`bolt/lib/Passes/RISCV/RISCVReuseLUIAggressive.cpp`). An
iterator is the number of a block and a place in its vector: an instruction erased in front of it
makes it point one further. `none` stands for what the code does not define: a symbol without a
value, and an iterator behind the last block; the loop does not end at a block without instructions.
Symbol values are signed.
-/

namespace RvLlvm.Bolt

/-! ## Iterators -/

/-- `BBIter` and `InstIter`. -/
structure Place where
  bb : Nat
  ii : Nat
  deriving DecidableEq

/-- The instructions of a block. -/
def instsAt (bs : List BasicBlock) (k : Nat) : List MCInst := (bs[k]?.map (·.insts)).getD []

/-- `*II`. -/
def instAt (bs : List BasicBlock) (p : Place) : Option MCInst := (instsAt bs p.bb)[p.ii]?

/-- The beginning of the first block from `k` on that has instructions. -/
def nextBlock (bs : List BasicBlock) (k : Nat) : Option Place :=
  ((bs.drop k).findIdx? (!·.insts.isEmpty)).map fun n => ⟨k + n, 0⟩

/-- `nextInst`. -/
def nextInst (bs : List BasicBlock) (p : Place) : Option Place :=
  if p.ii + 1 = (instsAt bs p.bb).length then nextBlock bs (p.bb + 1) else some ⟨p.bb, p.ii + 1⟩

/-! ## Instructions -/

/-- `RISCVMCExpr::VK_RISCV_PCREL_LO`. -/
def vkPcrelLo : Nat := 3

/-- `isHI`. -/
def isHI : MCOperand → Bool
  | .expr (.target k _) => k == vkHi
  | _ => false

/-- `isLO`. -/
def isLO : MCOperand → Bool
  | .expr (.target k _) => k == vkLo || k == vkPcrelLo
  | _ => false

/-- `getSym`. -/
def getSym : MCOperand → Option MCSymbol
  | .expr (.target _ (.symbolRef _ s)) => some s
  | _ => none

/-- A `lui` of a high part: its register and operand. -/
def luiHigh (i : MCInst) : Option (MCPhysReg × MCOperand) :=
  match i.opcode, i.operands with
  | .lui, .reg r :: o :: _ => if isHI o then some (r, o) else none
  | _, _ => none

/-- An `addi` of a low part: its register and operand. The register that is added to is not looked
at. -/
def addiLow (i : MCInst) : Option (MCPhysReg × MCOperand) :=
  match i.opcode, i.operands with
  | .addi, .reg d :: _ :: o :: _ => if isLO o then some (d, o) else none
  | _, _ => none

/-! ## The loops -/

section Pass

variable (symbolValue : MCSymbol → Option Int)

/-- What the outer loop does at an instruction. -/
inductive ScanTurn
  | advance
  | start (addi : Place) (hiReg cur : MCPhysReg) (base : Int)
  deriving DecidableEq

/-- The tests in front of the chain. -/
def scanTurn (bs : List BasicBlock) (p : Place) : Option ScanTurn :=
  (instAt bs p).bind fun i =>
    match luiHigh i with
    | none => some .advance
    | some (hiReg, hi) =>
      match getSym hi with
      | none => some .advance
      | some hiSym =>
        (symbolValue hiSym).bind fun _ =>
          match nextInst bs p with
          | none => some .advance
          | some a =>
            (instAt bs a).bind fun j =>
              match (addiLow j).map fun l => (l.1, getSym l.2) with
              | some (cur, some loSym) =>
                if loSym ≠ hiSym then some .advance
                else (symbolValue loSym).map fun base => .start a hiReg cur base
              | _ => some .advance

/-- What the chain loop does behind the instruction where it is. -/
inductive ChainTurn
  | stop
  | link (lui addi : Place) (next : MCPhysReg) (target : Int)
  deriving DecidableEq

/-- The tests of the chain loop. The symbol of the `lui` is not compared. -/
def chainTurn (bs : List BasicBlock) (ch : Place) (hiReg : MCPhysReg) (base : Int) :
    Option ChainTurn :=
  match nextInst bs ch with
  | none => some .stop
  | some l =>
    (instAt bs l).bind fun i =>
      if (luiHigh i).map (·.1) ≠ some hiReg then some .stop
      else
        match nextInst bs l with
        | none => some .stop
        | some a =>
          (instAt bs a).bind fun j =>
            match (addiLow j).map fun l => (l.1, getSym l.2) with
            | some (next, some sym) =>
              (symbolValue sym).map fun target =>
                if target - base < -2048 ∨ target - base > 2047 then .stop else .link l a
                  next target
            | _ => some .stop

/-- `replaceInstruction` and `eraseInstruction` of a link. -/
def relink (bs : List BasicBlock) (lui addi : Place) (new : MCInst) : List BasicBlock :=
  (bs.modify addi.bb fun b => { b with insts := b.insts.set addi.ii new }).modify lui.bb fun b =>
    { b with insts := b.insts.eraseIdx lui.ii }

/-- The iterator behind a link: at the end of a block it goes to the next one. -/
def afterLink (bs : List BasicBlock) (addi : Place) : Option Place :=
  if addi.ii = (instsAt bs addi.bb).length then
    if addi.bb + 1 < bs.length then some ⟨addi.bb + 1, 0⟩ else none
  else some addi

/-- Where the loops are. -/
inductive ChainState
  | scan (bs : List BasicBlock) (p : Place)
  | chain (bs : List BasicBlock) (ch : Place) (hiReg cur : MCPhysReg) (base : Int)
  | done (bs : List BasicBlock)

/-- One turn. -/
def ChainState.step : ChainState → Option ChainState
  | .scan bs p =>
    (scanTurn symbolValue bs p).map fun
      | .advance => (nextInst bs p).elim (.done bs) (.scan bs)
      | .start a hiReg cur base => .chain bs a hiReg cur base
  | .chain bs ch hiReg cur base =>
    (chainTurn symbolValue bs ch hiReg base).bind fun
      | .stop =>
        if ch.ii = (instsAt bs ch.bb).length then
          some (if ch.bb + 1 < bs.length then .scan bs ⟨ch.bb + 1, 0⟩ else .done bs)
        else some (.scan bs ch)
      | .link l a next target =>
        let bs := relink bs l a (makeADDI next cur (target - base))
        (afterLink bs a).map fun ch => .chain bs ch hiReg next target
  | .done bs => some (.done bs)

/-- The loops, for so many turns. -/
def ChainState.loop : Nat → ChainState → Option (List BasicBlock)
  | _, .done bs => some bs
  | n + 1, st => (st.step symbolValue).bind (loop n)
  | 0, _ => none

/-- `runOnFunction`; each turn but those that end a chain passes an instruction. -/
def reuseAggressive (bs : List BasicBlock) : Option (List BasicBlock) :=
  if bs = [] then some []
  else ChainState.loop symbolValue (2 * (bs.map (·.insts.length)).sum + 1) (.scan bs ⟨0, 0⟩)

end Pass

end RvLlvm.Bolt
