import RvLlvm.Bolt.MCInst
import RvLlvm.Support.WordMemory

/-!
# Running a block

What the instructions do that the peephole passes read or write: the integer loads and stores,
`lui`, `addi`, `add` and their compressed forms, on registers of `w` bits (32 or 64). Every other
instruction, calls among them, is a parameter, of which the instruction tables say what it does not
change (`Framed`).
-/

namespace RvLlvm.Bolt

open Support

/-- Registers and memory. -/
structure State (w : Nat) where
  reg : MCPhysReg → BitVec w
  mem : WordMemory w

namespace State

variable {w : Nat}

/-- A register; `X0` and no register are zero. -/
def get (s : State w) (r : MCPhysReg) : BitVec w := if r ≤ gpr 0 then 0 else s.reg r

/-- A register written; `X0` is not. -/
def set (s : State w) (r : MCPhysReg) (v : BitVec w) : State w :=
  if r ≤ gpr 0 then s else { s with reg := fun q => if q = r then v else s.reg q }

@[simp] theorem mem_set (s : State w) (r : MCPhysReg) (v : BitVec w) : (s.set r v).mem = s.mem := by
  rw [set]
  split <;> rfl

theorem get_set_of_ne (s : State w) {r q : MCPhysReg} (v : BitVec w) (h : q ≠ r) :
    (s.set r v).get q = s.get q := by
  rw [set]
  split
  · rfl
  · simp only [get, if_neg h]

theorem get_set_self (s : State w) {r : MCPhysReg} (v : BitVec w) (h : ¬ r ≤ gpr 0) :
    (s.set r v).get r = v := by
  rw [set, if_neg h]
  simp only [get, if_neg h, if_true]

theorem get_of_le (s : State w) {r : MCPhysReg} (h : r ≤ gpr 0) : s.get r = 0 := if_pos h

/-- A register written with what it holds. -/
@[simp] theorem set_get (s : State w) (r : MCPhysReg) : s.set r (s.get r) = s := by
  rw [set]
  split
  · rfl
  next hr =>
    rw [get, if_neg hr]
    cases s with
    | mk reg mem =>
      congr 1
      funext q
      split
      next h => rw [h]
      · rfl

end State

/-- After an instruction: at the next one, or away from the block. -/
abbrev Outcome (w : Nat) := Except (State w) (State w)

/-- What the model leaves open. -/
structure Env (w : Nat) where
  /-- The value of an expression as an immediate. -/
  value : MCExpr → Int
  /-- What the floating-point loads and stores do with their register and address. -/
  float : Opcode → MCPhysReg → BitVec w → State w → State w
  /-- What the other instructions do. -/
  other : MCInst → State w → Outcome w

/-- The size of a load, and whether it extends the sign. -/
def loadKind : Opcode → Option (Nat × Bool)
  | .lb => some (1, true)
  | .lbu => some (1, false)
  | .lh => some (2, true)
  | .lhu => some (2, false)
  | .lw | .cLw | .cLwsp => some (4, true)
  | .lwu => some (4, false)
  | .ld => some (8, true)
  | _ => none

/-- The size of a store. -/
def storeSize : Opcode → Option Nat
  | .sb => some 1
  | .sh => some 2
  | .sw | .cSw | .cSwsp => some 4
  | .sd => some 8
  | _ => none

/-- The floating-point loads and stores. -/
def isFloatAccess : Opcode → Bool
  | .flw | .fld | .fsw | .fsd => true
  | _ => false

section Exec

variable {w : Nat} (E : Env w)

/-- The operand as an immediate. -/
def Env.imm : MCOperand → Option Int
  | .imm v => some v
  | .expr e => some (E.value e)
  | .reg _ => none

/-- A load. -/
def State.load (s : State w) (r : MCPhysReg) (a : BitVec w) : Nat × Bool → State w
  | (n, true) => s.set r ((s.mem.load a n).signExtend w)
  | (n, false) => s.set r ((s.mem.load a n).setWidth w)

/-- A store. -/
def State.store (s : State w) (r : MCPhysReg) (a : BitVec w) (n : Nat) : State w :=
  { s with mem := s.mem.store a n (s.get r) }

/-- What `lui` puts into a register: its twenty bits, shifted and extended. -/
def luiValue (w : Nat) (v : Int) : BitVec w := BitVec.ofInt w ((v * 2 ^ 12).bmod (2 ^ 32))

/-- An instruction of two registers and an immediate: `a` is the sum of the second and the third. -/
def execSum (i : MCInst) (r : MCPhysReg) (a : BitVec w) (s : State w) : Outcome w :=
  match loadKind i.opcode, storeSize i.opcode with
  | some k, _ => .ok (s.load r a k)
  | none, some n => .ok (s.store r a n)
  | none, none =>
    if i.opcode = .addi ∨ i.opcode = .cAddi then .ok (s.set r a)
    else if isFloatAccess i.opcode then .ok (E.float i.opcode r a s)
    else E.other i s

/-- One instruction. -/
def exec (i : MCInst) (s : State w) : Outcome w :=
  match i.opcode, i.operands with
  | .lui, .reg r :: o :: _ => (E.imm o).elim (E.other i s) fun v => .ok (s.set r (luiValue w v))
  | .cLui, .reg r :: o :: _ => (E.imm o).elim (E.other i s) fun v => .ok (s.set r (luiValue w v))
  | .cLi, .reg r :: o :: _ => (E.imm o).elim (E.other i s) fun v => .ok (s.set r (BitVec.ofInt w v))
  | .cMv, .reg r :: .reg b :: _ => .ok (s.set r (s.get b))
  | .add, .reg r :: .reg b :: .reg c :: _ => .ok (s.set r (s.get b + s.get c))
  | _, .reg r :: .reg b :: o :: _ =>
    (E.imm o).elim (E.other i s) fun v => execSum E i r (s.get b + BitVec.ofInt w v) s
  | _, _ => E.other i s

/-- The instructions of a block, one after the other. -/
def run (insts : List MCInst) (s : State w) : Outcome w := insts.foldlM (fun s i => exec E i s) s

@[simp] theorem run_nil (s : State w) : run E [] s = .ok s := rfl

theorem run_append (A B : List MCInst) (s : State w) :
    run E (A ++ B) s = (run E A s).bind (run E B) := by
  rw [run, List.foldlM_append]
  rfl

theorem run_concat (A : List MCInst) (i : MCInst) (s : State w) :
    run E (A ++ [i]) s = (run E A s).bind (exec E i) := by
  rw [run_append]
  congr 1
  funext s
  rw [run, List.foldlM_cons]
  exact bind_pure _

theorem run_singleton (i : MCInst) (s : State w) : run E [i] s = exec E i s := by
  rw [run, List.foldlM_cons]
  exact bind_pure _

theorem run_pair (i j : MCInst) (s : State w) : run E [i, j] s = (exec E i s).bind (exec E j) := by
  rw [show [i, j] = [i] ++ [j] from rfl, run_concat, run_singleton]

end Exec

theorem ok_bind {w : Nat} (s : State w) (f : State w → Outcome w) : Except.bind (.ok s) f = f s :=
  rfl

theorem error_bind {w : Nat} (s : State w) (f : State w → Outcome w) :
    Except.bind (.error s) f = .error s := rfl

/-! ## Frames -/

/-- `writesReg`: the register is defined. -/
def writesReg (I : MCInstrInfo) (i : MCInst) (r : MCPhysReg) : Bool :=
  (i.operands.take (I.get i.opcode).numDefs).contains (.reg r) || (I.get i.opcode).implicitDefs.contains r

/-- The registers that an instruction defines. -/
def definedRegs (I : MCInstrInfo) (i : MCInst) : List MCPhysReg :=
  (I.get i.opcode).implicitDefs ++ (i.operands.take (I.get i.opcode).numDefs).filterMap fun
    | .reg r => some r
    | _ => none

theorem mem_definedRegs {I : MCInstrInfo} {i : MCInst} {r : MCPhysReg} :
    r ∈ definedRegs I i ↔ writesReg I i r = true := by
  rw [definedRegs, writesReg, Bool.or_eq_true, List.mem_append, List.contains_iff_mem,
    List.contains_iff_mem, List.mem_filterMap, or_comm]
  refine or_congr_left ⟨?_, fun h => ⟨_, h, rfl⟩⟩
  rintro ⟨o, ho, hr⟩
  split at hr
  · obtain rfl := Option.some.inj hr
    exact ho
  · exact absurd hr (by simp)

/-- `readsReg`: the register is used. -/
def readsReg (I : MCInstrInfo) (i : MCInst) (r : MCPhysReg) : Bool :=
  (i.operands.drop (I.get i.opcode).numDefs).contains (.reg r) || (I.get i.opcode).implicitUses.contains r

/-- A call in the sense of the tables, a return, a branch or an instruction with side effects. -/
def isBarrierDesc (d : MCInstrDesc) : Bool :=
  d.isCall || d.isReturn || d.isBranch || d.hasUnmodeledSideEffects

/-- What the tables promise of the other instructions: one that is no barrier, no call and touches
no memory changes only the registers it defines. -/
def Framed (I : MCInstrInfo) {w : Nat} (E : Env w) : Prop :=
  ∀ i s s', isBarrierDesc (I.get i.opcode) = false → isCall I i = false →
    (I.get i.opcode).mayLoad = false → (I.get i.opcode).mayStore = false → E.other i s = .ok s' →
    s'.mem = s.mem ∧ ∀ r, writesReg I i r = false → s'.get r = s.get r

end RvLlvm.Bolt
