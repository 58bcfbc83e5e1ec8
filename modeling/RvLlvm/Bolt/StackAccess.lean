import RvLlvm.Bolt.MCInst

/-!
# Stack accesses and escapes

Model of `isStackAccess`, `escapesVariable` and `getMemoryOperandNo` of `RISCVMCPlusBuilder`
(`bolt/lib/Target/RISCV/RISCVMCPlusBuilder.cpp:192-332`). The opcodes that the three name are
constructors; what the instruction tables say of the others is a parameter.

* `isStackAccess_eq_none`: no load or store with operands as its definition has them is a stack
  access.
* `escapesVariable_iff`: what makes an instruction a leak.
* `truthful_iff`: for which operands of which instruction the three facts are true.
-/

namespace RvLlvm.Bolt.StackAccess

/-- The opcodes of `RISCV`. -/
inductive Opcode
  | lb | lbu | lh | lhu | lw | lwu | ld
  | sb | sh | sw | sd
  | cLw | cLd | cSw | cSd
  | other (n : Nat)
  deriving DecidableEq

/-- `MCInst`, with its prime operands. -/
structure Inst where
  opcode : Opcode
  operands : List MCOperand
  deriving DecidableEq

/-- How an instruction accesses memory: the indices of its base, its offset, its data register and
of what it stores, and the bytes it accesses. -/
structure Access where
  base : Nat
  offset : Option Nat
  data : Nat
  stored : List Nat
  bytes : Nat
  deriving DecidableEq

/-- What the tables say of an opcode. -/
structure OpcodeInfo where
  numDefs : Nat
  mayLoad : Bool
  mayStore : Bool
  access : Option Access
  deriving DecidableEq

/-- The classes `Load_ri` and `CLoad_ri`: `rd`, `rs1`, `imm`. -/
def loadInfo (bytes : Nat) : OpcodeInfo := ⟨1, true, false, some ⟨1, some 2, 0, [], bytes⟩⟩

/-- The classes `Store_rri` and `CStore_rri`: `rs2`, `rs1`, `imm`. -/
def storeInfo (bytes : Nat) : OpcodeInfo := ⟨0, false, true, some ⟨1, some 2, 0, [0], bytes⟩⟩

/-- `getReg` of an operand, and no register where it is not one. -/
def Inst.getReg (i : Inst) (k : Nat) : MCPhysReg :=
  match i.operands[k]? with
  | some (.reg r) => r
  | _ => 0

/-- What `isStackAccess` reports where it returns true. -/
structure StackAccess where
  isLoad : Bool
  isStore : Bool
  isStoreFromReg : Bool
  isSimple : Bool
  isIndexed : Bool
  reg : MCPhysReg
  stackPtrReg : MCPhysReg
  stackOffset : Int
  size : Nat
  deriving DecidableEq

/-- The cases of the switch of `isStackAccess`: `IsLoad` and `Size`. -/
def accessCase : Opcode → Option (Bool × Nat)
  | .lw | .lh | .lb => some (true, 4)
  | .ld => some (true, 8)
  | .sw | .sh | .sb => some (false, 4)
  | .sd => some (false, 8)
  | _ => none

/-- `isStackAccess`; `none` is false. -/
def isStackAccess (i : Inst) : Option StackAccess :=
  match accessCase i.opcode with
  | none => none
  | some (isLoad, size) =>
    let reg := i.getReg (if isLoad then 0 else 1)
    let baseRegIdx : Nat := if isLoad then 2 else 2
    let offsetIdx : Nat := if isLoad then 1 else 2
    match i.operands[baseRegIdx]?, i.operands[offsetIdx]? with
    | some (.reg baseReg), some (.imm stackOffset) =>
      if baseReg = gpr 2 then
        some ⟨isLoad, !isLoad, !isLoad, true, false, reg, gpr 2, stackOffset, size⟩
      else none
    | _, _ => none

/-- `getMemoryOperandNo`; `none` is -1. -/
def getMemoryOperandNo : Opcode → Option Nat
  | .lw | .lh | .lb | .lbu | .lhu | .lwu | .ld => some 1
  | .sw | .sh | .sb | .sd => some 1
  | .cLw | .cLd | .cSw | .cSd => some 1
  | .other _ => none

/-- The tables: `Info` for the opcodes that are not named, and the aliases of a register. -/
structure Target where
  others : Nat → OpcodeInfo
  getAliases : MCPhysReg → MCPhysReg → Bool

namespace Target

variable (T : Target)

/-- `Info->get`, with the definitions of `RISCVInstrInfo.td` and `RISCVInstrInfoC.td`. -/
def info : Opcode → OpcodeInfo
  | .lb | .lbu => loadInfo 1
  | .lh | .lhu => loadInfo 2
  | .lw | .lwu | .cLw => loadInfo 4
  | .ld | .cLd => loadInfo 8
  | .sb => storeInfo 1
  | .sh => storeInfo 2
  | .sw | .cSw => storeInfo 4
  | .sd | .cSd => storeInfo 8
  | .other n => T.others n

/-- `SPAliases` and `SPFPAliases`. -/
def frameAliases (hasFramePointer : Bool) (r : MCPhysReg) : Bool :=
  T.getAliases (gpr 2) r || (hasFramePointer && T.getAliases (gpr 8) r)

/-- A register operand among the aliases. -/
def isFrameOperand (hasFramePointer : Bool) : MCOperand → Bool
  | .reg r => T.frameAliases hasFramePointer r
  | _ => false

/-- The test that skips base and offset. -/
def isSkipped (i : Inst) (k : Nat) : Bool :=
  match getMemoryOperandNo i.opcode with
  | none => false
  | some memOpNo =>
    ((T.info i.opcode).mayLoad || (T.info i.opcode).mayStore) && memOpNo ≤ k && k ≤ memOpNo + 1

/-- The loop over the operands from index `k` on. -/
def leakLoop (hasFramePointer : Bool) (i : Inst) : Nat → List MCOperand → Bool
  | _, [] => false
  | k, o :: rest =>
    if T.isSkipped i k then leakLoop hasFramePointer i (k + 1) rest
    else if k < (T.info i.opcode).numDefs then leakLoop hasFramePointer i (k + 1) rest
    else if T.isFrameOperand hasFramePointer o then true
    else leakLoop hasFramePointer i (k + 1) rest

/-- `defOperands`. -/
def defOperands (i : Inst) : List MCOperand := i.operands.take (T.info i.opcode).numDefs

/-- `escapesVariable`. -/
def escapesVariable (i : Inst) (hasFramePointer : Bool) : Bool :=
  T.leakLoop hasFramePointer i 0 i.operands &&
    !(T.defOperands i).any (T.isFrameOperand hasFramePointer)

/-! ## What is true of an instruction -/

/-- An instruction with the operands of its definition: a base register, an offset that is no
register, and registers to store, which are not among the results. -/
structure WellFormed (i : Inst) (f : Access) : Prop where
  base : ∃ b, i.operands[f.base]? = some (.reg b)
  offset : ∀ k, f.offset = some k → ∃ o, i.operands[k]? = some o ∧ ∀ r, o ≠ .reg r
  stored : ∀ k ∈ f.stored, (T.info i.opcode).numDefs ≤ k ∧ ∃ r, i.operands[k]? = some (.reg r)

/-- The base is sp, and the offset an immediate. -/
def SpOffset (i : Inst) (f : Access) : Prop :=
  i.operands[f.base]? = some (.reg (gpr 2)) ∧ ∃ k v, f.offset = some k ∧
    i.operands[k]? = some (.imm v)

/-- sp or fp is stored as data, or an instruction that accesses no memory passes it on in another
register. -/
def Leaks (i : Inst) (hasFramePointer : Bool) : Prop :=
  match (T.info i.opcode).access with
  | some f => ∃ k ∈ f.stored, ∃ o, i.operands[k]? = some o ∧
    T.isFrameOperand hasFramePointer o = true
  | none =>
    (∃ k o, (T.info i.opcode).numDefs ≤ k ∧ i.operands[k]? = some o ∧
      T.isFrameOperand hasFramePointer o = true) ∧
    ∃ r, .reg r ∈ T.defOperands i ∧ T.frameAliases hasFramePointer r = false

/-- **The facts are true of an instruction.** -/
structure Truthful (i : Inst) (hasFramePointer : Bool) : Prop where
  access : ∀ f, (T.info i.opcode).access = some f → ((isStackAccess i).isSome ↔ SpOffset i f)
  report : ∀ f, (T.info i.opcode).access = some f → ∀ a, isStackAccess i = some a →
    i.operands[f.data]? = some (.reg a.reg) ∧ a.size = f.bytes ∧
      ∃ k, f.offset = some k ∧ i.operands[k]? = some (.imm a.stackOffset)
  index : ∀ f, (T.info i.opcode).access = some f → f.offset = some (f.base + 1) →
    getMemoryOperandNo i.opcode = some f.base
  leak : T.Leaks i hasFramePointer → T.escapesVariable i hasFramePointer = true

variable {T} {i : Inst} {f : Access} {hasFramePointer : Bool}

/-! ## The three functions -/

/-- The definitions of the opcodes that are named. -/
theorem access_of_accessCase {c : Bool × Nat} (hcase : accessCase i.opcode = some c)
    (hf : (T.info i.opcode).access = some f) : f.base = 1 ∧ f.offset = some 2 := by
  cases hopcode : i.opcode with
  | lw | lh | lb | ld | sw | sh | sb | sd =>
    rw [hopcode] at hf
    obtain rfl := Option.some.inj hf
    exact ⟨rfl, rfl⟩
  | _ =>
    rw [hopcode] at hcase
    exact absurd hcase (by simp [accessCase])

/-- **No load or store is a stack access**: index 2, where the base is looked for, is the offset. -/
theorem isStackAccess_eq_none (hwf : T.WellFormed i f) (hf : (T.info i.opcode).access = some f) :
    isStackAccess i = none := by
  unfold isStackAccess
  cases hcase : accessCase i.opcode with
  | none => rfl
  | some c =>
    obtain ⟨o, ho, hreg⟩ := hwf.offset 2 (access_of_accessCase hcase hf).2
    simp only [ite_self, ho]
    split
    · next h _ => exact absurd (Option.some.inj h) (hreg _)
    · rfl

/-- What the loop finds. -/
theorem leakLoop_iff (i : Inst) (k : Nat) (operands : List MCOperand) :
    T.leakLoop hasFramePointer i k operands = true ↔
      ∃ j o, operands[j]? = some o ∧ T.isSkipped i (k + j) = false ∧
        (T.info i.opcode).numDefs ≤ k + j ∧ T.isFrameOperand hasFramePointer o = true := by
  induction operands generalizing k with
  | nil => simp [leakLoop]
  | cons o rest ih =>
    have hrest : (∃ j x, (o :: rest)[j]? = some x ∧ T.isSkipped i (k + j) = false ∧
        (T.info i.opcode).numDefs ≤ k + j ∧ T.isFrameOperand hasFramePointer x = true) ↔
        (T.isSkipped i k = false ∧ (T.info i.opcode).numDefs ≤ k ∧
          T.isFrameOperand hasFramePointer o = true) ∨
        ∃ j x, rest[j]? = some x ∧ T.isSkipped i (k + 1 + j) = false ∧
          (T.info i.opcode).numDefs ≤ k + 1 + j ∧ T.isFrameOperand hasFramePointer x = true := by
      constructor
      · rintro ⟨j, x, hx, hskip, hdefs, hframe⟩
        cases j with
        | zero =>
          obtain rfl := Option.some.inj hx
          exact Or.inl ⟨hskip, hdefs, hframe⟩
        | succ j =>
          rw [show k + (j + 1) = k + 1 + j by omega] at hskip hdefs
          exact Or.inr ⟨j, x, hx, hskip, hdefs, hframe⟩
      · rintro (⟨hskip, hdefs, hframe⟩ | ⟨j, x, hx, hskip, hdefs, hframe⟩)
        · exact ⟨0, o, rfl, hskip, hdefs, hframe⟩
        · rw [show k + 1 + j = k + (j + 1) by omega] at hskip hdefs
          exact ⟨j + 1, x, hx, hskip, hdefs, hframe⟩
    rw [leakLoop, hrest, ← ih]
    split
    · next hskip => simp [hskip]
    · next hskip =>
      split
      · next hdefs => simp [Nat.not_le.mpr hdefs]
      · next hdefs =>
        split
        · next hframe => simp [hskip, hframe, Nat.not_lt.mp hdefs]
        · next hframe => simp [hframe]

/-- **A leak**: an operand that is neither a result nor skipped is sp or fp, and no result is. -/
theorem escapesVariable_iff (i : Inst) :
    T.escapesVariable i hasFramePointer = true ↔
      (∃ k o, i.operands[k]? = some o ∧ T.isSkipped i k = false ∧ (T.info i.opcode).numDefs ≤ k ∧
        T.isFrameOperand hasFramePointer o = true) ∧
      ∀ o ∈ T.defOperands i, T.isFrameOperand hasFramePointer o = false := by
  rw [escapesVariable, Bool.and_eq_true, leakLoop_iff]
  simp

/-- What is stored is not skipped. -/
theorem isSkipped_stored (hf : (T.info i.opcode).access = some f) {k : Nat} (hk : k ∈ f.stored) :
    T.isSkipped i k = false := by
  unfold isSkipped
  cases hopcode : i.opcode with
  | other n => rfl
  | lb | lbu | lh | lhu | lw | lwu | ld | cLw | cLd =>
    rw [hopcode] at hf
    obtain rfl := Option.some.inj hf
    exact absurd hk List.not_mem_nil
  | sb | sh | sw | sd | cSw | cSd =>
    rw [hopcode] at hf
    obtain rfl := Option.some.inj hf
    obtain rfl := List.mem_singleton.mp hk
    rfl

/-- An instruction that accesses no memory has nothing to skip. -/
theorem isSkipped_of_none (hf : (T.info i.opcode).access = none)
    (k : Nat) : T.isSkipped i k = false := by
  unfold isSkipped
  cases hopcode : i.opcode with
  | other n => rfl
  | _ =>
    rw [hopcode] at hf
    exact absurd hf (by simp [info, loadInfo, storeInfo])

/-- A leak is found unless a result is sp or fp. -/
theorem escapesVariable_of_leaks (hwf : ∀ f, (T.info i.opcode).access = some f → T.WellFormed i f)
    (h : T.Leaks i hasFramePointer) :
    T.escapesVariable i hasFramePointer = true ↔
      ∀ o ∈ T.defOperands i, T.isFrameOperand hasFramePointer o = false := by
  rw [escapesVariable_iff]
  refine ⟨fun hall => hall.2, fun hdefs => ⟨?_, hdefs⟩⟩
  unfold Leaks at h
  cases hf : (T.info i.opcode).access with
  | some f =>
    rw [hf] at h
    obtain ⟨k, hk, o, ho, hframe⟩ := h
    exact ⟨k, o, ho, isSkipped_stored hf hk, ((hwf f hf).stored k hk).1, hframe⟩
  | none =>
    rw [hf] at h
    obtain ⟨⟨k, o, hk, ho, hframe⟩, _⟩ := h
    exact ⟨k, o, ho, isSkipped_of_none hf k, hk, hframe⟩

/-- The index is that of the base, for the opcodes that have one. -/
theorem getMemoryOperandNo_iff (hf : (T.info i.opcode).access = some f)
    (hoffset : f.offset = some (f.base + 1)) :
    getMemoryOperandNo i.opcode = some f.base ↔ ∀ n, i.opcode ≠ .other n := by
  cases hopcode : i.opcode with
  | other n => exact ⟨fun h => absurd h (by simp [getMemoryOperandNo]), fun h => absurd rfl (h n)⟩
  | _ =>
    rw [hopcode] at hf
    obtain rfl := Option.some.inj hf
    exact ⟨fun _ _ => by simp, fun _ => rfl⟩

/-- **When the facts are true**: a load or store does not access the stack at an offset from sp; one
with an offset behind its base is among those that are listed; and where sp or fp leaks, no result
is sp or fp. -/
theorem truthful_iff (T : Target) (i : Inst) (hasFramePointer : Bool)
    (hwf : ∀ f, (T.info i.opcode).access = some f → T.WellFormed i f) :
    T.Truthful i hasFramePointer ↔
      (∀ f, (T.info i.opcode).access = some f → ¬ SpOffset i f ∧
        (f.offset = some (f.base + 1) → ∀ n, i.opcode ≠ .other n)) ∧
      (T.Leaks i hasFramePointer →
        ∀ o ∈ T.defOperands i, T.isFrameOperand hasFramePointer o = false) := by
  constructor
  · intro h
    refine ⟨fun f hf => ⟨fun hsp => ?_, fun hoffset => ?_⟩, fun hleak => ?_⟩
    · have hsome := (h.access f hf).mpr hsp
      rw [isStackAccess_eq_none (hwf f hf) hf] at hsome
      exact absurd hsome (by simp)
    · exact (getMemoryOperandNo_iff hf hoffset).mp (h.index f hf hoffset)
    · exact (escapesVariable_of_leaks hwf hleak).mp (h.leak hleak)
  · rintro ⟨haccess, hleak⟩
    constructor
    · intro f hf
      rw [isStackAccess_eq_none (hwf f hf) hf]
      exact ⟨fun h => absurd h (by simp), fun h => absurd h (haccess f hf).1⟩
    · intro f hf a ha
      rw [isStackAccess_eq_none (hwf f hf) hf] at ha
      exact absurd ha (by simp)
    · exact fun f hf hoffset => (getMemoryOperandNo_iff hf hoffset).mpr ((haccess f hf).2 hoffset)
    · exact fun h => (escapesVariable_of_leaks hwf h).mpr (hleak h)

/-- A target without further instructions, whose registers have no aliases but themselves. -/
def plainTarget : Target := ⟨fun _ => ⟨0, false, false, none⟩, fun r s => r == s⟩

/-- `sw a0, 8(a1)`. -/
theorem truthful_sw :
    plainTarget.Truthful ⟨.sw, [.reg (gpr 10), .reg (gpr 11), .imm 8]⟩ true ↔
      (∀ f, (plainTarget.info .sw).access = some f →
        ¬ SpOffset ⟨.sw, [.reg (gpr 10), .reg (gpr 11), .imm 8]⟩ f ∧
        (f.offset = some (f.base + 1) → ∀ n, Opcode.sw ≠ .other n)) ∧
      (plainTarget.Leaks ⟨.sw, [.reg (gpr 10), .reg (gpr 11), .imm 8]⟩ true →
        ∀ o ∈ plainTarget.defOperands ⟨.sw, [.reg (gpr 10), .reg (gpr 11), .imm 8]⟩,
          plainTarget.isFrameOperand true o = false) :=
  truthful_iff plainTarget ⟨.sw, [.reg (gpr 10), .reg (gpr 11), .imm 8]⟩ true fun f hf => by
    obtain rfl := Option.some.inj hf
    refine ⟨⟨gpr 11, rfl⟩, fun k hk => ?_, fun k hk => ?_⟩
    · obtain rfl := Option.some.inj hk
      exact ⟨.imm 8, rfl, fun r => by simp⟩
    · obtain rfl := List.mem_singleton.mp hk
      exact ⟨Nat.zero_le _, gpr 10, rfl⟩

/-- `lw a0, 0(sp)` is no stack access. -/
theorem not_truthful_lw :
    ¬ plainTarget.Truthful ⟨.lw, [.reg (gpr 10), .reg (gpr 2), .imm 0]⟩ true := by
  intro h
  have hsome := (h.access ⟨1, some 2, 0, [], 4⟩ rfl).mpr ⟨rfl, 2, 0, rfl, rfl⟩
  exact absurd hsome (by decide)

end Target

end RvLlvm.Bolt.StackAccess
