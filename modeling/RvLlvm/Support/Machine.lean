import Mathlib.Logic.Relation
import RvLlvm.Support.Memory
import RvLlvm.Support.Rv

/-!
# A 32-bit RISC-V machine

A machine that runs code from memory: the integer instructions, and their compressed forms, that
small position-independent code uses. Nothing here names a program.

* `fetch` reads and decodes the instruction at an address, `exec` runs it, `step` does both; `ecall`
  is given by a parameter.
* `fetch_congr`: the instruction only depends on the four bytes at its address.
* `reads`: the addresses that an instruction loads from.
-/

namespace RvLlvm.Support.Rv

/-! ## Instructions -/

/-- The operations with an immediate. -/
inductive ImmOp
  | addi | xori | andi | slli | srli
  deriving DecidableEq

/-- The tests of the branches. -/
inductive Cond
  | eq | ne | ge
  deriving DecidableEq

/-- The instructions of the machine. -/
inductive Instr
  | lui (rd : Nat) (imm : Int)
  | auipc (rd : Nat) (imm : Int)
  | opImm (op : ImmOp) (rd rs1 : Nat) (imm : Int)
  | add (rd rs1 rs2 : Nat)
  | sub (rd rs1 rs2 : Nat)
  | lw (rd rs1 : Nat) (imm : Int)
  | lbu (rd rs1 : Nat) (imm : Int)
  | sb (rs2 rs1 : Nat) (imm : Int)
  | branch (c : Cond) (rs1 rs2 : Nat) (imm : Int)
  | jal (rd : Nat) (imm : Int)
  | jalr (rd rs1 : Nat) (imm : Int)
  | ecall
  deriving DecidableEq

/-! ## Decoding -/

/-- The immediate of a branch. -/
def immB (w : Nat) : Int :=
  signExtend 13 (field 31 1 w * 2 ^ 12 + field 7 1 w * 2 ^ 11 + field 25 6 w * 2 ^ 5 +
    field 8 4 w * 2)

/-- The 32-bit forms. -/
def decode32 (w : Nat) : Option Instr :=
  match field 0 7 w, field 12 3 w with
  | 0x37, _ => some (.lui (rd w) (upperImm w))
  | 0x17, _ => some (.auipc (rd w) (upperImm w))
  | 0x13, 0 => some (.opImm .addi (rd w) (rs1 w) (immI w))
  | 0x13, 4 => some (.opImm .xori (rd w) (rs1 w) (immI w))
  | 0x13, 7 => some (.opImm .andi (rd w) (rs1 w) (immI w))
  | 0x13, 5 => if field 25 7 w = 0 then some (.opImm .srli (rd w) (rs1 w) (field 20 5 w)) else none
  | 0x33, 0 =>
    if field 25 7 w = 0x20 then some (.sub (rd w) (rs1 w) (field 20 5 w))
    else if field 25 7 w = 0 then some (.add (rd w) (rs1 w) (field 20 5 w))
    else none
  | 0x03, 2 => some (.lw (rd w) (rs1 w) (immI w))
  | 0x03, 4 => some (.lbu (rd w) (rs1 w) (immI w))
  | 0x23, 0 => some (.sb (field 20 5 w) (rs1 w) (immS w))
  | 0x63, 5 => some (.branch .ge (rs1 w) (field 20 5 w) (immB w))
  | 0x73, 0 => if w = 0x73 then some .ecall else none
  | _, _ => none

/-- The six-bit immediate of the compressed forms. -/
def imm6 (h : Nat) : Int := signExtend 6 (field 12 1 h * 2 ^ 5 + field 2 5 h)

/-- The immediate of a compressed jump. -/
def immCJ (h : Nat) : Int :=
  signExtend 12 (field 12 1 h * 2 ^ 11 + field 11 1 h * 2 ^ 4 + field 9 2 h * 2 ^ 8 +
    field 8 1 h * 2 ^ 10 + field 7 1 h * 2 ^ 6 + field 6 1 h * 2 ^ 7 + field 3 3 h * 2 +
    field 2 1 h * 2 ^ 5)

/-- The immediate of a compressed branch. -/
def immCB (h : Nat) : Int :=
  signExtend 9 (field 12 1 h * 2 ^ 8 + field 10 2 h * 2 ^ 3 + field 5 2 h * 2 ^ 6 +
    field 3 2 h * 2 + field 2 1 h * 2 ^ 5)

/-- The compressed forms, as the instructions they stand for. -/
def decode16 (h : Nat) : Option Instr :=
  let r := field 7 5 h
  let r1 := 8 + field 7 3 h
  let r2 := 8 + field 2 3 h
  match field 0 2 h, field 13 3 h with
  | 0, 2 =>
    some (.lw r2 r1 (field 10 3 h * 2 ^ 3 + field 6 1 h * 2 ^ 2 + field 5 1 h * 2 ^ 6 : Nat))
  | 1, 0 => some (.opImm .addi r r (imm6 h))
  | 1, 1 => some (.jal 1 (immCJ h))
  | 1, 2 => some (.opImm .addi r 0 (imm6 h))
  | 1, 3 => if r = 2 then none else some (.lui r (imm6 h * 2 ^ 12))
  | 1, 4 => if field 10 3 h = 3 ∧ field 5 2 h = 0 then some (.sub r1 r1 r2) else none
  | 1, 5 => some (.jal 0 (immCJ h))
  | 1, 6 => some (.branch .eq r1 0 (immCB h))
  | 1, 7 => some (.branch .ne r1 0 (immCB h))
  | 2, 0 => if field 12 1 h = 0 then some (.opImm .slli r r (field 2 5 h)) else none
  | 2, 4 =>
    if field 12 1 h = 0 then
      if field 2 5 h = 0 then some (.jalr 0 r 0) else some (.add r 0 (field 2 5 h))
    else if field 2 5 h = 0 then none
    else some (.add r r (field 2 5 h))
  | _, _ => none

/-- The half-word at `a`. -/
def halfAt (m : Memory) (a : Nat) : Nat := (m a).toNat + 256 * (m (a + 1)).toNat

/-- The word at `a`. -/
def wordAt (m : Memory) (a : Nat) : Nat := halfAt m a + 2 ^ 16 * halfAt m (a + 2)

/-- The instruction at `pc`, with its length. -/
def fetch (m : Memory) (pc : Nat) : Option (Instr × Nat) :=
  if halfAt m pc % 4 = 3 then (decode32 (wordAt m pc)).map fun i => (i, 4)
  else (decode16 (halfAt m pc)).map fun i => (i, 2)

theorem fetch_congr {m m' : Memory} {a b : Nat} (h : ∀ i < 4, m (a + i) = m' (b + i)) :
    fetch m a = fetch m' b := by
  have h0 : m a = m' b := h 0 (by decide)
  have hlow : halfAt m a = halfAt m' b := by
    rw [halfAt, halfAt, h0, h 1 (by decide)]
  have hhigh : halfAt m (a + 2) = halfAt m' (b + 2) := by
    rw [halfAt, halfAt, h 2 (by decide), Nat.add_assoc, h 3 (by decide)]
  rw [fetch, fetch, wordAt, wordAt, hlow, hhigh]

/-! ## Execution -/

/-- The state of the machine. -/
structure State where
  x : Regs
  mem : Memory
  pc : Nat

/-- The signed value of a register. -/
def signed (v : Nat) : Int := (v : Int).bmod (2 ^ 32)

/-- The value of an operation with an immediate. -/
def ImmOp.value (op : ImmOp) (v : Nat) (imm : Int) : Nat :=
  match op with
  | .addi => word (v + imm)
  | .xori => v ^^^ word imm
  | .andi => v &&& word imm
  | .slli => word (v * 2 ^ imm.toNat)
  | .srli => v / 2 ^ imm.toNat

/-- The test of a branch. -/
def Cond.holds (c : Cond) (v w : Nat) : Bool :=
  match c with
  | .eq => decide (v = w)
  | .ne => decide (v ≠ w)
  | .ge => decide (signed w ≤ signed v)

theorem ge_holds (v w : Nat) : Cond.ge.holds v w = decide (signed w ≤ signed v) := by
  unfold Cond.holds
  rfl

theorem bmod_two_mul {v k : Nat} (h : v < 2 * k) :
    (v : Int).bmod (2 * k) = if v < k then (v : Int) else v - (2 * k : Nat) := by
  rw [Int.bmod_def, Int.emod_eq_of_lt (by omega) (by omega)]
  split <;> split <;> omega

/-- The signed comparison of two addresses differs from the unsigned one across 2 GiB. -/
theorem signed_le_iff {v w : Nat} (hv : v < w) (hw : w < 2 ^ 32) :
    signed w ≤ signed v ↔ v < 2 ^ 31 ∧ 2 ^ 31 ≤ w := by
  have hhalf : (2 : Nat) ^ 32 = 2 * 2 ^ 31 := by norm_num
  unfold signed
  rw [hhalf] at hw ⊢
  generalize (2 : Nat) ^ 31 = k at *
  rw [bmod_two_mul hw, bmod_two_mul (hv.trans hw)]
  split <;> split <;> omega

/-- The effect of instruction `i`, of length `n`. -/
def exec (ecall : State → Option State) (i : Instr) (n : Nat) (s : State) : Option State :=
  let next := word (s.pc + n)
  match i with
  | .lui rd imm => some ⟨s.x.write rd (word imm), s.mem, next⟩
  | .auipc rd imm => some ⟨s.x.write rd (word (s.pc + imm)), s.mem, next⟩
  | .opImm op rd rs1 imm => some ⟨s.x.write rd (op.value (s.x rs1) imm), s.mem, next⟩
  | .add rd rs1 rs2 => some ⟨s.x.write rd (word (s.x rs1 + s.x rs2)), s.mem, next⟩
  | .sub rd rs1 rs2 => some ⟨s.x.write rd (word (s.x rs1 - s.x rs2)), s.mem, next⟩
  | .lw rd rs1 imm => some ⟨s.x.write rd (wordAt s.mem (word (s.x rs1 + imm))), s.mem, next⟩
  | .lbu rd rs1 imm => some ⟨s.x.write rd (s.mem (word (s.x rs1 + imm))).toNat, s.mem, next⟩
  | .sb rs2 rs1 imm =>
    some ⟨s.x, Function.update s.mem (word (s.x rs1 + imm)) (UInt8.ofNat (s.x rs2)), next⟩
  | .branch c rs1 rs2 imm =>
    some ⟨s.x, s.mem, if c.holds (s.x rs1) (s.x rs2) then word (s.pc + imm) else next⟩
  | .jal rd imm => some ⟨s.x.write rd next, s.mem, word (s.pc + imm)⟩
  | .jalr rd rs1 imm => some ⟨s.x.write rd next, s.mem, word (s.x rs1 + imm) / 2 * 2⟩
  | .ecall => (ecall s).map fun t => ⟨t.x, t.mem, next⟩

/-- One step. -/
def step (ecall : State → Option State) (s : State) : Option State :=
  (fetch s.mem s.pc).bind fun i => exec ecall i.1 i.2 s

/-- The addresses that the instruction loads from. -/
def Instr.reads (i : Instr) (s : State) : List Nat :=
  match i with
  | .lw _ rs1 imm => (List.range 4).map (word (s.x rs1 + imm) + ·)
  | .lbu _ rs1 imm => [word (s.x rs1 + imm)]
  | _ => []

/-- The addresses that the next step loads from. -/
def reads (s : State) : List Nat :=
  match fetch s.mem s.pc with
  | some i => i.1.reads s
  | none => []

attribute [local grind =] exec step Instr.reads reads

end RvLlvm.Support.Rv
