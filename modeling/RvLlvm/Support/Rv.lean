import RvLlvm.Support.BitField

/-!
# How RISC-V code forms addresses

The fields of an instruction word and the addresses that `lui` and `auipc` form with the 12-bit
immediates of the instructions that follow, with `w`-bit registers. Nothing here names a program.

* `rd`, `rs1`, `upperImm`, `immI`, `immS` read an instruction word, `setRs1`, `setUpper`,
  `setImmI`, `setImmS` write it.
* `execLui`, `addressI`, `addressS`: what the instructions do with registers.
* `hi20`, `lo12`: the split of an address into the two parts.
* `upper_lo12_iff`: a `lui` for `v` serves a low part taken from `u` exactly when the high parts of
  `u` and `v` agree.
-/

namespace RvLlvm.Support.Rv

/-! ## Instruction fields -/

/-- The destination register. -/
def rd (insn : Nat) : Nat := field 7 5 insn

/-- The first source register, the base of a load or store. -/
def rs1 (insn : Nat) : Nat := field 15 5 insn

/-- The immediate of a U-type instruction. -/
def upperImm (insn : Nat) : Int := signExtend 20 (field 12 20 insn) * 2 ^ 12

/-- The immediate of an I-type instruction. -/
def immI (insn : Nat) : Int := signExtend 12 (field 20 12 insn)

/-- The immediate of an S-type instruction. -/
def immS (insn : Nat) : Int := signExtend 12 (field 25 7 insn * 2 ^ 5 + field 7 5 insn)

def setRs1 (r : Nat) (insn : Nat) : Nat := setField 15 5 r insn

def setUpper (v : Int) (insn : Nat) : Nat := setField 12 20 v insn

def setImmI (v : Int) (insn : Nat) : Nat := setField 20 12 v insn

def setImmS (v : Int) (insn : Nat) : Nat := setField 25 7 (v / 2 ^ 5) (setField 7 5 v insn)

section Fields

variable (v : Int) (r insn : Nat)

@[simp] theorem upperImm_setUpper : upperImm (setUpper v insn) = v.bmod (2 ^ 20) * 2 ^ 12 := by
  rw [upperImm, setUpper, field_setField_self, signExtend_low]

@[simp] theorem rd_setUpper : rd (setUpper v insn) = rd insn :=
  field_setField_below v insn (by decide)

@[simp] theorem immI_setImmI : immI (setImmI v insn) = v.bmod 4096 := by
  rw [immI, setImmI, field_setField_self, signExtend_low]
  rfl

@[simp] theorem rs1_setImmI : rs1 (setImmI v insn) = rs1 insn :=
  field_setField_below v insn (by decide)

@[simp] theorem immS_setImmS : immS (setImmS v insn) = v.bmod 4096 := by
  have hlow : field 7 5 (setImmS v insn) = (v % 2 ^ 5).toNat := by
    rw [setImmS, field_setField_below _ _ (by decide), field_setField_self]
  have hhigh : field 25 7 (setImmS v insn) = (v / 2 ^ 5 % 2 ^ 7).toNat := by
    rw [setImmS, field_setField_self]
  have hjoin : (v / 2 ^ 5 % 2 ^ 7).toNat * 2 ^ 5 + (v % 2 ^ 5).toNat = (v % 2 ^ 12).toNat := by
    omega
  rw [immS, hlow, hhigh, hjoin, signExtend_low]
  rfl

@[simp] theorem rs1_setImmS : rs1 (setImmS v insn) = rs1 insn := by
  rw [rs1, setImmS, field_setField_below _ _ (by decide), field_setField_above _ _ (by decide)]
  rfl

@[simp] theorem rs1_setRs1 (h : r < 2 ^ 5) : rs1 (setRs1 r insn) = r := by
  rw [rs1, setRs1, field_setField_self]
  omega

end Fields

/-! ## Registers -/

/-- The integer registers; `x0` is not among those a write reaches. -/
abbrev Regs := Nat → Nat

/-- A register write. -/
def Regs.write (x : Regs) (r v : Nat) : Regs := if r = 0 then x else Function.update x r v

theorem Regs.write_self {x : Regs} {r v : Nat} (h : r ≠ 0) : x.write r v r = v := by
  rw [Regs.write, if_neg h, Function.update_self]

theorem Regs.write_of_ne {x : Regs} {r r' v : Nat} (h : r' ≠ r) : x.write r v r' = x r' := by
  unfold Regs.write
  split
  · rfl
  · exact Function.update_of_ne h _ _

variable (w : Nat)

/-- `lui`. -/
def execLui (insn : Nat) (x : Regs) : Regs := x.write (rd insn) (cell w (upperImm insn))

/-- The address an I-type load or `addi` forms. -/
def addressI (insn : Nat) (x : Regs) : Nat := cell w (x (rs1 insn) + immI insn)

/-- The address a store forms. -/
def addressS (insn : Nat) (x : Regs) : Nat := cell w (x (rs1 insn) + immS insn)

/-! ## The two parts of an address -/

/-- The low part: the signed 12-bit remainder. -/
def lo12 (v : Int) : Int := v.bmod 4096

/-- The high part: `v` rounded to the nearest multiple of 4096, divided by it. -/
def hi20 (v : Int) : Int := (v + 0x800) / 0x1000

theorem lo12_eq (v : Int) : lo12 v = v - hi20 v * 0x1000 := by
  rw [lo12, hi20, Int.bmod_def]
  split <;> omega

/-- A value in the range of a 12-bit immediate is its own low part. -/
theorem lo12_of_range {v : Int} (h : -2048 ≤ v ∧ v ≤ 2047) : lo12 v = v := by
  rw [lo12_eq]
  unfold hi20
  omega

/-- The low part only depends on the value modulo 4096. -/
theorem lo12_congr {u v : Int} (h : u % 0x1000 = v % 0x1000) : lo12 u = lo12 v := by
  rw [lo12_eq, lo12_eq]
  unfold hi20
  omega

/-- **A shared `lui`**: the high part of `v` and the low part of `u` make `u` exactly when `u` and
`v` have the same high part. -/
theorem upper_lo12_iff (u v : Int) :
    cell 32 ((hi20 v).bmod (2 ^ 20) * 2 ^ 12 + lo12 u) = cell 32 u ↔
      hi20 v % 2 ^ 20 = hi20 u % 2 ^ 20 := by
  rw [cell_eq_iff, lo12_eq, Int.bmod_def]
  split <;> omega

/-- **Parts of two values**: the high part of `v` and the low part of `u` make `t` exactly when each
is the part of `t`. -/
theorem upper_lo12_eq_iff (v u t : Int) :
    cell 32 ((hi20 v).bmod (2 ^ 20) * 2 ^ 12 + lo12 u) = cell 32 t ↔
      u % 2 ^ 12 = t % 2 ^ 12 ∧ hi20 v % 2 ^ 20 = hi20 t % 2 ^ 20 := by
  rw [cell_eq_iff, lo12_eq, Int.bmod_def]
  unfold hi20
  split <;> omega

/-- The high part only depends on the value modulo `2 ^ 32`. -/
theorem hi20_congr {u v : Int} (h : u % 2 ^ 32 = v % 2 ^ 32) :
    hi20 u % 2 ^ 20 = hi20 v % 2 ^ 20 := by
  unfold hi20
  omega

/-- With 64-bit registers the high part must also fit the immediate. -/
theorem upper_lo12_of_fits {u v : Int} (h : hi20 v % 2 ^ 52 = hi20 u % 2 ^ 52)
    (hlo : -2 ^ 19 ≤ (hi20 v).bmod (2 ^ 52)) (hhi : (hi20 v).bmod (2 ^ 52) < 2 ^ 19) :
    cell 64 ((hi20 v).bmod (2 ^ 20) * 2 ^ 12 + lo12 u) = cell 64 u := by
  rw [cell_eq_iff, lo12_eq]
  simp only [Int.bmod_def] at hlo hhi ⊢
  omega

end RvLlvm.Support.Rv
