import RvLlvm.Support.Rv

/-!
# Fixups of the RISC-V JIT linker

Model of `ELFJITLinker_riscv::applyFixup` (`llvm/lib/ExecutionEngine/JITLink/ELF_riscv.cpp:180-500`)
for the edges that store or form an address. The linker is told where the data begins and how far
it will be moved down after linking, and takes that distance off the targets it finds beyond.

* `absoluteValue` and `getAdjustedTargetValue` take the distance off, by an unsigned and by a signed
  comparison; the other kinds do not.
* `applyFixup` stores into the little-endian cell at the fixup, given and returned as a number.
-/

namespace RvLlvm.JitLink

open RvLlvm.Support

/-- `R_RISCV_...`; `abs32`, `abs64` and `pcrel32` are `R_RISCV_32`, `R_RISCV_64` and
`R_RISCV_32_PCREL`. -/
inductive EdgeKind
  | abs32 | abs64 | pcrel32
  | hi20 | lo12I | lo12S
  | pcrelHi20 | pcrelLo12I | pcrelLo12S
  | add8 | add16 | add32 | add64
  | sub6 | sub8 | sub16 | sub32 | sub64
  | set6 | set8 | set16 | set32
  deriving DecidableEq

/-- An edge of a block: `target` is the address of its target and `targetOffset` the target's place
in its own block. -/
structure Edge where
  kind : EdgeKind
  offset : Nat
  target : Int
  targetOffset : Nat
  addend : Int
  deriving DecidableEq

/-- The members of `ELFJITLinker_riscv`. -/
structure Linker where
  dataSectionBegin : Int
  fixupOffset : Int
  extraFixupOffset : Int

/-- The errors of `applyFixup`. -/
inductive FixupError
  | targetOutOfRange
  | noHi20
  deriving DecidableEq

/-- The target with its addend, as an `int64_t`. -/
def Edge.value (e : Edge) : Int := (e.target + e.addend).bmod (2 ^ 64)

namespace Linker

variable (J : Linker)

/-- `getFixupOffset`. -/
def getFixupOffset : Int := J.fixupOffset + J.extraFixupOffset

/-- `getAdjustedTargetValue`. -/
def getAdjustedTargetValue (e : Edge) : Int :=
  if J.dataSectionBegin ≤ e.value then e.value - J.getFixupOffset else e.value

/-- The value of the absolute kinds. The comparison is one of `uint64_t`. -/
def absoluteValue (e : Edge) : Int :=
  if J.dataSectionBegin % 2 ^ 64 ≤ (e.target + e.addend) % 2 ^ 64 then e.value - J.getFixupOffset
  else e.value

end Linker

/-- `isInRangeForImm(Value, 32)`. -/
def isInRange32 (v : Int) : Bool := decide (v = v.bmod (2 ^ 32))

/-- `getRISCVPCRelHi20`: the high part at the label that the low part refers to, among the edges of
the label's block. -/
def getRISCVPCRelHi20 (edges : List Edge) (e : Edge) : Option Edge :=
  edges.find? fun h => decide (h.offset = e.targetOffset) && decide (h.kind = .pcrelHi20)

/-- The high part of `v`, if it fits. -/
def storeHi20 (v : Int) (raw : Nat) : Except FixupError Nat :=
  let hi := v + 0x800
  if isInRange32 hi then .ok (Rv.setUpper (hi / 2 ^ 12) raw) else .error .targetOutOfRange

/-- `applyFixup` of edge `e` at address `fixup`; `edges` are those of the target's block. -/
def applyFixup (J : Linker) (fixup : Int) (edges : List Edge) (e : Edge) (raw : Nat) :
    Except FixupError Nat :=
  match e.kind with
  | .abs32 => .ok (setField 0 32 (J.absoluteValue e) raw)
  | .abs64 => .ok (setField 0 64 e.value raw)
  | .pcrelHi20 => storeHi20 (J.getAdjustedTargetValue e - fixup) raw
  | .pcrelLo12I =>
    match getRISCVPCRelHi20 edges e with
    | none => .error .noHi20
    | some h => .ok (Rv.setImmI (J.getAdjustedTargetValue h - e.target) raw)
  | .pcrelLo12S =>
    match getRISCVPCRelHi20 edges e with
    | none => .error .noHi20
    | some h => .ok (Rv.setImmS (J.getAdjustedTargetValue h - e.target) raw)
  | .hi20 => storeHi20 (J.absoluteValue e) raw
  | .lo12I => .ok (Rv.setImmI (J.absoluteValue e) raw)
  | .lo12S => .ok (Rv.setImmS (J.absoluteValue e) raw)
  | .add8 => .ok (setField 0 8 (e.target + field 0 8 raw + e.addend) raw)
  | .add16 => .ok (setField 0 16 (e.target + field 0 16 raw + e.addend) raw)
  | .add32 => .ok (setField 0 32 (e.target + field 0 32 raw + e.addend) raw)
  | .add64 => .ok (setField 0 64 (e.target + field 0 64 raw + e.addend) raw)
  | .sub8 => .ok (setField 0 8 (field 0 8 raw - e.target - e.addend) raw)
  | .sub16 => .ok (setField 0 16 (field 0 16 raw - e.target - e.addend) raw)
  | .sub32 => .ok (setField 0 32 (field 0 32 raw - e.target - e.addend) raw)
  | .sub64 => .ok (setField 0 64 (field 0 64 raw - e.target - e.addend) raw)
  | .sub6 => .ok (setField 0 6 (field 0 6 raw - (e.target - e.addend)) raw)
  | .set6 => .ok (setField 0 6 e.value raw)
  | .set8 => .ok (setField 0 8 e.value raw)
  | .set16 => .ok (setField 0 16 e.value raw)
  | .set32 => .ok (setField 0 32 e.value raw)
  | .pcrel32 => .ok (setField 0 32 (e.target + e.addend - fixup) raw)

/-! ## The distance taken off -/

/-- The kinds that take the distance off, and whether the target is beyond the start of data as the
kind compares it. -/
def Linker.applied (J : Linker) (e : Edge) : Int :=
  match e.kind with
  | .abs32 | .hi20 | .lo12I | .lo12S =>
    if J.dataSectionBegin % 2 ^ 64 ≤ (e.target + e.addend) % 2 ^ 64 then J.getFixupOffset else 0
  | .pcrelHi20 | .pcrelLo12I | .pcrelLo12S =>
    if J.dataSectionBegin ≤ e.value then J.getFixupOffset else 0
  | _ => 0

theorem Edge.value_emod (e : Edge) {w : Nat} (hw : w ≤ 64) :
    e.value % 2 ^ w = (e.target + e.addend) % 2 ^ w := by
  have hdvd : (2 : Int) ^ w ∣ ((2 ^ 64 : Nat) : Int) := by
    rw [Nat.cast_pow]
    exact pow_dvd_pow 2 hw
  rw [Edge.value, ← Int.emod_emod_of_dvd _ hdvd, Int.bmod_emod, Int.emod_emod_of_dvd _ hdvd]

theorem Linker.absoluteValue_eq (J : Linker) {e : Edge}
    (h : e.kind = .abs32 ∨ e.kind = .hi20 ∨ e.kind = .lo12I ∨ e.kind = .lo12S) :
    J.absoluteValue e = e.value - J.applied e := by
  unfold absoluteValue applied
  rcases h with h | h | h | h <;> rw [h] <;> simp only <;> split <;> simp

theorem Linker.getAdjustedTargetValue_eq (J : Linker) {e : Edge} (h : e.kind = .pcrelHi20) :
    J.getAdjustedTargetValue e = e.value - J.applied e := by
  unfold getAdjustedTargetValue applied
  rw [h]
  simp only
  split <;> simp

/-- **A high and a low part make the value** they were both taken from. -/
theorem storeHi20_lo12 {v u : Int} {raw raw' : Nat} (h : storeHi20 v raw = .ok raw')
    (hu : u % 0x1000 = v % 0x1000) :
    cell 32 (Rv.upperImm raw' + Rv.lo12 u) = cell 32 v := by
  simp only [storeHi20] at h
  split at h
  · obtain rfl := Except.ok.inj h
    rw [Rv.upperImm_setUpper, Rv.lo12_congr hu]
    exact (Rv.upper_lo12_iff v v).mpr rfl
  · exact absurd h (by simp)

end RvLlvm.JitLink
