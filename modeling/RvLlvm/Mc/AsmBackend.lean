import RvLlvm.Support.RvImmediate

/-!
# The fixups of the RISC-V assembler

Model of `adjustFixupValue` and `applyFixup` for the immediates of instructions
(`llvm/lib/Target/RISCV/MCTargetDesc/RISCVAsmBackend.cpp:416-535`, `:644-672`) with the rows of
`getFixupKindInfo` (`:62-80`). A value has 64 bits; the bytes of a fragment are the number that they
hold, of two, four or eight bytes.

A `Piece` stands for `((Value >> lo) & mask) << pos` with a mask of `hi - lo + 1` bits.

* `applyFixup_eq`: every kind writes the pieces of its value into a word.
-/

namespace RvLlvm.Mc

open RvLlvm.Support RvLlvm.Support.Rv

/-- The kinds that write immediates. -/
inductive FixupKind
  | hi20
  | lo12I
  | lo12S
  | pcrelHi20
  | pcrelLo12I
  | pcrelLo12S
  | jal
  | branch
  | rvcJump
  | rvcBranch
  | call
  | callPlt
  deriving DecidableEq

/-- `MCFixupKindInfo`. -/
structure FixupKindInfo where
  targetOffset : Nat
  targetSize : Nat

/-- `getFixupKindInfo`. -/
def getFixupKindInfo : FixupKind → FixupKindInfo
  | .hi20 | .pcrelHi20 => ⟨12, 20⟩
  | .lo12I | .pcrelLo12I => ⟨20, 12⟩
  | .lo12S | .pcrelLo12S => ⟨0, 32⟩
  | .jal => ⟨12, 20⟩
  | .branch => ⟨0, 32⟩
  | .rvcJump => ⟨2, 11⟩
  | .rvcBranch => ⟨0, 16⟩
  | .call | .callPlt => ⟨0, 64⟩

/-- `adjustFixupValue`. -/
def adjustFixupValue (kind : FixupKind) (value : Nat) : Nat :=
  match kind with
  | .lo12I | .pcrelLo12I => scatter [⟨11, 0, 0⟩] value
  | .lo12S | .pcrelLo12S => scatter [⟨11, 5, 25⟩, ⟨4, 0, 7⟩] value
  -- adds 1 if bit 11 is 1, as the low 12 bits are then negative
  | .hi20 | .pcrelHi20 => scatter [⟨31, 12, 0⟩] (round value)
  | .jal => scatter [⟨20, 20, 19⟩, ⟨10, 1, 9⟩, ⟨11, 11, 8⟩, ⟨19, 12, 0⟩] value
  | .branch => scatter [⟨12, 12, 31⟩, ⟨10, 5, 25⟩, ⟨4, 1, 8⟩, ⟨11, 11, 7⟩] value
  | .call | .callPlt => scatter [⟨31, 12, 12⟩] (round value) ||| scatter [⟨11, 0, 52⟩] value
  | .rvcJump =>
    scatter [⟨11, 11, 10⟩, ⟨4, 4, 9⟩, ⟨9, 8, 7⟩, ⟨10, 10, 6⟩, ⟨6, 6, 5⟩, ⟨7, 7, 4⟩, ⟨3, 1, 1⟩,
      ⟨5, 5, 0⟩] value
  | .rvcBranch => scatter [⟨8, 8, 12⟩, ⟨4, 3, 10⟩, ⟨7, 6, 5⟩, ⟨2, 1, 3⟩, ⟨5, 5, 2⟩] value

/-- The errors that `adjustFixupValue` reports. -/
def fixupErrors (kind : FixupKind) (value : Nat) : List String :=
  let range (n : Nat) :=
    if signExtend 64 value = signExtend n value then [] else ["fixup value out of range"]
  let aligned := if value % 2 = 0 then [] else ["fixup value must be 2-byte aligned"]
  match kind with
  | .jal => range 21 ++ aligned
  | .branch => range 13 ++ aligned
  | _ => []

/-- `applyFixup` on the bytes from the fixup's offset on. -/
def applyFixup (kind : FixupKind) (value data : Nat) : Nat :=
  let info := getFixupKindInfo kind
  if value = 0 then data
  else
    let value := adjustFixupValue kind value <<< info.targetOffset % 2 ^ 64
    let numBytes := (info.targetSize + info.targetOffset + 7) / 8
    data ||| value % 2 ^ (8 * numBytes)

/-! ## What is written -/

/-- What a kind takes of its value: the rounded value for the upper immediates. -/
def FixupKind.input (kind : FixupKind) (value : Nat) : Nat :=
  match kind with
  | .hi20 | .pcrelHi20 => round value
  | _ => value

/-- The pieces that a kind writes into a word, but for a call. -/
def FixupKind.pieces : FixupKind → List Piece
  | .lo12I | .pcrelLo12I => [⟨11, 0, 20⟩]
  | .lo12S | .pcrelLo12S => [⟨11, 5, 25⟩, ⟨4, 0, 7⟩]
  | .hi20 | .pcrelHi20 => [⟨31, 12, 12⟩]
  | .jal => [⟨20, 20, 31⟩, ⟨10, 1, 21⟩, ⟨11, 11, 20⟩, ⟨19, 12, 12⟩]
  | .branch => [⟨12, 12, 31⟩, ⟨10, 5, 25⟩, ⟨4, 1, 8⟩, ⟨11, 11, 7⟩]
  | .rvcJump =>
    [⟨11, 11, 12⟩, ⟨4, 4, 11⟩, ⟨9, 8, 9⟩, ⟨10, 10, 8⟩, ⟨6, 6, 7⟩, ⟨7, 7, 6⟩, ⟨3, 1, 3⟩, ⟨5, 5, 2⟩]
  | .rvcBranch => [⟨8, 8, 12⟩, ⟨4, 3, 10⟩, ⟨7, 6, 5⟩, ⟨2, 1, 3⟩, ⟨5, 5, 2⟩]
  | .call | .callPlt => []

/-- The format of the instruction that a kind is for, but for a call. -/
def FixupKind.format : FixupKind → Immediate
  | .lo12I | .pcrelLo12I => iType
  | .lo12S | .pcrelLo12S => sType
  | .hi20 | .pcrelHi20 => uType
  | .jal => jType
  | .branch => bType
  | .rvcJump => cjType
  | .rvcBranch => cbType
  | .call | .callPlt => uType

/-- The bits of the word that the format leaves to other fields. -/
def FixupKind.mask : FixupKind → Nat
  | .lo12I | .pcrelLo12I => 0xfffff
  | .lo12S | .pcrelLo12S => 0x1fff07f
  | .hi20 | .pcrelHi20 => 0xfff
  | .jal => 0xfff
  | .branch => 0x1fff07f
  | .rvcJump => 0xe003
  | .rvcBranch => 0xe383
  | .call | .callPlt => 0xfff

/-- A kind for one instruction. -/
def FixupKind.IsCall (kind : FixupKind) : Prop := kind = .call ∨ kind = .callPlt

instance (kind : FixupKind) : Decidable kind.IsCall := inferInstanceAs (Decidable (_ ∨ _))

variable {kind : FixupKind}

theorem FixupKind.writes (h : ¬ kind.IsCall) : kind.format.Writes kind.pieces kind.mask := by
  cases kind
  case call => exact absurd (Or.inl rfl) h
  case callPlt => exact absurd (Or.inr rfl) h
  all_goals decide

/-- The adjusted value of a kind, shifted into position. -/
theorem adjustFixupValue_shift (h : ¬ kind.IsCall) (value : Nat) :
    adjustFixupValue kind value <<< (getFixupKindInfo kind).targetOffset =
      scatter kind.pieces (kind.input value) := by
  cases kind
  case call => exact absurd (Or.inl rfl) h
  case callPlt => exact absurd (Or.inr rfl) h
  all_goals exact (scatter_map_up _ _ _).symm

theorem scatter_input_zero (kind : FixupKind) : scatter kind.pieces (kind.input 0) = 0 := by
  cases kind <;> decide

theorem applyFixup_zero (kind : FixupKind) (data : Nat) : applyFixup kind 0 data = data := by
  unfold applyFixup
  exact if_pos rfl

/-- **Every kind** for one instruction writes the pieces of its value. -/
theorem applyFixup_eq (h : ¬ kind.IsCall) (value data : Nat) :
    applyFixup kind value data = data ||| scatter kind.pieces (kind.input value) := by
  by_cases hzero : value = 0
  · rw [hzero, applyFixup_zero, scatter_input_zero, Nat.or_zero]
  · unfold applyFixup
    rw [if_neg hzero]
    have hlt := scatter_lt (kind.writes h).below (kind.input value)
    have hsize : kind.format.size ≤ 64 ∧ kind.format.size ≤ 8 *
        (((getFixupKindInfo kind).targetSize + (getFixupKindInfo kind).targetOffset + 7) / 8) := by
      cases kind <;> decide
    simp only
    rw [adjustFixupValue_shift h,
      Nat.mod_eq_of_lt (hlt.trans_le (Nat.pow_le_pow_right (by decide) hsize.1)),
      Nat.mod_eq_of_lt (hlt.trans_le (Nat.pow_le_pow_right (by decide) hsize.2))]

/-- Two words, one behind the other. -/
def pair (low high : Nat) : Nat := 2 ^ 32 * high + low

theorem pair_or {a c : Nat} (ha : a < 2 ^ 32) (hc : c < 2 ^ 32) (b d : Nat) :
    pair a b ||| pair c d = pair (a ||| c) (b ||| d) := by
  refine Nat.eq_of_testBit_eq fun i => ?_
  rw [pair, pair, pair, Nat.testBit_or, Nat.testBit_two_pow_mul_add _ ha,
    Nat.testBit_two_pow_mul_add _ hc, Nat.testBit_two_pow_mul_add _ (Nat.or_lt_two_pow ha hc)]
  split
  · rw [Nat.testBit_or]
  · rw [Nat.testBit_or]

theorem pair_lt {low high : Nat} (hlow : low < 2 ^ 32) (hhigh : high < 2 ^ 32) :
    pair low high < 2 ^ 64 := by
  unfold pair
  omega

/-- The adjusted value of a call: an upper immediate and a 12-bit one in the next word. -/
theorem adjustFixupValue_call (h : kind.IsCall) (value : Nat) :
    adjustFixupValue kind value =
      pair (scatter [⟨31, 12, 12⟩] (round value)) (scatter [⟨11, 0, 20⟩] value) := by
  have hupper : scatter [⟨31, 12, 12⟩] (round value) =
      pair (scatter [⟨31, 12, 12⟩] (round value)) 0 := by
    rw [pair, Nat.mul_zero, Nat.zero_add]
  have hlower : scatter [⟨11, 0, 52⟩] value = pair 0 (scatter [⟨11, 0, 20⟩] value) := by
    rw [pair, Nat.add_zero, Nat.mul_comm, ← Nat.shiftLeft_eq]
    exact scatter_map_up [⟨11, 0, 20⟩] 32 value
  have hcall : adjustFixupValue kind value =
      scatter [⟨31, 12, 12⟩] (round value) ||| scatter [⟨11, 0, 52⟩] value := by
    rcases h with rfl | rfl <;> rfl
  rw [hcall, hlower, hupper, pair_or (scatter_lt (by decide) _) (Nat.two_pow_pos 32), Nat.or_zero,
    Nat.zero_or]
  congr 1

/-- **A call** writes an upper and a 12-bit immediate into its two words. -/
theorem applyFixup_call (h : kind.IsCall) (value : Nat) {auipc : Nat} (hauipc : auipc < 2 ^ 32)
    (jalr : Nat) :
    applyFixup kind value (pair auipc jalr) =
      pair (applyFixup .pcrelHi20 value auipc) (applyFixup .pcrelLo12I value jalr) := by
  rw [applyFixup_eq (show ¬ FixupKind.IsCall .pcrelHi20 by decide),
    applyFixup_eq (show ¬ FixupKind.IsCall .pcrelLo12I by decide)]
  by_cases hzero : value = 0
  · rw [hzero, scatter_input_zero, scatter_input_zero, Nat.or_zero, Nat.or_zero]
    exact applyFixup_zero kind _
  · have hinfo : getFixupKindInfo kind = ⟨0, 64⟩ := by
      rcases h with rfl | rfl <;> rfl
    have hlow : scatter [⟨31, 12, 12⟩] (round value) < 2 ^ 32 := scatter_lt (by decide) _
    have hlt := pair_lt hlow (scatter_lt (by decide : Below [⟨11, 0, 20⟩] 32) value)
    unfold applyFixup
    rw [if_neg hzero, hinfo]
    simp only
    rw [adjustFixupValue_call h, Nat.shiftLeft_zero, Nat.mod_eq_of_lt hlt, Nat.mod_eq_of_lt hlt,
      pair_or hauipc hlow]
    rfl

end RvLlvm.Mc
