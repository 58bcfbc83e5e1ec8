import RvLlvm.Mc.AsmBackend

/-!
# The immediates that the linker writes

Model of the cases of `RISCV::relocate` that write an immediate (`lld/ELF/Arch/RISCV.cpp:93-103`,
`:317-455`), compared with the instruction set and with the fixups of the assembler. A `Piece`
stands for `extractBits(val, hi, lo) << pos`.

* `Passes`: no range or alignment error is reported.
* `encoders_agree`: what passes is decoded from the word again, with all other bits as they were,
  and is what the assembler writes; `c.lui` of zero becomes `c.li`.
* `not_encodes_lui`: so its opcode does not stay.
-/

namespace RvLlvm.Lld.RISCV

open RvLlvm.Support RvLlvm.Support.Rv RvLlvm.Mc

/-- The relocations of one instruction. -/
inductive ImmType
  | branch
  | jal
  | rvcBranch
  | rvcJump
  | rvcLui
  | hi20
  | pcrelHi20
  | lo12I
  | pcrelLo12I
  | lo12S
  | pcrelLo12S
  deriving DecidableEq

/-- `lo`: what is left of the value below its rounded upper part. -/
def lo (val : Nat) : Nat := (((val : Int) - (round val / 2 ^ 12 * 2 ^ 12 : Nat)) % 2 ^ 64).toNat

/-- `RISCV::relocate` on the word of an instruction. -/
def relocate (bits : Nat) (type : ImmType) (insn val : Nat) : Nat :=
  match type with
  | .rvcBranch =>
    (insn &&& 0xe383) ||| scatter [⟨8, 8, 12⟩, ⟨4, 3, 10⟩, ⟨7, 6, 5⟩, ⟨2, 1, 3⟩, ⟨5, 5, 2⟩] val
  | .rvcJump =>
    (insn &&& 0xe003) ||| scatter [⟨11, 11, 12⟩, ⟨4, 4, 11⟩, ⟨9, 8, 9⟩, ⟨10, 10, 8⟩, ⟨6, 6, 7⟩,
      ⟨7, 7, 6⟩, ⟨3, 1, 3⟩, ⟨5, 5, 2⟩] val
  | .rvcLui =>
    let imm := signExtend bits (round val) / 2 ^ 12
    -- `c.lui rd, 0` is illegal: converted to `c.li rd, 0`
    if imm = 0 then (insn &&& 0x0f83) ||| 0x4000
    else (insn &&& 0xef83) ||| scatter [⟨17, 17, 12⟩, ⟨16, 12, 2⟩] (round val)
  | .jal =>
    (insn &&& 0xfff) ||| scatter [⟨20, 20, 31⟩, ⟨10, 1, 21⟩, ⟨11, 11, 20⟩, ⟨19, 12, 12⟩] val
  | .branch =>
    (insn &&& 0x1fff07f) ||| scatter [⟨12, 12, 31⟩, ⟨10, 5, 25⟩, ⟨4, 1, 8⟩, ⟨11, 11, 7⟩] val
  | .hi20 | .pcrelHi20 => (insn &&& 0xfff) ||| scatter [⟨31, 12, 12⟩] (round val)
  | .lo12I | .pcrelLo12I => (insn &&& 0xfffff) ||| scatter [⟨11, 0, 20⟩] (lo val)
  | .lo12S | .pcrelLo12S => (insn &&& 0x1fff07f) ||| scatter [⟨11, 5, 25⟩, ⟨4, 0, 7⟩] (lo val)

/-- `checkInt`: no error is reported. -/
def checkInt (v : Int) (n : Nat) : Prop := v = v.bmod (2 ^ n)

/-- The checks of `relocate`. -/
def Passes (bits : Nat) (type : ImmType) (val : Nat) : Prop :=
  match type with
  | .rvcBranch => checkInt (signExtend 64 val) 9 ∧ val % 2 = 0
  | .rvcJump => checkInt (signExtend 64 val) 12 ∧ val % 2 = 0
  | .rvcLui => checkInt (signExtend bits (round val) / 2 ^ 12) 6
  | .jal => checkInt (signExtend 64 val) 21 ∧ val % 2 = 0
  | .branch => checkInt (signExtend 64 val) 13 ∧ val % 2 = 0
  | .hi20 | .pcrelHi20 => checkInt (signExtend bits (round val) / 2 ^ 12) 20
  | .lo12I | .pcrelLo12I | .lo12S | .pcrelLo12S => True

/-- The check of a call, which is also the condition for writing it. -/
def CallPasses (bits val : Nat) : Prop := checkInt (signExtend bits (round val) / 2 ^ 12) 20

instance (bits val : Nat) : Decidable (CallPasses bits val) := inferInstanceAs (Decidable (_ = _))

/-- `R_RISCV_CALL` on the words of `auipc` and `jalr`. -/
def relocateCall (bits auipc jalr val : Nat) : Nat × Nat :=
  if CallPasses bits val then
    (relocate bits .pcrelHi20 auipc val, relocate bits .pcrelLo12I jalr val)
  else (auipc, jalr)

/-! ## The formats -/

namespace ImmType

/-- The format of the instruction. -/
def format : ImmType → Immediate
  | branch => bType
  | jal => jType
  | rvcBranch => cbType
  | rvcJump => cjType
  | rvcLui => cLuiType
  | hi20 | pcrelHi20 => uType
  | lo12I | pcrelLo12I => iType
  | lo12S | pcrelLo12S => sType

/-- The kind of the assembler's fixup; there is none for `c.lui`. -/
def fixup : ImmType → Option FixupKind
  | branch => some .branch
  | jal => some .jal
  | rvcBranch => some .rvcBranch
  | rvcJump => some .rvcJump
  | rvcLui => none
  | hi20 => some .hi20
  | pcrelHi20 => some .pcrelHi20
  | lo12I => some .lo12I
  | pcrelLo12I => some .pcrelLo12I
  | lo12S => some .lo12S
  | pcrelLo12S => some .pcrelLo12S

/-- What the immediate of the instruction stands for: the whole value, or its upper or lower
part. -/
def value (type : ImmType) (bits val : Nat) : Int :=
  match type with
  | branch | jal | rvcBranch | rvcJump => signExtend 64 val
  | rvcLui | hi20 | pcrelHi20 => upper bits val
  | lo12I | pcrelLo12I | lo12S | pcrelLo12S => lower val

end ImmType

/-- The word that is written holds the value, and nothing else in it has changed. -/
structure Encodes (bits : Nat) (type : ImmType) (insn val : Nat) : Prop where
  value : type.format.decode (relocate bits type insn val) = type.value bits val
  keeps : ∀ i < type.format.size, ¬ type.format.Reads i →
    (relocate bits type insn val).testBit i = insn.testBit i
  lt : relocate bits type insn val < 2 ^ type.format.size

/-! ## Values in range -/

theorem signExtend_of_check {val n : Nat} (hcheck : checkInt (signExtend 64 val) n) (hn : n ≤ 64) :
    signExtend n val = signExtend 64 val := by
  rw [hcheck]
  unfold signExtend
  rw [Int.bmod_bmod_of_dvd (Nat.pow_dvd_pow 2 hn)]

theorem lo_mod (val : Nat) : lo val % 2 ^ 12 = val % 2 ^ 12 := by
  unfold lo
  omega

/-! ## One instruction -/

section

variable {bits val : Nat} {type : ImmType} {kind : FixupKind}

theorem ImmType.fixup_eq_some (h : type.fixup = some kind) :
    type.format = kind.format ∧ ¬ kind.IsCall ∧ type ≠ .rvcLui := by
  cases type <;> cases h <;> decide

/-- The linker writes the pieces of the assembler. -/
theorem relocate_eq (h : type.fixup = some kind) (insn : Nat) :
    relocate bits type insn val = (insn &&& kind.mask) ||| scatter kind.pieces (kind.input val) := by
  have hlo : ∀ ps : List Piece, (∀ p ∈ ps, p.hi < 12) → scatter ps (lo val) = scatter ps val :=
    fun ps hhi => scatter_congr hhi (lo_mod val)
  cases type <;> cases h
  case branch => rfl
  case jal => rfl
  case rvcBranch => rfl
  case rvcJump => rfl
  case hi20 => rfl
  case pcrelHi20 => rfl
  case lo12I => exact congrArg ((insn &&& 0xfffff) ||| ·) (hlo _ (by decide))
  case pcrelLo12I => exact congrArg ((insn &&& 0xfffff) ||| ·) (hlo _ (by decide))
  case lo12S => exact congrArg ((insn &&& 0x1fff07f) ||| ·) (hlo _ (by decide))
  case pcrelLo12S => exact congrArg ((insn &&& 0x1fff07f) ||| ·) (hlo _ (by decide))

/-- What a kind's format holds of its value, once that has passed the checks. -/
theorem signExtend_input (hbits : bits = 32 ∨ bits = 64) (h : type.fixup = some kind)
    (hpass : Passes bits type val) :
    signExtend kind.format.bits
      (kind.input val % 2 ^ kind.format.bits - kind.input val % 2 ^ kind.format.lo) =
      type.value bits val := by
  have heven : ∀ n ≤ 64, checkInt (signExtend 64 val) n ∧ val % 2 = 0 →
      signExtend n (val % 2 ^ n - val % 2 ^ 1) = signExtend 64 val := fun n hn hcheck => by
    rw [Immediate.signExtend_of_even hcheck.2, signExtend_of_check hcheck.1 hn]
  have hlower : signExtend 12 (val % 2 ^ 12 - val % 2 ^ 0) = lower val := by
    rw [pow_zero, Nat.mod_one, Nat.sub_zero, lower, signExtend, signExtend, Int.natCast_emod,
      Int.emod_bmod]
  cases type <;> cases h
  case branch => exact heven 13 (by decide) hpass
  case jal => exact heven 21 (by decide) hpass
  case rvcBranch => exact heven 9 (by decide) hpass
  case rvcJump => exact heven 12 (by decide) hpass
  case hi20 => exact signExtend_round hbits (Or.inr ⟨rfl, rfl⟩) hpass
  case pcrelHi20 => exact signExtend_round hbits (Or.inr ⟨rfl, rfl⟩) hpass
  all_goals exact hlower

/-- **A word** that the linker writes holds its value. -/
theorem encodes_of_fixup (hbits : bits = 32 ∨ bits = 64) (h : type.fixup = some kind)
    (hpass : Passes bits type val) (insn : Nat) : Encodes bits type insn val := by
  obtain ⟨hformat, hcall, -⟩ := ImmType.fixup_eq_some h
  have hwrites := kind.writes hcall
  refine ⟨?_, fun i hi hread => ?_, ?_⟩
  · rw [relocate_eq h, hformat, Immediate.decode_written hwrites, signExtend_input hbits h hpass]
  · rw [hformat] at hi hread
    rw [relocate_eq h, Immediate.testBit_written hwrites _ _ hi hread]
  · rw [relocate_eq h, hformat]
    exact Immediate.written_lt hwrites _ _

theorem cLui_writes : cLuiType.Writes [⟨17, 17, 12⟩, ⟨16, 12, 2⟩] 0xef83 := by decide

/-- A `c.lui` with a part of the value above the low one. -/
theorem encodes_rvcLui (hbits : bits = 32 ∨ bits = 64) (hpass : Passes bits .rvcLui val)
    (hne : upper bits val ≠ 0) (insn : Nat) : Encodes bits .rvcLui insn val := by
  have hrelocate : relocate bits .rvcLui insn val =
      (insn &&& 0xef83) ||| scatter [⟨17, 17, 12⟩, ⟨16, 12, 2⟩] (round val) := by
    refine if_neg fun hzero => hne ?_
    rw [upper, show (0x1000 : Int) = 2 ^ 12 from rfl, hzero, Int.zero_mul]
  refine ⟨?_, fun i hi hread => ?_, ?_⟩
  · rw [hrelocate]
    exact (Immediate.decode_written cLui_writes _ _).trans (signExtend_round hbits (Or.inl ⟨rfl, rfl⟩) hpass)
  · rw [hrelocate]
    exact Immediate.testBit_written cLui_writes _ _ hi hread
  · rw [hrelocate]
    exact Immediate.written_lt cLui_writes _ _

/-- **What passes the checks** is held by the word that is written, but for a `c.lui` of zero. -/
theorem encodes_of_passes (hbits : bits = 32 ∨ bits = 64) (hpass : Passes bits type val)
    (hlui : ¬ (type = .rvcLui ∧ upper bits val = 0)) (insn : Nat) : Encodes bits type insn val := by
  cases hfixup : type.fixup with
  | some kind => exact encodes_of_fixup hbits hfixup hpass insn
  | none =>
    obtain rfl : type = .rvcLui := by
      cases type <;> first | rfl | cases hfixup
    exact encodes_rvcLui hbits hpass (fun hzero => hlui ⟨rfl, hzero⟩) insn

/-- `c.li rd, 0` for the `c.lui` of a word: funct3 2, immediate 0, the register and the quadrant of
the word. -/
structure IsLi (insn word : Nat) : Prop where
  value : ciType.decode word = 0
  funct3 : field 13 3 word = 2
  keeps : ∀ i < 13, ¬ ciType.Reads i → word.testBit i = insn.testBit i
  lt : word < 2 ^ 16

theorem isLi_rvcLui (hzero : upper bits val = 0) (insn : Nat) :
    IsLi insn (relocate bits .rvcLui insn val) := by
  have himm : signExtend bits (round val) / 2 ^ 12 = 0 := by
    unfold upper at hzero
    omega
  have hrelocate : relocate bits .rvcLui insn val = (insn &&& 0x0f83) ||| 0x4000 := if_pos himm
  have hbit : ∀ i, (relocate bits .rvcLui insn val).testBit i =
      (insn.testBit i && Nat.testBit 0x0f83 i || Nat.testBit 0x4000 i) := fun i => by
    rw [hrelocate, Nat.testBit_or, Nat.testBit_and]
  have hword : relocate bits .rvcLui insn val = 2 ^ 14 * 1 + (insn &&& 0x0f83) := by
    rw [hrelocate, Nat.or_comm, Nat.two_pow_add_eq_or_of_lt (Nat.and_lt_two_pow _ (by decide))]
  have hle : insn &&& 0x0f83 ≤ 0x0f83 := Nat.and_le_right
  have hmask : ∀ i < 16, ciType.Reads i → Nat.testBit 0x0f83 i = false ∧ Nat.testBit 0x4000 i = false := by
    decide
  have hkeep : ∀ i < 13, ¬ ciType.Reads i → Nat.testBit 0x0f83 i = true ∧ Nat.testBit 0x4000 i = false := by
    decide
  refine ⟨Immediate.Blank.decode_eq (by decide) fun i hi hread => ?_, ?_, fun i hi hread => ?_, ?_⟩
  · rw [hbit, (hmask i hi hread).1, (hmask i hi hread).2, Bool.and_false, Bool.or_false]
  · rw [hword, field]
    omega
  · rw [hbit, (hkeep i hi hread).1, (hkeep i hi hread).2, Bool.and_true, Bool.or_false]
  · rw [hword]
    omega

/-! ## Pairs, calls and the assembler -/

/-- The two parts that a pair of instructions holds make up the value in the registers. -/
theorem pair_value {lowType : ImmType} (hbits : bits = 32 ∨ bits = 64) (hval : val < 2 ^ 64)
    (htype : type = .rvcLui ∨ type = .hi20 ∨ type = .pcrelHi20)
    (hlow : lowType = .lo12I ∨ lowType = .pcrelLo12I ∨ lowType = .lo12S ∨ lowType = .pcrelLo12S) :
    (type.value bits val + lowType.value bits val).bmod (2 ^ bits) = signExtend bits val := by
  have hupper : type.value bits val = upper bits val := by
    rcases htype with rfl | rfl | rfl <;> rfl
  have hlower : lowType.value bits val = lower val := by
    rcases hlow with rfl | rfl | rfl | rfl <;> rfl
  rw [hupper, hlower]
  exact upper_add_lower hbits hval

/-- What passes the linker's checks passes those of the assembler. -/
theorem fixupErrors_eq_nil (h : type.fixup = some kind) (hpass : Passes bits type val) :
    fixupErrors kind val = [] := by
  have herrors : ∀ n ≤ 64, checkInt (signExtend 64 val) n ∧ val % 2 = 0 →
      (if signExtend 64 val = signExtend n val then [] else ["fixup value out of range"]) ++
        (if val % 2 = 0 then [] else ["fixup value must be 2-byte aligned"]) = [] :=
    fun n hn hcheck => by
      rw [if_pos (signExtend_of_check hcheck.1 hn).symm, if_pos hcheck.2, List.append_nil]
  cases type <;> cases h
  case branch => exact herrors 13 (by decide) hpass
  case jal => exact herrors 21 (by decide) hpass
  all_goals rfl

/-- **The assembler** writes the same word. -/
theorem applyFixup_eq_relocate (h : type.fixup = some kind) {insn : Nat}
    (hlt : insn < 2 ^ type.format.size) (hblank : type.format.Blank insn) :
    applyFixup kind val insn = relocate bits type insn val := by
  obtain ⟨hformat, hcall, -⟩ := ImmType.fixup_eq_some h
  rw [hformat] at hlt hblank
  rw [applyFixup_eq hcall, relocate_eq h, Immediate.Blank.and_mask (kind.writes hcall) hlt hblank]

end

/-- What the linker writes for a value: words that hold it, in pairs that make it up, and those of
the assembler. A `c.lui` of zero becomes a `c.li`, and the assembler has no fixup for `c.lui`. -/
structure Agrees (bits val : Nat) : Prop where
  encodes : ∀ type insn, Passes bits type val → ¬ (type = .rvcLui ∧ upper bits val = 0) →
    Encodes bits type insn val
  li : ∀ insn, upper bits val = 0 → IsLi insn (relocate bits .rvcLui insn val)
  pairs : ∀ highType lowType : ImmType,
    highType = .rvcLui ∨ highType = .hi20 ∨ highType = .pcrelHi20 →
    lowType = .lo12I ∨ lowType = .pcrelLo12I ∨ lowType = .lo12S ∨ lowType = .pcrelLo12S →
    ∀ high low, Passes bits highType val → ¬ (highType = .rvcLui ∧ upper bits val = 0) →
      (highType.format.decode (relocate bits highType high val) +
        lowType.format.decode (relocate bits lowType low val)).bmod (2 ^ bits) = signExtend bits val
  call : ∀ auipc jalr, CallPasses bits val →
    relocateCall bits auipc jalr val =
        (relocate bits .pcrelHi20 auipc val, relocate bits .pcrelLo12I jalr val) ∧
      (uType.decode (relocateCall bits auipc jalr val).1 +
        iType.decode (relocateCall bits auipc jalr val).2).bmod (2 ^ bits) = signExtend bits val
  assembler : ∀ type kind, type.fixup = some kind → Passes bits type val →
    fixupErrors kind val = [] ∧ ∀ insn < 2 ^ type.format.size, type.format.Blank insn →
      applyFixup kind val insn = relocate bits type insn val
  callAssembler : ∀ kind : FixupKind, kind.IsCall → CallPasses bits val → ∀ auipc jalr,
    auipc < 2 ^ 32 → jalr < 2 ^ 32 → uType.Blank auipc → iType.Blank jalr →
      applyFixup kind val (pair auipc jalr) =
        pair (relocateCall bits auipc jalr val).1 (relocateCall bits auipc jalr val).2

/-- **The encoders agree** with each other and with the instruction set. -/
theorem encoders_agree {bits val : Nat} (hbits : bits = 32 ∨ bits = 64) (hval : val < 2 ^ 64) :
    Agrees bits val where
  encodes _ insn hpass hlui := encodes_of_passes hbits hpass hlui insn
  li insn hzero := isLi_rvcLui hzero insn
  pairs highType lowType hhigh hlow high low hpass hlui := by
    have hlowPass : Passes bits lowType val := by
      rcases hlow with rfl | rfl | rfl | rfl <;> trivial
    have hnot : ¬ (lowType = .rvcLui ∧ upper bits val = 0) := by
      rcases hlow with rfl | rfl | rfl | rfl <;> exact fun h => ImmType.noConfusion h.1
    rw [(encodes_of_passes hbits hpass hlui high).value,
      (encodes_of_passes hbits hlowPass hnot low).value]
    exact pair_value hbits hval hhigh hlow
  call auipc jalr hpass := by
    have hcall : relocateCall bits auipc jalr val =
        (relocate bits .pcrelHi20 auipc val, relocate bits .pcrelLo12I jalr val) := if_pos hpass
    have hhigh := (encodes_of_fixup hbits (rfl : ImmType.pcrelHi20.fixup = _) hpass auipc).value
    have hlow := (encodes_of_fixup hbits (rfl : ImmType.pcrelLo12I.fixup = _)
      (show Passes bits .pcrelLo12I val from trivial) jalr).value
    refine ⟨hcall, ?_⟩
    rw [hcall]
    exact (congrArg (Int.bmod · (2 ^ bits)) (congrArg₂ (· + ·) hhigh hlow)).trans
      (upper_add_lower hbits hval)
  assembler type kind hfixup hpass :=
    ⟨fixupErrors_eq_nil hfixup hpass, fun _ hlt hblank => applyFixup_eq_relocate hfixup hlt hblank⟩
  callAssembler kind hkind hpass auipc jalr hauipc hjalr hblank hblank' := by
    have hcall : relocateCall bits auipc jalr val =
        (relocate bits .pcrelHi20 auipc val, relocate bits .pcrelLo12I jalr val) := if_pos hpass
    have hhigh : applyFixup .pcrelHi20 val auipc = relocate bits .pcrelHi20 auipc val :=
      applyFixup_eq_relocate rfl hauipc hblank
    have hlow : applyFixup .pcrelLo12I val jalr = relocate bits .pcrelLo12I jalr val :=
      applyFixup_eq_relocate rfl hjalr hblank'
    rw [applyFixup_call hkind val hauipc jalr, hcall, hhigh, hlow]

/-- Branches of 64-bit code by 8 bytes back. -/
theorem encoders_agree_back : Agrees 64 (2 ^ 64 - 8) := encoders_agree (Or.inr rfl) (by decide)

/-- **A `c.lui` of zero** passes its check, and does not stay one. -/
theorem not_encodes_lui :
    ¬ ∀ (bits : Nat) (type : ImmType) (insn val : Nat), bits = 32 ∨ bits = 64 →
      insn < 2 ^ type.format.size → val < 2 ^ 64 → Passes bits type val →
      Encodes bits type insn val := by
  intro h
  have hpass : Passes 64 .rvcLui 0 := by
    unfold Passes checkInt
    decide
  have hkeeps := (h 64 .rvcLui 0x6501 0 (Or.inr rfl) (by decide) (by decide) hpass).keeps
  exact absurd (hkeeps 13 (by decide) (by decide)) (by decide)

end RvLlvm.Lld.RISCV
