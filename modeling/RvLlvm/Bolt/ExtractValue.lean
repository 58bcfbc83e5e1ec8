import RvLlvm.Mc.AsmBackend

/-!
# The immediates that BOLT reads

Model of `extractValueRISCV` and its helpers (`bolt/lib/Core/Relocation.cpp:501-569`) on the words
that the assembler's fixups have written. A `Piece` stands for `((Contents >> lo) & mask) << pos`.
The words have two, four or eight bytes, as `getSizeForTypeRISCV` says.

* `decode_value_written`: what an instruction has for a value is what the instruction set reads from it.
* `extractValueRISCV_iff`: what is read is the immediate that the instruction has for the value; for
  the two compressed types, only for the values that survive the order of their bits.
* `not_extracts_rvcJump`: a compressed jump by 16 bytes.
-/

namespace RvLlvm.Bolt.Relocation

open RvLlvm.Support RvLlvm.Support.Rv RvLlvm.Mc

/-- `extractUImmRISCV`. -/
def extractUImmRISCV (contents : Nat) : Int := signExtend 32 (scatter [⟨31, 12, 12⟩] contents)

/-- `extractIImmRISCV`. -/
def extractIImmRISCV (contents : Nat) : Int := signExtend 12 (scatter [⟨31, 20, 0⟩] contents)

/-- `extractSImmRISCV`. -/
def extractSImmRISCV (contents : Nat) : Int :=
  signExtend 12 (scatter [⟨11, 7, 0⟩, ⟨31, 25, 5⟩] contents)

/-- `extractJImmRISCV`. -/
def extractJImmRISCV (contents : Nat) : Int :=
  signExtend 21 (scatter [⟨30, 21, 1⟩, ⟨20, 20, 11⟩, ⟨19, 12, 12⟩, ⟨31, 31, 20⟩] contents)

/-- `extractBImmRISCV`. -/
def extractBImmRISCV (contents : Nat) : Int :=
  signExtend 13 (scatter [⟨11, 8, 1⟩, ⟨30, 25, 5⟩, ⟨7, 7, 11⟩, ⟨31, 31, 12⟩] contents)

/-- The relocation types of instructions. -/
inductive InsnType
  | jal
  | branch
  | gotHi20
  | pcrelHi20
  | pcrelLo12I
  | pcrelLo12S
  | rvcJump
  | rvcBranch
  | hi20
  | lo12I
  | lo12S
  deriving DecidableEq

/-- `extractValueRISCV`, the unsigned result as a signed one. -/
def extractValueRISCV (type : InsnType) (contents : Nat) : Int :=
  match type with
  | .jal => extractJImmRISCV contents
  | .branch => extractBImmRISCV contents
  -- the address of the entry is in the `auipc` and the load behind it
  | .gotHi20 =>
    (extractUImmRISCV (contents % 2 ^ 32) + extractIImmRISCV (contents / 2 ^ 32)).bmod (2 ^ 64)
  | .pcrelHi20 => extractUImmRISCV contents
  | .pcrelLo12I => extractIImmRISCV contents
  | .rvcJump => signExtend 11 (contents >>> 2)
  | .rvcBranch => signExtend 8 (scatter [⟨6, 2, 0⟩, ⟨12, 10, 5⟩] contents)
  | .hi20 => extractUImmRISCV contents
  | .lo12I => extractIImmRISCV contents
  | .lo12S | .pcrelLo12S => extractSImmRISCV contents

/-! ## What the assembler has written -/

/-- The kind of the assembler's fixup. That of `gotHi20` is always left to the linker: its pair is
that of a pc-relative address. -/
def InsnType.kind : InsnType → FixupKind
  | jal => .jal
  | branch => .branch
  | gotHi20 | pcrelHi20 => .pcrelHi20
  | pcrelLo12I => .pcrelLo12I
  | pcrelLo12S => .pcrelLo12S
  | rvcJump => .rvcJump
  | rvcBranch => .rvcBranch
  | hi20 => .hi20
  | lo12I => .lo12I
  | lo12S => .lo12S

/-- An instruction of the type without an immediate, or a pair of them. -/
def Blank (type : InsnType) (contents : Nat) : Prop :=
  match type with
  | .gotHi20 => contents < 2 ^ 64 ∧ uType.Blank (contents % 2 ^ 32) ∧ iType.Blank (contents / 2 ^ 32)
  | _ => contents < 2 ^ type.kind.format.size ∧ type.kind.format.Blank contents

/-- The instruction, or the pair, once the fixups of the value are applied. -/
def written (type : InsnType) (contents v : Nat) : Nat :=
  match type with
  | .gotHi20 =>
    pair (applyFixup .pcrelHi20 v (contents % 2 ^ 32)) (applyFixup .pcrelLo12I v (contents / 2 ^ 32))
  | _ => applyFixup type.kind v contents

/-- The value is in the range of the type. -/
def InRange (type : InsnType) (v : Nat) : Prop :=
  match type with
  | .jal => signExtend 21 v = signExtend 64 v ∧ v % 2 = 0
  | .branch => signExtend 13 v = signExtend 64 v ∧ v % 2 = 0
  | .rvcJump => signExtend 12 v = signExtend 64 v ∧ v % 2 = 0
  | .rvcBranch => signExtend 9 v = signExtend 64 v ∧ v % 2 = 0
  | _ => True

/-- The upper immediate for a value. -/
def upperImmediate (v : Nat) : Int := signExtend 32 (round v % 2 ^ 32 - round v % 2 ^ 12)

/-- The sign-extended immediate that the instruction has for the value. -/
def immediate (type : InsnType) (v : Nat) : Int :=
  match type with
  | .jal | .branch | .rvcJump | .rvcBranch => signExtend 64 v
  | .gotHi20 => (upperImmediate v + lower v).bmod (2 ^ 64)
  | .pcrelHi20 | .hi20 => upperImmediate v
  | .pcrelLo12I | .lo12I | .pcrelLo12S | .lo12S => lower v

/-- The values that come back: all but for the compressed types. -/
def Survives (type : InsnType) (v : Nat) : Prop :=
  match type with
  | .rvcJump => v < 0x10 ∨ 0x390 ≤ v ∧ v < 0x3a0
  | .rvcBranch => v < 8
  | _ => True

/-! ## Reading what was written -/

/-- What pieces read from a word with a fixup applied. -/
theorem scatter_applyFixup (kind : FixupKind) (rs : List Piece) (n : Nat) {qs : List Piece}
    (hcall : ¬ kind.IsCall) (h : Gathers kind.pieces qs rs kind.mask n) {insn : Nat}
    (hlt : insn < 2 ^ kind.format.size) (hblank : kind.format.Blank insn) (v : Nat) :
    scatter qs (applyFixup kind v insn) = scatter rs (kind.input v) := by
  rw [applyFixup_eq hcall, ← Immediate.Blank.and_mask (kind.writes hcall) hlt hblank,
    scatter_written h]

section

variable {insn v : Nat}

theorem extractUImmRISCV_written {kind : FixupKind} (hkind : kind = .hi20 ∨ kind = .pcrelHi20)
    (hlt : insn < 2 ^ 32) (hblank : uType.Blank insn) :
    extractUImmRISCV (applyFixup kind v insn) = upperImmediate v := by
  have hread : scatter [⟨31, 12, 12⟩] (applyFixup kind v insn) = scatter (span 12 32) (round v) := by
    rcases hkind with rfl | rfl
    · exact scatter_applyFixup .hi20 (span 12 32) 32 (by decide) (by decide) hlt hblank v
    · exact scatter_applyFixup .pcrelHi20 (span 12 32) 32 (by decide) (by decide) hlt hblank v
  rw [extractUImmRISCV, hread, scatter_span (by decide), upperImmediate]

theorem signExtend_low_bits (n v : Nat) : signExtend n (v % 2 ^ n - v % 2 ^ 0) = signExtend n v := by
  rw [pow_zero, Nat.mod_one, Nat.sub_zero, signExtend, signExtend, Int.natCast_emod, Int.emod_bmod]

theorem extractIImmRISCV_written {kind : FixupKind} (hkind : kind = .lo12I ∨ kind = .pcrelLo12I)
    (hlt : insn < 2 ^ 32) (hblank : iType.Blank insn) :
    extractIImmRISCV (applyFixup kind v insn) = lower v := by
  have hread : scatter [⟨31, 20, 0⟩] (applyFixup kind v insn) = scatter (span 0 12) v := by
    rcases hkind with rfl | rfl
    · exact scatter_applyFixup .lo12I (span 0 12) 12 (by decide) (by decide) hlt hblank v
    · exact scatter_applyFixup .pcrelLo12I (span 0 12) 12 (by decide) (by decide) hlt hblank v
  rw [extractIImmRISCV, hread, scatter_span (by decide), signExtend_low_bits, lower]

theorem extractSImmRISCV_written {kind : FixupKind} (hkind : kind = .lo12S ∨ kind = .pcrelLo12S)
    (hlt : insn < 2 ^ 32) (hblank : sType.Blank insn) :
    extractSImmRISCV (applyFixup kind v insn) = lower v := by
  have hread : scatter [⟨11, 7, 0⟩, ⟨31, 25, 5⟩] (applyFixup kind v insn) = scatter (span 0 12) v := by
    rcases hkind with rfl | rfl
    · exact scatter_applyFixup .lo12S (span 0 12) 12 (by decide) (by decide) hlt hblank v
    · exact scatter_applyFixup .pcrelLo12S (span 0 12) 12 (by decide) (by decide) hlt hblank v
  rw [extractSImmRISCV, hread, scatter_span (by decide), signExtend_low_bits, lower]

theorem extractJImmRISCV_written (hlt : insn < 2 ^ 32) (hblank : jType.Blank insn)
    (heven : v % 2 = 0) : extractJImmRISCV (applyFixup .jal v insn) = signExtend 21 v := by
  rw [extractJImmRISCV, scatter_applyFixup .jal (span 1 21) 21 (by decide)
    (by decide) hlt hblank v]
  exact (congrArg (signExtend 21) (scatter_span (by decide) v)).trans
    (Immediate.signExtend_of_even heven)

theorem extractBImmRISCV_written (hlt : insn < 2 ^ 32) (hblank : bType.Blank insn)
    (heven : v % 2 = 0) : extractBImmRISCV (applyFixup .branch v insn) = signExtend 13 v := by
  rw [extractBImmRISCV, scatter_applyFixup .branch (span 1 13) 13 (by decide)
    (by decide) hlt hblank v]
  exact (congrArg (signExtend 13) (scatter_span (by decide) v)).trans
    (Immediate.signExtend_of_even heven)

/-- The bits of the offset of a compressed jump, as they lie in its word. -/
def jumpBits : List Piece :=
  [⟨11, 11, 10⟩, ⟨4, 4, 9⟩, ⟨9, 8, 7⟩, ⟨10, 10, 6⟩, ⟨6, 6, 5⟩, ⟨7, 7, 4⟩, ⟨3, 1, 1⟩, ⟨5, 5, 0⟩]

/-- The bits of the offset of a compressed branch, as they are read. -/
def branchBits : List Piece := [⟨8, 8, 7⟩, ⟨4, 3, 5⟩, ⟨7, 6, 3⟩, ⟨2, 1, 1⟩, ⟨5, 5, 0⟩]

/-- The bits of `jumpBits`, put one by one: the same number, in operations that evaluate at once. -/
def jumpWord (u : Nat) : Nat :=
  Nat.lor (Nat.shiftLeft (Nat.mod (Nat.shiftRight u 11) 2) 10)
    (Nat.lor (Nat.shiftLeft (Nat.mod (Nat.shiftRight u 4) 2) 9)
      (Nat.lor (Nat.shiftLeft (Nat.mod (Nat.shiftRight u 8) 4) 7)
        (Nat.lor (Nat.shiftLeft (Nat.mod (Nat.shiftRight u 10) 2) 6)
          (Nat.lor (Nat.shiftLeft (Nat.mod (Nat.shiftRight u 6) 2) 5)
            (Nat.lor (Nat.shiftLeft (Nat.mod (Nat.shiftRight u 7) 2) 4)
              (Nat.lor (Nat.shiftLeft (Nat.mod (Nat.shiftRight u 1) 8) 1)
                (Nat.mod (Nat.shiftRight u 5) 2)))))))

theorem scatter_jumpBits (u : Nat) : scatter jumpBits u = jumpWord u := by
  simp only [scatter, jumpBits, List.foldr_cons, List.foldr_nil, Piece.put, Piece.width, Nat.or_zero,
    Nat.shiftLeft_zero]
  rfl

/-- What is said of an offset `u`, with both signs moved into the naturals. -/
def jumpRow (u : Nat) : Bool :=
  Nat.beq (Nat.add (Nat.mod (Nat.add (jumpWord u) 1024) 2048) 1024) (Nat.mod (Nat.add u 2048) 4096) ==
    (Nat.blt u 0x10 || (Nat.ble 0x390 u && Nat.blt u 0x3a0))

theorem jumpRows : ((List.range 2048).all fun i => jumpRow (Nat.mul 2 i)) = true := by decide +kernel

/-- The offsets whose bits are in order. -/
theorem signExtend_jumpBits {u : Nat} (hlt : u < 2 ^ 12) (heven : u % 2 = 0) :
    signExtend 11 (scatter jumpBits u) = signExtend 12 u ↔ u < 0x10 ∨ 0x390 ≤ u ∧ u < 0x3a0 := by
  have hrow := List.all_eq_true.mp jumpRows (u / 2) (List.mem_range.mpr (by omega))
  rw [show Nat.mul 2 (u / 2) = u from Nat.mul_div_cancel' (Nat.dvd_of_mod_eq_zero heven), jumpRow,
    beq_iff_eq, Bool.eq_iff_iff, Nat.beq_eq, Bool.or_eq_true, Bool.and_eq_true, Nat.blt_eq, Nat.ble_eq,
    Nat.blt_eq] at hrow
  rw [← hrow, scatter_jumpBits, signExtend, signExtend]
  change _ ↔ (jumpWord u + 1024) % 2048 + 1024 = (u + 2048) % 4096
  simp only [Int.bmod_def]
  omega

theorem signExtend_branchBits : ∀ u < 512, u % 2 = 0 →
    (signExtend 8 (scatter branchBits u) = signExtend 9 u ↔ u < 8) := by decide +kernel

/-- A compressed jump is read as the bits of its word. -/
theorem signExtend_rvcJump_written (hlt : insn < 2 ^ 16) (hblank : cjType.Blank insn) :
    signExtend 11 (applyFixup .rvcJump v insn >>> 2) = signExtend 11 (scatter jumpBits v) := by
  have hread := scatter_applyFixup .rvcJump jumpBits 11 (by decide)
    (show Gathers _ [⟨12, 2, 0⟩] jumpBits _ 11 by decide) hlt hblank v
  have hmod : scatter [⟨12, 2, 0⟩] (applyFixup .rvcJump v insn) =
      applyFixup .rvcJump v insn >>> 2 % 2 ^ 11 := by
    rw [scatter, List.foldr_cons, List.foldr_nil, Nat.or_zero]
    exact Nat.shiftLeft_zero
  rw [← show scatter jumpBits (FixupKind.input .rvcJump v) = scatter jumpBits v from rfl, ← hread, hmod,
    signExtend, signExtend, Int.natCast_emod, Int.emod_bmod]

theorem signExtend_rvcBranch_written (hlt : insn < 2 ^ 16) (hblank : cbType.Blank insn) :
    signExtend 8 (scatter [⟨6, 2, 0⟩, ⟨12, 10, 5⟩] (applyFixup .rvcBranch v insn)) =
      signExtend 8 (scatter branchBits v) := by
  rw [scatter_applyFixup .rvcBranch branchBits 8 (by decide) (by decide) hlt hblank v]
  rfl

/-- **The jumps that come back.** -/
theorem rvcJump_iff (hv : v < 2 ^ 64) (hrange : signExtend 12 v = signExtend 64 v)
    (heven : v % 2 = 0) :
    signExtend 11 (scatter jumpBits v) = signExtend 64 v ↔ Survives .rvcJump v := by
  have hbits : scatter jumpBits v = scatter jumpBits (v % 2 ^ 12) :=
    scatter_congr (n := 12) (by decide) (Nat.mod_mod _ _).symm
  have hlow : signExtend 12 v = signExtend 12 (v % 2 ^ 12) := by
    rw [signExtend, signExtend, Int.natCast_emod, Int.emod_bmod]
  have htable := signExtend_jumpBits (Nat.mod_lt v (by decide : 0 < 2 ^ 12)) (by omega)
  rw [hbits, ← hrange, hlow, htable]
  -- a value in range is its low 12 bits, or negative
  have hcases : v % 2 ^ 12 = v ∨ 2 ^ 11 ≤ v % 2 ^ 12 ∧ 2 ^ 12 ≤ v := by
    unfold signExtend at hrange
    simp only [Int.bmod_def] at hrange
    omega
  unfold Survives
  simp only
  omega

theorem rvcBranch_iff (hv : v < 2 ^ 64) (hrange : signExtend 9 v = signExtend 64 v)
    (heven : v % 2 = 0) :
    signExtend 8 (scatter branchBits v) = signExtend 64 v ↔ Survives .rvcBranch v := by
  have hbits : scatter branchBits v = scatter branchBits (v % 2 ^ 9) :=
    scatter_congr (n := 9) (by decide) (Nat.mod_mod _ _).symm
  have hlow : signExtend 9 v = signExtend 9 (v % 2 ^ 9) := by
    rw [signExtend, signExtend, Int.natCast_emod, Int.emod_bmod]
  have htable := signExtend_branchBits (v % 2 ^ 9) (Nat.mod_lt _ (by decide)) (by omega)
  rw [hbits, ← hrange, hlow, htable]
  have hcases : v % 2 ^ 9 = v ∨ 2 ^ 8 ≤ v % 2 ^ 9 ∧ 2 ^ 9 ≤ v := by
    unfold signExtend at hrange
    simp only [Int.bmod_def] at hrange
    omega
  unfold Survives
  simp only
  omega

end

theorem pair_mod {low : Nat} (hlow : low < 2 ^ 32) (high : Nat) : pair low high % 2 ^ 32 = low := by
  unfold pair
  omega

theorem pair_div {low : Nat} (hlow : low < 2 ^ 32) (high : Nat) : pair low high / 2 ^ 32 = high := by
  unfold pair
  omega

theorem applyFixup_lt {kind : FixupKind} (hcall : ¬ kind.IsCall) {insn : Nat}
    (hlt : insn < 2 ^ kind.format.size) (v : Nat) : applyFixup kind v insn < 2 ^ kind.format.size := by
  rw [applyFixup_eq hcall]
  exact Nat.or_lt_two_pow hlt (scatter_lt (kind.writes hcall).below _)

/-- **BOLT reads what the assembler has written** exactly for the values that survive. -/
theorem extractValueRISCV_iff (type : InsnType) {contents v : Nat} (hv : v < 2 ^ 64)
    (hblank : Blank type contents) (hrange : InRange type v) :
    extractValueRISCV type (written type contents v) = immediate type v ↔ Survives type v := by
  cases type
  case jal =>
    refine iff_of_true ?_ trivial
    exact (extractJImmRISCV_written hblank.1 hblank.2 hrange.2).trans hrange.1
  case branch =>
    refine iff_of_true ?_ trivial
    exact (extractBImmRISCV_written hblank.1 hblank.2 hrange.2).trans hrange.1
  case gotHi20 =>
    obtain ⟨hlt, hauipc, hload⟩ := hblank
    refine iff_of_true ?_ trivial
    have hlow : contents % 2 ^ 32 < 2 ^ 32 := Nat.mod_lt _ (by decide)
    have hhigh : contents / 2 ^ 32 < 2 ^ 32 := by omega
    have hword : applyFixup .pcrelHi20 v (contents % 2 ^ 32) < 2 ^ 32 :=
      applyFixup_lt (show ¬ FixupKind.IsCall .pcrelHi20 by decide) hlow v
    unfold extractValueRISCV written immediate
    simp only
    rw [pair_mod hword, pair_div hword, extractUImmRISCV_written (Or.inr rfl) hlow hauipc,
      extractIImmRISCV_written (Or.inr rfl) hhigh hload]
  case pcrelHi20 =>
    exact iff_of_true (extractUImmRISCV_written (Or.inr rfl) hblank.1 hblank.2) trivial
  case pcrelLo12I =>
    exact iff_of_true (extractIImmRISCV_written (Or.inr rfl) hblank.1 hblank.2) trivial
  case pcrelLo12S =>
    exact iff_of_true (extractSImmRISCV_written (Or.inr rfl) hblank.1 hblank.2) trivial
  case rvcJump =>
    rw [← rvcJump_iff hv hrange.1 hrange.2, ← signExtend_rvcJump_written hblank.1 hblank.2]
    exact Iff.rfl
  case rvcBranch =>
    rw [← rvcBranch_iff hv hrange.1 hrange.2, ← signExtend_rvcBranch_written hblank.1 hblank.2]
    exact Iff.rfl
  case hi20 => exact iff_of_true (extractUImmRISCV_written (Or.inl rfl) hblank.1 hblank.2) trivial
  case lo12I => exact iff_of_true (extractIImmRISCV_written (Or.inl rfl) hblank.1 hblank.2) trivial
  case lo12S => exact iff_of_true (extractSImmRISCV_written (Or.inl rfl) hblank.1 hblank.2) trivial

/-- What the instruction set reads from a word with a fixup applied. -/
theorem decode_applyFixup (kind : FixupKind) (hcall : ¬ kind.IsCall) {insn : Nat}
    (hlt : insn < 2 ^ kind.format.size) (hblank : kind.format.Blank insn) (v : Nat) :
    kind.format.decode (applyFixup kind v insn) = signExtend kind.format.bits
      (kind.input v % 2 ^ kind.format.bits - kind.input v % 2 ^ kind.format.lo) := by
  have hwrites := kind.writes hcall
  rw [applyFixup_eq hcall, ← Immediate.Blank.and_mask hwrites hlt hblank]
  exact Immediate.decode_written hwrites insn _

/-- The pair of an address in range holds the whole of it. -/
theorem immediate_gotHi20 {v : Nat} (hv : v < 2 ^ 64)
    (hrange : signExtend 64 (round v) / 2 ^ 12 = (signExtend 64 (round v) / 2 ^ 12).bmod (2 ^ 20)) :
    immediate .gotHi20 v = signExtend 64 v := by
  have hupper : upperImmediate v = upper 64 v :=
    signExtend_round (Or.inr rfl) (Or.inr ⟨rfl, rfl⟩) hrange
  rw [immediate, hupper]
  exact upper_add_lower (Or.inr rfl) hv

/-- `lui a0` for an address. -/
theorem extracts_hi20 : extractValueRISCV .hi20 (written .hi20 0x537 0x12345fff) =
    immediate .hi20 0x12345fff :=
  (extractValueRISCV_iff .hi20 (by decide) (show Blank .hi20 0x537 from by
    unfold Blank Immediate.Blank
    decide) trivial).mpr trivial

/-- **A compressed jump by 16 bytes** is read as one by 512. -/
theorem not_extracts_rvcJump :
    ¬ ∀ (type : InsnType) (contents v : Nat), v < 2 ^ 64 → Blank type contents → InRange type v →
      extractValueRISCV type (written type contents v) = immediate type v := by
  intro h
  have hblank : Blank .rvcJump 0xa001 := by
    unfold Blank Immediate.Blank
    decide
  have hrange : InRange .rvcJump 16 := by
    unfold InRange
    decide
  exact absurd (h .rvcJump 0xa001 16 (by decide) hblank hrange) (by decide)

end RvLlvm.Bolt.Relocation
