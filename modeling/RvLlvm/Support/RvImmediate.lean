import RvLlvm.Support.BitField
import RvLlvm.Support.Scatter

/-!
# The immediates of RISC-V instructions

Where the formats of the instruction set keep the bits of their immediates, and what they stand for.
Nothing here names a program.

* `Immediate`: a format, by the pieces that a decoder reads.
* `decode_written`: the immediate of a word into which a value was written.
* `Rv.upper`, `Rv.lower`: the two parts of a value for an upper and a 12-bit immediate.
-/

namespace RvLlvm.Support

/-- An immediate: its pieces in a word of `size` bits, which put it together from bit `lo` up to its
sign at bit `bits - 1`. -/
structure Immediate where
  pieces : List Piece
  lo : Nat
  bits : Nat
  size : Nat
  deriving DecidableEq

namespace Immediate

variable (f : Immediate)

/-- The signed immediate of a word. -/
def decode (insn : Nat) : Int := signExtend f.bits (scatter f.pieces insn)

/-- Bit `i` of the word belongs to the immediate. -/
def Reads (i : Nat) : Prop := ∃ p ∈ f.pieces, p.lo ≤ i ∧ i ≤ p.hi

instance (i : Nat) : Decidable (f.Reads i) := inferInstanceAs (Decidable (∃ p ∈ f.pieces, _))

/-- The immediate of the word is zero, bit by bit. -/
def Blank (insn : Nat) : Prop := ∀ i < f.size, f.Reads i → insn.testBit i = false

end Immediate

namespace Rv

/-- `imm[11:0]`. -/
def iType : Immediate := ⟨[⟨31, 20, 0⟩], 0, 12, 32⟩

/-- `imm[11:5]`, `imm[4:0]`. -/
def sType : Immediate := ⟨[⟨31, 25, 5⟩, ⟨11, 7, 0⟩], 0, 12, 32⟩

/-- `imm[12]`, `imm[10:5]`, `imm[4:1]`, `imm[11]`. -/
def bType : Immediate := ⟨[⟨31, 31, 12⟩, ⟨30, 25, 5⟩, ⟨11, 8, 1⟩, ⟨7, 7, 11⟩], 1, 13, 32⟩

/-- `imm[31:12]`. -/
def uType : Immediate := ⟨[⟨31, 12, 12⟩], 12, 32, 32⟩

/-- `imm[20]`, `imm[10:1]`, `imm[11]`, `imm[19:12]`. -/
def jType : Immediate := ⟨[⟨31, 31, 20⟩, ⟨30, 21, 1⟩, ⟨20, 20, 11⟩, ⟨19, 12, 12⟩], 1, 21, 32⟩

/-- `offset[8]`, `offset[4:3]`, `offset[7:6]`, `offset[2:1]`, `offset[5]`. -/
def cbType : Immediate :=
  ⟨[⟨12, 12, 8⟩, ⟨11, 10, 3⟩, ⟨6, 5, 6⟩, ⟨4, 3, 1⟩, ⟨2, 2, 5⟩], 1, 9, 16⟩

/-- `offset[11]`, `offset[4]`, `offset[9:8]`, `offset[10]`, `offset[6]`, `offset[7]`, `offset[3:1]`,
`offset[5]`. -/
def cjType : Immediate :=
  ⟨[⟨12, 12, 11⟩, ⟨11, 11, 4⟩, ⟨10, 9, 8⟩, ⟨8, 8, 10⟩, ⟨7, 7, 6⟩, ⟨6, 6, 7⟩, ⟨5, 3, 1⟩, ⟨2, 2, 5⟩],
    1, 12, 16⟩

/-- `nzimm[17]`, `nzimm[16:12]`. -/
def cLuiType : Immediate := ⟨[⟨12, 12, 17⟩, ⟨6, 2, 12⟩], 12, 18, 16⟩

/-- `imm[5]`, `imm[4:0]`. -/
def ciType : Immediate := ⟨[⟨12, 12, 5⟩, ⟨6, 2, 0⟩], 0, 6, 16⟩

/-- A 64-bit value, rounded for an upper immediate: 1 is carried when bit 11 is set. -/
def round (v : Nat) : Nat := (v + 0x800) % 2 ^ 64

/-- The part of a value that an upper immediate holds for it, with `bits`-bit registers. -/
def upper (bits v : Nat) : Int := signExtend bits (round v) / 0x1000 * 0x1000

/-- The part of a value that a 12-bit immediate adds. -/
def lower (v : Nat) : Int := signExtend 12 v

/-- **The two parts** make up the value in registers of 32 or 64 bits. -/
theorem upper_add_lower {bits : Nat} (hbits : bits = 32 ∨ bits = 64) {v : Nat} (hv : v < 2 ^ 64) :
    (upper bits v + lower v).bmod (2 ^ bits) = signExtend bits v := by
  unfold upper lower round signExtend
  rcases hbits with rfl | rfl
  · simp only [Int.bmod_def]
    omega
  · simp only [Int.bmod_def]
    omega

/-- A piece of the low bits, as an integer. -/
theorem cast_mod_sub_mod {m n : Nat} (h : m ≤ n) (v : Nat) :
    ((v % 2 ^ n - v % 2 ^ m : Nat) : Int) = (v : Int) % 2 ^ n - (v : Int) % 2 ^ m := by
  have hle : v % 2 ^ m ≤ v % 2 ^ n := by
    rw [← Nat.mod_mod_of_dvd v (Nat.pow_dvd_pow 2 h)]
    exact Nat.mod_le _ _
  rw [Nat.cast_sub hle, Int.natCast_emod, Int.natCast_emod, Nat.cast_pow, Nat.cast_pow]
  rfl

/-- An upper immediate of `n` bits, when these are enough, holds the upper part. -/
theorem signExtend_round {bits val m n : Nat} (hbits : bits = 32 ∨ bits = 64)
    (hn : m = 18 ∧ n = 6 ∨ m = 32 ∧ n = 20)
    (hcheck : signExtend bits (round val) / 2 ^ 12 = (signExtend bits (round val) / 2 ^ 12).bmod (2 ^ n)) :
    signExtend m (round val % 2 ^ m - round val % 2 ^ 12) = upper bits val := by
  have hlow : ∀ m, m ≤ 32 → (round val : Int) % 2 ^ m = signExtend bits (round val) % 2 ^ m := by
    intro m hm
    have hdvd : (2 : Int) ^ m ∣ (2 ^ bits : Nat) := by
      push_cast
      exact pow_dvd_pow 2 (by omega)
    rw [signExtend, ← Int.emod_emod_of_dvd _ hdvd, ← Int.emod_emod_of_dvd (Int.bmod _ _) hdvd,
      Int.bmod_emod]
  rw [signExtend, cast_mod_sub_mod (by omega), hlow _ (by omega), hlow _ (by omega), upper]
  generalize signExtend bits (round val) = x at hcheck ⊢
  rcases hn with ⟨rfl, rfl⟩ | ⟨rfl, rfl⟩ <;> simp only [Int.bmod_def] at hcheck ⊢ <;> omega

end Rv

namespace Immediate

variable {f : Immediate} {ps : List Piece} {mask : Nat}

/-- The pieces `ps` write the immediate into a word of which they keep `mask`. -/
structure Writes (f : Immediate) (ps : List Piece) (mask : Nat) : Prop where
  gathers : Gathers ps f.pieces (span f.lo f.bits) mask f.bits
  lo_lt : f.lo < f.bits
  below : Below ps f.size
  mask_lt : mask < 2 ^ f.size
  keeps : ∀ i < f.size, ¬ f.Reads i → mask.testBit i = true ∧ sources ps i = []
  drops : ∀ i < f.size, f.Reads i → mask.testBit i = false

instance : Decidable (f.Writes ps mask) :=
  decidable_of_iff (Gathers ps f.pieces (span f.lo f.bits) mask f.bits ∧ f.lo < f.bits ∧ Below ps f.size ∧
      mask < 2 ^ f.size ∧
      (∀ i < f.size, ¬ f.Reads i → mask.testBit i = true ∧ sources ps i = []) ∧
      ∀ i < f.size, f.Reads i → mask.testBit i = false)
    ⟨fun ⟨h1, h2, h3, h4, h5, h6⟩ => ⟨h1, h2, h3, h4, h5, h6⟩,
      fun ⟨h1, h2, h3, h4, h5, h6⟩ => ⟨h1, h2, h3, h4, h5, h6⟩⟩

/-- **The immediate** of a word with a value written into it. -/
theorem decode_written (h : f.Writes ps mask) (insn v : Nat) :
    f.decode ((insn &&& mask) ||| scatter ps v) = signExtend f.bits (v % 2 ^ f.bits - v % 2 ^ f.lo) := by
  rw [decode, scatter_written h.gathers, scatter_span h.lo_lt]

theorem testBit_written (h : f.Writes ps mask) (insn v : Nat) {i : Nat} (hi : i < f.size)
    (hread : ¬ f.Reads i) :
    ((insn &&& mask) ||| scatter ps v).testBit i = insn.testBit i := by
  obtain ⟨hmask, hsource⟩ := h.keeps i hi hread
  rw [Nat.testBit_or, Nat.testBit_and, hmask, testBit_scatter, hsource, List.any_nil, Bool.and_true,
    Bool.or_false]

theorem written_lt (h : f.Writes ps mask) (insn v : Nat) :
    (insn &&& mask) ||| scatter ps v < 2 ^ f.size :=
  Nat.or_lt_two_pow (Nat.and_lt_two_pow _ h.mask_lt) (scatter_lt h.below v)

theorem reads_of_mem_sources {i j : Nat} (h : j ∈ sources f.pieces i) : f.Reads j := by
  obtain ⟨p, hp, hj⟩ := List.mem_flatMap.mp h
  unfold Piece.sources at hj
  split at hj
  · obtain rfl := List.mem_singleton.mp hj
    unfold Piece.width at *
    exact ⟨p, hp, by omega, by omega⟩
  · cases hj

/-- The immediate of a word without one is zero. -/
theorem Blank.decode_eq {insn : Nat} (hsize : ∀ p ∈ f.pieces, p.hi < f.size) (h : f.Blank insn) :
    f.decode insn = 0 := by
  have hzero : scatter f.pieces insn = 0 := by
    refine Nat.eq_of_testBit_eq fun i => ?_
    rw [testBit_scatter, Nat.zero_testBit, List.any_eq_false]
    intro j hj
    obtain ⟨p, hp, hread⟩ := reads_of_mem_sources hj
    rw [h j (hread.2.trans_lt (hsize p hp)) ⟨p, hp, hread⟩]
    exact Bool.false_ne_true
  rw [decode, hzero, signExtend, Nat.cast_zero, Int.zero_bmod]

/-- A word with no immediate is what its mask leaves of it. -/
theorem Blank.and_mask (h : f.Writes ps mask) {insn : Nat} (hlt : insn < 2 ^ f.size)
    (hblank : f.Blank insn) : insn &&& mask = insn := by
  refine Nat.eq_of_testBit_eq fun i => ?_
  rw [Nat.testBit_and]
  rcases Nat.lt_or_ge i f.size with hi | hi
  · by_cases hread : f.Reads i
    · rw [hblank i hi hread, Bool.false_and]
    · rw [(h.keeps i hi hread).1, Bool.and_true]
  · rw [Nat.testBit_lt_two_pow (hlt.trans_le (Nat.pow_le_pow_right (by decide) hi)), Bool.false_and]

/-- An even value of `n` bits is its immediate. -/
theorem signExtend_of_even {n v : Nat} (heven : v % 2 = 0) :
    signExtend n (v % 2 ^ n - v % 2 ^ 1) = signExtend n v := by
  rw [pow_one, heven, Nat.sub_zero, signExtend, signExtend, Int.natCast_emod, Int.emod_bmod]

end Immediate

end RvLlvm.Support
