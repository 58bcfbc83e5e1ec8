import RvLlvm.JitLink.ElfRiscv
import RvLlvm.Support.ByteField

/-!
# Differences of labels

The `ADD`, `SUB` and `SET` cases of `ELFJITLinker_riscv::applyFixup`
(`llvm/lib/ExecutionEngine/JITLink/ELF_riscv.cpp:369-421,457-489`) on the bytes of a block. Each
reads and writes as many bytes at the fixup as its access has, which for `SET6`, `SET8` and `SET16`
is a word.

* `leNat_fixupAt`: a fixup sets its field of the block and nothing else.
* `difference_iff`: a pair of fixups at one place leaves the difference of its two labels exactly
  when the block has the word that a narrow `SET` reads and, for six bits, doubling the addend taken
  off does not show.
-/

namespace RvLlvm.JitLink

open RvLlvm.Support

/-! ## Fixups in a block -/

/-- The bytes that a fixup reads and writes. -/
def accessSize : EdgeKind → Nat
  | .add8 | .sub6 | .sub8 => 1
  | .add16 | .sub16 => 2
  | .add64 | .sub64 | .abs64 => 8
  | _ => 4

/-- `applyFixup` in a block at address `block`; there is no result outside of the block. -/
def fixupAt (J : Linker) (block : Int) (edges : List Edge) (content : List UInt8) (e : Edge) :
    Option (List UInt8) :=
  (readAt content e.offset (accessSize e.kind)).bind fun raw =>
    (applyFixup J (block + e.offset) edges e raw).toOption.map
      (writeAt content e.offset (accessSize e.kind))

/-- How a difference is formed: a `SET`, or an `ADD` to a field that is zero, and then a `SUB`. -/
inductive Pair
  | set6 | set8 | set16 | set32 | add8 | add16 | add32 | add64
  deriving DecidableEq

namespace Pair

/-- The bits of the field. -/
def bits : Pair → Nat
  | .set6 => 6
  | .set8 | .add8 => 8
  | .set16 | .add16 => 16
  | .set32 | .add32 => 32
  | .add64 => 64

/-- The bytes that the field is part of. -/
def bytes : Pair → Nat
  | .set6 | .set8 | .add8 => 1
  | .set16 | .add16 => 2
  | .set32 | .add32 => 4
  | .add64 => 8

def isAdd : Pair → Bool
  | .add8 | .add16 | .add32 | .add64 => true
  | _ => false

def first : Pair → EdgeKind
  | .set6 => .set6
  | .set8 => .set8
  | .set16 => .set16
  | .set32 => .set32
  | .add8 => .add8
  | .add16 => .add16
  | .add32 => .add32
  | .add64 => .add64

def second : Pair → EdgeKind
  | .set6 => .sub6
  | .set8 | .add8 => .sub8
  | .set16 | .add16 => .sub16
  | .set32 | .add32 => .sub32
  | .add64 => .sub64

end Pair

/-- Block `c` is `content` with the number `d` in `w` bits at the byte `o`. -/
structure HoldsDifference (w o : Nat) (d : Int) (content c : List UInt8) : Prop where
  length : c.length = content.length
  value : field (8 * o) w (leNat c) = (d % 2 ^ w).toNat
  others : ∀ lo n, lo + n ≤ 8 * o ∨ 8 * o + w ≤ lo →
    field lo n (leNat c) = field lo n (leNat content)

section Fixup

variable {J : Linker} {block : Int} {edges : List Edge} {content : List UInt8} {e : Edge}

/-- A fixup that sets a field of what it reads sets that field of the block. -/
theorem leNat_fixupAt (J : Linker) (block : Int) (edges : List Edge) {w : Nat} {v : Nat → Int}
    (hw : w ≤ 8 * accessSize e.kind)
    (h : ∀ raw, applyFixup J (block + e.offset) edges e raw =
    .ok (setField 0 w (v (field 0 w raw)) raw))
    (hin : e.offset + accessSize e.kind ≤ content.length) :
    ∃ c, fixupAt J block edges content e = some c ∧ c.length = content.length ∧
      leNat c = setField (8 * e.offset) w (v (field (8 * e.offset) w (leNat content)))
        (leNat content) := by
  have hfixup : fixupAt J block edges content e = some (writeAt content e.offset (accessSize e.kind)
      (setField 0 w (v (field 0 w (leNat ((content.drop e.offset).take (accessSize e.kind)))))
        (leNat ((content.drop e.offset).take (accessSize e.kind))))) := by
    rw [fixupAt, readAt, if_pos hin, Option.bind_some, h]
    rfl
  refine ⟨_, hfixup, length_writeAt hin _, ?_⟩
  rw [leNat_writeAt hin hw, field_readAt hin hw]

theorem fixupAt_outside (hout : content.length < e.offset + accessSize e.kind) :
    fixupAt J block edges content e = none := by
  rw [fixupAt, readAt, if_neg (Nat.not_le_of_lt hout), Option.bind_none]

/-- The value that the first fixup of a pair puts into the field that holds `f`. -/
def Pair.firstValue (p : Pair) (e : Edge) (f : Nat) : Int :=
  if p.isAdd then e.target + f + e.addend else e.value

/-- The value that the second fixup of a pair puts into the field that holds `f`. -/
def Pair.secondValue (p : Pair) (e : Edge) (f : Nat) : Int :=
  if p = .set6 then f - (e.target - e.addend) else f - e.target - e.addend

theorem applyFixup_first {p : Pair} (h : e.kind = p.first) (fixup : Int) (raw : Nat) :
    applyFixup J fixup edges e raw =
      .ok (setField 0 p.bits (p.firstValue e (field 0 p.bits raw)) raw) := by
  cases p <;> simp only [Pair.first] at h <;> rw [applyFixup, h] <;> rfl

theorem applyFixup_second {p : Pair} (h : e.kind = p.second) (fixup : Int) (raw : Nat) :
    applyFixup J fixup edges e raw =
      .ok (setField 0 p.bits (p.secondValue e (field 0 p.bits raw)) raw) := by
  cases p <;> simp only [Pair.second] at h <;> rw [applyFixup, h] <;> rfl

end Fixup

/-! ## Pairs -/

/-- The pairs whose first access is wider than their field. -/
def Pair.readsWord (p : Pair) : Bool := p == .set6 || p == .set8 || p == .set16

theorem Pair.access_first (p : Pair) :
    accessSize p.first = if p.readsWord then 4 else p.bytes := by
  cases p <;> rfl

theorem Pair.access_second (p : Pair) : accessSize p.second = p.bytes := by
  cases p <;> rfl

theorem Pair.bits_le (p : Pair) : p.bits ≤ 8 * p.bytes ∧ p.bits ≤ 8 * accessSize p.first ∧
    p.bits ≤ 64 := by
  cases p <;> decide

/-- The first fixup leaves its label in the field. -/
theorem Pair.firstValue_emod (p : Pair) (e : Edge) {f : Nat} (hf : p.isAdd → f = 0) :
    p.firstValue e f % 2 ^ p.bits = (e.target + e.addend) % 2 ^ p.bits := by
  rw [firstValue]
  split
  next hadd => rw [hf hadd, Nat.cast_zero, Int.add_zero]
  · exact e.value_emod p.bits_le.2.2

/-- What the second fixup makes of the first one's label, against the difference of both. -/
theorem Pair.secondValue_emod (p : Pair) (e : Edge) (a : Int) :
    (p.secondValue e (a % 2 ^ p.bits).toNat % 2 ^ p.bits).toNat =
        ((a - (e.target + e.addend)) % 2 ^ p.bits).toNat ↔
      (p = .set6 → e.addend % 32 = 0) := by
  have hpos : (0 : Int) < 2 ^ p.bits := by positivity
  rw [secondValue, Int.toNat_of_nonneg (Int.emod_nonneg a hpos.ne')]
  split
  next hp =>
    subst hp
    simp only [bits, true_imp_iff]
    omega
  next hp =>
    refine iff_of_true ?_ fun h => absurd h hp
    rw [Int.sub_sub, Int.emod_sub_emod]

/-- **Label differences**: a `SET`, or an `ADD` to a zero field, and then the `SUB` of its width
leave the difference of their labels in the field and every other bit of the block, exactly when the
word that a narrow `SET` reads lies in the block and, for six bits, the addend of the `SUB` is a
multiple of 32. -/
theorem difference_iff (J : Linker) (block : Int) (edges : List Edge) (p : Pair)
    (content : List UInt8) (e e' : Edge) (hfirst : e.kind = p.first) (hsecond : e'.kind = p.second)
    (hplace : e'.offset = e.offset) (hin : e.offset + p.bytes ≤ content.length)
    (hzero : p.isAdd → field (8 * e.offset) p.bits (leNat content) = 0) :
    (∃ c c', fixupAt J block edges content e = some c ∧ fixupAt J block edges c e' = some c' ∧
        HoldsDifference p.bits e.offset (e.target + e.addend - (e'.target + e'.addend))
          content c') ↔
      (p.readsWord → e.offset + 4 ≤ content.length) ∧ (p = .set6 → e'.addend % 32 = 0) := by
  by_cases hword : p.readsWord → e.offset + 4 ≤ content.length
  · have haccess : e.offset + accessSize e.kind ≤ content.length := by
      rw [hfirst, p.access_first]
      split
      next h => exact hword h
      · exact hin
    obtain ⟨c, hc, hlen, hnum⟩ := leNat_fixupAt J block edges
      (by rw [hfirst]; exact p.bits_le.2.1) (fun raw => applyFixup_first hfirst _ raw) haccess
    have haccess' : e'.offset + accessSize e'.kind ≤ c.length := by
      rw [hsecond, p.access_second, hplace, hlen]
      exact hin
    obtain ⟨c', hc', hlen', hnum'⟩ := leNat_fixupAt J block edges
      (by rw [hsecond, p.access_second]; exact p.bits_le.1)
      (fun raw => applyFixup_second hsecond _ raw) haccess'
    rw [hplace, hnum, field_setField_self, p.firstValue_emod e hzero] at hnum'
    have hvalue : field (8 * e.offset) p.bits (leNat c') =
        (p.secondValue e' ((e.target + e.addend) % 2 ^ p.bits).toNat % 2 ^ p.bits).toNat := by
      rw [hnum', field_setField_self]
    constructor
    · rintro ⟨b, b', hb, hb', hdiff⟩
      obtain rfl := Option.some.inj (hc.symm.trans hb)
      obtain rfl := Option.some.inj (hc'.symm.trans hb')
      exact ⟨hword, (p.secondValue_emod e' _).mp (hvalue.symm.trans hdiff.value)⟩
    · rintro ⟨-, haddend⟩
      refine ⟨c, c', hc, hc', hlen'.trans hlen, ?_, ?_⟩
      · rw [hvalue]
        exact (p.secondValue_emod e' _).mpr haddend
      · rintro lo n (hbelow | habove)
        · rw [hnum', field_setField_below _ _ hbelow, field_setField_below _ _ hbelow]
        · rw [hnum', field_setField_above _ _ habove, field_setField_above _ _ habove]
  · refine iff_of_false ?_ fun h => hword h.1
    rintro ⟨c, c', hc, -⟩
    push_neg at hword
    rw [fixupAt_outside (by rw [hfirst, p.access_first, if_pos hword.1]; exact hword.2)] at hc
    exact absurd hc (by simp)

/-- A linker that moves nothing. -/
def plainLinker : Linker := ⟨0, 0, 0⟩

/-- Labels at 16 and at 9, with addends 2 and 1. -/
theorem difference_add8 :
    (∃ c c', fixupAt plainLinker 0 [] [0, 7] ⟨.add8, 0, 16, 0, 2⟩ = some c ∧
        fixupAt plainLinker 0 [] c ⟨.sub8, 0, 9, 0, 1⟩ = some c' ∧
        HoldsDifference 8 0 (16 + 2 - (9 + 1)) [0, 7] c') ↔
      (Pair.add8.readsWord → 0 + 4 ≤ [(0 : UInt8), 7].length) ∧
        (Pair.add8 = .set6 → (1 : Int) % 32 = 0) :=
  difference_iff plainLinker 0 [] .add8 [0, 7] ⟨.add8, 0, 16, 0, 2⟩ ⟨.sub8, 0, 9, 0, 1⟩ rfl rfl rfl
    (by decide) (fun _ => by decide)

/-- `SET8` in the last byte of a block has no word to read, and `SUB6` adds its addend. -/
theorem not_difference :
    (¬ ∃ c c', fixupAt plainLinker 0 [] [0] ⟨.set8, 0, 16, 0, 0⟩ = some c ∧
      fixupAt plainLinker 0 [] c ⟨.sub8, 0, 9, 0, 0⟩ = some c' ∧
      HoldsDifference 8 0 (16 + 0 - (9 + 0)) [0] c') ∧
    ¬ ∃ c c', fixupAt plainLinker 0 [] [0, 0, 0, 0] ⟨.set6, 0, 16, 0, 0⟩ = some c ∧
      fixupAt plainLinker 0 [] c ⟨.sub6, 0, 9, 0, 1⟩ = some c' ∧
      HoldsDifference 6 0 (16 + 0 - (9 + 1)) [0, 0, 0, 0] c' := by
  constructor
  · rintro ⟨c, c', hc, -⟩
    have hnone : fixupAt plainLinker 0 [] [0] ⟨.set8, 0, 16, 0, 0⟩ = none := by decide
    rw [hnone] at hc
    exact absurd hc (by simp)
  · rintro ⟨c, c', hc, hc', hdiff⟩
    have hset : fixupAt plainLinker 0 [] [0, 0, 0, 0] ⟨.set6, 0, 16, 0, 0⟩ =
      some [16, 0, 0, 0] := by
      decide
    obtain rfl := Option.some.inj (hset.symm.trans hc)
    have hsub : fixupAt plainLinker 0 [] [16, 0, 0, 0] ⟨.sub6, 0, 9, 0, 1⟩ = some [8, 0, 0, 0] := by
      decide
    obtain rfl := Option.some.inj (hsub.symm.trans hc')
    exact absurd hdiff.value (by decide)

end RvLlvm.JitLink
