import RvLlvm.Bolt.Sections
import RvLlvm.JitLink.ElfRiscv

/-!
# Addresses in the shifted data segment

`RewriteInstance::emitAndLink` (`bolt/lib/Rewrite/RewriteInstance.cpp:3495-3509`) tells the JIT
linker the address of `.data` and how far the data will move; `patchELFPHDRTable` then moves whole
segments. What a fixup stores is right when the distance it takes off its target is the distance
the target's segment still has to move.

* `Reference` is a cell, or a `lui` or `auipc` with the access it feeds; `decoded` the value it has
  after the fixups, `expected` the one it should have.
* `decoded_iff`: the two agree exactly when `slip`, the difference of the distances, vanishes at
  the width of the reference.
* `not_decoded_initArray`: a section of the data segment below `.data`.
-/

namespace RvLlvm.Bolt

open RvLlvm.Support RvLlvm.JitLink

/-- A symbol, or a place to fix up: its address in the input, the address the JIT linker sees, and
the load that its section lies in. -/
structure Located where
  original : Nat
  mapped : Int
  segment : Option Phdr

/-- The section whose address is the start of data: `.data`, else `.sdata`. -/
def dataSection (sections : List BinarySection) : Option BinarySection :=
  (getUniqueSectionByName sections ".data").orElse fun _ =>
    getUniqueSectionByName sections ".sdata"

/-- The two forms of an access: `addi` and loads, or stores. -/
inductive LowForm
  | i | s
  deriving DecidableEq

/-- The kinds that fill a cell. -/
def isCellKind : EdgeKind → Bool
  | .hi20 | .lo12I | .lo12S | .pcrelHi20 | .pcrelLo12I | .pcrelLo12S => false
  | _ => true

/-- What a reference consists of: a cell, a `lui` with an access, or an `auipc` with an access. -/
inductive Shape
  | cell (k : { k : EdgeKind // isCellKind k = true })
  | absolute (f : LowForm)
  | pcrel (f : LowForm)

/-- A reference to `target` plus `addend` from `site`, at offset `siteOffset` of its block. -/
structure Reference where
  shape : Shape
  site : Located
  siteOffset : Nat
  target : Located
  addend : Int

namespace Reference

variable (ref : Reference)

/-- The edge of kind `k` to the target. -/
def edge (k : EdgeKind) : Edge := ⟨k, ref.siteOffset, ref.target.mapped, 0, ref.addend⟩

/-- The edge from the access to the label at the `auipc`. -/
def labelEdge (k : EdgeKind) : Edge :=
  ⟨k, ref.siteOffset + 4, ref.site.mapped, ref.siteOffset, 0⟩

/-- The width of the value. -/
def width : Nat :=
  match ref.shape with
  | .cell k =>
    match k.1 with
    | .sub6 | .set6 => 6
    | .add8 | .sub8 | .set8 => 8
    | .add16 | .sub16 | .set16 => 16
    | .abs64 | .add64 | .sub64 => 64
    | _ => 32
  | _ => 32

/-- The kinds of the low part in form `f`. -/
def lowKind (f : LowForm) : EdgeKind := match f with
  | .i => .lo12I
  | .s => .lo12S

def pcrelLowKind (f : LowForm) : EdgeKind := match f with
  | .i => .pcrelLo12I
  | .s => .pcrelLo12S

/-- The immediate of an access in form `f`. -/
def lowImm (f : LowForm) (insn : Nat) : Int := match f with
  | .i => Rv.immI insn
  | .s => Rv.immS insn

/-- The value the reference has after its fixups, `raw` and `raw'` being the cell or the two
instructions before and `edges` those of the block of the site. -/
def decoded (J : Linker) (edges : List Edge) (raw raw' : Nat) : Except FixupError Nat :=
  match ref.shape with
  | .cell k => (applyFixup J ref.site.mapped edges (ref.edge k) raw).map (field 0 ref.width)
  | .absolute f => do
    let hi ← applyFixup J ref.site.mapped edges (ref.edge .hi20) raw
    let lo ← applyFixup J (ref.site.mapped + 4) edges (ref.edge (lowKind f)) raw'
    return cell 32 (Rv.upperImm hi + lowImm f lo)
  | .pcrel f => do
    let hi ← applyFixup J ref.site.mapped edges (ref.edge .pcrelHi20) raw
    let lo ← applyFixup J (ref.site.mapped + 4) edges (ref.labelEdge (pcrelLowKind f)) raw'
    return cell 32 (Rv.upperImm hi + lowImm f lo)

end Reference

namespace Rewrite

variable (R : Rewrite)


/-- The linker that `emitAndLink` sets up when `dataSection` is at `addr`. -/
def jitLinker (addr : Nat) : Linker :=
  if R.minimizeRodata then ⟨addr - R.rodataCutSize, R.sizeChange, R.rodataCutSize⟩
  else ⟨addr, R.sizeChange, 0⟩

/-- The output address: a place in the segment that moves goes with it, any other stays where it
was mapped. -/
def outputAddress (l : Located) : Int :=
  match l.segment with
  | some p => if R.isDataSegment p then l.original - R.shift p else l.mapped
  | none => l.mapped

/-- How far the place has still to move after linking: nothing unless its segment moves. -/
def remaining (l : Located) : Int :=
  match l.segment with
  | some p => if R.isDataSegment p then l.mapped - l.original + R.shift p else 0
  | none => 0

/-- The value the reference should have; `old` is what its cell holds before. -/
def expected (ref : Reference) (old : Nat) : Int :=
  let address := R.outputAddress ref.target + ref.addend
  match ref.shape with
  | .cell k =>
    match k.1 with
    | .add8 | .add16 | .add32 | .add64 => field 0 ref.width old + address
    | .sub6 | .sub8 | .sub16 | .sub32 | .sub64 => field 0 ref.width old - address
    | .pcrel32 => address - R.outputAddress ref.site
    | _ => address
  | .absolute _ => address
  | .pcrel _ => address - R.outputAddress ref.site

/-- How far the target has still to move, less the distance the fixup takes off, relative to the
site where the value is. `R_RISCV_SUB6` adds its addend. -/
def slip (J : Linker) (ref : Reference) : Int :=
  match ref.shape with
  | .cell k =>
    match k.1 with
    | .abs32 => R.remaining ref.target - J.applied (ref.edge .abs32)
    | .sub6 => R.remaining ref.target - 2 * ref.addend
    | .pcrel32 => R.remaining ref.target - R.remaining ref.site
    | _ => R.remaining ref.target
  | .absolute _ => R.remaining ref.target - J.applied (ref.edge .hi20)
  | .pcrel _ =>
    R.remaining ref.target - J.applied (ref.edge .pcrelHi20) - R.remaining ref.site

variable {R}

/-- **The segment that moves** goes down by the text shrink and the bytes cut from `.rodata`. -/
theorem shift_of_isDataSegment {p : Phdr} (h : R.isDataSegment p = true) :
    R.shift p = R.sizeChange + R.rodataCut := by
  unfold isDataSegment at h
  simp only [Bool.and_eq_true, decide_eq_true_eq] at h
  rw [shift, if_pos h.1.2, h.2]

theorem outputAddress_eq (l : Located) : R.outputAddress l = l.mapped - R.remaining l := by
  unfold outputAddress remaining
  cases l.segment with
  | none => simp
  | some p =>
    simp only
    split
    · ring
    · simp

/-! ## Cells -/

/-- Two values that differ by `d`, either way, fill a cell alike exactly when `d` vanishes there. -/
theorem cell_eq_iff_sub {w : Nat} {x y d : Int}
    (h : (x - y) % 2 ^ w = d % 2 ^ w ∨ (y - x) % 2 ^ w = d % 2 ^ w) :
    cell w x = cell w y ↔ d % 2 ^ w = 0 := by
  rw [cell_eq_iff]
  rcases h with h | h
  · rw [← h, Int.emod_eq_emod_iff_emod_sub_eq_zero]
  · rw [← h, ← Int.emod_eq_emod_iff_emod_sub_eq_zero]
    exact eq_comm

/-- The value of an edge, less what is taken off, against the output address of its target. -/
theorem value_sub_expected (ref : Reference) (k : EdgeKind) (d : Int) {w : Nat} (hw : w ≤ 64) :
    ((ref.edge k).value - d - (R.outputAddress ref.target + ref.addend)) % 2 ^ w =
      (R.remaining ref.target - d) % 2 ^ w := by
  rw [sub_sub, Int.sub_emod, (ref.edge k).value_emod hw, ← Int.sub_emod]
  congr 1
  simp only [Reference.edge, outputAddress_eq]
  ring

variable {ref : Reference} {edges : List Edge}

/-- **What a fixup fills a cell with** is right exactly when `slip` vanishes at its width. -/
theorem decoded_cell {k : { k : EdgeKind // isCellKind k = true }} (hshape : ref.shape = .cell k)
    (J : Linker) (edges : List Edge) (raw raw' : Nat) {v : Nat}
    (h : ref.decoded J edges raw raw' = .ok v) :
    v = cell ref.width (R.expected ref raw) ↔ R.slip J ref % 2 ^ ref.width = 0 := by
  obtain ⟨k, hk⟩ := k
  -- the value stored, and how it compares
  have key : ∀ x : Int, applyFixup J ref.site.mapped edges (ref.edge k) raw =
        .ok (setField 0 ref.width x raw) →
      ((x - R.expected ref raw) % 2 ^ ref.width = R.slip J ref % 2 ^ ref.width ∨
        (R.expected ref raw - x) % 2 ^ ref.width = R.slip J ref % 2 ^ ref.width) →
      (v = cell ref.width (R.expected ref raw) ↔ R.slip J ref % 2 ^ ref.width = 0) := by
    intro x hx hsub
    simp only [Reference.decoded, hshape, hx] at h
    have hv : field 0 ref.width (setField 0 ref.width x raw) = v := Except.ok.inj h
    rw [← hv, field_setField_self]
    exact cell_eq_iff_sub hsub
  cases k with
  | hi20 | lo12I | lo12S | pcrelHi20 | pcrelLo12I | pcrelLo12S => exact absurd hk (by decide)
  | abs32 =>
    refine key (J.absoluteValue (ref.edge .abs32)) (by rw [Reference.width, hshape]; rfl)
      (Or.inl ?_)
    rw [J.absoluteValue_eq (Or.inl rfl)]
    simp only [Reference.width, expected, slip, hshape]
    exact value_sub_expected ref .abs32 _ (by decide)
  | abs64 =>
    refine key (ref.edge .abs64).value (by rw [Reference.width, hshape]; rfl) (Or.inl ?_)
    simp only [Reference.width, expected, slip, hshape]
    simpa using value_sub_expected (R := R) ref .abs64 0 (by decide : 64 ≤ 64)
  | set6 =>
    refine key (ref.edge .set6).value (by rw [Reference.width, hshape]; rfl) (Or.inl ?_)
    simp only [Reference.width, expected, slip, hshape]
    simpa using value_sub_expected (R := R) ref .set6 0 (by decide : 6 ≤ 64)
  | set8 =>
    refine key (ref.edge .set8).value (by rw [Reference.width, hshape]; rfl) (Or.inl ?_)
    simp only [Reference.width, expected, slip, hshape]
    simpa using value_sub_expected (R := R) ref .set8 0 (by decide : 8 ≤ 64)
  | set16 =>
    refine key (ref.edge .set16).value (by rw [Reference.width, hshape]; rfl) (Or.inl ?_)
    simp only [Reference.width, expected, slip, hshape]
    simpa using value_sub_expected (R := R) ref .set16 0 (by decide : 16 ≤ 64)
  | set32 =>
    refine key (ref.edge .set32).value (by rw [Reference.width, hshape]; rfl) (Or.inl ?_)
    simp only [Reference.width, expected, slip, hshape]
    simpa using value_sub_expected (R := R) ref .set32 0 (by decide : 32 ≤ 64)
  | add8 | add16 | add32 | add64 =>
    refine key (ref.target.mapped + field 0 ref.width raw + ref.addend)
      (by rw [Reference.width, hshape]; rfl) (Or.inl ?_)
    simp only [expected, slip, hshape, outputAddress_eq]
    congr 1
    ring
  | sub8 | sub16 | sub32 | sub64 =>
    refine key (field 0 ref.width raw - ref.target.mapped - ref.addend)
      (by rw [Reference.width, hshape]; rfl) (Or.inr ?_)
    simp only [expected, slip, hshape, outputAddress_eq]
    congr 1
    ring
  | sub6 =>
    refine key (field 0 ref.width raw - (ref.target.mapped - ref.addend))
      (by rw [Reference.width, hshape]; rfl) (Or.inr ?_)
    simp only [expected, slip, hshape, outputAddress_eq]
    congr 1
    ring
  | pcrel32 =>
    refine key (ref.target.mapped + ref.addend - ref.site.mapped)
      (by rw [Reference.width, hshape]; rfl) (Or.inl ?_)
    simp only [expected, slip, hshape, outputAddress_eq]
    congr 1
    ring

/-! ## Addresses formed by two instructions -/

/-- The access of a pair takes the low part of `u`. -/
theorem lowImm_applyFixup {J : Linker} {fixup : Int} {f : LowForm} {raw lo : Nat}
    (h : applyFixup J fixup edges (ref.edge (Reference.lowKind f)) raw = .ok lo) :
    Reference.lowImm f lo = Rv.lo12 (J.absoluteValue (ref.edge .hi20)) := by
  cases f with
  | i =>
    obtain rfl := Except.ok.inj h
    exact Rv.immI_setImmI _ _
  | s =>
    obtain rfl := Except.ok.inj h
    exact Rv.immS_setImmS _ _

/-- **A `lui` and its access** make the value they were both taken from. -/
theorem decoded_absolute {f : LowForm} (hshape : ref.shape = .absolute f) {J : Linker}
    {raw raw' v : Nat} (h : ref.decoded J edges raw raw' = .ok v) :
    v = cell 32 (R.expected ref raw) ↔ R.slip J ref % 2 ^ 32 = 0 := by
  simp only [Reference.decoded, hshape] at h
  cases hhi : applyFixup J ref.site.mapped edges (ref.edge .hi20) raw with
  | error e => rw [hhi] at h; exact absurd h (by simp [bind, Except.bind])
  | ok hi =>
    cases hlo : applyFixup J (ref.site.mapped + 4) edges (ref.edge (Reference.lowKind f)) raw' with
    | error e => rw [hhi, hlo] at h; exact absurd h (by simp [bind, Except.bind])
    | ok lo =>
      rw [hhi, hlo] at h
      obtain rfl : cell 32 (Rv.upperImm hi + Reference.lowImm f lo) = v := Except.ok.inj h
      rw [lowImm_applyFixup hlo, storeHi20_lo12 hhi rfl,
        J.absoluteValue_eq (Or.inr (Or.inl rfl))]
      apply cell_eq_iff_sub
      left
      simp only [expected, slip, hshape]
      exact value_sub_expected ref .hi20 _ (by decide)

/-- The access of an `auipc` takes the low part of what its high part stores. -/
theorem lowImm_applyFixup_label {J : Linker} {fixup : Int} {f : LowForm} {raw lo : Nat}
    (hlabel : getRISCVPCRelHi20 edges (ref.labelEdge (Reference.pcrelLowKind f)) =
      some (ref.edge .pcrelHi20))
    (h : applyFixup J fixup edges (ref.labelEdge (Reference.pcrelLowKind f)) raw = .ok lo) :
    Reference.lowImm f lo =
      Rv.lo12 (J.getAdjustedTargetValue (ref.edge .pcrelHi20) - ref.site.mapped) := by
  cases f with
  | i =>
    simp only [applyFixup, Reference.labelEdge, Reference.pcrelLowKind] at h hlabel
    rw [hlabel] at h
    obtain rfl := Except.ok.inj h
    exact Rv.immI_setImmI _ _
  | s =>
    simp only [applyFixup, Reference.labelEdge, Reference.pcrelLowKind] at h hlabel
    rw [hlabel] at h
    obtain rfl := Except.ok.inj h
    exact Rv.immS_setImmS _ _

/-- **An `auipc` and its access** make the value they were both taken from. -/
theorem decoded_pcrel {f : LowForm} (hshape : ref.shape = .pcrel f) {J : Linker} {raw raw' v : Nat}
    (hlabel : getRISCVPCRelHi20 edges (ref.labelEdge (Reference.pcrelLowKind f)) =
      some (ref.edge .pcrelHi20)) (h : ref.decoded J edges raw raw' = .ok v) :
    v = cell 32 (R.expected ref raw) ↔ R.slip J ref % 2 ^ 32 = 0 := by
  simp only [Reference.decoded, hshape] at h
  cases hhi : applyFixup J ref.site.mapped edges (ref.edge .pcrelHi20) raw with
  | error e => rw [hhi] at h; exact absurd h (by simp [bind, Except.bind])
  | ok hi =>
    cases hlo : applyFixup J (ref.site.mapped + 4) edges
        (ref.labelEdge (Reference.pcrelLowKind f)) raw' with
    | error e => rw [hhi, hlo] at h; exact absurd h (by simp [bind, Except.bind])
    | ok lo =>
      rw [hhi, hlo] at h
      obtain rfl : cell 32 (Rv.upperImm hi + Reference.lowImm f lo) = v := Except.ok.inj h
      rw [lowImm_applyFixup_label hlabel hlo, storeHi20_lo12 hhi rfl,
        J.getAdjustedTargetValue_eq rfl]
      apply cell_eq_iff_sub
      left
      have hvalue := value_sub_expected (R := R) ref .pcrelHi20
        (J.applied (ref.edge .pcrelHi20)) (by decide : 32 ≤ 64)
      simp only [expected, slip, hshape]
      rw [Int.sub_emod _ (R.remaining ref.site), ← hvalue, ← Int.sub_emod]
      congr 1
      rw [outputAddress_eq ref.site]
      ring

/-! ## All references -/

/-- **A reference denotes the moved data** exactly when `slip` vanishes at its width. The label of
an `auipc` pair is the site. -/
theorem decoded_iff {addr : Nat} {ref : Reference} {edges : List Edge}
    (hlabel : ∀ f, ref.shape = .pcrel f →
      getRISCVPCRelHi20 edges (ref.labelEdge (Reference.pcrelLowKind f)) =
        some (ref.edge .pcrelHi20))
    {raw raw' v : Nat} (h : ref.decoded (R.jitLinker addr) edges raw raw' = .ok v) :
    v = cell ref.width (R.expected ref raw) ↔
      R.slip (R.jitLinker addr) ref % 2 ^ ref.width = 0 := by
  cases hshape : ref.shape with
  | cell k => exact decoded_cell hshape _ edges raw raw' h
  | absolute f =>
    have hwidth : ref.width = 32 := by rw [Reference.width, hshape]
    rw [hwidth]
    exact decoded_absolute hshape h
  | pcrel f =>
    have hwidth : ref.width = 32 := by rw [Reference.width, hshape]
    rw [hwidth]
    exact decoded_pcrel hshape (hlabel f hshape) h

/-- The load of `smallRewrite` that moves. -/
def movedLoad : Phdr := ⟨.load, 0x2000, 0x13000, 0x13000, 0x100, 0x200, true, true, false, 0x1000⟩

/-- A pointer in `.data` at `0x13080` to the place at `addr`. -/
def pointerTo (addr : Nat) : Reference where
  shape := .cell ⟨.abs32, rfl⟩
  site := ⟨0x13080, 0x13080, some movedLoad⟩
  siteOffset := 0x70
  target := ⟨addr, addr, some movedLoad⟩
  addend := 0

theorem pointerTo_not_pcrel (addr : Nat) (f : LowForm) : (pointerTo addr).shape ≠ .pcrel f :=
  Shape.noConfusion

theorem decoded_pointer :
    ∃ v, (pointerTo 0x13020).decoded ((smallRewrite []).jitLinker 0x13010) [] 0 0 = .ok v ∧
      v = cell 32 ((smallRewrite []).expected (pointerTo 0x13020) 0) :=
  ⟨_, rfl, (decoded_iff (fun f hf => absurd hf (pointerTo_not_pcrel _ f))
    (rfl : (pointerTo 0x13020).decoded _ [] 0 0 = _)).mpr (by decide)⟩

/-- **A pointer to `.init_array`**, which moves with `.data` but lies below it. -/
theorem not_decoded_initArray :
    ¬ ∀ (R : Rewrite) (sections : List BinarySection) (data : BinarySection) (ref : Reference)
      (edges : List Edge) (raw raw' v : Nat), dataSection sections = some data →
      (∀ f, ref.shape = .pcrel f →
        getRISCVPCRelHi20 edges (ref.labelEdge (Reference.pcrelLowKind f)) =
          some (ref.edge .pcrelHi20)) →
      ref.decoded (R.jitLinker data.address) edges raw raw' = .ok v →
      v = cell ref.width (R.expected ref raw) := by
  intro h
  have hv := h (smallRewrite [])
    [{ name := ".init_array", address := 0x13000 }, { name := ".data", address := 0x13010 }] _
    (pointerTo 0x13000) [] 0 0 _ rfl (fun f hf => absurd hf (pointerTo_not_pcrel _ f)) rfl
  exact absurd hv (by decide)

end Rewrite

end RvLlvm.Bolt
