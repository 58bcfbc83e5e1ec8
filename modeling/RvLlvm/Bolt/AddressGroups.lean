import Mathlib.Data.Int.ModEq
import RvLlvm.Bolt.DataShift

/-!
# What moving the data segment keeps

The data segment moves by the bytes that the new code leaves free, an even number
(`mapCodeSections`), and `applyFixup` encodes the high and the low part of an address apart
(`llvm/lib/ExecutionEngine/JITLink/ELF_riscv.cpp:326-368`).

* `Kept`: sections stay aligned, offsets stay congruent to addresses, and a user of a shared high
  part still forms its address.
* `kept_iff`: this holds exactly when the distance is a multiple of each alignment and each user's
  high part is the one it shares (`Reencodes`).
* `editPhdr_modEq`: the congruence of a load is never lost.
* `not_kept_evenShrink`: a distance of `0x102` and a section aligned to 16.
-/

namespace RvLlvm.Bolt

open RvLlvm.Support RvLlvm.JitLink

/-! ## Groups -/

/-- An access that adds its low part to a shared register: its form, its addend and its word. -/
structure GroupUser where
  form : LowForm
  addend : Int
  raw : Nat

/-- A `lui %hi(S+A)` or `auipc %pcrel_hi(S+A)` at `site`, at offset `siteOffset` of its block, with
the accesses it feeds. -/
structure AddressGroup where
  isAuipc : Bool
  site : Located
  siteOffset : Nat
  target : Located
  addend : Int
  raw : Nat
  users : List GroupUser

namespace AddressGroup

variable (g : AddressGroup) (u : GroupUser)

/-- The edge of kind `k` with addend `a`. -/
def edge (k : EdgeKind) (a : Int) : Edge := ⟨k, g.siteOffset, g.target.mapped, 0, a⟩

/-- The edge of the user: to the address itself after a `lui`, to the label after an `auipc`. -/
def userEdge : Edge :=
  if g.isAuipc then
    ⟨Reference.pcrelLowKind u.form, g.siteOffset + 4, g.site.mapped, g.siteOffset, 0⟩
  else g.edge (Reference.lowKind u.form) u.addend

/-- What the user computes in the input image, where both parts were encoded from the original
addresses. -/
def computedBefore : Nat :=
  if g.isAuipc then
    let v := g.target.original + g.addend - g.site.original
    cell 32 (g.site.original + ((Rv.hi20 v).bmod (2 ^ 20) * 2 ^ 12 + Rv.lo12 v))
  else
    cell 32 ((Rv.hi20 (g.target.original + g.addend)).bmod (2 ^ 20) * 2 ^ 12 +
      Rv.lo12 (g.target.original + u.addend))

/-- What the user computes after the fixups, `pc` being where the `auipc` runs. -/
def computedAfter (J : Linker) (edges : List Edge) (pc : Int) : Except FixupError Nat := do
  let hi ← applyFixup J g.site.mapped edges
    (g.edge (if g.isAuipc then .pcrelHi20 else .hi20) g.addend) g.raw
  let lo ← applyFixup J (g.site.mapped + 4) edges (g.userEdge u) u.raw
  return cell 32 ((if g.isAuipc then pc else 0) + (Rv.upperImm hi + Reference.lowImm u.form lo))

end AddressGroup

namespace Rewrite

variable (R : Rewrite)

/-- The section lies in the load. -/
def InLoad (p : Phdr) (sec : BinarySection) : Prop :=
  p.vaddr ≤ sec.address ∧ sec.address + sec.size ≤ p.vaddr + p.memsz

/-- The address of a section of load `p` once the load is moved. -/
def movedAddress (p : Phdr) (sec : BinarySection) : Nat :=
  word ((R.editPhdr p).vaddr + (sec.address - p.vaddr : Int))

/-- What moving the data segment should keep, of the sections and the groups of an input. -/
structure Kept (J : Linker) (edges : List Edge) (sections : List BinarySection)
    (groups : List AddressGroup) : Prop where
  aligned : ∀ p ∈ R.phdrs, R.isDataSegment p = true → ∀ sec ∈ sections, InLoad p sec →
    sec.alignment ∣ sec.address → sec.alignment ∣ R.movedAddress p sec
  congruent : ∀ p ∈ R.phdrs, p.isLoad = true → p.offset ≡ p.vaddr [MOD p.align] →
    (R.editPhdr p).offset ≡ (R.editPhdr p).vaddr [MOD p.align]
  addresses : ∀ g ∈ groups, ∀ u ∈ g.users,
    g.computedBefore u = cell 32 (g.target.original + u.addend) →
    g.computedAfter u J edges (R.outputAddress g.site) =
      .ok (cell 32 (R.outputAddress g.target + u.addend))

/-- The parts that the user and its group get make the moved address: the encoder accepts the high
part, and the distances that the fixups take off leave both parts those of the moved address. -/
def Reencodes (J : Linker) (g : AddressGroup) (u : GroupUser) : Prop :=
  if g.isAuipc then
    isInRange32 (J.getAdjustedTargetValue (g.edge .pcrelHi20 g.addend) - g.site.mapped + 0x800) =
        true ∧
      (R.remaining g.target - J.applied (g.edge .pcrelHi20 g.addend) - R.remaining g.site) %
        2 ^ 32 = 0
  else
    isInRange32 (J.absoluteValue (g.edge .hi20 g.addend) + 0x800) = true ∧
      (R.remaining g.target - J.applied (g.edge .lo12I u.addend)) % 2 ^ 12 = 0 ∧
      Rv.hi20 (g.target.mapped + g.addend - J.applied (g.edge .hi20 g.addend)) % 2 ^ 20 =
        Rv.hi20 (R.outputAddress g.target + u.addend) % 2 ^ 20

instance (J : Linker) (g : AddressGroup) (u : GroupUser) : Decidable (R.Reencodes J g u) := by
  unfold Reencodes
  infer_instance

/-- When the moved segment is kept: every alignment in it divides the distance, and every group is
re-encoded for its users. -/
structure Divides (J : Linker) (sections : List BinarySection) (groups : List AddressGroup) :
    Prop where
  aligned : ∀ p ∈ R.phdrs, R.isDataSegment p = true → ∀ sec ∈ sections, InLoad p sec →
    sec.alignment ∣ sec.address → sec.alignment ∣ R.sizeChange + R.rodataCut
  addresses : ∀ g ∈ groups, ∀ u ∈ g.users,
    g.computedBefore u = cell 32 (g.target.original + u.addend) → R.Reencodes J g u

/-- The input's alignments are powers of two that ELF32 can write, its loads lie below 4 GiB, and
the label of an `auipc` has its own edge. -/
structure Aligned (edges : List Edge) (sections : List BinarySection)
    (groups : List AddressGroup) : Prop where
  sections : ∀ sec ∈ sections, sec.alignment ∣ 2 ^ 32
  loads : ∀ p ∈ R.phdrs, p.align = 0 ∨ p.align ∣ 2 ^ 32
  fields : ∀ p ∈ R.phdrs, p.vaddr < 2 ^ 32 ∧ p.offset < 2 ^ 32 ∧ p.filesz < 2 ^ 32 ∧ p.memsz < 2 ^ 32
  labels : ∀ g ∈ groups, ∀ u ∈ g.users, g.isAuipc = true →
    getRISCVPCRelHi20 edges (g.userEdge u) = some (g.edge .pcrelHi20 g.addend)

variable {R}

/-! ## Sections and loads -/

/-- Wrapping at 4 GiB keeps a value modulo a power of two. -/
theorem word_modEq {a : Nat} (h : a ∣ 2 ^ 32) (z : Int) : (word z : Int) ≡ z [ZMOD a] := by
  have hdvd : (a : Int) ∣ 2 ^ 32 := by exact_mod_cast h
  have hcast : (word z : Int) = z % 2 ^ 32 := Int.toNat_of_nonneg (by omega)
  rw [hcast]
  exact (Int.mod_modEq z (2 ^ 32)).of_dvd hdvd

theorem dvd_word_iff {a : Nat} {z : Int} (h : a ∣ 2 ^ 32) : a ∣ word z ↔ (a : Int) ∣ z := by
  rw [← Int.natCast_dvd_natCast, ← Int.modEq_zero_iff_dvd, ← Int.modEq_zero_iff_dvd]
  constructor
  · intro hz
    exact (word_modEq h z).symm.trans hz
  · intro hz
    exact (word_modEq h z).trans hz

/-- **A section stays aligned** exactly when the distance is a multiple of its alignment. -/
theorem dvd_movedAddress_iff {p : Phdr} {sec : BinarySection} (hmoved : R.isDataSegment p = true)
    (hv : p.vaddr < 2 ^ 32) (ho : p.offset < 2 ^ 32) (hf : p.filesz < 2 ^ 32)
    (hm : p.memsz < 2 ^ 32) (halign : sec.alignment ∣ 2 ^ 32) (hsec : sec.alignment ∣ sec.address) :
    sec.alignment ∣ R.movedAddress p sec ↔ sec.alignment ∣ R.sizeChange + R.rodataCut := by
  have hload : p.isLoad = true := by
    simp only [isDataSegment, Bool.and_eq_true] at hmoved
    exact hmoved.1.1
  obtain ⟨-, hvaddr, -⟩ := editLoad_eq (R := R) hload hv ho hf hm
  have haddr : R.movedAddress p sec = word (sec.address - (R.sizeChange + R.rodataCut : Nat) : Int) := by
    rw [movedAddress, hvaddr, shift_of_isDataSegment hmoved, word_word_add]
    congr 1
    ring
  rw [haddr, dvd_word_iff halign, dvd_sub_right (Int.natCast_dvd_natCast.mpr hsec),
    Int.natCast_dvd_natCast]

/-- **The congruence of a load** is never lost: both fields go down by the same distance. -/
theorem editPhdr_modEq {p : Phdr} (hload : p.isLoad = true) (hv : p.vaddr < 2 ^ 32)
    (ho : p.offset < 2 ^ 32) (hf : p.filesz < 2 ^ 32) (hm : p.memsz < 2 ^ 32)
    (halign : p.align = 0 ∨ p.align ∣ 2 ^ 32) (h : p.offset ≡ p.vaddr [MOD p.align]) :
    (R.editPhdr p).offset ≡ (R.editPhdr p).vaddr [MOD p.align] := by
  obtain ⟨-, hvaddr, hoffset, -⟩ := editLoad_eq (R := R) hload hv ho hf hm
  rw [hvaddr, hoffset]
  rcases halign with hzero | halign
  · rw [hzero, Nat.modEq_zero_iff] at h ⊢
    rw [h]
  · rw [← Int.natCast_modEq_iff] at h ⊢
    exact ((word_modEq halign _).trans (h.sub_right _)).trans (word_modEq halign _).symm

/-! ## Groups after the fixups -/

variable {J : Linker} {edges : List Edge} {g : AddressGroup} {u : GroupUser}

/-- The high part is stored when the encoder accepts it. -/
theorem storeHi20_eq (v : Int) (raw : Nat) :
    storeHi20 v raw = if isInRange32 (v + 0x800) = true then .ok (Rv.setUpper (Rv.hi20 v) raw)
      else .error .targetOutOfRange := rfl

variable (J edges u) in
theorem lowImm_lui (hg : g.isAuipc = false) (fixup : Int) :
    ∃ lo, applyFixup J fixup edges (g.userEdge u) u.raw = .ok lo ∧
      Reference.lowImm u.form lo = Rv.lo12 (J.absoluteValue (g.edge .lo12I u.addend)) := by
  rw [AddressGroup.userEdge, hg]
  cases u.form with
  | i => exact ⟨_, rfl, Rv.immI_setImmI _ _⟩
  | s => exact ⟨_, rfl, Rv.immS_setImmS _ _⟩

/-- **A user of a `lui`** forms the moved address exactly when both parts are re-encoded for it. -/
theorem computedAfter_lui (hg : g.isAuipc = false) (pc : Int) :
    g.computedAfter u J edges pc = .ok (cell 32 (R.outputAddress g.target + u.addend)) ↔
      R.Reencodes J g u := by
  obtain ⟨lo, hlo, himm⟩ := lowImm_lui J edges u hg (g.site.mapped + 4)
  have hhi : applyFixup J g.site.mapped edges (g.edge .hi20 g.addend) g.raw =
      storeHi20 (J.absoluteValue (g.edge .hi20 g.addend)) g.raw := rfl
  simp only [AddressGroup.computedAfter, Reencodes, hg, Bool.false_eq_true, if_false, hhi,
    storeHi20_eq, hlo]
  by_cases hrange : isInRange32 (J.absoluteValue (g.edge .hi20 g.addend) + 0x800) = true
  · have hvalue : ∀ w a, w ≤ 64 → (g.edge .lo12I a).value % 2 ^ w = (g.target.mapped + a) % 2 ^ w :=
      fun w a hw => (g.edge .lo12I a).value_emod hw
    have hhigh : Rv.hi20 (J.absoluteValue (g.edge .hi20 g.addend)) % 2 ^ 20 =
        Rv.hi20 (g.target.mapped + g.addend - J.applied (g.edge .hi20 g.addend)) % 2 ^ 20 := by
      apply Rv.hi20_congr
      rw [J.absoluteValue_eq (Or.inr (Or.inl rfl)), Int.sub_emod,
        (g.edge .hi20 g.addend).value_emod (by decide : 32 ≤ 64), ← Int.sub_emod]
      rfl
    have hlow : J.absoluteValue (g.edge .lo12I u.addend) % 2 ^ 12 =
          (R.outputAddress g.target + u.addend) % 2 ^ 12 ↔
        (R.remaining g.target - J.applied (g.edge .lo12I u.addend)) % 2 ^ 12 = 0 := by
      rw [J.absoluteValue_eq (Or.inr (Or.inr (Or.inl rfl))), outputAddress_eq,
        Int.emod_eq_emod_iff_emod_sub_eq_zero, sub_sub, Int.sub_emod, hvalue 12 _ (by decide),
        ← Int.sub_emod]
      have hsub : g.target.mapped + u.addend - (J.applied (g.edge .lo12I u.addend) +
          (g.target.mapped - R.remaining g.target + u.addend)) =
          R.remaining g.target - J.applied (g.edge .lo12I u.addend) := by
        ring
      rw [hsub]
    simp only [hrange, if_true, true_and, bind, Except.bind, pure, Except.pure, Except.ok.injEq,
      Rv.upperImm_setUpper, himm, Int.zero_add]
    rw [Rv.upper_lo12_eq_iff, hlow, hhigh]
  · simp only [hrange, if_false, false_and, bind, Except.bind, reduceCtorEq]

theorem lowImm_auipc (hg : g.isAuipc = true)
    (hlabel : getRISCVPCRelHi20 edges (g.userEdge u) = some (g.edge .pcrelHi20 g.addend))
    (fixup : Int) :
    ∃ lo, applyFixup J fixup edges (g.userEdge u) u.raw = .ok lo ∧
      Reference.lowImm u.form lo =
        Rv.lo12 (J.getAdjustedTargetValue (g.edge .pcrelHi20 g.addend) - g.site.mapped) := by
  rw [AddressGroup.userEdge, if_pos hg] at hlabel ⊢
  cases hform : u.form with
  | i =>
    rw [hform] at hlabel
    simp only [applyFixup, Reference.pcrelLowKind] at hlabel ⊢
    rw [hlabel]
    exact ⟨_, rfl, Rv.immI_setImmI _ _⟩
  | s =>
    rw [hform] at hlabel
    simp only [applyFixup, Reference.pcrelLowKind] at hlabel ⊢
    rw [hlabel]
    exact ⟨_, rfl, Rv.immS_setImmS _ _⟩

/-- **A user of an `auipc`** takes the low part of what its high part stores. -/
theorem computedAfter_auipc (hg : g.isAuipc = true)
    (hlabel : getRISCVPCRelHi20 edges (g.userEdge u) = some (g.edge .pcrelHi20 g.addend))
    (hbefore : cell 32 (g.target.original + g.addend : Int) =
      cell 32 (g.target.original + u.addend)) :
    g.computedAfter u J edges (R.outputAddress g.site) =
        .ok (cell 32 (R.outputAddress g.target + u.addend)) ↔
      R.Reencodes J g u := by
  obtain ⟨lo, hlo, himm⟩ := lowImm_auipc (J := J) hg hlabel (g.site.mapped + 4)
  let v := J.getAdjustedTargetValue (g.edge .pcrelHi20 g.addend) - g.site.mapped
  have hhi : applyFixup J g.site.mapped edges (g.edge .pcrelHi20 g.addend) g.raw =
      storeHi20 v g.raw := rfl
  simp only [AddressGroup.computedAfter, Reencodes, hg, if_true, hhi, storeHi20_eq, hlo]
  by_cases hrange : isInRange32 (v + 0x800) = true
  · -- the two parts make `v`, so the access forms `v` from where the `auipc` runs
    have hparts : cell 32 (R.outputAddress g.site +
        ((Rv.hi20 v).bmod (2 ^ 20) * 2 ^ 12 + Rv.lo12 v)) = cell 32 (R.outputAddress g.site + v) := by
      have := (Rv.upper_lo12_iff v v).mpr rfl
      rw [cell_eq_iff] at this ⊢
      rw [Int.add_emod, this, ← Int.add_emod]
    have hvalue : v % 2 ^ 32 = (g.target.mapped + g.addend -
        J.applied (g.edge .pcrelHi20 g.addend) - g.site.mapped) % 2 ^ 32 := by
      change (J.getAdjustedTargetValue (g.edge .pcrelHi20 g.addend) - g.site.mapped) % 2 ^ 32 = _
      rw [J.getAdjustedTargetValue_eq rfl, sub_sub, Int.sub_emod,
        (g.edge .pcrelHi20 g.addend).value_emod (by decide : 32 ≤ 64), ← Int.sub_emod, ← sub_sub]
      rfl
    have hslip : cell 32 (R.outputAddress g.site + v) =
          cell 32 (R.outputAddress g.target + u.addend) ↔
        (R.remaining g.target - J.applied (g.edge .pcrelHi20 g.addend) -
          R.remaining g.site) % 2 ^ 32 = 0 := by
      rw [cell_eq_iff] at hbefore ⊢
      rw [outputAddress_eq, outputAddress_eq]
      omega
    simp only [v] at hrange hslip hparts
    simp only [v, hrange, if_true, true_and, bind, Except.bind, pure, Except.pure, Except.ok.injEq,
      Rv.upperImm_setUpper, himm, hparts]
    exact hslip
  · simp only [v] at hrange
    simp only [v, hrange, if_false, false_and, bind, Except.bind, reduceCtorEq]

/-- What the user of an `auipc` formed before is the target of the group. -/
theorem computedBefore_auipc (hg : g.isAuipc = true) :
    g.computedBefore u = cell 32 (g.target.original + g.addend) := by
  simp only [AddressGroup.computedBefore, if_pos hg]
  have hparts := (Rv.upper_lo12_iff (g.target.original + g.addend - g.site.original)
    (g.target.original + g.addend - g.site.original)).mpr rfl
  rw [cell_eq_iff] at hparts ⊢
  rw [Int.add_emod, hparts, ← Int.add_emod]
  congr 1
  ring

/-! ## The whole segment -/

/-- **The moved segment is kept** exactly when the distance suits every section and every group,
whatever code decides the distance. -/
theorem kept_iff {C : CodeOptions} {code sections : List BinarySection} {addr : Nat}
    {groups : List AddressGroup} (h : (R.withCode C code).Aligned edges sections groups) :
    (R.withCode C code).Kept ((R.withCode C code).jitLinker addr) edges sections groups ↔
      (R.withCode C code).Divides ((R.withCode C code).jitLinker addr) sections groups := by
  have hgroup : ∀ g ∈ groups, ∀ u ∈ g.users,
      g.computedBefore u = cell 32 (g.target.original + u.addend) →
      (g.computedAfter u ((R.withCode C code).jitLinker addr) edges
          ((R.withCode C code).outputAddress g.site) =
          .ok (cell 32 ((R.withCode C code).outputAddress g.target + u.addend)) ↔
        (R.withCode C code).Reencodes ((R.withCode C code).jitLinker addr) g u) := by
    intro g hg u hu hbefore
    cases hauipc : g.isAuipc with
    | false => exact computedAfter_lui hauipc _
    | true =>
      refine computedAfter_auipc hauipc (h.labels g hg u hu hauipc) ?_
      rw [← computedBefore_auipc hauipc, hbefore]
  have hsection : ∀ p ∈ (R.withCode C code).phdrs, (R.withCode C code).isDataSegment p = true →
      ∀ sec ∈ sections, sec.alignment ∣ sec.address →
      (sec.alignment ∣ (R.withCode C code).movedAddress p sec ↔
        sec.alignment ∣ (R.withCode C code).sizeChange + (R.withCode C code).rodataCut) := by
    intro p hp hmoved sec hsec halign
    obtain ⟨hv, ho, hf, hm⟩ := h.fields p hp
    exact dvd_movedAddress_iff hmoved hv ho hf hm (h.sections sec hsec) halign
  constructor
  · intro hK
    constructor
    · intro p hp hmoved sec hsec hin halign
      exact (hsection p hp hmoved sec hsec halign).mp (hK.aligned p hp hmoved sec hsec hin halign)
    · intro g hg u hu hbefore
      exact (hgroup g hg u hu hbefore).mp (hK.addresses g hg u hu hbefore)
  · intro hD
    constructor
    · intro p hp hmoved sec hsec hin halign
      exact (hsection p hp hmoved sec hsec halign).mpr (hD.aligned p hp hmoved sec hsec hin halign)
    · intro p hp hload
      obtain ⟨hv, ho, hf, hm⟩ := h.fields p hp
      exact editPhdr_modEq hload hv ho hf hm (h.loads p hp)
    · intro g hg u hu hbefore
      exact (hgroup g hg u hu hbefore).mpr (hD.addresses g hg u hu hbefore)

/-- Code of `size` bytes in the place of the old text. -/
def inOldText : CodeOptions where
  useOldText := true
  hugify := false
  hasFixedLoadAddress := true
  hotText := false
  mainCodeSectionName := ".text"

def codeOf (size : Nat) : List BinarySection :=
  [{ name := ".text", alignment := 4, outputSize := size }]

/-- `.data`, aligned to 16. -/
def alignedData : BinarySection :=
  { name := ".data", address := 0x13010, size := 0x100, alignment := 16 }

/-- A `lui` for two words of `.data`. -/
def wordPair : AddressGroup where
  isAuipc := false
  site := ⟨0x11000, 0x11000, none⟩
  siteOffset := 0
  target := ⟨0x13020, 0x13020,
    some ⟨.load, 0x2000, 0x13000, 0x13000, 0x100, 0x200, true, true, false, 0x1000⟩⟩
  addend := 0
  raw := 0
  users := [⟨.i, 0, 0⟩, ⟨.s, 4, 0⟩]

theorem smallRewrite_aligned (size : Nat) (groups : List AddressGroup)
    (h : ∀ g ∈ groups, g.isAuipc = false) :
    ((smallRewrite []).withCode inOldText (codeOf size)).Aligned [] [alignedData] groups := by
  constructor
  · intro sec hsec
    rw [List.mem_singleton.mp hsec]
    decide
  · change ∀ p ∈ (smallRewrite []).phdrs, p.align = 0 ∨ p.align ∣ 2 ^ 32
    decide
  · change ∀ p ∈ (smallRewrite []).phdrs,
      p.vaddr < 2 ^ 32 ∧ p.offset < 2 ^ 32 ∧ p.filesz < 2 ^ 32 ∧ p.memsz < 2 ^ 32
    decide
  · intro g hg u hu hauipc
    rw [h g hg] at hauipc
    exact absurd hauipc Bool.false_ne_true

theorem kept_wordPair :
    ((smallRewrite []).withCode inOldText (codeOf 0xf00)).Kept
      (((smallRewrite []).withCode inOldText (codeOf 0xf00)).jitLinker 0x13010) [] [alignedData]
      [wordPair] := by
  refine (kept_iff (smallRewrite_aligned 0xf00 [wordPair] (by decide))).mpr ⟨?_, ?_⟩
  · intro p _ _ sec hsec _ _
    rw [List.mem_singleton.mp hsec]
    decide
  · intro g hg u hu _
    obtain rfl := List.mem_singleton.mp hg
    revert u
    decide

/-- **Code that ends two bytes earlier** moves `.data` to an address that is not a multiple of
16. -/
theorem not_kept_evenShrink :
    ¬ ∀ (R : Rewrite) (C : CodeOptions) (code sections : List BinarySection) (addr : Nat)
      (edges : List Edge) (groups : List AddressGroup),
      (R.withCode C code).Aligned edges sections groups →
      (R.withCode C code).Kept ((R.withCode C code).jitLinker addr) edges sections groups := by
  intro h
  have hK := h (smallRewrite []) inOldText (codeOf 0xefe) [alignedData] 0x13010 [] []
    (smallRewrite_aligned 0xefe [] (by simp))
  have hdvd := hK.aligned
    ⟨.load, 0x2000, 0x13000, 0x13000, 0x100, 0x200, true, true, false, 0x1000⟩
    (List.mem_cons_of_mem _ List.mem_cons_self) rfl alignedData List.mem_cons_self
    (by unfold InLoad; decide) (by decide)
  exact absurd hdvd (by decide)

end Rewrite

end RvLlvm.Bolt
