import Mathlib.Data.List.Pairwise
import RvLlvm.Support.BitField

/-!
# The program header table of a rewritten RV32 executable

Model of the RV32 half of `RewriteInstance::patchELFPHDRTable`
(`bolt/lib/Rewrite/RewriteInstance.cpp:3956-4122`). The table is the input's, edited header by
header: the text segment gives up the bytes that the new code leaves free, the data segment moves
down by as many, and with `--minimize-rodata` both move down by the bytes cut from `.rodata`.

* `editPhdr` is one turn of the copying loop, `patchELFPHDRTable` the whole.
* `editLoad_eq`: an edited load moves by `shift` and loses `cut` bytes at its end.
-/

namespace RvLlvm.Bolt

open RvLlvm.Support

/-- `p_type`; `riscvAttributes` is `0x70000003`. -/
inductive SegmentType
  | load | dynamic | note | phdr | gnuEhFrame | gnuStack | riscvAttributes | other (n : Nat)
  deriving DecidableEq

/-- `Elf32_Phdr`, with the flags `PF_R`, `PF_W` and `PF_X` apart. -/
structure Phdr where
  type : SegmentType
  offset : Nat
  vaddr : Nat
  paddr : Nat
  filesz : Nat
  memsz : Nat
  r : Bool
  w : Bool
  x : Bool
  align : Nat
  deriving DecidableEq

/-- `PT_LOAD`. -/
def Phdr.isLoad (p : Phdr) : Bool := decide (p.type = .load)

/-- What the header patching reads: options, the input's headers, the layout of the new segments.
`ehFrameHdr` is the new `.eh_frame_hdr`, if emitted: its file offset, address and size. The ranges
of the old text and of `.rodata` say which bytes the shrinking gives up. -/
structure Rewrite where
  useGnuStack : Bool
  minimizeRodata : Bool
  instrument : Bool
  rodataCutSize : Nat
  sizeChange : Nat
  oldTextSectionAddress : Nat
  oldTextSectionSize : Nat
  rodataAddress : Nat
  rodataSize : Nat
  phdrs : List Phdr
  phoff : Nat
  phdrTableAddress : Nat
  phdrTableOffset : Nat
  newTextSegmentAddress : Nat
  newTextSegmentOffset : Nat
  newTextSegmentSize : Nat
  newWritableSegmentAddress : Nat
  newWritableSegmentSize : Nat
  nextAvailableAddress : Nat
  ehFrameHdr : Option (Nat × Nat × Nat)
  pageAlign : Nat
  regularPageSize : Nat

namespace Rewrite

variable (R : Rewrite)

/-- `Phnum`. -/
def phnum : Nat :=
  if R.phdrTableOffset ≠ 0 then
    R.phdrs.length + 1 + (if R.newWritableSegmentSize ≠ 0 then 1 else 0)
  else R.phdrs.length

/-- `NewTextSegmentSize`, recalculated. -/
def textSegmentSize : Nat :=
  if R.newWritableSegmentSize = 0 then
    if R.phdrTableAddress ≠ 0 then R.nextAvailableAddress - R.phdrTableAddress
    else R.nextAvailableAddress - R.newTextSegmentAddress
  else R.newTextSegmentSize

/-- `createNewTextPhdr`. -/
def createNewTextPhdr : Phdr where
  type := .load
  offset := word (if R.phdrTableAddress ≠ 0 then R.phdrTableOffset else R.newTextSegmentOffset)
  vaddr := word (if R.phdrTableAddress ≠ 0 then R.phdrTableAddress else R.newTextSegmentAddress)
  paddr := word (if R.phdrTableAddress ≠ 0 then R.phdrTableAddress else R.newTextSegmentAddress)
  filesz := word R.textSegmentSize
  memsz := word R.textSegmentSize
  r := true
  w := R.instrument
  x := true
  align := word R.pageAlign

/-- `createNewWritableSectionsPhdr`. -/
def createNewWritableSectionsPhdr : Phdr where
  type := .load
  offset := word
    (R.newWritableSegmentAddress - R.newTextSegmentAddress + R.newTextSegmentOffset : Int)
  vaddr := word R.newWritableSegmentAddress
  paddr := word R.newWritableSegmentAddress
  filesz := word (R.nextAvailableAddress - R.newWritableSegmentAddress : Int)
  memsz := word (R.nextAvailableAddress - R.newWritableSegmentAddress : Int)
  r := true
  w := true
  x := false
  align := word R.regularPageSize

/-- The entries added for new sections. -/
def newEntries : List Phdr :=
  R.createNewTextPhdr ::
    (if R.newWritableSegmentSize ≠ 0 then [R.createNewWritableSectionsPhdr] else [])

/-- The branch for a load of the input. -/
def editLoad (p : Phdr) : Phdr :=
  let s : Int := R.sizeChange
  let r : Int := R.rodataCutSize
  if R.minimizeRodata then
    if p.offset = 0 && p.vaddr = 0x10000 then
      { p with filesz := word (p.filesz - r), memsz := word (p.memsz - r) }
    else if p.r && p.x then
      { p with
        filesz := word (p.filesz - s)
        memsz := word (p.memsz - s)
        offset := word (p.offset - r)
        vaddr := word (p.vaddr - r)
        paddr := word (p.paddr - r) }
    else if p.r && p.w then
      { p with
        offset := word (p.offset - s - r)
        vaddr := word (p.vaddr - s - r)
        paddr := word (p.paddr - s - r) }
    else p
  else if p.r && p.x then
    { p with filesz := word (p.filesz - s), memsz := word (p.memsz - s) }
  else if p.r && p.w then
    { p with
      offset := word (p.offset - s)
      vaddr := word (p.vaddr - s)
      paddr := word (p.paddr - s) }
  else p

/-- The edit of one header of the input. -/
def editPhdr (p : Phdr) : Phdr :=
  match p.type with
  | .phdr =>
    if R.phdrTableAddress ≠ 0 then
      { p with
        offset := word R.phdrTableOffset
        vaddr := word R.phdrTableAddress
        paddr := word R.phdrTableAddress
        filesz := word (32 * R.phnum : Nat)
        memsz := word (32 * R.phnum : Nat) }
    else p
  | .gnuEhFrame =>
    match R.ehFrameHdr with
    | some (offset, addr, size) =>
      { p with
        offset := word offset
        vaddr := word addr
        paddr := word addr
        filesz := word size
        memsz := word size }
    | none => p
  | .gnuStack => if R.useGnuStack then R.createNewTextPhdr else p
  | .load => if R.useGnuStack then R.editLoad p else p
  | _ => p

/-- The filter on what is written: no attributes, no note, nothing of size zero. -/
def isWritten (p : Phdr) : Bool :=
  decide (p.type ≠ .riscvAttributes) && decide (p.type ≠ .note) && decide (p.memsz ≠ 0) &&
    decide (p.filesz ≠ 0)

/-- What the copying loop writes for one header. New entries go before `PT_DYNAMIC`. -/
def writePhdr (p : Phdr) : List Phdr :=
  (if !R.useGnuStack && p.type = .dynamic then R.newEntries else []) ++
    (if isWritten (R.editPhdr p) then [R.editPhdr p] else [])

/-- `AddedSegment`. -/
def addedSegment : Bool := !R.useGnuStack && R.phdrs.any fun p => decide (p.type = .dynamic)

/-- `patchELFPHDRTable`: the headers written; `none` when it gives up. `e_phnum` is `phnum`. -/
def patchELFPHDRTable : Option (List Phdr) :=
  if R.phdrTableOffset = 0 && R.newWritableSegmentSize ≠ 0 then none
  else
    some (R.phdrs.flatMap R.writePhdr ++
      (if !R.useGnuStack && !R.addedSegment then R.newEntries else []))

/-! ## How far a load moves -/

/-- The bytes cut from `.rodata`. -/
def rodataCut : Nat := if R.minimizeRodata then R.rodataCutSize else 0

/-- How the edit sorts the loads. -/
inductive LoadKind
  | rodata | text | data | other
  deriving DecidableEq

/-- The flag tests of the edit, in order. -/
def loadKind (p : Phdr) : LoadKind :=
  if R.minimizeRodata && p.offset = 0 && p.vaddr = 0x10000 then .rodata
  else if p.r && p.x then .text
  else if p.r && p.w then .data
  else .other

/-- The distance the load moves down. -/
def shift (p : Phdr) : Nat :=
  if R.useGnuStack then
    match R.loadKind p with
    | .text => R.rodataCut
    | .data => R.sizeChange + R.rodataCut
    | _ => 0
  else 0

/-- The bytes the load loses at its end. -/
def cut (p : Phdr) : Nat :=
  if R.useGnuStack then
    match R.loadKind p with
    | .rodata => R.rodataCut
    | .text => R.sizeChange
    | _ => 0
  else 0

/-- The segment that holds the data moves: it is the one that goes down by both amounts. -/
def isDataSegment (p : Phdr) : Bool :=
  p.isLoad && R.useGnuStack && decide (R.loadKind p = .data)

/-- The bytes that shrinking gives up: the tail of the old text and the tail of `.rodata`. -/
def Reclaimed (a : Nat) : Prop :=
  (R.oldTextSectionAddress + R.oldTextSectionSize - R.sizeChange ≤ a ∧
      a < R.oldTextSectionAddress + R.oldTextSectionSize) ∨
    (R.rodataAddress + R.rodataSize - R.rodataCut ≤ a ∧ a < R.rodataAddress + R.rodataSize)

instance (a : Nat) : Decidable (R.Reclaimed a) := inferInstanceAs (Decidable (_ ∨ _))

variable {R}

/-- **An edited load** stands `shift` lower and is `cut` shorter. -/
theorem editLoad_eq {p : Phdr} (h : p.isLoad = true) (hv : p.vaddr < 2 ^ 32)
    (ho : p.offset < 2 ^ 32) (hf : p.filesz < 2 ^ 32) (hm : p.memsz < 2 ^ 32) :
    (R.editPhdr p).type = .load ∧
      (R.editPhdr p).vaddr = word (p.vaddr - R.shift p : Int) ∧
      (R.editPhdr p).offset = word (p.offset - R.shift p : Int) ∧
      (R.editPhdr p).filesz = word (p.filesz - R.cut p : Int) ∧
      (R.editPhdr p).memsz = word (p.memsz - R.cut p : Int) := by
  have htype : p.type = .load := of_decide_eq_true h
  have hzero : ∀ n : Nat, n < 2 ^ 32 → word ((n : Int) - (0 : Nat)) = n := by
    intro n hn
    rw [Nat.cast_zero, sub_zero, word_of_lt hn]
  unfold editPhdr shift cut loadKind rodataCut
  rw [htype]
  cases hg : R.useGnuStack with
  | false =>
    exact ⟨htype, (hzero _ hv).symm, (hzero _ ho).symm, (hzero _ hf).symm, (hzero _ hm).symm⟩
  | true =>
    simp only [if_true, editLoad]
    cases hmin : R.minimizeRodata with
    | false =>
      simp only [Bool.false_and, Bool.false_eq_true, if_false]
      split
      · simp only [htype, hzero _ hv, hzero _ ho, and_self]
      · split
        · simp only [htype, hzero _ hf, hzero _ hm, Nat.add_zero, and_self]
        · simp only [htype, hzero _ hv, hzero _ ho, hzero _ hf, hzero _ hm, and_self]
    | true =>
      simp only [Bool.true_and, if_true]
      split
      · simp only [htype, hzero _ hv, hzero _ ho, and_self]
      · split
        · simp only [htype, and_self]
        · split
          · simp only [htype, hzero _ hf, hzero _ hm, Nat.cast_add, sub_sub, and_self]
          · simp only [htype, hzero _ hv, hzero _ ho, hzero _ hf, hzero _ hm, and_self]

/-! ## An executable of two loads -/

/-- A code segment, a data segment, a stack header and further headers; the new code leaves `0x100`
of the `0x1000` bytes of old text free, and 32 bytes of new sections follow at `0x30000`. -/
def smallRewrite (extra : List Phdr) : Rewrite where
  useGnuStack := true
  minimizeRodata := false
  instrument := false
  rodataCutSize := 0
  sizeChange := 0x100
  oldTextSectionAddress := 0x11000
  oldTextSectionSize := 0x1000
  rodataAddress := 0
  rodataSize := 0
  phdrs := [⟨.load, 0, 0x10000, 0x10000, 0x2000, 0x2000, true, false, true, 0x1000⟩,
    ⟨.load, 0x2000, 0x13000, 0x13000, 0x100, 0x200, true, true, false, 0x1000⟩,
    ⟨.gnuStack, 0, 0, 0, 0, 0, true, true, false, 16⟩] ++ extra
  phoff := 52
  phdrTableAddress := 0
  phdrTableOffset := 0
  newTextSegmentAddress := 0x30000
  newTextSegmentOffset := 0x20000
  newTextSegmentSize := 0
  newWritableSegmentAddress := 0x31000
  newWritableSegmentSize := 0
  nextAvailableAddress := 0x30020
  ehFrameHdr := none
  pageAlign := 0x1000
  regularPageSize := 0x1000

end Rewrite

end RvLlvm.Bolt
