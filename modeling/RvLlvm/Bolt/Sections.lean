import RvLlvm.Bolt.ProgramHeaders

/-!
# The sections of a rewritten executable and where the code goes

Model of `BinarySection` (`bolt/include/bolt/Core/BinarySection.h:43-110`) and of the relocation
mode of `RewriteInstance::mapCodeSections` (`bolt/lib/Rewrite/RewriteInstance.cpp:3641-3757`). The
new code goes to the place of the old `.text` if it fits, and what it leaves free at the end,
rounded down to an even number, is the distance that the data will move.

* `mapCodeSections` places the code sections, `sizeChange` is the distance.
* `withCode`: the rewrite with that distance.
-/

namespace RvLlvm.Bolt

/-- `sh_type`. -/
inductive SectionType
  | null | progbits | symtab | strtab | rela | nobits | note | rel | other (n : Nat)
  deriving DecidableEq

/-- `sh_flags`, the bits that are read apart. -/
structure SectionFlags where
  alloc : Bool := false
  write : Bool := false
  exec : Bool := false
  tls : Bool := false
  others : Nat := 0
  deriving DecidableEq

/-- `BinarySection`. `sectionRef` is the index in the input's table of a section that comes from
there, `outputContents` what emission gave it. -/
structure BinarySection where
  name : String
  outputName : String := name
  sectionRef : Option Nat := none
  type : SectionType := .progbits
  flags : SectionFlags := { alloc := true }
  address : Nat := 0
  size : Nat := 0
  inputFileOffset : Nat := 0
  alignment : Nat := 1
  hasValidSectionID : Bool := false
  isFinalized : Bool := false
  outputAddress : Nat := 0
  outputFileOffset : Nat := 0
  outputSize : Nat := 0
  outputContents : Option (List UInt8) := none
  deriving DecidableEq

/-- `getUniqueSectionByName`. -/
def getUniqueSectionByName (sections : List BinarySection) (name : String) :
    Option BinarySection :=
  match sections.filter fun sec => sec.name == name with
  | [sec] => some sec
  | _ => none

/-- `getSectionForAddress`: the allocated section with the greatest address up to `a`, if it
reaches `a`; an empty section reaches its own address. -/
def getSectionForAddress (sections : List BinarySection) (a : Nat) : Option BinarySection :=
  let below := sections.foldl
    (fun best sec =>
      if sec.flags.alloc && sec.address ≠ 0 && sec.address ≤ a &&
          best.all fun b => b.address < sec.address then some sec
      else best)
    (none : Option BinarySection)
  below.filter fun sec => decide (a < sec.address + max sec.size 1)

/-! ## Allocation -/

/-- `alignTo`. -/
def alignTo (value align : Nat) : Nat := (value + align - 1) / align * align

/-- The options that `mapCodeSections` reads. -/
structure CodeOptions where
  useOldText : Bool
  hugify : Bool
  hasFixedLoadAddress : Bool
  hotText : Bool
  mainCodeSectionName : String

/-- The loop of `allocateAt`: the sections with their addresses, and the end. -/
def allocate (C : CodeOptions) : Nat → List BinarySection → List BinarySection × Nat
  | address, [] => ([], address)
  | address, sec :: secs =>
    let start := alignTo address sec.alignment
    let stop := start + sec.outputSize
    let stop :=
      if C.hugify && !C.hasFixedLoadAddress && sec.name == C.mainCodeSectionName then
        alignTo stop sec.alignment
      else stop
    let rest := allocate C stop secs
    ({ sec with outputAddress := start } :: rest.1, rest.2)

/-- `allocateAt`, with the padding for huge pages. -/
def allocateAt (C : CodeOptions) (pageAlign address : Nat) (secs : List BinarySection) :
    List BinarySection × Nat :=
  let placed := allocate C address secs
  match getUniqueSectionByName placed.1 C.mainCodeSectionName with
  | some text =>
    if C.hotText && text.hasValidSectionID then
      (placed.1, max placed.2 (alignTo (text.outputAddress + text.outputSize) pageAlign))
    else placed
  | none => placed

/-- What `mapCodeSections` leaves: the code sections mapped, whether the old `.text` is used, the
distance that the data will move and the first address left. -/
structure CodeMap where
  sections : List BinarySection
  useOldText : Bool
  sizeChange : Nat
  nextAvailableAddress : Nat

namespace Rewrite

variable (R : Rewrite)

/-- The entry of `SegmentMapInfo` with the greatest address up to `a`. -/
def segmentBelow (a : Nat) : Option Phdr :=
  R.phdrs.foldl
    (fun best p =>
      if p.isLoad && p.vaddr ≤ a && best.all fun b => b.vaddr ≤ p.vaddr then some p else best)
    none

/-- `getFileOffsetForAddress`. -/
def getFileOffsetForAddress (a : Nat) : Nat :=
  if R.newTextSegmentAddress ≤ a then a - R.newTextSegmentAddress + R.newTextSegmentOffset
  else
    match R.segmentBelow a with
    | some p => if a < p.vaddr + p.filesz then p.offset + a - p.vaddr else 0
    | none => 0

/-- Where the new code starts in the place of the old. -/
def codeStart : Nat :=
  if R.minimizeRodata then R.oldTextSectionAddress - R.rodataCutSize else R.oldTextSectionAddress

/-- The file offset of a code section. -/
def codeFileOffset (a : Nat) : Nat :=
  if R.minimizeRodata then a - 0x11000 else R.getFileOffsetForAddress a

/-- `mapCodeSections` on the code sections in the order of output. -/
def mapCodeSections (C : CodeOptions) (secs : List BinarySection) : CodeMap :=
  let place (placed : List BinarySection) := placed.map fun sec =>
    { sec with outputFileOffset := R.codeFileOffset sec.outputAddress }
  let old := allocateAt C R.pageAlign R.codeStart secs
  let codeSize := old.2 - R.codeStart
  if C.useOldText && codeSize ≤ R.oldTextSectionSize then
    ⟨place old.1, true, (R.oldTextSectionSize - codeSize) / 2 * 2, R.nextAvailableAddress⟩
  else
    let new := allocateAt C R.pageAlign R.nextAvailableAddress secs
    ⟨place new.1, false, 0, new.2⟩

/-- The rewrite once the code is mapped. -/
def withCode (C : CodeOptions) (secs : List BinarySection) : Rewrite :=
  { R with sizeChange := (R.mapCodeSections C secs).sizeChange }

end Rewrite

end RvLlvm.Bolt
