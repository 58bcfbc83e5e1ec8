import Mathlib.Data.List.Sort
import Mathlib.Logic.Function.Basic
import RvLlvm.Elf
import RvLlvm.Support.Search

/-!
# CSGORFE: splitting the `.text` of an RV32 object into per-function sections

Model of `Riscv32FunctionSectionSplitter` (`lld/ELF/CSGORFE.h`), which `--gc-sections` links
run on every RV32 `.o` before reading it.

* An `Image` is the file as the code reads it through its typed pointers: the ELF header, the
  section headers by index, the symbols by index and the `Elf32_Rela` records by file offset.
  `Splitter` adds the members `textIndex`, `symtabIndex`, `sectionCount`. The records of two
  relocation sections are told apart by their file offsets, as in the code.
* `run` is `run` (`CSGORFE.h:30-69`) without the file names: `none` is `return false`, `some`
  the image it writes. Loops over an index are recursions on the index; `std::sort` on a strict
  total order is `List.insertionSort`; `std::upper_bound` is `Support.upperBound`.
* `sectionIndex` and `e_shnum` are 16-bit fields, so storing into them truncates (`half`). The
  sums of 32-bit words below cannot wrap on an accepted image: `collectFunctions` compares
  `st_size` with `sh_size - st_value`, and the header table, the last thing in the file, starts
  at a 32-bit offset.
-/

namespace RvLlvm.Lld.Csgorfe

open RvLlvm.Elf RvLlvm.Support

/-- The object file, as the typed pointers into `data` read it. -/
structure Image where
  currentSize : Nat
  ehdr : Ehdr
  shdr : Nat → Shdr
  sym : Nat → Sym
  rela : Nat → Rela

/-- The members of `Riscv32FunctionSectionSplitter`. -/
structure Splitter extends Image where
  textIndex : Nat
  symtabIndex : Nat
  sectionCount : Nat

/-- `FunctionInfo`. -/
structure FunctionInfo where
  symIndex : Nat
  start : Nat
  size : Nat
  sectionIndex : Nat
  deriving DecidableEq

/-! ## Checks on the header and the section table -/

/-- `hasRange`. -/
def hasRange (im : Image) (off size : Nat) : Bool :=
  decide (off ≤ im.currentSize) && decide (size ≤ im.currentSize - off)

/-- `sectionTableEnd`. -/
def sectionTableEnd (im : Image) : Nat := im.ehdr.eShoff + im.ehdr.eShnum * im.ehdr.eShentsize

/-- `validateHeader`. -/
def validateHeader (im : Image) : Bool :=
  decide (sizeofEhdr ≤ im.currentSize) && im.ehdr.checkMagic &&
  (im.ehdr.eiClass == elfClass32 && im.ehdr.eiData == elfData2Lsb && im.ehdr.eType == etRel &&
    im.ehdr.eMachine == emRiscv) &&
  (im.ehdr.eShentsize == sizeofShdr && im.ehdr.eShnum != 0) &&
  hasRange im im.ehdr.eShoff (im.ehdr.eShnum * im.ehdr.eShentsize)

/-- The test `findCoreSections` picks `.text` by: allocated executable `SHT_PROGBITS`. -/
def isTextHeader (sec : Shdr) : Bool :=
  sec.shType == shtProgbits && sec.shFlags.testBit shfAllocBit && sec.shFlags.testBit shfExecinstrBit

/-- One turn of the loop of `findCoreSections`; the state is (`textIndex`, `symtabIndex`), `none`
for a section not found yet. -/
def coreStep (im : Image) (i : Nat) (found : Option Nat × Option Nat) :
    Option (Option Nat × Option Nat) :=
  let sec := im.shdr i
  if sec.shType != shtNobits && !hasRange im sec.shOffset sec.shSize then none
  else
    let text := if isTextHeader sec then
      (if found.1.isSome then none else some (some i)) else some found.1
    let symtab := if sec.shType == shtSymtab then
      (if found.2.isSome then none else some (some i)) else some found.2
    match text, symtab with
    | some t, some s => some (t, s)
    | _, _ => none

/-- The loop of `findCoreSections` over the first `n` sections. -/
def coreLoop (im : Image) : Nat → Option (Option Nat × Option Nat)
  | 0 => some (none, none)
  | n + 1 => (coreLoop im n).bind (coreStep im n)

/-- `findCoreSections`: sets `sectionCount`, `textIndex` and `symtabIndex`. -/
def findCoreSections (im : Image) : Option Splitter :=
  match coreLoop im im.ehdr.eShnum with
  | some (some text, some symtab) =>
    let sec := im.shdr symtab
    if sec.shEntsize != sizeofSym || decide (im.ehdr.eShnum ≤ sec.shLink) then none
    else if sec.shSize % sec.shEntsize == 0 then
      some { im with textIndex := text, symtabIndex := symtab, sectionCount := im.ehdr.eShnum }
    else none
  | _ => none

namespace Splitter

variable (sp : Splitter)

/-- `section(textIndex)`. -/
def text : Shdr := sp.shdr sp.textIndex

/-- `symtab->sh_size / symtab->sh_entsize`. -/
def symCount : Nat := (sp.shdr sp.symtabIndex).shSize / (sp.shdr sp.symtabIndex).shEntsize

/-! ## The functions of `.text` -/

/-- The symbols `collectFunctions` keeps: non-empty functions of `.text`. -/
def isFunction (s : Sym) : Bool :=
  s.stType == sttFunc && s.stShndx == sp.textIndex && s.stSize != 0

/-- The loop of `collectFunctions` over the first `n` symbols; `none` is its `return {}`. -/
def collectLoop : Nat → Option (List FunctionInfo)
  | 0 => some []
  | n + 1 => (collectLoop n).bind fun funcs =>
    let s := sp.sym n
    if !sp.isFunction s then some funcs
    else if decide (sp.text.shSize < s.stValue) ||
        decide (sp.text.shSize - s.stValue < s.stSize) then none
    else some (funcs ++ [⟨n, s.stValue, s.stSize, 0⟩])

/-- The order `std::sort` is given: by start, longest first, then by symbol. -/
def before (a b : FunctionInfo) : Bool :=
  if a.start ≠ b.start then decide (a.start < b.start)
  else if a.size ≠ b.size then decide (b.size < a.size)
  else decide (a.symIndex < b.symIndex)

/-- The second loop of `collectFunctions`, with `last` for `unique.back()`: functions that start
together become one, of the larger size. -/
def uniqueLoop : FunctionInfo → List FunctionInfo → List FunctionInfo
  | last, [] => [last]
  | last, f :: fs =>
    if last.start == f.start then uniqueLoop { last with size := max last.size f.size } fs
    else last :: uniqueLoop f fs

/-- The same loop from the empty `unique`. -/
def unique : List FunctionInfo → List FunctionInfo
  | [] => []
  | f :: fs => uniqueLoop f fs

/-- `collectFunctions`. -/
def collectFunctions : List FunctionInfo :=
  match sp.collectLoop sp.symCount with
  | none => []
  | some funcs => unique (funcs.insertionSort fun a b => !before b a)

/-- The loop of `validateFunctions`: every function ends inside `.text` and before the next. -/
def validateLoop (textSize : Nat) : List FunctionInfo → Bool
  | [] => true
  | [f] => decide (f.start + f.size ≤ textSize)
  | f :: g :: fs => decide (f.start + f.size ≤ textSize) && decide (f.start + f.size ≤ g.start) &&
      validateLoop textSize (g :: fs)

/-- `validateFunctions`. -/
def validateFunctions (funcs : List FunctionInfo) : Bool :=
  (funcs.head?.map FunctionInfo.start == some 0) && validateLoop sp.text.shSize funcs

/-- `functionForOffset`. -/
def functionForOffset (funcs : List FunctionInfo) (offset : Nat) : Nat :=
  floorIndex FunctionInfo.start funcs offset

/-! ## The relocation sections of `.text` -/

/-- `collectTextRelaSections`. -/
def collectTextRelaSections : List Nat :=
  (List.range sp.sectionCount).filter fun i =>
    (sp.shdr i).shType == shtRela && (sp.shdr i).shInfo == sp.textIndex

/-- `sh_size / sh_entsize` of a relocation section. -/
def relaCount (sec : Shdr) : Nat := sec.shSize / sec.shEntsize

/-- The record `i` of a relocation section, at `sh_offset + i * sh_entsize`. -/
def relaOffset (sec : Shdr) (i : Nat) : Nat := sec.shOffset + i * sec.shEntsize

/-- The inner loop of `validateRelocations`: the first `n` records have offsets in order. -/
def offsetsSorted (sec : Shdr) : Nat → Bool
  | 0 => true
  | 1 => true
  | n + 2 => offsetsSorted sec (n + 1) &&
      decide ((sp.rela (relaOffset sec n)).rOffset ≤ (sp.rela (relaOffset sec (n + 1))).rOffset)

/-- `validateRelocations`. -/
def validateRelocations (relocSections : List Nat) : Bool :=
  relocSections.all fun i =>
    (sp.shdr i).shEntsize == sizeofRela && (sp.shdr i).shSize % (sp.shdr i).shEntsize == 0 &&
      sp.offsetsSorted (sp.shdr i) (relaCount (sp.shdr i))

/-- The loop of `countRelocGroups` over the first `n` records: (`groups`, `lastFunc`). -/
def groupsLoop (funcs : List FunctionInfo) (sec : Shdr) : Nat → Nat × Option Nat
  | 0 => (0, none)
  | n + 1 =>
    let st := groupsLoop funcs sec n
    let func := functionForOffset funcs (sp.rela (relaOffset sec n)).rOffset
    if some func = st.2 then st else (st.1 + 1, some func)

/-- `countRelocGroups`: the groups after the first, which keeps the original header. -/
def countRelocGroups (secIndex : Nat) (funcs : List FunctionInfo) : Nat :=
  let sec := sp.shdr secIndex
  (sp.groupsLoop funcs sec (relaCount sec)).1 - 1

/-! ## The split -/

/-- A store through `section(i)`. -/
def setHeader (i : Nat) (h : Shdr) : Splitter := { sp with shdr := Function.update sp.shdr i h }

/-- A store through a pointer to the relocation record at file offset `off`. -/
def setRela (off : Nat) (r : Rela) : Splitter :=
  { sp with rela := Function.update sp.rela off r }

/-- `appendSectionHeader`; the new header's index is the old `sectionCount`. -/
def appendSectionHeader (src : Shdr) : Splitter :=
  { sp with
    shdr := Function.update sp.shdr sp.sectionCount src
    currentSize := sp.currentSize + sizeofShdr
    sectionCount := sp.sectionCount + 1 }

section Stores

variable (i off : Nat) (h : Shdr) (r : Rela)

@[simp] theorem setHeader_shdr :
    (sp.setHeader i h).shdr = Function.update sp.shdr i h := rfl
@[simp] theorem setHeader_sectionCount : (sp.setHeader i h).sectionCount = sp.sectionCount := rfl
@[simp] theorem setHeader_rela : (sp.setHeader i h).rela = sp.rela := rfl
@[simp] theorem setHeader_sym : (sp.setHeader i h).sym = sp.sym := rfl
@[simp] theorem setHeader_ehdr : (sp.setHeader i h).ehdr = sp.ehdr := rfl
@[simp] theorem setHeader_textIndex : (sp.setHeader i h).textIndex = sp.textIndex := rfl
@[simp] theorem setHeader_symtabIndex : (sp.setHeader i h).symtabIndex = sp.symtabIndex := rfl

@[simp] theorem setRela_shdr : (sp.setRela off r).shdr = sp.shdr := rfl
@[simp] theorem setRela_sectionCount : (sp.setRela off r).sectionCount = sp.sectionCount := rfl
@[simp] theorem setRela_rela :
    (sp.setRela off r).rela = Function.update sp.rela off r := rfl
@[simp] theorem setRela_sym : (sp.setRela off r).sym = sp.sym := rfl
@[simp] theorem setRela_ehdr : (sp.setRela off r).ehdr = sp.ehdr := rfl
@[simp] theorem setRela_textIndex : (sp.setRela off r).textIndex = sp.textIndex := rfl
@[simp] theorem setRela_symtabIndex : (sp.setRela off r).symtabIndex = sp.symtabIndex := rfl

@[simp] theorem appendSectionHeader_shdr :
    (sp.appendSectionHeader h).shdr = Function.update sp.shdr sp.sectionCount h := rfl
@[simp] theorem appendSectionHeader_sectionCount :
    (sp.appendSectionHeader h).sectionCount = sp.sectionCount + 1 := rfl
@[simp] theorem appendSectionHeader_rela : (sp.appendSectionHeader h).rela = sp.rela := rfl
@[simp] theorem appendSectionHeader_sym : (sp.appendSectionHeader h).sym = sp.sym := rfl
@[simp] theorem appendSectionHeader_ehdr : (sp.appendSectionHeader h).ehdr = sp.ehdr := rfl
@[simp] theorem appendSectionHeader_textIndex :
    (sp.appendSectionHeader h).textIndex = sp.textIndex := rfl
@[simp] theorem appendSectionHeader_symtabIndex :
    (sp.appendSectionHeader h).symtabIndex = sp.symtabIndex := rfl

end Stores

/-- The header of one function's text. -/
def sliceOf (originalText : Shdr) (f : FunctionInfo) : Shdr :=
  { originalText with shOffset := originalText.shOffset + f.start, shSize := f.size }

/-- The loop of `splitText`: one header for each function after the first. -/
def splitTextLoop (originalText : Shdr) : Splitter → List FunctionInfo →
    Splitter × List FunctionInfo
  | sp, [] => (sp, [])
  | sp, f :: fs =>
    let sp' := sp.appendSectionHeader (sliceOf originalText f)
    let rest := splitTextLoop originalText sp' fs
    (rest.1, { f with sectionIndex := half (sp'.sectionCount - 1) } :: rest.2)

/-- `splitText`: the first function keeps the header of `.text`. -/
def splitText : List FunctionInfo → Splitter × List FunctionInfo
  | [] => (sp, [])
  | f :: fs =>
    let rest := splitTextLoop sp.text sp fs
    (rest.1.setHeader sp.textIndex (sliceOf sp.text f),
      { f with sectionIndex := half sp.textIndex } :: rest.2)

/-- The locals of the inner loop of `splitRelocations`; `currentFunc` is `none` for `UINT32_MAX`
and `currentRela` the index of the header the pointer points at. -/
structure GroupState where
  sp : Splitter
  groupOffset : Nat
  currentFunc : Option Nat
  currentRela : Option Nat

/-- The header a group starts with. -/
def openGroup (originalRela : Shdr) (secIndex : Nat) (st : GroupState) : Splitter × Nat :=
  match st.currentRela with
  | none =>
    (st.sp.setHeader secIndex { st.sp.shdr secIndex with shSize := 0 }, secIndex)
  | some _ =>
    (st.sp.appendSectionHeader { originalRela with shOffset := st.groupOffset, shSize := 0 },
      st.sp.sectionCount)

/-- One turn of the inner loop of `splitRelocations`, on the record at `off`. -/
def groupStep (funcs : List FunctionInfo) (originalRela : Shdr) (secIndex off : Nat)
    (st : GroupState) : GroupState :=
  let rel := st.sp.rela off
  let func := functionForOffset funcs rel.rOffset
  let info := funcs.getD func ⟨0, 0, 0, 0⟩
  let opened : Splitter × Nat :=
    if some func = st.currentFunc then (st.sp, st.currentRela.getD secIndex)
    else
      let g := openGroup originalRela secIndex st
      (g.1.setHeader g.2 { g.1.shdr g.2 with shInfo := info.sectionIndex }, g.2)
  let cur := opened.2
  let sp := opened.1.setRela off { rel with rOffset := rel.rOffset - info.start }
  { sp := sp.setHeader cur
      { sp.shdr cur with shSize := (sp.shdr cur).shSize + originalRela.shEntsize }
    groupOffset := st.groupOffset + originalRela.shEntsize
    currentFunc := some func
    currentRela := some cur }

/-- The inner loop of `splitRelocations` over the first `n` records of section `secIndex`. -/
def groupLoop (funcs : List FunctionInfo) (secIndex : Nat) : Nat → GroupState
  | 0 => ⟨sp, (sp.shdr secIndex).shOffset, none, none⟩
  | n + 1 => groupStep funcs (sp.shdr secIndex) secIndex (relaOffset (sp.shdr secIndex) n)
      (groupLoop funcs secIndex n)

/-- One turn of the outer loop of `splitRelocations`. -/
def splitRelaSection (funcs : List FunctionInfo) (secIndex : Nat) : Splitter :=
  if relaCount (sp.shdr secIndex) = 0 then
    sp.setHeader secIndex
      { sp.shdr secIndex with shInfo := (funcs.getD 0 ⟨0, 0, 0, 0⟩).sectionIndex }
  else (sp.groupLoop funcs secIndex (relaCount (sp.shdr secIndex))).sp

/-- `splitRelocations`. -/
def splitRelocations (funcs : List FunctionInfo) : Splitter → List Nat → Splitter
  | sp, [] => sp
  | sp, secIndex :: rest => splitRelocations funcs (sp.splitRelaSection funcs secIndex) rest

/-- What `updateSymbols` stores for a symbol of `.text`. -/
def moveSymbol (funcs : List FunctionInfo) (s : Sym) : Sym :=
  let func := funcs.getD (functionForOffset funcs s.stValue) ⟨0, 0, 0, 0⟩
  { s with stValue := s.stValue - func.start, stShndx := func.sectionIndex }

/-- `updateSymbols`. -/
def updateSymbols (funcs : List FunctionInfo) : Splitter :=
  { sp with sym := fun i =>
      if i < sp.symCount ∧ (sp.sym i).stShndx = sp.textIndex then moveSymbol funcs (sp.sym i)
      else sp.sym i }

/-- The headers reserved before the split: `data.resize(currentSize + extraHeaders * 40)`. -/
def extraHeaders (funcs : List FunctionInfo) (relocs : List Nat) : Nat :=
  funcs.length - 1 + (relocs.map fun i => sp.countRelocGroups i funcs).sum

end Splitter

open Splitter

/-- The checks of `run` after `findCoreSections`: the functions and relocation sections to split. -/
def plan (sp : Splitter) : Option (List FunctionInfo × List Nat) :=
  let funcs := sp.collectFunctions
  let relocs := sp.collectTextRelaSections
  if decide (funcs.length ≤ 1) || !sp.validateFunctions funcs then none
  else if !relocs.isEmpty && !sp.validateRelocations relocs then none
  else if sectionTableEnd sp.toImage != sp.currentSize then none
  else some (funcs, relocs)

/-- `splitText`, `splitRelocations`, `updateSymbols` and the new `e_shnum`. -/
def split (sp : Splitter) (funcs : List FunctionInfo) (relocs : List Nat) : Image :=
  let (sp₁, funcs') := sp.splitText funcs
  let sp₂ := splitRelocations funcs' sp₁ relocs
  let sp₃ := sp₂.updateSymbols funcs'
  { sp₃.toImage with ehdr := { sp₃.ehdr with eShnum := half sp₃.sectionCount } }

/-- The checks of `run`: the sections found and what is to be split, `none` if the object is left
alone. -/
def accept (im : Image) : Option (Splitter × List FunctionInfo × List Nat) :=
  if !validateHeader im then none
  else (findCoreSections im).bind fun sp => (plan sp).map fun p => (sp, p)

/-- `run`: the image written, `none` if the object is left alone. -/
def run (im : Image) : Option Image := (accept im).map fun a => split a.1 a.2.1 a.2.2

end RvLlvm.Lld.Csgorfe
