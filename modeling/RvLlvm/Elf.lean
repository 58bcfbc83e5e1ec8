import RvLlvm.Support.BitField

/-!
# The ELF32 records the linker and the rewriter edit

`Elf32_Ehdr`, `Elf32_Shdr`, `Elf32_Sym`, `Elf32_Rela` and `Elf32_Phdr`
(`llvm/include/llvm/BinaryFormat/ELF.h`) with the fields the modelled code reads or writes.
A half word or word is a `Nat`; where a store truncates, the model says so (`Support.half`,
`Support.word`).
Addends are signed.
-/

namespace RvLlvm.Elf

/-! ## Constants -/

/-- `ET_REL`: a relocatable object. -/
def etRel : Nat := 1
/-- `EM_RISCV`. -/
def emRiscv : Nat := 243
/-- `ELFCLASS32`. -/
def elfClass32 : Nat := 1
/-- `ELFDATA2LSB`. -/
def elfData2Lsb : Nat := 1

def shtNull : Nat := 0
def shtProgbits : Nat := 1
def shtSymtab : Nat := 2
def shtRela : Nat := 4
def shtNobits : Nat := 8

/-- `SHF_WRITE`, bit 0. -/
def shfWriteBit : Nat := 0
/-- `SHF_ALLOC`, bit 1. -/
def shfAllocBit : Nat := 1
/-- `SHF_EXECINSTR`, bit 2. -/
def shfExecinstrBit : Nat := 2
/-- `SHF_TLS`, bit 10. -/
def shfTlsBit : Nat := 10

/-- `STT_FUNC`. -/
def sttFunc : Nat := 2

/-- `SHN_LORESERVE`: from here on a section index is not an index. -/
def shnLoreserve : Nat := 0xff00

/-! ## Records -/

/-- `Elf32_Ehdr`. -/
structure Ehdr where
  eIdent : List Nat
  eType : Nat
  eMachine : Nat
  eShoff : Nat
  eShentsize : Nat
  eShnum : Nat
  deriving DecidableEq

/-- `Elf32_Ehdr::checkMagic`. -/
def Ehdr.checkMagic (h : Ehdr) : Bool := h.eIdent.take 4 == [0x7f, 0x45, 0x4c, 0x46]

/-- `e_ident[EI_CLASS]`. -/
def Ehdr.eiClass (h : Ehdr) : Nat := h.eIdent.getD 4 0

/-- `e_ident[EI_DATA]`. -/
def Ehdr.eiData (h : Ehdr) : Nat := h.eIdent.getD 5 0

/-- `Elf32_Shdr`. -/
structure Shdr where
  shName : Nat
  shType : Nat
  shFlags : Nat
  shAddr : Nat
  shOffset : Nat
  shSize : Nat
  shLink : Nat
  shInfo : Nat
  shAddralign : Nat
  shEntsize : Nat
  deriving DecidableEq

/-- `Elf32_Sym`: `stType` is `getType()`, the low half of `st_info`. -/
structure Sym where
  stValue : Nat
  stSize : Nat
  stType : Nat
  stShndx : Nat
  deriving DecidableEq

/-- `Elf32_Rela`: `rSym` and `rType` are the two halves of `r_info`. -/
structure Rela where
  rOffset : Nat
  rSym : Nat
  rType : Nat
  rAddend : Int
  deriving DecidableEq

/-- `sizeof(Elf32_Ehdr)`. -/
def sizeofEhdr : Nat := 52
/-- `sizeof(Elf32_Shdr)`. -/
def sizeofShdr : Nat := 40
/-- `sizeof(Elf32_Sym)`. -/
def sizeofSym : Nat := 16
/-- `sizeof(Elf32_Rela)`. -/
def sizeofRela : Nat := 12

end RvLlvm.Elf
