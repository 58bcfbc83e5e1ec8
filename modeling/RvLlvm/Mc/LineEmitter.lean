import RvLlvm.Mc.LineProgram

/-!
# The line table of a section

Model of the writer of line number programs: `MCDwarfLineTable::emitOne`
(`llvm/lib/MC/MCDwarf.cpp:169-254`), `MCDwarfLineAddr::encode` (`683-769`),
`emitDwarfAdvanceLineAddr` and `emitDwarfLineEndEntry` (`llvm/lib/MC/MCObjectStreamer.cpp:528-571`)
and the RISC-V `relaxDwarfLineAddr`
(`llvm/lib/Target/RISCV/MCTargetDesc/RISCVAsmBackend.cpp:216-280`). A label is the address it gets,
and a pair of fixups is the difference they leave. Instructions are aligned to a byte, as for each target here.

* `emitOne_roundTrips_iff`: which line entries are read back, each sequence closed.
-/

namespace RvLlvm.Mc.LineEmitter

open RvLlvm.Support RvLlvm.Mc.LineProgram

/-! ## Entries -/

/-- `MCDwarfLineEntry`, the location with the label of its address. -/
structure MCDwarfLineEntry where
  label : Nat
  isEndEntry : Bool
  fileNum : Nat
  line : Nat
  column : Nat
  flags : BitVec 8
  isa : Nat
  discriminator : Nat

/-- `DWARF2_FLAG_*`. -/
def flagIsStmt : BitVec 8 := 1
def flagBasicBlock : BitVec 8 := 2
def flagPrologueEnd : BitVec 8 := 4
def flagEpilogueBegin : BitVec 8 := 8

/-- `flags & flag`. -/
def hasFlag (flags flag : BitVec 8) : Bool := flags &&& flag != 0

/-- The entry has the values that the reader's fields hold. -/
structure MCDwarfLineEntry.Fits (e : MCDwarfLineEntry) : Prop where
  fileNum_lt : e.fileNum < 2 ^ 16
  line_lt : e.line < 2 ^ 32
  column_lt : e.column < 2 ^ 16
  isa_lt : e.isa < 2 ^ 8
  discriminator_lt : e.discriminator < 2 ^ 32

/-- `MCDwarfLineTableParams`: special opcodes start behind the standard ones, and one of them leaves
the line as it is. -/
structure MCDwarfLineTableParams where
  opcodeBase : Nat
  lineBase : Int
  lineRange : Nat
  standard_lt : 13 ≤ opcodeBase
  opcodeBase_le : opcodeBase ≤ 255
  lineBase_le : lineBase ≤ 0
  zero_lt : 0 < lineBase + lineRange
  lineRange_le : lineRange ≤ 255

/-- The context that the writer works in; `relaxes` tells whether the backend's `relaxDwarfLineAddr`
encodes the advance from one address to another. -/
structure Target where
  params : MCDwarfLineTableParams
  dwarfVersion : Nat
  pointerSize : Nat
  pointerSize_eq : pointerSize = 4 ∨ pointerSize = 8
  relaxes : Nat → Nat → Bool

theorem eight_pointerSize : 8 = 4 ∨ 8 = 8 := Or.inr rfl

/-- The prologue that goes with the program. -/
def Target.prologue (T : Target) : Prologue where
  minInstLength := 1
  maxOpsPerInst := if 4 ≤ T.dwarfVersion then 1 else 0
  defaultIsStmt := true
  lineBase := T.params.lineBase
  lineRange := T.params.lineRange
  opcodeBase := T.params.opcodeBase
  addressSize := T.pointerSize

/-! ## Advances -/

/-- `INT64_MAX`, which stands for the end of a sequence. -/
def endSequenceDelta : Int := 2 ^ 63 - 1

/-- `MaxSpecialAddrDelta`. -/
def MCDwarfLineTableParams.maxSpecialAddrDelta (P : MCDwarfLineTableParams) : Nat :=
  (255 - P.opcodeBase) / P.lineRange

/-- The second half of `encode`: the advance of the address, and the row. -/
def encodeRow (P : MCDwarfLineTableParams) (needCopy : Bool) (lineDelta : Int)
    (temp addrDelta : Nat) :
    List Nat :=
  if lineDelta = 0 ∧ addrDelta = 0 then [Opcode.copy.code]
  else
    let temp := (temp + P.opcodeBase) % 2 ^ 64
    let near := (temp + addrDelta * P.lineRange) % 2 ^ 64
    let far := (temp + cell 64 (addrDelta - P.maxSpecialAddrDelta) * P.lineRange) % 2 ^ 64
    if addrDelta < 256 + P.maxSpecialAddrDelta ∧ near ≤ 255 then [near]
    else if addrDelta < 256 + P.maxSpecialAddrDelta ∧ far ≤ 255 then [Opcode.constAddPc.code, far]
    else Opcode.advancePc.code :: Uleb128.encode addrDelta ++
      [if needCopy then Opcode.copy.code else temp]

/-- `MCDwarfLineAddr::encode`. -/
def encode (P : MCDwarfLineTableParams) (lineDelta : Int) (addrDelta : Nat) : List Nat :=
  if lineDelta = endSequenceDelta then
    (if addrDelta = P.maxSpecialAddrDelta then [Opcode.constAddPc.code]
      else if addrDelta ≠ 0 then Opcode.advancePc.code :: Uleb128.encode addrDelta
      else []) ++ [0, 1, endSequenceCode]
  else
    let temp := cell 64 (lineDelta - P.lineBase)
    if P.lineRange ≤ temp ∨ 255 < (temp + P.opcodeBase) % 2 ^ 64 then
      Opcode.advanceLine.code :: Sleb128.encode lineDelta ++
        encodeRow P true 0 (cell 64 (-P.lineBase)) addrDelta
    else encodeRow P false lineDelta temp addrDelta

/-- `RISCVAsmBackend::relaxDwarfLineAddr`: both forms get the difference of the two labels. -/
def relaxDwarfLineAddr (pointerSize : Nat) (lineDelta : Int) (lhs rhs : Nat) : List Nat :=
  let value := ((lhs : Int) - rhs).bmod (2 ^ 64)
  (if lineDelta = endSequenceDelta then []
    else Opcode.advanceLine.code :: Sleb128.encode lineDelta) ++
  (if 60000 < value then
      0 :: Uleb128.encode (pointerSize + 1) ++ setAddressCode ::
        Parsing.littleEndian pointerSize (cell (8 * pointerSize) (lhs - rhs))
    else Opcode.fixedAdvancePc.code :: Parsing.littleEndian 2 (cell 16 (lhs - rhs))) ++
  (if lineDelta = endSequenceDelta then [0, 1, endSequenceCode] else [Opcode.copy.code])

section Emit

variable (T : Target)

/-- `emitDwarfAdvanceLineAddr`, with `emitDwarfSetLineAddr` where there is no label before. -/
def emitDwarfAdvanceLineAddr (lineDelta : Int) (lastLabel : Option Nat) (label : Nat) : List Nat :=
  match lastLabel with
  | none =>
    (0 :: Uleb128.encode (T.pointerSize + 1) ++
      setAddressCode :: Parsing.littleEndian T.pointerSize label) ++ encode T.params lineDelta 0
  | some last =>
    if T.relaxes last label then relaxDwarfLineAddr T.pointerSize lineDelta label last
    else encode T.params lineDelta (cell 64 (label - last))

/-! ## The loop over the entries -/

/-- What `emitOne` knows of the reader's registers. -/
structure Registers where
  fileNum : Nat
  lastLine : Nat
  column : Nat
  flags : BitVec 8
  isa : Nat
  discriminator : Nat
  lastLabel : Option Nat

/-- `init` of `emitOne`. -/
def init : Registers := ⟨1, 1, 0, flagIsStmt, 0, 0, none⟩

/-- The opcodes before the advance of an entry. -/
def emitRegisters (R : Registers) (e : MCDwarfLineEntry) : List Nat :=
  (if R.fileNum ≠ e.fileNum then Opcode.setFile.code :: Uleb128.encode e.fileNum else []) ++
  (if R.column ≠ e.column then Opcode.setColumn.code :: Uleb128.encode e.column else []) ++
  (if R.discriminator ≠ e.discriminator ∧ 4 ≤ T.dwarfVersion then
      0 :: Uleb128.encode ((Uleb128.encode e.discriminator).length + 1) ++
        setDiscriminatorCode :: Uleb128.encode e.discriminator
    else []) ++
  (if R.isa ≠ e.isa then Opcode.setIsa.code :: Uleb128.encode e.isa else []) ++
  (if hasFlag (e.flags ^^^ R.flags) flagIsStmt = true then [Opcode.negateStmt.code] else []) ++
  (if hasFlag e.flags flagBasicBlock = true then [Opcode.setBasicBlock.code] else []) ++
  (if hasFlag e.flags flagPrologueEnd = true then [Opcode.setPrologueEnd.code] else []) ++
  (if hasFlag e.flags flagEpilogueBegin = true then [Opcode.setEpilogueBegin.code] else [])

/-- The registers behind an entry. -/
def Registers.next (R : Registers) (e : MCDwarfLineEntry) : Registers where
  fileNum := e.fileNum
  lastLine := e.line
  column := e.column
  flags := if hasFlag (e.flags ^^^ R.flags) flagIsStmt = true then e.flags else R.flags
  isa := e.isa
  discriminator := 0
  lastLabel := some e.label

/-- The loop of `emitOne`, and what follows it. -/
def emitEntries (sectionEnd : Nat) (R : Registers) (endEntryEmitted : Bool) :
    List MCDwarfLineEntry → List Nat
  | [] =>
    if endEntryEmitted then []
    else emitDwarfAdvanceLineAddr T endSequenceDelta R.lastLabel sectionEnd
  | e :: rest =>
    if e.isEndEntry then
      emitDwarfAdvanceLineAddr T endSequenceDelta R.lastLabel e.label ++
        emitEntries sectionEnd init true rest
    else
      (emitRegisters T R e ++
        emitDwarfAdvanceLineAddr T ((e.line : Int) - R.lastLine) R.lastLabel e.label) ++
        emitEntries sectionEnd (R.next e) endEntryEmitted rest

/-- `MCDwarfLineTable::emitOne`, up to the label `sectionEnd` of the section's end. -/
def emitOne (sectionEnd : Nat) (entries : List MCDwarfLineEntry) : List Nat :=
  emitEntries T sectionEnd init false entries

end Emit

/-! ## What the entries mean -/

/-- The row of an entry; discriminators are from version 4 of the format on. -/
def rowOf (dwarfVersion : Nat) (e : MCDwarfLineEntry) : Row where
  address := e.label
  line := e.line
  column := e.column
  file := e.fileNum
  discriminator := if 4 ≤ dwarfVersion then e.discriminator else 0
  isa := e.isa
  opIndex := 0
  isStmt := hasFlag e.flags flagIsStmt
  basicBlock := hasFlag e.flags flagBasicBlock
  endSequence := false
  prologueEnd := hasFlag e.flags flagPrologueEnd
  epilogueBegin := hasFlag e.flags flagEpilogueBegin

/-- The row that closes a sequence at an address. -/
def closingRow (before : Row) (address : Nat) : Row :=
  { before with address := address, endSequence := true }

/-- The rows of entries, one for each, and a closing one where the last sequence is still open at
the end of the section; `before` is what the row before has left. -/
def denote (dwarfVersion sectionEnd : Nat) (before : Row) (closed : Bool) :
    List MCDwarfLineEntry → List Row
  | [] => if closed then [] else [closingRow before sectionEnd]
  | e :: rest =>
    if e.isEndEntry then
      closingRow before e.label :: denote dwarfVersion sectionEnd (.reset true) true rest
    else
      rowOf dwarfVersion e :: denote dwarfVersion sectionEnd
        (rowOf dwarfVersion e).postAppend false rest

/-- **The line table is read back**: one row for each entry, and each sequence closed. -/
def RoundTrips (T : Target) (sectionEnd : Nat) (entries : List MCDwarfLineEntry) : Prop :=
  ∃ s, Reads T.prologue (start T.prologue) (emitOne T sectionEnd entries) s ∧
    s.sequenceEmpty = true ∧
    s.rows = denote T.dwarfVersion sectionEnd (.reset true) false entries

/-- An advance ends where it should: `relaxDwarfLineAddr` goes 60000 bytes at most, or starts at
0. -/
def Reaches (T : Target) (last label : Nat) : Prop :=
  T.relaxes last label = true → label - last ≤ 60000 ∨ (last = 0 ∧ label < 2 ^ 63)

/-- The label behind an entry. -/
def following (sectionEnd : Nat) : List MCDwarfLineEntry → Nat
  | [] => sectionEnd
  | e :: _ => e.label

/-- The advances within the sequences, from one label to the next. -/
def advances (sectionEnd : Nat) : List MCDwarfLineEntry → List (Nat × Nat)
  | [] => []
  | e :: rest =>
    if e.isEndEntry then advances sectionEnd rest
    else (e.label, following sectionEnd rest) :: advances sectionEnd rest

/-- Where there are end entries, the last entry is one. -/
def LastCloses (entries : List MCDwarfLineEntry) : Prop :=
  (∃ e ∈ entries, e.isEndEntry = true) → ∃ e, entries.getLast? = some e ∧ e.isEndEntry = true

/-- The entries of a section: values that fit, and addresses that do not decrease, below the one
that marks dead code. -/
structure IsSection (T : Target) (sectionEnd : Nat) (entries : List MCDwarfLineEntry) : Prop where
  fits : ∀ e ∈ entries, e.Fits
  ordered : entries.Pairwise fun x y => x.label ≤ y.label
  label_le : ∀ e ∈ entries, e.label ≤ sectionEnd
  end_lt : sectionEnd < 2 ^ (8 * T.pointerSize) - 1

end RvLlvm.Mc.LineEmitter
