import RvLlvm.Support.Leb128
import RvLlvm.Support.Parsing
import RvLlvm.Support.Uleb128

/-!
# Line number programs

Model of the reader of line number programs: the loop of `DWARFDebugLine::LineTable::parse` and the
registers of its state machine (`llvm/lib/DebugInfo/DWARF/DWARFDebugLine.cpp:460-486`, `538-573`,
`614-769`, `837-1207`). Operands are read as their relocations leave them. Where the reader reports
an error, the model stops. `DW_LNE_define_file`, unknown standard opcodes and the warnings about odd
prologues are left out.

* `Reads`: from one state to another by the bytes of a program.
* `Reads.trans`, `reads_append_iff`: programs in a row.
* `Reads.rows_grow`: a row once emitted stays.
-/

namespace RvLlvm.Mc.LineProgram

open RvLlvm.Support

/-! ## Instructions -/

/-- `DW_LNS_*`. -/
inductive Opcode
  | copy | advancePc | advanceLine | setFile | setColumn | negateStmt | setBasicBlock | constAddPc
  | fixedAdvancePc | setPrologueEnd | setEpilogueBegin | setIsa
  deriving DecidableEq

def Opcode.code : Opcode → Nat
  | .copy => 1
  | .advancePc => 2
  | .advanceLine => 3
  | .setFile => 4
  | .setColumn => 5
  | .negateStmt => 6
  | .setBasicBlock => 7
  | .constAddPc => 8
  | .fixedAdvancePc => 9
  | .setPrologueEnd => 10
  | .setEpilogueBegin => 11
  | .setIsa => 12

/-- The standard opcodes. -/
def standardOpcodes : List Opcode :=
  [.copy, .advancePc, .advanceLine, .setFile, .setColumn, .negateStmt, .setBasicBlock, .constAddPc,
    .fixedAdvancePc, .setPrologueEnd, .setEpilogueBegin, .setIsa]

/-- How an operand is stored. -/
inductive OperandKind
  | absent | uleb | sleb | half

def Opcode.operand : Opcode → OperandKind
  | .copy | .negateStmt | .setBasicBlock | .constAddPc | .setPrologueEnd |
    .setEpilogueBegin => .absent
  | .advancePc | .setFile | .setColumn | .setIsa => .uleb
  | .advanceLine => .sleb
  | .fixedAdvancePc => .half

/-- `DW_LNE_*`. -/
def endSequenceCode : Nat := 1
def setAddressCode : Nat := 2
def defineFileCode : Nat := 3
def setDiscriminatorCode : Nat := 4

/-- One opcode with its operand, the 64 bits of a value. -/
inductive Instruction
  | standard (opcode : Opcode) (operand : Nat)
  | special (opcode : Nat)
  | endSequence
  | setAddress (address : Nat)
  | setDiscriminator (discriminator : Nat)
  | skipped
  deriving DecidableEq

/-! ## Reading -/

/-- What the prologue tells about the program. -/
structure Prologue where
  minInstLength : Nat
  maxOpsPerInst : Nat
  defaultIsStmt : Bool
  lineBase : Int
  lineRange : Nat
  opcodeBase : Nat
  addressSize : Nat

def parseOperand : OperandKind → List Nat → Option (Nat × List Nat)
  | .absent, data => some (0, data)
  | .uleb, data => Uleb128.decode data
  | .sleb, data =>
    match Sleb128.decode data with
    | .ok p => some p
    | .error _ => none
  | .half, data =>
    if 2 ≤ data.length then some (Nat.ofDigits 256 (data.take 2), data.drop 2) else none

/-- An extended opcode from its bytes, the sub-opcode first. -/
def parseExtendedOp (addressSize : Nat) : List Nat → Option Instruction
  | [] => some .skipped
  | sub :: operands =>
    if sub = endSequenceCode then if operands = [] then some .endSequence else none
    else if sub = setAddressCode then
      if operands.length = addressSize then some (.setAddress (Nat.ofDigits 256 operands)) else none
    else if sub = defineFileCode then none
    else if sub = setDiscriminatorCode then
      match Uleb128.decode operands with
      | some (discriminator, []) => some (.setDiscriminator discriminator)
      | _ => none
    else some .skipped

/-- An extended opcode behind its zero byte: its length, and that many bytes. -/
def parseExtended (addressSize : Nat) (data : List Nat) : Option (Instruction × List Nat) :=
  match Uleb128.decode data with
  | none => none
  | some (len, rest) =>
    if len ≤ rest.length then
      (parseExtendedOp addressSize (rest.take len)).map fun i => (i, rest.drop len)
    else none

/-- One opcode with its operands. -/
def parseInstruction (P : Prologue) : List Nat → Option (Instruction × List Nat)
  | [] => none
  | byte :: data =>
    if byte = 0 then parseExtended P.addressSize data
    else if byte < P.opcodeBase then
      match standardOpcodes[byte - 1]? with
      | none => none
      | some opcode => (parseOperand opcode.operand data).map fun p => (.standard opcode p.1, p.2)
    else some (.special byte, data)

def parse (P : Prologue) (data : List Nat) : Option (List Instruction) :=
  Parsing.parseAll (parseInstruction P) data

theorem standardOpcodes_code (opcode : Opcode) :
    standardOpcodes[opcode.code - 1]? = some opcode ∧ 0 < opcode.code ∧ opcode.code < 13 := by
  cases opcode <;> decide

section Append

variable {data rest : List Nat}

theorem parseOperand_append {k : OperandKind} {v : Nat} (h : parseOperand k data = some (v, rest))
    (more : List Nat) : parseOperand k (data ++ more) = some (v, rest ++ more) := by
  cases k with
  | absent =>
    obtain ⟨rfl, rfl⟩ := Prod.mk.inj (Option.some.inj h)
    rfl
  | uleb => exact Uleb128.decode_append h more
  | sleb =>
    rw [parseOperand] at h
    split at h
    · next p hdecode =>
      obtain rfl := Option.some.inj h
      rw [parseOperand, Sleb128.decode_append hdecode]
    · exact absurd h (by simp)
  | half =>
    rw [parseOperand] at h
    split at h
    · next hle =>
      obtain ⟨rfl, rfl⟩ := Prod.mk.inj (Option.some.inj h)
      rw [parseOperand, if_pos (by rw [List.length_append]; omega),
        List.take_append_of_le_length hle,
        List.drop_append_of_le_length hle]
    · exact absurd h (by simp)

theorem parseExtended_append {addressSize : Nat} {i : Instruction}
    (h : parseExtended addressSize data = some (i, rest)) (more : List Nat) :
    parseExtended addressSize (data ++ more) = some (i, rest ++ more) := by
  rw [parseExtended] at h
  split at h
  · exact absurd h (by simp)
  · next len r hdecode =>
    split at h
    · next hle =>
      obtain ⟨j, hop, heq⟩ := Option.map_eq_some_iff.mp h
      obtain ⟨rfl, rfl⟩ := Prod.mk.inj heq
      rw [parseExtended, Uleb128.decode_append hdecode]
      simp only
      rw [if_pos (by rw [List.length_append]; omega), List.take_append_of_le_length hle,
        List.drop_append_of_le_length hle, hop]
      rfl
    · exact absurd h (by simp)

theorem looksNoFurther (P : Prologue) : Parsing.LooksNoFurther (parseInstruction P) := by
  intro data rest i h more
  cases data with
  | nil => exact absurd h (by simp [parseInstruction])
  | cons byte data =>
    rw [parseInstruction] at h
    rw [List.cons_append, parseInstruction]
    split at h
    · next hzero =>
      rw [if_pos hzero]
      exact parseExtended_append h more
    · next hzero =>
      rw [if_neg hzero]
      split at h
      · next hlt =>
        rw [if_pos hlt]
        split at h
        · exact absurd h (by simp)
        · next opcode hopcode =>
          obtain ⟨⟨v, r⟩, hoperand, heq⟩ := Option.map_eq_some_iff.mp h
          obtain ⟨rfl, rfl⟩ := Prod.mk.inj heq
          rw [parseOperand_append hoperand]
          rfl
      · next hlt =>
        obtain ⟨rfl, rfl⟩ := Prod.mk.inj (Option.some.inj h)
        rw [if_neg hlt]

end Append

/-! ## The state machine -/

/-- `DWARFDebugLine::Row`. -/
structure Row where
  address : Nat
  line : Nat
  column : Nat
  file : Nat
  discriminator : Nat
  isa : Nat
  opIndex : Nat
  isStmt : Bool
  basicBlock : Bool
  endSequence : Bool
  prologueEnd : Bool
  epilogueBegin : Bool
  deriving DecidableEq

/-- `Row::reset`. -/
def Row.reset (defaultIsStmt : Bool) : Row where
  address := 0
  line := 1
  column := 0
  file := 1
  discriminator := 0
  isa := 0
  opIndex := 0
  isStmt := defaultIsStmt
  basicBlock := false
  endSequence := false
  prologueEnd := false
  epilogueBegin := false

/-- `Row::postAppend`. -/
def Row.postAppend (r : Row) : Row :=
  { r with discriminator := 0, basicBlock := false, prologueEnd := false, epilogueBegin := false }

/-- The registers, whether a sequence is open, whether its address marks dead code, and the rows. -/
structure ParsingState where
  row : Row
  sequenceEmpty : Bool
  tombstonedAddress : Bool
  rows : List Row

variable (P : Prologue)

/-- The state before a program. -/
def start : ParsingState := ⟨.reset P.defaultIsStmt, true, false, []⟩

/-- `ParsingState::advanceAddrOpIndex`. -/
def advanceAddrOpIndex (operationAdvance : Nat) (r : Row) : Row :=
  let maxOpsPerInst := max P.maxOpsPerInst 1
  let ops := (r.opIndex + operationAdvance) % 2 ^ 64
  { r with
    address := (r.address + ops / maxOpsPerInst * P.minInstLength) % 2 ^ 64
    opIndex := ops % maxOpsPerInst }

/-- An opcode behind the opcode base, in its byte. -/
def adjustedOpcode (opcode : Nat) : Nat := (opcode + (256 - P.opcodeBase)) % 256

/-- `ParsingState::advanceForOpcode`; `DW_LNS_const_add_pc` goes as far as the opcode 255. -/
def advanceForOpcode (opcode : Nat) (r : Row) : Row :=
  let opcodeValue := if opcode = Opcode.constAddPc.code then 255 else opcode
  advanceAddrOpIndex P
    (if P.lineRange = 0 then 0 else adjustedOpcode P opcodeValue / P.lineRange) r

/-- A step of the line register. -/
def addLine (line : Nat) (delta : Int) : Nat := ((line + delta) % 2 ^ 32).toNat

/-- `ParsingState::handleSpecialOpcode`. -/
def handleSpecialOpcode (opcode : Nat) (r : Row) : Row :=
  let lineOffset : Int :=
    if P.lineRange = 0 then 0 else P.lineBase + (adjustedOpcode P opcode % P.lineRange : Nat)
  { advanceForOpcode P opcode r with line := addLine r.line lineOffset }

namespace ParsingState

def withRow (s : ParsingState) (r : Row) : ParsingState := { s with row := r }

/-- `resetRowAndSequence`. -/
def resetRowAndSequence (s : ParsingState) : ParsingState :=
  { s with row := .reset P.defaultIsStmt, sequenceEmpty := true }

/-- `appendRowToMatrix`. -/
def appendRowToMatrix (s : ParsingState) : ParsingState :=
  { s with row := s.row.postAppend, sequenceEmpty := s.row.endSequence, rows := s.rows ++ [s.row] }

/-- `EmitRow`: rows of dead code are left out. -/
def emitRow (s : ParsingState) : ParsingState :=
  if s.tombstonedAddress then s else s.appendRowToMatrix

end ParsingState

/-- What one opcode does to the registers, or to the rows. -/
def step (s : ParsingState) : Instruction → ParsingState
  | .standard .copy _ => s.emitRow
  | .standard .advancePc v => s.withRow (advanceAddrOpIndex P v s.row)
  | .standard .advanceLine v => s.withRow { s.row with line := (s.row.line + v) % 2 ^ 32 }
  | .standard .setFile v => s.withRow { s.row with file := v % 2 ^ 16 }
  | .standard .setColumn v => s.withRow { s.row with column := v % 2 ^ 16 }
  | .standard .negateStmt _ => s.withRow { s.row with isStmt := !s.row.isStmt }
  | .standard .setBasicBlock _ => s.withRow { s.row with basicBlock := true }
  | .standard .constAddPc _ => s.withRow (advanceForOpcode P Opcode.constAddPc.code s.row)
  | .standard .fixedAdvancePc v =>
    s.withRow { s.row with address := (s.row.address + v) % 2 ^ 64, opIndex := 0 }
  | .standard .setPrologueEnd _ => s.withRow { s.row with prologueEnd := true }
  | .standard .setEpilogueBegin _ => s.withRow { s.row with epilogueBegin := true }
  | .standard .setIsa v => s.withRow { s.row with isa := v % 2 ^ 8 }
  | .special opcode => (s.withRow (handleSpecialOpcode P opcode s.row)).emitRow
  | .endSequence => (s.withRow { s.row with endSequence := true }).emitRow.resetRowAndSequence P
  | .setAddress address =>
    { s with
      row := { s.row with address := address, opIndex := 0 }
      tombstonedAddress := address == 2 ^ (8 * P.addressSize) - 1 }
  | .setDiscriminator v => s.withRow { s.row with discriminator := v % 2 ^ 32 }
  | .skipped => s

/-- The program takes the reader from one state to another. -/
def Reads (s : ParsingState) (data : List Nat) (s' : ParsingState) : Prop :=
  ∃ is, parse P data = some is ∧ is.foldl (step P) s = s'

section Runs

variable {P} {s s' s'' : ParsingState} {data more : List Nat}

theorem Reads.nil : Reads P s [] s := ⟨[], rfl, rfl⟩

theorem Reads.trans (h : Reads P s data s') (h' : Reads P s' more s'') :
    Reads P s (data ++ more) s'' := by
  obtain ⟨is, hparse, rfl⟩ := h
  obtain ⟨js, hparse', rfl⟩ := h'
  exact ⟨is ++ js, Parsing.parseAll_append (looksNoFurther P) hparse hparse', List.foldl_append⟩

/-- Where the second program can be read, the first one only leads up to it. -/
theorem reads_append_iff (h : Reads P s data s') (hmore : ∃ js, parse P more = some js) :
    Reads P s (data ++ more) s'' ↔ Reads P s' more s'' := by
  obtain ⟨is, hparse, rfl⟩ := h
  obtain ⟨js, hjs⟩ := hmore
  have hboth : parse P (data ++ more) = some (is ++ js) :=
    Parsing.parseAll_append (looksNoFurther P) hparse hjs
  constructor
  · rintro ⟨ks, hks, rfl⟩
    obtain rfl := Option.some.inj (hboth.symm.trans hks)
    exact ⟨js, hjs, List.foldl_append.symm⟩
  · exact fun h' => Reads.trans ⟨is, hparse, rfl⟩ h'

/-- One opcode. -/
theorem Reads.single {i : Instruction} (h : parseInstruction P data = some (i, [])) :
    Reads P s data (step P s i) :=
  ⟨[i], Parsing.parseAll_single rfl h, rfl⟩

theorem emitRow_rows_grow (s : ParsingState) : s.rows <+: s.emitRow.rows := by
  rw [ParsingState.emitRow]
  split
  · exact List.prefix_rfl
  · exact List.prefix_append _ _

theorem step_rows_grow (s : ParsingState) (i : Instruction) : s.rows <+: (step P s i).rows := by
  cases i with
  | standard opcode v =>
    cases opcode with
    | copy => exact emitRow_rows_grow s
    | _ => exact List.prefix_rfl
  | special opcode => exact emitRow_rows_grow (s.withRow (handleSpecialOpcode P opcode s.row))
  | endSequence => exact emitRow_rows_grow (s.withRow { s.row with endSequence := true })
  | _ => exact List.prefix_rfl

/-- A row once emitted stays. -/
theorem Reads.rows_grow (h : Reads P s data s') : s.rows <+: s'.rows := by
  obtain ⟨is, -, rfl⟩ := h
  induction is generalizing s with
  | nil => exact List.prefix_rfl
  | cons i is ih => exact (step_rows_grow s i).trans ih

end Runs

/-! ## Writing single opcodes -/

section Opcodes

variable {P} {s : ParsingState}

theorem reads_standard (hbase : 13 ≤ P.opcodeBase) (opcode : Opcode) {operand : List Nat} {v : Nat}
    (h : parseOperand opcode.operand operand = some (v, [])) :
    Reads P s (opcode.code :: operand) (step P s (.standard opcode v)) := by
  obtain ⟨hget, hpos, hlt⟩ := standardOpcodes_code opcode
  refine .single ?_
  rw [parseInstruction, if_neg (by omega), if_pos (by omega), hget]
  simp only
  rw [h]
  rfl

theorem reads_uleb (hbase : 13 ≤ P.opcodeBase) {opcode : Opcode}
    (hkind : opcode.operand = .uleb) {v : Nat}
    (hv : v < 2 ^ 64) :
    Reads P s (opcode.code :: Uleb128.encode v) (step P s (.standard opcode v)) := by
  refine reads_standard hbase opcode ?_
  have hread := Uleb128.decode_encode hv []
  rw [List.append_nil] at hread
  rw [hkind, parseOperand, hread]

theorem reads_absent (hbase : 13 ≤ P.opcodeBase) {opcode : Opcode}
    (hkind : opcode.operand = .absent) :
    Reads P s [opcode.code] (step P s (.standard opcode 0)) :=
  reads_standard hbase opcode (by rw [hkind]; rfl)

theorem reads_advanceLine (hbase : 13 ≤ P.opcodeBase) (delta : Int) :
    Reads P s (Opcode.advanceLine.code :: Sleb128.encode delta)
      (s.withRow { s.row with line := addLine s.row.line delta }) := by
  have hread := Sleb128.decode_encode delta []
  rw [List.append_nil] at hread
  have hline : (s.row.line + cell 64 delta) % 2 ^ 32 = addLine s.row.line delta := by
    rw [addLine, cell]
    omega
  rw [← hline]
  refine reads_standard hbase .advanceLine ?_
  rw [Opcode.operand, parseOperand, hread]

theorem reads_fixedAdvancePc (hbase : 13 ≤ P.opcodeBase) {v : Nat} (hv : v < 2 ^ 16) :
    Reads P s (Opcode.fixedAdvancePc.code :: Parsing.littleEndian 2 v)
      (step P s (.standard .fixedAdvancePc v)) := by
  refine reads_standard hbase .fixedAdvancePc ?_
  have hlen : (Parsing.littleEndian 2 v).length = 2 := Parsing.length_littleEndian 2 v
  rw [Opcode.operand, parseOperand, if_pos hlen.ge, List.take_of_length_le hlen.le,
    List.drop_of_length_le hlen.le, Parsing.ofDigits_littleEndian,
      Nat.mod_eq_of_lt (by simpa using hv)]

/-- An extended opcode with its length. -/
theorem reads_extended {op : List Nat} {i : Instruction} (hlen : op.length < 2 ^ 64)
    (h : parseExtendedOp P.addressSize op = some i) :
    Reads P s (0 :: Uleb128.encode op.length ++ op) (step P s i) := by
  refine .single ?_
  rw [List.cons_append, parseInstruction, if_pos rfl, parseExtended, Uleb128.decode_encode hlen]
  simp only
  rw [if_pos le_rfl, List.take_of_length_le le_rfl, List.drop_of_length_le le_rfl, h]
  rfl

theorem reads_setAddress (hsize : P.addressSize < 2 ^ 63) (v : Nat) :
    Reads P s (0 :: Uleb128.encode (P.addressSize + 1) ++
        setAddressCode :: Parsing.littleEndian P.addressSize v)
      (step P s (.setAddress (v % 256 ^ P.addressSize))) := by
  have hlen : (setAddressCode :: Parsing.littleEndian P.addressSize v).length =
    P.addressSize + 1 := by
    rw [List.length_cons, Parsing.length_littleEndian]
  rw [← hlen]
  refine reads_extended (by omega) ?_
  rw [parseExtendedOp, if_neg (by decide), if_pos rfl, if_pos (Parsing.length_littleEndian _ _),
    Parsing.ofDigits_littleEndian]

theorem reads_endSequence : Reads P s [0, 1, endSequenceCode] (step P s .endSequence) :=
  .single rfl

theorem reads_setDiscriminator {v : Nat} (hv : v < 2 ^ 64)
    (hlen : (Uleb128.encode v).length < 2 ^ 63) :
    Reads P s (0 :: Uleb128.encode ((Uleb128.encode v).length + 1) ++
      setDiscriminatorCode :: Uleb128.encode v) (step P s (.setDiscriminator v)) := by
  rw [← List.length_cons (a := setDiscriminatorCode)]
  refine reads_extended (by rw [List.length_cons]; omega) ?_
  have hread := Uleb128.decode_encode hv []
  rw [List.append_nil] at hread
  rw [parseExtendedOp, if_neg (by decide), if_neg (by decide), if_neg (by decide),
    if_pos rfl, hread]

theorem reads_special {opcode : Nat} (hlo : P.opcodeBase ≤ opcode) (hpos : 0 < opcode) :
    Reads P s [opcode] (step P s (.special opcode)) := by
  refine .single ?_
  rw [parseInstruction, if_neg (by omega), if_neg (by omega)]

end Opcodes

end RvLlvm.Mc.LineProgram
