import Mathlib.Logic.Function.Basic
import RvLlvm.Support.Rv

/-!
# The linker's sections and symbols

What the address-dependent passes of the RISC-V linker read and write: input and output sections,
defined symbols, linker script expressions (`InputSection.h`, `OutputSections.h`, `Symbols.h`,
`LinkerScript.h`).

* `Link` is what no pass changes: contents, relocations, the script, options.
* `State` is what the passes change: addresses, symbol values, relaxation data, the placement of
  `__global_pointer$`.
* Addresses are integers. A 64-bit unsigned sum is compared after `Int.bmod`, so a wrap is seen
  where the code would see it.
* An error that the script raises only ends the link later. The model goes on, so it has every run
  the linker completes.
-/

namespace RvLlvm.Lld

open RvLlvm.Support

/-- Input sections, output sections, symbols and memory regions are named by number. -/
abbrev SecId := Nat
abbrev OutId := Nat
abbrev SymId := Nat
abbrev RegionId := Nat

/-! ## Relocations and input sections -/

/-- The relocation types that relaxation looks at or produces; `gprelI` and `gprelS` are
`INTERNAL_R_RISCV_GPREL_I/S`. -/
inductive RelType
  | none | abs32 | hi20 | lo12I | lo12S | call | callPlt | tprelHi20 | tprelAdd | tprelLo12I
  | tprelLo12S | align | relax | rvcJump | jal | gprelI | gprelS | other (n : Nat)
  deriving DecidableEq

/-- `Relocation`; `pltPc` is `expr == R_PLT_PC`. -/
structure Relocation where
  type : RelType
  offset : Nat
  sym : SymId
  addend : Int
  pltPc : Bool
  deriving DecidableEq

/-- `InputSection`: `word off` is the little-endian word of the contents at `off`. -/
structure InputSection where
  relocs : List Relocation
  word : Nat → Nat
  size : Nat
  addralign : Nat
  parent : OutId
  live : Bool

/-! ## Values of symbols and expressions -/

/-- The section a value is relative to. -/
inductive Place
  | absolute
  | output (o : OutId)
  | input (s : SecId)
  deriving DecidableEq

/-- A section and an offset in it: `Defined::section` and `value`, or an `ExprValue`. -/
structure Value where
  place : Place
  offset : Int
  deriving DecidableEq

/-- What a script expression can read. -/
inductive Ref
  | dot
  | sym (d : SymId)
  | addr (o : OutId)
  | size (o : OutId)
  deriving DecidableEq

/-- A script expression, `Expr` of `LinkerScript.h`: a closure over what it reads. The value it
returns is relative to the section of something it reads, or absolute. -/
structure Expr where
  reads : List Ref
  eval : (Ref → Value × Int) → Value
  reads_only : ∀ v w : Ref → Value × Int, (∀ r ∈ reads, v r = w r) → eval v = eval w
  place_read : ∀ v, (eval v).place = Place.absolute ∨ ∃ r ∈ reads, (v r).1.place = (eval v).place

namespace Expr

/-- A number. -/
def num (n : Int) : Expr where
  reads := []
  eval := fun _ => ⟨.absolute, n⟩
  reads_only := fun _ _ _ => rfl
  place_read := fun _ => Or.inl rfl

/-- A symbol. -/
def sym (d : SymId) : Expr where
  reads := [.sym d]
  eval := fun v => (v (.sym d)).1
  reads_only := fun v w h => by rw [h _ List.mem_cons_self]
  place_read := fun _ => Or.inr ⟨_, List.mem_cons_self, rfl⟩

/-- The absolute sum of a number and the address of a symbol. -/
def addSym (n : Int) (d : SymId) : Expr where
  reads := [.sym d]
  eval := fun v => ⟨.absolute, n + (v (.sym d)).2⟩
  reads_only := fun v w h => by rw [h _ List.mem_cons_self]
  place_read := fun _ => Or.inl rfl

end Expr

/-! ## Output sections and the script -/

/-- The output section names `isRISCVGPDataSection` knows. -/
inductive OutName
  | data | sdata | sbss | bss
  | other (name : String)
  deriving DecidableEq

/-- A command inside an output section description. -/
inductive SubCommand
  | assign (d : SymId) (e : Expr)
  | setDot (e : Expr)
  | byte (size : Nat)
  | inputs (ss : List SecId)

/-- `OutputSection`. -/
structure OutputSection where
  name : OutName
  alloc : Bool
  exec : Bool
  tls : Bool
  nobits : Bool
  addralign : Nat
  addrExpr : Option Expr
  hasLmaExpr : Bool
  memRegion : Option RegionId
  lmaRegion : Option RegionId
  commands : List SubCommand

/-- A section command of the script; a `PROVIDE` that defines nothing is left out. -/
inductive Command
  | assign (d : SymId) (e : Expr)
  | setDot (e : Expr)
  | section (o : OutId)

/-- `SymbolAnchor`. -/
structure Anchor where
  offset : Int
  sym : SymId
  atEnd : Bool
  deriving DecidableEq

/-- What the passes change. `gp` is `ElfSym::riscvGlobalPointer`, `none` when the link does not
define it. -/
structure State where
  addr : OutId → Int
  outSize : OutId → Int
  secOff : SecId → Int
  sym : SymId → Value
  symSize : SymId → Int
  anchors : SecId → List Anchor
  deltas : SecId → List Nat
  types : SecId → List RelType
  writes : SecId → List Nat
  dropped : SecId → Nat
  packed : SecId → Nat
  gp : Option Value

/-- What the passes do not change. `symbols` lists the defined symbols of the object files and
`initSym`, `initSize`, `initGp` and `initPacked` are what the passes find: the symbols as read (a
script symbol as its early evaluation left it), `__global_pointer$` and the packed sections.
`packedSize` is what `updateAllocSize` would make of the sections in `packedSections`. -/
structure Link where
  input : SecId → InputSection
  output : OutId → OutputSection
  script : List Command
  hasSectionsCommand : Bool
  startDot : Int
  origin : RegionId → Expr
  inputSections : List SecId
  symbols : List SymId
  initSym : SymId → Value
  initSize : SymId → Int
  initGp : Option Value
  initPacked : SecId → Nat
  plt : SymId → Option (SecId × Int)
  tls : SymId → Bool
  tlsFirst : OutId
  packedSections : List SecId
  packedSize : State → SecId → Nat
  rvc : Bool
  is64 : Bool
  noinhibitExec : Bool

namespace Link

variable (L : Link)

/-- `outputSections`, in script order. -/
def outputSections : List OutId := L.script.filterMap fun c => match c with
  | .section o => some o
  | _ => none

/-- `getInputSections`. -/
def inputsOf (o : OutId) : List SecId := (L.output o).commands.flatMap fun c => match c with
  | .inputs ss => ss
  | _ => []

/-- The input sections `relaxOnce` visits. -/
def execSections : List SecId :=
  (L.outputSections.filter fun o => (L.output o).exec).flatMap L.inputsOf

/-- The width of an address in bits. -/
def bits : Nat := if L.is64 then 64 else 32

theorem bits_cases : L.bits = 32 ∨ L.bits = 64 := by
  unfold bits
  split
  · exact Or.inr rfl
  · exact Or.inl rfl

/-! ## Addresses -/

/-- `InputSection::getVA(0)`. -/
def secVA (st : State) (s : SecId) : Int := st.addr (L.input s).parent + st.secOff s

/-- The address of a section that values are relative to. -/
def placeVA (st : State) : Place → Int
  | .absolute => 0
  | .output o => st.addr o
  | .input s => L.secVA st s

def valueVA (st : State) (v : Value) : Int := L.placeVA st v.place + v.offset

/-- `Symbol::getVA(addend)`. -/
def symVA (st : State) (d : SymId) (addend : Int) : Int :=
  L.valueVA st (st.sym d) + addend - (if L.tls d then st.addr L.tlsFirst else 0)

/-- `Symbol::getPltVA`. -/
def pltVA (st : State) (d : SymId) : Int :=
  match L.plt d with
  | some (s, off) => L.secVA st s + off
  | none => 0

/-- `InputSection::getSize`. -/
def sizeOf (st : State) (s : SecId) : Nat :=
  if s ∈ L.packedSections then st.packed s else (L.input s).size - st.dropped s

end Link

/-- `isInt<n>` of a 64-bit difference. -/
def isInt (n : Nat) (z : Int) : Bool :=
  decide (-2 ^ (n - 1) ≤ z.bmod (2 ^ 64)) && decide (z.bmod (2 ^ 64) < 2 ^ (n - 1))

theorem isInt_iff {n : Nat} {z : Int} : isInt n z = true ↔
    -2 ^ (n - 1) ≤ z.bmod (2 ^ 64) ∧ z.bmod (2 ^ 64) < 2 ^ (n - 1) := by
  rw [isInt, Bool.and_eq_true, decide_eq_true_eq, decide_eq_true_eq]

end RvLlvm.Lld
