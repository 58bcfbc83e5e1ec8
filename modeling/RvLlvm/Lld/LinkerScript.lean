import RvLlvm.Lld.Link

/-!
# Address assignment

Model of `assignAddresses` and what it calls (`lld/ELF/LinkerScript.cpp:175-400, 968-1070,
1311-1341`): one walk over the section commands of the script, with the location counter, the
memory regions and the state of the section being laid out in a `Cursor`.

A symbol or section that an expression reads before the walk reaches it still has its value from
the walk before. `assignAddresses` reports the symbol assignments whose value changed, and nothing
about sections.
-/

namespace RvLlvm.Lld

/-- `AddressState` with the location counter `dot` and the linker state. `outSec` is `none` for
the aether, the section of values outside any section. -/
structure Cursor where
  st : State
  dot : Int
  outSec : Option OutId
  memRegion : Option RegionId
  lmaRegion : Option RegionId
  curPos : RegionId → Int
  tbssAddr : Int

/-- `alignToPowerOf2`. -/
def alignTo (v : Int) (align : Nat) : Int := (v + align - 1) / align * align

namespace Link

variable (L : Link)

/-- What an expression reads at the cursor. -/
def view (c : Cursor) : Ref → Value × Int
  | .dot =>
    match c.outSec with
    | some o => (⟨.output o, c.dot - c.st.addr o⟩, c.dot)
    | none => (⟨.absolute, c.dot⟩, c.dot)
  | .sym d => (c.st.sym d, L.valueVA c.st (c.st.sym d))
  | .addr o => (⟨.output o, 0⟩, c.st.addr o)
  | .size o => (⟨.absolute, c.st.outSize o⟩, c.st.outSize o)

/-- `Expr()`: the value of an expression at the cursor. -/
def evalExpr (c : Cursor) (e : Expr) : Value := e.eval (L.view c)

/-- `ExprValue::getValue`. -/
def exprVA (c : Cursor) (e : Expr) : Int := L.valueVA c.st (L.evalExpr c e)

end Link

namespace Cursor

variable (c : Cursor)

/-- `expandMemoryRegion`. -/
def expandRegion (m : Option RegionId) (size : Int) : Cursor :=
  match m with
  | some m => { c with curPos := Function.update c.curPos m (c.curPos m + size) }
  | none => c

/-- `expandMemoryRegions`. -/
def expandMemoryRegions (size : Int) : Cursor :=
  let c' := c.expandRegion c.memRegion size
  if c.memRegion = c.lmaRegion then c' else c'.expandRegion c.lmaRegion size

/-- `expandOutputSection`, in section `o`. -/
def expandOutputSection (o : OutId) (size : Int) : Cursor :=
  { c with st := { c.st with outSize := Function.update c.st.outSize o (c.st.outSize o + size) }
  }.expandMemoryRegions size

/-- A store to the address of section `o`. -/
def setAddr (o : OutId) (a : Int) : Cursor :=
  { c with st := { c.st with addr := Function.update c.st.addr o a } }

/-- A store to the size of section `o`. -/
def setSize (o : OutId) (n : Int) : Cursor :=
  { c with st := { c.st with outSize := Function.update c.st.outSize o n } }

/-- `assignSymbol`, for a symbol. -/
def assignSymbol (L : Link) (d : SymId) (e : Expr) : Cursor :=
  { c with st := { c.st with sym := Function.update c.st.sym d (L.evalExpr c e) } }

/-- `setDot`; `inSec` is the section it stands in. -/
def setDot (L : Link) (inSec : Option OutId) (e : Expr) : Cursor :=
  let val := L.exprVA c e
  let c' := match inSec with
    | some o => c.expandOutputSection o (val - c.dot)
    | none => c
  { c' with dot := val }

/-- The placement of one input section. -/
def placeInput (L : Link) (o : OutId) (s : SecId) : Cursor :=
  let start := alignTo c.dot (L.input s).addralign
  let stop := start + L.sizeOf c.st s
  { c with
    st := { c.st with secOff := Function.update c.st.secOff s (start - c.st.addr o) }
    dot := stop }.expandOutputSection o (stop - c.dot)

/-- One command of an output section. -/
def subCommand (L : Link) (o : OutId) (cmd : SubCommand) : Cursor :=
  match cmd with
  | .assign d e => c.assignSymbol L d e
  | .setDot e => c.setDot L (some o) e
  | .byte size => { c with dot := c.dot + size }.expandOutputSection o size
  | .inputs ss => ss.foldl (fun c s => c.placeInput L o s) c

/-! ## `assignOffsets`, step by step -/

/-- Thread-local zero-initialised sections follow one another outside the image. -/
def tbssStart : Cursor :=
  if c.tbssAddr = 0 then { c with tbssAddr := c.dot } else { c with dot := c.tbssAddr }

/-- The next free place of the section's region. -/
def regionStart : Cursor :=
  match c.memRegion with
  | some m => { c with dot := c.curPos m }
  | none => c

/-- The address the script gives the section. -/
def explicitStart (L : Link) (sec : OutputSection) : Cursor :=
  match sec.addrExpr with
  | some e => c.setDot L none e
  | none => c

/-- A region whose section moved forward gives up the space between. -/
def catchUpRegion : Cursor :=
  match c.memRegion with
  | some m => if c.curPos m < c.dot then c.expandRegion (some m) (c.dot - c.curPos m) else c
  | none => c

/-- The location counter a section starts from, before its own alignment. -/
def startSection (L : Link) (sec : OutputSection) : Cursor :=
  let c := { c with memRegion := sec.memRegion, lmaRegion := sec.lmaRegion }
  if !sec.alloc then { c with dot := 0 }
  else if sec.tls && sec.nobits then c.tbssStart
  else ((c.regionStart).explicitStart L sec).catchUpRegion

/-- The address of section `o`: explicit, or aligned. -/
def placeSection (L : Link) (o : OutId) (sec : OutputSection) : Cursor :=
  let c := { c with outSec := some o }
  if sec.addrExpr.isSome && L.hasSectionsCommand then c.setAddr o c.dot
  else
    let start := alignTo c.dot sec.addralign
    ({ c with dot := start }.setAddr o start).expandMemoryRegions (start - c.dot)

/-- The load region moves up to the section's alignment. -/
def placeLma (sec : OutputSection) : Cursor :=
  match sec.lmaRegion with
  | some m =>
    if sec.hasLmaExpr then c
    else
      let start := alignTo (c.curPos m) sec.addralign
      if c.curPos m < start then c.expandRegion (some m) (start - c.curPos m) else c
  | none => c

/-- Sections that take no room in the image give the location counter back. -/
def endSection (sec : OutputSection) (savedDot : Int) : Cursor :=
  if !sec.alloc then { c with dot := savedDot }
  else if sec.tls && sec.nobits then { c with tbssAddr := c.dot, dot := savedDot }
  else c

/-- `assignOffsets`. -/
def assignOffsets (L : Link) (o : OutId) : Cursor :=
  let sec := L.output o
  let c' := (((c.startSection L sec).placeSection L o sec).placeLma sec).setSize o 0
  (sec.commands.foldl (fun c cmd => c.subCommand L o cmd) c').endSection sec c.dot

/-- One command of the script. -/
def command (L : Link) (cmd : Command) : Cursor :=
  match cmd with
  | .assign d e => c.assignSymbol L d e
  | .setDot e => c.setDot L none e
  | .section o => c.assignOffsets L o

end Cursor

namespace Link

variable (L : Link)

/-- The cursor `assignAddresses` starts with. -/
def startCursor (st : State) : Cursor :=
  let c : Cursor := ⟨st, L.startDot, none, none, none, fun _ => 0, 0⟩
  { c with curPos := fun m => L.exprVA c (L.origin m) }

/-- The symbol assignments of the script, in order. -/
def assignments : List (SymId × Expr) := L.script.flatMap fun c => match c with
  | .assign d e => [(d, e)]
  | .setDot _ => []
  | .section o => (L.output o).commands.filterMap fun c => match c with
    | .assign d e => some (d, e)
    | _ => none

/-- The symbols the script assigns. -/
def assigned : List SymId := L.assignments.map Prod.fst

/-- `assignAddresses`, with whether some assigned symbol changed. -/
def assignAddresses (st : State) : State × Bool :=
  let st' := (L.script.foldl (fun c cmd => c.command L cmd) (L.startCursor st)).st
  (st', L.assigned.any fun d => decide (st'.sym d ≠ st.sym d))

end Link

end RvLlvm.Lld
