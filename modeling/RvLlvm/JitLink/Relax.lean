import RvLlvm.JitLink.ElfRiscv
import RvLlvm.Lld.FinalizeRelax
import RvLlvm.Support.ByteField
import RvLlvm.Support.Overwrite

/-!
# Relaxation in the RISC-V JIT linker

Model of `relax` of JITLink (`llvm/lib/ExecutionEngine/JITLink/ELF_riscv.cpp:505-812`). It makes
passes over the blocks of the executable sections until one of them changes nothing, and then
rewrites every block in place.

* `relaxBlock` walks the relaxable edges of a block along with its sorted anchors; `Walk` is its
  locals. There is no result where a padding would have to grow (`relaxAlign` asserts it) or a call
  reads its `jalr` beyond the block.
* `relaxUntil` is the loop of `relax`, with fuel.
* `finalizeBlockRelax` moves and overwrites bytes in the block's own buffer, which keeps its size;
  there is no result where it reads or writes outside of it.

The blocks are visited in the order of a `DenseMap`: a run is given its list of blocks, in any
order. The assertions of `setOffset` and `setSize` on the new place of a symbol are left out.
-/

namespace RvLlvm.JitLink.Relax

open RvLlvm.Support
open RvLlvm.Lld (le16 le32 nops alignTo)
open RvLlvm.Lld.Link (anchorLe)

/-! ## The graph -/

abbrev SymId := Nat

abbrev BlockId := Nat

/-- `Edge::Kind`: those that relaxation reads and sets, and any other. -/
inductive Kind
  | invalid
  | callRelaxable
  | alignRelaxable
  | callPlt
  | jal
  | rvcJump
  | other (kind : EdgeKind)
  deriving DecidableEq

structure Edge where
  kind : Kind
  offset : Nat
  target : SymId
  addend : Int
  deriving DecidableEq

structure Block where
  address : Nat
  content : List UInt8
  edges : List Edge
  deriving DecidableEq

/-- What the offset of a symbol counts from: a block, or an absolute or external address. -/
inductive Addressable
  | block (b : BlockId)
  | fixed (address : Nat)
  deriving DecidableEq

structure Symbol where
  base : Addressable
  offset : Int
  size : Int
  deriving DecidableEq

/-- A section; `exec` is `shouldRelax`. -/
structure Section where
  exec : Bool
  blocks : List BlockId
  symbols : List SymId

/-- A link graph, `hasRVC` being `+c` among its features. -/
structure LinkGraph where
  isRV32 : Bool
  hasRVC : Bool
  sections : List Section
  block : BlockId → Block
  sym : SymId → Symbol

/-- `isRelaxable`. -/
def isRelaxable (e : Edge) : Bool :=
  match e.kind with
  | .callRelaxable | .alignRelaxable => true
  | _ => false

/-- `SymbolAnchor`, as lld has it. -/
abbrev SymbolAnchor := Lld.Anchor

/-- `BlockRelaxAux`. -/
structure BlockRelaxAux where
  anchors : List SymbolAnchor
  relaxEdges : List Edge
  relocDeltas : List Nat
  edgeKinds : List Kind
  writes : List Nat

/-- What is decided for an edge: its new kind, the words written and the bytes given up. -/
structure Decision where
  kind : Kind
  writes : List Nat
  remove : Nat
  deriving DecidableEq

/-- `NextPowerOf2`: the least power of two above `a`. -/
def nextPowerOf2 (a : Int) : Nat := if a.toNat = 0 then 1 else 2 ^ (a.toNat.log2 + 1)

/-- `relaxAlign`. -/
def relaxAlign (loc : Int) (e : Edge) : Option Decision :=
  let destLoc := alignTo loc (nextPowerOf2 e.addend)
  let srcLoc := loc + e.addend
  if destLoc ≤ srcLoc then some ⟨.alignRelaxable, [], (srcLoc - destLoc).toNat⟩ else none

namespace LinkGraph

/-- `Symbol::getAddress`. -/
def getAddress (G : LinkGraph) (d : SymId) : Int :=
  match (G.sym d).base with
  | .block b => (G.block b).address + (G.sym d).offset
  | .fixed address => address + (G.sym d).offset

/-- The anchors of the symbols of section `S` in block `b`. -/
def anchorsOf (G : LinkGraph) (S : Section) (b : BlockId) : List SymbolAnchor :=
  ((S.symbols.filter fun d => decide ((G.sym d).base = .block b)).flatMap fun d =>
    [⟨(G.sym d).offset, d, false⟩, ⟨(G.sym d).offset + (G.sym d).size, d, true⟩]).insertionSort
      fun a b => anchorLe a b

/-- `initRelaxAux` for one block, if it has relaxable edges. -/
def initBlockAux (G : LinkGraph) (S : Section) (b : BlockId) : Option (BlockId × BlockRelaxAux) :=
  let relaxEdges := (G.block b).edges.filter isRelaxable
  if relaxEdges.isEmpty then none
  else some (b,
    { anchors := G.anchorsOf S b
      relaxEdges := relaxEdges
      relocDeltas := List.replicate relaxEdges.length 0
      edgeKinds := List.replicate relaxEdges.length .invalid
      writes := [] })

/-- `initRelaxAux`. -/
def initRelaxAux (G : LinkGraph) : List (BlockId × BlockRelaxAux) :=
  (G.sections.filter Section.exec).flatMap fun S => S.blocks.filterMap (G.initBlockAux S)

/-! ## A pass over a block -/

/-- The displacement from `loc` to the target of `e`. -/
def displace (G : LinkGraph) (loc : Int) (e : Edge) : Int := G.getAddress e.target + e.addend - loc

/-- `relaxCall`. -/
def relaxCall (G : LinkGraph) (b : Block) (loc : Int) (e : Edge) : Option Decision :=
  (readAt b.content (e.offset + 4) 4).map fun jalr =>
    let rd := Rv.rd jalr
    let displace := G.displace loc e
    if G.hasRVC && Lld.isInt 12 displace && rd == 0 then ⟨.rvcJump, [0xa001], 6⟩
    else if G.hasRVC && G.isRV32 && Lld.isInt 12 displace && rd == 1 then ⟨.rvcJump, [0x2001], 6⟩
    else if Lld.isInt 21 displace then ⟨.jal, [0x6f + rd * 2 ^ 7], 4⟩
    else ⟨.callPlt, [], 0⟩

/-- The `switch` of `relaxBlock`. -/
def relaxEdge (G : LinkGraph) (b : Block) (loc : Int) (e : Edge) : Option Decision :=
  match e.kind with
  | .alignRelaxable => relaxAlign loc e
  | .callRelaxable => G.relaxCall b loc e
  | _ => none

/-- An anchor takes its end of the symbol to its offset less `delta`. -/
def moveAnchor (delta : Nat) (G : LinkGraph) (a : SymbolAnchor) : LinkGraph :=
  let v := G.sym a.sym
  { G with
    sym := Function.update G.sym a.sym
      (if a.atEnd then { v with size := a.offset - delta - v.offset }
       else { v with offset := a.offset - delta }) }

end LinkGraph

/-- The locals of `relaxBlock`. -/
structure Walk where
  graph : LinkGraph
  delta : Nat
  anchors : List SymbolAnchor
  deltas : List Nat
  kinds : List Kind
  writes : List Nat
  changed : Bool

/-- One turn of the loop of `relaxBlock`; `cur` is the edge's old `RelocDeltas`. -/
def relaxStep (b : Block) (e : Edge) (cur : Nat) (x : Walk) : Option Walk :=
  (x.graph.relaxEdge b (b.address + e.offset - x.delta) e).map fun z =>
    let passed := fun a : SymbolAnchor => decide (a.offset ≤ (e.offset : Int))
    { graph := (x.anchors.takeWhile passed).foldl (LinkGraph.moveAnchor x.delta) x.graph
      delta := x.delta + z.remove
      anchors := x.anchors.dropWhile passed
      deltas := x.deltas ++ [x.delta + z.remove]
      kinds := x.kinds ++ [z.kind]
      writes := x.writes ++ z.writes
      changed := x.changed || x.delta + z.remove != cur }

/-- The loop of `relaxBlock` over the edges left, with their old `RelocDeltas`. -/
def relaxLoop (b : Block) : List Edge → List Nat → Walk → Option Walk
  | [], _, x => some x
  | e :: es, olds, x => (relaxStep b e (olds.headD 0) x).bind (relaxLoop b es olds.tail)

namespace LinkGraph

/-- `relaxBlock`. -/
def relaxBlock (G : LinkGraph) (b : Block) (aux : BlockRelaxAux) :
    Option (LinkGraph × BlockRelaxAux × Bool) :=
  (relaxLoop b aux.relaxEdges aux.relocDeltas ⟨G, 0, aux.anchors, [], [], [], false⟩).map fun x =>
    (x.anchors.foldl (moveAnchor x.delta) x.graph,
      { aux with relocDeltas := x.deltas, edgeKinds := x.kinds, writes := x.writes }, x.changed)

/-- `relaxOnce`, over the blocks left. -/
def relaxOnce : List (BlockId × BlockRelaxAux) → LinkGraph →
    Option (LinkGraph × List (BlockId × BlockRelaxAux) × Bool)
  | [], G => some (G, [], false)
  | (b, aux) :: rest, G =>
    (G.relaxBlock (G.block b) aux).bind fun (G₁, aux₁, changed) =>
      (relaxOnce rest G₁).map fun (G₂, rest₂, changed') =>
        (G₂, (b, aux₁) :: rest₂, changed || changed')

/-- The loop of `relax`: passes until one changes nothing. -/
def relaxUntil : Nat → List (BlockId × BlockRelaxAux) → LinkGraph →
    Option (LinkGraph × List (BlockId × BlockRelaxAux))
  | 0, _, _ => none
  | fuel + 1, blocks, G =>
    (relaxOnce blocks G).bind fun (G₁, blocks₁, changed) =>
      if changed then relaxUntil fuel blocks₁ G₁ else some (G₁, blocks₁)

end LinkGraph

/-! ## Rewriting a block -/

/-- `memmove` of `n` bytes within a buffer. -/
def memmove (buf : List UInt8) (dest src n : Nat) : Option (List UInt8) :=
  if src + n ≤ buf.length then overwrite buf dest ((buf.drop src).take n) else none

/-- The bytes put for an edge, and the writes left. -/
def replacement (e : Edge) (kind : Kind) (remove : Nat) (writes : List Nat) :
    Option (List UInt8 × List Nat) :=
  match kind, writes with
  | .alignRelaxable, _ =>
    if remove % 4 ≠ 0 ∨ e.addend % 4 ≠ 0 then
      (nops (e.addend - remove)).map fun bytes => (bytes, writes)
    else some ([], writes)
  | .rvcJump, w :: rest => some (le16 w, rest)
  | .jal, w :: rest => some (le32 w, rest)
  | .rvcJump, [] | .jal, [] => none
  | _, _ => some ([], writes)

/-- The locals of `finalizeBlockRelax`, with the buffer it works in; `dest` counts from its
start. -/
structure Rewriter where
  buf : List UInt8
  dest : Nat
  offset : Nat
  delta : Nat
  writes : List Nat

/-- One turn of the first loop. -/
def rewriteStep (e : Edge) (d : Nat) (kind : Kind) (x : Rewriter) : Option Rewriter :=
  let remove := d - x.delta
  if remove = 0 ∧ kind = .invalid then some { x with delta := d }
  else if e.offset < x.offset then none
  else
    (memmove x.buf x.dest x.offset (e.offset - x.offset)).bind fun moved =>
    (replacement e kind remove x.writes).bind fun (bytes, writes) =>
    (overwrite moved (x.dest + (e.offset - x.offset)) bytes).map fun buf =>
      { buf := buf
        dest := x.dest + (e.offset - x.offset) + bytes.length
        offset := e.offset + bytes.length + remove
        delta := d
        writes := writes }

/-- The first loop, over the relaxable edges left. -/
def rewriteLoop : List Edge → List Nat → List Kind → Rewriter → Option Rewriter
  | e :: es, d :: ds, k :: ks, x => (rewriteStep e d k x).bind (rewriteLoop es ds ks)
  | _, _, _, x => some x

/-- The second loop, over the edges left of the block and the deltas and kinds left of the
relaxable ones. The next of `RelaxEdges` is the edge at hand if that is relaxable. -/
def shiftLoop : Nat → List Edge → List Nat → List Kind → List Edge
  | _, [], _, _ => []
  | delta, e :: es, ds, ks =>
    match isRelaxable e, ds, ks with
    | true, d :: ds', k :: ks' =>
      { e with offset := e.offset - delta, kind := if k = .invalid then e.kind else k } ::
        shiftLoop d es ds' ks'
    | _, _, _ => { e with offset := e.offset - delta } :: shiftLoop delta es ds ks

/-- `finalizeBlockRelax`. -/
def finalizeBlockRelax (b : Block) (aux : BlockRelaxAux) : Option Block :=
  (rewriteLoop aux.relaxEdges aux.relocDeltas aux.edgeKinds ⟨b.content, 0, 0, 0, aux.writes⟩).bind
    fun x =>
      if b.content.length < x.offset then none
      else
        (memmove x.buf x.dest x.offset (b.content.length - x.offset)).map fun buf =>
          { b with
            content := buf
            edges := (shiftLoop 0 b.edges aux.relocDeltas aux.edgeKinds).filter
              fun e => decide (e.kind ≠ .alignRelaxable) }

namespace LinkGraph

/-- `finalizeRelax`, over the blocks left. -/
def finalizeRelax : List (BlockId × BlockRelaxAux) → LinkGraph → Option LinkGraph
  | [], G => some G
  | (b, aux) :: rest, G =>
    (finalizeBlockRelax (G.block b) aux).bind fun block =>
      finalizeRelax rest { G with block := Function.update G.block b block }

/-- `relax`, the blocks visited as in `blocks`. -/
def relax (fuel : Nat) (blocks : List (BlockId × BlockRelaxAux)) (G : LinkGraph) :
    Option LinkGraph :=
  (relaxUntil fuel blocks G).bind fun (G₁, blocks₁) => finalizeRelax blocks₁ G₁

end LinkGraph

end RvLlvm.JitLink.Relax
