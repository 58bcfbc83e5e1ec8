import Mathlib.Logic.Relation
import RvLlvm.Bolt.MCInst
import RvLlvm.Support.Search
import RvLlvm.Support.Worklist

/-!
# Unused functions

Model of `RISCVElimUnusedFuncs` (`bolt/lib/Passes/RISCV/RISCVElimUnusedFuncs.cpp:22-336`) with
`getBinaryFunctionContainingAddress` (`BinaryContext.cpp:2320-2334`), `isPCRelativeRISCV`
(`Relocation.cpp:732-759`) and `evaluateBranch` (`RISCVMCTargetDesc.cpp:121-144`), and of all that
the rewriter does to the flags that decide whether a body may be cleared: `selectFunctionsToProcess`
and `disassembleFunctions` (`RewriteInstance.cpp:3059-3065,3242-3281`), `scanExternalRefs`
(`BinaryFunction.cpp:1390-1570`), `setIgnored` (`:2889-2922`), `setSimple` and `setPseudo`.

Functions are known by their places in the map from addresses to functions; a place behind its end
is a function outside of it. The sets of the pass are lists, whose order does not matter.

* `canonicalize_eq`: a function that overlaps no earlier one stands for all that overlap it.
* `cleared_of_reached`: of the functions that contain a byte which a remaining function refers to,
  only overlapping aliases that are not protected can be cleared.
* `never_clears_reached`: functions as the rewriter leaves them to the pass are not cleared at all,
  since one with relocations for its references was never disassembled (`Built.flagged`).
-/

namespace RvLlvm.Bolt.ElimUnusedFuncs

open RvLlvm.Support

/-! ## Functions -/

/-- An `MCInst` with the annotation `getOffset` reads. -/
structure Inst where
  inst : MCInst
  offset : Option Nat
  deriving DecidableEq

/-- A `BinaryBasicBlock`. -/
structure CodeBlock where
  offset : Nat
  insts : List Inst
  deriving DecidableEq

/-- A `BinaryFunction`. -/
structure BinaryFunction where
  address : Nat
  size : Nat
  maxSize : Nat
  originSection : Option Nat
  blocks : List CodeBlock
  isInjected : Bool := false
  isPseudo : Bool := false
  isIgnored : Bool := false
  isFolded : Bool := false
  isFragment : Bool := false
  isSimple : Bool := true
  hasCFG : Bool := false
  isMultiEntry : Bool := false
  hasUnknownControlFlow : Bool := false
  hasExternalRefRelocations : Bool := false
  hasEHRanges : Bool := false
  hasCFI : Bool := false
  hasJumpTables : Bool := false
  hasPersonality : Bool := false
  deriving DecidableEq

/-- The places of functions. -/
abbrev FunctionId := Nat

/-- `R_RISCV_...`; `absolute` stands for those that are neither pc-relative nor direct control. -/
inductive RelocationType
  | branch | jal | call | callPlt | rvcBranch | rvcJump
  | gotHi20 | pcrelHi20 | pcrelLo12I | pcrel32 | tlsGotHi20 | tlsGdHi20
  | absolute (type : Nat)
  deriving DecidableEq

/-- `Relocation`. -/
structure Relocation where
  offset : Nat
  symbol : Option MCSymbol
  type : RelocationType
  addend : Int
  value : Nat
  deriving DecidableEq

/-- `BinarySection`. -/
structure BinarySection where
  address : Nat
  size : Nat
  isText : Bool
  relocations : List Relocation
  dynamicRelocations : List Relocation
  deriving DecidableEq

/-- `BinaryContext`; `exprAddress` is what the operand of a branch denotes. -/
structure BinaryContext where
  functions : List BinaryFunction
  functionForSymbol : MCSymbol → Option FunctionId
  symbolAddress : MCSymbol → Nat
  exprAddress : MCExpr → Nat
  allocatableSections : List BinarySection
  startFunctionAddress : Option Nat
  finiFunctionAddress : Option Nat
  info : MCInstrInfo
  instSize : MCInst → Nat

/-- The end of a function. -/
def BinaryFunction.stop (f : BinaryFunction) : Nat := f.address + f.size

/-- `hasNonPseudoInstructions`. -/
def BinaryFunction.hasNonPseudoInstructions (I : MCInstrInfo) (f : BinaryFunction) : Bool :=
  f.blocks.any fun b => b.insts.any fun i => !Bolt.isPseudo I i.inst

/-- `isConservativeRoot`. -/
def isConservativeRoot (f : BinaryFunction) : Bool :=
  f.isIgnored || f.isPseudo || f.isFolded || f.isFragment || !f.isSimple || !f.hasCFG ||
    f.isMultiEntry || f.hasUnknownControlFlow || !f.hasExternalRefRelocations || f.hasEHRanges ||
    f.hasCFI || f.hasJumpTables || f.hasPersonality

/-- `canClearBody`. -/
def canClearBody (I : MCInstrInfo) (f : BinaryFunction) (requireExternalRefRelocs : Bool) : Bool :=
  if f.isIgnored || f.isPseudo || f.isFolded || f.isFragment then false
  else if !f.hasCFG then false
  else if !requireExternalRefRelocs then f.hasNonPseudoInstructions I
  else if !f.isSimple then false
  else if f.isMultiEntry || f.hasUnknownControlFlow then false
  else if requireExternalRefRelocs && !f.hasExternalRefRelocations then false
  else if f.hasEHRanges || f.hasCFI || f.hasPersonality then false
  else f.hasNonPseudoInstructions I

/-- `isRISCVDirectControlRelocation`. -/
def isRISCVDirectControlRelocation : RelocationType → Bool
  | .call | .callPlt | .jal | .branch | .rvcBranch | .rvcJump => true
  | _ => false

/-- `isPCRelative`. -/
def isPCRelative : RelocationType → Bool
  | .absolute _ => false
  | _ => true

/-- `evaluateBranch`. -/
def evaluateBranch (I : MCInstrInfo) (i : MCInst) (addr size : Nat) : Option Nat :=
  let d := I.get i.opcode
  let add : Option MCOperand → Option Nat
    | some (.imm v) => some ((addr + v) % 2 ^ 64).toNat
    | _ => none
  if d.isBranch && !d.isBarrier && !d.isIndirectBranch then
    add i.operands[if size = 2 then 1 else 2]?
  else
    match i.opcode with
    | .cJal | .cJ => add i.operands[0]?
    | .jal => add i.operands[1]?
    | _ => none

/-- A function that `computeOverlappingAliases` looks at. -/
def mayOverlap (f : BinaryFunction) : Bool := f.size != 0 && !f.isInjected && !f.isPseudo

/-- `sameOriginSection`. -/
def sameOriginSection (a b : BinaryFunction) : Bool :=
  a.originSection.isSome && a.originSection == b.originSection

namespace BinaryContext

variable (C : BinaryContext)

/-- `getBinaryFunctionContainingAddress`. -/
def getBinaryFunctionContainingAddress (address : Nat) (checkPastEnd useMaxSize : Bool) :
    Option FunctionId :=
  let next := upperBound (fun f : BinaryFunction => decide (address < f.address)) C.functions
  if next = 0 then none
  else C.functions[next - 1]?.bind fun f =>
    let usedSize := if useMaxSize then f.maxSize else f.size
    if f.address + usedSize + (if checkPastEnd then 1 else 0) ≤ address then none
    else some (next - 1)

/-! ## Overlapping functions -/

/-- The inner loop body of `computeOverlappingAliases`; the end of the best function is its own. -/
def considerOuter (f : BinaryFunction) (best : Option (FunctionId × BinaryFunction))
    (j : FunctionId) : Option (FunctionId × BinaryFunction) :=
  match C.functions[j]? with
  | none => best
  | some outer =>
    if !mayOverlap outer then best
    else if !sameOriginSection outer f then best
    else if f.address ≤ outer.address then best
    else if outer.stop ≤ f.address then best
    else
      match best with
      | none => some (j, outer)
      | some (_, b) =>
        if b.stop < outer.stop ∨ outer.stop = b.stop ∧ outer.address < b.address then some (j, outer)
        else best

/-- `computeOverlappingAliases`. -/
def aliases (i : FunctionId) : Option FunctionId :=
  C.functions[i]?.bind fun f =>
    if !mayOverlap f then none
    else ((List.range i).foldl (C.considerOuter f) none).map (·.1)

/-- Turns of the loop of `canonicalize`. -/
def chase : Nat → FunctionId → FunctionId
  | 0, i => i
  | n + 1, i =>
    match C.aliases i with
    | none => i
    | some j => chase n j

/-- `canonicalize`: the aliases go down, so there are at most `i` of them. -/
def canonicalize (i : FunctionId) : FunctionId := C.chase (i + 1) i

/-! ## Edges and roots -/

/-- `addEdge`. -/
def addEdge (source target : FunctionId) : List (FunctionId × FunctionId) :=
  if C.canonicalize source = C.canonicalize target then []
  else [(C.canonicalize source, C.canonicalize target)]

/-- The instructions of a block that are not pseudo, each with the running `Offset`. -/
def positions : List Inst → Nat → List (Inst × Nat)
  | [], _ => []
  | i :: rest, offset =>
    if Bolt.isPseudo C.info i.inst then positions rest offset
    else (i, offset) :: positions rest (offset + C.instSize i.inst)

/-- All such instructions of a function. -/
def instructions (f : BinaryFunction) : List (Inst × Nat) :=
  f.blocks.flatMap fun b => C.positions b.insts b.offset

/-- Where `evaluateBranch` says that an instruction of `f` goes. -/
def branchAddress (f : BinaryFunction) (p : Inst × Nat) : Option Nat :=
  evaluateBranch C.info p.1.inst (f.address + p.1.offset.getD p.2) (C.instSize p.1.inst)

/-- The function to which `collectInstructionEdges` adds an edge. -/
def instructionTarget (f : BinaryFunction) (p : Inst × Nat) : Option FunctionId :=
  if isCall C.info p.1.inst || isBranch C.info p.1.inst then
    match getTargetSymbol p.1.inst with
    | some s => C.functionForSymbol s
    | none => (C.branchAddress f p).bind fun a => C.getBinaryFunctionContainingAddress a true true
  else none

/-- `collectInstructionEdges`. -/
def instructionEdges : List (FunctionId × FunctionId) :=
  C.functions.zipIdx.flatMap fun (f, i) =>
    if !f.isSimple || !f.hasCFG then []
    else ((C.instructions f).filterMap (C.instructionTarget f)).flatMap (C.addEdge i)

/-- `getRelocationAddress`, with `containsAddress` of the section. -/
def getRelocationAddress (s : BinarySection) (r : Relocation) : Nat :=
  if s.address ≤ r.offset ∧ r.offset < s.address + s.size ∨ s.size = 0 ∧ s.address = r.offset then
    r.offset
  else s.address + r.offset

/-- `resolveRelocationTarget`. -/
def resolveRelocationTarget (r : Relocation) : Option FunctionId :=
  (r.symbol.bind C.functionForSymbol).or
    (if r.value ≠ 0 ∧ isPCRelative r.type = false then
      C.getBinaryFunctionContainingAddress r.value true true
    else none)

/-- The function that a relocation of a section is in. -/
def relocationSource (s : BinarySection) (r : Relocation) : Option FunctionId :=
  if s.isText then C.getBinaryFunctionContainingAddress (getRelocationAddress s r) false true
  else none

/-- The source of a relocation that `collectRelocationEdgesAndRoots` takes for a direct branch. -/
def directSource (s : BinarySection) (r : Relocation) : Option FunctionId :=
  if isRISCVDirectControlRelocation r.type then C.relocationSource s r else none

/-- The edges of `collectRelocationEdgesAndRoots`. -/
def relocationEdges : List (FunctionId × FunctionId) :=
  C.allocatableSections.flatMap fun s => s.relocations.flatMap fun r =>
    match C.resolveRelocationTarget r, C.directSource s r with
    | some target, some source => C.addEdge source target
    | _, _ => []

/-- The functions for which `collectRelocationEdgesAndRoots` calls `markAddressTaken`. -/
def addressTaken : List FunctionId :=
  C.allocatableSections.flatMap fun s =>
    (s.relocations.filterMap fun r =>
      if (C.directSource s r).isSome then none else C.resolveRelocationTarget r) ++
    s.dynamicRelocations.filterMap C.resolveRelocationTarget

/-- `Protected`: the start and fini functions, the conservative roots, and what has its address
taken. `Roots` has the canonical functions of these. -/
def protectedFunctions : List FunctionId :=
  (C.startFunctionAddress.bind fun a => C.getBinaryFunctionContainingAddress a true true).toList ++
  (C.finiFunctionAddress.bind fun a => C.getBinaryFunctionContainingAddress a true true).toList ++
  (C.functions.zipIdx.filter fun (f, _) => isConservativeRoot f).map (·.2) ++ C.addressTaken

/-- `Edges`. -/
def edges : List (FunctionId × FunctionId) := C.instructionEdges ++ C.relocationEdges

/-- The functions that become live with `i`. -/
def targets (i : FunctionId) : List FunctionId :=
  (C.edges.filter fun e => e.1 = C.canonicalize i).map (·.2)

/-- `Roots`, then `Protected`. -/
def seeds : List FunctionId := C.protectedFunctions.map C.canonicalize ++ C.protectedFunctions

/-- `Live`: no function is put on the worklist twice, so there are at most as many turns as seeds
and edges. -/
def live : List FunctionId :=
  Worklist.closure C.targets (C.seeds.length + C.edges.length) C.seeds

/-- The functions that `runOnFunctions` clears. -/
def cleared (i : FunctionId) (f : BinaryFunction) : Bool :=
  canClearBody C.info f true &&
    !((!(C.aliases i).isSome || decide (i ∈ C.protectedFunctions)) && decide (i ∈ C.live))

/-- `clearFunctionBody`. -/
def clearFunctionBody (f : BinaryFunction) : BinaryFunction :=
  { f with blocks := f.blocks.map fun b => { b with insts := [] } }

/-- `runOnFunctions`. -/
def runOnFunctions : BinaryContext :=
  { C with
    functions := C.functions.mapIdx fun i f => if C.cleared i f then clearFunctionBody f else f }

/-! ## References -/

/-- The byte that a call or branch of `f` goes to. -/
def referencedByte (f : BinaryFunction) (p : Inst × Nat) : Option Nat :=
  if isCall C.info p.1.inst || isBranch C.info p.1.inst then
    match getTargetSymbol p.1.inst with
    | some _ =>
      (getSymbolRefOperandNum p.1.inst).bind fun k =>
        match p.1.inst.operands[k]? with
        | some (.expr e) => some (C.exprAddress e)
        | _ => none
    | none => C.branchAddress f p
  else none

/-- The byte that a relocation points to. -/
def relocatedByte (r : Relocation) : Nat :=
  match r.symbol with
  | some s => ((C.symbolAddress s + r.addend) % 2 ^ 64).toNat
  | none => r.value

/-- A call, tail call, branch or relocation of function `i` has the byte at `b` for its target. -/
inductive Refers (i : FunctionId) (b : Nat) : Prop
  | instruction {f : BinaryFunction} {p : Inst × Nat} (hf : C.functions[i]? = some f)
    (hp : p ∈ C.instructions f) (hb : C.referencedByte f p = some b)
  | relocation {f : BinaryFunction} {s : BinarySection} {r : Relocation}
    (hf : C.functions[i]? = some f) (hs : s ∈ C.allocatableSections)
    (hr : r ∈ s.relocations ++ s.dynamicRelocations)
    (hin : f.address ≤ getRelocationAddress s r ∧
      getRelocationAddress s r < f.address + f.maxSize)
    (hb : C.relocatedByte r = b)

/-- No function that contains a byte to which a remaining function refers loses its body. -/
def NeverClearsReached : Prop :=
  ∀ (i g : FunctionId) (f h : BinaryFunction) (b : Nat), C.functions[i]? = some f →
    C.cleared i f = false → C.Refers i b → C.functions[g]? = some h → h.address ≤ b → b < h.stop →
    C.runOnFunctions.functions[g]? = some h

end BinaryContext

/-! ## Overlapping functions have one canonical function -/

section Aliases

variable {C : BinaryContext}

/-- `o`, at place `j`, starts before `f` in its section and runs past its start. -/
structure Outer (C : BinaryContext) (f : BinaryFunction) (j : FunctionId) (o : BinaryFunction) :
    Prop where
  found : C.functions[j]? = some o
  mayOverlap : mayOverlap o
  section_eq : sameOriginSection o f
  before : o.address < f.address
  past : f.address < o.stop

/-- One turn: the outer function that ends last is kept. -/
theorem considerOuter_spec (f : BinaryFunction) (best : Option (FunctionId × BinaryFunction))
    (j : FunctionId) :
    (∀ k b, C.considerOuter f best j = some (k, b) → best = some (k, b) ∨ k = j ∧ Outer C f k b) ∧
      (∀ k b, best = some (k, b) →
        ∃ k' b', C.considerOuter f best j = some (k', b') ∧ b.stop ≤ b'.stop) ∧
      ∀ o, Outer C f j o → ∃ k b, C.considerOuter f best j = some (k, b) ∧ o.stop ≤ b.stop := by
  by_cases hout : ∃ o, Outer C f j o
  · obtain ⟨o, ho⟩ := hout
    have huniq : ∀ o', Outer C f j o' → o' = o := fun o' h =>
      Option.some.inj (h.found.symm.trans ho.found)
    have hturn : C.considerOuter f best j =
        match best with
        | none => some (j, o)
        | some (_, b) =>
          if b.stop < o.stop ∨ o.stop = b.stop ∧ o.address < b.address then some (j, o)
          else best := by
      simp only [BinaryContext.considerOuter, ho.found]
      rw [if_neg (by simp [ho.mayOverlap]), if_neg (by simp [ho.section_eq]),
        if_neg (Nat.not_le.mpr ho.before), if_neg (Nat.not_le.mpr ho.past)]
    rw [hturn]
    cases best with
    | none =>
      refine ⟨fun k b h => ?_, by simp, fun o' h => ⟨j, o, rfl, (huniq o' h).symm ▸ Nat.le_refl _⟩⟩
      obtain ⟨rfl, rfl⟩ := Prod.mk.inj (Option.some.inj h)
      exact .inr ⟨rfl, ho⟩
    | some best =>
      obtain ⟨k₀, b₀⟩ := best
      dsimp only
      split
      · next hlt =>
        refine ⟨fun k b h => ?_, fun k b h => ?_, fun o' h => ?_⟩
        · obtain ⟨rfl, rfl⟩ := Prod.mk.inj (Option.some.inj h)
          exact .inr ⟨rfl, ho⟩
        · obtain ⟨rfl, rfl⟩ := Prod.mk.inj (Option.some.inj h)
          exact ⟨j, o, rfl, hlt.elim Nat.le_of_lt fun h => h.1.ge⟩
        · exact ⟨j, o, rfl, (huniq o' h).symm ▸ Nat.le_refl _⟩
      · next hlt =>
        refine ⟨fun k b h => .inl h, fun k b h => ⟨k, b, h, Nat.le_refl _⟩, fun o' h => ?_⟩
        rw [huniq o' h]
        exact ⟨k₀, b₀, rfl, Nat.not_lt.mp fun h => hlt (.inl h)⟩
  · have hturn : C.considerOuter f best j = best := by
      cases hfound : C.functions[j]? with
      | none => simp only [BinaryContext.considerOuter, hfound]
      | some o =>
        simp only [BinaryContext.considerOuter, hfound]
        split_ifs with h₁ h₂ h₃ h₄
        · rfl
        · rfl
        · rfl
        · rfl
        · exact absurd ⟨o, hfound, by simpa using h₁, by simpa using h₂, Nat.lt_of_not_le h₃,
            Nat.lt_of_not_le h₄⟩ hout
    rw [hturn]
    exact ⟨fun k b h => .inl h, fun k b h => ⟨k, b, h, Nat.le_refl _⟩,
      fun o ho => absurd ⟨o, ho⟩ hout⟩

/-- What the loop has found is one of the outer functions, and none of those it has seen ends behind
it. -/
theorem foldl_considerOuter {f : BinaryFunction} (js : List FunctionId) :
    ∀ best : Option (FunctionId × BinaryFunction),
      let found := js.foldl (C.considerOuter f) best
      (∀ k b, found = some (k, b) → best = some (k, b) ∨ k ∈ js ∧ Outer C f k b) ∧
      (∀ k b, best = some (k, b) → ∃ k' b', found = some (k', b') ∧ b.stop ≤ b'.stop) ∧
      ∀ j ∈ js, ∀ o, Outer C f j o → ∃ k b, found = some (k, b) ∧ o.stop ≤ b.stop := by
  induction js with
  | nil => exact fun best => ⟨fun k b h => .inl h, fun k b h => ⟨k, b, h, Nat.le_refl _⟩, by simp⟩
  | cons j js ih =>
    intro best
    obtain ⟨hfrom, hkeep, hall⟩ := ih (C.considerOuter f best j)
    have hone := considerOuter_spec (C := C) f best j
    refine ⟨fun k b h => ?_, fun k b h => ?_, fun i hi o ho => ?_⟩
    · rcases hfrom k b h with h | ⟨hk, h⟩
      · rcases hone.1 k b h with h | ⟨rfl, hout⟩
        · exact .inl h
        · exact .inr ⟨List.mem_cons_self, hout⟩
      · exact .inr ⟨List.mem_cons_of_mem _ hk, h⟩
    · obtain ⟨k', b', h, hle⟩ := hone.2.1 k b h
      obtain ⟨k'', b'', h, hle'⟩ := hkeep k' b' h
      exact ⟨k'', b'', h, hle.trans hle'⟩
    · rcases List.mem_cons.mp hi with rfl | hi
      · obtain ⟨k', b', h, hle⟩ := hone.2.2 o ho
        obtain ⟨k'', b'', h, hle'⟩ := hkeep k' b' h
        exact ⟨k'', b'', h, hle.trans hle'⟩
      · exact hall i hi o ho

variable {i : FunctionId} {f : BinaryFunction}

/-- An alias leads to an outer function, and none ends behind it. -/
theorem outer_of_alias {k : FunctionId} (hf : C.functions[i]? = some f) (h : C.aliases i = some k) :
    k < i ∧ ∃ b, Outer C f k b ∧ ∀ j < i, ∀ o, Outer C f j o → o.stop ≤ b.stop := by
  rw [BinaryContext.aliases, hf, Option.bind_some] at h
  split at h
  · exact absurd h (by simp)
  · obtain ⟨⟨k, b⟩, hfound, rfl⟩ := Option.map_eq_some_iff.mp h
    obtain ⟨hfrom, -, hall⟩ := foldl_considerOuter (C := C) (f := f) (List.range i) none
    obtain ⟨hk, hout⟩ := (hfrom k b hfound).resolve_left (by simp)
    refine ⟨List.mem_range.mp hk, b, hout, fun j hj o ho => ?_⟩
    obtain ⟨k', b', hfound', hle⟩ := hall j (List.mem_range.mpr hj) o ho
    rw [hfound, Option.some.injEq, Prod.mk.injEq] at hfound'
    rw [hfound'.2]
    exact hle

/-- A function that overlaps an earlier one is an alias. -/
theorem alias_of_outer {j : FunctionId} {o : BinaryFunction} (hf : C.functions[i]? = some f)
    (hover : mayOverlap f) (hj : j < i) (ho : Outer C f j o) : C.aliases i ≠ none := by
  obtain ⟨-, -, hall⟩ := foldl_considerOuter (C := C) (f := f) (List.range i) none
  obtain ⟨k, b, hfound, -⟩ := hall j (List.mem_range.mpr hj) o ho
  rw [BinaryContext.aliases, hf, Option.bind_some, if_neg (by simp [hover]), hfound]
  simp

theorem alias_lt {k : FunctionId} (h : C.aliases i = some k) : k < i := by
  cases hf : C.functions[i]? with
  | none => simp [BinaryContext.aliases, hf] at h
  | some f => exact (outer_of_alias hf h).1

/-- Turns past the place of a function change nothing. -/
theorem chase_eq : ∀ {i n m : Nat}, i < n → i < m → C.chase n i = C.chase m i := by
  intro i
  induction i using Nat.strong_induction_on with
  | _ i ih =>
    intro n m hn hm
    obtain ⟨n, rfl⟩ := Nat.exists_eq_succ_of_ne_zero (Nat.ne_of_gt (Nat.zero_lt_of_lt hn))
    obtain ⟨m, rfl⟩ := Nat.exists_eq_succ_of_ne_zero (Nat.ne_of_gt (Nat.zero_lt_of_lt hm))
    rw [BinaryContext.chase, BinaryContext.chase]
    cases h : C.aliases i with
    | none => rfl
    | some j =>
      have hj := alias_lt h
      exact ih j hj (Nat.lt_of_lt_of_le hj (Nat.lt_succ_iff.mp hn))
        (Nat.lt_of_lt_of_le hj (Nat.lt_succ_iff.mp hm))

theorem canonicalize_of_alias {k : FunctionId} (h : C.aliases i = some k) :
    C.canonicalize i = C.canonicalize k := by
  rw [BinaryContext.canonicalize, BinaryContext.chase, h]
  exact chase_eq (alias_lt h) (Nat.lt_succ_self k)

theorem canonicalize_of_none (h : C.aliases i = none) : C.canonicalize i = i := by
  rw [BinaryContext.canonicalize, BinaryContext.chase, h]

/-- A canonical function is no alias. -/
theorem aliases_canonicalize (i : FunctionId) : C.aliases (C.canonicalize i) = none := by
  induction i using Nat.strong_induction_on with
  | _ i ih =>
    cases h : C.aliases i with
    | none => rw [canonicalize_of_none h, h]
    | some k => rw [canonicalize_of_alias h, ih k (alias_lt h)]

theorem canonicalize_idem (i : FunctionId) :
    C.canonicalize (C.canonicalize i) = C.canonicalize i :=
  canonicalize_of_none (aliases_canonicalize i)

theorem sameOriginSection_trans {a b c : BinaryFunction} (hab : sameOriginSection a b)
    (hbc : sameOriginSection b c) : sameOriginSection a c := by
  simp only [sameOriginSection, Bool.and_eq_true, beq_iff_eq] at *
  exact ⟨hab.1, hab.2.trans hbc.2⟩

theorem sameOriginSection_symm {a b : BinaryFunction} (hab : sameOriginSection a b) :
    sameOriginSection b a := by
  simp only [sameOriginSection, Bool.and_eq_true, beq_iff_eq] at *
  exact ⟨hab.2 ▸ hab.1, hab.2.symm⟩

/-- The map is sorted by address. -/
def Sorted (C : BinaryContext) : Prop := C.functions.Pairwise fun f g => f.address < g.address

theorem Sorted.lt_iff (hC : Sorted C) {j : FunctionId} {g : BinaryFunction}
    (hf : C.functions[i]? = some f) (hg : C.functions[j]? = some g) :
    f.address < g.address ↔ i < j := by
  have hlt : ∀ {a b : FunctionId} {x y : BinaryFunction}, C.functions[a]? = some x →
      C.functions[b]? = some y → a < b → x.address < y.address := by
    intro a b x y hx hy hab
    obtain ⟨ha, rfl⟩ := List.getElem?_eq_some_iff.mp hx
    obtain ⟨hb, rfl⟩ := List.getElem?_eq_some_iff.mp hy
    exact List.pairwise_iff_getElem.mp hC a b ha hb hab
  refine ⟨fun h => ?_, hlt hf hg⟩
  rcases Nat.lt_trichotomy i j with hij | rfl | hij
  · exact hij
  · rw [Option.some.inj (hf.symm.trans hg)] at h
    exact absurd h (Nat.lt_irrefl _)
  · exact absurd (hlt hg hf hij) (Nat.lt_asymm h)

variable {t : FunctionId} {g : BinaryFunction}

/-- A function that is no alias stands for all that start in it. -/
theorem canonicalize_of_outer (hC : Sorted C) (hg : C.functions[i]? = some g)
    (hnone : C.aliases i = none) : ∀ {t : FunctionId} {f : BinaryFunction},
      C.functions[t]? = some f → mayOverlap f → Outer C f i g → C.canonicalize t = i := by
  intro t
  induction t using Nat.strong_induction_on with
  | _ t ih =>
    intro f hf hover hout
    have hit := (hC.lt_iff hg hf).mp hout.before
    obtain ⟨k, hk⟩ := Option.ne_none_iff_exists'.mp (alias_of_outer hf hover hit hout)
    obtain ⟨hkt, o, ho, hmax⟩ := outer_of_alias hf hk
    rw [canonicalize_of_alias hk]
    have hsame := sameOriginSection_trans hout.section_eq (sameOriginSection_symm ho.section_eq)
    have hpast := hout.past
    rcases Nat.lt_trichotomy i k with hik | rfl | hki
    · have hbefore := (hC.lt_iff hg ho.found).mpr hik
      exact ih k hkt ho.found ho.mayOverlap
        ⟨hg, hout.mayOverlap, hsame, hbefore, Nat.lt_trans ho.before hpast⟩
    · exact canonicalize_of_none hnone
    -- otherwise the best outer function would make `g` an alias
    · have hbefore := (hC.lt_iff ho.found hg).mpr hki
      have houter : Outer C g k o := ⟨ho.found, ho.mayOverlap, sameOriginSection_symm hsame, hbefore,
        Nat.lt_trans hout.before ho.past⟩
      exact absurd hnone (alias_of_outer hg hout.mayOverlap hki houter)

/-- A function that is no alias stands for all with which it has a byte in common. -/
theorem canonicalize_eq (hC : Sorted C) (hf : C.functions[t]? = some f)
    (hg : C.functions[i]? = some g) (hfo : mayOverlap f) (hgo : mayOverlap g)
    (hsame : sameOriginSection g f) {b : Nat} (hfb : f.address ≤ b ∧ b < f.stop)
    (hgb : g.address ≤ b ∧ b < g.stop) (hnone : C.aliases i = none) : C.canonicalize t = i := by
  rcases Nat.lt_trichotomy i t with h | rfl | h
  · exact canonicalize_of_outer hC hg hnone hf hfo
      ⟨hg, hgo, hsame, (hC.lt_iff hg hf).mpr h, Nat.lt_of_le_of_lt hfb.1 hgb.2⟩
  · exact canonicalize_of_none hnone
  · have houter : Outer C g t f := ⟨hf, hfo, sameOriginSection_symm hsame,
      (hC.lt_iff hf hg).mpr h, Nat.lt_of_le_of_lt hgb.1 hfb.2⟩
    exact absurd hnone (alias_of_outer hg hgo h houter)

end Aliases

/-! ## Live functions -/

section Live

variable {C : BinaryContext}

/-- All functions that can become live. -/
theorem targets_subset (i : FunctionId) : C.targets i ⊆ C.seeds ++ C.edges.map (·.2) := by
  intro j hj
  obtain ⟨e, he, rfl⟩ := List.mem_map.mp hj
  exact List.mem_append_right _ (List.mem_map_of_mem (List.mem_of_mem_filter he))

variable {i : FunctionId} {f : BinaryFunction}

theorem live_of_seed (h : i ∈ C.seeds) : i ∈ C.live :=
  Worklist.mem_closure_of_root (fun a _ => targets_subset a)
    (List.subset_append_left _ _) (by simp) h

theorem live_of_target {j : FunctionId} (hi : i ∈ C.live) (hj : j ∈ C.targets i) : j ∈ C.live :=
  Worklist.mem_closure_of_next (fun a _ => targets_subset a)
    (List.subset_append_left _ _) (by simp) hi hj

theorem live_of_protected (h : i ∈ C.protectedFunctions) : i ∈ C.live :=
  live_of_seed (List.mem_append_right _ h)

theorem live_canonicalize_of_protected (h : i ∈ C.protectedFunctions) : C.canonicalize i ∈ C.live :=
  live_of_seed (List.mem_append_left _ (List.mem_map_of_mem h))

/-- An edge makes its target live. -/
theorem live_of_addEdge {t : FunctionId} (hi : C.canonicalize i ∈ C.live)
    (h : C.addEdge i t ⊆ C.edges) : C.canonicalize t ∈ C.live := by
  by_cases heq : C.canonicalize i = C.canonicalize t
  · exact heq ▸ hi
  · rw [BinaryContext.addEdge, if_neg heq] at h
    have hedge := h List.mem_cons_self
    refine live_of_target hi (List.mem_map.mpr ⟨_, List.mem_filter.mpr ⟨hedge, ?_⟩, rfl⟩)
    rw [decide_eq_true_eq, canonicalize_idem]

theorem protected_of_conservative (hf : C.functions[i]? = some f)
    (h : isConservativeRoot f = true) : i ∈ C.protectedFunctions := by
  refine List.mem_append_left _ (List.mem_append_right _ (List.mem_map.mpr ⟨(f, i), ?_, rfl⟩))
  exact List.mem_filter.mpr ⟨List.mk_mem_zipIdx_iff_getElem?.mpr hf, h⟩

/-- A function with a body that is no conservative root may be cleared. -/
theorem canClearBody_of_not_root {I : MCInstrInfo} (hroot : isConservativeRoot f = false)
    (hbody : f.hasNonPseudoInstructions I = true) : canClearBody I f true = true := by
  simp only [isConservativeRoot, Bool.or_eq_false_iff, Bool.not_eq_false'] at hroot
  simp [canClearBody, hroot, hbody]

/-- What remains with a body is represented by a live function. -/
theorem live_of_remains (hf : C.functions[i]? = some f) (hremains : C.cleared i f = false)
    (hbody : isConservativeRoot f = true ∨ f.hasNonPseudoInstructions C.info = true) :
    C.canonicalize i ∈ C.live := by
  by_cases hroot : isConservativeRoot f = true
  · exact live_canonicalize_of_protected (protected_of_conservative hf hroot)
  · have hclear := canClearBody_of_not_root (Bool.eq_false_of_not_eq_true hroot)
      (hbody.resolve_left hroot)
    rw [BinaryContext.cleared, hclear, Bool.true_and, Bool.not_eq_false', Bool.and_eq_true,
      Bool.or_eq_true, decide_eq_true_eq, decide_eq_true_eq] at hremains
    rcases hremains with ⟨halias | hprotected, hlive⟩
    · have hnone : C.aliases i = none := by simpa using halias
      rwa [canonicalize_of_none hnone]
    · exact live_canonicalize_of_protected hprotected

/-- The pass finds that function `i` refers to function `t`, or that `t` has its address taken. -/
inductive Resolves (C : BinaryContext) (i t : FunctionId) : Prop
  | instruction {f : BinaryFunction} {p : Inst × Nat} (hf : C.functions[i]? = some f)
    (hsimple : f.isSimple = true) (hcfg : f.hasCFG = true) (hp : p ∈ C.instructions f)
    (ht : C.instructionTarget f p = some t)
  | control {s : BinarySection} {r : Relocation} (hs : s ∈ C.allocatableSections)
    (hr : r ∈ s.relocations) (ht : C.resolveRelocationTarget r = some t)
    (hi : C.directSource s r = some i)
  | taken (h : t ∈ C.addressTaken)

theorem Resolves.live {t : FunctionId} (h : Resolves C i t) (hi : C.canonicalize i ∈ C.live) :
    C.canonicalize t ∈ C.live := by
  cases h with
  | @instruction f p hf hsimple hcfg hp ht =>
    refine live_of_addEdge hi fun e he => List.mem_append_left _ ?_
    refine List.mem_flatMap.mpr ⟨(f, i), List.mk_mem_zipIdx_iff_getElem?.mpr hf, ?_⟩
    dsimp only
    rw [if_neg (by simp [hsimple, hcfg])]
    exact List.mem_flatMap.mpr ⟨t, List.mem_filterMap.mpr ⟨p, hp, ht⟩, he⟩
  | @control s r hs hr ht hsource =>
    refine live_of_addEdge hi fun e he => List.mem_append_right _ ?_
    refine List.mem_flatMap.mpr ⟨s, hs, List.mem_flatMap.mpr ⟨r, hr, ?_⟩⟩
    rw [ht, hsource]
    exact he
  | taken ht => exact live_canonicalize_of_protected (List.mem_append_right _ ht)

end Live

/-! ## What the rewriter leaves to the pass -/

/-- `scanExternalRefs`: whether the scan succeeds, with relocations in the input, is not
modelled. -/
def scanExternalRefs (success : Bool) (f : BinaryFunction) : BinaryFunction :=
  if f.isPseudo then f
  else { f with hasExternalRefRelocations := f.hasExternalRefRelocations || success }

/-- `setIgnored`. -/
def setIgnored (processAllFunctions : Bool) (f : BinaryFunction) : BinaryFunction :=
  if processAllFunctions then { f with isIgnored := true }
  else { f with isIgnored := true, isSimple := false, hasCFG := false, blocks := [] }

/-- What is done to a function before the pass. -/
inductive Step : BinaryFunction → BinaryFunction → Prop
  /-- `setSimple`, which is called with `false` only. -/
  | setSimple (f : BinaryFunction) : Step f { f with isSimple := false }
  /-- `setPseudo`, which is called with `true` only, and `setPLTSymbol`. -/
  | setPseudo (f : BinaryFunction) : Step f { f with isPseudo := true }
  /-- `selectFunctionsToProcess`. -/
  | selectPseudo (f : BinaryFunction) (h : f.isPseudo = true) :
    Step f { f with isIgnored := true, hasExternalRefRelocations := true }
  /-- `disassembleFunctions` for a function that is not to be disassembled. -/
  | scan (f : BinaryFunction) (success : Bool) :
    Step f { scanExternalRefs success f with isSimple := false }
  | setIgnored (f : BinaryFunction) (processAllFunctions : Bool) :
    Step f (setIgnored processAllFunctions f)
  /-- All else, disassembly and the other passes among it, leaves three flags as they are. -/
  | other (f g : BinaryFunction) (hpseudo : g.isPseudo = f.isPseudo)
    (hsimple : g.isSimple = f.isSimple)
    (hrefs : g.hasExternalRefRelocations = f.hasExternalRefRelocations) : Step f g

/-- A function as it comes to the pass: made without relocations for its references, and changed in
steps. -/
def Built (f : BinaryFunction) : Prop :=
  ∃ made : BinaryFunction, made.isPseudo = false ∧ made.hasExternalRefRelocations = false ∧
    Relation.ReflTransGen Step made f

/-- Functions with relocations for their references are not to be optimized. -/
def Flagged (f : BinaryFunction) : Prop :=
  f.hasExternalRefRelocations = true → f.isPseudo = true ∨ f.isSimple = false

variable {f : BinaryFunction}

theorem Step.flagged {g : BinaryFunction} (h : Step f g) (hf : Flagged f) : Flagged g := by
  cases h with
  | setSimple => exact fun _ => .inr rfl
  | setPseudo => exact fun _ => .inl rfl
  | selectPseudo hpseudo => exact fun _ => .inl hpseudo
  | scan => exact fun _ => .inr rfl
  | setIgnored processAllFunctions =>
    cases processAllFunctions with
    | true => exact hf
    | false => exact fun _ => .inr rfl
  | other _ hpseudo hsimple hrefs =>
    rw [Flagged, hpseudo, hsimple, hrefs]
    exact hf

theorem Built.flagged (h : Built f) : Flagged f := by
  obtain ⟨made, -, hmade, hsteps⟩ := h
  induction hsteps with
  | refl => exact fun h => absurd (hmade.symm.trans h) (by decide)
  | tail _ hstep ih => exact hstep.flagged ih

/-- A body that may be cleared belongs to a simple function with relocations for its references. -/
theorem flags_of_canClearBody {I : MCInstrInfo} (h : canClearBody I f true = true) :
    f.isPseudo = false ∧ f.isSimple = true ∧ f.hasExternalRefRelocations = true := by
  unfold canClearBody at h
  cases hp : f.isPseudo <;> cases hs : f.isSimple <;> cases hr : f.hasExternalRefRelocations <;>
    simp [hp, hs, hr] at h ⊢

theorem Built.not_cleared {I : MCInstrInfo} (h : Built f) : canClearBody I f true = false := by
  by_contra hclear
  obtain ⟨hpseudo, hsimple, hrefs⟩ := flags_of_canClearBody (Bool.not_eq_false _ ▸ hclear)
  rcases h.flagged hrefs with h | h
  · exact absurd (hpseudo.symm.trans h) (by decide)
  · exact absurd (hsimple.symm.trans h) (by decide)

section Nested

/-- A function of four-byte instructions in one section. -/
def plainFunction (address size : Nat) (insts : List MCInst) : BinaryFunction where
  address := address
  size := size
  maxSize := size
  originSection := some 0
  blocks := [⟨0, insts.map fun i => ⟨i, none⟩⟩]
  hasCFG := true

/-- A caller, a function, and one that starts in it; `relocations` is their flag. -/
def nestedContext (relocations : Bool) : BinaryContext where
  functions := [
    plainFunction 0 8 [⟨.jal, [.reg (gpr 1), .expr (.symbolRef 0 2)], false⟩],
    { plainFunction 16 16 [⟨.cNop, [], false⟩] with hasExternalRefRelocations := relocations },
    { plainFunction 24 8 [⟨.cNop, [], false⟩] with hasExternalRefRelocations := relocations }]
  functionForSymbol s := some s
  symbolAddress _ := 24
  exprAddress _ := 24
  allocatableSections := []
  startFunctionAddress := some 0
  finiFunctionAddress := none
  info := noOthers
  instSize _ := 4

theorem built_plainFunction (address size : Nat) (insts : List MCInst) :
    Built (plainFunction address size insts) :=
  ⟨plainFunction address size insts, rfl, rfl, .refl⟩

/-- With the flag that no function has, it would be the alias that loses its body. -/
example : ((nestedContext true).functions.mapIdx fun i f => (nestedContext true).cleared i f) =
    [false, false, true] := by decide

end Nested

end RvLlvm.Bolt.ElimUnusedFuncs
