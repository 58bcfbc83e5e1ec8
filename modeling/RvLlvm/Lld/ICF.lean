import Mathlib.Algebra.Order.Ring.Int
import Mathlib.Data.List.Sort
import RvLlvm.Support.DoWhile
import RvLlvm.Support.Splitting

/-!
# Identical code folding in lld

Model of `lld/ELF/ICF.cpp:196-530`. Sections and symbols are numbers, and a relocation carries the
symbol that `getRelocTargetSym` gives for it. A state has the vector of the sections and the two
slots of `eqClass`; the shards of a round run one after the other, in any order. The content hash is
a parameter.
-/

namespace RvLlvm.Lld.ICF

open RvLlvm.Support

/-! ## The objects -/

/-- The section of a symbol: an `InputSection`, a `MergeInputSection` or one of another kind. -/
inductive SymSection
  | input (s : Nat)
  | merge (s : Nat)
  | other (s : Nat)

/-- `Defined`. -/
structure Defined where
  sec : Option SymSection
  value : UInt64
  isSection : Bool
  scriptDefined : Bool
  isPreemptible : Bool

/-- `Elf_Rel` or `Elf_Rela`; the addend of a `Rel` is 0. -/
structure Reloc where
  offset : Nat
  type : Nat
  addend : UInt64
  sym : Nat

/-- `InputSection`. It has relocations of one of the two types. -/
structure Section where
  flags : Nat
  size : Nat
  content : List Nat
  parent : Nat
  isSynthetic : Bool
  rels : List Reloc
  relas : List Reloc

/-- `MergeInputSection`. -/
structure MergeSection where
  parent : Nat
  getOffset : UInt64 → UInt64

/-- What is linked. -/
structure Objects where
  isec : Nat → Section
  merge : Nat → MergeSection
  /-- `dyn_cast<Defined>`. -/
  defined : Nat → Option Defined

variable (O : Objects)

/-- The relocations of a section, of the type that it has. -/
def relsOrRelas (s : Nat) : List Reloc :=
  if (O.isec s).rels ≠ [] then (O.isec s).rels else (O.isec s).relas

/-! ## Comparing sections -/

/-- The offset in the output section that a relocation to a mergeable section has. -/
def mergeOffset (x : Nat) (d : Defined) (addend : UInt64) : UInt64 :=
  if d.isSection then (O.merge x).getOffset addend else (O.merge x).getOffset d.value + addend

/-- The body of the loop of `constantEq`. -/
def relocConstantEq (ra rb : Reloc) : Bool :=
  if ra.offset ≠ rb.offset ∨ ra.type ≠ rb.type then false
  else if ra.sym = rb.sym then ra.addend = rb.addend
  else
    match O.defined ra.sym, O.defined rb.sym with
    | some da, some db =>
      if da.scriptDefined || db.scriptDefined || da.isPreemptible || db.isPreemptible then false
      else
        match da.sec, db.sec with
        | none, none => da.value + ra.addend = db.value + rb.addend
        | some (.input x), some (.input y) =>
          (O.isec x).isSynthetic = (O.isec y).isSynthetic &&
            da.value + ra.addend = db.value + rb.addend
        | some (.merge x), some (.merge y) =>
          (O.merge x).parent = (O.merge y).parent &&
            mergeOffset O x da ra.addend = mergeOffset O y db rb.addend
        | _, _ => false
    | _, _ => false

/-- `constantEq`. -/
def constantEq (ra rb : List Reloc) : Bool :=
  ra.length = rb.length && (ra.zip rb).all fun p => relocConstantEq O p.1 p.2

/-- `equalsConstant`. -/
def equalsConstant (a b : Nat) : Bool :=
  let A := O.isec a
  let B := O.isec b
  A.flags = B.flags && A.size = B.size && A.content = B.content && A.parent = B.parent &&
    if A.rels ≠ [] ∨ B.rels ≠ [] then constantEq O A.rels B.rels else constantEq O A.relas B.relas

/-- The body of the loop of `variableEq`. `constantEq` has ruled out what the casts do not
expect. -/
def relocVariableEq (eqClass : Nat → Nat) (ra rb : Reloc) : Bool :=
  if ra.sym = rb.sym then true
  else
    match O.defined ra.sym, O.defined rb.sym with
    | some da, some db =>
      match da.sec with
      | some (.input x) =>
        match db.sec with
        | some (.input y) => eqClass x ≠ 0 && eqClass x = eqClass y
        | _ => false
      | _ => true
    | _, _ => false

/-- `variableEq`. -/
def variableEq (eqClass : Nat → Nat) (ra rb : List Reloc) : Bool :=
  (ra.zip rb).all fun p => relocVariableEq O eqClass p.1 p.2

/-- `equalsVariable`. -/
def equalsVariable (eqClass : Nat → Nat) (a b : Nat) : Bool :=
  let A := O.isec a
  let B := O.isec b
  if A.rels ≠ [] ∨ B.rels ≠ [] then variableEq O eqClass A.rels B.rels
  else variableEq O eqClass A.relas B.relas

/-! ## Splitting the classes -/

/-- The slots of `eqClass`, and `repeat`. -/
structure Classes where
  slot : Nat → Nat → Nat
  again : Bool

/-- The sections get a class in a slot. -/
def Classes.set (σ : Classes) (next : Nat) (ids : List Nat) (c : Nat) (again : Bool) : Classes where
  slot i s := if i = next ∧ s ∈ ids then c else σ.slot i s
  again := σ.again || again

/-- What one call of `forEachClass` works with: the comparison, the slots and `eqClassBase`. -/
structure Pass where
  equal : (Nat → Nat) → Nat → Nat → Bool
  current : Nat
  next : Nat
  base : Nat

namespace Pass

variable (P : Pass)

/-- `segregate` on the sections from `start` on. -/
def segregate (start : Nat) : List Nat → Classes → List Nat × Classes
  | [], σ => ([], σ)
  | pivot :: rest, σ =>
    let same := rest.filter (P.equal (σ.slot P.current) pivot)
    let others := rest.filter fun s => !P.equal (σ.slot P.current) pivot s
    let mid := start + 1 + same.length
    let tail := segregate mid others
      (σ.set P.next (pivot :: same) ((P.base + mid) % 2 ^ 32) (others ≠ []))
    (pivot :: same ++ tail.1, tail.2)
termination_by l => l.length
decreasing_by
  rw [List.length_unattach]
  exact Nat.lt_succ_of_le ((List.length_filter_le _ _).trans_eq List.length_attach)

/-- `forEachClassRange` on the sections from `start` on. -/
def forEachClassRange (start : Nat) : List Nat → Classes → List Nat × Classes
  | [], σ => ([], σ)
  | s :: rest, σ =>
    let inClass := fun t => decide (σ.slot P.current t = σ.slot P.current s)
    let group := P.segregate start (s :: rest.takeWhile inClass) σ
    let tail := forEachClassRange (start + 1 + (rest.takeWhile inClass).length)
      (rest.dropWhile inClass) group.2
    (group.1 ++ tail.1, tail.2)
termination_by l => l.length
decreasing_by exact Nat.lt_succ_of_le (List.dropWhile_suffix _).length_le

/-- The shards, in the order in which they run. `out` has the sections of every shard. -/
def runShards (shard : Nat → Nat × List Nat) :
    List Nat → (Nat → List Nat) → Classes → (Nat → List Nat) × Classes
  | [], out, σ => (out, σ)
  | i :: order, out, σ =>
    let r := P.forEachClassRange (shard i).1 (shard i).2 σ
    runShards shard order (Function.update out i r.1) r.2

end Pass

/-- `findBoundary`, up to the end of the sections. -/
def findBoundary (eqClass : Nat → Nat) (start : Nat) (sections : List Nat) : Nat :=
  match sections.drop start with
  | [] => sections.length
  | s :: rest => start + 1 + (rest.takeWhile fun t => eqClass t = eqClass s).length

/-- `numShards`. -/
def numShards : Nat := 256

/-- `boundaries`. -/
def boundary (eqClass : Nat → Nat) (sections : List Nat) (i : Nat) : Nat :=
  if i = 0 then 0
  else if i = numShards then sections.length
  else findBoundary eqClass ((i - 1) * (sections.length / numShards)) sections

/-- The shard of an index: where it starts, and its sections. -/
def shard (eqClass : Nat → Nat) (sections : List Nat) (i : Nat) : Nat × List Nat :=
  let start := boundary eqClass sections (i - 1)
  (start, (sections.drop start).take (boundary eqClass sections i - start))

/-- How many threads there are, and the order of the shards in each round. -/
structure Schedule where
  threadsRequested : Nat
  order : Nat → List Nat
  perm : ∀ cnt, (order cnt).Perm (List.range' 1 numShards)

/-- The state of the pass. -/
structure State where
  sections : List Nat
  classes : Classes
  cnt : Nat
  current : Nat
  next : Nat

/-- `forEachClass`. -/
def forEachClass (sch : Schedule) (base : Nat) (equal : (Nat → Nat) → Nat → Nat → Bool) (σ : State) :
    State :=
  if sch.threadsRequested = 1 ∨ σ.sections.length < 1024 then
    let r := Pass.forEachClassRange ⟨equal, σ.current, σ.next, base⟩ 0 σ.sections σ.classes
    { σ with sections := r.1, classes := r.2, cnt := σ.cnt + 1 }
  else
    let current := σ.cnt % 2
    let next := (σ.cnt + 1) % 2
    let shards := shard (σ.classes.slot current) σ.sections
    let r := Pass.runShards ⟨equal, current, next, base⟩ shards (sch.order σ.cnt)
      (fun i => (shards i).2) σ.classes
    ⟨(List.range' 1 numShards).flatMap r.1, r.2, σ.cnt + 1, current, next⟩

/-! ## The whole pass -/

/-- What the pass starts from: the eligible sections, and the classes that the others have got. -/
structure Input where
  objects : Objects
  sections : List Nat
  nodup : sections.Nodup
  unique : Nat → Nat
  uniqueId : Nat
  unique_le : ∀ s, unique s ≤ uniqueId
  /-- The class ids fit in their type. -/
  fits : uniqueId + 1 + sections.length < 2 ^ 32
  xxh3_64bits : List Nat → Nat

namespace Input

variable (I : Input)

/-- The classes from the contents. -/
def hashes : Classes where
  slot i s :=
    if s ∈ I.sections then
      if i = 0 then I.xxh3_64bits (I.objects.isec s).content % 2 ^ 32 ||| 2 ^ 31 else 0
    else I.unique s
  again := false

/-- `combineRelocHashes` on all the sections. -/
def combineRelocHashes (cnt : Nat) (σ : Classes) : Classes where
  slot i s :=
    if i = (cnt + 1) % 2 ∧ s ∈ I.sections then
      let targets := (relsOrRelas I.objects s).filterMap fun r =>
        match I.objects.defined r.sym with
        | some ⟨some (.input x), _, _, _, _⟩ => some (σ.slot (cnt % 2) x)
        | _ => none
      (σ.slot (cnt % 2) s + targets.sum) % 2 ^ 32 ||| 2 ^ 31
    else σ.slot i s
  again := σ.again

/-- The classes that the splitting starts from. -/
def initial : Classes := I.combineRelocHashes 1 (I.combineRelocHashes 0 I.hashes)

/-- `eqClassBase`. -/
def eqClassBase : Nat := I.uniqueId + 1

/-- The sections in the order of their classes. -/
def sorted : List Nat := I.sections.mergeSort fun a b => I.initial.slot 0 a ≤ I.initial.slot 0 b

/-- The first round, which compares what does not move. -/
def constantRound (sch : Schedule) : State :=
  forEachClass sch I.eqClassBase (fun _ => equalsConstant I.objects) ⟨I.sorted, I.initial, 0, 0, 0⟩

/-- The body of the loop. -/
def variableRound (sch : Schedule) (σ : State) : State :=
  forEachClass sch I.eqClassBase (equalsVariable I.objects)
    { σ with classes := { σ.classes with again := false } }

/-- `run`, up to the merging of the classes. There are at most as many classes as sections. -/
def run (sch : Schedule) : Option State :=
  doWhile (I.variableRound sch) (·.classes.again) (I.sections.length + 2) (I.constantRound sch)

end Input

/-- The class of a section when the loop has ended. -/
def State.eqClass (σ : State) (s : Nat) : Nat := σ.classes.slot σ.current s

end RvLlvm.Lld.ICF
