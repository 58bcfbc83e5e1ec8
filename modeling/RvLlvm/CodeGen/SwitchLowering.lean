import RvLlvm.Support.Compact
import Mathlib.Algebra.Order.Ring.Int
import Mathlib.Data.List.Dedup

/-!
# Switch clusters

How a switch becomes ranges, jump tables and bit tests
(`llvm/lib/CodeGen/SwitchLoweringUtils.cpp`).

* `sortAndRangeify` merges adjacent cases with one destination.
* `findJumpTables` and `findBitTestClusters` cut the clusters into partitions by dynamic programming
  and build a table or masks for some of them, in the same vector.
* `CaseCluster.dest` and `select`: where the emitted tests send a value.

What the target and the tuner decide is a field of `Target`.
-/

namespace RvLlvm.CodeGen.Switch

open Support

/-! ## Clusters -/

inductive CaseClusterKind
  | CC_Range (mbb : Nat)
  | CC_JumpTable (index : Nat)
  | CC_BitTests (index : Nat)
deriving DecidableEq

structure CaseCluster (w : Nat) where
  kind : CaseClusterKind
  low : BitVec w
  high : BitVec w
  prob : Nat
deriving DecidableEq

/-- `JumpTableHeader` and the table behind it. -/
structure JumpTable (w : Nat) where
  first : BitVec w
  last : BitVec w
  table : List Nat

/-- `CaseBits`, `BitTestCase`. -/
structure CaseBits where
  mask : BitVec 64
  bb : Nat
  bits : Nat
  extraProb : Nat

structure BitTestBlock (w : Nat) where
  first : BitVec w
  range : BitVec w
  cases : List CaseBits
  prob : Nat

/-- The tables that the clusters index. -/
structure SwitchLowering (w : Nat) where
  jtCases : List (JumpTable w)
  bitTestCases : List (BitTestBlock w)

/-- The target and the options; the machine word has at most the 64 bits of a mask. -/
structure Target where
  areJTsAllowed : Bool
  minimumJumpTableEntries : Nat
  isSuitableForJumpTable : Nat → Nat → Bool
  optNone : Bool
  shlLegal : Bool
  pointerBits : Nat
  indexBits : Nat
  pointerBits_le : pointerBits ≤ 64
  indexBits_le : indexBits ≤ 64

variable {w : Nat}

def CaseCluster.mbb (c : CaseCluster w) : Nat :=
  match c.kind with
  | .CC_Range mbb => mbb
  | _ => 0

/-- `BranchProbability::operator+=` saturates. -/
def addProb (a b : Nat) : Nat := min (a + b) (2 ^ 31)

def totalProb (cs : List (CaseCluster w)) : Nat := (cs.map CaseCluster.prob).foldl addProb 0

/-! ## `sortAndRangeify` -/

/-- The case at `src` extends the last cluster or starts one, at `dst` in the same vector. -/
def rangeifyStep (s : List (CaseCluster w) × Nat) (src : Nat) : List (CaseCluster w) × Nat :=
  match s.1[src]? with
  | none => s
  | some cc =>
    match if s.2 = 0 then none else s.1[s.2 - 1]? with
    | some prev =>
      if prev.kind = cc.kind ∧ cc.low - prev.high = 1 then
        (s.1.set (s.2 - 1) { prev with high := cc.low, prob := addProb prev.prob cc.prob }, s.2)
      else (s.1.set s.2 cc, s.2 + 1)
    | none => (s.1.set s.2 cc, s.2 + 1)

def sortAndRangeify (clusters : List (CaseCluster w)) : List (CaseCluster w) :=
  let sorted := clusters.mergeSort fun a b => decide (a.low.toInt ≤ b.low.toInt)
  let s := (List.range sorted.length).foldl rangeifyStep (sorted, 0)
  s.1.take s.2

/-! ## The partitions -/

/-- `APInt::getLimitedValue`. -/
def getLimitedValue (x : BitVec w) (limit : Nat) : Nat := if limit < x.toNat then limit else x.toNat

/-- The entries of `MinPartitions`, `LastElement` and `PartitionsScore` at one index (bit tests keep
no score). -/
structure Partition where
  minPartitions : Nat
  lastElement : Nat
  score : Nat

/-- The three arrays from index `n - 1 - k` on, filled from the back. -/
def partitions (n : Nat) (search : Nat → List Partition → Partition → Partition) :
    Nat → List Partition
  | 0 => [⟨1, n - 1, 2⟩]
  | k + 1 =>
    let rest := partitions n search k
    let i := n - 2 - k
    let baseline : Partition :=
      ⟨(rest.head?.elim 0 (·.minPartitions)) + 1, i, (rest.head?.elim 0 (·.score)) + 2⟩
    search i rest baseline :: rest

/-- `1 + (j == N - 1 ? 0 : MinPartitions[j + 1])`, with the arrays from `i + 1` on. -/
def numPartitions (rest : List Partition) (i j : Nat) : Nat :=
  1 + (rest[j - i]?).elim 0 (·.minPartitions)

def lowAt (clusters : List (CaseCluster w)) (i : Nat) : BitVec w := (clusters[i]?).elim 0 (·.low)

def highAt (clusters : List (CaseCluster w)) (i : Nat) : BitVec w := (clusters[i]?).elim 0 (·.high)

/-! ## Jump tables -/

def getJumpTableRange (clusters : List (CaseCluster w)) (first last : Nat) : Nat :=
  getLimitedValue (highAt clusters last - lowAt clusters first) ((2 ^ 64 - 2) / 100) + 1

/-- `TotalCases`, an array of `unsigned`. -/
def totalCases (clusters : List (CaseCluster w)) : List Nat :=
  (clusters.map fun c => getLimitedValue (c.high - c.low) (2 ^ 64 - 1) + 1).scanl
    (fun total n => (total + n) % 2 ^ 32) 0

def getJumpTableNumCases (total : List Nat) (first last : Nat) : Nat :=
  ((total[last + 1]?).getD 0 + 2 ^ 32 - (total[first]?).getD 0) % 2 ^ 32

def rangeFitsInWord (t : Target) (low high : BitVec w) : Prop :=
  getLimitedValue (high - low) (2 ^ 64 - 2) + 1 ≤ t.indexBits

instance (t : Target) (low high : BitVec w) : Decidable (rangeFitsInWord t low high) :=
  inferInstanceAs (Decidable (_ ≤ _))

def isSuitableForBitTests (t : Target) (numDests numCmps : Nat) (low high : BitVec w) : Prop :=
  rangeFitsInWord t low high ∧
    (numDests = 1 ∧ 3 ≤ numCmps ∨ numDests = 2 ∧ 5 ≤ numCmps ∨ numDests = 3 ∧ 6 ≤ numCmps)

instance (t : Target) (d c : Nat) (low high : BitVec w) :
    Decidable (isSuitableForBitTests t d c low high) := inferInstanceAs (Decidable (_ ∧ _))

def numDests (cs : List (CaseCluster w)) : Nat := (cs.map CaseCluster.mbb).dedup.length

def numCmps (cs : List (CaseCluster w)) : Nat :=
  (cs.map fun c => if c.low = c.high then 1 else 2).sum

/-- The table, with the default in the gaps; the counts are `uint64_t`. -/
def tableOf (defaultMBB : Nat) : List (CaseCluster w) → List Nat
  | [] => []
  | [c] => List.replicate ((getLimitedValue (c.high - c.low) (2 ^ 64 - 1) + 1) % 2 ^ 64) c.mbb
  | c :: d :: cs =>
    List.replicate ((getLimitedValue (c.high - c.low) (2 ^ 64 - 1) + 1) % 2 ^ 64) c.mbb ++
      List.replicate (getLimitedValue (d.low - c.high) (2 ^ 64 - 1) - 1) defaultMBB ++
      tableOf defaultMBB (d :: cs)

def buildJumpTable (t : Target) (defaultMBB : Nat) (sl : SwitchLowering w)
    (cs : List (CaseCluster w)) : Option (SwitchLowering w × CaseCluster w) :=
  match cs.head?, cs.getLast? with
  | some first, some last =>
    if isSuitableForBitTests t (numDests cs) (numCmps cs) first.low last.high then none
    else
      some ({ sl with jtCases := sl.jtCases ++ [⟨first.low, last.high, tableOf defaultMBB cs⟩] },
        ⟨.CC_JumpTable sl.jtCases.length, first.low, last.high, totalProb cs⟩)
  | _, _ => none

section
variable (t : Target) (clusters : List (CaseCluster w))

def suitsJumpTable (i j : Nat) : Bool :=
  t.isSuitableForJumpTable (getJumpTableNumCases (totalCases clusters) i j)
    (getJumpTableRange clusters i j)

def tableScore (numEntries : Nat) : Nat :=
  if numEntries = 1 then 2
  else if numEntries ≤ t.minimumJumpTableEntries / 2 then 1
  else if t.minimumJumpTableEntries ≤ numEntries then 1
  else 0

/-- The loop over `j`, from `i + k` down to `i + 1`. -/
def searchTables (i : Nat) (rest : List Partition) : Nat → Partition → Partition
  | 0, best => best
  | k + 1, best =>
    let j := i + (k + 1)
    if suitsJumpTable t clusters i j then
      let parts := numPartitions rest i j
      let score := (rest[j - i]?).elim 0 (·.score) + tableScore t (j - i + 1)
      if parts < best.minPartitions ∨ (parts = best.minPartitions ∧ best.score < score) then
        searchTables i rest k ⟨parts, j, score⟩
      else searchTables i rest k best
    else searchTables i rest k best

def tablePartitions : List Partition :=
  partitions clusters.length (fun i rest best =>
    searchTables t clusters i rest (clusters.length - 1 - i) best) (clusters.length - 1)

def findJumpTables (defaultMBB : Nat) (sl : SwitchLowering w) :
    Option (SwitchLowering w × List (CaseCluster w)) :=
  let n := clusters.length
  if ¬t.areJTsAllowed then some (sl, clusters)
  -- Bail if not enough cases.
  else if n < 2 ∨ n < t.minimumJumpTableEntries then some (sl, clusters)
  else
    -- Cheap case: the whole range may be suitable for jump table.
    match if suitsJumpTable t clusters 0 (n - 1) then buildJumpTable t defaultMBB sl clusters
      else none with
    | some (sl, c) => some (sl, [c])
    | none =>
      if t.optNone then some (sl, clusters)
      else
        compact moveEach n ((tablePartitions t clusters).map (·.lastElement))
          (fun sl cs => if t.minimumJumpTableEntries ≤ cs.length then
            buildJumpTable t defaultMBB sl cs else none) 0 0 clusters sl

/-! ## Bit tests -/

def rangesOnly (cs : List (CaseCluster w)) : Bool :=
  cs.all fun c => match c.kind with
    | .CC_Range _ => true
    | _ => false

/-- The loop over `j`, from `i + k` down to `i + 1`. -/
def searchBits (i : Nat) (rest : List Partition) : Nat → Partition → Partition
  | 0, best => best
  | k + 1, best =>
    let j := i + (k + 1)
    if ¬rangeFitsInWord t (lowAt clusters i) (highAt clusters j) then searchBits i rest k best
    else if ¬rangesOnly (piece clusters i j) ∨ 3 < numDests (piece clusters i j) then best
    else if numPartitions rest i j < best.minPartitions then
      searchBits i rest k ⟨numPartitions rest i j, j, 0⟩
    else searchBits i rest k best

def bitPartitions : List Partition :=
  partitions clusters.length (fun i rest best =>
    searchBits t clusters i rest (min (clusters.length - 1 - i) (t.pointerBits - 1)) best)
    (clusters.length - 1)

end

/-- `Mask`, `Bits` and `ExtraProb` of one more cluster. -/
def CaseBits.add (b : CaseBits) (lowBound : BitVec w) (c : CaseCluster w) : CaseBits :=
  let lo := (c.low - lowBound).toNat
  let hi := (c.high - lowBound).toNat
  { b with
    mask := b.mask ||| (BitVec.allOnes 64 >>> (63 - (hi - lo))) <<< lo
    bits := b.bits + (hi - lo + 1)
    extraProb := addProb b.extraProb c.prob }

/-- Find the CaseBits for this destination, and update it. -/
def addCaseBits (lowBound : BitVec w) : List CaseBits → CaseCluster w → List CaseBits
  | [], c => [CaseBits.add ⟨0, c.mbb, 0, 0⟩ lowBound c]
  | b :: cbv, c => if b.bb = c.mbb then b.add lowBound c :: cbv else b :: addCaseBits lowBound cbv c

/-- Sort by probability first, number of bits second, bit mask third. -/
def caseBitsLe (a b : CaseBits) : Bool :=
  if a.extraProb ≠ b.extraProb then b.extraProb < a.extraProb
  else if a.bits ≠ b.bits then b.bits < a.bits
  else a.mask ≤ b.mask

def buildBitTests (t : Target) (sl : SwitchLowering w) (cs : List (CaseCluster w)) :
    Option (SwitchLowering w × CaseCluster w) :=
  match cs.head?, cs.getLast? with
  | some first, some last =>
    if cs.length = 1 then none
    else
      let low := first.low
      let high := last.high
      if ¬isSuitableForBitTests t (numDests cs) (numCmps cs) low high then none
      else
        -- Optimize the case where all the case values fit in a word without having to subtract
        -- minValue.
        let inWord := 0 < low.toInt ∧ high.toInt < t.pointerBits
        let lowBound := if inWord then 0 else low
        let cmpRange := if inWord then high else high - low
        let cbv := cs.foldl (addCaseBits lowBound) []
        some ({ sl with bitTestCases :=
            sl.bitTestCases ++ [⟨lowBound, cmpRange, cbv.mergeSort caseBitsLe, totalProb cs⟩] },
          ⟨.CC_BitTests sl.bitTestCases.length, low, high, totalProb cs⟩)
  | _, _ => none

def findBitTestClusters (t : Target) (clusters : List (CaseCluster w)) (sl : SwitchLowering w) :
    Option (SwitchLowering w × List (CaseCluster w)) :=
  if t.optNone then some (sl, clusters)
  else if ¬t.shlLegal then some (sl, clusters)
  else
    compact moveDown clusters.length ((bitPartitions t clusters).map (·.lastElement))
      (buildBitTests t) 0 0 clusters sl

/-! ## The emitted tests -/

/-- Where the code of a cluster sends a value; `none` is the next cluster. -/
def CaseCluster.dest (sl : SwitchLowering w) (c : CaseCluster w) (v : BitVec w) : Option Nat :=
  match c.kind with
  | .CC_Range mbb => if c.low.toInt ≤ v.toInt ∧ v.toInt ≤ c.high.toInt then some mbb else none
  | .CC_JumpTable i => (sl.jtCases[i]?).bind fun jt =>
    if (v - jt.first).toNat ≤ (jt.last - jt.first).toNat then jt.table[(v - jt.first).toNat]?
    else none
  | .CC_BitTests i => (sl.bitTestCases[i]?).bind fun bt =>
    if (v - bt.first).toNat ≤ bt.range.toNat then
      (bt.cases.find? fun b => b.mask.getLsbD (v - bt.first).toNat).map (·.bb)
    else none

def select (sl : SwitchLowering w) (clusters : List (CaseCluster w)) (defaultMBB : Nat)
    (v : BitVec w) : Nat :=
  (clusters.findSome? fun c => c.dest sl v).getD defaultMBB

/-- A switch: distinct case values with destinations and probabilities. -/
structure SwitchInst (w : Nat) where
  cases : List (BitVec w × Nat × Nat)
  nodup : (cases.map Prod.fst).Nodup
  -- the count is an `unsigned`
  numCases : cases.length < 2 ^ 32
  defaultMBB : Nat

def SwitchInst.dest (si : SwitchInst w) (v : BitVec w) : Nat :=
  ((si.cases.find? fun c => c.1 = v).map fun c => c.2.1).getD si.defaultMBB

/-- The clusters of `visitSwitch`. -/
def switchClusters (t : Target) (si : SwitchInst w) :
    Option (SwitchLowering w × List (CaseCluster w)) :=
  let clusters := sortAndRangeify (si.cases.map fun c => ⟨.CC_Range c.2.1, c.1, c.1, c.2.2⟩)
  if clusters = [] then some (⟨[], []⟩, [])
  else (findJumpTables t clusters si.defaultMBB ⟨[], []⟩).bind fun (sl, clusters) =>
    findBitTestClusters t clusters sl

end RvLlvm.CodeGen.Switch
