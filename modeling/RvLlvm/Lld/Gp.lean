import Mathlib.Data.List.Sort
import RvLlvm.Lld.Relax

/-!
# The placement of `__global_pointer$`

Model of `calculateRISCVGP` (`lld/ELF/RISCVGP.cpp`): `gp` is put 2 KiB past the start of `.sdata`
(or of the first data section), unless a window of 4 KiB elsewhere covers more of the addresses
that absolute relocations refer to.

* `gpAddrs` collects those addresses; `bestWindow` is the sliding window over them in order.
* `calculateRISCVGP_congr`: the placement depends on the addresses and sizes of sections and on the
  symbols only.
-/

namespace RvLlvm.Lld.Link

open RvLlvm.Support

variable (L : Link)

/-- `isRISCVGPDataSection`. -/
def isRISCVGPDataSection (o : OutId) : Bool :=
  match (L.output o).name with
  | .data | .sdata | .sbss | .bss => true
  | .other _ => false

/-- The loop that picks `defaultSec`: the first data section, the last `.sdata` if there is one. -/
def defaultSec : List OutId → Option OutId → Option OutId
  | [], cur => cur
  | o :: os, cur =>
    if !L.isRISCVGPDataSection o then defaultSec os cur
    else if cur.isNone || (L.output o).name = .sdata then defaultSec os (some o)
    else defaultSec os cur

/-- `countCoveredRefs`. -/
def countCoveredRefs (addrs : List Nat) (gpVA : Int) : Nat :=
  addrs.countP fun addr => isInt 12 (addr - gpVA)

/-- The output section a value lies in. -/
def outputOf : Place → Option OutId
  | .absolute => none
  | .output o => some o
  | .input s => some (L.input s).parent

/-- The address a relocation adds to the list, if any. -/
def gpAddr (st : State) (r : Relocation) : Option Nat :=
  if r.type = .hi20 ∨ r.type = .lo12I ∨ r.type = .lo12S then
    match L.outputOf (st.sym r.sym).place with
    | some o =>
      if o ∈ L.outputSections.filter L.isRISCVGPDataSection
      then some (L.symVA st r.sym r.addend % 2 ^ 64).toNat else none
    | none => none
  else none

/-- `addrs`, sorted. -/
def gpAddrs (st : State) : List Nat :=
  ((L.inputSections.filter fun s => (L.input s).live).flatMap fun s =>
    (L.input s).relocs.filterMap (L.gpAddr st)).insertionSort (· ≤ ·)

/-- The inner loop: moves `l` up while the window from `l` to `r` is too wide; at most `fuel`
steps. -/
def advance (addrs : List Nat) (r : Nat) : Nat → Nat → Nat
  | 0, l => l
  | fuel + 1, l =>
    if 0xfff < addrs.getD r 0 - addrs.getD l 0 then advance addrs r fuel (l + 1) else l

/-- The locals `l`, `bestL` and `bestCount` after the first `n` turns of the outer loop. -/
def windows (addrs : List Nat) : Nat → Nat × Nat × Nat
  | 0 => (0, 0, 0)
  | r + 1 =>
    let (l, bestL, bestCount) := windows addrs r
    let l := advance addrs r (r - l) l
    let count := r - l + 1
    if bestCount < count then (l, l, count) else (l, bestL, bestCount)

/-- The address with which the best window starts, and the references it holds. -/
def bestWindow (addrs : List Nat) : Nat × Nat :=
  let (_, bestL, bestCount) := windows addrs addrs.length
  (addrs.getD bestL 0, bestCount)

/-- The first data section that contains `va`. -/
def sectionAt (st : State) (va : Int) : Option OutId :=
  L.outputSections.find? fun o => L.isRISCVGPDataSection o && decide (st.addr o ≤ va) &&
    decide (va < st.addr o + st.outSize o)

/-- `calculateRISCVGP`: the section and value `__global_pointer$` gets. -/
def calculateRISCVGP (st : State) : Value :=
  match L.defaultSec L.outputSections none with
  | none => ⟨.absolute, 0x800⟩
  | some sec =>
    let addrs := L.gpAddrs st
    let defaultScore := countCoveredRefs addrs (st.addr sec + 0x800)
    let (start, bestCount) := bestWindow addrs
    if addrs.isEmpty || decide (bestCount ≤ defaultScore) then ⟨.output sec, 0x800⟩
    else
      let bestGpVA : Int := start + 0x800
      match L.sectionAt st bestGpVA with
      | some o => ⟨.output o, bestGpVA - st.addr o⟩
      | none => ⟨.output sec, 0x800⟩

variable {L}

/-- The placement depends on addresses, sizes and symbols only. -/
theorem calculateRISCVGP_congr {st st' : State} (h : SameView st st')
    (hsize : st'.outSize = st.outSize) : L.calculateRISCVGP st' = L.calculateRISCVGP st := by
  have haddr : L.gpAddr st' = L.gpAddr st := by
    funext r
    unfold gpAddr
    rw [h.sym, h.symVA]
  have haddrs : L.gpAddrs st' = L.gpAddrs st := by
    unfold gpAddrs
    rw [haddr]
  have hat : L.sectionAt st' = L.sectionAt st := by
    funext va
    unfold sectionAt
    rw [h.addr, hsize]
  unfold calculateRISCVGP
  rw [haddrs, hat, h.addr]

end RvLlvm.Lld.Link
