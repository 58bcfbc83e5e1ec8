import RvLlvm.Lld.Gp
import RvLlvm.Lld.LinkerScript

/-!
# The address loop of the writer

Model of `Writer::finalizeAddressDependentContent` (`lld/ELF/Writer.cpp:1605-1675`), with the range
check that `RISCV::relocate` makes for gp-relative relocations (`lld/ELF/Arch/RISCV.cpp:446-458`).

* A turn relaxes, sizes the packed relocation sections, assigns addresses and places
  `__global_pointer$`. The loop ends when nothing changed but perhaps the addresses of sections.
* `errorOrWarn` only warns under `--noinhibit-exec`.
-/

namespace RvLlvm.Lld

/-- The errors of the loop and of the range check. -/
inductive LinkError
  | relaxationNotConverged
  | assignmentDoesNotConverge
  | relocationOutOfRange
  deriving DecidableEq

namespace Link

variable (L : Link)

/-- What the passes find. -/
def initialState : State where
  addr _ := 0
  outSize _ := 0
  secOff _ := 0
  sym := L.initSym
  symSize := L.initSize
  anchors _ := []
  deltas _ := []
  types _ := []
  writes _ := []
  dropped _ := 0
  packed := L.initPacked
  gp := L.initGp

/-- `updateAllocSize` of the packed relocation sections. -/
def updateAllocSize (st : State) : State × Bool :=
  ({ st with
      packed := fun s => if s ∈ L.packedSections then L.packedSize st s else st.packed s },
    L.packedSections.any fun s => decide (L.packedSize st s ≠ st.packed s))

/-- `ElfSym::riscvGlobalPointer` moves to where `calculateRISCVGP` puts it. -/
def placeGp (st : State) : State := { st with gp := st.gp.map fun _ => L.calculateRISCVGP st }

/-- One turn of the loop: the state, whether the content changed and whether a symbol did; `none`
when relaxation has not converged. -/
def turn (pass : Nat) (st : State) : Option (State × Bool × Bool) :=
  let (st₁, relaxed) := L.relaxOnce pass st
  if relaxed && decide (30 ≤ pass + 1) then none
  else
    let (st₂, resized) := L.updateAllocSize st₁
    let (st₃, changedSym) := L.assignAddresses st₂
    some (L.placeGp st₃, relaxed || resized, changedSym)

/-- The loop, for at most `fuel` turns. -/
def finalizeLoop : Nat → Nat → Nat → State → Option (Except LinkError State)
  | 0, _, _, _ => none
  | fuel + 1, pass, assignPasses, st =>
    match L.turn pass st with
    | none => some (.error .relaxationNotConverged)
    | some (st', changed, changedSym) =>
      if changed then finalizeLoop fuel (pass + 1) assignPasses st'
      else if !changedSym then some (.ok st')
      else if assignPasses + 1 = 5 then
        some (if L.noinhibitExec then .ok st' else .error .assignmentDoesNotConverge)
      else finalizeLoop fuel (pass + 1) (assignPasses + 1) st'

/-- `finalizeAddressDependentContent`. -/
def finalizeAddressDependentContent (fuel : Nat) : Option (Except LinkError State) :=
  L.finalizeLoop fuel 0 0 (L.assignAddresses L.initialState).1

/-- The distance of the target of `r` from `__global_pointer$`, `SignExtend64(val - gp, bits)`. -/
def gpDistance (st : State) (gp : Value) (r : Relocation) : Int :=
  (L.symVA st r.sym r.addend - L.valueVA st gp).bmod (2 ^ L.bits)

/-- `checkInt` of a relocation that has become `t`. -/
def gprelInRange (st : State) (r : Relocation) (t : RelType) : Bool :=
  match t with
  | .gprelI | .gprelS =>
    match st.gp with
    | some gp => isInt 12 (L.gpDistance st gp r)
    | none => false
  | _ => true

/-- `relocate` over the relaxed sections. -/
def relocateAll (st : State) : Except LinkError State :=
  if (L.execSections.all fun s => ((L.input s).relocs.zip (st.types s)).all fun (r, t) =>
      L.gprelInRange st r t) || L.noinhibitExec
  then .ok st else .error .relocationOutOfRange

/-- The link, for at most `fuel` turns of the loop. -/
def link (fuel : Nat) : Option (Except LinkError State) :=
  (L.finalizeAddressDependentContent fuel).map fun res => res.bind L.relocateAll

variable {L}

/-- Placing `__global_pointer$` leaves it where it would be placed. -/
theorem placeGp_gp (st : State) :
    (L.placeGp st).gp = (L.placeGp st).gp.map fun _ => L.calculateRISCVGP (L.placeGp st) := by
  have hsame : L.calculateRISCVGP (L.placeGp st) = L.calculateRISCVGP st := rfl
  rw [hsame]
  unfold placeGp
  cases st.gp <;> rfl

end Link

end RvLlvm.Lld
