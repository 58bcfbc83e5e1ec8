import Mathlib.Data.List.Sort
import RvLlvm.Lld.Link

/-!
# RISC-V relaxation

Model of `initSymbolAnchors`, `relax` and `relaxOnce` (`lld/ELF/Arch/RISCV.cpp:518-745`). One pass
visits the relocations of every executable section in order, decides what each becomes and how
many bytes it gives up, and moves the symbols it has passed by the bytes given up so far.

* `relaxReloc` is the `switch` on the relocation's type; `relaxLoop` the loop over a section.
* `SameView`: a decision depends on addresses, symbols and `__global_pointer$` only.
* `relaxReloc_gp`: a `lui` deleted or an access made gp-relative for `__global_pointer$` had its
  target within the signed 12-bit range of it.
-/

namespace RvLlvm.Lld

open RvLlvm.Support

/-- `R_RISCV_...` of a relocation that a following `R_RISCV_RELAX` allows to relax. -/
def nextIsRelax (rest : List Relocation) : Bool :=
  match rest with
  | r :: _ => decide (r.type = .relax)
  | [] => false

/-- What one relocation becomes: `relocTypes[i]`, the words queued in `writes`, and `remove`. -/
structure Relaxed where
  type : RelType
  writes : List Nat
  remove : Nat

/-- A relocation that stays as it is. -/
def unrelaxed : Relaxed := ⟨.none, [], 0⟩

namespace Link

variable (L : Link)

/-! ## One relocation -/

/-- `relaxCall`. -/
def relaxCall (st : State) (s : SecId) (loc : Int) (r : Relocation) : Relaxed :=
  let rd := Rv.rd ((L.input s).word (r.offset + 4))
  let dest := (if r.pltPc then L.pltVA st r.sym else L.symVA st r.sym 0) + r.addend
  let displace := dest - loc
  if L.rvc && isInt 12 displace && rd == 0 then ⟨.rvcJump, [0xa001], 6⟩
  else if L.rvc && isInt 12 displace && rd == 1 && !L.is64 then ⟨.rvcJump, [0x2001], 6⟩
  else if isInt 21 displace then ⟨.jal, [0x6f + rd * 2 ^ 7], 4⟩
  else unrelaxed

/-- `relaxTlsLe`. -/
def relaxTlsLe (st : State) (s : SecId) (r : Relocation) : Relaxed :=
  let val := L.symVA st r.sym r.addend
  if Rv.hi20 val % 2 ^ 20 ≠ 0 then unrelaxed
  else
    let insn := Rv.setRs1 4 ((L.input s).word r.offset)
    match r.type with
    | .tprelHi20 | .tprelAdd => ⟨.relax, [], 4⟩
    | .tprelLo12I => ⟨.abs32, [Rv.setImmI val insn], 0⟩
    | .tprelLo12S => ⟨.abs32, [Rv.setImmS val insn], 0⟩
    | _ => unrelaxed

/-- `relaxHi20Lo12`. -/
def relaxHi20Lo12 (st : State) (r : Relocation) : Relaxed :=
  match st.gp with
  | none => unrelaxed
  | some gp =>
    if !isInt 12 (L.symVA st r.sym r.addend - L.valueVA st gp) then unrelaxed
    else
      match r.type with
      | .hi20 => ⟨.relax, [], 4⟩
      | .lo12I => ⟨.gprelI, [], 0⟩
      | .lo12S => ⟨.gprelS, [], 0⟩
      | _ => unrelaxed

/-- `PowerOf2Ceil`. -/
def powerOf2Ceil (n : Nat) : Nat :=
  if n = 0 then 0 else if n = 1 then 1 else 2 ^ ((n - 1).log2 + 1)

/-- The `switch` of `relax` for the relocation `r` at address `loc`, `rest` being the ones after
it. -/
def relaxReloc (st : State) (s : SecId) (loc : Int) (r : Relocation) (rest : List Relocation) :
    Relaxed :=
  match r.type with
  | .align =>
    let nextLoc := loc + r.addend
    let align : Int := powerOf2Ceil (r.addend + 2).toNat
    ⟨.none, [], word (nextLoc - (loc + align - 1) / align * align)⟩
  | .call | .callPlt => if nextIsRelax rest then L.relaxCall st s loc r else unrelaxed
  | .tprelHi20 | .tprelAdd | .tprelLo12I | .tprelLo12S =>
    if nextIsRelax rest then L.relaxTlsLe st s r else unrelaxed
  | .hi20 | .lo12I | .lo12S => if nextIsRelax rest then L.relaxHi20Lo12 st r else unrelaxed
  | _ => unrelaxed

/-! ## One section -/

/-- Moves a symbol, or sets its size, once `delta` bytes before it are gone. -/
def moveAnchor (delta : Nat) (st : State) (a : Anchor) : State :=
  let v := st.sym a.sym
  if a.atEnd then
    { st with symSize := Function.update st.symSize a.sym (a.offset - delta - v.offset) }
  else { st with sym := Function.update st.sym a.sym { v with offset := a.offset - delta } }

/-- The locals of `relax`. -/
structure RelaxState where
  st : State
  delta : Nat
  anchors : List Anchor
  deltas : List Nat
  types : List RelType
  writes : List Nat
  changed : Bool

/-- One turn of the loop of `relax`; `cur` is the relocation's old `relocDeltas`. -/
def relaxStep (s : SecId) (secAddr : Int) (r : Relocation) (rest : List Relocation) (cur : Nat)
    (x : RelaxState) : RelaxState :=
  let z := L.relaxReloc x.st s (secAddr + r.offset - x.delta) r rest
  let delta := x.delta + z.remove
  let passed := fun a : Anchor => decide (a.offset ≤ (r.offset : Int))
  { st := (x.anchors.takeWhile passed).foldl (moveAnchor x.delta) x.st
    delta := delta
    anchors := x.anchors.dropWhile passed
    deltas := x.deltas ++ [delta]
    types := x.types ++ [z.type]
    writes := x.writes ++ z.writes
    changed := x.changed || delta != cur }

/-- The loop of `relax` over the relocations still to visit, with their old `relocDeltas`. -/
def relaxLoop (s : SecId) (secAddr : Int) : List Relocation → List Nat → RelaxState → RelaxState
  | [], _, x => x
  | r :: rest, olds, x =>
    relaxLoop s secAddr rest olds.tail (L.relaxStep s secAddr r rest (olds.headD 0) x)

/-- `relax`. -/
def relax (st : State) (s : SecId) : State × Bool :=
  let x := L.relaxLoop s (L.secVA st s) (L.input s).relocs (st.deltas s)
    ⟨st, 0, st.anchors s, [], [], [], false⟩
  let st' := x.anchors.foldl (moveAnchor x.delta) x.st
  ({ st' with
      deltas := Function.update st'.deltas s x.deltas
      types := Function.update st'.types s x.types
      writes := Function.update st'.writes s x.writes
      dropped := Function.update st'.dropped s x.delta }, x.changed)

/-! ## All sections -/

/-- The order the anchors of a section are sorted in. -/
def anchorLe (a b : Anchor) : Bool :=
  decide (a.offset < b.offset) || decide (a.offset = b.offset) && (!a.atEnd || b.atEnd)

/-- The anchors of the symbols defined in section `s`. -/
def anchorsOf (st : State) (s : SecId) : List Anchor :=
  ((L.symbols.filter fun d => (st.sym d).place = .input s).flatMap fun d =>
    [⟨(st.sym d).offset, d, false⟩, ⟨(st.sym d).offset + st.symSize d, d, true⟩]).insertionSort
      fun a b => anchorLe a b

/-- `initSymbolAnchors`. -/
def initSymbolAnchors (st : State) : State :=
  { st with
    anchors := fun s => if s ∈ L.execSections then L.anchorsOf st s else []
    deltas := fun s =>
      if s ∈ L.execSections then List.replicate (L.input s).relocs.length 0 else [] }

/-- The loop of `relaxOnce`. -/
def relaxSections : List SecId → State → State × Bool
  | [], st => (st, false)
  | s :: rest, st =>
    let (st₁, c₁) := L.relax st s
    let (st₂, c₂) := relaxSections rest st₁
    (st₂, c₁ || c₂)

/-- `RISCV::relaxOnce`. -/
def relaxOnce (pass : Nat) (st : State) : State × Bool :=
  L.relaxSections L.execSections (if pass = 0 then L.initSymbolAnchors st else st)

/-! ## What a decision depends on -/

/-- Two states give addresses and `__global_pointer$` alike. -/
structure SameView (st st' : State) : Prop where
  addr : st'.addr = st.addr
  secOff : st'.secOff = st.secOff
  sym : st'.sym = st.sym
  gp : st'.gp = st.gp

end Link

namespace Link.SameView

variable {L : Link} {st st' st'' : State}

theorem refl (st : State) : SameView st st := ⟨rfl, rfl, rfl, rfl⟩

theorem trans (h : SameView st st') (h' : SameView st' st'') : SameView st st'' :=
  ⟨h'.addr.trans h.addr, h'.secOff.trans h.secOff, h'.sym.trans h.sym, h'.gp.trans h.gp⟩

theorem symm (h : SameView st st') : SameView st' st :=
  ⟨h.addr.symm, h.secOff.symm, h.sym.symm, h.gp.symm⟩

theorem secVA (h : SameView st st') (s : SecId) : L.secVA st' s = L.secVA st s := by
  unfold Link.secVA
  rw [h.addr, h.secOff]

theorem valueVA (h : SameView st st') (v : Value) : L.valueVA st' v = L.valueVA st v := by
  unfold Link.valueVA placeVA
  cases v.place with
  | absolute => rfl
  | output o => simp only [h.addr]
  | input s => simp only [h.secVA]

theorem symVA (h : SameView st st') (d : SymId) (addend : Int) :
    L.symVA st' d addend = L.symVA st d addend := by
  unfold Link.symVA
  rw [h.sym, h.valueVA, h.addr]

theorem pltVA (h : SameView st st') (d : SymId) : L.pltVA st' d = L.pltVA st d := by
  unfold Link.pltVA
  cases L.plt d with
  | none => rfl
  | some p => simp only [h.secVA]

/-- A relocation is relaxed alike in both states. -/
theorem relaxReloc (h : SameView st st') (s : SecId) (loc : Int) (r : Relocation)
    (rest : List Relocation) : L.relaxReloc st' s loc r rest = L.relaxReloc st s loc r rest := by
  have hcall : L.relaxCall st' s loc r = L.relaxCall st s loc r := by
    unfold relaxCall
    rw [h.pltVA, h.symVA]
  have htls : L.relaxTlsLe st' s r = L.relaxTlsLe st s r := by
    unfold relaxTlsLe
    rw [h.symVA]
  have hgp : L.relaxHi20Lo12 st' r = L.relaxHi20Lo12 st r := by
    unfold relaxHi20Lo12
    rw [h.gp, h.symVA]
    cases st.gp with
    | none => rfl
    | some gp => simp only [h.valueVA]
  unfold Link.relaxReloc
  rw [hcall, htls, hgp]

end Link.SameView

namespace Link

variable {L : Link}

/-! ## What a relaxed relocation was decided on -/

/-- The relocation `r` is gp-relative once it has become `t`: an access through `gp`, or a `lui`
deleted for it. -/
def gpMarked (r : Relocation) (t : RelType) : Prop :=
  t = .gprelI ∨ t = .gprelS ∨ (r.type = .hi20 ∧ t = .relax)

/-- The target of `r` was in reach of `__global_pointer$`. -/
def inReach (L : Link) (st : State) (r : Relocation) : Prop :=
  ∃ gp, st.gp = some gp ∧ isInt 12 (L.symVA st r.sym r.addend - L.valueVA st gp) = true

theorem unrelaxed_not_gp (r : Relocation) : ¬ gpMarked r unrelaxed.type := by
  simp [gpMarked, unrelaxed]

theorem relaxCall_not_gp {st : State} {s : SecId} {loc : Int} (r r' : Relocation) :
    ¬ gpMarked r' (L.relaxCall st s loc r).type := by
  simp only [relaxCall]
  split_ifs <;> simp [gpMarked, unrelaxed]

theorem relaxTlsLe_not_gp {st : State} {s : SecId} {r : Relocation} (h : r.type ≠ .hi20) :
    ¬ gpMarked r (L.relaxTlsLe st s r).type := by
  simp only [relaxTlsLe]
  split
  · exact unrelaxed_not_gp r
  · split <;> simp [gpMarked, unrelaxed, h]

theorem relaxHi20Lo12_gp {st : State} {r : Relocation}
    (h : gpMarked r (L.relaxHi20Lo12 st r).type) :
    L.inReach st r ∧ (r.type = .hi20 → (L.relaxHi20Lo12 st r).remove = 4) := by
  unfold relaxHi20Lo12 at h ⊢
  cases hg : st.gp with
  | none =>
    rw [hg] at h
    exact absurd h (unrelaxed_not_gp r)
  | some gp =>
    simp only [hg] at h ⊢
    by_cases hin : isInt 12 (L.symVA st r.sym r.addend - L.valueVA st gp) = true
    · refine ⟨⟨gp, hg, hin⟩, fun hty => ?_⟩
      rw [hin, hty]
      rfl
    · rw [Bool.not_eq_true] at hin
      rw [hin] at h
      exact absurd h (unrelaxed_not_gp r)

/-- **The target of a gp-relative relocation was in reach** of the `__global_pointer$` it was
decided with, and a `lui` deleted for it gives up four bytes. -/
theorem relaxReloc_gp {st : State} {s : SecId} {loc : Int} {r : Relocation}
    {rest : List Relocation} (h : gpMarked r (L.relaxReloc st s loc r rest).type) :
    L.inReach st r ∧ (r.type = .hi20 → (L.relaxReloc st s loc r rest).remove = 4) := by
  unfold relaxReloc at h ⊢
  split at h
  · simp [gpMarked] at h
  · exact absurd h (by split; exacts [relaxCall_not_gp r r, unrelaxed_not_gp r])
  · exact absurd h (by split; exacts [relaxCall_not_gp r r, unrelaxed_not_gp r])
  iterate 4
    rename_i hty
    exact absurd h (by
      split
      · exact relaxTlsLe_not_gp (by rw [hty]; decide)
      · exact unrelaxed_not_gp r)
  iterate 3
    split at h
    · rename_i hnext
      rw [if_pos hnext]
      exact relaxHi20Lo12_gp h
    · exact absurd h (unrelaxed_not_gp r)
  · exact absurd h (unrelaxed_not_gp r)

end Link

end RvLlvm.Lld
