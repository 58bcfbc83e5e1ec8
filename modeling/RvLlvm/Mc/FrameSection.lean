import Mathlib.Data.List.Lex
import Mathlib.Data.List.Sort
import RvLlvm.Mc.FrameEmitter

/-!
# Frame sections

Model of `EmitCIE`, `EmitFDE` and `MCDwarfFrameEmitter::Emit` (`llvm/lib/MC/MCDwarf.cpp:1571-1774`,
`1778-1940`) with their emitter's state: frames are sorted by what their CIE depends on, share CIEs,
and go through one running CFA offset.

* `starts`: what the emission of each frame starts from, by the directives of the frames before it.
* `emitFrames_matches`: the frames go out from there, each to the CIE that `starts` says.
* `emit_faithful_iff`: a section is read back as the directives mean exactly where each frame has a
  CIE of its own kind and each relative directive is in step.
-/

namespace RvLlvm.Mc.FrameEmitter

open RvLlvm.Support RvLlvm.Mc.CallFrame

/-- `CIEKey`; personality symbols are numbered in the order of their names. -/
structure CIEKey where
  personality : Option Nat
  personalityEncoding : Nat
  lsdaEncoding : Nat
  isSignalFrame : Bool
  isSimple : Bool
  raReg : Nat
  isBKeyFrame : Bool
  isMTETaggedFrame : Bool
  deriving DecidableEq

/-- The tuple that `operator<` compares; no personality counts as the empty name. -/
def CIEKey.tuple (k : CIEKey) : List Nat :=
  [k.personality.elim 0 (· + 1), k.personalityEncoding, k.lsdaEncoding, k.isSignalFrame.toNat,
    k.isSimple.toNat, k.raReg, k.isBKeyFrame.toNat, k.isMTETaggedFrame.toNat]

/-- `MCDwarfFrameInfo`. -/
structure MCDwarfFrameInfo where
  beginLabel : Label
  key : CIEKey
  instructions : List MCCFIInstruction
  deriving DecidableEq

/-- `getInitialFrameState`: the CFA is `sp`. -/
def initialFrameState : List MCCFIInstruction := [⟨none, .defCfa 2 0⟩]

/-- `FrameEmitterImpl`, with the CIEs emitted so far and the maps of `Emit`. -/
structure FrameEmitterImpl where
  cfaOffset : BitVec 32 := 0
  initialCFAOffset : BitVec 32 := 0
  cies : List (List (List Nat)) := []
  cieStarts : List (CIEKey × Nat) := []
  dummyDebugKey : Option Nat := none

/-- An FDE: the CIE that it points to, and its instructions. -/
structure FDE where
  cie : Nat
  frame : MCDwarfFrameInfo
  chunks : List (List Nat)

/-- What is the same for all frames. -/
structure Target where
  isEH : Bool
  dataAlign : Int
  layout : Layout

namespace Target

variable (T : Target)

/-- The instructions of a CIE, and `CFAOffset` after them. -/
def cieInstructions (isSimple : Bool) (cfaOffset : BitVec 32) : List (List Nat) × BitVec 32 :=
  if isSimple then ([], cfaOffset)
  else emitCFIInstructions T.layout T.dataAlign cfaOffset none initialFrameState

/-- `EmitCIE`. -/
def emitCIE (E : FrameEmitterImpl) (F : MCDwarfFrameInfo) : FrameEmitterImpl :=
  let cie := T.cieInstructions F.key.isSimple E.cfaOffset
  { E with
    cfaOffset := cie.2
    initialCFAOffset := cie.2
    cies := E.cies ++ [cie.1] }

/-- `EmitFDE`. -/
def emitFDE (E : FrameEmitterImpl) (cie : Nat) (F : MCDwarfFrameInfo) : FrameEmitterImpl × FDE :=
  let fde := emitCFIInstructions T.layout T.dataAlign E.initialCFAOffset (some F.beginLabel)
    F.instructions
  ({ E with cfaOffset := fde.2 }, ⟨cie, F, fde.1⟩)

/-- `CIEStart` of a frame. -/
def cieStart (E : FrameEmitterImpl) (F : MCDwarfFrameInfo) : Option Nat :=
  if T.isEH then (E.cieStarts.find? fun p => p.1 == F.key).map Prod.snd else E.dummyDebugKey

/-- A turn of the loop of `Emit`. -/
def emitFrame (E : FrameEmitterImpl) (F : MCDwarfFrameInfo) : FrameEmitterImpl × FDE :=
  match T.cieStart E F with
  | some cie => T.emitFDE E cie F
  | none =>
    let cie := E.cies.length
    let E' := T.emitCIE E F
    T.emitFDE
      (if T.isEH then { E' with cieStarts := (F.key, cie) :: E'.cieStarts }
        else { E' with dummyDebugKey := some cie }) cie F

def emitFrames : FrameEmitterImpl → List MCDwarfFrameInfo → FrameEmitterImpl × List FDE
  | E, [] => (E, [])
  | E, F :: rest =>
    let now := T.emitFrame E F
    let later := emitFrames now.1 rest
    (later.1, now.2 :: later.2)

/-- `FrameArrayX`: `stable_sort` by the key. -/
def sortFrames (frames : List MCDwarfFrameInfo) : List MCDwarfFrameInfo :=
  frames.mergeSort fun x y => decide (x.key.tuple ≤ y.key.tuple)

/-- `MCDwarfFrameEmitter::Emit`. -/
def emit (frames : List MCDwarfFrameInfo) : FrameEmitterImpl × List FDE :=
  T.emitFrames {} (sortFrames frames)

/-! ## Reading a frame -/

/-- The row before any instruction. -/
def emptyRow (address : Nat) : RowState := ⟨⟨address, .unspecified, fun _ => none⟩, []⟩

/-- The row that the instructions of a CIE make. -/
def readCIE (address : Nat) (cie : List (List Nat)) : Option RowState :=
  interpret ⟨T.dataAlign, none⟩ (emptyRow address) cie.flatten

/-- The row that the initial frame state means, or no rules for a simple frame. -/
def initialRow (isSimple : Bool) (address : Nat) : RowState :=
  if isSimple then emptyRow address
  else (emptyRow address).setCFA (.isRegisterPlusOffset 2 0 none)

/-- What frames start from: neither kind of CIE has register rules. -/
def context : Context := ⟨T.dataAlign, some fun _ => none⟩

/-- **A frame is emitted faithfully**: its CIE is there, and behind each directive the reader,
started from the CIE, is where the directives mean it to be. -/
def FaithfulFDE (cies : List (List (List Nat))) (fde : FDE) : Prop :=
  ∃ cie s, cies[fde.cie]? = some cie ∧
    T.readCIE (T.layout.address fde.frame.beginLabel) cie = some s ∧
    ReadBack T.layout ⟨T.dataAlign, some s.row.locs⟩ ⟨s.row, []⟩
      (initialRow fde.frame.key.isSimple (T.layout.address fde.frame.beginLabel)) fde.chunks
      (kept T.layout fde.frame.instructions)

/-- **A faithful section.** -/
def Faithful (frames : List MCDwarfFrameInfo) : Prop :=
  ∀ fde ∈ (T.emit frames).2, T.FaithfulFDE (T.emit frames).1.cies fde

/-- The directives of a frame are as they may be written. -/
def ValidFrame (F : MCDwarfFrameInfo) : Prop :=
  Valid T.layout T.context (some F.beginLabel)
    (initialRow F.key.isSimple (T.layout.address F.beginLabel)) (kept T.layout F.instructions)

/-! ## What frames start from -/

/-- The CIE last emitted: its key, the offset its frames start from, and whether it is a simple
one. -/
structure Start where
  key : CIEKey
  offset : BitVec 32
  isSimple : Bool
  deriving DecidableEq

/-- The start of a frame: that of the CIE in use, or a new one, which for a simple frame keeps the
offset that the frame before has left. -/
def nextStart (last : Option Start) (left : BitVec 32) (F : MCDwarfFrameInfo) : Start :=
  match last with
  | some start =>
    if T.isEH && start.key != F.key then ⟨F.key, if F.key.isSimple then left else 0, F.key.isSimple⟩
    else start
  | none => ⟨F.key, if F.key.isSimple then left else 0, F.key.isSimple⟩

/-- The offset that a frame leaves. -/
def leaves (offset : BitVec 32) (F : MCDwarfFrameInfo) : BitVec 32 :=
  (kept T.layout F.instructions).foldl (fun o i => runningOffset o i.operation) offset

/-- The frames with their starts. -/
def starts : Option Start → BitVec 32 → List MCDwarfFrameInfo → List (MCDwarfFrameInfo × Start)
  | _, _, [] => []
  | last, left, F :: rest =>
    let start := T.nextStart last left F
    (F, start) :: starts (some start) (T.leaves start.offset F) rest

/-- A frame has a CIE of its kind, and its relative directives are in step. -/
def InStepFrame (p : MCDwarfFrameInfo × Start) : Prop :=
  p.2.isSimple = p.1.key.isSimple ∧
    AllInStep T.layout T.context p.2.offset
      (initialRow p.1.key.isSimple (T.layout.address p.1.beginLabel))
        (kept T.layout p.1.instructions)

section Reading

variable {T}

/-- The instructions of a CIE do not depend on the running offset. -/
theorem cieInstructions_fst (isSimple : Bool) (cfaOffset : BitVec 32) :
    (T.cieInstructions isSimple cfaOffset).1 = (T.cieInstructions isSimple 0).1 := by
  cases isSimple <;> rfl

theorem cieInstructions_snd (isSimple : Bool) (cfaOffset : BitVec 32) :
    (T.cieInstructions isSimple cfaOffset).2 = if isSimple then cfaOffset else 0 := by
  cases isSimple <;> rfl

/-- A CIE is read as the initial frame state means. -/
theorem readCIE_eq (hC : IsDataAlign T.dataAlign) (isSimple : Bool) (address : Nat) :
    T.readCIE address (T.cieInstructions isSimple 0).1 = some (initialRow isSimple address) := by
  cases isSimple with
  | true => rfl
  | false =>
    have hwrites : Writes ⟨T.dataAlign, none⟩ (emptyRow address)
        (emitCFIInstruction T.dataAlign 0 (.defCfa 2 0)).1
        (denoteOperation ⟨T.dataAlign, none⟩ (emptyRow address) (.defCfa 2 0)) :=
      writes_emitCFIInstruction hC 0 trivial (by simp) (by simp) (by simp)
    exact hwrites.effect

theorem initialRow_inj {isSimple isSimple' : Bool} {address : Nat}
    (h : initialRow isSimple address = initialRow isSimple' address) : isSimple = isSimple' := by
  have hcfa := congrArg (fun s => s.row.cfa) h
  cases isSimple <;> cases isSimple' <;> first
    | rfl
    | exact absurd hcfa (by simp [initialRow, emptyRow, RowState.setCFA])

theorem initialRow_address (isSimple : Bool) (address : Nat) :
    (initialRow isSimple address).row.address = address := by
  cases isSimple <;> rfl

theorem initialRow_locs (isSimple : Bool) (address : Nat) :
    (initialRow isSimple address).row.locs = fun _ => none := by
  cases isSimple <;> rfl

theorem initialRow_states (isSimple : Bool) (address : Nat) :
    (⟨(initialRow isSimple address).row, []⟩ : RowState) = initialRow isSimple address := by
  cases isSimple <;> rfl

/-- Where a frame starts decides whether it is read back. -/
theorem readBack_start_iff (hC : IsDataAlign T.dataAlign) {F : MCDwarfFrameInfo}
    (hvalid : T.ValidFrame F)
    (start : Start) :
    ReadBack T.layout T.context (initialRow start.isSimple (T.layout.address F.beginLabel))
      (initialRow F.key.isSimple (T.layout.address F.beginLabel))
      (emitCFIInstructions T.layout T.dataAlign start.offset (some F.beginLabel) F.instructions).1
      (kept T.layout F.instructions) ↔ T.InStepFrame (F, start) := by
  have halive : ∀ i ∈ kept T.layout F.instructions, T.layout.isDead i = false := fun i hi => by
    simpa using (List.mem_filter.mp hi).2
  have hbase : ∀ b, some F.beginLabel = some b →
      (initialRow F.key.isSimple (T.layout.address F.beginLabel)).row.address =
        T.layout.address b := by
    intro b hb
    obtain rfl := Option.some.inj hb
    exact initialRow_address _ _
  have hiff := readBack_iff (C := T.context) hC start.offset halive hbase rfl hvalid
  rw [emitCFIInstructions_kept]
  constructor
  · intro h
    have hsame : start.isSimple = F.key.isSimple := by
      have hzero := h 0 (Nat.zero_le _)
      exact initialRow_inj (Option.some.inj hzero)
    rw [hsame] at h
    exact ⟨hsame, hiff.mp h⟩
  · rintro ⟨hsame, hstep⟩
    rw [hsame]
    exact hiff.mpr hstep

/-- An FDE is the one that is due from a start. -/
structure Matches (T : Target) (cies : List (List (List Nat))) (fde : FDE)
    (p : MCDwarfFrameInfo × Start) : Prop where
  frame : fde.frame = p.1
  cie : cies[fde.cie]? = some (T.cieInstructions p.2.isSimple 0).1
  chunks : fde.chunks =
    (emitCFIInstructions T.layout T.dataAlign p.2.offset (some p.1.beginLabel) p.1.instructions).1

theorem Matches.inStep_iff (hC : IsDataAlign T.dataAlign) {cies : List (List (List Nat))}
    {fde : FDE}
    {p : MCDwarfFrameInfo × Start} (h : Matches T cies fde p) (hvalid : T.ValidFrame p.1) :
    T.FaithfulFDE cies fde ↔ T.InStepFrame p := by
  obtain ⟨hframe, hcie, hchunks⟩ := h
  rw [← readBack_start_iff hC hvalid p.2, FaithfulFDE, hframe, hcie, hchunks]
  constructor
  · rintro ⟨cie, s, hsome, hread, hback⟩
    obtain rfl := Option.some.inj hsome
    rw [readCIE_eq hC] at hread
    obtain rfl := Option.some.inj hread
    rwa [initialRow_locs, initialRow_states] at hback
  · intro hback
    refine ⟨_, _, rfl, readCIE_eq hC _ _, ?_⟩
    rwa [initialRow_locs, initialRow_states]

end Reading

/-! ## The loop over the frames -/

section Loop

variable {T} {E : FrameEmitterImpl} {last : Option Start} {left : BitVec 32}

/-- **The emitter between two frames**: its offset is what the last frame has left, and the CIE in
use is the one that `last` says, also for the frames to come that share its key. -/
structure Following (T : Target) (E : FrameEmitterImpl) (last : Option Start) (left : BitVec 32)
    (rest : List MCDwarfFrameInfo) : Prop where
  left_eq : E.cfaOffset = left
  noCIE : last = none → E.cieStarts = [] ∧ E.dummyDebugKey = none
  lastCIE : ∀ start, last = some start → E.initialCFAOffset = start.offset ∧
    ∃ cie, (T.isEH = true → (E.cieStarts.find? fun p => p.1 == start.key).map Prod.snd = some cie) ∧
      (T.isEH = false → E.dummyDebugKey = some cie) ∧
      E.cies[cie]? = some (T.cieInstructions start.isSimple 0).1
  shared : T.isEH = true → ∀ p ∈ E.cieStarts, ∀ F ∈ rest, p.1 = F.key →
    ∃ start, last = some start ∧ start.key = F.key
  order : T.isEH = true → ∀ start, last = some start → ∀ F ∈ rest, start.key.tuple ≤ F.key.tuple
  sorted : rest.Pairwise fun x y => x.key.tuple ≤ y.key.tuple

theorem tuple_inj {k k' : CIEKey} (h : k.tuple = k'.tuple) : k = k' := by
  have hbool : ∀ b b' : Bool, b.toNat = b'.toNat → b = b' := by decide
  obtain ⟨p, pe, le, sig, simple, ra, bk, mte⟩ := k
  obtain ⟨p', pe', le', sig', simple', ra', bk', mte'⟩ := k'
  simp only [CIEKey.tuple, List.cons.injEq, and_true] at h
  obtain ⟨hp, rfl, rfl, hsig, hsimple, rfl, hbk, hmte⟩ := h
  have hpersonality : p = p' := by
    cases p <;> cases p' <;> simp_all
  rw [hpersonality, hbool _ _ hsig, hbool _ _ hsimple, hbool _ _ hbk, hbool _ _ hmte]

variable {F : MCDwarfFrameInfo} {rest : List MCDwarfFrameInfo}

/-- A frame finds the CIE in use, or none. -/
theorem cieStart_eq (h : Following T E last left (F :: rest)) :
    (∃ start cie, last = some start ∧ T.nextStart last left F = start ∧ T.cieStart E F = some cie ∧
      E.cies[cie]? = some (T.cieInstructions start.isSimple 0).1 ∧
        E.initialCFAOffset = start.offset) ∨
    (T.nextStart last left F = ⟨F.key, if F.key.isSimple then left else 0, F.key.isSimple⟩ ∧
      T.cieStart E F = none) := by
  cases hlast : last with
  | none =>
    obtain ⟨hstarts, hdummy⟩ := h.noCIE hlast
    refine Or.inr ⟨rfl, ?_⟩
    unfold cieStart
    rw [hstarts, hdummy]
    split <;> rfl
  | some start =>
    obtain ⟨hinit, cie, heh, hdebug, hcie⟩ := h.lastCIE start hlast
    cases hEH : T.isEH with
    | false =>
      refine Or.inl ⟨start, cie, rfl, ?_, ?_, hcie, hinit⟩
      · rw [nextStart, hEH]
        rfl
      · rw [cieStart, hEH]
        exact hdebug hEH
    | true =>
      by_cases hkey : start.key = F.key
      · refine Or.inl ⟨start, cie, rfl, ?_, ?_, hcie, hinit⟩
        · rw [nextStart, if_neg (by simp [hkey])]
        · rw [cieStart, if_pos hEH, ← hkey]
          exact heh hEH
      · refine Or.inr ⟨?_, ?_⟩
        · rw [nextStart, if_pos (by simpa [hEH] using hkey)]
        · rw [cieStart, if_pos hEH, Option.map_eq_none_iff, List.find?_eq_none]
          intro p hp heq
          obtain ⟨start', hstart', hkey'⟩ :=
            h.shared hEH p hp F List.mem_cons_self (by simpa using heq)
          obtain rfl := Option.some.inj (hlast.symm.trans hstart')
          exact hkey hkey'

/-- What a frame leaves in the emitter. -/
theorem emitCFIInstructions_snd (layout : Layout) (dataAlign : Int) (cfaOffset : BitVec 32)
    (baseLabel : Option Label) (instrs : List MCCFIInstruction) :
    (emitCFIInstructions layout dataAlign cfaOffset baseLabel instrs).2 =
      (kept layout instrs).foldl (fun o i => runningOffset o i.operation) cfaOffset := by
  induction instrs generalizing cfaOffset baseLabel with
  | nil => rfl
  | cons i rest ih =>
    rw [emitCFIInstructions, kept, List.filter_cons]
    cases hdead : layout.isDead i with
    | true =>
      rw [if_pos rfl, Bool.not_true, if_neg Bool.false_ne_true, ih]
      rfl
    | false =>
      rw [if_neg Bool.false_ne_true, Bool.not_false, if_pos rfl, List.foldl_cons]
      simp only [ih, emitCFIInstruction_snd]
      rfl

/-- A frame whose CIE is there. -/
theorem emitFrame_shared (h : Following T E last left (F :: rest)) {start : Start} {cie : Nat}
    (hlast : last = some start) (hstart : T.nextStart last left F = start)
    (hfound : T.cieStart E F = some cie)
    (hcie : E.cies[cie]? = some (T.cieInstructions start.isSimple 0).1)
    (hinit : E.initialCFAOffset = start.offset) :
    E.cies <+: (T.emitFrame E F).1.cies ∧
    Matches T (T.emitFrame E F).1.cies (T.emitFrame E F).2 (F, T.nextStart last left F) ∧
    Following T (T.emitFrame E F).1 (some (T.nextStart last left F))
      (T.leaves (T.nextStart last left F).offset F) rest := by
  have hemit : T.emitFrame E F = T.emitFDE E cie F := by
    rw [emitFrame, hfound]
  rw [hemit, hstart]
  refine ⟨List.prefix_rfl, ⟨rfl, hcie, by rw [emitFDE, hinit]⟩, ?_,
    fun hnone => absurd hnone (by simp),
    fun start' hstart' => ?_, fun hEH p hp G hG heq => ?_, fun hEH start' hstart' G hG => ?_,
    (List.pairwise_cons.mp h.sorted).2⟩
  · rw [emitFDE, emitCFIInstructions_snd, hinit]
    rfl
  · exact h.lastCIE start' (hlast.trans hstart')
  · obtain ⟨start', hstart', hkey⟩ := h.shared hEH p hp G (List.mem_cons_of_mem F hG) heq
    exact ⟨start', hlast.symm.trans hstart', hkey⟩
  · exact h.order hEH start' (hlast.trans hstart') G (List.mem_cons_of_mem F hG)

/-- The emitter behind a new CIE. -/
def withCIE (T : Target) (E : FrameEmitterImpl) (F : MCDwarfFrameInfo) : FrameEmitterImpl :=
  if T.isEH then { T.emitCIE E F with cieStarts :=
    (F.key, E.cies.length) :: (T.emitCIE E F).cieStarts }
  else { T.emitCIE E F with dummyDebugKey := some E.cies.length }

theorem withCIE_cies (F : MCDwarfFrameInfo) :
    (withCIE T E F).cies = E.cies ++ [(T.cieInstructions F.key.isSimple 0).1] := by
  have hcie : (T.emitCIE E F).cies = E.cies ++ [(T.cieInstructions F.key.isSimple 0).1] := by
    rw [emitCIE, cieInstructions_fst]
  unfold withCIE
  split <;> exact hcie

theorem withCIE_initialCFAOffset (F : MCDwarfFrameInfo) :
    (withCIE T E F).initialCFAOffset = if F.key.isSimple then E.cfaOffset else 0 := by
  have hinit : (T.emitCIE E F).initialCFAOffset = if F.key.isSimple then E.cfaOffset else 0 := by
    rw [emitCIE, cieInstructions_snd]
  unfold withCIE
  split <;> exact hinit

/-- A frame that brings a CIE of its own. -/
theorem emitFrame_new (h : Following T E last left (F :: rest))
    (hstart : T.nextStart last left F = ⟨F.key, if F.key.isSimple then left else 0, F.key.isSimple⟩)
    (hfound : T.cieStart E F = none) :
    E.cies <+: (T.emitFrame E F).1.cies ∧
    Matches T (T.emitFrame E F).1.cies (T.emitFrame E F).2 (F, T.nextStart last left F) ∧
    Following T (T.emitFrame E F).1 (some (T.nextStart last left F))
      (T.leaves (T.nextStart last left F).offset F) rest := by
  have hemit : T.emitFrame E F = T.emitFDE (withCIE T E F) E.cies.length F := by
    rw [emitFrame, hfound]
    rfl
  have hcies : (T.emitFDE (withCIE T E F) E.cies.length F).1.cies =
      E.cies ++ [(T.cieInstructions F.key.isSimple 0).1] := withCIE_cies F
  have hinit : (withCIE T E F).initialCFAOffset = if F.key.isSimple then left else 0 := by
    rw [withCIE_initialCFAOffset, h.left_eq]
  have hcie : (E.cies ++ [(T.cieInstructions F.key.isSimple 0).1])[E.cies.length]? =
      some (T.cieInstructions F.key.isSimple 0).1 := by
    rw [List.getElem?_append_right (Nat.le_refl _), Nat.sub_self]
    rfl
  rw [hemit, hstart]
  refine ⟨by rw [hcies]; exact List.prefix_append _ _, ⟨rfl, by rw [hcies]; exact hcie, ?_⟩, ?_,
    fun hnone => absurd hnone (by simp), fun start' hstart' => ?_, fun hEH p hp G hG heq => ?_,
    fun hEH start' hstart' G hG => ?_, (List.pairwise_cons.mp h.sorted).2⟩
  · rw [emitFDE, hinit]
  · rw [emitFDE, emitCFIInstructions_snd, hinit]
    rfl
  · obtain rfl := Option.some.inj hstart'
    refine ⟨hinit, E.cies.length, fun hEH => ?_, fun hdebug => ?_, by rw [hcies]; exact hcie⟩
    · simp only [emitFDE, withCIE, if_pos hEH]
      simp
    · simp only [emitFDE, withCIE, hdebug, if_neg Bool.false_ne_true]
  · -- a key that comes again is the one of the last CIE, since keys are in order
    have hkeys : p ∈ (F.key, E.cies.length) :: E.cieStarts := by
      simpa only [emitFDE, withCIE, if_pos hEH, emitCIE] using hp
    have hFG := (List.pairwise_cons.mp h.sorted).1 G hG
    refine ⟨_, rfl, ?_⟩
    rcases List.mem_cons.mp hkeys with rfl | hold
    · exact heq
    · obtain ⟨start', hstart', hkey⟩ := h.shared hEH p hold G (List.mem_cons_of_mem F hG) heq
      have hle := h.order hEH start' hstart' F List.mem_cons_self
      rw [hkey] at hle
      exact tuple_inj (le_antisymm hFG hle)
  · obtain rfl := Option.some.inj hstart'
    exact (List.pairwise_cons.mp h.sorted).1 G hG

/-- **One frame**: CIEs are only added, the FDE is the one due, and the emitter follows. -/
theorem emitFrame_matches (h : Following T E last left (F :: rest)) :
    E.cies <+: (T.emitFrame E F).1.cies ∧
    Matches T (T.emitFrame E F).1.cies (T.emitFrame E F).2 (F, T.nextStart last left F) ∧
    Following T (T.emitFrame E F).1 (some (T.nextStart last left F))
      (T.leaves (T.nextStart last left F).offset F) rest := by
  rcases cieStart_eq h with ⟨start, cie, hlast, hstart, hfound, hcie, hinit⟩ | ⟨hstart, hfound⟩
  · exact emitFrame_shared h hlast hstart hfound hcie hinit
  · exact emitFrame_new h hstart hfound

theorem Matches.mono {cies cies' : List (List (List Nat))} {fde : FDE}
    {p : MCDwarfFrameInfo × Start}
    (h : Matches T cies fde p) (hle : cies <+: cies') : Matches T cies' fde p := by
  obtain ⟨more, rfl⟩ := hle
  obtain ⟨hlt, hget⟩ := List.getElem?_eq_some_iff.mp h.cie
  exact ⟨h.frame, by rw [List.getElem?_append_left hlt]; exact h.cie, h.chunks⟩

/-- **All frames go out from the starts that are due.** -/
theorem emitFrames_matches {frames : List MCDwarfFrameInfo} (h : Following T E last left frames) :
    E.cies <+: (T.emitFrames E frames).1.cies ∧
    List.Forall₂ (Matches T (T.emitFrames E frames).1.cies) (T.emitFrames E frames).2
      (T.starts last left frames) := by
  induction frames generalizing E last left with
  | nil => exact ⟨List.prefix_rfl, List.Forall₂.nil⟩
  | cons F rest ih =>
    obtain ⟨hcies, hfirst, hfollow⟩ := emitFrame_matches h
    obtain ⟨hmore, hrest⟩ := ih hfollow
    exact ⟨hcies.trans hmore, .cons (hfirst.mono hmore) hrest⟩

end Loop

/-! ## Sections -/

theorem starts_frames (T : Target) (last : Option Start) (left : BitVec 32)
    (frames : List MCDwarfFrameInfo) : (T.starts last left frames).map Prod.fst = frames := by
  induction frames generalizing last left with
  | nil => rfl
  | cons F rest ih => rw [starts, List.map_cons, ih]

/-- **A section is read back as its directives mean exactly where** each frame has a CIE of its own
kind and its relative directives are in step. -/
theorem emit_faithful_iff (T : Target) (hC : IsDataAlign T.dataAlign)
    (frames : List MCDwarfFrameInfo)
    (hvalid : ∀ F ∈ frames, T.ValidFrame F) :
    T.Faithful frames ↔ ∀ p ∈ T.starts none 0 (sortFrames frames), T.InStepFrame p := by
  have hsorted : (sortFrames frames).Pairwise fun x y => x.key.tuple ≤ y.key.tuple :=
    (List.pairwise_mergeSort (fun a b c hab hbc => by
      simp only [decide_eq_true_eq] at hab hbc ⊢
      exact hab.trans hbc) (fun a b => by
      simpa using le_total a.key.tuple b.key.tuple) frames).imp fun h => by simpa using h
  have hfollow : Following T {} none 0 (sortFrames frames) :=
    ⟨rfl, fun _ => ⟨rfl, rfl⟩, fun _ h => absurd h (by simp),
      fun _ _ hp => absurd hp List.not_mem_nil,
      fun _ _ h => absurd h (by simp), hsorted⟩
  have hmatches := (emitFrames_matches hfollow).2
  have hframes : ∀ p ∈ T.starts none 0 (sortFrames frames), T.ValidFrame p.1 := fun p hp => by
    have hmem : p.1 ∈ sortFrames frames := by
      rw [← starts_frames T none 0 (sortFrames frames)]
      exact List.mem_map_of_mem hp
    exact hvalid p.1 (List.mem_mergeSort.mp hmem)
  unfold Faithful emit
  generalize (T.emitFrames {} (sortFrames frames)).1.cies = cies at hmatches ⊢
  generalize (T.emitFrames {} (sortFrames frames)).2 = fdes at hmatches ⊢
  generalize T.starts none 0 (sortFrames frames) = due at hmatches hframes ⊢
  induction hmatches with
  | nil => exact ⟨fun _ _ h => absurd h List.not_mem_nil, fun _ _ h => absurd h List.not_mem_nil⟩
  | cons hfirst _ ih =>
    have hrest := ih fun p hp => hframes p (List.mem_cons_of_mem _ hp)
    have hone := hfirst.inStep_iff hC (hframes _ List.mem_cons_self)
    rw [List.forall_mem_cons, List.forall_mem_cons]
    exact and_congr hone hrest

/-- The key of an ordinary frame. -/
def ordinaryKey : CIEKey := ⟨none, 0, 0, false, false, 1, false, false⟩

/-- Labels at the addresses of their numbers. -/
def plainTarget : Target := ⟨true, -4, some⟩

/-- A function that pushes 16 bytes, with an epilogue in its middle and a second push behind it. -/
def pushAgain : MCDwarfFrameInfo :=
  ⟨0, ordinaryKey, [⟨some 2, .defCfaOffset 16⟩, ⟨some 4, .rememberState⟩, ⟨some 6, .defCfaOffset 0⟩,
    ⟨some 8, .restoreState⟩, ⟨some 10, .adjustCfaOffset 16⟩]⟩

/-- The same without an epilogue. -/
def pushTwice : MCDwarfFrameInfo :=
  ⟨0, ordinaryKey, [⟨some 2, .defCfaOffset 16⟩, ⟨some 4, .adjustCfaOffset 16⟩]⟩

theorem validFrame_pushTwice : plainTarget.ValidFrame pushTwice :=
  ⟨fun b l hb hl => by
    obtain rfl := Option.some.inj hb
    obtain rfl := Option.some.inj hl
    decide, trivial, _, rfl,
  fun b l hb hl => by
    obtain rfl := Option.some.inj hb
    obtain rfl := Option.some.inj hl
    decide, ⟨16, rfl, by decide, by decide, by decide, by decide⟩, _, rfl, trivial⟩

theorem faithful_pushTwice :
    plainTarget.Faithful [pushTwice] ↔
      ∀ p ∈ plainTarget.starts none 0 (sortFrames [pushTwice]), plainTarget.InStepFrame p :=
  emit_faithful_iff plainTarget (Or.inl rfl) [pushTwice] fun F hF => by
    obtain rfl := List.mem_singleton.mp hF
    exact validFrame_pushTwice

/-- The second push is counted from the epilogue's offset: the CFA is `sp + 16`, not `sp + 32`. -/
theorem not_faithful_pushAgain : ¬ plainTarget.Faithful [pushAgain] := by
  intro h
  have hemit : plainTarget.emit [pushAgain] = plainTarget.emitFrames {} [pushAgain] := by
    rw [emit, sortFrames, List.mergeSort_singleton]
  unfold Faithful at h
  rw [hemit] at h
  obtain ⟨cie, s, hcie, hread, hback⟩ := h _ List.mem_cons_self
  obtain rfl : (plainTarget.cieInstructions false 0).1 = cie := Option.some.inj hcie
  rw [readCIE_eq (Or.inl rfl)] at hread
  obtain rfl := Option.some.inj hread
  have hcfa := congrArg (fun r => r.map fun s => s.row.cfa) (hback 5 (by decide))
  exact absurd hcfa (by decide)

end Target

end RvLlvm.Mc.FrameEmitter
