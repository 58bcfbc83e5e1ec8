import RvLlvm.Lld.LinkerScript

/-!
# What an address assignment leaves alone

* `Kept`: what a walk over the script may store to: the output sections of the script, the input
  sections they place and the symbols it assigns. A symbol that is only ever assigned the number
  its early evaluation found keeps it.
* `Kept.assignAddresses`: so it is for `assignAddresses`, by one lemma for each step of the walk.
-/

namespace RvLlvm.Lld.Link

variable (L : Link)

/-- Every assignment of `d` is the number its early evaluation left. -/
def constant (d : SymId) : Bool := L.assignments.all fun (d', e) =>
  d' != d || e.reads.isEmpty && decide (e.eval (fun _ => (⟨.absolute, 0⟩, 0)) = L.initSym d)

/-- The input sections the script places. -/
def placed : List SecId := L.outputSections.flatMap L.inputsOf

variable {L}

theorem mem_outputSections {o : OutId} : o ∈ L.outputSections ↔ Command.section o ∈ L.script := by
  unfold outputSections
  rw [List.mem_filterMap]
  constructor
  · rintro ⟨cmd, hcmd, ho⟩
    cases cmd with
    | «section» i =>
      obtain rfl := Option.some.inj ho
      exact hcmd
    | assign d e => exact absurd ho (by simp)
    | setDot e => exact absurd ho (by simp)
  · intro h
    exact ⟨_, h, rfl⟩

theorem mem_assignments {d : SymId} {e : Expr} (h : Command.assign d e ∈ L.script) :
    (d, e) ∈ L.assignments :=
  List.mem_flatMap.mpr ⟨_, h, List.mem_singleton.mpr rfl⟩

theorem mem_assignments_sub {o : OutId} {d : SymId} {e : Expr}
    (ho : Command.section o ∈ L.script)
    (h : SubCommand.assign d e ∈ (L.output o).commands) : (d, e) ∈ L.assignments :=
  List.mem_flatMap.mpr ⟨_, ho, List.mem_filterMap.mpr ⟨_, h, rfl⟩⟩

theorem mem_assigned {d : SymId} {e : Expr} (h : (d, e) ∈ L.assignments) : d ∈ L.assigned :=
  List.mem_map.mpr ⟨_, h, rfl⟩

/-- An assignment of a constant gives it its early value. -/
theorem constant_eval {d : SymId} {e : Expr} (hd : L.constant d = true)
    (he : (d, e) ∈ L.assignments) (v : Ref → Value × Int) :
    e.eval v = L.initSym d ∧ (L.initSym d).place = .absolute := by
  have hde := List.all_eq_true.mp hd _ he
  simp only [bne_self_eq_false, Bool.false_or, Bool.and_eq_true, List.isEmpty_iff,
    decide_eq_true_eq] at hde
  obtain ⟨hreads, heval⟩ := hde
  have hsame : e.eval v = L.initSym d := by
    rw [← heval]
    exact e.reads_only _ _ fun r hr => absurd (hreads ▸ hr) List.not_mem_nil
  refine ⟨hsame, ?_⟩
  rcases e.place_read v with habs | ⟨r, hr, _⟩
  · rw [← hsame, habs]
  · exact absurd (hreads ▸ hr) List.not_mem_nil

/-! ## What a walk leaves alone -/

/-- A walk from `st` that has come to `st'`. -/
structure Kept (L : Link) (st st' : State) : Prop where
  addr : ∀ o ∉ L.outputSections, st'.addr o = st.addr o
  outSize : ∀ o ∉ L.outputSections, st'.outSize o = st.outSize o
  secOff : ∀ s ∉ L.placed, st'.secOff s = st.secOff s
  sym : ∀ d ∉ L.assigned, st'.sym d = st.sym d
  constants : ∀ d, L.constant d = true → st.sym d = L.initSym d → st'.sym d = L.initSym d
  symSize : st'.symSize = st.symSize
  anchors : st'.anchors = st.anchors
  deltas : st'.deltas = st.deltas
  types : st'.types = st.types
  writes : st'.writes = st.writes
  dropped : st'.dropped = st.dropped
  packed : st'.packed = st.packed
  gp : st'.gp = st.gp

namespace Kept

variable {st st' st'' : State}

theorem refl (st : State) : L.Kept st st :=
  ⟨fun _ _ => rfl, fun _ _ => rfl, fun _ _ => rfl, fun _ _ => rfl, fun _ _ h => h, rfl, rfl, rfl,
    rfl, rfl, rfl, rfl, rfl⟩

theorem trans (h : L.Kept st st') (h' : L.Kept st' st'') : L.Kept st st'' where
  addr o ho := (h'.addr o ho).trans (h.addr o ho)
  outSize o ho := (h'.outSize o ho).trans (h.outSize o ho)
  secOff s hs := (h'.secOff s hs).trans (h.secOff s hs)
  sym d hd := (h'.sym d hd).trans (h.sym d hd)
  constants d hd hst := h'.constants d hd (h.constants d hd hst)
  symSize := h'.symSize.trans h.symSize
  anchors := h'.anchors.trans h.anchors
  deltas := h'.deltas.trans h.deltas
  types := h'.types.trans h.types
  writes := h'.writes.trans h.writes
  dropped := h'.dropped.trans h.dropped
  packed := h'.packed.trans h.packed
  gp := h'.gp.trans h.gp

/-! ### Steps that only move the location counter -/

@[simp] theorem expandRegion_st (c : Cursor) (m : Option RegionId) (n : Int) :
    (c.expandRegion m n).st = c.st := by
  cases m <;> rfl

@[simp] theorem expandMemoryRegions_st (c : Cursor) (n : Int) :
    (c.expandMemoryRegions n).st = c.st := by
  simp only [Cursor.expandMemoryRegions]
  split <;> simp

@[simp] theorem catchUpRegion_st (c : Cursor) : c.catchUpRegion.st = c.st := by
  unfold Cursor.catchUpRegion
  cases c.memRegion with
  | none => rfl
  | some m =>
    by_cases hlt : c.curPos m < c.dot
    · simp only [if_pos hlt, expandRegion_st]
    · simp only [if_neg hlt]

@[simp] theorem explicitStart_st (c : Cursor) (sec : OutputSection) :
    (c.explicitStart L sec).st = c.st := by
  unfold Cursor.explicitStart
  cases sec.addrExpr <;> rfl

@[simp] theorem startSection_st (c : Cursor) (sec : OutputSection) :
    (c.startSection L sec).st = c.st := by
  have hregion : ∀ c : Cursor, c.regionStart.st = c.st := by
    intro c
    unfold Cursor.regionStart
    cases c.memRegion <;> rfl
  have htbss : ∀ c : Cursor, c.tbssStart.st = c.st := by
    intro c
    unfold Cursor.tbssStart
    split <;> rfl
  simp only [Cursor.startSection]
  split
  · rfl
  · split
    · exact htbss _
    · rw [catchUpRegion_st, explicitStart_st, hregion]

@[simp] theorem placeLma_st (c : Cursor) (sec : OutputSection) : (c.placeLma sec).st = c.st := by
  unfold Cursor.placeLma
  cases sec.lmaRegion with
  | none => rfl
  | some m =>
    by_cases he : sec.hasLmaExpr = true
    · simp only [if_pos he]
    · by_cases hlt : c.curPos m < alignTo (c.curPos m) sec.addralign
      · simp only [if_neg he, if_pos hlt, expandRegion_st]
      · simp only [if_neg he, if_neg hlt]

@[simp] theorem endSection_st (c : Cursor) (sec : OutputSection) (savedDot : Int) :
    (c.endSection sec savedDot).st = c.st := by
  unfold Cursor.endSection
  split
  · rfl
  · split <;> rfl

/-! ### Stores -/

variable {c : Cursor} {o : OutId}

theorem setAddr (ho : o ∈ L.outputSections) (a : Int) : L.Kept c.st (c.setAddr o a).st := by
  refine { refl c.st with addr := ?_ }
  intro i hi
  have hne : i ≠ o := by
    rintro rfl
    exact hi ho
  exact Function.update_of_ne hne _ _

theorem setSize (ho : o ∈ L.outputSections) (n : Int) : L.Kept c.st (c.setSize o n).st := by
  refine { refl c.st with outSize := ?_ }
  intro i hi
  have hne : i ≠ o := by
    rintro rfl
    exact hi ho
  exact Function.update_of_ne hne _ _

theorem expandOutputSection (ho : o ∈ L.outputSections) (n : Int) :
    L.Kept c.st (c.expandOutputSection o n).st := by
  simp only [Cursor.expandOutputSection, expandMemoryRegions_st]
  exact setSize ho (c.st.outSize o + n)

theorem setDot {e : Expr} {inSec : Option OutId} (ho : ∀ o, inSec = some o → o ∈ L.outputSections) :
    L.Kept c.st (c.setDot L inSec e).st := by
  cases inSec with
  | none => exact refl c.st
  | some o => exact expandOutputSection (ho o rfl) (L.exprVA c e - c.dot)

theorem assignSymbol {d : SymId} {e : Expr} (hde : (d, e) ∈ L.assignments) :
    L.Kept c.st (c.assignSymbol L d e).st := by
  refine { refl c.st with sym := ?_, constants := ?_ }
  · intro i hi
    have hne : i ≠ d := by
      rintro rfl
      exact hi (mem_assigned hde)
    exact Function.update_of_ne hne _ _
  · intro i hi hst
    by_cases hid : i = d
    · subst hid
      exact (Function.update_self _ _ _).trans (constant_eval hi hde _).1
    · exact (Function.update_of_ne hid _ _).trans hst

theorem setSecOff {s : SecId} (hs : s ∈ L.placed) (v : Int) :
    L.Kept st { st with secOff := Function.update st.secOff s v } := by
  refine { refl st with secOff := ?_ }
  intro i hi
  have hne : i ≠ s := by
    rintro rfl
    exact hi hs
  exact Function.update_of_ne hne _ _

theorem placeInput {s : SecId} (ho : o ∈ L.outputSections) (hs : s ∈ L.placed) :
    L.Kept c.st (c.placeInput L o s).st := by
  let c' : Cursor := { c with
    st := { c.st with
      secOff := Function.update c.st.secOff s
        (alignTo c.dot (L.input s).addralign - c.st.addr o) }
    dot := alignTo c.dot (L.input s).addralign + L.sizeOf c.st s }
  have hoff : L.Kept c.st c'.st := setSecOff hs _
  have hsize : L.Kept c'.st (c'.expandOutputSection o (c'.dot - c.dot)).st :=
    expandOutputSection ho _
  exact hoff.trans hsize

theorem placeInputs {ss : List SecId} (ho : o ∈ L.outputSections) (hss : ∀ s ∈ ss, s ∈ L.placed)
    (c : Cursor) : L.Kept c.st (ss.foldl (fun c s => c.placeInput L o s) c).st := by
  induction ss generalizing c with
  | nil => exact refl c.st
  | cons s ss ih =>
    rw [List.foldl_cons]
    exact (placeInput ho (hss s List.mem_cons_self)).trans
      (ih (fun i hi => hss i (List.mem_cons_of_mem s hi)) _)

theorem subCommand {cmd : SubCommand} (ho : Command.section o ∈ L.script)
    (hcmd : cmd ∈ (L.output o).commands) : L.Kept c.st (c.subCommand L o cmd).st := by
  have hout : o ∈ L.outputSections := List.mem_filterMap.mpr ⟨_, ho, rfl⟩
  cases cmd with
  | assign d e => exact assignSymbol (mem_assignments_sub ho hcmd)
  | setDot e => exact setDot fun i hi => Option.some.inj hi ▸ hout
  | byte size =>
    exact expandOutputSection (c := { c with dot := c.dot + size }) hout size
  | inputs ss =>
    refine placeInputs hout (fun s hs => ?_) c
    exact List.mem_flatMap.mpr ⟨o, hout, List.mem_flatMap.mpr ⟨_, hcmd, hs⟩⟩

theorem subCommands {cmds : List SubCommand} (ho : Command.section o ∈ L.script)
    (hcmds : ∀ cmd ∈ cmds, cmd ∈ (L.output o).commands) (c : Cursor) :
    L.Kept c.st (cmds.foldl (fun c cmd => c.subCommand L o cmd) c).st := by
  induction cmds generalizing c with
  | nil => exact refl c.st
  | cons cmd cmds ih =>
    rw [List.foldl_cons]
    exact (subCommand ho (hcmds cmd List.mem_cons_self)).trans
      (ih (fun i hi => hcmds i (List.mem_cons_of_mem cmd hi)) _)

theorem placeSection (ho : o ∈ L.outputSections) (sec : OutputSection) :
    L.Kept c.st (c.placeSection L o sec).st := by
  simp only [Cursor.placeSection]
  split
  · exact setAddr ho c.dot
  · rw [expandMemoryRegions_st]
    exact setAddr ho _

theorem assignOffsets (ho : Command.section o ∈ L.script) :
    L.Kept c.st (c.assignOffsets L o).st := by
  have hout : o ∈ L.outputSections := List.mem_filterMap.mpr ⟨_, ho, rfl⟩
  simp only [Cursor.assignOffsets, endSection_st]
  refine trans ?_ (subCommands ho (fun _ h => h) _)
  refine trans ?_ (setSize hout 0)
  rw [placeLma_st]
  have hplace := placeSection (L := L) (c := c.startSection L (L.output o)) hout (L.output o)
  rw [startSection_st] at hplace
  exact hplace

theorem command {cmd : Command} (hcmd : cmd ∈ L.script) : L.Kept c.st (c.command L cmd).st := by
  cases cmd with
  | assign d e => exact assignSymbol (mem_assignments hcmd)
  | setDot e => exact refl c.st
  | «section» o => exact assignOffsets hcmd

theorem commands {cmds : List Command} (hcmds : ∀ cmd ∈ cmds, cmd ∈ L.script) (c : Cursor) :
    L.Kept c.st (cmds.foldl (fun c cmd => c.command L cmd) c).st := by
  induction cmds generalizing c with
  | nil => exact refl c.st
  | cons cmd cmds ih =>
    rw [List.foldl_cons]
    exact (command (hcmds cmd List.mem_cons_self)).trans
      (ih (fun i hi => hcmds i (List.mem_cons_of_mem cmd hi)) _)

/-- **`assignAddresses` stores to the placed sections and the assigned symbols only.** -/
theorem assignAddresses (st : State) : L.Kept st (L.assignAddresses st).1 :=
  commands (fun _ h => h) (L.startCursor st)

end Kept

end RvLlvm.Lld.Link
