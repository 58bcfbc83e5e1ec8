import RvLlvm.Lld.Settled

/-!
# Two walks over a script that settles

* `Agree`: two walks that are at the same place, with the same values for what is known; each step
  of the walk keeps it.
* `assignAddresses_agree`: over a script that settles, two walks give the same addresses.
-/

namespace RvLlvm.Lld.Link

variable (L : Link)

/-- Two walks at the same place, the first with `c`, the second with `c'`. -/
structure Agree (K : Known) (c c' : Cursor) : Prop where
  dot : c'.dot = c.dot
  outSec : c'.outSec = c.outSec
  memRegion : c'.memRegion = c.memRegion
  lmaRegion : c'.lmaRegion = c.lmaRegion
  curPos : c'.curPos = c.curPos
  tbssAddr : c'.tbssAddr = c.tbssAddr
  outSec_known : ∀ o, c.outSec = some o → o ∈ K.outs
  dropped : c'.st.dropped = c.st.dropped
  packed : c'.st.packed = c.st.packed
  addr : ∀ o ∈ K.outs, c'.st.addr o = c.st.addr o
  outSize : ∀ o ∈ K.outs, c'.st.outSize o = c.st.outSize o
  secOff : ∀ s ∈ K.secs, c'.st.secOff s = c.st.secOff s
  sym : ∀ d ∈ K.syms, c'.st.sym d = c.st.sym d ∧ L.placeKnown K (c.st.sym d).place = true
  free : ∀ d ∉ L.assigned, c'.st.sym d = c.st.sym d ∧
    (c.st.sym d).place = (L.initSym d).place

variable {L} {K K' : Known} {c c' : Cursor}

namespace Agree

/-! ## Expressions -/

theorem placeVA (h : L.Agree K c c') {p : Place} (hp : L.placeKnown K p = true) :
    L.placeVA c'.st p = L.placeVA c.st p := by
  cases p with
  | absolute => rfl
  | output o =>
    simp only [placeKnown, decide_eq_true_eq] at hp
    exact h.addr o hp
  | input s =>
    simp only [placeKnown, Bool.and_eq_true, decide_eq_true_eq] at hp
    simp only [Link.placeVA, secVA, h.addr _ hp.2, h.secOff s hp.1]

theorem valueVA (h : L.Agree K c c') {v : Value} (hv : L.placeKnown K v.place = true) :
    L.valueVA c'.st v = L.valueVA c.st v := by
  unfold Link.valueVA
  rw [h.placeVA hv]

/-- A known reference reads the same in both walks, and has a known place. -/
theorem view (h : L.Agree K c c') {r : Ref} (hr : L.refKnown K r = true) :
    L.view c' r = L.view c r ∧ L.placeKnown K (L.view c r).1.place = true := by
  cases r with
  | dot =>
    simp only [Link.view, h.outSec, h.dot]
    cases ho : c.outSec with
    | none => exact ⟨rfl, rfl⟩
    | some o =>
      have hmem := h.outSec_known o ho
      refine ⟨by simp only [h.addr o hmem], ?_⟩
      simp only [placeKnown, decide_eq_true_eq]
      exact hmem
  | sym d =>
    have hd : c'.st.sym d = c.st.sym d ∧ L.placeKnown K (c.st.sym d).place = true := by
      simp only [refKnown, Bool.or_eq_true, Bool.and_eq_true, decide_eq_true_eq] at hr
      rcases hr with hr | ⟨hfree, hplace⟩
      · exact h.sym d hr
      · rw [(h.free d hfree).2]
        exact ⟨(h.free d hfree).1, hplace⟩
    refine ⟨?_, hd.2⟩
    simp only [Link.view, hd.1, h.valueVA hd.2]
  | addr o =>
    simp only [refKnown, decide_eq_true_eq] at hr
    refine ⟨by simp only [Link.view, h.addr o hr], ?_⟩
    simp only [Link.view, placeKnown, decide_eq_true_eq]
    exact hr
  | size o =>
    simp only [refKnown, decide_eq_true_eq] at hr
    exact ⟨by simp only [Link.view, h.outSize o hr], rfl⟩

/-- **A known expression has the same value in both walks.** -/
theorem evalExpr (h : L.Agree K c c') {e : Expr} (he : L.exprKnown K e = true) :
    L.evalExpr c' e = L.evalExpr c e ∧ L.placeKnown K (L.evalExpr c e).place = true := by
  have hreads : ∀ r ∈ e.reads, L.refKnown K r = true := List.all_eq_true.mp he
  refine ⟨e.reads_only _ _ fun r hr => (h.view (hreads r hr)).1, ?_⟩
  rcases e.place_read (L.view c) with habs | ⟨r, hr, hplace⟩
  · rw [Link.evalExpr, habs]
    rfl
  · rw [Link.evalExpr, ← hplace]
    exact (h.view (hreads r hr)).2

theorem exprVA (h : L.Agree K c c') {e : Expr} (he : L.exprKnown K e = true) :
    L.exprVA c' e = L.exprVA c e := by
  obtain ⟨heval, hplace⟩ := h.evalExpr he
  unfold Link.exprVA
  rw [heval, h.valueVA hplace]

/-! ## Stores -/

theorem setDotVal (h : L.Agree K c c') (v : Int) :
    L.Agree K { c with dot := v } { c' with dot := v } :=
  { h with dot := rfl }

theorem expandRegion (h : L.Agree K c c') (m : Option RegionId) (n : Int) :
    L.Agree K (c.expandRegion m n) (c'.expandRegion m n) := by
  cases m with
  | none => exact h
  | some m =>
    have hpos : (c'.expandRegion (some m) n).curPos = (c.expandRegion (some m) n).curPos := by
      simp only [Cursor.expandRegion, h.curPos]
    exact { h with curPos := hpos }

theorem expandMemoryRegions (h : L.Agree K c c') (n : Int) :
    L.Agree K (c.expandMemoryRegions n) (c'.expandMemoryRegions n) := by
  simp only [Cursor.expandMemoryRegions]
  rw [h.memRegion, h.lmaRegion]
  split
  · exact h.expandRegion _ n
  · exact (h.expandRegion _ n).expandRegion _ n

theorem setSize (h : L.Agree K c c') (o : OutId) (n : Int) :
    L.Agree K (c.setSize o n) (c'.setSize o n) := by
  have hsize : ∀ i ∈ K.outs, (c'.setSize o n).st.outSize i = (c.setSize o n).st.outSize i := by
    intro i hi
    by_cases hio : i = o
    · subst hio
      simp only [Cursor.setSize, Function.update_self]
    · simp only [Cursor.setSize, Function.update_of_ne hio, h.outSize i hi]
  exact { h with outSize := hsize }

theorem expandOutputSection (h : L.Agree K c c') {o : OutId} (ho : o ∈ K.outs) (n : Int) :
    L.Agree K (c.expandOutputSection o n) (c'.expandOutputSection o n) := by
  have hset := h.setSize o (c.st.outSize o + n)
  simp only [Cursor.expandOutputSection]
  rw [h.outSize o ho]
  exact hset.expandMemoryRegions n

theorem setDot (h : L.Agree K c c') {e : Expr} (he : L.exprKnown K e = true)
    {inSec : Option OutId} (ho : ∀ o, inSec = some o → o ∈ K.outs) :
    L.Agree K (c.setDot L inSec e) (c'.setDot L inSec e) := by
  simp only [Cursor.setDot]
  rw [h.exprVA he, h.dot]
  cases inSec with
  | none => exact h.setDotVal _
  | some o => exact (h.expandOutputSection (ho o rfl) _).setDotVal _

/-- An assignment from known values agrees; any other leaves the symbol unknown. -/
theorem assignSymbol (h : L.Agree K c c') {d : SymId} (hd : d ∈ L.assigned) (e : Expr) :
    L.Agree (L.settleAssign K d e) (c.assignSymbol L d e) (c'.assignSymbol L d e) := by
  have hfree : ∀ i ∉ L.assigned, (c'.assignSymbol L d e).st.sym i =
      (c.assignSymbol L d e).st.sym i ∧
        ((c.assignSymbol L d e).st.sym i).place = (L.initSym i).place := by
    intro i hi
    have hne : i ≠ d := fun heq => hi (heq ▸ hd)
    simp only [Cursor.assignSymbol, Function.update_of_ne hne]
    exact h.free i hi
  have hother : ∀ i ∈ K.syms, i ≠ d → (c'.assignSymbol L d e).st.sym i =
      (c.assignSymbol L d e).st.sym i ∧
        L.placeKnown K ((c.assignSymbol L d e).st.sym i).place = true := by
    intro i hi hne
    simp only [Cursor.assignSymbol, Function.update_of_ne hne]
    exact h.sym i hi
  by_cases he : L.exprKnown K e = true
  · have hK : L.settleAssign K d e = { K with syms := d :: K.syms } := by
      rw [settleAssign, if_pos he]
    have hsym : ∀ i ∈ d :: K.syms, (c'.assignSymbol L d e).st.sym i =
        (c.assignSymbol L d e).st.sym i ∧
          L.placeKnown K ((c.assignSymbol L d e).st.sym i).place = true := by
      intro i hi
      by_cases hid : i = d
      · subst hid
        obtain ⟨heval, hplace⟩ := h.evalExpr he
        simp only [Cursor.assignSymbol, Function.update_self]
        exact ⟨heval, hplace⟩
      · exact hother i ((List.mem_cons.mp hi).resolve_left hid) hid
    rw [hK]
    exact { h with sym := hsym, free := hfree }
  · have hK : L.settleAssign K d e = { K with syms := K.syms.filter fun d' => d' != d } := by
      rw [settleAssign, if_neg he]
    have hsym : ∀ i ∈ K.syms.filter fun d' => d' != d, (c'.assignSymbol L d e).st.sym i =
        (c.assignSymbol L d e).st.sym i ∧
          L.placeKnown K ((c.assignSymbol L d e).st.sym i).place = true := by
      intro i hi
      obtain ⟨hi, hne⟩ := List.mem_filter.mp hi
      exact hother i hi (by simpa using hne)
    rw [hK]
    exact { h with sym := hsym, free := hfree }

/-! ## Sections -/

/-- Placing input section `s` in output section `o`. -/
theorem placeInput (h : L.Agree K c c') {o : OutId} (ho : o ∈ K.outs) (s : SecId) :
    L.Agree (K.addSec s) (c.placeInput L o s) (c'.placeInput L o s) := by
  have hsize : L.sizeOf c'.st s = L.sizeOf c.st s := by
    unfold sizeOf
    rw [h.dropped, h.packed]
  simp only [Cursor.placeInput]
  rw [h.dot, hsize, h.addr o ho]
  have ho' : o ∈ (K.addSec s).outs := ho
  refine expandOutputSection ?_ ho' _
  refine
    { h with
      dot := rfl
      secOff := fun i hi => ?_
      sym := fun d hd => ⟨(h.sym d hd).1, placeKnown_mono (addSec_le K s) (h.sym d hd).2⟩ }
  by_cases his : i = s
  · subst his
    simp only [Function.update_self]
  · simp only [Function.update_of_ne his]
    exact h.secOff i ((List.mem_cons.mp hi).resolve_left his)

theorem placeInputs {o : OutId} :
    ∀ {ss : List SecId} {K : Known} {c c' : Cursor}, L.Agree K c c' → o ∈ K.outs →
      L.Agree (ss.foldl Known.addSec K) (ss.foldl (fun c s => c.placeInput L o s) c)
        (ss.foldl (fun c s => c.placeInput L o s) c')
  | [], _, _, _, h, _ => h
  | s :: ss, _, _, _, h, ho => by
    rw [List.foldl_cons, List.foldl_cons, List.foldl_cons]
    exact placeInputs (h.placeInput ho s) ho

/-- A command of output section `o`. -/
theorem subCommand (h : L.Agree K c c') {o : OutId} (ho : o ∈ K.outs) {cmd : SubCommand}
    (hcmd : ∀ d e, cmd = .assign d e → d ∈ L.assigned) (hK : L.settleSub K cmd = some K') :
    L.Agree K' (c.subCommand L o cmd) (c'.subCommand L o cmd) ∧ K'.outs = K.outs := by
  cases cmd with
  | assign d e =>
    obtain rfl := Option.some.inj hK
    exact ⟨h.assignSymbol (hcmd d e rfl) e, rfl⟩
  | setDot e =>
    by_cases he : L.exprKnown K e = true
    · rw [settleSub, if_pos he] at hK
      obtain rfl := Option.some.inj hK
      exact ⟨h.setDot he fun i hi => Option.some.inj hi ▸ ho, rfl⟩
    · rw [settleSub, if_neg he] at hK
      exact absurd hK (by simp)
  | byte size =>
    obtain rfl := Option.some.inj hK
    refine ⟨?_, rfl⟩
    simp only [Cursor.subCommand]
    rw [h.dot]
    exact (h.setDotVal _).expandOutputSection ho _
  | inputs ss =>
    obtain rfl := Option.some.inj hK
    exact ⟨placeInputs h ho, foldl_addSec_outs ss K⟩

theorem subCommands {o : OutId} :
    ∀ {cmds : List SubCommand} {K K' : Known} {c c' : Cursor}, L.Agree K c c' → o ∈ K.outs →
      (∀ d e, SubCommand.assign d e ∈ cmds → d ∈ L.assigned) →
      L.settleSubs K cmds = some K' →
      L.Agree K' (cmds.foldl (fun c cmd => c.subCommand L o cmd) c)
        (cmds.foldl (fun c cmd => c.subCommand L o cmd) c') ∧ K'.outs = K.outs
  | [], K, K', _, _, h, _, _, hK => by
    obtain rfl := Option.some.inj hK
    exact ⟨h, rfl⟩
  | cmd :: cmds, K, K', _, _, h, ho, hassigned, hK => by
    rw [settleSubs, Option.bind_eq_some_iff] at hK
    obtain ⟨K₁, hK₁, hK⟩ := hK
    obtain ⟨h₁, houts⟩ := h.subCommand ho
      (fun d e heq => hassigned d e (heq ▸ List.mem_cons_self)) hK₁
    obtain ⟨h₂, houts'⟩ := subCommands h₁ (houts ▸ ho)
      (fun d e hmem => hassigned d e (List.mem_cons_of_mem _ hmem)) hK
    exact ⟨h₂, houts'.trans houts⟩

theorem tbssStart (h : L.Agree K c c') : L.Agree K c.tbssStart c'.tbssStart := by
  unfold Cursor.tbssStart
  by_cases htbss : c.tbssAddr = 0
  · rw [if_pos htbss, if_pos (h.tbssAddr.trans htbss)]
    exact { h with tbssAddr := h.dot }
  · rw [if_neg htbss, if_neg fun h' => htbss (h.tbssAddr.symm.trans h')]
    exact { h with dot := h.tbssAddr }

theorem regionStart (h : L.Agree K c c') : L.Agree K c.regionStart c'.regionStart := by
  cases hm : c.memRegion with
  | none =>
    simp only [Cursor.regionStart, hm, h.memRegion]
    exact h
  | some m =>
    simp only [Cursor.regionStart, hm, h.memRegion, h.curPos]
    exact { h with dot := rfl, memRegion := rfl, curPos := rfl }

theorem explicitStart (h : L.Agree K c c') {sec : OutputSection}
    (he : sec.addrExpr.all (L.exprKnown K) = true) :
    L.Agree K (c.explicitStart L sec) (c'.explicitStart L sec) := by
  unfold Cursor.explicitStart
  cases hx : sec.addrExpr with
  | none => exact h
  | some e =>
    rw [hx] at he
    exact h.setDot he fun o ho => absurd ho (by simp)

theorem catchUpRegion (h : L.Agree K c c') : L.Agree K c.catchUpRegion c'.catchUpRegion := by
  unfold Cursor.catchUpRegion
  rw [h.memRegion]
  cases c.memRegion with
  | none => exact h
  | some m =>
    simp only [h.curPos, h.dot]
    by_cases hlt : c.curPos m < c.dot
    · rw [if_pos hlt, if_pos hlt]
      exact h.expandRegion _ _
    · rw [if_neg hlt, if_neg hlt]
      exact h

/-- The location counter an output section starts from. -/
theorem startSection (h : L.Agree K c c') {sec : OutputSection}
    (he : sec.addrExpr.all (L.exprKnown K) = true) :
    L.Agree K (c.startSection L sec) (c'.startSection L sec) := by
  have hset : L.Agree K { c with memRegion := sec.memRegion, lmaRegion := sec.lmaRegion }
      { c' with memRegion := sec.memRegion, lmaRegion := sec.lmaRegion } :=
    { h with memRegion := rfl, lmaRegion := rfl }
  simp only [Cursor.startSection]
  split
  · exact hset.setDotVal 0
  · split
    · exact hset.tbssStart
    · exact (hset.regionStart.explicitStart he).catchUpRegion

/-- A store to the address and size of section `o` makes both known. -/
theorem storeOut (h : L.Agree K c c') (o : OutId) {a a' : Int} (ha : a' = a) :
    L.Agree (K.addOut o) (({ c with outSec := some o }.setAddr o a).setSize o 0)
      (({ c' with outSec := some o }.setAddr o a').setSize o 0) := by
  have hmono := addOut_le K o
  subst ha
  refine
    { h with
      outSec := rfl
      outSec_known := fun i hi => ?_
      addr := fun i hi => ?_
      outSize := fun i hi => ?_
      sym := fun d hd => ⟨(h.sym d hd).1, placeKnown_mono hmono (h.sym d hd).2⟩ }
  · obtain rfl := Option.some.inj hi
    exact List.mem_cons_self
  · by_cases hio : i = o
    · subst hio
      simp only [Cursor.setSize, Cursor.setAddr, Function.update_self]
    · simp only [Cursor.setSize, Cursor.setAddr, Function.update_of_ne hio]
      exact h.addr i ((List.mem_cons.mp hi).resolve_left hio)
  · by_cases hio : i = o
    · subst hio
      simp only [Cursor.setSize, Function.update_self]
    · simp only [Cursor.setSize, Cursor.setAddr, Function.update_of_ne hio]
      exact h.outSize i ((List.mem_cons.mp hi).resolve_left hio)

theorem expandMemoryRegions_setSize (c : Cursor) (n k : Int) (o : OutId) :
    (c.expandMemoryRegions n).setSize o k = (c.setSize o k).expandMemoryRegions n := by
  have hone : ∀ (c : Cursor) (m : Option RegionId),
      (c.expandRegion m n).setSize o k = (c.setSize o k).expandRegion m n := by
    intro c m
    cases m <;> rfl
  have hmem : (c.setSize o k).memRegion = c.memRegion := rfl
  have hlma : (c.setSize o k).lmaRegion = c.lmaRegion := rfl
  simp only [Cursor.expandMemoryRegions]
  rw [hmem, hlma, ← hone]
  split
  · rfl
  · exact hone _ _

theorem placeLma_setSize (c : Cursor) (sec : OutputSection) (k : Int) (o : OutId) :
    (c.placeLma sec).setSize o k = (c.setSize o k).placeLma sec := by
  unfold Cursor.placeLma
  cases sec.lmaRegion with
  | none => rfl
  | some m =>
    by_cases he : sec.hasLmaExpr = true
    · simp only [if_pos he]
    · simp only [if_neg he]
      by_cases hlt : c.curPos m < alignTo (c.curPos m) sec.addralign
      · have hlt' : (c.setSize o k).curPos m <
          alignTo ((c.setSize o k).curPos m) sec.addralign := hlt
        rw [if_pos hlt, if_pos hlt']
        rfl
      · have hlt' : ¬ (c.setSize o k).curPos m <
          alignTo ((c.setSize o k).curPos m) sec.addralign := hlt
        rw [if_neg hlt, if_neg hlt']

theorem placeLma (h : L.Agree K c c') (sec : OutputSection) :
    L.Agree K (c.placeLma sec) (c'.placeLma sec) := by
  unfold Cursor.placeLma
  cases sec.lmaRegion with
  | none => exact h
  | some m =>
    by_cases he : sec.hasLmaExpr = true
    · simp only [if_pos he]
      exact h
    · simp only [if_neg he, h.curPos]
      split
      · exact h.expandRegion _ _
      · exact h

/-- The address of an output section, known from here on. -/
theorem placeSection (h : L.Agree K c c') (o : OutId) (sec : OutputSection) :
    L.Agree (K.addOut o) (((c.placeSection L o sec).placeLma sec).setSize o 0)
      (((c'.placeSection L o sec).placeLma sec).setSize o 0) := by
  rw [placeLma_setSize, placeLma_setSize]
  refine placeLma ?_ sec
  simp only [Cursor.placeSection]
  split
  · exact h.storeOut o h.dot
  · rw [expandMemoryRegions_setSize, expandMemoryRegions_setSize, h.dot]
    have hstart : alignTo c.dot sec.addralign = alignTo c.dot sec.addralign := rfl
    have hset := (h.setDotVal (alignTo c.dot sec.addralign)).storeOut o hstart
    exact hset.expandMemoryRegions _

theorem endSection (h : L.Agree K c c') (sec : OutputSection) (savedDot : Int) :
    L.Agree K (c.endSection sec savedDot) (c'.endSection sec savedDot) := by
  unfold Cursor.endSection
  split
  · exact h.setDotVal _
  · split
    · exact { h with dot := rfl, tbssAddr := h.dot }
    · exact h

/-! ## The script -/

theorem assignOffsets (h : L.Agree K c c') {o : OutId}
    (hsyms : ∀ d e, SubCommand.assign d e ∈ (L.output o).commands → d ∈ L.assigned)
    (hK : L.settleCommand K (.section o) = some K') :
    L.Agree K' (c.assignOffsets L o) (c'.assignOffsets L o) := by
  by_cases he : (L.output o).addrExpr.all (L.exprKnown K) = true
  · rw [settleCommand, if_pos he] at hK
    have hplaced := (h.startSection he).placeSection o (L.output o)
    have hcommands := (subCommands hplaced List.mem_cons_self hsyms hK).1
    simp only [Cursor.assignOffsets]
    rw [h.dot]
    exact hcommands.endSection (L.output o) c.dot
  · rw [settleCommand, if_neg he] at hK
    exact absurd hK (by simp)

theorem command (h : L.Agree K c c') {cmd : Command} (hcmd : cmd ∈ L.script)
    (hK : L.settleCommand K cmd = some K') :
    L.Agree K' (c.command L cmd) (c'.command L cmd) := by
  cases cmd with
  | assign d e =>
    obtain rfl := Option.some.inj hK
    exact h.assignSymbol (mem_assigned (mem_assignments hcmd)) e
  | setDot e =>
    by_cases he : L.exprKnown K e = true
    · rw [settleCommand, if_pos he] at hK
      obtain rfl := Option.some.inj hK
      have hnone : ∀ o, (none : Option OutId) = some o → o ∈ K.outs :=
        fun o ho => absurd ho (by simp)
      exact h.setDot he hnone
    · rw [settleCommand, if_neg he] at hK
      exact absurd hK (by simp)
  | «section» o => exact 
    h.assignOffsets (fun d e hmem => mem_assigned (mem_assignments_sub hcmd hmem)) hK

theorem commands :
    ∀ {cmds : List Command} {K K' : Known} {c c' : Cursor}, L.Agree K c c' →
      (∀ cmd ∈ cmds, cmd ∈ L.script) → L.settle K cmds = some K' →
      L.Agree K' (cmds.foldl (fun c cmd => c.command L cmd) c)
        (cmds.foldl (fun c cmd => c.command L cmd) c')
  | [], K, K', _, _, h, _, hK => by
    obtain rfl := Option.some.inj hK
    exact h
  | cmd :: cmds, K, K', _, _, h, hcmds, hK => by
    rw [settle, Option.bind_eq_some_iff] at hK
    obtain ⟨K₁, hK₁, hK⟩ := hK
    rw [List.foldl_cons, List.foldl_cons]
    exact commands (h.command (hcmds cmd List.mem_cons_self) hK₁)
      (fun cmd' hmem => hcmds cmd' (List.mem_cons_of_mem cmd hmem)) hK

/-- Two walks start alike if the symbols and sizes they start from are alike. -/
theorem startCursor {st st' : State} (hL : L.Settles K) (hdropped : st'.dropped = st.dropped)
    (hpacked : st'.packed = st.packed) (hconst : ∀ d, L.constant d = true → d ∈ L.assigned →
      st.sym d = L.initSym d ∧ st'.sym d = L.initSym d)
    (hfree : ∀ d ∉ L.assigned, st'.sym d = st.sym d ∧ (st.sym d).place = (L.initSym d).place) :
    L.Agree L.early (L.startCursor st) (L.startCursor st') := by
  have hsyms : ∀ d ∈ L.early.syms, st'.sym d = st.sym d ∧
      L.placeKnown L.early (st.sym d).place = true := by
    intro d hd
    obtain ⟨hassigned, hd⟩ := List.mem_filter.mp hd
    obtain ⟨hst, hst'⟩ := hconst d hd hassigned
    obtain ⟨⟨d', e⟩, he, rfl⟩ := List.mem_map.mp hassigned
    rw [hst, hst', (constant_eval hd he fun _ => (⟨.absolute, 0⟩, 0)).2]
    exact ⟨rfl, rfl⟩
  have hbare : L.Agree L.early ⟨st, L.startDot, none, none, none, fun _ => 0, 0⟩
      ⟨st', L.startDot, none, none, none, fun _ => 0, 0⟩ :=
    { dot := rfl
      outSec := rfl
      memRegion := rfl
      lmaRegion := rfl
      curPos := rfl
      tbssAddr := rfl
      outSec_known := fun o ho => absurd ho (by simp)
      dropped := hdropped
      packed := hpacked
      addr := fun o ho => absurd ho List.not_mem_nil
      outSize := fun o ho => absurd ho List.not_mem_nil
      secOff := fun s hs => absurd hs List.not_mem_nil
      sym := hsyms
      free := hfree }
  exact { hbare with curPos := funext fun m => hbare.exprVA (hL.origin m) }

end Agree

/-- What two walks start alike in. -/
structure SameStart (L : Link) (st st' : State) : Prop where
  dropped : st'.dropped = st.dropped
  packed : st'.packed = st.packed
  addr : ∀ o ∉ L.outputSections, st'.addr o = st.addr o
  outSize : ∀ o ∉ L.outputSections, st'.outSize o = st.outSize o
  secOff : ∀ s ∉ L.placed, st'.secOff s = st.secOff s
  constants : ∀ d, L.constant d = true → d ∈ L.assigned →
    st.sym d = L.initSym d ∧ st'.sym d = L.initSym d
  free : ∀ d ∉ L.assigned, st'.sym d = st.sym d ∧ (st.sym d).place = (L.initSym d).place

/-- **Two walks over a script that settles** give the sections the same addresses and sizes, and
the known symbols the same values. -/
theorem assignAddresses_agree {st st' : State} (hL : L.Settles K) (h : L.SameStart st st') :
    let a := (L.assignAddresses st).1
    let a' := (L.assignAddresses st').1
    a'.addr = a.addr ∧ a'.outSize = a.outSize ∧ a'.secOff = a.secOff ∧
      ∀ d ∈ K.syms, a'.sym d = a.sym d := by
  have hagree : L.Agree K _ _ := (Agree.startCursor hL h.dropped h.packed h.constants h.free).commands
    (fun _ hmem => hmem) hL.script
  have hkept := Kept.assignAddresses (L := L) st
  have hkept' := Kept.assignAddresses (L := L) st'
  obtain ⟨houts, hsecs⟩ := hL.covers
  refine ⟨funext fun o => ?_, funext fun o => ?_, funext fun s => ?_, fun d hd => ?_⟩
  · by_cases ho : o ∈ L.outputSections
    · exact hagree.addr o (houts ho)
    · rw [hkept.addr o ho, hkept'.addr o ho, h.addr o ho]
  · by_cases ho : o ∈ L.outputSections
    · exact hagree.outSize o (houts ho)
    · rw [hkept.outSize o ho, hkept'.outSize o ho, h.outSize o ho]
  · by_cases hs : s ∈ L.placed
    · exact hagree.secOff s (hsecs hs)
    · rw [hkept.secOff s hs, hkept'.secOff s hs, h.secOff s hs]
  · exact (hagree.sym d hd).1

end RvLlvm.Lld.Link
