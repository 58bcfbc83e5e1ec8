import RvLlvm.Lld.RelaxPass
import RvLlvm.Lld.SettledWalk
import RvLlvm.Lld.Writer

/-!
# The final `__global_pointer$` and the relocations relaxed for it

The decision to access a target through `gp` is taken with the addresses and the `gp` of the turn
before. A link that ends without error has taken its last decisions with the final ones, unless the
last address assignment moves something.

* `LoopInv`: what holds before each pass over a script that settles. A turn keeps it
  (`LoopInv.turn`).
* `LoopInv.exit`: the state a quiet turn leaves looks like the one it started from.
* `gp_in_range`: a link over a script that settles leaves every relocation relaxed for `gp` in
  range of it.
* `not_gp_in_range_lateSymbol`: a script that places `.bss` by a symbol that is assigned after it
  deletes a `lui` for a `gp` that is then out of reach.
-/

namespace RvLlvm.Lld.Link

variable {L : Link} {K : Known} {home : SymId → SecId × Int}

/-- Relocation `r`, which has become `t`, was relaxed for `gp` and is in range of it. -/
def GpInRange (L : Link) (st : State) : Prop :=
  ∀ s ∈ L.execSections, ∀ p ∈ (L.input s).relocs.zip (st.types s), gpMarked p.1 p.2 →
    ∃ gp, st.gp = some gp ∧ -2048 ≤ L.gpDistance st gp p.1 ∧ L.gpDistance st gp p.1 ≤ 2047

/-- The addresses of the script settle, and a symbol that does not is an error. A symbol that may
change from walk to walk is not in an executable input section when relaxation starts. -/
structure ScriptSettles (L : Link) (K : Known) : Prop where
  settles : L.Settles K
  strict : L.noinhibitExec = false
  unanchored : ∀ d ∈ L.assigned, d ∉ K.syms → ∀ s ∈ L.execSections,
    ((L.assignAddresses L.initialState).1.sym d).place ≠ .input s

/-! ## Before each pass -/

/-- What holds of the state that pass `pass` of `relaxOnce` works on. `walked`: the addresses come
from a walk that started like another from this state would. -/
structure LoopInv (L : Link) (K : Known) (home : SymId → SecId × Int) (pass : Nat) (p : State) :
    Prop where
  anchored : Anchored L p home
  inPlace : ∀ s ∈ L.execSections, ∀ a ∈ p.anchors s, a.sym ∉ L.assigned →
    InPlace p a (deltaAt (L.input s).relocs (p.deltas s) 0 a.offset)
  known : ∀ s ∈ L.execSections, ∀ a ∈ p.anchors s, a.atEnd = false → a.sym ∈ L.assigned →
    a.sym ∈ K.syms ∧ L.constant a.sym = false
  walked : ∃ q, L.SameStart q p ∧ p.addr = (L.assignAddresses q).1.addr ∧
    p.outSize = (L.assignAddresses q).1.outSize ∧ p.secOff = (L.assignAddresses q).1.secOff ∧
    ∀ d ∈ K.syms, p.sym d = (L.assignAddresses q).1.sym d
  gp : (pass = 0 ∧ ∀ s ∈ L.execSections, ∀ d ∈ p.deltas s, d = 0) ∨
    p.gp = p.gp.map fun _ => L.calculateRISCVGP p

/-- The state `relaxOnce` works on. -/
def prepared (L : Link) (pass : Nat) (st : State) : State :=
  if pass = 0 then L.initSymbolAnchors st else st

variable {st : State}

theorem SameStart.trans {st' st'' : State} (h : L.SameStart st st') (h' : L.SameStart st' st'') :
    L.SameStart st st'' where
  dropped := h'.dropped.trans h.dropped
  packed := h'.packed.trans h.packed
  addr o ho := (h'.addr o ho).trans (h.addr o ho)
  outSize o ho := (h'.outSize o ho).trans (h.outSize o ho)
  secOff s hs := (h'.secOff s hs).trans (h.secOff s hs)
  constants d hd hassigned := ⟨(h.constants d hd hassigned).1, (h'.constants d hd hassigned).2⟩
  free d hd := ⟨((h'.free d hd).1).trans (h.free d hd).1, (h.free d hd).2⟩

/-- A walk ends where it could have started. -/
theorem sameStart_assignAddresses (st : State)
    (hconst : ∀ d, L.constant d = true → d ∈ L.assigned → st.sym d = L.initSym d)
    (hfree : ∀ d ∉ L.assigned, (st.sym d).place = (L.initSym d).place) :
    L.SameStart st (L.assignAddresses st).1 := by
  have hkept := Kept.assignAddresses (L := L) st
  exact
    { dropped := hkept.dropped
      packed := hkept.packed
      addr := hkept.addr
      outSize := hkept.outSize
      secOff := hkept.secOff
      constants := fun d hd hassigned =>
        ⟨hconst d hd hassigned, hkept.constants d hd (hconst d hd hassigned)⟩
      free := fun d hd => ⟨hkept.sym d hd, hfree d hd⟩ }

theorem Anchored.congr {st' : State} (h : Anchored L st home) (hanchors : st'.anchors = st.anchors)
    (hdeltas : st'.deltas = st.deltas) (hdropped : st'.dropped = st.dropped) :
    Anchored L st' home := by
  constructor
  · rw [hdeltas]
    exact h.lengths
  · rw [hanchors]
    exact h.sorted
  · rw [hanchors]
    exact h.homes
  · rw [hdeltas, hdropped]
    exact h.dropped

/-- **It holds before the first pass.** -/
theorem loopInv_zero (hL : L.ScriptSettles K) :
    LoopInv L K (homeOf (L.assignAddresses L.initialState).1) 0
      (L.prepared 0 (L.assignAddresses L.initialState).1) := by
  have hkept := Kept.assignAddresses (L := L) L.initialState
  have hdropped : ∀ s, (L.assignAddresses L.initialState).1.dropped s = 0 := by
    intro s
    rw [hkept.dropped]
    rfl
  obtain ⟨hanchored, hplace⟩ := initSymbolAnchors_spec (L := L) hdropped
  have hstart := sameStart_assignAddresses (L := L) L.initialState
    (fun _ _ _ => rfl) (fun _ _ => rfl)
  have hprep : L.prepared 0 (L.assignAddresses L.initialState).1 =
      L.initSymbolAnchors (L.assignAddresses L.initialState).1 := rfl
  rw [hprep]
  refine ⟨hanchored, fun s _ a ha _ => hplace s a ha, ?_, ?_, ?_⟩
  · intro s hs a ha hend hassigned
    have hanchors : a ∈ L.anchorsOf (L.assignAddresses L.initialState).1 s := by
      simpa only [initSymbolAnchors, if_pos hs] using ha
    have hsym := mem_anchorsOf hanchors hend
    constructor
    · by_contra hunknown
      exact hL.unanchored a.sym hassigned hunknown s hs (by rw [hsym])
    · rw [← Bool.not_eq_true]
      intro hconst
      obtain ⟨⟨d, e⟩, he, hd⟩ := List.mem_map.mp hassigned
      subst hd
      have habs := (constant_eval hconst he fun _ => (⟨.absolute, 0⟩, 0)).2
      have hinit := (hstart.constants _ hconst hassigned).2
      rw [hsym] at hinit
      rw [← hinit] at habs
      exact absurd habs (by simp)
  · exact ⟨L.initialState, { hstart with }, rfl, rfl, rfl, fun _ _ => rfl⟩
  · refine Or.inl ⟨rfl, fun s hs d hd => ?_⟩
    simp only [initSymbolAnchors, if_pos hs] at hd
    exact List.eq_of_mem_replicate hd

namespace LoopInv

variable {pass : Nat} {p : State}

theorem sym_constant (h : LoopInv L K home pass p) {d : SymId} (hd : L.constant d = true)
    (hassigned : d ∈ L.assigned) : p.sym d = L.initSym d := by
  obtain ⟨q, hq, _⟩ := h.walked
  exact (hq.constants d hd hassigned).2

theorem sym_free (h : LoopInv L K home pass p) {d : SymId} (hd : d ∉ L.assigned) :
    (p.sym d).place = (L.initSym d).place := by
  obtain ⟨q, hq, _⟩ := h.walked
  obtain ⟨hsym, hplace⟩ := hq.free d hd
  rw [hsym, hplace]

/-- `relaxOnce` leaves a state that a walk can start from. -/
theorem relaxed_start (h : LoopInv L K home pass p) :
    let r := (L.relaxSections L.execSections p).1
    (∀ d, L.constant d = true → d ∈ L.assigned → r.sym d = L.initSym d) ∧
      ∀ d ∉ L.assigned, (r.sym d).place = (L.initSym d).place := by
  have hframe := relaxSections_frame (fun _ hs => hs) h.anchored
  constructor
  · intro d hd hassigned
    have hno : ∀ i ∈ L.execSections, ¬ HasStart (p.anchors i) d := by
      rintro i hi ⟨a, ha, hend, rfl⟩
      have := (h.known i hi a ha hend hassigned).2
      rw [hd] at this
      exact absurd this (by simp)
    rw [hframe.sym d hno, h.sym_constant hd hassigned]
  · intro d hd
    rw [hframe.place, h.sym_free hd]

/-- **A turn of the loop keeps it.** -/
theorem turn (h : LoopInv L K home pass p) :
    let u := (L.updateAllocSize (L.relaxSections L.execSections p).1).1
    LoopInv L K home (pass + 1) (L.placeGp (L.assignAddresses u).1) := by
  intro u
  have hframe := relaxSections_frame (fun _ hs => hs) h.anchored
  have hkept := Kept.assignAddresses (L := L) u
  have hstart : L.SameStart u (L.assignAddresses u).1 :=
    sameStart_assignAddresses u h.relaxed_start.1 h.relaxed_start.2
  have hanchors : (L.assignAddresses u).1.anchors = p.anchors := hkept.anchors.trans hframe.anchors
  refine ⟨?_, ?_, ?_, ?_, ?_⟩
  · exact hframe.anchored.congr hkept.anchors hkept.deltas hkept.dropped
  · intro s hs a ha hfree hend
    have hin := relaxSections_inPlace (fun _ hs => hs) h.anchored s (Or.inl hs)
    have hanchors' : (L.placeGp (L.assignAddresses u).1).anchors =
        (L.relaxSections L.execSections p).1.anchors := hkept.anchors
    rw [hanchors'] at ha
    have hsym : (L.placeGp (L.assignAddresses u).1).sym a.sym =
        (L.relaxSections L.execSections p).1.sym a.sym := hkept.sym a.sym hfree
    have hdeltas : (L.placeGp (L.assignAddresses u).1).deltas =
        (L.relaxSections L.execSections p).1.deltas := hkept.deltas
    rw [hsym, hdeltas]
    exact hin a ha hend
  · intro s hs a ha
    have ha' : a ∈ p.anchors s := hanchors ▸ ha
    exact h.known s hs a ha'
  · exact ⟨u, { hstart with }, rfl, rfl, rfl, fun _ _ => rfl⟩
  · exact Or.inr (placeGp_gp _)

/-- Sizes that do not change leave the state. -/
theorem updateAllocSize_quiet {st : State} (h : (L.updateAllocSize st).2 = false) :
    (L.updateAllocSize st).1 = st := by
  have hsize : (L.updateAllocSize st).1.packed = st.packed := by
    funext s
    by_cases hs : s ∈ L.packedSections
    · have := List.any_eq_false.mp h s hs
      rw [decide_eq_true_eq, not_not] at this
      simp only [updateAllocSize, if_pos hs, this]
    · simp only [updateAllocSize, if_neg hs]
  have heq : (L.updateAllocSize st).1 = { st with packed := (L.updateAllocSize st).1.packed } := rfl
  rw [heq, hsize]

/-- **A turn that changes nothing** works on symbols in place and leaves what relaxation sees. -/
theorem exit (h : LoopInv L K home pass p) (hL : L.Settles K)
    (hquiet : (L.relaxSections L.execSections p).2 = false)
    (hsame : (L.assignAddresses (L.relaxSections L.execSections p).1).2 = false) :
    let r := (L.relaxSections L.execSections p).1
    let o := (L.assignAddresses r).1
    SameView p o ∧ o.outSize = p.outSize ∧
      ∀ s ∈ L.execSections, Decided L p s (L.input s).relocs (p.deltas s) 0 (o.types s) := by
  intro r o
  have hframe : SectionsFrame L home L.execSections p r :=
    relaxSections_frame (fun _ hs => hs) h.anchored
  have hkept : L.Kept r o := Kept.assignAddresses r
  obtain ⟨hdeltas, hdropped⟩ := relaxSections_unchanged (fun _ hs => hs) h.anchored hquiet
  have hin := relaxSections_inPlace (fun _ hs => hs) h.anchored
  -- a symbol the script assigns has not changed in the walk
  have hassigned : ∀ d ∈ L.assigned, o.sym d = r.sym d := by
    intro d hd
    have := List.any_eq_false.mp hsame d hd
    rwa [decide_eq_true_eq, not_not] at this
  -- the others are where they were: anchored ones because the deltas are the same
  have hfree : ∀ d ∉ L.assigned, r.sym d = p.sym d := by
    intro d hd
    by_cases hanchor : ∃ i ∈ L.execSections, HasStart (p.anchors i) d
    · obtain ⟨i, hi, a, ha, hend, rfl⟩ := hanchor
      have hpos := h.inPlace i hi a ha hd hend
      have hpos' := hin i (Or.inl hi) a (hframe.anchors ▸ ha) hend
      rw [hdeltas, ← hpos] at hpos'
      have hplace := hframe.place a.sym
      cases hr : r.sym a.sym
      cases hp : p.sym a.sym
      rw [hr, hp] at hpos' hplace
      simp only at hpos' hplace
      rw [hpos', hplace]
    · exact hframe.sym d fun i hi hs => hanchor ⟨i, hi, hs⟩
  have hstart : L.SameStart p r :=
    { dropped := hdropped
      packed := hframe.packed
      addr := fun i _ => congrFun hframe.addr i
      outSize := fun i _ => congrFun hframe.outSize i
      secOff := fun i _ => congrFun hframe.secOff i
      constants := fun d hd hd' => ⟨h.sym_constant hd hd', h.relaxed_start.1 d hd hd'⟩
      free := fun d hd => ⟨hfree d hd, h.sym_free hd⟩ }
  obtain ⟨q, hq, haddr, hsize, hoff, hsyms⟩ := h.walked
  obtain ⟨haddr', hsize', hoff', hsyms'⟩ := assignAddresses_agree hL (hq.trans hstart)
  have hplaces : ∀ s ∈ L.execSections, SectionInPlace L p s := by
    intro s hs a ha hend
    by_cases hd : a.sym ∈ L.assigned
    · have hknown := (h.known s hs a ha hend hd).1
      have hpos := hin s (Or.inl hs) a (hframe.anchors ▸ ha) hend
      rw [hdeltas] at hpos
      rw [hsyms _ hknown, ← hsyms' _ hknown, hassigned _ hd]
      exact hpos
    · exact h.inPlace s hs a ha hd hend
  obtain ⟨hview, hdec⟩ := relaxSections_quiet (fun _ hs => hs) h.anchored hplaces hquiet
  refine ⟨⟨haddr'.trans haddr.symm, hoff'.trans hoff.symm, funext fun d => ?_, ?_⟩,
    hsize'.trans hsize.symm, fun s hs => ?_⟩
  · by_cases hd : d ∈ L.assigned
    · rw [hassigned d hd, ← hview.sym]
    · rw [hkept.sym d hd, hfree d hd]
  · exact hkept.gp.trans hframe.gp
  · rw [hkept.types]
    exact hdec s hs

end LoopInv

/-! ## Runs -/

/-- A state the loop ends with: a turn from `p` that changed nothing led to it. -/
structure QuietTurn (L : Link) (p st : State) : Prop where
  relaxed : (L.relaxSections L.execSections p).2 = false
  symbols : (L.assignAddresses (L.relaxSections L.execSections p).1).2 = false
  result : st = L.placeGp (L.assignAddresses (L.relaxSections L.execSections p).1).1

/-- What a turn does to the state relaxation works on. -/
theorem turn_spec {pass : Nat} {st' : State} {changed changedSym : Bool}
    (h : L.turn pass st = some (st', changed, changedSym)) :
    let x := L.relaxSections L.execSections (L.prepared pass st)
    let u := L.updateAllocSize x.1
    st' = L.placeGp (L.assignAddresses u.1).1 ∧ changed = (x.2 || u.2) ∧
      changedSym = (L.assignAddresses u.1).2 := by
  simp only [Link.turn] at h
  split at h
  · exact absurd h (by simp)
  · simp only [Option.some.injEq, Prod.mk.injEq] at h
    obtain ⟨rfl, rfl, rfl⟩ := h
    exact ⟨rfl, rfl, rfl⟩

/-- **The loop ends with a quiet turn**, and its invariant held before that turn. -/
theorem finalizeLoop_quiet (hL : L.ScriptSettles K) {fuel pass assignPasses : Nat} {st' : State}
    (hinv : LoopInv L K home pass (L.prepared pass st))
    (h : L.finalizeLoop fuel pass assignPasses st = some (.ok st')) :
    ∃ pass' p, LoopInv L K home pass' p ∧ L.QuietTurn p st' := by
  induction fuel generalizing pass assignPasses st with
  | zero => exact absurd h (by simp [finalizeLoop])
  | succ fuel ih =>
    rw [finalizeLoop] at h
    cases hturn : L.turn pass st with
    | none =>
      rw [hturn] at h
      exact absurd h (by simp)
    | some t =>
      obtain ⟨st₁, changed, changedSym⟩ := t
      rw [hturn] at h
      simp only at h
      obtain ⟨hst, hchanged, hsym⟩ := turn_spec hturn
      have hnext : LoopInv L K home (pass + 1) (L.prepared (pass + 1) st₁) := by
        have hprep : L.prepared (pass + 1) st₁ = st₁ := if_neg (Nat.succ_ne_zero pass)
        rw [hprep, hst]
        exact hinv.turn
      split at h
      · exact ih hnext h
      · rename_i hquiet
        rw [hchanged, Bool.not_eq_true, Bool.or_eq_false_iff] at hquiet
        obtain ⟨hrelaxed, hresized⟩ := hquiet
        have hpacked := LoopInv.updateAllocSize_quiet hresized
        rw [hpacked] at hst hsym
        split at h
        · rename_i hnosym
          rw [hsym, Bool.not_eq_true'] at hnosym
          have hres : st₁ = st' := by simpa using h
          exact ⟨pass, _, hinv, hrelaxed, hnosym, hres ▸ hst⟩
        · split at h
          · rw [hL.strict] at h
            exact absurd h (by simp)
          · exact ih hnext h

/-- In reach of `gp` in 64 bits is in range of it at the width of an address. -/
theorem gpDistance_of_reach {gp : Value} {r : Relocation}
    (h : isInt 12 (L.symVA st r.sym r.addend - L.valueVA st gp) = true) :
    -2048 ≤ L.gpDistance st gp r ∧ L.gpDistance st gp r ≤ 2047 := by
  rw [isInt_iff] at h
  unfold gpDistance
  generalize L.symVA st r.sym r.addend - L.valueVA st gp = z at h ⊢
  rcases L.bits_cases with hb | hb <;> rw [hb] <;> simp only [Int.bmod_def] at h ⊢ <;> omega

/-- The range check of `relocate`. -/
theorem gpDistance_of_check {gp : Value} {r : Relocation}
    (h : isInt 12 (L.gpDistance st gp r) = true) :
    -2048 ≤ L.gpDistance st gp r ∧ L.gpDistance st gp r ≤ 2047 := by
  rw [isInt_iff] at h
  unfold gpDistance at h ⊢
  generalize L.symVA st r.sym r.addend - L.valueVA st gp = z at h ⊢
  rcases L.bits_cases with hb | hb <;> rw [hb] at h ⊢ <;> simp only [Int.bmod_def] at h ⊢ <;>
    omega

/-- A `lui` deleted for `gp` has its target in reach of the `gp` a quiet turn ends with. -/
theorem QuietTurn.inReach {pass : Nat} {p : State} (h : L.QuietTurn p st)
    (hinv : LoopInv L K home pass p) (hL : L.Settles K) {s : SecId} (hs : s ∈ L.execSections)
    {x : Relocation × RelType} (hx : x ∈ (L.input s).relocs.zip (st.types s))
    (hm : gpMarked x.1 x.2) (hhi : x.1.type = .hi20) : L.inReach st x.1 := by
  obtain ⟨hview, hsize, hdec⟩ := hinv.exit hL h.relaxed h.symbols
  have hdec := hdec s hs
  have htypes : st.types s =
      (L.assignAddresses (L.relaxSections L.execSections p).1).1.types s := by
    rw [h.result]
    rfl
  rw [← htypes] at hdec
  obtain ⟨i, hi, rfl⟩ := List.mem_iff_getElem.mp hx
  rw [List.getElem_zip] at hm hhi ⊢
  obtain ⟨hr, ht⟩ : i < (L.input s).relocs.length ∧ i < (st.types s).length := by
    rwa [List.length_zip, Nat.lt_min] at hi
  rcases hinv.gp with ⟨_, hzero⟩ | hgp
  · exact absurd hhi ((hdec.gp hr ht hm).2 (hzero s hs))
  · have hfinal : SameView p st := by
      have hplace : (L.assignAddresses (L.relaxSections L.execSections p).1).1.gp.map
          (fun _ => L.calculateRISCVGP
            (L.assignAddresses (L.relaxSections L.execSections p).1).1) = p.gp := by
        rw [calculateRISCVGP_congr hview hsize, hview.gp, ← hgp]
      rw [h.result]
      exact ⟨hview.addr, hview.secOff, hview.sym, hplace⟩
    exact ((hdec.congr hfinal).gp hr ht hm).1

/-- A section of `size` bytes with the given relocations. -/
def plainInput (relocs : List Relocation) (size : Nat) (parent : OutId) : InputSection :=
  ⟨relocs, fun _ => 0x537, size, 4, parent, true⟩

/-- A section of output that holds input section `s`, at `addrExpr` if given. -/
def plainOutput (name : OutName) (exec : Bool) (addrExpr : Option Expr) (s : SecId) :
    OutputSection :=
  ⟨name, true, exec, false, false, 4, addrExpr, false, none, none, [.inputs [s]]⟩

/-- An RV32 link of `.text`, `.sdata` and `.bss`: the code has one `lui` of the high part of `.bss`,
which may relax. -/
def luiLink (bssAddr : Expr) (assignments : List Command) (initSym : SymId → Value) : Link where
  input
    | 0 => plainInput [⟨.hi20, 0, 0, 0, false⟩, ⟨.relax, 0, 0, 0, false⟩] 8 0
    | 1 => plainInput [] 16 1
    | _ => plainInput [] 4 2
  output
    | 0 => plainOutput (.other ".text") true none 0
    | 1 => plainOutput .sdata false (some (.num 0x20000)) 1
    | _ => plainOutput .bss false (some bssAddr) 2
  script := [.section 0, .section 1, .section 2] ++ assignments
  hasSectionsCommand := true
  startDot := 0x10000
  origin _ := .num 0
  inputSections := [0, 1, 2]
  symbols := [0]
  initSym := initSym
  initSize _ := 4
  initGp := some ⟨.output 1, 0x800⟩
  initPacked _ := 0
  plt _ := none
  tls _ := false
  tlsFirst := 0
  packedSections := []
  packedSize _ _ := 0
  rvc := false
  is64 := false
  noinhibitExec := false

/-- `.bss` stands at a number. -/
def fixedLink : Link := luiLink (.num 0x20100) [] fun _ => ⟨.input 2, 0⟩

theorem fixedLink_settles : fixedLink.ScriptSettles ⟨[], [2, 1, 0], [2, 1, 0]⟩ where
  settles := ⟨fun _ => rfl, rfl⟩
  strict := rfl
  unanchored _ hd := absurd hd List.not_mem_nil

/-- `.bss` stands at `0x20100 + b1`, and after it come `b1 = b2; b2 = b3; b3 = 0x10000`. -/
def lateSymbolLink : Link :=
  luiLink (.addSym 0x20100 1) [.assign 1 (.sym 2), .assign 2 (.sym 3), .assign 3 (.num 0x10000)]
    fun d => match d with
      | 0 => ⟨.input 2, 0⟩
      | 3 => ⟨.absolute, 0x10000⟩
      | _ => ⟨.absolute, 0⟩

end RvLlvm.Lld.Link
