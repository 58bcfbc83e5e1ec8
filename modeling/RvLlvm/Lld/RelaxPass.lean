import RvLlvm.Lld.Relax

/-!
# One relaxation pass

What a pass of `relaxOnce` leaves, and what follows when it reports no change.

* `deltaAt`: the bytes given up before an offset, read off the deltas of a section's relocations.
* `SectionInPlace`: the symbols of a section stand where their anchors and `deltaAt` put them. A
  pass establishes it (`relaxSections_inPlace`).
* `relaxLoop_moves`: the walk over a section moves every anchor once, by the bytes given up before
  its offset.
* `Decided`: the deltas and types recorded for a section are the decisions taken in one state.
* `relaxSections_quiet`: a pass over symbols in place that changes no delta moves nothing, and what
  it records was decided in that state.
-/

namespace RvLlvm.Lld.Link

open RvLlvm.Support

variable {L : Link}

/-! ## Bytes given up before an offset -/

/-- The bytes given up before offset `o`: the delta of the last relocation before it, `acc` if
there is none. -/
def deltaAt : List Relocation → List Nat → Nat → Int → Nat
  | r :: rest, d :: ds, acc, o => if o ≤ r.offset then acc else deltaAt rest ds d o
  | _, _, acc, _ => acc

/-- The anchors come in the order of their offsets. -/
def AnchorsSorted (as : List Anchor) : Prop := as.Pairwise fun a b => a.offset ≤ b.offset

/-- Start anchor `a` is in place: its symbol stands `δ` bytes before the original offset. -/
def InPlace (st : State) (a : Anchor) (δ : Nat) : Prop :=
  a.atEnd = false → (st.sym a.sym).offset = a.offset - δ

/-- `types` and `deltas` record what was decided for `rs` in state `st`, `acc` bytes being gone
before them. -/
inductive Decided (L : Link) (st : State) (s : SecId) :
    List Relocation → List Nat → Nat → List RelType → Prop
  | nil (acc : Nat) : Decided L st s [] [] acc []
  | cons {r rest ds acc ts} (loc : Int) :
      Decided L st s rest ds (acc + (L.relaxReloc st s loc r rest).remove) ts →
      Decided L st s (r :: rest) ((acc + (L.relaxReloc st s loc r rest).remove) :: ds) acc
        ((L.relaxReloc st s loc r rest).type :: ts)

attribute [local grind =] relaxReloc relaxLoop relaxStep initSymbolAnchors moveAnchor

variable {ds : List Nat} {rs : List Relocation} {as : List Anchor}

theorem Decided.congr {st st' : State} (h : SameView st st') {s : SecId} {acc : Nat}
    {ts : List RelType} (hd : Decided L st s rs ds acc ts) : Decided L st' s rs ds acc ts := by
  induction hd with
  | nil acc => exact .nil acc
  | cons loc _ ih =>
    rw [← h.relaxReloc] at ih ⊢
    exact .cons loc ih

/-- **A recorded gp-relative relocation was in reach**, and with no bytes given up no `lui` was
deleted. -/
theorem Decided.gp {st : State} {s : SecId} {acc : Nat} {ts : List RelType}
    (hd : Decided L st s rs ds acc ts) {i : Nat} (hr : i < rs.length) (ht : i < ts.length)
    (hm : gpMarked rs[i] ts[i]) :
    L.inReach st rs[i] ∧ ((∀ d ∈ ds, d = acc) → rs[i].type ≠ .hi20) := by
  induction hd generalizing i with
  | nil acc => exact absurd hr (Nat.not_lt_zero i)
  | @cons r rest ds acc ts loc _ ih =>
    cases i with
    | zero =>
      rw [List.getElem_cons_zero] at hm ⊢
      obtain ⟨hreach, hremove⟩ := relaxReloc_gp hm
      refine ⟨hreach, fun hall hhi => ?_⟩
      have := hall _ List.mem_cons_self
      rw [hremove hhi] at this
      omega
    | succ i =>
      obtain ⟨hreach, hkeep⟩ := ih (by simpa using hr) (by simpa using ht) hm
      refine ⟨hreach, fun hall => hkeep fun d hd => ?_⟩
      rw [hall d (List.mem_cons_of_mem _ hd), hall _ List.mem_cons_self]

/-! ## Moving anchors -/

/-- The start anchors of `d` in `as`, if any, are all at offset `o`. -/
def StartsAt (as : List Anchor) (d : SymId) (o : Int) : Prop :=
  ∀ a ∈ as, a.atEnd = false → a.sym = d → a.offset = o

/-- `d` has a start anchor in `as`. -/
def HasStart (as : List Anchor) (d : SymId) : Prop := ∃ a ∈ as, a.atEnd = false ∧ a.sym = d

theorem moveAnchor_sym_of_ne {δ : Nat} {st : State} {a : Anchor} {d : SymId}
    (h : a.atEnd = false → a.sym ≠ d) : (moveAnchor δ st a).sym d = st.sym d := by
  unfold moveAnchor
  cases ha : a.atEnd with
  | true => rfl
  | false => exact Function.update_of_ne (fun heq => h ha heq.symm) _ _

theorem moveAnchor_sym_self (δ : Nat) (st : State) {a : Anchor} (h : a.atEnd = false) :
    (moveAnchor δ st a).sym a.sym = { st.sym a.sym with offset := a.offset - δ } := by
  unfold moveAnchor
  rw [h]
  exact Function.update_self _ _ _

/-- Every anchor moved by the bytes `δ` says are gone before its offset. -/
def moveAll (δ : Int → Nat) (as : List Anchor) (st : State) : State :=
  as.foldl (fun st a => moveAnchor (δ a.offset) st a) st

theorem moveAll_append (δ : Int → Nat) (as bs : List Anchor) (st : State) :
    moveAll δ (as ++ bs) st = moveAll δ bs (moveAll δ as st) :=
  List.foldl_append

theorem moveAll_congr {δ δ' : Int → Nat} :
    ∀ {as : List Anchor} {st : State}, (∀ a ∈ as, δ a.offset = δ' a.offset) →
      moveAll δ as st = moveAll δ' as st
  | [], _, _ => rfl
  | a :: as, st, h => by
    have hrest : moveAll δ as (moveAnchor (δ a.offset) st a) =
        moveAll δ' as (moveAnchor (δ a.offset) st a) :=
      moveAll_congr fun b hb => h b (List.mem_cons_of_mem a hb)
    unfold moveAll at hrest ⊢
    rw [List.foldl_cons, List.foldl_cons, hrest, h a List.mem_cons_self]

/-- The symbols after anchors were moved: one with its start anchors at `o` has moved, and one
without a start anchor has not. -/
theorem moveAll_sym (δ : Int → Nat) {d : SymId} {o : Int} :
    ∀ {as : List Anchor} (st : State), StartsAt as d o →
      (HasStart as d → (moveAll δ as st).sym d = { st.sym d with offset := o - δ o }) ∧
      (¬ HasStart as d → (moveAll δ as st).sym d = st.sym d)
  | [], st, _ => ⟨fun ⟨a, ha, _⟩ => absurd ha List.not_mem_nil, fun _ => rfl⟩
  | a :: as, st, hat => by
    have hrest : StartsAt as d o := fun b hb => hat b (List.mem_cons_of_mem a hb)
    obtain ⟨hpos, hneg⟩ := moveAll_sym δ (moveAnchor (δ a.offset) st a) hrest
    have hcons : moveAll δ (a :: as) st = moveAll δ as (moveAnchor (δ a.offset) st a) := rfl
    rw [hcons]
    by_cases hmine : a.atEnd = false ∧ a.sym = d
    · obtain ⟨hstart, rfl⟩ := hmine
      have ho : a.offset = o := hat a List.mem_cons_self hstart rfl
      have hself := moveAnchor_sym_self (δ a.offset) st hstart
      rw [ho] at hself hpos hneg ⊢
      refine ⟨fun _ => ?_, fun hno => absurd ⟨a, List.mem_cons_self, hstart, rfl⟩ hno⟩
      by_cases hlater : HasStart as a.sym
      · rw [hpos hlater, hself]
      · rw [hneg hlater, hself]
    · have hne : (moveAnchor (δ a.offset) st a).sym d = st.sym d :=
        moveAnchor_sym_of_ne fun hstart heq => hmine ⟨hstart, heq⟩
      have hiff : HasStart (a :: as) d ↔ HasStart as d := by
        constructor
        · rintro ⟨b, hb, hbs⟩
          rcases List.mem_cons.mp hb with rfl | hb
          · exact absurd hbs hmine
          · exact ⟨b, hb, hbs⟩
        · rintro ⟨b, hb, hbs⟩
          exact ⟨b, List.mem_cons_of_mem a hb, hbs⟩
      rw [hiff, ← hne]
      exact ⟨hpos, hneg⟩

/-- Moving anchors changes symbols and their sizes only. -/
theorem moveAnchors_frame (δ : Nat) :
    ∀ (as : List Anchor) (st : State), ∃ sy sz,
      as.foldl (moveAnchor δ) st = { st with sym := sy, symSize := sz }
  | [], st => ⟨st.sym, st.symSize, rfl⟩
  | a :: as, st => by
    obtain ⟨sy, sz, h⟩ := moveAnchors_frame δ as (moveAnchor δ st a)
    refine ⟨sy, sz, ?_⟩
    rw [List.foldl_cons, h]
    unfold moveAnchor
    split <;> rfl

/-- Anchors that are in place do not move. -/
theorem moveAnchors_inPlace {δ : Nat} :
    ∀ {as : List Anchor} {st : State}, (∀ a ∈ as, InPlace st a δ) →
      (as.foldl (moveAnchor δ) st).sym = st.sym
  | [], _, _ => rfl
  | a :: as, st, h => by
    have hself : (moveAnchor δ st a).sym = st.sym := by
      unfold moveAnchor
      cases ha : a.atEnd with
      | true => rfl
      | false =>
        rw [← h a List.mem_cons_self ha]
        exact Function.update_eq_self _ _
    rw [List.foldl_cons, moveAnchors_inPlace, hself]
    intro b hb hstart
    rw [hself]
    exact h b (List.mem_cons_of_mem a hb) hstart

/-! ## The loop over a section -/

/-- The anchors a relocation at offset `o` passes. -/
def passed (as : List Anchor) (o : Nat) : List Anchor :=
  as.takeWhile fun a => decide (a.offset ≤ (o : Int))

/-- The anchors left after it. -/
def ahead (as : List Anchor) (o : Nat) : List Anchor :=
  as.dropWhile fun a => decide (a.offset ≤ (o : Int))

theorem passed_append_ahead (as : List Anchor) (o : Nat) : passed as o ++ ahead as o = as :=
  List.takeWhile_append_dropWhile

theorem mem_passed {o : Nat} {a : Anchor} (h : a ∈ passed as o) : a ∈ as ∧ a.offset ≤ o :=
  ⟨(List.takeWhile_prefix _).subset h, by
    simpa using List.all_eq_true.mp List.all_takeWhile a h⟩

theorem mem_ahead {o : Nat} {a : Anchor} (hs : AnchorsSorted as) (h : a ∈ ahead as o) :
    a ∈ as ∧ (o : Int) < a.offset := by
  refine ⟨(List.dropWhile_suffix _).subset h, ?_⟩
  unfold ahead at h
  induction as with
  | nil => exact absurd h List.not_mem_nil
  | cons b as ih =>
    obtain ⟨hb, hs'⟩ := List.pairwise_cons.mp hs
    rw [List.dropWhile_cons] at h
    split at h
    · exact ih hs' h
    · rename_i hlt
      rw [decide_eq_true_eq, not_le] at hlt
      rcases List.mem_cons.mp h with rfl | h
      · exact hlt
      · exact hlt.trans_le (hb a h)

theorem ahead_sorted (hs : AnchorsSorted as) (o : Nat) : AnchorsSorted (ahead as o) :=
  hs.sublist (List.dropWhile_sublist _)

/-- The loop changes symbols and their sizes only. -/
theorem relaxLoop_frame {s : SecId} {secAddr : Int} :
    ∀ (rs : List Relocation) (olds : List Nat) (x : RelaxState), ∃ sy sz,
      (L.relaxLoop s secAddr rs olds x).st = { x.st with sym := sy, symSize := sz }
  | [], _, x => ⟨x.st.sym, x.st.symSize, rfl⟩
  | r :: rest, olds, x => by
    rw [relaxLoop]
    obtain ⟨sy, sz, h⟩ := relaxLoop_frame rest olds.tail
      (L.relaxStep s secAddr r rest (olds.headD 0) x)
    obtain ⟨sy', sz', h'⟩ := moveAnchors_frame x.delta (passed x.anchors r.offset) x.st
    have hstep : (L.relaxStep s secAddr r rest (olds.headD 0) x).st =
        { x.st with sym := sy', symSize := sz' } := h'
    exact ⟨sy, sz, by rw [h, hstep]⟩

/-- The loop records one delta for each relocation, and no change only when they are the old
ones. -/
theorem relaxLoop_deltas (L : Link) (s : SecId) (secAddr : Int) :
    ∀ (rs : List Relocation) (olds : List Nat) (x : RelaxState), olds.length = rs.length →
      let y := L.relaxLoop s secAddr rs olds x
      ∃ ds, ds.length = rs.length ∧ y.deltas = x.deltas ++ ds ∧ y.delta = ds.getLastD x.delta ∧
        (y.changed = false → x.changed = false ∧ ds = olds)
  | [], olds, x, hlen => by
    obtain rfl := List.length_eq_zero_iff.mp hlen
    exact ⟨[], rfl, by simp [relaxLoop], rfl, fun h => ⟨h, rfl⟩⟩
  | r :: rest, [], x, hlen => absurd hlen (by simp)
  | r :: rest, old :: olds, x, hlen => by
    obtain ⟨ds, hds, hdeltas, hdelta, hsame⟩ :=
      relaxLoop_deltas L s secAddr rest olds (L.relaxStep s secAddr r rest old x)
        (by simpa using hlen)
    refine ⟨(L.relaxStep s secAddr r rest old x).delta :: ds,
      by rw [List.length_cons, List.length_cons, hds], ?_, ?_, fun h => ?_⟩
    · simp only [relaxLoop, List.tail_cons, List.headD_cons, hdeltas]
      exact List.append_assoc _ _ _
    · simp only [relaxLoop, List.tail_cons, List.headD_cons, hdelta]
      cases ds <;> rfl
    · obtain ⟨hx, hds⟩ := hsame h
      simp only [relaxStep, Bool.or_eq_false_iff, bne_eq_false_iff_eq] at hx
      exact ⟨hx.1, by rw [← hx.2, hds]; rfl⟩

/-- The deltas of a relocation and those behind it. -/
theorem relaxLoop_deltas_cons {s : SecId} {secAddr : Int} {r : Relocation} {rest : List Relocation}
    {old : Nat} {olds : List Nat} {x : RelaxState} (hlen : olds.length = rest.length)
    (hds : (L.relaxLoop s secAddr (r :: rest) (old :: olds) x).deltas = x.deltas ++ ds) :
    let x' := L.relaxStep s secAddr r rest old x
    ∃ ds', ds = x'.delta :: ds' ∧
      (L.relaxLoop s secAddr rest olds x').deltas = x'.deltas ++ ds' := by
  obtain ⟨ds', -, hds', -, -⟩ :=
    relaxLoop_deltas L s secAddr rest olds (L.relaxStep s secAddr r rest old x) hlen
  refine ⟨ds', ?_, hds'⟩
  have heq : x.deltas ++ ds = x.deltas ++ ((L.relaxStep s secAddr r rest old x).delta :: ds') := by
    rw [← hds, relaxLoop, List.tail_cons, List.headD_cons, hds']
    exact List.append_assoc _ _ _
  exact List.append_cancel_left heq

/-- **The walk over a section moves every anchor once**, by the bytes given up before its offset. -/
theorem relaxLoop_moves {s : SecId} {secAddr : Int} :
    ∀ (rs : List Relocation) (olds : List Nat) (x : RelaxState), olds.length = rs.length →
      AnchorsSorted x.anchors →
      let y := L.relaxLoop s secAddr rs olds x
      ∀ ds, y.deltas = x.deltas ++ ds →
        y.anchors.foldl (moveAnchor y.delta) y.st = moveAll (deltaAt rs ds x.delta) x.anchors x.st
  | [], olds, x, _, _ => fun ds _ => by
    have hnil : deltaAt [] ds x.delta = fun _ => x.delta := by
      funext o
      cases ds <;> rfl
    rw [hnil]
    rfl
  | r :: rest, [], x, hlen, _ => absurd hlen (by simp)
  | r :: rest, old :: olds, x, hlen, hsorted => fun ds hds => by
    have hlen' : olds.length = rest.length := by simpa using hlen
    obtain ⟨ds', rfl, hds'⟩ := relaxLoop_deltas_cons hlen' hds
    have hrest := relaxLoop_moves rest olds (L.relaxStep s secAddr r rest old x) hlen'
      (ahead_sorted hsorted r.offset) ds' hds'
    have hpassed : moveAll
        (deltaAt (r :: rest) ((L.relaxStep s secAddr r rest old x).delta :: ds') x.delta)
        (passed x.anchors r.offset) x.st =
          moveAll (fun _ => x.delta) (passed x.anchors r.offset) x.st :=
      moveAll_congr fun a ha => if_pos (mem_passed ha).2
    have hstep : (L.relaxStep s secAddr r rest old x).st =
        moveAll (fun _ => x.delta) (passed x.anchors r.offset) x.st := rfl
    simp only [relaxLoop, List.tail_cons, List.headD_cons]
    conv_rhs => rw [← passed_append_ahead x.anchors r.offset]
    rw [hrest, moveAll_append, hpassed, hstep]
    exact moveAll_congr fun a ha => (if_neg (not_le.mpr (mem_ahead hsorted ha).2)).symm

/-- **Where the loop puts a symbol**: the anchors left at the end moved as well, a symbol with its
start anchors at `o` stands `deltaAt` bytes before, and a symbol without one where it was. -/
theorem relaxLoop_sym {s : SecId} {secAddr : Int} {d : SymId} {o : Int} {olds : List Nat}
    {x : RelaxState} (hlen : olds.length = rs.length) (hsorted : AnchorsSorted x.anchors)
    (hat : StartsAt x.anchors d o)
    (hds : (L.relaxLoop s secAddr rs olds x).deltas = x.deltas ++ ds) :
    let y := L.relaxLoop s secAddr rs olds x
    (HasStart x.anchors d → (y.anchors.foldl (moveAnchor y.delta) y.st).sym d =
        { x.st.sym d with offset := o - deltaAt rs ds x.delta o }) ∧
      (¬ HasStart x.anchors d →
        (y.anchors.foldl (moveAnchor y.delta) y.st).sym d = x.st.sym d) := by
  intro y
  rw [relaxLoop_moves rs olds x hlen hsorted ds hds]
  exact moveAll_sym (deltaAt rs ds x.delta) x.st hat

theorem moveAnchors_view {δ : Nat} {st st' : State} (hv : SameView st st')
    (h : ∀ a ∈ as, InPlace st a δ) : SameView st (as.foldl (moveAnchor δ) st') := by
  have hsym : (as.foldl (moveAnchor δ) st').sym = st'.sym := moveAnchors_inPlace fun a ha => by
    unfold InPlace
    rw [hv.sym]
    exact h a ha
  obtain ⟨sy, sz, hframe⟩ := moveAnchors_frame δ as st'
  rw [hframe] at hsym ⊢
  exact ⟨hv.addr, hv.secOff, hsym.trans hv.sym, hv.gp⟩

/-- **A loop that changes no delta** and starts with every symbol in place moves nothing, and the
types it records were decided in the state it started from. -/
theorem relaxLoop_quiet {st : State} (s : SecId) (secAddr : Int) :
    ∀ (rs : List Relocation) (olds : List Nat) (x : RelaxState), olds.length = rs.length →
      AnchorsSorted x.anchors → SameView st x.st →
      (∀ a ∈ x.anchors, InPlace st a (deltaAt rs olds x.delta a.offset)) →
      let y := L.relaxLoop s secAddr rs olds x
      y.changed = false →
        SameView st (y.anchors.foldl (moveAnchor y.delta) y.st) ∧
        ∃ ts, y.types = x.types ++ ts ∧ Decided L st s rs olds x.delta ts
  | [], olds, x, hlen, _, hv, hplace => fun _ => by
    obtain rfl := List.length_eq_zero_iff.mp hlen
    exact ⟨moveAnchors_view hv hplace, [], (List.append_nil _).symm, .nil _⟩
  | r :: rest, [], x, hlen, _, _, _ => absurd hlen (by simp)
  | r :: rest, old :: olds, x, hlen, hsorted, hv, hplace => fun hquiet => by
    have hlen' : olds.length = rest.length := by simpa using hlen
    rw [relaxLoop, List.tail_cons, List.headD_cons] at hquiet ⊢
    obtain ⟨_, _, _, _, hsame⟩ :=
      relaxLoop_deltas L s secAddr rest olds (L.relaxStep s secAddr r rest old x) hlen'
    have hcur := (hsame hquiet).1
    simp only [relaxStep, Bool.or_eq_false_iff, bne_eq_false_iff_eq] at hcur
    have hold := hcur.2
    rw [hv.relaxReloc] at hold
    have hdelta : (L.relaxStep s secAddr r rest old x).delta = old := hcur.2
    have hview : SameView st (L.relaxStep s secAddr r rest old x).st := by
      refine moveAnchors_view hv fun a ha => ?_
      obtain ⟨hmem, hle⟩ := mem_passed ha
      have := hplace a hmem
      rwa [deltaAt, if_pos hle] at this
    have hplace' : ∀ a ∈ (L.relaxStep s secAddr r rest old x).anchors,
        InPlace st a (deltaAt rest olds (L.relaxStep s secAddr r rest old x).delta a.offset) := by
      intro a ha
      obtain ⟨hmem, hlt⟩ := mem_ahead hsorted ha
      have := hplace a hmem
      rwa [deltaAt, if_neg (not_le.mpr hlt), ← hdelta] at this
    obtain ⟨hfinal, ts, hts, hdec⟩ := relaxLoop_quiet s secAddr rest olds
      (L.relaxStep s secAddr r rest old x) hlen' (ahead_sorted hsorted r.offset) hview hplace'
      hquiet
    refine ⟨hfinal, (L.relaxReloc st s (secAddr + r.offset - x.delta) r rest).type :: ts, ?_, ?_⟩
    · rw [hts]
      simp only [relaxStep, hv.relaxReloc, List.append_assoc, List.singleton_append]
    · rw [hdelta, ← hold] at hdec
      rw [← hold]
      exact .cons _ hdec

/-! ## One section -/

/-- The locals of `relax` after its loop. -/
def relaxEnd (L : Link) (st : State) (s : SecId) : RelaxState :=
  L.relaxLoop s (L.secVA st s) (L.input s).relocs (st.deltas s)
    ⟨st, 0, st.anchors s, [], [], [], false⟩

theorem relax_eq (st : State) (s : SecId) :
    let x := L.relaxEnd st s
    let st' := x.anchors.foldl (moveAnchor x.delta) x.st
    L.relax st s =
      ({ st' with
          deltas := Function.update st'.deltas s x.deltas
          types := Function.update st'.types s x.types
          writes := Function.update st'.writes s x.writes
          dropped := Function.update st'.dropped s x.delta }, x.changed) := rfl

/-- What `relax` of section `s` leaves alone. -/
structure RelaxFrame (s : SecId) (st st' : State) : Prop where
  addr : st'.addr = st.addr
  outSize : st'.outSize = st.outSize
  secOff : st'.secOff = st.secOff
  anchors : st'.anchors = st.anchors
  packed : st'.packed = st.packed
  gp : st'.gp = st.gp
  deltas : ∀ i ≠ s, st'.deltas i = st.deltas i
  types : ∀ i ≠ s, st'.types i = st.types i
  dropped : ∀ i ≠ s, st'.dropped i = st.dropped i

theorem relax_frame (st : State) (s : SecId) : RelaxFrame s st (L.relax st s).1 := by
  obtain ⟨sy, sz, hloop⟩ := relaxLoop_frame (L := L) (s := s) (L.input s).relocs (st.deltas s)
    ⟨st, 0, st.anchors s, [], [], [], false⟩
  obtain ⟨sy', sz', hmove⟩ := moveAnchors_frame (L.relaxEnd st s).delta (L.relaxEnd st s).anchors
    (L.relaxEnd st s).st
  rw [relax_eq, hmove, relaxEnd, hloop]
  exact
    { addr := rfl
      outSize := rfl
      secOff := rfl
      anchors := rfl
      packed := rfl
      gp := rfl
      deltas := fun i hi => Function.update_of_ne hi _ _
      types := fun i hi => Function.update_of_ne hi _ _
      dropped := fun i hi => Function.update_of_ne hi _ _ }

/-- The data of relaxation fit the sections: a delta for each relocation, sorted anchors, one home
for each symbol, and the bytes dropped are those of the last delta. -/
structure Anchored (L : Link) (st : State) (home : SymId → SecId × Int) : Prop where
  lengths : ∀ s ∈ L.execSections, (st.deltas s).length = (L.input s).relocs.length
  sorted : ∀ s, AnchorsSorted (st.anchors s)
  homes : ∀ s, ∀ a ∈ st.anchors s, a.atEnd = false → home a.sym = (s, a.offset)
  dropped : ∀ s ∈ L.execSections, st.dropped s = (st.deltas s).getLastD 0

variable {st : State} {home : SymId → SecId × Int} {s : SecId}

theorem Anchored.startsAt (h : Anchored L st home) (s : SecId) (d : SymId) :
    StartsAt (st.anchors s) d (home d).2 := by
  rintro a ha hstart rfl
  rw [h.homes s a ha hstart]

/-- A symbol has its start anchors in one section. -/
theorem Anchored.home_eq (h : Anchored L st home) {d : SymId} (hd : HasStart (st.anchors s) d) :
    (home d).1 = s := by
  obtain ⟨a, ha, hstart, rfl⟩ := hd
  rw [h.homes s a ha hstart]

theorem relax_deltas (h : Anchored L st home) (hs : s ∈ L.execSections) :
    let st' := (L.relax st s).1
    (st'.deltas s).length = (L.input s).relocs.length ∧
      st'.dropped s = (st'.deltas s).getLastD 0 ∧
      ((L.relax st s).2 = false → st'.deltas s = st.deltas s) := by
  obtain ⟨ds, hlen, hdeltas, hdelta, hsame⟩ := relaxLoop_deltas L s (L.secVA st s)
    (L.input s).relocs (st.deltas s) ⟨st, 0, st.anchors s, [], [], [], false⟩ (h.lengths s hs)
  have hd : (L.relaxEnd st s).deltas = ds := hdeltas
  simp only [relax_eq, Function.update_self, hd]
  exact ⟨hlen, hdelta, fun hquiet => (hsame hquiet).2⟩

/-- **Where `relax` puts a symbol.** -/
theorem relax_sym (h : Anchored L st home) (hs : s ∈ L.execSections) (d : SymId) :
    let st' := (L.relax st s).1
    (HasStart (st.anchors s) d → st'.sym d = { st.sym d with
      offset := (home d).2 - deltaAt (L.input s).relocs (st'.deltas s) 0 (home d).2 }) ∧
      (¬ HasStart (st.anchors s) d → st'.sym d = st.sym d) := by
  obtain ⟨ds, _, hdeltas, _, _⟩ := relaxLoop_deltas L s (L.secVA st s)
    (L.input s).relocs (st.deltas s) ⟨st, 0, st.anchors s, [], [], [], false⟩ (h.lengths s hs)
  have hd : (L.relaxEnd st s).deltas = ds := hdeltas
  simp only [relax_eq, Function.update_self, hd]
  exact relaxLoop_sym (x := ⟨st, 0, st.anchors s, [], [], [], false⟩) (h.lengths s hs) (h.sorted s)
    (h.startsAt s d) hdeltas

theorem relax_place (h : Anchored L st home) (hs : s ∈ L.execSections) (d : SymId) :
    ((L.relax st s).1.sym d).place = (st.sym d).place := by
  obtain ⟨hpos, hneg⟩ := relax_sym h hs d
  by_cases hd : HasStart (st.anchors s) d
  · rw [hpos hd]
  · rw [hneg hd]

theorem relax_anchored (h : Anchored L st home) (hs : s ∈ L.execSections) :
    Anchored L (L.relax st s).1 home := by
  have hframe := relax_frame (L := L) st s
  obtain ⟨hlen, hdropped, _⟩ := relax_deltas h hs
  refine ⟨fun i hi => ?_, fun i => ?_, fun i a ha => ?_, fun i hi => ?_⟩
  · by_cases his : i = s
    · rw [his]
      exact hlen
    · rw [hframe.deltas i his]
      exact h.lengths i hi
  · rw [hframe.anchors]
    exact h.sorted i
  · rw [hframe.anchors] at ha
    exact h.homes i a ha
  · by_cases his : i = s
    · rw [his]
      exact hdropped
    · rw [hframe.deltas i his, hframe.dropped i his]
      exact h.dropped i hi

/-- The symbols of section `s` stand where the section's deltas put them. -/
def SectionInPlace (L : Link) (st : State) (s : SecId) : Prop :=
  ∀ a ∈ st.anchors s, InPlace st a (deltaAt (L.input s).relocs (st.deltas s) 0 a.offset)

theorem relax_inPlace_self (h : Anchored L st home) (hs : s ∈ L.execSections) :
    SectionInPlace L (L.relax st s).1 s := by
  intro a ha hstart
  rw [(relax_frame st s).anchors] at ha
  have hhome := h.homes s a ha hstart
  rw [((relax_sym h hs a.sym).1 ⟨a, ha, hstart, rfl⟩), hhome]

theorem relax_inPlace_other (h : Anchored L st home) (hs : s ∈ L.execSections) {i : SecId}
    (hi : SectionInPlace L st i) : SectionInPlace L (L.relax st s).1 i := by
  by_cases his : i = s
  · rw [his]
    exact relax_inPlace_self h hs
  · intro a ha hstart
    have hframe := relax_frame (L := L) st s
    rw [hframe.anchors] at ha
    have hno : ¬ HasStart (st.anchors s) a.sym := fun hd => by
      have := h.home_eq hd
      rw [h.homes i a ha hstart] at this
      exact his this
    rw [(relax_sym h hs a.sym).2 hno, hframe.deltas i his]
    exact hi a ha hstart

/-- A section whose symbols are in place and whose deltas stay does not change the view. -/
theorem relax_quiet (h : Anchored L st home) (hs : s ∈ L.execSections)
    (hplace : SectionInPlace L st s) (hquiet : (L.relax st s).2 = false) :
    SameView st (L.relax st s).1 ∧
      Decided L st s (L.input s).relocs (st.deltas s) 0 ((L.relax st s).1.types s) := by
  obtain ⟨hview, ts, hts, hdec⟩ := relaxLoop_quiet s (L.secVA st s) (L.input s).relocs
    (st.deltas s) ⟨st, 0, st.anchors s, [], [], [], false⟩ (h.lengths s hs) (h.sorted s)
    (SameView.refl st) hplace hquiet
  have htypes : (L.relax st s).1.types s = ts := by
    simp only [relax_eq, Function.update_self]
    exact hts
  rw [htypes]
  exact ⟨⟨hview.addr, hview.secOff, hview.sym, hview.gp⟩, hdec⟩

theorem relax_unchanged (h : Anchored L st home) (hs : s ∈ L.execSections)
    (hquiet : (L.relax st s).2 = false) :
    (L.relax st s).1.deltas = st.deltas ∧ (L.relax st s).1.dropped = st.dropped := by
  have hframe := relax_frame (L := L) st s
  obtain ⟨_, hdropped, hdeltas⟩ := relax_deltas h hs
  refine ⟨funext fun i => ?_, funext fun i => ?_⟩
  · by_cases his : i = s
    · rw [his]
      exact hdeltas hquiet
    · exact hframe.deltas i his
  · by_cases his : i = s
    · rw [his, hdropped, hdeltas hquiet, h.dropped s hs]
    · exact hframe.dropped i his

/-! ## All executable sections -/

/-- What a run of `relax` over the sections `ss` leaves. -/
structure SectionsFrame (L : Link) (home : SymId → SecId × Int) (ss : List SecId)
    (st st' : State) : Prop where
  addr : st'.addr = st.addr
  outSize : st'.outSize = st.outSize
  secOff : st'.secOff = st.secOff
  anchors : st'.anchors = st.anchors
  packed : st'.packed = st.packed
  gp : st'.gp = st.gp
  types : ∀ i ∉ ss, st'.types i = st.types i
  place : ∀ d, (st'.sym d).place = (st.sym d).place
  sym : ∀ d, (∀ i ∈ ss, ¬ HasStart (st.anchors i) d) → st'.sym d = st.sym d
  anchored : Anchored L st' home

theorem relaxSections_frame :
    ∀ {ss : List SecId} {st : State}, (∀ s ∈ ss, s ∈ L.execSections) → Anchored L st home →
      SectionsFrame L home ss st (L.relaxSections ss st).1
  | [], st, _, h => ⟨rfl, rfl, rfl, rfl, rfl, rfl, fun _ _ => rfl, fun _ => rfl, fun _ _ => rfl, h⟩
  | s :: rest, st, hss, h => by
    have hs : s ∈ L.execSections := hss s List.mem_cons_self
    have hone := relax_frame (L := L) st s
    have ih : SectionsFrame L home rest (L.relax st s).1
        (L.relaxSections rest (L.relax st s).1).1 :=
      relaxSections_frame (fun i hi => hss i (List.mem_cons_of_mem s hi)) (relax_anchored h hs)
    have heq : (L.relaxSections (s :: rest) st).1 =
        (L.relaxSections rest (L.relax st s).1).1 := rfl
    rw [heq]
    refine
      { addr := ih.addr.trans hone.addr
        outSize := ih.outSize.trans hone.outSize
        secOff := ih.secOff.trans hone.secOff
        anchors := ih.anchors.trans hone.anchors
        packed := ih.packed.trans hone.packed
        gp := ih.gp.trans hone.gp
        types := fun i hi => ?_
        place := fun d => (ih.place d).trans (relax_place h hs d)
        sym := fun d hd => ?_
        anchored := ih.anchored }
    · rw [List.mem_cons, not_or] at hi
      rw [ih.types i hi.2, hone.types i hi.1]
    · rw [ih.sym d fun i hi => by
        rw [hone.anchors]
        exact hd i (List.mem_cons_of_mem s hi)]
      exact (relax_sym h hs d).2 (hd s List.mem_cons_self)

/-- **A run puts the symbols of its sections in place** and keeps those that were. -/
theorem relaxSections_inPlace :
    ∀ {ss : List SecId} {st : State}, (∀ s ∈ ss, s ∈ L.execSections) → Anchored L st home →
      ∀ i, i ∈ ss ∨ SectionInPlace L st i → SectionInPlace L (L.relaxSections ss st).1 i
  | [], _, _, _ => fun i hi => hi.resolve_left List.not_mem_nil
  | s :: rest, st, hss, h => fun i hi => by
    have hs : s ∈ L.execSections := hss s List.mem_cons_self
    refine relaxSections_inPlace (fun j hj => hss j (List.mem_cons_of_mem s hj))
      (relax_anchored h hs) i ?_
    rcases hi with hi | hi
    · rcases List.mem_cons.mp hi with rfl | hi
      · exact Or.inr (relax_inPlace_self h hs)
      · exact Or.inl hi
    · exact Or.inr (relax_inPlace_other h hs hi)

/-- A run that reports no change leaves the deltas and the bytes dropped. -/
theorem relaxSections_unchanged :
    ∀ {ss : List SecId} {st : State}, (∀ s ∈ ss, s ∈ L.execSections) → Anchored L st home →
      (L.relaxSections ss st).2 = false →
      (L.relaxSections ss st).1.deltas = st.deltas ∧
        (L.relaxSections ss st).1.dropped = st.dropped
  | [], _, _, _, _ => ⟨rfl, rfl⟩
  | s :: rest, st, hss, h, hquiet => by
    have hs : s ∈ L.execSections := hss s List.mem_cons_self
    obtain ⟨hone, hrest⟩ := Bool.or_eq_false_iff.mp hquiet
    obtain ⟨hdeltas, hdropped⟩ := relax_unchanged h hs hone
    obtain ⟨hdeltas', hdropped'⟩ := relaxSections_unchanged
      (fun j hj => hss j (List.mem_cons_of_mem s hj)) (relax_anchored h hs) hrest
    exact ⟨hdeltas'.trans hdeltas, hdropped'.trans hdropped⟩

/-- **A run that changes no delta over symbols in place** moves nothing, and what it records was
decided in the state it started from. -/
theorem relaxSections_quiet :
    ∀ {ss : List SecId} {st : State}, (∀ s ∈ ss, s ∈ L.execSections) → Anchored L st home →
      (∀ s ∈ ss, SectionInPlace L st s) → (L.relaxSections ss st).2 = false →
      SameView st (L.relaxSections ss st).1 ∧
        ∀ s ∈ ss, Decided L st s (L.input s).relocs (st.deltas s) 0
          ((L.relaxSections ss st).1.types s)
  | [], st, _, _, _, _ => ⟨SameView.refl st, fun _ hs => absurd hs List.not_mem_nil⟩
  | s :: rest, st, hss, h, hplace, hquiet => by
    have hs : s ∈ L.execSections := hss s List.mem_cons_self
    have hss' : ∀ i ∈ rest, i ∈ L.execSections := fun i hi => hss i (List.mem_cons_of_mem s hi)
    obtain ⟨hone, hrest⟩ := Bool.or_eq_false_iff.mp hquiet
    obtain ⟨hview, hdec⟩ := relax_quiet h hs (hplace s List.mem_cons_self) hone
    have hdeltas := (relax_unchanged h hs hone).1
    obtain ⟨hview', hdec'⟩ := relaxSections_quiet hss' (relax_anchored h hs)
      (fun i hi => relax_inPlace_other h hs (hplace i (List.mem_cons_of_mem s hi))) hrest
    refine ⟨hview.trans hview', fun i hi => ?_⟩
    by_cases hir : i ∈ rest
    · have hi' := hdec' i hir
      rw [hdeltas] at hi'
      exact hi'.congr hview.symm
    · obtain rfl := (List.mem_cons.mp hi).resolve_right hir
      have htypes := (relaxSections_frame hss' (relax_anchored h hs)).types i hir
      have heq : (L.relaxSections (i :: rest) st).1 =
          (L.relaxSections rest (L.relax st i).1).1 := rfl
      rw [heq, htypes]
      exact hdec

/-! ## The anchors of the first pass -/

theorem anchorLe_iff (a b : Anchor) : anchorLe a b = true ↔
    a.offset < b.offset ∨ (a.offset = b.offset ∧ (a.atEnd = true → b.atEnd = true)) := by
  unfold anchorLe
  cases a.atEnd <;> cases b.atEnd <;> simp

instance : Std.Total fun a b : Anchor => anchorLe a b = true where
  total a b := by
    rw [anchorLe_iff, anchorLe_iff]
    rcases lt_trichotomy a.offset b.offset with h | h | h
    · exact Or.inl (Or.inl h)
    · cases ha : a.atEnd with
      | false => exact Or.inl (Or.inr ⟨h, fun h => absurd h (by decide)⟩)
      | true => exact Or.inr (Or.inr ⟨h.symm, fun _ => rfl⟩)
    · exact Or.inr (Or.inl h)

instance : IsTrans Anchor fun a b => anchorLe a b = true where
  trans a b c := by
    rw [anchorLe_iff, anchorLe_iff, anchorLe_iff]
    rintro (h | ⟨h, hend⟩) (h' | ⟨h', hend'⟩)
    · exact Or.inl (h.trans h')
    · exact Or.inl (h.trans_eq h')
    · exact Or.inl (h.trans_lt h')
    · exact Or.inr ⟨h.trans h', fun ha => hend' (hend ha)⟩

theorem anchorsOf_sorted (st : State) (s : SecId) : AnchorsSorted (L.anchorsOf st s) := by
  have hsorted : (L.anchorsOf st s).Pairwise fun a b => anchorLe a b = true :=
    List.pairwise_insertionSort (fun a b : Anchor => anchorLe a b = true) _
  refine hsorted.imp fun {a b} h => ?_
  rcases (anchorLe_iff a b).mp h with h | h
  · exact h.le
  · exact h.1.le

/-- A start anchor records where its symbol was. -/
theorem mem_anchorsOf {st : State} {s : SecId} {a : Anchor} (ha : a ∈ L.anchorsOf st s)
    (hstart : a.atEnd = false) : st.sym a.sym = ⟨.input s, a.offset⟩ := by
  unfold anchorsOf at ha
  rw [List.mem_insertionSort, List.mem_flatMap] at ha
  obtain ⟨d, hd, ha⟩ := ha
  have hplace : (st.sym d).place = .input s := by simpa using (List.mem_filter.mp hd).2
  rcases List.mem_cons.mp ha with rfl | ha
  · rw [← hplace]
  · obtain rfl := List.mem_singleton.mp ha
    exact absurd (show true = false from hstart) (by decide)

theorem deltaAt_zero (rs : List Relocation) (n : Nat) (o : Int) :
    deltaAt rs (List.replicate n 0) 0 o = 0 := by
  induction rs generalizing n with
  | nil => cases n <;> rfl
  | cons r rest ih =>
    cases n with
    | zero => rfl
    | succ n =>
      rw [List.replicate_succ, deltaAt, ih]
      exact ite_self 0

/-- The section and offset a symbol has when the first pass starts. -/
def homeOf (st : State) (d : SymId) : SecId × Int :=
  match (st.sym d).place with
  | .input s => (s, (st.sym d).offset)
  | _ => (0, (st.sym d).offset)

/-- **The first pass starts with every symbol in place**, nothing having been dropped. -/
theorem initSymbolAnchors_spec {st : State} (hd : ∀ s, st.dropped s = 0) :
    Anchored L (L.initSymbolAnchors st) (homeOf st) ∧
      ∀ s, SectionInPlace L (L.initSymbolAnchors st) s := by
  have hstart : ∀ s, ∀ a ∈ (L.initSymbolAnchors st).anchors s, a.atEnd = false →
      s ∈ L.execSections ∧ st.sym a.sym = ⟨.input s, a.offset⟩ := by
    intro s a ha hstart
    simp only [initSymbolAnchors] at ha
    split at ha
    · rename_i hs
      exact ⟨hs, mem_anchorsOf ha hstart⟩
    · exact absurd ha List.not_mem_nil
  refine ⟨⟨fun s hs => ?_, fun s => ?_, fun s a ha h => ?_, fun s hs => ?_⟩, fun s a ha h => ?_⟩
  · simp [initSymbolAnchors, hs]
  · simp only [initSymbolAnchors]
    split
    · exact anchorsOf_sorted st s
    · exact List.Pairwise.nil
  · rw [homeOf, (hstart s a ha h).2]
  · simp only [initSymbolAnchors, if_pos hs, hd s]
    cases (L.input s).relocs.length with
    | zero => rfl
    | succ n => rw [List.getLastD_eq_getLast?, List.getLast?_replicate]; rfl
  · obtain ⟨hs, hsym⟩ := hstart s a ha h
    have hsame : (L.initSymbolAnchors st).sym a.sym = st.sym a.sym := rfl
    have hdeltas : (L.initSymbolAnchors st).deltas s =
        List.replicate (L.input s).relocs.length 0 := if_pos hs
    rw [hsame, hsym, hdeltas, deltaAt_zero]
    exact (sub_zero _).symm

end RvLlvm.Lld.Link
