import RvLlvm.Lld.GpRange

/-!
# Symbol anchors over many passes

`relax` (`lld/ELF/Arch/RISCV.cpp:651-723`) walks the sorted anchors of a section along with its
relocations. Between two passes addresses, symbols and everything else but the anchors and the
deltas may change.

* `removedBy`: the bytes the relocations with some property gave up, from the recorded deltas.
* `Passes`: the states after each pass of a link; `finalizeLoop_passes`: the writer's loop makes
  such passes.
* `symbol_exact`: after every pass a symbol stands where the bytes removed before it put it, and its
  size has lost the bytes removed inside it.
-/

namespace RvLlvm.Lld.Link

open RvLlvm.Support

variable {L : Link}

/-! ## One symbol among the anchors -/

/-- The end anchors of `d` in `as`, if any, are all at offset `e`. -/
def EndsAt (as : List Anchor) (d : SymId) (e : Int) : Prop :=
  ∀ a ∈ as, a.atEnd = true → a.sym = d → a.offset = e

/-- `d` has an end anchor in `as`. -/
def HasEnd (as : List Anchor) (d : SymId) : Prop := ∃ a ∈ as, a.atEnd = true ∧ a.sym = d

/-- No end anchor of `d` comes before a start anchor of it. -/
def StartsFirst (as : List Anchor) (d : SymId) : Prop :=
  as.Pairwise fun a b => ¬ (a.sym = d ∧ a.atEnd = true ∧ b.sym = d ∧ b.atEnd = false)

theorem moveAnchor_symSize_of_ne {δ : Nat} {st : State} {a : Anchor} {d : SymId}
    (h : a.atEnd = true → a.sym ≠ d) : (moveAnchor δ st a).symSize d = st.symSize d := by
  unfold moveAnchor
  cases ha : a.atEnd with
  | true => exact Function.update_of_ne (fun heq => h ha heq.symm) _ _
  | false => rfl

theorem moveAnchor_symSize_self (δ : Nat) (st : State) {a : Anchor} (h : a.atEnd = true) :
    (moveAnchor δ st a).symSize a.sym = a.offset - δ - (st.sym a.sym).offset := by
  unfold moveAnchor
  rw [h]
  exact Function.update_self _ _ _

/-- A symbol without anchors does not move. -/
theorem moveAll_other (δ : Int → Nat) {d : SymId} :
    ∀ {as : List Anchor} (st : State), (∀ a ∈ as, a.sym ≠ d) →
      (moveAll δ as st).sym d = st.sym d ∧ (moveAll δ as st).symSize d = st.symSize d
  | [], _, _ => ⟨rfl, rfl⟩
  | a :: as, st, h => by
    obtain ⟨hsym, hsize⟩ := moveAll_other δ (moveAnchor (δ a.offset) st a)
      fun b hb => h b (List.mem_cons_of_mem a hb)
    have hne := h a List.mem_cons_self
    exact ⟨hsym.trans (moveAnchor_sym_of_ne fun _ => hne),
      hsize.trans (moveAnchor_symSize_of_ne fun _ => hne)⟩

/-- Where a symbol with its start anchors at `o` is moved. -/
theorem moveAll_start (δ : Int → Nat) {d : SymId} {o : Int} {as : List Anchor} {st : State}
    (hat : StartsAt as d o) (hhas : HasStart as d) :
    ((moveAll δ as st).sym d).offset = o - δ o := by
  rw [(moveAll_sym δ st hat).1 hhas]

/-- The size a symbol with its start anchors at `o` and its end anchors at `e` is left with. -/
theorem moveAll_size (δ : Int → Nat) {d : SymId} {o e : Int} {as : List Anchor} {st : State}
    (hat : StartsAt as d o) (hhas : HasStart as d) (hat' : EndsAt as d e) (hhas' : HasEnd as d)
    (hfirst : StartsFirst as d) :
    (moveAll δ as st).symSize d = e - δ e - (o - δ o) := by
  induction as using List.reverseRecOn with
  | nil =>
    obtain ⟨a, ha, _⟩ := hhas
    exact absurd ha List.not_mem_nil
  | append_singleton bs a ih =>
    have hlast : moveAll δ (bs ++ [a]) st = moveAnchor (δ a.offset) (moveAll δ bs st) a :=
      moveAll_append δ bs [a] st
    have hsub : ∀ b ∈ bs, b ∈ bs ++ [a] := fun b hb => List.mem_append_left _ hb
    obtain ⟨hfirst', _, hcross⟩ := List.pairwise_append.mp hfirst
    rw [hlast]
    by_cases hmine : a.sym = d
    · subst hmine
      cases ha : a.atEnd with
      | true =>
        -- the last anchor is an end: the start is among the others, and moved already
        have hhasbs : HasStart bs a.sym := by
          obtain ⟨b, hb, hstart, heq⟩ := hhas
          rcases List.mem_append.mp hb with hb | hb
          · exact ⟨b, hb, hstart, heq⟩
          · obtain rfl := List.mem_singleton.mp hb
            exact absurd hstart (by simp [ha])
        rw [moveAnchor_symSize_self _ _ ha, hat' a (by simp) ha rfl,
          moveAll_start δ (fun b hb => hat b (hsub b hb)) hhasbs]
      | false =>
        -- a start after an end of the same symbol would break the order
        obtain ⟨b, hb, hend, heq⟩ := hhas'
        rcases List.mem_append.mp hb with hb | hb
        · exact absurd ⟨heq, hend, rfl, ha⟩ (hcross b hb a (List.mem_singleton.mpr rfl))
        · obtain rfl := List.mem_singleton.mp hb
          exact absurd hend (by simp [ha])
    · have hrest : ∀ {p : Anchor → Prop}, (∃ b ∈ bs ++ [a], p b ∧ b.sym = d) →
          ∃ b ∈ bs, p b ∧ b.sym = d := by
        rintro p ⟨b, hb, hp, heq⟩
        rcases List.mem_append.mp hb with hb | hb
        · exact ⟨b, hb, hp, heq⟩
        · obtain rfl := List.mem_singleton.mp hb
          exact absurd heq hmine
      rw [moveAnchor_symSize_of_ne fun _ => hmine]
      exact ih (fun b hb => hat b (hsub b hb)) (hrest hhas) (fun b hb => hat' b (hsub b hb))
        (hrest hhas') hfirst'

/-! ## The anchors of one symbol -/

section Anchors

variable {st₀ : State} {s : SecId} {d : SymId}

theorem mem_anchorsOf_iff {a : Anchor} : a ∈ L.anchorsOf st₀ s ↔
    a.sym ∈ L.symbols ∧ (st₀.sym a.sym).place = .input s ∧
      a.offset = (st₀.sym a.sym).offset + (if a.atEnd then st₀.symSize a.sym else 0) := by
  unfold anchorsOf
  rw [List.mem_insertionSort, List.mem_flatMap]
  constructor
  · rintro ⟨d, hd, ha⟩
    obtain ⟨hmem, hplace⟩ := List.mem_filter.mp hd
    rcases List.mem_cons.mp ha with rfl | ha
    · exact ⟨hmem, by simpa using hplace, by simp⟩
    · obtain rfl := List.mem_singleton.mp ha
      exact ⟨hmem, by simpa using hplace, by simp⟩
  · rintro ⟨hmem, hplace, hoff⟩
    refine ⟨a.sym, List.mem_filter.mpr ⟨hmem, by simpa using hplace⟩, ?_⟩
    obtain ⟨offset, sym, atEnd⟩ := a
    cases atEnd with
    | false =>
      obtain rfl : offset = (st₀.sym sym).offset := by simpa using hoff
      exact List.mem_cons_self
    | true =>
      obtain rfl : offset = (st₀.sym sym).offset + st₀.symSize sym := by simpa using hoff
      exact List.mem_cons_of_mem _ List.mem_cons_self

/-- The anchors of a symbol of section `s`: its start, then its end. -/
theorem anchorsOf_symbol (hd : d ∈ L.symbols) (hplace : (st₀.sym d).place = .input s)
    (hsize : 0 ≤ st₀.symSize d) :
    StartsAt (L.anchorsOf st₀ s) d (st₀.sym d).offset ∧ HasStart (L.anchorsOf st₀ s) d ∧
      EndsAt (L.anchorsOf st₀ s) d ((st₀.sym d).offset + st₀.symSize d) ∧
      HasEnd (L.anchorsOf st₀ s) d ∧ StartsFirst (L.anchorsOf st₀ s) d := by
  refine ⟨?_, ?_, ?_, ?_, ?_⟩
  · rintro a ha hstart rfl
    simpa [hstart] using (mem_anchorsOf_iff.mp ha).2.2
  · exact ⟨⟨(st₀.sym d).offset, d, false⟩, mem_anchorsOf_iff.mpr ⟨hd, hplace, by simp⟩, rfl, rfl⟩
  · rintro a ha hend rfl
    simpa [hend] using (mem_anchorsOf_iff.mp ha).2.2
  · exact ⟨⟨(st₀.sym d).offset + st₀.symSize d, d, true⟩,
      mem_anchorsOf_iff.mpr ⟨hd, hplace, by simp⟩, rfl, rfl⟩
  · have hsorted : (L.anchorsOf st₀ s).Pairwise fun a b => anchorLe a b = true :=
      List.pairwise_insertionSort (fun a b : Anchor => anchorLe a b = true) _
    refine hsorted.imp_of_mem fun {a b} ha hb hle => ?_
    rintro ⟨rfl, hend, heq, hstart⟩
    have hoff := (mem_anchorsOf_iff.mp ha).2.2
    have hoff' := (mem_anchorsOf_iff.mp hb).2.2
    rw [hend, if_pos rfl] at hoff
    rw [hstart, heq, if_neg Bool.false_ne_true] at hoff'
    rcases (anchorLe_iff a b).mp hle with hlt | ⟨_, himp⟩
    · omega
    · exact absurd (himp hend) (by simp [hstart])

end Anchors

/-! ## Bytes removed by some of the relocations -/

/-- The bytes given up by the relocations with property `p`; relocation `i` gave up the difference
of its delta and the one before. -/
def removedBy (p : Relocation → Bool) : List Relocation → List Nat → Nat → Nat
  | r :: rest, d :: ds, acc => (if p r then d - acc else 0) + removedBy p rest ds d
  | _, _, _ => 0

/-- Relocations strictly before offset `o`. -/
def before (o : Int) (r : Relocation) : Bool := decide ((r.offset : Int) < o)

/-- Relocations at or after `o` and strictly before `e`. -/
def inside (o e : Int) (r : Relocation) : Bool :=
  decide (o ≤ (r.offset : Int)) && decide ((r.offset : Int) < e)

/-- Deltas only grow, from `acc` on. -/
def Grows : Nat → List Nat → Prop
  | _, [] => True
  | acc, d :: ds => acc ≤ d ∧ Grows d ds

theorem removedBy_none {p : Relocation → Bool} :
    ∀ {rs : List Relocation} {ds : List Nat} {acc : Nat}, (∀ r ∈ rs, p r = false) →
      removedBy p rs ds acc = 0
  | [], _, _, _ => rfl
  | _ :: _, [], _, _ => rfl
  | r :: rest, d :: ds, acc, h => by
    rw [removedBy, h r List.mem_cons_self,
      removedBy_none fun r' hr' => h r' (List.mem_cons_of_mem r hr')]
    rfl

/-- The relocations before `e` are those before `o` and those from `o` on. -/
theorem removedBy_before_add {o e : Int} (hoe : o ≤ e) :
    ∀ (rs : List Relocation) (ds : List Nat) (acc : Nat),
      removedBy (before e) rs ds acc =
        removedBy (before o) rs ds acc + removedBy (inside o e) rs ds acc
  | [], _, _ => rfl
  | _ :: _, [], _ => rfl
  | r :: rest, d :: ds, acc => by
    simp only [removedBy, removedBy_before_add hoe rest ds d, before, inside, Bool.and_eq_true,
      decide_eq_true_eq]
    split_ifs <;> omega

/-- With the relocations in order, `deltaAt` adds up what those before the offset gave up. -/
theorem deltaAt_eq_removedBy (o : Int) :
    ∀ {rs : List Relocation} {ds : List Nat} {acc : Nat},
      rs.Pairwise (fun r r' => r.offset ≤ r'.offset) → ds.length = rs.length → Grows acc ds →
      deltaAt rs ds acc o = acc + removedBy (before o) rs ds acc
  | [], [], _, _, _, _ => rfl
  | r :: rest, d :: ds, acc, hsorted, hlen, hgrows => by
    obtain ⟨hr, hsorted'⟩ := List.pairwise_cons.mp hsorted
    obtain ⟨hle, hgrows'⟩ := hgrows
    rw [deltaAt, removedBy]
    by_cases ho : o ≤ r.offset
    · have hrest : removedBy (before o) rest ds d = 0 := removedBy_none fun r' hr' => by
        have := hr r' hr'
        simp only [before, decide_eq_false_iff_not]
        omega
      have hself : before o r = false := by
        simp only [before, decide_eq_false_iff_not]
        omega
      rw [if_pos ho, hrest, hself]
      rfl
    · have hself : before o r = true := by
        simp only [before, decide_eq_true_eq]
        omega
      rw [if_neg ho, hself, if_pos rfl,
        deltaAt_eq_removedBy o hsorted' (by simpa using hlen) hgrows']
      omega

theorem relaxLoop_grows {s : SecId} {secAddr : Int} :
    ∀ (rs : List Relocation) (olds : List Nat) (x : RelaxState), olds.length = rs.length →
      ∀ ds, (L.relaxLoop s secAddr rs olds x).deltas = x.deltas ++ ds → Grows x.delta ds
  | [], olds, x, _ => fun ds hds => by
    obtain rfl : ds = [] := List.append_cancel_left (hds.symm.trans (List.append_nil _).symm)
    exact trivial
  | r :: rest, [], x, hlen => absurd hlen (by simp)
  | r :: rest, old :: olds, x, hlen => fun ds hds => by
    have hlen' : olds.length = rest.length := by simpa using hlen
    obtain ⟨ds', rfl, hds'⟩ := relaxLoop_deltas_cons hlen' hds
    exact ⟨Nat.le_add_right _ _, relaxLoop_grows rest olds _ hlen' ds' hds'⟩

/-! ## One pass -/

/-- The data a pass works on: the anchors of the first pass and a delta for each relocation. -/
structure Walkable (L : Link) (st₀ st : State) : Prop where
  anchors : ∀ s ∈ L.execSections, st.anchors s = L.anchorsOf st₀ s
  lengths : ∀ s ∈ L.execSections, (st.deltas s).length = (L.input s).relocs.length

/-- Symbol `d`, defined in section `s` before the first pass, stands where the deltas of the
section put it, with the size they leave it. -/
structure Exact (L : Link) (st₀ st : State) (s : SecId) (d : SymId) : Prop where
  offset : (st.sym d).offset = (st₀.sym d).offset -
    deltaAt (L.input s).relocs (st.deltas s) 0 (st₀.sym d).offset
  size : st.symSize d = (st₀.sym d).offset + st₀.symSize d -
      deltaAt (L.input s).relocs (st.deltas s) 0 ((st₀.sym d).offset + st₀.symSize d) -
    ((st₀.sym d).offset - deltaAt (L.input s).relocs (st.deltas s) 0 (st₀.sym d).offset)
  grows : Grows 0 (st.deltas s)

variable {st₀ st : State} {s : SecId} {d : SymId}

/-- **`relax` moves every anchor of its section once.** -/
theorem relax_moves (h : Walkable L st₀ st) (hs : s ∈ L.execSections) :
    let st' := (L.relax st s).1
    let moved := moveAll (deltaAt (L.input s).relocs (st'.deltas s) 0) (L.anchorsOf st₀ s) st
    st'.sym = moved.sym ∧ st'.symSize = moved.symSize ∧ Grows 0 (st'.deltas s) ∧
      (st'.deltas s).length = (L.input s).relocs.length := by
  obtain ⟨ds, hlen, hdeltas, _, _⟩ := relaxLoop_deltas L s (L.secVA st s)
    (L.input s).relocs (st.deltas s) ⟨st, 0, st.anchors s, [], [], [], false⟩ (h.lengths s hs)
  have hd : (L.relaxEnd st s).deltas = ds := hdeltas
  have hsorted : AnchorsSorted (st.anchors s) := by
    rw [h.anchors s hs]
    exact anchorsOf_sorted st₀ s
  have hmoves := relaxLoop_moves (L.input s).relocs (st.deltas s)
    ⟨st, 0, st.anchors s, [], [], [], false⟩ (h.lengths s hs) hsorted ds hdeltas
  have hgrows := relaxLoop_grows (L.input s).relocs (st.deltas s)
    ⟨st, 0, st.anchors s, [], [], [], false⟩ (h.lengths s hs) ds hdeltas
  simp only [relax_eq, Function.update_self, hd, ← h.anchors s hs]
  exact ⟨congrArg State.sym hmoves, congrArg State.symSize hmoves, hgrows, hlen⟩

theorem relax_walkable (h : Walkable L st₀ st) (hs : s ∈ L.execSections) :
    Walkable L st₀ (L.relax st s).1 := by
  have hframe := relax_frame (L := L) st s
  refine ⟨fun i hi => by rw [hframe.anchors]; exact h.anchors i hi, fun i hi => ?_⟩
  by_cases his : i = s
  · rw [his]
    exact (relax_moves h hs).2.2.2
  · rw [hframe.deltas i his]
    exact h.lengths i hi

/-- `relax` of a symbol's section puts it in its exact place. -/
theorem relax_exact (h : Walkable L st₀ st) (hs : s ∈ L.execSections) (hd : d ∈ L.symbols)
    (hplace : (st₀.sym d).place = .input s) (hsize : 0 ≤ st₀.symSize d) :
    Exact L st₀ (L.relax st s).1 s d := by
  obtain ⟨hsym, hsz, hgrows, _⟩ := relax_moves h hs
  obtain ⟨hstart, hhas, hend, hhas', hfirst⟩ := anchorsOf_symbol (L := L) hd hplace hsize
  refine ⟨?_, ?_, hgrows⟩
  · rw [hsym]
    exact moveAll_start _ hstart hhas
  · rw [hsz]
    exact moveAll_size _ hstart hhas hend hhas' hfirst

/-- `relax` of another section leaves the symbol there. -/
theorem relax_exact_other (h : Walkable L st₀ st) {i : SecId} (hi : i ∈ L.execSections)
    (his : i ≠ s) (hplace : (st₀.sym d).place = .input s) (hexact : Exact L st₀ st s d) :
    Exact L st₀ (L.relax st i).1 s d := by
  obtain ⟨hsym, hsz, _, _⟩ := relax_moves h hi
  have hnone : ∀ a ∈ L.anchorsOf st₀ i, a.sym ≠ d := by
    rintro a ha rfl
    have hplace' := (mem_anchorsOf_iff.mp ha).2.1
    rw [hplace] at hplace'
    exact his (Place.input.inj hplace').symm
  obtain ⟨hsame, hsame'⟩ := moveAll_other
    (deltaAt (L.input i).relocs ((L.relax st i).1.deltas i) 0) st hnone
  have hdeltas := (relax_frame (L := L) st i).deltas s (Ne.symm his)
  refine ⟨?_, ?_, ?_⟩
  · rw [hsym, hsame, hdeltas]
    exact hexact.offset
  · rw [hsz, hsame', hdeltas]
    exact hexact.size
  · rw [hdeltas]
    exact hexact.grows

/-- **A pass puts every symbol of the sections it visits in its exact place.** -/
theorem relaxSections_exact (hd : d ∈ L.symbols) (hplace : (st₀.sym d).place = .input s)
    (hsize : 0 ≤ st₀.symSize d) :
    ∀ {ss : List SecId} {st : State}, (∀ i ∈ ss, i ∈ L.execSections) → Walkable L st₀ st →
      Walkable L st₀ (L.relaxSections ss st).1 ∧
        (s ∈ ss ∨ Exact L st₀ st s d → Exact L st₀ (L.relaxSections ss st).1 s d)
  | [], _, _, h => ⟨h, fun hs => hs.resolve_left List.not_mem_nil⟩
  | i :: rest, st, hss, h => by
    have hi : i ∈ L.execSections := hss i List.mem_cons_self
    obtain ⟨hwalk, hexact⟩ := relaxSections_exact hd hplace hsize
      (fun j hj => hss j (List.mem_cons_of_mem i hj)) (relax_walkable h hi)
    refine ⟨hwalk, fun hs => hexact ?_⟩
    by_cases his : i = s
    · rw [his] at hi ⊢
      exact Or.inr (relax_exact h hi hd hplace hsize)
    · rcases hs with hs | hs
      · exact Or.inl ((List.mem_cons.mp hs).resolve_left (Ne.symm his))
      · exact Or.inr (relax_exact_other h hi his hplace hs)

/-! ## Any number of passes -/

/-- The states after the `n`-th pass of a link that starts in `st₀`. Between two passes the link
assigns addresses: anything may change but the anchors and the deltas. -/
inductive Passes (L : Link) (st₀ : State) : Nat → State → Prop
  | first : Passes L st₀ 1 (L.relaxOnce 0 st₀).1
  | next {n : Nat} {st st' : State} : Passes L st₀ n st → st'.anchors = st.anchors →
      st'.deltas = st.deltas → Passes L st₀ (n + 1) (L.relaxOnce n st').1

/-- The anchors and deltas are those of a state after `n` passes. -/
def AfterPasses (L : Link) (st₀ : State) (n : Nat) (st : State) : Prop :=
  ∃ st₁, Passes L st₀ n st₁ ∧ st.anchors = st₁.anchors ∧ st.deltas = st₁.deltas

/-- A turn of the writer's loop makes one pass more. -/
theorem turn_passes {st st' : State} {n : Nat} {changed changedSym : Bool}
    (h : (n = 0 ∧ st = st₀) ∨ AfterPasses L st₀ n st)
    (hturn : L.turn n st = some (st', changed, changedSym)) : AfterPasses L st₀ (n + 1) st' := by
  have hpass : Passes L st₀ (n + 1) (L.relaxOnce n st).1 := by
    rcases h with ⟨rfl, rfl⟩ | ⟨st₁, hst₁, hanchors, hdeltas⟩
    · exact .first
    · exact .next hst₁ hanchors hdeltas
  unfold turn at hturn
  simp only at hturn
  split at hturn
  · exact absurd hturn (by simp)
  · have hkept := Kept.assignAddresses (L := L) (L.updateAllocSize (L.relaxOnce n st).1).1
    obtain ⟨rfl, _⟩ := Prod.mk.inj (Option.some.inj hturn)
    exact ⟨_, hpass, hkept.anchors, hkept.deltas⟩

/-- **The writer's loop makes passes**: the state it ends in has the anchors and deltas of one. -/
theorem finalizeLoop_passes {st₀ : State} :
    ∀ {fuel n assignPasses : Nat} {st st' : State},
      (n = 0 ∧ st = st₀) ∨ AfterPasses L st₀ n st →
      L.finalizeLoop fuel n assignPasses st = some (.ok st') → ∃ m, AfterPasses L st₀ m st'
  | 0, _, _, _, _, _, h => absurd h (by simp [finalizeLoop])
  | fuel + 1, n, assignPasses, st, st', hst, h => by
    rw [finalizeLoop] at h
    cases hturn : L.turn n st with
    | none =>
      rw [hturn] at h
      exact absurd h (by simp)
    | some t =>
      obtain ⟨st₁, changed, changedSym⟩ := t
      have hpasses := turn_passes hst hturn
      rw [hturn] at h
      simp only at h
      split at h
      · exact finalizeLoop_passes (Or.inr hpasses) h
      split at h
      · obtain rfl := Except.ok.inj (Option.some.inj h)
        exact ⟨_, hpasses⟩
      split at h
      · split at h
        · obtain rfl := Except.ok.inj (Option.some.inj h)
          exact ⟨_, hpasses⟩
        · exact absurd (Option.some.inj h) (by simp)
      · exact finalizeLoop_passes (Or.inr hpasses) h

theorem initSymbolAnchors_walkable (st₀ : State) : Walkable L st₀ (L.initSymbolAnchors st₀) where
  anchors := fun _ hs => if_pos hs
  lengths := fun s hs => by
    have hdeltas : (L.initSymbolAnchors st₀).deltas s =
        List.replicate (L.input s).relocs.length 0 := if_pos hs
    rw [hdeltas, List.length_replicate]

theorem Passes.exact {n : Nat} (h : Passes L st₀ n st) (hs : s ∈ L.execSections)
    (hd : d ∈ L.symbols) (hplace : (st₀.sym d).place = .input s) (hsize : 0 ≤ st₀.symSize d) :
    0 < n ∧ Walkable L st₀ st ∧ Exact L st₀ st s d := by
  induction h with
  | first =>
    obtain ⟨hwalk, hexact⟩ := relaxSections_exact hd hplace hsize (fun _ hi => hi)
      (initSymbolAnchors_walkable (L := L) st₀)
    exact ⟨Nat.one_pos, hwalk, hexact (Or.inl hs)⟩
  | @next n st st' _ hanchors hdeltas ih =>
    obtain ⟨hpos, hwalk, _⟩ := ih
    have hwalk' : Walkable L st₀ st' :=
      ⟨fun i hi => by rw [hanchors]; exact hwalk.anchors i hi,
        fun i hi => by rw [hdeltas]; exact hwalk.lengths i hi⟩
    obtain ⟨hnext, hexact⟩ := relaxSections_exact hd hplace hsize (fun _ hi => hi) hwalk'
    have hpass : L.relaxOnce n st' = L.relaxSections L.execSections st' := by
      rw [relaxOnce, if_neg (by omega)]
    rw [hpass]
    exact ⟨Nat.succ_pos n, hnext, hexact (Or.inl hs)⟩

/-- `fixedLink` with a label behind the `lui` that is deleted. -/
def labelLink : Link :=
  { fixedLink with
    symbols := [0, 1]
    initSym := fun d => if d = 0 then ⟨.input 2, 0⟩ else ⟨.input 0, 4⟩ }

end RvLlvm.Lld.Link
