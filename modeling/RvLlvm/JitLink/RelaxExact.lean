import RvLlvm.JitLink.RelaxPasses

/-!
# Relaxation in the JIT linker is exact

`relax` from `initRelaxAux` to `finalizeRelax`
(`llvm/lib/ExecutionEngine/JITLink/ELF_riscv.cpp:555-812`).

* `initRelaxAux_all`: the anchors of the first pass stand where the symbols are.
* `RelaxedExactly`: a block and its symbols as the last decisions leave them.
* `relax_relaxedExactly`: where the loop stops, every block of a well-formed graph is relaxed
  exactly.
-/

namespace RvLlvm.JitLink.Relax

open RvLlvm.Support
open RvLlvm.Lld.Link (anchorLe AnchorsSorted anchorLe_iff)

/-! ## The first pass -/

/-- No block is encountered twice, the blocks to relax are well formed, and offsets and sizes of
symbols are unsigned. -/
structure LinkGraph.WellFormed (G : LinkGraph) : Prop where
  once : (G.initRelaxAux.map Prod.fst).Nodup
  blocks : ∀ p ∈ G.initRelaxAux, (G.block p.1).WellFormed
  symbols : ∀ d, 0 ≤ (G.sym d).offset ∧ 0 ≤ (G.sym d).size

section Init

variable {G : LinkGraph} {S : Section} {b : BlockId}

theorem mem_anchorsOf_iff {a : SymbolAnchor} : a ∈ G.anchorsOf S b ↔
    a.sym ∈ S.symbols ∧ (G.sym a.sym).base = .block b ∧
      a.offset = (G.sym a.sym).offset + (if a.atEnd then (G.sym a.sym).size else 0) := by
  unfold LinkGraph.anchorsOf
  rw [List.mem_insertionSort, List.mem_flatMap]
  constructor
  · rintro ⟨d, hd, ha⟩
    obtain ⟨hmem, hbase⟩ := List.mem_filter.mp hd
    rcases List.mem_cons.mp ha with rfl | ha
    · exact ⟨hmem, by simpa using hbase, by simp⟩
    · obtain rfl := List.mem_singleton.mp ha
      exact ⟨hmem, by simpa using hbase, by simp⟩
  · rintro ⟨hmem, hbase, hoff⟩
    refine ⟨a.sym, List.mem_filter.mpr ⟨hmem, by simpa using hbase⟩, ?_⟩
    obtain ⟨offset, sym, atEnd⟩ := a
    cases atEnd with
    | false =>
      obtain rfl : offset = (G.sym sym).offset := by simpa using hoff
      exact List.mem_cons_self
    | true =>
      obtain rfl : offset = (G.sym sym).offset + (G.sym sym).size := by simpa using hoff
      exact List.mem_cons_of_mem _ List.mem_cons_self

theorem anchorsOf_ordered (G : LinkGraph) (S : Section) (b : BlockId) :
    (G.anchorsOf S b).Pairwise fun a c => anchorLe a c = true :=
  List.pairwise_insertionSort (fun a c : SymbolAnchor => anchorLe a c = true) _

theorem anchorsOf_sorted (G : LinkGraph) (S : Section) (b : BlockId) :
    AnchorsSorted (G.anchorsOf S b) := by
  refine (anchorsOf_ordered G S b).imp fun {a c} h => ?_
  rcases (anchorLe_iff a c).mp h with h | h
  · exact h.le
  · exact h.1.le

theorem anchorsOf_consistent (hsize : ∀ d, 0 ≤ (G.sym d).size) : Consistent (G.anchorsOf S b) := by
  refine (anchorsOf_ordered G S b).imp_of_mem fun {a c} ha hc hle hsym => ?_
  have hoff := (mem_anchorsOf_iff.mp ha).2.2
  have hoff' := (mem_anchorsOf_iff.mp hc).2.2
  rw [← hsym] at hoff'
  refine ⟨fun hsame => by rw [hoff, hoff', hsame], fun hend => ?_⟩
  by_contra hstart
  rw [if_pos hend] at hoff
  rw [if_neg hstart] at hoff'
  have hnonneg := hsize a.sym
  rcases (anchorLe_iff a c).mp hle with hlt | ⟨_, himp⟩
  · omega
  · exact hstart (himp hend)

/-- An entry of `initRelaxAux` is that of a block of an executable section. -/
theorem mem_initRelaxAux {p : BlockId × BlockRelaxAux} (h : p ∈ G.initRelaxAux) :
    ∃ S ∈ G.sections, S.exec = true ∧ p.1 ∈ S.blocks ∧ p.2.anchors = G.anchorsOf S p.1 ∧
      p.2.relaxEdges = (G.block p.1).relaxEdges ∧
      p.2.relocDeltas = List.replicate p.2.relaxEdges.length 0 := by
  obtain ⟨S, hS, hp⟩ := List.mem_flatMap.mp h
  obtain ⟨hmem, hexec⟩ := List.mem_filter.mp hS
  obtain ⟨b, hb, hinit⟩ := List.mem_filterMap.mp hp
  unfold LinkGraph.initBlockAux at hinit
  simp only at hinit
  split at hinit
  · exact absurd hinit (by simp)
  · obtain rfl := Option.some.inj hinit
    exact ⟨S, hmem, hexec, hb, rfl, rfl, rfl⟩

/-- Every block of an executable section with relaxable edges has its entry. -/
theorem initRelaxAux_entry (hS : S ∈ G.sections) (hexec : S.exec = true) (hb : b ∈ S.blocks)
    (hedges : (G.block b).relaxEdges ≠ []) :
    ∃ p ∈ G.initRelaxAux, p.1 = b ∧ p.2.anchors = G.anchorsOf S b := by
  have hne : ¬ ((G.block b).edges.filter isRelaxable).isEmpty = true := fun h =>
    hedges (List.isEmpty_iff.mp h)
  have hinit : ∃ aux, G.initBlockAux S b = some (b, aux) ∧ aux.anchors = G.anchorsOf S b := by
    unfold LinkGraph.initBlockAux
    simp only
    rw [if_neg hne]
    exact ⟨_, rfl, rfl⟩
  obtain ⟨aux, haux, hanchors⟩ := hinit
  exact ⟨(b, aux), List.mem_flatMap.mpr ⟨S, List.mem_filter.mpr ⟨hS, hexec⟩,
    List.mem_filterMap.mpr ⟨b, hb, haux⟩⟩, rfl, hanchors⟩

/-- **The first pass starts with all anchors in their places.** -/
theorem initRelaxAux_all (hwf : G.WellFormed) :
    ∀ p ∈ G.initRelaxAux, Shaped p.2 ∧ AllStand G p.2 := fun p hp => by
  obtain ⟨S, _, _, _, hanchors, _, hdeltas⟩ := mem_initRelaxAux hp
  refine ⟨⟨?_, ?_, by rw [hdeltas, List.length_replicate]⟩, fun a ha => ?_⟩
  · rw [hanchors]
    exact anchorsOf_sorted G S p.1
  · rw [hanchors]
    exact anchorsOf_consistent fun d => (hwf.symbols d).2
  · rw [hanchors] at ha
    have hoff := (mem_anchorsOf_iff.mp ha).2.2
    unfold Stands
    rw [hdeltas, deltaAt_zero]
    split
    · rename_i hend
      rw [if_pos hend] at hoff
      omega
    · rename_i hstart
      rw [if_neg hstart] at hoff
      omega

theorem initRelaxAux_separate {blocks : List (BlockId × BlockRelaxAux)}
    (hnodup : (blocks.map Prod.fst).Nodup) (hmem : ∀ p ∈ blocks, p ∈ G.initRelaxAux) :
    Separate blocks := by
  have hkeys : blocks.Pairwise fun p q => p.1 ≠ q.1 := List.pairwise_map.mp hnodup
  refine hkeys.imp_of_mem fun {p q} hp hq hne a ha a' ha' hsym => hne ?_
  obtain ⟨S, _, _, _, hanchors, _⟩ := mem_initRelaxAux (hmem p hp)
  obtain ⟨S', _, _, _, hanchors', _⟩ := mem_initRelaxAux (hmem q hq)
  rw [hanchors] at ha
  rw [hanchors'] at ha'
  have hbase := (mem_anchorsOf_iff.mp ha).2.1
  have hbase' := (mem_anchorsOf_iff.mp ha').2.1
  rw [hsym, hbase] at hbase'
  exact Addressable.block.inj hbase'

end Init

/-! ## The decisions of the last pass -/

section Decisions

variable {G : LinkGraph} {b : Block}

theorem DecidedAt.decided : ∀ {es : List Edge} {zs : List Decision} {acc : Nat},
    DecidedAt G b acc es zs → (∀ e ∈ es, e.Even b.address) → acc % 2 = 0 →
      List.Forall₂ Decided es zs
  | [], [], _, _, _, _ => .nil
  | e :: es, z :: zs, acc, h, heven, hacc => by
    obtain ⟨hz, hrest⟩ := h
    have hdec : Decided e z := relaxEdge_decided hz fun hkind => by
      obtain ⟨hadd, hmod, hloc⟩ := heven e List.mem_cons_self hkind
      exact ⟨hadd, hmod, by omega⟩
    have hremove := hdec.even
    exact .cons hdec (hrest.decided (fun e' he' => heven e' (List.mem_cons_of_mem e he'))
      (by omega))

/-- Every decision is about the place that its edge has in the end. -/
theorem DecidedAt.at_gone {size : Nat} : ∀ {es : List Edge} {zs : List Decision} {acc pos : Nat},
    DecidedAt G b acc es zs → List.Forall₂ Decided es zs → Apart size pos es →
    ∀ e z, (e, z) ∈ es.zip zs →
      G.relaxEdge b (b.address + e.offset - (acc + gone e.offset (cuts es zs) : Nat)) e = some z
  | [], [], _, _, _, _, _ => fun _ _ hp => absurd hp List.not_mem_nil
  | e :: es, z :: zs, acc, pos, h, hdec, hapart => fun e' z' hp => by
    obtain ⟨hz, hrest⟩ := h
    obtain ⟨hd, hdec'⟩ := List.forall₂_cons.mp hdec
    have htail := hapart.tail hd.span
    rw [cuts_cons]
    rcases List.mem_cons.mp hp with heq | hp
    · obtain ⟨rfl, rfl⟩ := Prod.mk.inj heq
      have hstart : ¬ (cut e' z').start < e'.offset := Nat.lt_irrefl _
      rw [gone_cons, if_neg hstart, (cuts_fit hdec' htail).gone_eq_zero (Nat.le_add_right _ _)]
      exact hz
    · have hnext := (List.pairwise_cons.mp hapart.apart).1 e' (List.of_mem_zip hp).1
      rw [gone_cut_cons hd hnext, ← Nat.add_assoc]
      exact hrest.at_gone hdec' htail e' z' hp

/-- What is lost before the end of an edge's bytes, and before their start. -/
theorem gone_behind {size : Nat} : ∀ {es : List Edge} {zs : List Decision} {pos : Nat},
    List.Forall₂ Decided es zs → Apart size pos es → ∀ e z, (e, z) ∈ es.zip zs →
      gone (e.offset + e.width) (cuts es zs) = gone e.offset (cuts es zs) + z.remove
  | [], _, _, _, _ => fun _ _ hp => absurd hp List.not_mem_nil
  | e :: es, [], _, _, _ => fun _ _ hp => absurd hp List.not_mem_nil
  | e :: es, z :: zs, pos, hdec, hapart => fun e' z' hp => by
    obtain ⟨hd, hdec'⟩ := List.forall₂_cons.mp hdec
    have htail := hapart.tail (Nat.le_refl e.width)
    rw [cuts_cons]
    rcases List.mem_cons.mp hp with heq | hp
    · obtain ⟨rfl, rfl⟩ := Prod.mk.inj heq
      have hstart : ¬ (cut e' z').start < e'.offset := Nat.lt_irrefl _
      have hfit := cuts_fit hdec' htail
      rw [gone_cut_cons hd (Nat.le_refl _), gone_cons, if_neg hstart,
        hfit.gone_eq_zero (Nat.le_refl _), hfit.gone_eq_zero (Nat.le_add_right _ _)]
      omega
    · have hnext := (List.pairwise_cons.mp hapart.apart).1 e' (List.of_mem_zip hp).1
      rw [gone_cut_cons hd hnext, gone_cut_cons hd (hnext.trans (Nat.le_add_right _ _)),
        gone_behind hdec' htail e' z' hp, Nat.add_assoc]

end Decisions

/-! ## The rewritten graph -/

theorem finalizeRelax_spec : ∀ {blocks : List (BlockId × BlockRelaxAux)} {G : LinkGraph},
    (blocks.map Prod.fst).Nodup →
    (∀ p ∈ blocks, ∃ block, finalizeBlockRelax (G.block p.1) p.2 = some block) →
    ∃ block', LinkGraph.finalizeRelax blocks G = some { G with block := block' } ∧
      (∀ p ∈ blocks, finalizeBlockRelax (G.block p.1) p.2 = some (block' p.1)) ∧
      ∀ b, b ∉ blocks.map Prod.fst → block' b = G.block b
  | [], G, _, _ => ⟨G.block, rfl, fun p hp => absurd hp List.not_mem_nil, fun _ _ => rfl⟩
  | (b, aux) :: rest, G, hnodup, h => by
    obtain ⟨hb, hnodup'⟩ := List.nodup_cons.mp hnodup
    obtain ⟨block, hblock⟩ := h _ List.mem_cons_self
    have hother : ∀ p ∈ rest, Function.update G.block b block p.1 = G.block p.1 := fun p hp => by
      refine Function.update_of_ne (fun heq => hb ?_) _ _
      exact List.mem_map.mpr ⟨p, hp, heq⟩
    obtain ⟨block', hrest, hdone, hkeep⟩ := finalizeRelax_spec
      (G := { G with block := Function.update G.block b block }) hnodup' fun p hp => by
        obtain ⟨block₁, hblock₁⟩ := h p (List.mem_cons_of_mem _ hp)
        exact ⟨block₁, by simp only [hother p hp]; exact hblock₁⟩
    refine ⟨block', ?_, fun p hp => ?_, fun b' hb' => ?_⟩
    · rw [LinkGraph.finalizeRelax, hblock, Option.bind_some]
      exact hrest
    · rcases List.mem_cons.mp hp with rfl | hp
      · have hself : block' b = block := (hkeep b hb).trans (Function.update_self _ _ _)
        rw [hself]
        exact hblock
      · have hp' := hdone p hp
        simp only [hother p hp] at hp'
        exact hp'
    · rw [List.map_cons, List.mem_cons, not_or] at hb'
      rw [hkeep b' hb'.2]
      exact Function.update_of_ne hb'.1 _ _

/-- **Block `b` of section `S` is relaxed exactly**, by decisions `zs`: the old bytes outside the
cuts are kept, every decision's bytes stand in its place, every edge and both ends of every symbol
have moved by what is cut before them, every call that was relaxed reaches its target from where it
stands, and every padding is cut to the least that aligns the instruction behind it. -/
structure RelaxedExactly (G G' : LinkGraph) (S : Section) (b : BlockId) (zs : List Decision) :
    Prop where
  fits : PatchesFit (G.block b).content.length 0 ((G.block b).cuts zs)
  block : G'.block b = (G.block b).relaxed zs
  kept : ∀ o < (G.block b).content.length, Outside o ((G.block b).cuts zs) →
    (G'.block b).content[o - gone o ((G.block b).cuts zs)]? = (G.block b).content[o]?
  replaced : ∀ p ∈ (G.block b).cuts zs, ∀ k < p.bytes.length,
    (G'.block b).content[p.start - gone p.start ((G.block b).cuts zs) + k]? = p.bytes[k]?
  calls : ∀ e z, (e, z) ∈ (G.block b).relaxEdges.zip zs → e.kind = .callRelaxable →
    ∃ jalr, readAt (G.block b).content (e.offset + 4) 4 = some jalr ∧
      CallForm G' (G'.displace
        ((G'.block b).address + e.offset - gone e.offset ((G.block b).cuts zs)) e) (Rv.rd jalr) z
  padding : ∀ e z, (e, z) ∈ (G.block b).relaxEdges.zip zs → e.kind = .alignRelaxable →
    PaddingForm ((G'.block b).address + e.offset - gone e.offset ((G.block b).cuts zs)) e z
  aligned : ∀ e z, (e, z) ∈ (G.block b).relaxEdges.zip zs → e.kind = .alignRelaxable →
    (nextPowerOf2 e.addend : Int) ∣ (G'.block b).address + (e.offset + e.addend) -
      gone (e.offset + e.addend.toNat) ((G.block b).cuts zs)
  symbols : ∀ d ∈ S.symbols, (G.sym d).base = .block b →
    let start := (G.sym d).offset
    let stop := start + (G.sym d).size
    (G'.sym d).base = .block b ∧
      (G'.sym d).offset = start - gone start.toNat ((G.block b).cuts zs) ∧
      (G'.sym d).offset + (G'.sym d).size = stop - gone stop.toNat ((G.block b).cuts zs)

theorem relaxed_kept {b : Block} {zs : List Decision}
    (hfit : PatchesFit b.content.length 0 (b.cuts zs)) {o : Nat} (ho : o < b.content.length)
    (hout : Outside o (b.cuts zs)) :
    (b.relaxed zs).content[o - gone o (b.cuts zs)]? = b.content[o]? := by
  have hkept := splice_kept hfit (Nat.zero_le o) hout
  rw [Nat.sub_zero, List.getElem?_eq_getElem ho] at hkept
  obtain ⟨hlt, _⟩ := List.getElem?_eq_some_iff.mp hkept
  rw [Block.relaxed, List.getElem?_append_left hlt, hkept, List.getElem?_eq_getElem ho]

theorem relaxed_replaced {b : Block} {zs : List Decision}
    (hfit : PatchesFit b.content.length 0 (b.cuts zs)) {p : Patch UInt8} (hp : p ∈ b.cuts zs)
    {k : Nat} (hk : k < p.bytes.length) :
    (b.relaxed zs).content[p.start - gone p.start (b.cuts zs) + k]? = p.bytes[k]? := by
  have hpatched := splice_patched hfit p hp k hk
  rw [Nat.sub_zero, List.getElem?_eq_getElem hk] at hpatched
  obtain ⟨hlt, _⟩ := List.getElem?_eq_some_iff.mp hpatched
  rw [Block.relaxed, List.getElem?_append_left hlt, hpatched, List.getElem?_eq_getElem hk]

variable {G : LinkGraph}

/-- A call's form depends on the features and the displacement only. -/
theorem CallForm.congr {G' : LinkGraph} {d : Int} {rd : Nat} {z : Decision} (h : CallForm G d rd z)
    (hrvc : G'.hasRVC = G.hasRVC) (h32 : G'.isRV32 = G.isRV32) : CallForm G' d rd z := by
  cases h with
  | cj h₁ h₂ h₃ => exact .cj (hrvc.trans h₁) h₂ h₃
  | cjal h₁ h₂ h₃ h₄ => exact .cjal (hrvc.trans h₁) (h32.trans h₂) h₃ h₄
  | jal h => exact .jal h
  | stays => exact .stays

/-- The block of a settled entry is rewritten as decided. -/
theorem settled_finalized {b : Block} {aux : BlockRelaxAux} (hwf : b.WellFormed)
    (hedges : aux.relaxEdges = b.relaxEdges) (hsettled : Settled G b aux) :
    ∃ zs, DecidedAt G b 0 b.relaxEdges zs ∧ List.Forall₂ Decided b.relaxEdges zs ∧
      aux.relocDeltas = recordDeltas 0 zs ∧ finalizeBlockRelax b aux = some (b.relaxed zs) := by
  obtain ⟨zs, hdecided, hdeltas, hkinds, hwrites⟩ := hsettled
  rw [hedges] at hdecided
  have hdec := hdecided.decided (fun e he => hwf.even e (List.mem_filter.mp he).1) rfl
  exact ⟨zs, hdecided, hdec, hdeltas,
    finalizeBlockRelax_spec hwf hdec hedges hdeltas hkinds hwrites⟩

/-- Rewriting blocks where they stand changes no displacement. -/
theorem displace_rewritten {block' : BlockId → Block}
    (haddr : ∀ b, (block' b).address = (G.block b).address) (loc : Int) (e : Edge) :
    LinkGraph.displace { G with block := block' } loc e = G.displace loc e := by
  have hdest : LinkGraph.getAddress { G with block := block' } e.target =
    G.getAddress e.target := by
    unfold LinkGraph.getAddress
    simp only
    cases (G.sym e.target).base with
    | block b => simp only [haddr b]
    | fixed address => rfl
  rw [LinkGraph.displace, LinkGraph.displace, hdest]

/-- Where the ends of a symbol are, its anchors being in their places. -/
theorem ends_of_allStand {G₁ : LinkGraph} {S : Section} {b : BlockId} {aux : BlockRelaxAux}
    (hstand : AllStand G₁ aux) (hanchors : aux.anchors = G.anchorsOf S b) {d : SymId}
    (hd : d ∈ S.symbols) (hbase : (G.sym d).base = .block b) :
    let δ := deltaAt aux.relaxEdges aux.relocDeltas 0
    let start := (G.sym d).offset
    let stop := start + (G.sym d).size
    (G₁.sym d).offset = start - δ start ∧
      (G₁.sym d).offset + (G₁.sym d).size = stop - δ stop := by
  have hstart := hstand ⟨(G.sym d).offset, d, false⟩ (by
    rw [hanchors, mem_anchorsOf_iff]
    exact ⟨hd, hbase, by simp⟩)
  have hend := hstand ⟨(G.sym d).offset + (G.sym d).size, d, true⟩ (by
    rw [hanchors, mem_anchorsOf_iff]
    exact ⟨hd, hbase, by simp⟩)
  simp only [Stands, if_true, Bool.false_eq_true, if_false] at hstart hend
  refine ⟨hstart, ?_⟩
  rw [hend]
  omega

/-- A block is relaxed exactly where its anchors stand and its decisions are settled. -/
theorem relaxedExactly_of_settled {G₁ : LinkGraph} {S : Section} {b : BlockId} {aux : BlockRelaxAux}
    {zs : List Decision} {block' : BlockId → Block} (hwf : (G.block b).WellFormed)
    (hsym : ∀ d, 0 ≤ (G.sym d).offset ∧ 0 ≤ (G.sym d).size) (hmoved : Moved G G₁)
    (hanchors : aux.anchors = G.anchorsOf S b) (hedges : aux.relaxEdges = (G.block b).relaxEdges)
    (hstand : AllStand G₁ aux) (hdeltas : aux.relocDeltas = recordDeltas 0 zs)
    (hdecided : DecidedAt G₁ (G.block b) 0 (G.block b).relaxEdges zs)
    (hdec : List.Forall₂ Decided (G.block b).relaxEdges zs)
    (hblock : block' b = (G.block b).relaxed zs)
    (haddr : ∀ c, (block' c).address = (G₁.block c).address) :
    RelaxedExactly G { G₁ with block := block' } S b zs := by
  have hapart := hwf.relaxEdges_apart
  have hfit := cuts_fit hdec hapart
  have haddress : (block' b).address = (G.block b).address := by rw [hblock]; rfl
  have hgone : ∀ o : Nat, deltaAt aux.relaxEdges aux.relocDeltas 0 o =
    gone o ((G.block b).cuts zs) :=
    fun o => by
      rw [hedges, hdeltas, deltaAt_recordDeltas hdec o hapart, Nat.zero_add]
      rfl
  have hat : ∀ e z, (e, z) ∈ (G.block b).relaxEdges.zip zs →
      G₁.relaxEdge (G.block b) ((block' b).address + e.offset -
        gone e.offset ((G.block b).cuts zs)) e = some z := fun e z hp => by
    have hz := hdecided.at_gone hdec hapart e z hp
    rw [Nat.zero_add] at hz
    rw [haddress]
    exact hz
  have hpadding : ∀ e z, (e, z) ∈ (G.block b).relaxEdges.zip zs → e.kind = .alignRelaxable →
      PaddingForm ((block' b).address + e.offset - gone e.offset ((G.block b).cuts zs)) e z :=
    fun e z hp hkind => by
      have hz := hat e z hp
      rw [LinkGraph.relaxEdge, hkind] at hz
      exact (relaxAlign_form hz).1
  refine
    { fits := hfit
      block := hblock
      kept := fun o ho hout => ?_
      replaced := fun p hp k hk => ?_
      calls := fun e z hp hkind => ?_
      padding := hpadding
      aligned := fun e z hp hkind => ?_
      symbols := fun d hd hbase => ?_ }
  · simp only [hblock]
    exact relaxed_kept hfit ho hout
  · simp only [hblock]
    exact relaxed_replaced hfit hp hk
  · have hz := hat e z hp
    rw [LinkGraph.relaxEdge, hkind] at hz
    obtain ⟨jalr, hread, hform⟩ := relaxCall_form hz
    refine ⟨jalr, hread, ?_⟩
    rw [displace_rewritten haddr]
    exact hform.congr rfl rfl
  · -- the instruction behind the padding has moved by the padding's own bytes as well
    have hform := hpadding e z hp hkind
    have hwidth : e.width = e.addend.toNat := by rw [Edge.width, hkind]
    have hbehind : gone (e.offset + e.width) ((G.block b).cuts zs) =
        gone e.offset ((G.block b).cuts zs) + z.remove := gone_behind hdec hapart e z hp
    have haligns := hform.aligns
    rw [← hwidth, hbehind]
    have heq : ((block' b).address : Int) + (e.offset + e.addend) -
        (gone e.offset ((G.block b).cuts zs) + z.remove : Nat) =
          (block' b).address + e.offset - gone e.offset ((G.block b).cuts zs) +
            (e.addend - z.remove) := by omega
    rw [heq]
    exact haligns
  · obtain ⟨hoffset, hsize⟩ := hsym d
    obtain ⟨hstart, hstop⟩ := ends_of_allStand hstand hanchors hd hbase
    have hgone₁ := hgone (G.sym d).offset.toNat
    have hgone₂ := hgone ((G.sym d).offset + (G.sym d).size).toNat
    rw [Int.toNat_of_nonneg hoffset] at hgone₁
    rw [Int.toNat_of_nonneg (by omega)] at hgone₂
    rw [hgone₁] at hstart
    rw [hgone₂] at hstop
    exact ⟨(hmoved.base d).trans hbase, hstart, hstop⟩

theorem keys_of_fixedPart {blocks blocks₁ : List (BlockId × BlockRelaxAux)}
    (h : blocks₁.map fixedPart = blocks.map fixedPart) :
    blocks₁.map Prod.fst = blocks.map Prod.fst := by
  have hmap := congrArg (List.map Prod.fst) h
  rw [List.map_map, List.map_map] at hmap
  exact hmap

/-- An entry in the end is that of a block, with the edges it started with, and the block is
rewritten as decided. -/
theorem entry_finalized {G₁ : LinkGraph} {blocks blocks₁ : List (BlockId × BlockRelaxAux)}
    (hwf : G.WellFormed) (hmem : ∀ p ∈ blocks, p ∈ G.initRelaxAux) (hmoved : Moved G G₁)
    (hfixed : blocks₁.map fixedPart = blocks.map fixedPart) {p : BlockId × BlockRelaxAux}
    (hp : p ∈ blocks₁) (hsettled : Settled G₁ (G₁.block p.1) p.2) :
    ∃ zs, DecidedAt G₁ (G.block p.1) 0 (G.block p.1).relaxEdges zs ∧
      List.Forall₂ Decided (G.block p.1).relaxEdges zs ∧ p.2.relocDeltas = recordDeltas 0 zs ∧
      p.2.relaxEdges = (G.block p.1).relaxEdges ∧
      finalizeBlockRelax (G₁.block p.1) p.2 = some ((G.block p.1).relaxed zs) := by
  have hp' : fixedPart p ∈ blocks.map fixedPart := hfixed ▸ List.mem_map_of_mem hp
  obtain ⟨q, hq, heq⟩ := List.mem_map.mp hp'
  have hkey : q.1 = p.1 := congrArg (fun t => t.1) heq
  have hsame : q.2.relaxEdges = p.2.relaxEdges := congrArg (fun t => t.2.2) heq
  obtain ⟨S, _, _, _, _, hedges, _⟩ := mem_initRelaxAux (hmem q hq)
  have hblk := hwf.blocks q (hmem q hq)
  rw [hsame, hkey] at hedges
  rw [hkey] at hblk
  rw [hmoved.block] at hsettled ⊢
  obtain ⟨zs, hdecided, hdec, hdeltas, hfin⟩ := settled_finalized hblk hedges hsettled
  exact ⟨zs, hdecided, hdec, hdeltas, hedges, hfin⟩

/-- A call of the `nop` behind it, with a padding of two bytes between them. -/
def paddedCall : LinkGraph where
  isRV32 := false
  hasRVC := true
  sections := [⟨true, [0], [0]⟩]
  block := fun _ =>
    { address := 0x1000
      content := [0x97, 0x00, 0x00, 0x00, 0xe7, 0x80, 0x00, 0x00, 0x01, 0x00, 0x13, 0x00,
        0x00, 0x00]
      edges := [⟨.callRelaxable, 0, 0, 0⟩, ⟨.alignRelaxable, 8, 0, 2⟩] }
  sym := fun _ => ⟨.block 0, 10, 4⟩

/-- A call with a label on its second instruction. -/
def labelledCall : LinkGraph :=
  { paddedCall with
    sections := [⟨true, [0], [0, 1]⟩]
    sym := fun d => if d = 0 then ⟨.block 0, 10, 4⟩ else ⟨.block 0, 4, 0⟩ }

end RvLlvm.JitLink.Relax
