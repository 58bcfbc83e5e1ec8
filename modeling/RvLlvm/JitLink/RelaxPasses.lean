import RvLlvm.JitLink.RelaxBlock

/-!
# Passes of relaxation in the JIT linker

The loop of `relax` (`llvm/lib/ExecutionEngine/JITLink/ELF_riscv.cpp:641-701,803-808`). A pass
leaves every anchor where the deltas it records put it (`Stands`), whatever was decided before; so
the pass that changes nothing leaves every symbol where it was, and all its decisions are about
final addresses (`Settled`).

* `relaxLoop_run`, `relaxOnce_run`: what any pass leaves.
* `relaxLoop_settled`, `relaxOnce_settled`: what the last pass leaves.
* `relaxUntil_run`: what holds where the loop stops.
-/

namespace RvLlvm.JitLink.Relax

open RvLlvm.Support
open RvLlvm.Lld (le16 le32 nops alignTo)
open RvLlvm.Lld.Link (anchorLe AnchorsSorted passed ahead mem_passed mem_ahead ahead_sorted
  passed_append_ahead anchorLe_iff)

/-! ## Moving anchors -/

/-- `G'` is `G` with the ends of symbols moved. -/
structure Moved (G G' : LinkGraph) : Prop where
  isRV32 : G'.isRV32 = G.isRV32
  hasRVC : G'.hasRVC = G.hasRVC
  block : G'.block = G.block
  base : ∀ d, (G'.sym d).base = (G.sym d).base

theorem Moved.refl (G : LinkGraph) : Moved G G := ⟨rfl, rfl, rfl, fun _ => rfl⟩

theorem Moved.trans {G G' G'' : LinkGraph} (h : Moved G G') (h' : Moved G' G'') : Moved G G'' :=
  ⟨h'.isRV32.trans h.isRV32, h'.hasRVC.trans h.hasRVC, h'.block.trans h.block,
    fun d => (h'.base d).trans (h.base d)⟩

/-- Anchor `a` is where `δ` puts it, that many bytes being gone before an offset. -/
def Stands (δ : Int → Nat) (G : LinkGraph) (a : SymbolAnchor) : Prop :=
  if a.atEnd then (G.sym a.sym).size = a.offset - δ a.offset - (G.sym a.sym).offset
  else (G.sym a.sym).offset = a.offset - δ a.offset

/-- Every anchor moved by the bytes `δ` says are gone before its offset. -/
def moveAll (δ : Int → Nat) (as : List SymbolAnchor) (G : LinkGraph) : LinkGraph :=
  as.foldl (fun G a => G.moveAnchor (δ a.offset) a) G

/-- The anchors of a symbol agree, and its start comes first. -/
def Consistent (as : List SymbolAnchor) : Prop :=
  as.Pairwise fun a b => a.sym = b.sym →
    (a.atEnd = b.atEnd → a.offset = b.offset) ∧ (a.atEnd = true → b.atEnd = true)

section Anchors

variable {δ δ' : Int → Nat} {G G' : LinkGraph} {a b : SymbolAnchor} {as : List SymbolAnchor}

theorem stands_congr (hsym : G'.sym a.sym = G.sym a.sym) (hδ : δ' a.offset = δ a.offset) :
    Stands δ' G' a ↔ Stands δ G a := by
  unfold Stands
  rw [hsym, hδ]

theorem moveAnchor_other {delta : Nat} {d : SymId} (h : a.sym ≠ d) :
    (G.moveAnchor delta a).sym d = G.sym d :=
  Function.update_of_ne (Ne.symm h) _ _

theorem moveAnchor_self (delta : Nat) (G : LinkGraph) (a : SymbolAnchor) :
    (G.moveAnchor delta a).sym a.sym =
      if a.atEnd then { G.sym a.sym with size := a.offset - delta - (G.sym a.sym).offset }
      else { G.sym a.sym with offset := a.offset - delta } :=
  Function.update_self _ _ _

theorem moveAnchor_moved (delta : Nat) (G : LinkGraph) (a : SymbolAnchor) :
    Moved G (G.moveAnchor delta a) := by
  refine ⟨rfl, rfl, rfl, fun d => ?_⟩
  by_cases h : a.sym = d
  · rw [← h, moveAnchor_self]
    split <;> rfl
  · rw [moveAnchor_other h]

theorem moveAll_moved (δ : Int → Nat) : ∀ (as : List SymbolAnchor) (G : LinkGraph),
    Moved G (moveAll δ as G)
  | [], G => Moved.refl G
  | a :: as, G => (moveAnchor_moved (δ a.offset) G a).trans (moveAll_moved δ as _)

theorem moveAll_other {d : SymId} : ∀ {as : List SymbolAnchor} {G : LinkGraph},
    (∀ a ∈ as, a.sym ≠ d) → (moveAll δ as G).sym d = G.sym d
  | [], _, _ => rfl
  | a :: as, G, h => by
    have hrest : (moveAll δ as (G.moveAnchor (δ a.offset) a)).sym d = _ :=
      moveAll_other fun b hb => h b (List.mem_cons_of_mem a hb)
    exact hrest.trans (moveAnchor_other (h a List.mem_cons_self))

theorem moveAll_append (δ : Int → Nat) (as bs : List SymbolAnchor) (G : LinkGraph) :
    moveAll δ (as ++ bs) G = moveAll δ bs (moveAll δ as G) :=
  List.foldl_append

theorem moveAll_congr : ∀ {as : List SymbolAnchor} {G : LinkGraph},
    (∀ a ∈ as, δ a.offset = δ' a.offset) → moveAll δ as G = moveAll δ' as G
  | [], _, _ => rfl
  | a :: as, G, h => by
    have hrest : moveAll δ as (G.moveAnchor (δ a.offset) a) =
        moveAll δ' as (G.moveAnchor (δ a.offset) a) :=
      moveAll_congr fun b hb => h b (List.mem_cons_of_mem a hb)
    unfold moveAll at hrest ⊢
    rw [List.foldl_cons, List.foldl_cons, hrest, h a List.mem_cons_self]

/-- An anchor in its place is not moved. -/
theorem moveAnchor_of_stands (h : Stands δ G a) : G.moveAnchor (δ a.offset) a = G := by
  have hself : (if a.atEnd = true then
      { G.sym a.sym with size := a.offset - δ a.offset - (G.sym a.sym).offset }
      else { G.sym a.sym with offset := a.offset - δ a.offset }) = G.sym a.sym := by
    unfold Stands at h
    split at h
    · rename_i hend
      rw [if_pos hend, ← h]
    · rename_i hend
      rw [if_neg hend, ← h]
  unfold LinkGraph.moveAnchor
  simp only
  rw [hself, Function.update_eq_self]

theorem moveAll_of_stands : ∀ {as : List SymbolAnchor}, (∀ a ∈ as, Stands δ G a) →
    moveAll δ as G = G
  | [], _ => rfl
  | a :: as, h => by
    have hrest := moveAll_of_stands fun b hb => h b (List.mem_cons_of_mem a hb)
    unfold moveAll at hrest ⊢
    rw [List.foldl_cons, moveAnchor_of_stands (h a List.mem_cons_self)]
    exact hrest

theorem stands_moveAnchor (δ : Int → Nat) (G : LinkGraph) (a : SymbolAnchor) :
    Stands δ (G.moveAnchor (δ a.offset) a) a := by
  unfold Stands
  rw [moveAnchor_self]
  cases a.atEnd <;> simp

/-- An anchor stays in its place when a later one is moved. -/
theorem Stands.moveAnchor (h : Stands δ G a) (hpair : a.sym = b.sym →
    (a.atEnd = b.atEnd → a.offset = b.offset) ∧ (a.atEnd = true → b.atEnd = true)) :
    Stands δ (G.moveAnchor (δ b.offset) b) a := by
  by_cases hsym : a.sym = b.sym
  · obtain ⟨hsame, hend⟩ := hpair hsym
    unfold Stands at h ⊢
    rw [hsym, moveAnchor_self]
    rw [hsym] at h
    cases ha : a.atEnd with
    | true =>
      have hoff := hsame (ha.trans (hend ha).symm)
      simp [hend ha, hoff]
    | false =>
      cases hb : b.atEnd with
      | true => simpa [ha] using h
      | false => simp [hsame (ha.trans hb.symm)]
  · exact (stands_congr (moveAnchor_other (Ne.symm hsym)) rfl).mpr h

/-- **Once all anchors are moved, all stand.** -/
theorem moveAll_stands (hcons : Consistent as) : ∀ a ∈ as, Stands δ (moveAll δ as G) a := by
  induction as using List.reverseRecOn with
  | nil => exact fun a ha => absurd ha List.not_mem_nil
  | append_singleton as b ih =>
    obtain ⟨hcons', _, hcross⟩ := List.pairwise_append.mp hcons
    have hlast : moveAll δ (as ++ [b]) G = (moveAll δ as G).moveAnchor (δ b.offset) b :=
      moveAll_append δ as [b] G
    intro a ha
    rw [hlast]
    rcases List.mem_append.mp ha with ha | ha
    · exact (ih hcons' a ha).moveAnchor (hcross a ha b (List.mem_singleton.mpr rfl))
    · obtain rfl := List.mem_singleton.mp ha
      exact stands_moveAnchor _ _ _

end Anchors

/-! ## The delta before an offset -/

/-- The delta recorded last before offset `o`. -/
def deltaAt : List Edge → List Nat → Nat → Int → Nat
  | e :: es, d :: ds, acc, o => if o ≤ (e.offset : Int) then acc else deltaAt es ds d o
  | _, _, acc, _ => acc

theorem deltaAt_nil (ds : List Nat) (acc : Nat) (o : Int) : deltaAt [] ds acc o = acc := by
  cases ds <;> rfl

theorem deltaAt_zero : ∀ (es : List Edge) (n : Nat) (o : Int),
    deltaAt es (List.replicate n 0) 0 o = 0
  | [], n, o => deltaAt_nil _ _ _
  | _ :: _, 0, _ => rfl
  | e :: es, n + 1, o => by
    rw [List.replicate_succ, deltaAt, deltaAt_zero es n o]
    exact ite_self 0

/-- It is what the cuts lose before the offset. -/
theorem deltaAt_recordDeltas {size : Nat} {es : List Edge} {zs : List Decision}
    (hdec : List.Forall₂ Decided es zs) (o : Nat) : ∀ {pos acc : Nat}, Apart size pos es →
      deltaAt es (recordDeltas acc zs) acc o = acc + gone o (cuts es zs) := by
  induction hdec with
  | nil => exact fun _ => rfl
  | @cons e z es zs hz hdec ih =>
    intro pos acc hapart
    have htail := hapart.tail hz.span
    rw [recordDeltas, deltaAt, cuts_cons, gone_cons, cut_lost]
    by_cases ho : o ≤ e.offset
    · have hrest := (cuts_fit hdec htail).gone_eq_zero (x := o) (by omega)
      have hnot : ¬ (cut e z).start < o := Nat.not_lt_of_le ho
      rw [if_pos (by omega), if_neg hnot, hrest]
      omega
    · have hlt : (cut e z).start < o := Nat.lt_of_not_le ho
      rw [if_neg (by omega), if_pos hlt, ih htail, Nat.add_assoc]

/-! ## A pass over a block -/

/-- The decisions for the edges left, taken in `G` with `acc` bytes given up before them. -/
def DecidedAt (G : LinkGraph) (b : Block) : Nat → List Edge → List Decision → Prop
  | _, [], [] => True
  | acc, e :: es, z :: zs =>
    G.relaxEdge b (b.address + e.offset - acc) e = some z ∧ DecidedAt G b (acc + z.remove) es zs
  | _, _, _ => False

section Block

variable {b : Block} {es : List Edge} {olds : List Nat} {x y : Walk}

theorem relaxLoop_cons {e : Edge} {old : Nat}
    (h : relaxLoop b (e :: es) (old :: olds) x = some y) :
    ∃ z x₁, x.graph.relaxEdge b (b.address + e.offset - x.delta) e = some z ∧
      x₁ = { graph := moveAll (fun _ => x.delta) (passed x.anchors e.offset) x.graph
             delta := x.delta + z.remove
             anchors := ahead x.anchors e.offset
             deltas := x.deltas ++ [x.delta + z.remove]
             kinds := x.kinds ++ [z.kind]
             writes := x.writes ++ z.writes
             changed := x.changed || x.delta + z.remove != old } ∧
      relaxLoop b es olds x₁ = some y := by
  rw [relaxLoop, List.headD_cons, List.tail_cons] at h
  obtain ⟨x₁, hstep, hrest⟩ := Option.bind_eq_some_iff.mp h
  obtain ⟨z, hz, hx₁⟩ := Option.map_eq_some_iff.mp hstep
  exact ⟨z, x₁, hz, hx₁.symm, hrest⟩

/-- **The walk over a block moves every anchor once**, by the bytes given up before its offset. -/
theorem relaxLoop_run : ∀ {es : List Edge} {olds : List Nat} {x : Walk}, olds.length = es.length →
    AnchorsSorted x.anchors → relaxLoop b es olds x = some y →
    ∃ ds, ds.length = es.length ∧ y.deltas = x.deltas ++ ds ∧
      y.anchors.foldl (LinkGraph.moveAnchor y.delta) y.graph =
        moveAll (deltaAt es ds x.delta) x.anchors x.graph
  | [], [], x, _, _, h => by
    obtain rfl := Option.some.inj h
    exact ⟨[], rfl, (List.append_nil _).symm, rfl⟩
  | e :: es, old :: olds, x, hlen, hsorted, h => by
    obtain ⟨z, x₁, _, rfl, hrest⟩ := relaxLoop_cons h
    obtain ⟨ds, hds, hdeltas, hgraph⟩ := relaxLoop_run (by simpa using hlen)
      (ahead_sorted hsorted e.offset) hrest
    refine ⟨(x.delta + z.remove) :: ds, by rw [List.length_cons, List.length_cons, hds], ?_, ?_⟩
    · rw [hdeltas, List.append_assoc, List.singleton_append]
    · have hpassed : moveAll (deltaAt (e :: es) ((x.delta + z.remove) :: ds) x.delta)
          (passed x.anchors e.offset) x.graph =
            moveAll (fun _ => x.delta) (passed x.anchors e.offset) x.graph :=
        moveAll_congr fun a ha => if_pos (mem_passed ha).2
      conv_rhs => rw [← passed_append_ahead x.anchors e.offset]
      rw [hgraph, moveAll_append, hpassed]
      exact moveAll_congr fun a ha => (if_neg (not_le.mpr (mem_ahead hsorted ha).2)).symm

theorem relaxLoop_changed : ∀ {es : List Edge} {olds : List Nat} {x : Walk},
    olds.length = es.length → relaxLoop b es olds x = some y → y.changed = false →
      x.changed = false
  | [], [], x, _, h, hy => by
    obtain rfl := Option.some.inj h
    exact hy
  | e :: es, old :: olds, x, hlen, h, hy => by
    obtain ⟨z, x₁, _, rfl, hrest⟩ := relaxLoop_cons h
    have hchanged := relaxLoop_changed (by simpa using hlen) hrest hy
    exact (Bool.or_eq_false_iff.mp hchanged).1

/-- What a walk records that changes nothing, in a graph where all anchors stand. -/
structure Kept (b : Block) (es : List Edge) (olds : List Nat) (x y : Walk) (zs : List Decision) :
    Prop where
  decided : DecidedAt x.graph b x.delta es zs
  olds : olds = recordDeltas x.delta zs
  deltas : y.deltas = x.deltas ++ recordDeltas x.delta zs
  kinds : y.kinds = x.kinds ++ zs.map Decision.kind
  writes : y.writes = x.writes ++ zs.flatMap Decision.writes
  graph : y.anchors.foldl (LinkGraph.moveAnchor y.delta) y.graph = x.graph

/-- **A walk that changes nothing moves nothing**: all of it was decided where the code stands. -/
theorem relaxLoop_settled : ∀ {es : List Edge} {olds : List Nat} {x : Walk},
    olds.length = es.length → AnchorsSorted x.anchors →
    (∀ a ∈ x.anchors, Stands (deltaAt es olds x.delta) x.graph a) →
    relaxLoop b es olds x = some y → y.changed = false → ∃ zs, Kept b es olds x y zs
  | [], [], x, _, _, hstands, h, _ => by
    obtain rfl := Option.some.inj h
    refine ⟨[], trivial, rfl, (List.append_nil _).symm, (List.append_nil _).symm,
      (List.append_nil _).symm, ?_⟩
    exact moveAll_of_stands hstands
  | e :: es, old :: olds, x, hlen, hsorted, hstands, h, hy => by
    have hlen' : olds.length = es.length := by simpa using hlen
    obtain ⟨z, x₁, hz, hx₁, hrest⟩ := relaxLoop_cons h
    have hold : x.delta + z.remove = old := by
      have hchanged := relaxLoop_changed hlen' hrest hy
      rw [hx₁] at hchanged
      exact bne_eq_false_iff_eq.mp (Bool.or_eq_false_iff.mp hchanged).2
    -- the anchors passed stand already, so the graph is the same
    have hgraph : moveAll (fun _ => x.delta) (passed x.anchors e.offset) x.graph = x.graph :=
      moveAll_of_stands fun a ha => by
        have hmem := mem_passed ha
        exact (stands_congr rfl (if_pos hmem.2).symm).mpr (hstands a hmem.1)
    rw [hgraph] at hx₁
    subst hx₁
    obtain ⟨zs, hkept⟩ := relaxLoop_settled hlen' (ahead_sorted hsorted e.offset)
      (fun a ha => by
        have hmem := mem_ahead hsorted ha
        refine (stands_congr rfl ?_).mpr (hstands a hmem.1)
        rw [deltaAt, if_neg (not_le.mpr hmem.2), ← hold]) hrest hy
    obtain ⟨hdecided, holds, hdeltas, hkinds, hwrites, hfinal⟩ := hkept
    refine ⟨z :: zs, ⟨hz, hdecided⟩, ?_, ?_, ?_, ?_, hfinal⟩
    · rw [recordDeltas, holds, hold]
    · rw [hdeltas, recordDeltas, List.append_assoc, List.singleton_append]
    · rw [hkinds, List.map_cons, List.append_assoc, List.singleton_append]
    · rw [hwrites, List.flatMap_cons, List.append_assoc]

end Block

/-! ## A pass over the blocks -/

/-- The anchors of a block are in order, and there is a delta for each edge. -/
structure Shaped (aux : BlockRelaxAux) : Prop where
  sorted : AnchorsSorted aux.anchors
  consistent : Consistent aux.anchors
  lengths : aux.relocDeltas.length = aux.relaxEdges.length

/-- All anchors of a block are where its deltas put them. -/
def AllStand (G : LinkGraph) (aux : BlockRelaxAux) : Prop :=
  ∀ a ∈ aux.anchors, Stands (deltaAt aux.relaxEdges aux.relocDeltas 0) G a

/-- What a block records was decided in `G`. -/
def Settled (G : LinkGraph) (b : Block) (aux : BlockRelaxAux) : Prop :=
  ∃ zs, DecidedAt G b 0 aux.relaxEdges zs ∧ aux.relocDeltas = recordDeltas 0 zs ∧
    aux.edgeKinds = zs.map Decision.kind ∧ aux.writes = zs.flatMap Decision.writes

/-- What passes leave alone of a block's entry. -/
def fixedPart (p : BlockId × BlockRelaxAux) : BlockId × List SymbolAnchor × List Edge :=
  (p.1, p.2.anchors, p.2.relaxEdges)

/-- No symbol has anchors in two entries. -/
def Separate (blocks : List (BlockId × BlockRelaxAux)) : Prop :=
  blocks.Pairwise fun p q => ∀ a ∈ p.2.anchors, ∀ a' ∈ q.2.anchors, a'.sym ≠ a.sym

section Passes

variable {G G' : LinkGraph} {aux aux' : BlockRelaxAux} {changed : Bool}

theorem relaxBlock_run {b : Block} (hshape : Shaped aux)
    (h : G.relaxBlock b aux = some (G', aux', changed)) :
    Moved G G' ∧ (aux'.anchors = aux.anchors ∧ aux'.relaxEdges = aux.relaxEdges) ∧
      (Shaped aux' ∧ AllStand G' aux') ∧
      ∀ d, (∀ a ∈ aux.anchors, a.sym ≠ d) → G'.sym d = G.sym d := by
  obtain ⟨y, hy, heq⟩ := Option.map_eq_some_iff.mp h
  obtain ⟨rfl, hpair⟩ := Prod.mk.inj heq
  obtain ⟨rfl, _⟩ := Prod.mk.inj hpair
  obtain ⟨ds, hlen, hdeltas, hgraph⟩ := relaxLoop_run hshape.lengths hshape.sorted hy
  rw [List.nil_append] at hdeltas
  simp only at hgraph
  rw [hgraph]
  refine ⟨moveAll_moved _ _ _, ⟨rfl, rfl⟩, ⟨⟨hshape.sorted, hshape.consistent, ?_⟩, ?_⟩,
    fun d hd => moveAll_other hd⟩
  · simp only [hdeltas, hlen]
  · unfold AllStand
    simp only [hdeltas]
    exact moveAll_stands hshape.consistent

theorem relaxBlock_settled {b : Block} (hshape : Shaped aux) (hstand : AllStand G aux)
    (h : G.relaxBlock b aux = some (G', aux', false)) : G' = G ∧ Settled G b aux' := by
  obtain ⟨y, hy, heq⟩ := Option.map_eq_some_iff.mp h
  obtain ⟨rfl, hpair⟩ := Prod.mk.inj heq
  obtain ⟨rfl, hchanged⟩ := Prod.mk.inj hpair
  obtain ⟨zs, hkept⟩ := relaxLoop_settled (x := ⟨G, 0, aux.anchors, [], [], [], false⟩)
    hshape.lengths hshape.sorted hstand hy hchanged
  exact ⟨hkept.graph, zs, hkept.decided, hkept.deltas, hkept.kinds, hkept.writes⟩

theorem relaxOnce_cons {b : BlockId} {rest blocks' : List (BlockId × BlockRelaxAux)}
    (h : LinkGraph.relaxOnce ((b, aux) :: rest) G = some (G', blocks', changed)) :
    ∃ G₁ aux₁ c₁ rest' c₂, G.relaxBlock (G.block b) aux = some (G₁, aux₁, c₁) ∧
      LinkGraph.relaxOnce rest G₁ = some (G', rest', c₂) ∧ blocks' = (b, aux₁) :: rest' ∧
      changed = (c₁ || c₂) := by
  rw [LinkGraph.relaxOnce] at h
  obtain ⟨⟨G₁, aux₁, c₁⟩, hblock, hrest⟩ := Option.bind_eq_some_iff.mp h
  obtain ⟨⟨G₂, rest', c₂⟩, honce, heq⟩ := Option.map_eq_some_iff.mp hrest
  obtain ⟨rfl, hpair⟩ := Prod.mk.inj heq
  obtain ⟨rfl, rfl⟩ := Prod.mk.inj hpair
  exact ⟨G₁, aux₁, c₁, rest', c₂, hblock, honce, rfl, rfl⟩

/-- **What a pass leaves**: every anchor stands by the deltas it recorded. -/
theorem relaxOnce_run : ∀ {blocks blocks' : List (BlockId × BlockRelaxAux)} {G : LinkGraph}
    {changed : Bool}, (∀ p ∈ blocks, Shaped p.2) → Separate blocks →
    LinkGraph.relaxOnce blocks G = some (G', blocks', changed) →
    Moved G G' ∧ blocks'.map fixedPart = blocks.map fixedPart ∧
      (∀ p ∈ blocks', Shaped p.2 ∧ AllStand G' p.2) ∧
      ∀ d, (∀ p ∈ blocks, ∀ a ∈ p.2.anchors, a.sym ≠ d) → G'.sym d = G.sym d
  | [], blocks', G, changed, _, _, h => by
    obtain ⟨rfl, hpair⟩ := Prod.mk.inj (Option.some.inj h)
    obtain ⟨rfl, _⟩ := Prod.mk.inj hpair
    exact ⟨Moved.refl _, rfl, fun p hp => absurd hp List.not_mem_nil, fun _ _ => rfl⟩
  | (b, aux) :: rest, blocks', G, changed, hshape, hsep, h => by
    obtain ⟨hfirst, hsep'⟩ := List.pairwise_cons.mp hsep
    obtain ⟨G₁, aux₁, c₁, rest', c₂, hblock, honce, rfl, -⟩ := relaxOnce_cons h
    obtain ⟨hmoved, ⟨hanchors, hedges⟩, ⟨hshape₁, hstand₁⟩, hother⟩ :=
      relaxBlock_run (hshape _ List.mem_cons_self) hblock
    obtain ⟨hmoved', hfixed, hall, hother'⟩ :=
      relaxOnce_run (fun p hp => hshape p (List.mem_cons_of_mem _ hp)) hsep' honce
    refine ⟨hmoved.trans hmoved', ?_, fun p hp => ?_, fun d hd => ?_⟩
    · rw [List.map_cons, List.map_cons, hfixed]
      simp only [fixedPart, hanchors, hedges]
    · rcases List.mem_cons.mp hp with rfl | hp
      · -- the blocks behind leave the symbols of the first one alone
        refine ⟨hshape₁, fun a ha => (stands_congr ?_ rfl).mpr (hstand₁ a ha)⟩
        simp only [hanchors] at ha
        exact hother' a.sym fun q hq a' ha' => hfirst q hq a ha a' ha'
      · exact hall p hp
    · rw [hother' d fun p hp => hd p (List.mem_cons_of_mem _ hp)]
      exact hother d (hd _ List.mem_cons_self)

/-- **A pass that changes nothing** leaves the graph as it was, and decided all in it. -/
theorem relaxOnce_settled : ∀ {blocks blocks' : List (BlockId × BlockRelaxAux)} {G : LinkGraph},
    (∀ p ∈ blocks, Shaped p.2 ∧ AllStand G p.2) →
    LinkGraph.relaxOnce blocks G = some (G', blocks', false) →
    G' = G ∧ ∀ p ∈ blocks', Settled G (G.block p.1) p.2
  | [], blocks', G, _, h => by
    obtain ⟨rfl, hpair⟩ := Prod.mk.inj (Option.some.inj h)
    obtain ⟨rfl, _⟩ := Prod.mk.inj hpair
    exact ⟨rfl, fun p hp => absurd hp List.not_mem_nil⟩
  | (b, aux) :: rest, blocks', G, hall, h => by
    obtain ⟨G₁, aux₁, c₁, rest', c₂, hblock, honce, rfl, hchanged⟩ := relaxOnce_cons h
    obtain ⟨rfl, rfl⟩ := Bool.or_eq_false_iff.mp hchanged.symm
    obtain ⟨hshape, hstand⟩ := hall _ List.mem_cons_self
    obtain ⟨rfl, hsettled⟩ := relaxBlock_settled hshape hstand hblock
    obtain ⟨rfl, hrest⟩ :=
      relaxOnce_settled (fun p hp => hall p (List.mem_cons_of_mem _ hp)) honce
    refine ⟨rfl, fun p hp => ?_⟩
    rcases List.mem_cons.mp hp with rfl | hp
    · exact hsettled
    · exact hrest p hp

theorem separate_of_fixedPart {blocks blocks' : List (BlockId × BlockRelaxAux)}
    (h : blocks'.map fixedPart = blocks.map fixedPart) (hsep : Separate blocks) :
    Separate blocks' := by
  have hmap : ∀ bs : List (BlockId × BlockRelaxAux), Separate bs ↔
      (bs.map fixedPart).Pairwise fun p q => ∀ a ∈ p.2.1, ∀ a' ∈ q.2.1, a'.sym ≠ a.sym :=
        fun bs => by
    rw [List.pairwise_map]
    rfl
  rw [hmap, h, ← hmap]
  exact hsep

/-- **Where the loop stops** all anchors stand, and all was decided where the code stands. -/
theorem relaxUntil_run : ∀ {fuel : Nat} {blocks blocks' : List (BlockId × BlockRelaxAux)}
    {G : LinkGraph}, (∀ p ∈ blocks, Shaped p.2 ∧ AllStand G p.2) → Separate blocks →
    LinkGraph.relaxUntil fuel blocks G = some (G', blocks') →
    Moved G G' ∧ blocks'.map fixedPart = blocks.map fixedPart ∧
      (∀ p ∈ blocks', AllStand G' p.2 ∧ Settled G' (G'.block p.1) p.2) ∧
      ∀ d, (∀ p ∈ blocks, ∀ a ∈ p.2.anchors, a.sym ≠ d) → G'.sym d = G.sym d
  | 0, _, _, _, _, _, h => absurd h (by simp [LinkGraph.relaxUntil])
  | fuel + 1, blocks, blocks', G, hall, hsep, h => by
    rw [LinkGraph.relaxUntil] at h
    obtain ⟨⟨G₁, blocks₁, changed⟩, honce, hrest⟩ := Option.bind_eq_some_iff.mp h
    obtain ⟨hmoved, hfixed, hall₁, hother⟩ := relaxOnce_run (fun p hp => (hall p hp).1) hsep honce
    simp only at hrest
    split at hrest
    · obtain ⟨hmoved', hfixed', hdone, hother'⟩ :=
        relaxUntil_run hall₁ (separate_of_fixedPart hfixed hsep) hrest
      refine ⟨hmoved.trans hmoved', hfixed'.trans hfixed, hdone, fun d hd => ?_⟩
      rw [hother' d fun p hp a ha => ?_, hother d hd]
      -- the entries have the anchors they had
      have hmem : fixedPart p ∈ blocks.map fixedPart := by
        rw [← hfixed]
        exact List.mem_map_of_mem hp
      obtain ⟨q, hq, heq⟩ := List.mem_map.mp hmem
      have hanchors : q.2.anchors = p.2.anchors := congrArg (fun t => t.2.1) heq
      exact hd q hq a (hanchors ▸ ha)
    · rename_i hchanged
      obtain ⟨rfl, heq⟩ := Prod.mk.inj (Option.some.inj hrest)
      subst heq
      rw [Bool.not_eq_true] at hchanged
      subst hchanged
      obtain ⟨rfl, hsettled⟩ := relaxOnce_settled hall honce
      exact ⟨hmoved, hfixed, fun p hp => ⟨(hall₁ p hp).2, hsettled p hp⟩, hother⟩

end Passes

end RvLlvm.JitLink.Relax
