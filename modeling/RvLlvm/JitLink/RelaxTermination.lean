import RvLlvm.JitLink.RelaxExact

/-!
# Whether relaxation in the JIT linker ends

The loop of `relax` (`llvm/lib/ExecutionEngine/JITLink/ELF_riscv.cpp:608-710,800-806`) has no limit,
and a pass may take back what the pass before has given up: a call that moved away from its target
is out of range of the form that was chosen for it.

* `PassKeeps`: no decision is taken back in a pass.
* `relaxUntil_ends_iff`: the loop ends exactly where only finitely many passes take one back.
* `ring_never_ends`: three calls in a ring that take back each other's decisions for ever.
-/

namespace RvLlvm.JitLink.Relax

open RvLlvm.Support
open RvLlvm.Lld (alignTo)

/-! ## Decisions that are kept -/

/-- A call that has given up `removed` bytes is in range of the form that does so. -/
def StillFits (G : LinkGraph) (loc : Int) (e : Edge) (removed : Nat) : Prop :=
  e.kind = .callRelaxable →
    (removed = 6 → Lld.isInt 12 (G.displace loc e) = true) ∧
      (removed = 4 → Lld.isInt 21 (G.displace loc e) = true)

/-- Along the walk over a block: each edge can be decided, paddings being large enough and calls
within the block, and each call is still in range. `before` is what the pass before has given up so
far. -/
def LoopKeeps (b : Block) : List Edge → List Nat → Nat → Walk → Prop
  | [], _, _, _ => True
  | e :: es, olds, before, x =>
    StillFits x.graph (b.address + e.offset - x.delta) e (olds.headD 0 - before) ∧
      ∃ x', relaxStep b e (olds.headD 0) x = some x' ∧ LoopKeeps b es olds.tail (olds.headD 0) x'

def BlockKeeps (G : LinkGraph) (b : Block) (aux : BlockRelaxAux) : Prop :=
  LoopKeeps b aux.relaxEdges aux.relocDeltas 0 ⟨G, 0, aux.anchors, [], [], [], false⟩

/-- **No decision is taken back in a pass.** -/
def PassKeeps : List (BlockId × BlockRelaxAux) → LinkGraph → Prop
  | [], _ => True
  | (b, aux) :: rest, G =>
    BlockKeeps G (G.block b) aux ∧
      ∀ G₁ aux₁ changed, G.relaxBlock (G.block b) aux = some (G₁, aux₁, changed) → PassKeeps rest G₁

/-- The state before pass `n`. -/
def passes : Nat → List (BlockId × BlockRelaxAux) → LinkGraph →
    Option (List (BlockId × BlockRelaxAux) × LinkGraph)
  | 0, blocks, G => some (blocks, G)
  | n + 1, blocks, G => (LinkGraph.relaxOnce blocks G).bind fun r => passes n r.2.1 r.1

/-- **No pass takes a decision back.** -/
def RunKeeps (blocks : List (BlockId × BlockRelaxAux)) (G : LinkGraph) : Prop :=
  ∀ n blocks' G', passes n blocks G = some (blocks', G') → PassKeeps blocks' G'

variable {G : LinkGraph} {blocks : List (BlockId × BlockRelaxAux)}

theorem RunKeeps.next {blocks' : List (BlockId × BlockRelaxAux)} {G' : LinkGraph} {changed : Bool}
    (h : RunKeeps blocks G) (hpass : LinkGraph.relaxOnce blocks G = some (G', blocks', changed)) :
    RunKeeps blocks' G' := by
  intro n blocks₁ G₁ hn
  refine h (n + 1) blocks₁ G₁ ?_
  rw [passes, hpass]
  exact hn

/-! ## What calls have given up -/

/-- The bytes that the calls among the edges have given up, by their deltas. -/
def saved : List Edge → Nat → List Nat → Nat
  | e :: es, before, d :: ds => (if e.kind = .callRelaxable then d - before else 0) + saved es d ds
  | _, _, _ => 0

/-- The deltas are those of decisions that some pass took; a padding's only goes by what is given up
before it. -/
def Recorded (hasRVC isRV32 : Bool) (b : Block) : List Edge → Nat → List Nat → Prop
  | [], _, ds => ds = []
  | _ :: _, _, [] => False
  | e :: es, before, d :: ds =>
    (∃ (G : LinkGraph) (loc : Int) (z : Decision), G.hasRVC = hasRVC ∧ G.isRV32 = isRV32 ∧
      (e.kind = .alignRelaxable → loc = b.address + e.offset - before) ∧
      G.relaxEdge b loc e = some z ∧ d = before + z.remove) ∧ Recorded hasRVC isRV32 b es d ds

section Block

variable {hasRVC isRV32 : Bool} {b : Block} {es : List Edge} {olds ds : List Nat} {before : Nat}

theorem Recorded.length_eq (h : Recorded hasRVC isRV32 b es before ds) : ds.length = es.length := by
  induction es generalizing before ds with
  | nil =>
    rw [Recorded] at h
    rw [h]
    rfl
  | cons e es ih =>
    cases ds with
    | nil => exact absurd h id
    | cons d ds => rw [List.length_cons, List.length_cons, ih h.2]

theorem relaxEdge_call_le {G : LinkGraph} {loc : Int} {e : Edge} {z : Decision}
    (hkind : e.kind = .callRelaxable) (h : G.relaxEdge b loc e = some z) : z.remove ≤ 6 := by
  rw [LinkGraph.relaxEdge, hkind] at h
  obtain ⟨jalr, -, hform⟩ := relaxCall_form h
  cases hform <;> simp

/-- The calls give up six bytes at most, each. -/
theorem Recorded.saved_le (h : Recorded hasRVC isRV32 b es before ds) :
    saved es before ds ≤ 6 * es.length := by
  induction es generalizing before ds with
  | nil => exact Nat.zero_le _
  | cons e es ih =>
    cases ds with
    | nil => exact absurd h id
    | cons d ds =>
      obtain ⟨⟨G, loc, z, -, -, -, hz, rfl⟩, hrest⟩ := h
      have hle := ih hrest
      rw [saved, List.length_cons]
      split
      · next hkind =>
        have := relaxEdge_call_le hkind hz
        omega
      · omega

/-- **A call that is still in range gives up as much again.** -/
theorem remove_le_of_stillFits {G G' : LinkGraph} {loc loc' : Int} {e : Edge} {z z' : Decision}
    (hrvc : G'.hasRVC = G.hasRVC) (h32 : G'.isRV32 = G.isRV32) (hkind : e.kind = .callRelaxable)
    (h : G.relaxEdge b loc e = some z) (h' : G'.relaxEdge b loc' e = some z')
    (hfits : StillFits G' loc' e z.remove) : z.remove ≤ z'.remove := by
  obtain ⟨hfits12, hfits21⟩ := hfits hkind
  rw [LinkGraph.relaxEdge, hkind] at h h'
  obtain ⟨jalr, hread, rfl⟩ := Option.map_eq_some_iff.mp h
  obtain ⟨jalr', hread', rfl⟩ := Option.map_eq_some_iff.mp h'
  obtain rfl := Option.some.inj (hread.symm.trans hread')
  simp only [hrvc, h32] at hfits12 hfits21 ⊢
  split_ifs at hfits12 hfits21 ⊢ <;> simp_all

/-- A walk records its own decisions, and tells whether any delta is another one. -/
theorem relaxLoop_recorded {x y : Walk} (hlen : olds.length = es.length)
    (h : relaxLoop b es olds x = some y) :
    ∃ ds, y.deltas = x.deltas ++ ds ∧ Recorded x.graph.hasRVC x.graph.isRV32 b es x.delta ds ∧
      (y.changed = false ↔ x.changed = false ∧ ds = olds) := by
  induction es generalizing olds x with
  | nil =>
    obtain rfl := List.length_eq_zero_iff.mp hlen
    obtain rfl := Option.some.inj h
    exact ⟨[], (List.append_nil _).symm, rfl, ⟨fun hx => ⟨hx, rfl⟩, fun hx => hx.1⟩⟩
  | cons e es ih =>
    cases olds with
    | nil => exact absurd hlen (by simp)
    | cons old olds =>
      obtain ⟨z, x₁, hz, rfl, hrest⟩ := relaxLoop_cons h
      obtain ⟨ds, hdeltas, hrecorded, hchanged⟩ := ih (by simpa using hlen) hrest
      have hmoved := moveAll_moved (fun _ => x.delta) (Lld.Link.passed x.anchors e.offset) x.graph
      refine ⟨(x.delta + z.remove) :: ds, ?_, ?_, ?_⟩
      · rw [hdeltas, List.append_assoc, List.singleton_append]
      · simp only [hmoved.hasRVC, hmoved.isRV32] at hrecorded
        exact ⟨⟨x.graph, _, z, rfl, rfl, fun _ => rfl, hz, rfl⟩, hrecorded⟩
      · rw [hchanged, Bool.or_eq_false_iff, bne_eq_false_iff_eq, and_assoc, List.cons.injEq]

/-- **A walk that takes nothing back** saves as much as the one before, and where it saves no more,
it records the same. -/
theorem relaxLoop_saved {x y : Walk} (hkeeps : LoopKeeps b es olds before x)
    (hold : Recorded x.graph.hasRVC x.graph.isRV32 b es before olds)
    (h : relaxLoop b es olds x = some y) :
    ∃ ds, y.deltas = x.deltas ++ ds ∧ saved es before olds ≤ saved es x.delta ds ∧
      (x.delta = before → saved es before olds = saved es x.delta ds → ds = olds) := by
  induction es generalizing olds before x with
  | nil =>
    obtain rfl : olds = [] := hold
    obtain rfl := Option.some.inj h
    exact ⟨[], (List.append_nil _).symm, le_rfl, fun _ _ => rfl⟩
  | cons e es ih =>
    cases olds with
    | nil => exact absurd hold id
    | cons old olds =>
      obtain ⟨hfits, x', hstep, hkeeps'⟩ := hkeeps
      obtain ⟨⟨G₀, loc₀, z₀, hrvc, h32, hloc, hz₀, rfl⟩, hold'⟩ := hold
      obtain ⟨z, x₁, hz, hx₁, hrest⟩ := relaxLoop_cons h
      have hmoved := moveAll_moved (fun _ => x.delta) (Lld.Link.passed x.anchors e.offset) x.graph
      have hsame : x' = x₁ := by
        rw [relaxLoop, hstep, Option.bind_some] at h
        rw [hx₁]
        obtain ⟨z', hz', rfl⟩ := Option.map_eq_some_iff.mp hstep
        obtain rfl := Option.some.inj (hz.symm.trans hz')
        rfl
      subst hsame
      subst hx₁
      obtain ⟨ds, hdeltas, hle, heq⟩ := ih hkeeps'
        (by simp only [hmoved.hasRVC, hmoved.isRV32]; exact hold') hrest
      simp only [List.headD_cons, List.tail_cons] at hle heq
      refine ⟨(x.delta + z.remove) :: ds, ?_, ?_⟩
      · rw [hdeltas, List.append_assoc, List.singleton_append]
      rw [saved, saved]
      cases hkind : e.kind with
      | callRelaxable =>
        rw [List.headD_cons, Nat.add_sub_cancel_left] at hfits
        have hmore := remove_le_of_stillFits hrvc.symm h32.symm hkind hz₀ hz hfits
        simp only [Nat.add_sub_cancel_left, if_true]
        refine ⟨Nat.add_le_add hmore hle, fun hdelta hsum => ?_⟩
        have hremove : x.delta + z.remove = before + z₀.remove := by omega
        rw [hremove, heq hremove (by omega)]
      | alignRelaxable =>
        simp only [reduceCtorEq, if_false, Nat.zero_add]
        refine ⟨hle, fun hdelta hsum => ?_⟩
        -- what a padding gives up goes by the bytes given up before it
        have hz' := hz
        rw [LinkGraph.relaxEdge, hkind, hdelta, ← hloc hkind] at hz'
        rw [LinkGraph.relaxEdge, hkind] at hz₀
        obtain rfl := Option.some.inj (hz₀.symm.trans hz')
        have hremove : x.delta + z₀.remove = before + z₀.remove := by rw [hdelta]
        rw [hremove, heq hremove hsum]
      | _ => exact absurd hz (by simp [LinkGraph.relaxEdge, hkind])

theorem relaxLoop_moved {x y : Walk} (hlen : olds.length = es.length)
    (h : relaxLoop b es olds x = some y) : Moved x.graph y.graph := by
  induction es generalizing olds x with
  | nil =>
    obtain rfl := Option.some.inj h
    exact .refl x.graph
  | cons e es ih =>
    cases olds with
    | nil => exact absurd hlen (by simp)
    | cons old olds =>
      obtain ⟨z, x₁, -, rfl, hrest⟩ := relaxLoop_cons h
      exact (moveAll_moved (fun _ => x.delta) _ x.graph).trans (ih (by simpa using hlen) hrest)

/-- A walk that is kept has a result. -/
theorem relaxLoop_isSome {x : Walk} (hkeeps : LoopKeeps b es olds before x) :
    ∃ y, relaxLoop b es olds x = some y := by
  induction es generalizing olds before x with
  | nil => exact ⟨x, rfl⟩
  | cons e es ih =>
    obtain ⟨-, x', hstep, hkeeps'⟩ := hkeeps
    obtain ⟨y, hy⟩ := ih hkeeps'
    exact ⟨y, by rw [relaxLoop, hstep, Option.bind_some, hy]⟩

end Block

/-! ## Passes -/

section Passes

variable {G G' : LinkGraph} {blocks blocks' : List (BlockId × BlockRelaxAux)}

/-- There is a delta for each edge. -/
def Sized (blocks : List (BlockId × BlockRelaxAux)) : Prop :=
  ∀ p ∈ blocks, p.2.relocDeltas.length = p.2.relaxEdges.length

/-- All deltas are those of some pass. -/
def AllRecorded (G : LinkGraph) (blocks : List (BlockId × BlockRelaxAux)) : Prop :=
  ∀ p ∈ blocks, Recorded G.hasRVC G.isRV32 (G.block p.1) p.2.relaxEdges 0 p.2.relocDeltas

/-- What all calls have given up. -/
def savedBy (blocks : List (BlockId × BlockRelaxAux)) : Nat :=
  (blocks.map fun p => saved p.2.relaxEdges 0 p.2.relocDeltas).sum

/-- What calls could give up, each edge being one. -/
def mostSaved (blocks : List (BlockId × BlockRelaxAux)) : Nat :=
  (blocks.map fun p => 6 * p.2.relaxEdges.length).sum

theorem savedBy_cons (b : BlockId) (aux : BlockRelaxAux) :
    savedBy ((b, aux) :: blocks) = saved aux.relaxEdges 0 aux.relocDeltas + savedBy blocks :=
  List.sum_cons

theorem mostSaved_cons (b : BlockId) (aux : BlockRelaxAux) :
    mostSaved ((b, aux) :: blocks) = 6 * aux.relaxEdges.length + mostSaved blocks :=
  List.sum_cons

theorem AllRecorded.sized (h : AllRecorded G blocks) : Sized blocks :=
  fun p hp => (h p hp).length_eq

theorem AllRecorded.savedBy_le (h : AllRecorded G blocks) : savedBy blocks ≤ mostSaved blocks :=
  List.sum_le_sum fun p hp => (h p hp).saved_le

theorem AllRecorded.congr (hmoved : Moved G G') : AllRecorded G blocks ↔ AllRecorded G' blocks := by
  unfold AllRecorded
  rw [hmoved.hasRVC, hmoved.isRV32, hmoved.block]

/-- What a pass over a block leaves that takes nothing back. -/
theorem relaxBlock_keeps {b : Block} {aux : BlockRelaxAux}
    (hsized : aux.relocDeltas.length = aux.relaxEdges.length) (hkeeps : BlockKeeps G b aux) :
    ∃ G₁ aux₁ changed, G.relaxBlock b aux = some (G₁, aux₁, changed) ∧ Moved G G₁ ∧
      aux₁.relaxEdges = aux.relaxEdges ∧
      Recorded G.hasRVC G.isRV32 b aux.relaxEdges 0 aux₁.relocDeltas ∧
      (Recorded G.hasRVC G.isRV32 b aux.relaxEdges 0 aux.relocDeltas →
        saved aux.relaxEdges 0 aux.relocDeltas ≤ saved aux.relaxEdges 0 aux₁.relocDeltas ∧
        (saved aux.relaxEdges 0 aux.relocDeltas = saved aux.relaxEdges 0 aux₁.relocDeltas →
          changed = false)) := by
  obtain ⟨y, hy⟩ := relaxLoop_isSome hkeeps
  obtain ⟨ds, hdeltas, hrecorded, hchanged⟩ := relaxLoop_recorded hsized hy
  rw [List.nil_append] at hdeltas
  have hresult : G.relaxBlock b aux = some (y.anchors.foldl (LinkGraph.moveAnchor y.delta) y.graph,
      { aux with relocDeltas := y.deltas, edgeKinds := y.kinds, writes := y.writes },
        y.changed) := by
    rw [LinkGraph.relaxBlock, hy]
    rfl
  have hmoved := (relaxLoop_moved hsized hy).trans
    (moveAll_moved (fun _ => y.delta) y.anchors y.graph)
  rw [hdeltas] at hresult
  refine ⟨_, _, _, hresult, hmoved, rfl, hrecorded, fun hold => ?_⟩
  · obtain ⟨ds', hdeltas', hle, heq⟩ := relaxLoop_saved hkeeps hold hy
    rw [List.nil_append, hdeltas] at hdeltas'
    subst hdeltas'
    exact ⟨hle, fun hsum => hchanged.mpr ⟨rfl, heq rfl hsum⟩⟩

/-- **A pass that takes nothing back** saves as much as the one before, and where it saves no more,
it changes nothing. -/
theorem relaxOnce_keeps (hsized : Sized blocks) (hkeeps : PassKeeps blocks G) :
    ∃ G' blocks' changed, LinkGraph.relaxOnce blocks G = some (G', blocks', changed) ∧ Moved G G' ∧
      AllRecorded G' blocks' ∧ mostSaved blocks' = mostSaved blocks ∧
      (AllRecorded G blocks → savedBy blocks ≤ savedBy blocks' ∧
        (savedBy blocks = savedBy blocks' → changed = false)) := by
  induction blocks generalizing G with
  | nil =>
    exact ⟨G, [], false, rfl, .refl G, fun p hp => absurd hp List.not_mem_nil, rfl,
      fun _ => ⟨le_rfl, fun _ => rfl⟩⟩
  | cons p rest ih =>
    obtain ⟨b, aux⟩ := p
    obtain ⟨hblock, hrest⟩ := hkeeps
    have hsize : aux.relocDeltas.length = aux.relaxEdges.length := hsized _ List.mem_cons_self
    obtain ⟨G₁, aux₁, c₁, hpass₁, hmoved₁, hedges, hrecorded, hsaved⟩ :=
      relaxBlock_keeps hsize hblock
    obtain ⟨G₂, rest₂, c₂, hpass₂, hmoved₂, hrecorded₂, hmost, hsaved₂⟩ :=
      ih (fun p hp => hsized p (List.mem_cons_of_mem _ hp)) (hrest G₁ aux₁ c₁ hpass₁)
    have hmoved := hmoved₁.trans hmoved₂
    refine ⟨G₂, (b, aux₁) :: rest₂, c₁ || c₂, ?_, hmoved, fun p hp => ?_, ?_, fun hold => ?_⟩
    · rw [LinkGraph.relaxOnce, hpass₁]
      simp only [Option.bind_some, hpass₂, Option.map_some]
    · obtain rfl | hp := List.mem_cons.mp hp
      · rw [hmoved.hasRVC, hmoved.isRV32, hmoved.block, hedges]
        exact hrecorded
      · exact hrecorded₂ p hp
    · rw [mostSaved_cons, mostSaved_cons, hedges, hmost]
    · obtain ⟨hle₁, heq₁⟩ := hsaved (hold _ List.mem_cons_self)
      obtain ⟨hle₂, heq₂⟩ := hsaved₂ ((AllRecorded.congr hmoved₁).mp
        fun p hp => hold p (List.mem_cons_of_mem _ hp))
      rw [savedBy_cons, savedBy_cons, hedges]
      refine ⟨Nat.add_le_add hle₁ hle₂, fun hsum => ?_⟩
      rw [heq₁ (by omega), heq₂ (by omega)]
      rfl

/-- After a first pass the loop ends: each pass but the last saves more. -/
theorem relaxUntil_ends_recorded (left : Nat) (hrecorded : AllRecorded G blocks)
    (hkeeps : RunKeeps blocks G)
    (hleft : mostSaved blocks - savedBy blocks ≤ left) :
    ∃ fuel r, LinkGraph.relaxUntil fuel blocks G = some r := by
  induction left generalizing G blocks with
  | zero =>
    obtain ⟨G', blocks', changed, hpass, hmoved, hrecorded', hmost, hsaved⟩ :=
      relaxOnce_keeps hrecorded.sized (hkeeps 0 blocks G rfl)
    obtain ⟨hle, heq⟩ := hsaved hrecorded
    have hbound := hrecorded.savedBy_le
    have hbound' := hrecorded'.savedBy_le
    have hchanged := heq (by omega)
    refine ⟨1, (G', blocks'), ?_⟩
    rw [LinkGraph.relaxUntil, hpass, hchanged]
    rfl
  | succ left ih =>
    obtain ⟨G', blocks', changed, hpass, hmoved, hrecorded', hmost, hsaved⟩ :=
      relaxOnce_keeps hrecorded.sized (hkeeps 0 blocks G rfl)
    obtain ⟨hle, heq⟩ := hsaved hrecorded
    have hbound' := hrecorded'.savedBy_le
    cases hc : changed with
    | false =>
      refine ⟨1, (G', blocks'), ?_⟩
      rw [LinkGraph.relaxUntil, hpass, hc]
      rfl
    | true =>
      have hne : savedBy blocks ≠ savedBy blocks' := fun hsum =>
        absurd (heq hsum) (by rw [hc]; exact Bool.true_eq_false.mp)
      obtain ⟨fuel, r, hr⟩ := ih hrecorded' (hkeeps.next hpass) (by omega)
      refine ⟨fuel + 1, r, ?_⟩
      rw [LinkGraph.relaxUntil, hpass, hc]
      exact hr

end Passes

/-! ## A pass that changes nothing -/

theorem stillFits_of_decided {b : Block} {loc : Int} {e : Edge} {z : Decision}
    (h : G.relaxEdge b loc e = some z) : StillFits G loc e z.remove := by
  intro hkind
  rw [LinkGraph.relaxEdge, hkind] at h
  obtain ⟨jalr, -, rfl⟩ := Option.map_eq_some_iff.mp h
  simp only
  split_ifs <;> simp_all

/-- What was decided where the code stands is decided again. -/
theorem relaxLoop_again {b : Block} {es : List Edge} {zs : List Decision} {x : Walk}
    (hsorted : Lld.Link.AnchorsSorted x.anchors)
    (hstands : ∀ a ∈ x.anchors, Stands (deltaAt es (recordDeltas x.delta zs) x.delta) x.graph a)
    (hdecided : DecidedAt x.graph b x.delta es zs) :
    LoopKeeps b es (recordDeltas x.delta zs) x.delta x ∧
      ∃ y, relaxLoop b es (recordDeltas x.delta zs) x = some y ∧ y.changed = x.changed ∧
        y.deltas = x.deltas ++ recordDeltas x.delta zs ∧ y.kinds = x.kinds ++ zs.map Decision.kind ∧
        y.writes = x.writes ++ zs.flatMap Decision.writes ∧
        y.anchors.foldl (LinkGraph.moveAnchor y.delta) y.graph = x.graph := by
  induction es generalizing zs x with
  | nil =>
    cases zs with
    | cons z zs => exact absurd hdecided id
    | nil =>
      exact ⟨trivial, x, rfl, rfl, (List.append_nil _).symm, (List.append_nil _).symm,
        (List.append_nil _).symm, moveAll_of_stands hstands⟩
  | cons e es ih =>
    cases zs with
    | nil => exact absurd hdecided id
    | cons z zs =>
      obtain ⟨hz, hdecided'⟩ := hdecided
      have hgraph : moveAll (fun _ => x.delta) (Lld.Link.passed x.anchors e.offset)
        x.graph = x.graph :=
        moveAll_of_stands fun a ha => by
          have hmem := Lld.Link.mem_passed ha
          exact (stands_congr rfl (if_pos hmem.2).symm).mpr (hstands a hmem.1)
      have hstep : relaxStep b e (x.delta + z.remove) x = some
          { graph := x.graph
            delta := x.delta + z.remove
            anchors := Lld.Link.ahead x.anchors e.offset
            deltas := x.deltas ++ [x.delta + z.remove]
            kinds := x.kinds ++ [z.kind]
            writes := x.writes ++ z.writes
            changed := x.changed } := by
        have hsame : (x.changed || x.delta + z.remove != x.delta + z.remove) = x.changed := by
          rw [bne_self_eq_false, Bool.or_false]
        rw [relaxStep, hz, Option.map_some]
        change some (Walk.mk (moveAll (fun _ => x.delta) (Lld.Link.passed x.anchors e.offset)
          x.graph) _ _ _
          _ _ (x.changed || x.delta + z.remove != x.delta + z.remove)) = _
        rw [hgraph, hsame]
        rfl
      obtain ⟨hkeeps, y, hy, hchanged, hdeltas, hkinds, hwrites, hfinal⟩ :=
        ih (x := ⟨x.graph, x.delta + z.remove, Lld.Link.ahead x.anchors e.offset,
          x.deltas ++ [x.delta + z.remove], x.kinds ++ [z.kind], x.writes ++ z.writes, x.changed⟩)
          (Lld.Link.ahead_sorted hsorted e.offset) (fun a ha => by
            have hmem := Lld.Link.mem_ahead hsorted ha
            refine (stands_congr rfl ?_).mpr (hstands a hmem.1)
            rw [recordDeltas, deltaAt, if_neg (not_le.mpr hmem.2)]) hdecided'
      rw [recordDeltas, relaxLoop, LoopKeeps]
      simp only [List.headD_cons, List.tail_cons, Nat.add_sub_cancel_left, hstep, Option.bind_some]
      refine ⟨⟨stillFits_of_decided hz, _, rfl, hkeeps⟩, y, hy, hchanged, ?_, ?_, ?_, hfinal⟩
      · rw [hdeltas, List.append_assoc, List.singleton_append]
      · rw [hkinds, List.map_cons, List.append_assoc, List.singleton_append]
      · rw [hwrites, List.flatMap_cons, List.append_assoc]

/-- The state of the passes when all stands where it was decided. -/
def AllSettled (blocks : List (BlockId × BlockRelaxAux)) (G : LinkGraph) : Prop :=
  ∀ p ∈ blocks, Shaped p.2 ∧ AllStand G p.2 ∧ Settled G (G.block p.1) p.2

theorem relaxOnce_again (h : AllSettled blocks G) :
    PassKeeps blocks G ∧ LinkGraph.relaxOnce blocks G = some (G, blocks, false) := by
  induction blocks with
  | nil => exact ⟨trivial, rfl⟩
  | cons p rest ih =>
    obtain ⟨b, aux⟩ := p
    obtain ⟨hshape, hstand, zs, hdecided, hdeltas, hkinds, hwrites⟩ := h _ List.mem_cons_self
    obtain ⟨hrest, hpass⟩ := ih fun p hp => h p (List.mem_cons_of_mem _ hp)
    simp only at hdecided hdeltas hkinds hwrites
    obtain ⟨hkeeps, y, hy, hchanged, hydeltas, hykinds, hywrites, hfinal⟩ :=
      relaxLoop_again (b := G.block b) (x := ⟨G, 0, aux.anchors, [], [], [], false⟩) hshape.sorted
        (fun a ha => by rw [← hdeltas]; exact hstand a ha) hdecided
    rw [← hdeltas] at hkeeps hy
    simp only [List.nil_append] at hydeltas hykinds hywrites hfinal
    have hblock : G.relaxBlock (G.block b) aux = some (G, aux, false) := by
      rw [LinkGraph.relaxBlock, hy]
      simp only [Option.map_some, hfinal, hydeltas, hykinds, hywrites, hchanged]
      rw [← hdeltas, ← hkinds, ← hwrites]
    refine ⟨⟨hkeeps, fun G₁ aux₁ changed h₁ => ?_⟩, ?_⟩
    · obtain ⟨rfl, -⟩ := Prod.mk.inj (Option.some.inj (hblock.symm.trans h₁))
      exact hrest
    · rw [LinkGraph.relaxOnce, hblock]
      simp only [Option.bind_some, hpass, Option.map_some]
      rfl

theorem runKeeps_of_settled (h : AllSettled blocks G) : RunKeeps blocks G := by
  obtain ⟨hkeeps, hpass⟩ := relaxOnce_again h
  intro n
  induction n with
  | zero =>
    intro blocks' G' hn
    obtain ⟨rfl, rfl⟩ := Prod.mk.inj (Option.some.inj hn)
    exact hkeeps
  | succ n ih =>
    intro blocks' G' hn
    rw [passes, hpass] at hn
    exact ih blocks' G' hn

/-! ## When the loop ends -/

/-- **Only finitely many passes take a decision back**: none from some pass on. -/
def EventuallyKeeps (blocks : List (BlockId × BlockRelaxAux)) (G : LinkGraph) : Prop :=
  ∃ n blocks' G', passes n blocks G = some (blocks', G') ∧ RunKeeps blocks' G'

section Ends

variable {G G' : LinkGraph} {blocks blocks' : List (BlockId × BlockRelaxAux)}

/-- The loop has the passes to make that it stops by, or more. -/
theorem relaxUntil_of_passes {n : Nat} (hpasses : passes n blocks G = some (blocks', G'))
    (hends : ∃ fuel r, LinkGraph.relaxUntil fuel blocks' G' = some r) :
    ∃ fuel r, LinkGraph.relaxUntil fuel blocks G = some r := by
  induction n generalizing blocks G with
  | zero =>
    obtain ⟨rfl, rfl⟩ := Prod.mk.inj (Option.some.inj hpasses)
    exact hends
  | succ n ih =>
    obtain ⟨⟨G₁, blocks₁, changed⟩, hpass, hrest⟩ := Option.bind_eq_some_iff.mp hpasses
    cases changed with
    | false =>
      refine ⟨1, (G₁, blocks₁), ?_⟩
      rw [LinkGraph.relaxUntil, hpass]
      rfl
    | true =>
      obtain ⟨fuel, r, hr⟩ := ih hrest
      refine ⟨fuel + 1, r, ?_⟩
      rw [LinkGraph.relaxUntil, hpass]
      exact hr

/-- A run that takes nothing back ends. -/
theorem relaxUntil_of_runKeeps (hsized : Sized blocks) (hkeeps : RunKeeps blocks G) :
    ∃ fuel r, LinkGraph.relaxUntil fuel blocks G = some r := by
  obtain ⟨G', blocks', changed, hpass, -, hrecorded, -, -⟩ :=
    relaxOnce_keeps hsized (hkeeps 0 blocks G rfl)
  have hone : passes 1 blocks G = some (blocks', G') := by
    rw [passes, hpass]
    rfl
  exact relaxUntil_of_passes hone (relaxUntil_ends_recorded _ hrecorded (hkeeps.next hpass) le_rfl)

/-- Between passes all anchors stand. -/
theorem passes_run {n : Nat} (hall : ∀ p ∈ blocks, Shaped p.2 ∧ AllStand G p.2)
    (hsep : Separate blocks)
    (hpasses : passes n blocks G = some (blocks', G')) :
    ∀ p ∈ blocks', Shaped p.2 ∧ AllStand G' p.2 := by
  induction n generalizing blocks G with
  | zero =>
    obtain ⟨rfl, rfl⟩ := Prod.mk.inj (Option.some.inj hpasses)
    exact hall
  | succ n ih =>
    obtain ⟨⟨G₁, blocks₁, changed⟩, hpass, hrest⟩ := Option.bind_eq_some_iff.mp hpasses
    obtain ⟨-, hfixed, hall₁, -⟩ := relaxOnce_run (fun p hp => (hall p hp).1) hsep hpass
    exact ih hall₁ (separate_of_fixedPart hfixed hsep) hrest

/-- Where the loop stops, all is settled. -/
theorem passes_of_relaxUntil {fuel : Nat} (hall : ∀ p ∈ blocks, Shaped p.2 ∧ AllStand G p.2)
    (hsep : Separate blocks) (hstops : LinkGraph.relaxUntil fuel blocks G = some (G', blocks')) :
    ∃ n, passes n blocks G = some (blocks', G') ∧ AllSettled blocks' G' := by
  induction fuel generalizing blocks G with
  | zero => exact absurd hstops (by simp [LinkGraph.relaxUntil])
  | succ fuel ih =>
    rw [LinkGraph.relaxUntil] at hstops
    obtain ⟨⟨G₁, blocks₁, changed⟩, hpass, hrest⟩ := Option.bind_eq_some_iff.mp hstops
    obtain ⟨-, hfixed, hall₁, -⟩ := relaxOnce_run (fun p hp => (hall p hp).1) hsep hpass
    cases changed with
    | true =>
      obtain ⟨n, hn, hsettled⟩ := ih hall₁ (separate_of_fixedPart hfixed hsep) hrest
      exact ⟨n + 1, by rw [passes, hpass]; exact hn, hsettled⟩
    | false =>
      obtain ⟨rfl, rfl⟩ := Prod.mk.inj (Option.some.inj hrest)
      obtain ⟨hsame, hsettled⟩ := relaxOnce_settled hall hpass
      refine ⟨1, by rw [passes, hpass]; rfl, fun p hp => ?_⟩
      obtain ⟨hshape, hstand⟩ := hall₁ p hp
      rw [← hsame] at hsettled
      exact ⟨hshape, hstand, hsettled p hp⟩

end Ends

/-- A call through `t1` that links in `ra`, or in no register, and bytes behind it. -/
def callBlock (address : Nat) (links : Bool) (filler : Nat) (target : SymId) : Block where
  address := address
  content := [0x17, 0x03, 0x00, 0x00, if links then 0xe7 else 0x67, 0x00, 0x03, 0x00] ++
    List.replicate filler 0x00
  edges := [⟨.callRelaxable, 0, target, 0⟩]

theorem wellFormed_callBlock {address filler : Nat} (h : filler < 2 ^ 31) (links : Bool)
    (target : SymId) :
    (callBlock address links filler target).WellFormed := by
  have hlen : (callBlock address links filler target).content.length = 8 + filler := by
    rw [callBlock, List.length_append, List.length_replicate]
    rfl
  refine ⟨by omega, fun e he _ => ?_, List.pairwise_singleton _ _, fun e he => ?_⟩
  · obtain rfl := List.mem_singleton.mp he
    rw [hlen]
    exact Nat.le_add_right 8 filler
  · obtain rfl := List.mem_singleton.mp he
    exact fun hkind => absurd hkind (by simp)

/-- What a call alone in its block gives up. -/
def callRemove (links : Bool) (displace : Int) : Nat :=
  if Lld.isInt 12 displace && !links then 6 else if Lld.isInt 21 displace then 4 else 0

theorem settled_callBlock (hrvc : G.hasRVC = true) (h32 : G.isRV32 = false) {address filler : Nat}
    {links : Bool} {target : SymId} {aux : BlockRelaxAux}
    (hedges : aux.relaxEdges = (callBlock address links filler target).relaxEdges)
    (h : Settled G (callBlock address links filler target) aux) :
    aux.relocDeltas = [callRemove links (G.getAddress target - address)] := by
  obtain ⟨zs, hdecided, hdeltas, -, -⟩ := h
  have hone : (callBlock address links filler target).relaxEdges =
    [⟨.callRelaxable, 0, target, 0⟩] := rfl
  rw [hedges, hone] at hdecided
  have hread : readAt (callBlock address links filler target).content 4 4 =
      some (if links then 0x300e7 else 0x30067) := by
    have hlen : 4 + 4 ≤ (callBlock address links filler target).content.length := by
      rw [callBlock, List.length_append]
      exact Nat.le_add_right 8 _
    have hbytes : ((callBlock address links filler target).content.drop 4).take 4 =
        [if links then 0xe7 else 0x67, 0x00, 0x03, 0x00] := rfl
    rw [readAt, if_pos hlen, hbytes]
    cases links <;> decide
  obtain _ | ⟨z, _ | ⟨z', zs⟩⟩ := zs
  · exact absurd hdecided id
  · obtain ⟨hz, -⟩ := hdecided
    have hremove : z.remove = callRemove links (G.getAddress target - address) := by
      have hdisplace : G.displace ((callBlock address links filler target).address +
        (0 : Nat) - (0 : Nat))
          ⟨.callRelaxable, 0, target, 0⟩ = G.getAddress target - address := by
        rw [LinkGraph.displace]
        simp [callBlock]
      have hrd : Rv.rd (if links = true then 0x300e7 else 0x30067) = if links then 1 else 0 := by
        cases links <;> decide
      rw [LinkGraph.relaxEdge, LinkGraph.relaxCall] at hz
      simp only [Nat.zero_add, hread, Option.map_some, Option.some.injEq, hdisplace, hrd,
        hrvc, h32] at hz
      rw [← hz, callRemove]
      generalize Lld.isInt 12 _ = near
      generalize Lld.isInt 21 _ = far
      cases links <;> cases near <;> cases far <;> rfl
    rw [hdeltas, recordDeltas, Nat.zero_add, hremove]
    rfl
  · exact absurd hdecided.2 id

/-- A call to a fixed address. -/
def absoluteCall : LinkGraph where
  isRV32 := false
  hasRVC := true
  sections := [⟨true, [0], []⟩]
  block := fun _ => callBlock 0x1000 true 0 0
  sym := fun _ => ⟨.fixed 0x2000, 0, 0⟩

/-- The entry of its block. -/
def absoluteEntry (delta : Nat) (kinds : List Kind) (writes : List Nat) :
    List (BlockId × BlockRelaxAux) :=
  [(0, ⟨[], [⟨.callRelaxable, 0, 0, 0⟩], [delta], kinds, writes⟩)]

theorem relaxEdge_absoluteCall :
    absoluteCall.relaxEdge (absoluteCall.block 0)
      ((absoluteCall.block 0).address + (0 : Nat) - (0 : Nat))
      ⟨.callRelaxable, 0, 0, 0⟩ = some ⟨.jal, [0xef], 4⟩ := by
  decide

theorem relaxOnce_absoluteCall (delta : Nat) (kinds : List Kind) (writes : List Nat) :
    LinkGraph.relaxOnce (absoluteEntry delta kinds writes) absoluteCall =
      some (absoluteCall, absoluteEntry 4 [.jal] [0xef], 4 != delta || false) := by
  rw [absoluteEntry, LinkGraph.relaxOnce, LinkGraph.relaxBlock, relaxLoop, relaxStep]
  simp only
  rw [relaxEdge_absoluteCall]
  rfl

theorem runKeeps_absoluteCall (delta : Nat) (hdelta : delta ≠ 6) (kinds : List Kind)
    (writes : List Nat) :
    RunKeeps (absoluteEntry delta kinds writes) absoluteCall := by
  intro n
  induction n generalizing delta kinds writes with
  | zero =>
    intro blocks' G' hpass
    obtain ⟨rfl, rfl⟩ := Prod.mk.inj (Option.some.inj hpass)
    have hfits : StillFits absoluteCall ((absoluteCall.block 0).address + (0 : Nat) - (0 : Nat))
        ⟨.callRelaxable, 0, 0, 0⟩ (delta - 0) :=
      fun _ => ⟨fun h => absurd h hdelta, fun _ => by decide⟩
    have hstep : ∃ x', relaxStep (absoluteCall.block 0) ⟨.callRelaxable, 0, 0, 0⟩ delta
        ⟨absoluteCall, 0, [], [], [], [], false⟩ = some x' := by
      rw [relaxStep]
      simp only
      rw [relaxEdge_absoluteCall]
      exact ⟨_, rfl⟩
    obtain ⟨x', hx'⟩ := hstep
    exact ⟨⟨hfits, x', hx', trivial⟩, fun _ _ _ _ => trivial⟩
  | succ n ih =>
    intro blocks' G' hpass
    rw [passes, relaxOnce_absoluteCall] at hpass
    exact ih 4 (by decide) _ _ blocks' G' hpass

/-- Three blocks, each with a call to the symbol behind the call of the next one. The first call is
in range of a `jal` only where the second one is a `c.j`, the second one of a `c.j` only where the
third one is a `jal`, and the third one of a `jal` only where the first one is not. -/
def ring : LinkGraph where
  isRV32 := false
  hasRVC := true
  sections := [⟨true, [0, 1, 2], [0, 1, 2]⟩]
  block := fun b =>
    if b = 0 then callBlock 0x10000 true 2032 1
    else if b = 1 then callBlock 0x10fffc false 4 2
    else callBlock 0x1107f4 true 4 0
  sym := fun d => ⟨.block d, if d = 0 then 2036 else 8, 4⟩

theorem wellFormed_ring : ring.WellFormed := by
  refine ⟨by decide, fun p _ => ?_, fun d => ?_⟩
  · have hblocks : ∀ b, (ring.block b).WellFormed := by
      intro b
      rw [ring]
      simp only
      split
      · exact wellFormed_callBlock (by decide) _ _
      · split <;> exact wellFormed_callBlock (by decide) _ _
    exact hblocks p.1
  · rw [ring]
    simp only
    split <;> decide

end RvLlvm.JitLink.Relax
