import Mathlib.Data.List.Perm.Basic
import Mathlib.Tactic.IntervalCases
import RvLlvm.Bolt.TailMerge

/-!
# The merged function runs as before and is smaller

* `codeSize_merge`: a merge of `n + 1` blocks saves `n` times what the suffix is longer than a jump.
* `preserves_merge`: it keeps every execution when no instruction of the suffix reads its address.
* `runOnFunction_induction`: what such merges keep, the pass keeps.
* `preserves_runOnFunction`: so the pass saves code, and keeps every execution when no instruction
  of a merged suffix reads its address.
* `not_preserves_addressOf`: an `auipc` with a plain immediate reads it, and `getSuffixKey` admits
  that.
-/

namespace RvLlvm.Bolt.TailMerge

open List

/-! ## One merge keeps every execution -/

/-- What the pass merges: blocks with one key, whose suffix is longer than a jump. -/
structure Merge.Ready (I : MCInstrInfo) (size : MCInst → Nat) (m : Merge) : Prop where
  wellFormed : m.before.WellFormed
  nodup : (m.front :: m.others).Nodup
  two : m.others ≠ []
  placed : ∀ b ∈ m.front :: m.others, b ∈ m.before.layout.flatten
  keyed : ∃ k n, (∀ b ∈ m.front :: m.others, Keyed I size (m.before.block b) m.suffixLen k n) ∧
    size (createUncondBranch m.before.next) < n

section MergeExecution

variable {I : MCInstrInfo} {size : MCInst → Nat} {m : Merge}

attribute [local grind =] Merge.result Function.merge Function.shortened Block.goesTo instsSize
  isReturn isBranch fixBlock eraseAt Function.basicBlock blockSize fragmentSize insertAfter codeSize
  MCInstrInfo.get isBranchImpl

variable {b : MCSymbol}

theorem Merge.Ready.known (h : m.Ready I size) (hb : b ∈ m.front :: m.others) : b < m.before.next :=
  h.wellFormed.layout_known b (h.placed b hb)

theorem Merge.Ready.succs (h : m.Ready I size) (hb : b ∈ m.front :: m.others) :
    (m.before.block b).succs = [] :=
  h.keyed.elim fun _ ⟨_, hk, _⟩ => (hk b hb).succs

theorem Merge.block_tail (m : Merge) :
    m.result.block m.before.next = m.before.tail m.suffixLen m.front (m.front :: m.others) := by
  simp [Merge.result, Function.merge]

theorem Merge.Ready.block_merged (h : m.Ready I size) (hb : b ∈ m.front :: m.others) :
    m.result.block b = m.before.shortened m.suffixLen b := by
  have hne : b ≠ m.before.next := (h.known hb).ne
  simp only [Merge.result, Function.merge, if_neg hne, if_pos hb]

theorem Merge.block_other (m : Merge) (hb : b < m.before.next) (hmem : b ∉ m.front :: m.others) :
    m.result.block b = m.before.block b := by
  simp only [Merge.result, Function.merge, if_neg hb.ne, if_neg hmem]

@[simp] theorem Merge.result_next (m : Merge) : m.result.next = m.before.next + 1 := rfl

theorem Merge.Ready.succs_merged (h : m.Ready I size) (hb : b ∈ m.front :: m.others) :
    (m.result.block b).succs = [m.before.next] := by
  rw [h.block_merged hb, Function.shortened, h.succs hb, nil_append]

variable {σ : Type*} {exec : MCInst → Nat → Nat → σ → σ} {goes : List Inst → σ → Nat}

/-- Equal instructions that do not read their addresses have equal effects. -/
theorem execInsts_congr : ∀ {as bs : List Inst},
    as.map (fun i => (i.inst, i.flags)) = bs.map (fun i => (i.inst, i.flags)) →
    (∀ i ∈ as, Placeless exec i) → ∀ s, execInsts exec bs s = execInsts exec as s := by
  intro as
  induction as with
  | nil =>
    intro bs h _ s
    rw [map_nil, eq_comm, map_eq_nil_iff] at h
    rw [h]
  | cons a as ih =>
    intro bs h hp s
    cases bs with
    | nil => simp at h
    | cons b bs =>
      rw [map_cons, map_cons, cons_eq_cons, Prod.mk.injEq] at h
      have hb : exec b.inst b.flags b.place s = exec a.inst a.flags a.place s := by
        rw [← h.1.1, ← h.1.2]
        exact hp a mem_cons_self b.place s
      show execInsts exec bs (exec b.inst b.flags b.place s) =
        execInsts exec as (exec a.inst a.flags a.place s)
      rw [hb]
      exact ih h.2 (fun i hi => hp i (mem_cons_of_mem _ hi)) _

theorem execInsts_append (as bs : List Inst) (s : σ) :
    execInsts exec (as ++ bs) s = execInsts exec bs (execInsts exec as s) := foldl_append

theorem Block.mem_of_goesTo {b : Block} {s : σ} {c : MCSymbol} (h : b.goesTo goes s = some c) :
    c ∈ b.succs := by
  rw [Block.goesTo] at h
  split at h
  · next hs => simp [hs, Option.some.inj h]
  · exact mem_of_getElem? h

/-- A block that is shortened and the new block behind it do what the block did. -/
theorem Merge.Ready.exec_tail (h : m.Ready I size) (hp : m.Placeless exec)
    (hb : b ∈ m.front :: m.others) (s : σ) :
    execInsts exec (m.result.block m.before.next).insts
        (execInsts exec (m.result.block b).insts s) =
      execInsts exec (m.before.block b).insts s := by
  obtain ⟨k, n, hk, -⟩ := h.keyed
  have hsame := (hk m.front mem_cons_self).same (hk b hb)
  rw [m.block_tail, h.block_merged hb, ← (m.before.block b).erase_append_suffix m.suffixLen,
    execInsts_append]
  exact (execInsts_congr hsame hp _).symm

/-- The new block ends with the instruction with which the block ended. -/
theorem Merge.Ready.last_tail (h : m.Ready I size) (hb : b ∈ m.front :: m.others) :
    (m.result.block m.before.next).insts.getLast?.map (·.inst) =
      (m.before.block b).insts.getLast?.map (·.inst) := by
  obtain ⟨k, n, hk, hn⟩ := h.keyed
  have hsame := (hk m.front mem_cons_self).same_insts (hk b hb)
  have hne : (m.before.block b).suffix m.suffixLen ≠ [] := by
    intro hnil
    have := (hk b hb).suffixSize
    rw [hnil] at this
    simp [instsSize] at this
    omega
  rw [m.block_tail, ← (m.before.block b).erase_append_suffix m.suffixLen,
    getLast?_append_of_ne_nil _ hne, ← getLast?_map, ← getLast?_map]
  exact congrArg getLast? hsame

/-- From a block of the function, an execution behind the merge is one before it. -/
theorem Merge.Ready.backward (h : m.Ready I size) (hp : m.Placeless exec) {s : σ}
    {path : List MCSymbol} {r : Return σ} (he : Execution exec goes m.result b s path r)
    (hb : b < m.before.next) :
    Execution exec goes m.before b s (path.filter (· < m.before.next)) r := by
  induction he with
  | @ends b s hsuccs =>
    have hmem : b ∉ m.front :: m.others := fun hmem => by
      simp [h.succs_merged hmem] at hsuccs
    rw [m.block_other hb hmem] at hsuccs ⊢
    rw [filter_cons_of_pos (by simpa using hb), filter_nil]
    exact .ends hsuccs
  | @goes b c s path r hgo rest ih =>
    rw [filter_cons_of_pos (by simpa using hb)]
    by_cases hmem : b ∈ m.front :: m.others
    -- the jump to the new block, where the execution ends
    · have hc : c = m.before.next := by
        simpa [Block.goesTo, h.succs_merged hmem, eq_comm] using hgo
      subst hc
      have htail : (m.result.block m.before.next).succs = [] := by rw [m.block_tail]; rfl
      cases rest with
      | ends _ =>
        rw [filter_cons_of_neg (by simp), filter_nil, h.exec_tail hp hmem, h.last_tail hmem]
        exact .ends (h.succs hmem)
      | goes hgo' _ => simp [Block.goesTo, htail] at hgo'
    · rw [m.block_other hb hmem] at hgo ih
      exact .goes hgo (ih (h.wellFormed.closed b hb c (Block.mem_of_goesTo hgo)))

/-- And every execution before the merge is one of these. -/
theorem Merge.Ready.forward (h : m.Ready I size) (hp : m.Placeless exec) {s : σ}
    {path : List MCSymbol} {r : Return σ} (he : Execution exec goes m.before b s path r)
    (hb : b < m.before.next) :
    ∃ path', Execution exec goes m.result b s path' r ∧
      path'.filter (· < m.before.next) = path := by
  induction he with
  | @ends b s hsuccs =>
    by_cases hmem : b ∈ m.front :: m.others
    · refine ⟨[b, m.before.next], ?_, by simp [hb]⟩
      refine .goes (c := m.before.next) (by simp [Block.goesTo, h.succs_merged hmem]) ?_
      rw [← h.exec_tail hp hmem, ← h.last_tail hmem]
      exact .ends (by rw [m.block_tail]; rfl)
    · refine ⟨[b], ?_, by simp [hb]⟩
      rw [← m.block_other hb hmem] at hsuccs ⊢
      exact .ends hsuccs
  | @goes b c s path r hgo rest ih =>
    have hmem : b ∉ m.front :: m.others := fun hmem => by
      simp [Block.goesTo, h.succs hmem] at hgo
    obtain ⟨path', he', hpath⟩ := ih (h.wellFormed.closed b hb c (Block.mem_of_goesTo hgo))
    refine ⟨b :: path', ?_, by rw [filter_cons_of_pos (by simpa using hb), hpath]⟩
    rw [← m.block_other hb hmem] at hgo he'
    exact .goes hgo he'

/-- A merge keeps every execution when no instruction of the suffix reads its address. -/
theorem preserves_merge (h : m.Ready I size) (hp : m.Placeless exec) :
    Preserves exec goes m.before m.result where
  backward _ hb _ _ _ he := h.backward hp he hb
  forward _ hb _ _ _ he := h.forward hp he hb

end MergeExecution

/-! ## Every merge makes the function smaller -/

section MergeSize

variable {I : MCInstrInfo} {size : MCInst → Nat}

/-- An instruction at which `analyzeBranch` finds no branch. -/
def Quiet (I : MCInstrInfo) (i : MCInst) : Prop :=
  isTerminator I i = false ∨ isBranch I i = false

theorem analyzeLoop_quiet {insts : List MCInst} (h : ∀ i ∈ insts, Quiet I i) (a : BranchAnalysis) :
    analyzeLoop I insts a = some (some a) := by
  induction insts with
  | nil => rfl
  | cons i rest ih =>
    have hi : (!isTerminator I i || i.tailCall || !isBranch I i) = true := by
      rcases h i mem_cons_self with h | h <;> simp [h]
    rw [analyzeLoop, if_pos hi, ih fun j hj => h j (mem_cons_of_mem _ hj), ite_self]

theorem analyzeBranch_quiet {insts : List MCInst} (h : ∀ i ∈ insts, Quiet I i) :
    analyzeBranch I insts = some (some ⟨none, none, none, none⟩) :=
  analyzeLoop_quiet (fun i hi => h i (mem_reverse.mp hi)) _

/-- No return of the tables is a branch. -/
def PlainReturns (I : MCInstrInfo) : Prop := ∀ n, (I n).isReturn = true → (I n).isBranch = false

theorem quiet_of_isReturn (hI : PlainReturns I) {i : MCInst} (h : isReturn I i = true) :
    Quiet I i := by
  refine .inr ?_
  obtain ⟨op, ops, t⟩ := i
  cases op with
  | other n =>
    have hn : (I n).isReturn = true := by simpa [isReturn, MCInstrInfo.get] using h
    simp [isBranch, MCInstrInfo.get, isBranchImpl, hI n hn]
  | jalr | cJr => simp_all [isReturn, isBranch, MCInstrInfo.get, isBranchImpl]
  | _ => simp [isReturn, MCInstrInfo.get] at h

theorem Keyed.quiet {b : Block} {suffixLen n : Nat} {k : Key} (hI : PlainReturns I)
    (h : Keyed I size b suffixLen k n) : ∀ i ∈ b.insts.map (·.inst), Quiet I i := by
  obtain ⟨-, ⟨last, hlast, hret⟩, -, hterm⟩ := Keyed.parts h.candidate
  intro i hi
  obtain ⟨j, hj, rfl⟩ := mem_map.mp hi
  rw [← dropLast_append_getLast? last hlast, mem_append, mem_singleton] at hj
  rcases hj with hj | rfl
  · exact .inl (hterm j hj)
  · exact quiet_of_isReturn hI hret

theorem instsSize_append (as bs : List MCInst) :
    instsSize size (as ++ bs) = instsSize size as + instsSize size bs := by
  rw [instsSize, map_append, sum_append, instsSize, instsSize]

variable {next : Option MCSymbol} {s : MCSymbol} {l : List MCSymbol}

/-- A return block has the bytes of its instructions. -/
theorem blockSize_return {f : Function} {b : MCSymbol}
    (hq : ∀ i ∈ (f.block b).insts.map (·.inst), Quiet I i) (hs : (f.block b).succs = []) :
    blockSize I size f next b = instsSize size ((f.block b).insts.map (·.inst)) := by
  have h : fixBlock I next (f.basicBlock b) = some (f.basicBlock b) := by
    have ha : analyzeBranch I (f.basicBlock b).insts = _ := analyzeBranch_quiet hq
    simp only [fixBlock, ha, eraseAt]
    simp only [Function.basicBlock, hs]
  rw [blockSize, h]
  rfl

/-- The bytes of the jump that `fixBranches` puts behind a block that ends in no branch. -/
def jumpSize (size : MCInst → Nat) (next : Option MCSymbol) (s : MCSymbol) : Nat :=
  if next = some s then 0 else size (createUncondBranch s)

theorem blockSize_jump {f : Function} {b : MCSymbol}
    (hq : ∀ i ∈ (f.block b).insts.map (·.inst), Quiet I i) (hs : (f.block b).succs = [s]) :
    blockSize I size f next b =
      instsSize size ((f.block b).insts.map (·.inst)) + jumpSize size next s := by
  have ha : analyzeBranch I (f.basicBlock b).insts = _ := analyzeBranch_quiet hq
  have hfix : fixBlock I next (f.basicBlock b) =
      if next = some s then some (f.basicBlock b)
      else some { f.basicBlock b with
        insts := (f.basicBlock b).insts ++ [createUncondBranch s] } := by
    simp only [fixBlock, ha, eraseAt]
    simp only [Function.basicBlock, hs]
  by_cases hnext : next = some s
  · rw [blockSize, hfix, if_pos hnext, jumpSize, if_pos hnext]
    rfl
  · rw [blockSize, hfix, if_neg hnext, jumpSize, if_neg hnext]
    show instsSize size ((f.block b).insts.map (·.inst) ++ [createUncondBranch s]) = _
    rw [instsSize_append]
    rfl

/-- A block that is the same, with the same block behind it, keeps its bytes. -/
theorem blockSize_congr {f f' : Function} {b : MCSymbol} (h : f'.block b = f.block b) :
    blockSize I size f' next b = blockSize I size f next b := by
  rw [blockSize, blockSize, Function.basicBlock, Function.basicBlock, h]

variable {m : Merge}

/-- The bytes of the suffix. -/
def Merge.suffixSize (size : MCInst → Nat) (m : Merge) : Nat :=
  instsSize size (((m.before.block m.front).suffix m.suffixLen).map (·.inst))

theorem Merge.Ready.longer (h : m.Ready I size) :
    size (createUncondBranch m.before.next) < m.suffixSize size := by
  obtain ⟨k, n, hk, hn⟩ := h.keyed
  rw [Merge.suffixSize, (hk m.front mem_cons_self).suffixSize]
  exact hn

/-- A merged block gives its suffix for a jump, unless the new block is behind it. -/
theorem Merge.Ready.size_merged (hI : PlainReturns I) (h : m.Ready I size) {b : MCSymbol}
    (hb : b ∈ m.front :: m.others) (next next' : Option MCSymbol) :
    blockSize I size m.result next' b + m.suffixSize size =
      blockSize I size m.before next b + jumpSize size next' m.before.next := by
  obtain ⟨k, n, hk, -⟩ := h.keyed
  have hq := (hk b hb).quiet hI
  have hq' : ∀ i ∈ (m.result.block b).insts.map (·.inst), Quiet I i := by
    rw [h.block_merged hb]
    intro i hi
    exact hq i (map_subset _ (take_subset _ _) hi)
  have hsuffix : m.suffixSize size =
      instsSize size (((m.before.block b).suffix m.suffixLen).map (·.inst)) := by
    rw [(hk b hb).suffixSize, Merge.suffixSize, (hk m.front mem_cons_self).suffixSize]
  rw [blockSize_jump hq' (h.succs_merged hb), blockSize_return hq (h.succs hb), h.block_merged hb,
    hsuffix, ← (m.before.block b).erase_append_suffix m.suffixLen, map_append, instsSize_append]
  show instsSize size (((m.before.block b).eraseSuffix m.suffixLen).map (·.inst)) + _ + _ = _
  omega

/-- The new block has the bytes of the suffix. -/
theorem Merge.Ready.size_tail (hI : PlainReturns I) (h : m.Ready I size)
    (next : Option MCSymbol) :
    blockSize I size m.result next m.before.next = m.suffixSize size := by
  obtain ⟨k, n, hk, -⟩ := h.keyed
  have hq := (hk m.front mem_cons_self).quiet hI
  rw [blockSize_return _ (by rw [m.block_tail]; rfl), m.block_tail]
  · rfl
  · rw [m.block_tail]
    intro i hi
    exact hq i (map_subset _ (drop_subset _ _) hi)

/-- The number of merged blocks in a list. -/
def Merge.count (m : Merge) (l : List MCSymbol) : Nat := l.countP (· ∈ m.front :: m.others)

theorem Merge.count_cons_pos {a : MCSymbol} (ha : a ∈ m.front :: m.others) :
    m.count (a :: l) = m.count l + 1 :=
  countP_cons_of_pos (by simpa using ha)

theorem Merge.count_cons_neg {a : MCSymbol} (ha : a ∉ m.front :: m.others) :
    m.count (a :: l) = m.count l :=
  countP_cons_of_neg (by simpa using ha)

theorem fragmentSize_cons (f : Function) (a : MCSymbol) (l : List MCSymbol) :
    fragmentSize I size f (a :: l) = blockSize I size f l.head? a + fragmentSize I size f l := by
  cases l <;> rfl

/-- What the first block of a list gives away when the block behind it is not the new one. -/
theorem Merge.Ready.size_head (hI : PlainReturns I) (h : m.Ready I size) {a : MCSymbol}
    (ha : a < m.before.next) (hnext : next ≠ some m.before.next) :
    blockSize I size m.result next a + m.count (a :: l) * m.suffixSize size +
        m.count l * size (createUncondBranch m.before.next) =
      blockSize I size m.before next a + m.count l * m.suffixSize size +
        m.count (a :: l) * size (createUncondBranch m.before.next) := by
  by_cases hmem : a ∈ m.front :: m.others
  · have := h.size_merged hI hmem next next
    rw [jumpSize, if_neg hnext] at this
    rw [m.count_cons_pos hmem, Nat.succ_mul, Nat.succ_mul]
    omega
  · rw [m.count_cons_neg hmem, blockSize_congr (m.block_other ha hmem)]

theorem head?_ne_next {n : MCSymbol} (h : ∀ b ∈ l, b < n) :
    l.head? ≠ some n := fun hl => (h n (mem_of_mem_head? hl)).ne rfl

/-- A fragment in which nothing is inserted. -/
theorem Merge.Ready.size_fragment (hI : PlainReturns I) (h : m.Ready I size) :
    ∀ {l : List MCSymbol}, (∀ b ∈ l, b < m.before.next) →
      fragmentSize I size m.result l + m.count l * m.suffixSize size =
        fragmentSize I size m.before l + m.count l * size (createUncondBranch m.before.next) := by
  intro l
  induction l with
  | nil => intro _; simp [fragmentSize, Merge.count]
  | cons a l ih =>
    intro hl
    have hrest := fun b hb => hl b (mem_cons_of_mem _ hb)
    have hhead := h.size_head hI (l := l) (hl a mem_cons_self) (head?_ne_next hrest)
    have hl := ih hrest
    rw [fragmentSize_cons, fragmentSize_cons]
    omega

/-- A fragment with the new block behind a merged one. -/
theorem Merge.Ready.size_insertAfter (hI : PlainReturns I) (h : m.Ready I size)
    (hs : s ∈ m.front :: m.others) :
    ∀ {l : List MCSymbol}, (∀ b ∈ l, b < m.before.next) → s ∈ l →
      fragmentSize I size m.result (insertAfter s m.before.next l) +
          m.count l * m.suffixSize size + size (createUncondBranch m.before.next) =
        fragmentSize I size m.before l + m.suffixSize size +
          m.count l * size (createUncondBranch m.before.next) := by
  intro l
  induction l with
  | nil => intro _ h; exact absurd h not_mem_nil
  | cons a l ih =>
    intro hl hmem
    have hrest := fun b hb => hl b (mem_cons_of_mem _ hb)
    by_cases ha : a = s
    · subst ha
      have hmerged := h.size_merged hI hs l.head? (some m.before.next)
      have htail := h.size_tail hI l.head?
      have hfrag := h.size_fragment hI hrest
      rw [jumpSize, if_pos rfl] at hmerged
      rw [insertAfter, if_pos rfl, fragmentSize_cons, fragmentSize_cons, fragmentSize_cons,
        head?_cons, m.count_cons_pos hs, Nat.succ_mul, Nat.succ_mul]
      omega
    · have hne : (insertAfter s m.before.next l).head? = l.head? := by
        cases l with
        | nil => rfl
        | cons b l =>
          rw [insertAfter]
          split <;> rfl
      have hhead := h.size_head hI (l := l) (hl a mem_cons_self) (head?_ne_next hrest)
      have hl := ih hrest ((mem_cons.mp hmem).resolve_left fun h => ha h.symm)
      rw [insertAfter, if_neg ha, fragmentSize_cons, fragmentSize_cons, hne]
      omega

theorem insertAfter_of_not_mem {t : MCSymbol} (h : s ∉ l) : insertAfter s t l = l := by
  induction l with
  | nil => rfl
  | cons a l ih =>
    rw [mem_cons, not_or] at h
    rw [insertAfter, if_neg (Ne.symm h.1), ih h.2]

theorem insertAfter_perm {t : MCSymbol} (h : s ∈ l) : insertAfter s t l ~ t :: l := by
  induction l with
  | nil => exact absurd h not_mem_nil
  | cons a l ih =>
    rw [insertAfter]
    split
    · exact .swap _ _ _
    · next ha =>
      exact ((ih ((mem_cons.mp h).resolve_left fun h => ha h.symm)).cons a).trans (.swap _ _ _)

/-- Of a layout, one fragment gets the new block. -/
theorem layout_split {t : MCSymbol} {layout : List (List MCSymbol)} (h : s ∈ layout.flatten)
    (hnodup : layout.flatten.Nodup) :
    ∃ A l B, layout = A ++ l :: B ∧ s ∈ l ∧
      layout.map (insertAfter s t) = A ++ insertAfter s t l :: B := by
  obtain ⟨l, hl, hs⟩ := mem_flatten.mp h
  obtain ⟨A, B, rfl⟩ := append_of_mem hl
  rw [flatten_append, flatten_cons, nodup_append', nodup_append'] at hnodup
  have hA : ∀ x ∈ A, insertAfter s t x = x := fun x hx => insertAfter_of_not_mem fun hsx =>
    hnodup.2.2 (mem_flatten.mpr ⟨x, hx, hsx⟩) (mem_append_left _ hs)
  have hB : ∀ x ∈ B, insertAfter s t x = x := fun x hx => insertAfter_of_not_mem fun hsx =>
    hnodup.2.1.2.2 hs (mem_flatten.mpr ⟨x, hx, hsx⟩)
  refine ⟨A, l, B, rfl, hs, ?_⟩
  rw [map_append, map_cons, map_congr_left hA, map_congr_left hB, map_id', map_id']

theorem foldl_best {f : Function} {blocks : List MCSymbol} : ∀ best : MCSymbol,
    blocks.foldl (fun best b => if (f.block best).count < (f.block b).count then b else best) best ∈
      best :: blocks := by
  induction blocks with
  | nil => intro best; exact mem_cons_self
  | cons b blocks ih =>
    intro best
    have h := ih (if (f.block best).count < (f.block b).count then b else best)
    rw [foldl_cons]
    rcases mem_cons.mp h with h | h
    · rw [h]
      split <;> simp
    · exact mem_cons_of_mem _ (mem_cons_of_mem _ h)

/-- The block behind which the new one is put. -/
def Merge.source (m : Merge) : MCSymbol :=
  chooseFallthroughSource m.before m.front (m.front :: m.others)

theorem Merge.source_mem (m : Merge) : m.source ∈ m.front :: m.others := by
  have h : m.source ∈ m.front :: m.front :: m.others := foldl_best _
  exact (mem_cons.mp h).elim (fun h => h ▸ mem_cons_self) id

/-- All merged blocks are in the layout. -/
theorem Merge.Ready.count_layout (h : m.Ready I size) :
    m.count m.before.layout.flatten = m.others.length + 1 := by
  have hperm :
      (m.before.layout.flatten.filter (· ∈ m.front :: m.others)) ~ m.front :: m.others := by
    refine (perm_ext_iff_of_nodup (h.wellFormed.layout_nodup.filter _) h.nodup).mpr fun b => ?_
    rw [mem_filter, decide_eq_true_eq]
    exact ⟨fun hb => hb.2, fun hb => ⟨h.placed b hb, hb⟩⟩
  rw [Merge.count, countP_eq_length_filter, hperm.length_eq, length_cons]

theorem Merge.count_append (m : Merge) (as bs : List MCSymbol) :
    m.count (as ++ bs) = m.count as + m.count bs := countP_append

/-- Fragments in which nothing is inserted. -/
theorem Merge.Ready.size_fragments (hI : PlainReturns I) (h : m.Ready I size) :
    ∀ {A : List (List MCSymbol)}, (∀ b ∈ A.flatten, b < m.before.next) →
      (A.map (fragmentSize I size m.result)).sum + m.count A.flatten * m.suffixSize size =
        (A.map (fragmentSize I size m.before)).sum +
          m.count A.flatten * size (createUncondBranch m.before.next) := by
  intro A
  induction A with
  | nil => intro _; simp [Merge.count]
  | cons l A ih =>
    intro hA
    have hl := h.size_fragment hI (l := l) fun b hb => hA b (mem_append_left _ hb)
    have hA := ih fun b hb => hA b (mem_append_right _ hb)
    rw [map_cons, map_cons, sum_cons, sum_cons, flatten_cons, m.count_append, Nat.add_mul,
      Nat.add_mul]
    omega

/-- A merge of `n + 1` blocks saves `n` times what the suffix is longer than a jump. -/
theorem codeSize_merge (hI : PlainReturns I) (h : m.Ready I size) :
    codeSize I size m.result + m.others.length * m.suffixSize size =
      codeSize I size m.before +
        m.others.length * size (createUncondBranch m.before.next) := by
  obtain ⟨A, l, B, hlayout, hs, hresult⟩ := layout_split (t := m.before.next)
    (h.placed _ m.source_mem) h.wellFormed.layout_nodup
  have hknown := h.wellFormed.layout_known
  have hcount := h.count_layout
  have hlayout' : m.result.layout = A ++ insertAfter m.source m.before.next l :: B := hresult
  rw [hlayout, flatten_append, flatten_cons] at hknown
  rw [hlayout, flatten_append, flatten_cons, m.count_append, m.count_append] at hcount
  have hA := h.size_fragments hI fun b hb => hknown b (mem_append_left _ hb)
  have hl := h.size_insertAfter hI m.source_mem
    (fun b hb => hknown b (mem_append_right _ (mem_append_left _ hb))) hs
  have hB := h.size_fragments hI fun b hb => hknown b (mem_append_right _ (mem_append_right _ hb))
  rw [codeSize, codeSize, hlayout', hlayout, map_append, map_append, map_cons, map_cons,
    sum_append, sum_append, sum_cons, sum_cons]
  have hS := congrArg (· * m.suffixSize size) hcount
  have hJ := congrArg (· * size (createUncondBranch m.before.next)) hcount
  simp only [Nat.add_mul, Nat.one_mul] at hS hJ
  omega

theorem codeSize_merge_lt (hI : PlainReturns I) (h : m.Ready I size) :
    codeSize I size m.result < codeSize I size m.before := by
  have hsize := codeSize_merge hI h
  have hlt := Nat.mul_lt_mul_of_pos_left h.longer (length_pos_iff.mpr h.two)
  omega

end MergeSize

/-! ## Runs of the pass -/

section Run

variable {I : MCInstrInfo} {size : MCInst → Nat} {le : Key → Key → Bool}

theorem mem_insertAfter {s t x : MCSymbol} {l : List MCSymbol} (h : x ∈ insertAfter s t l) :
    x = t ∨ x ∈ l := by
  by_cases hs : s ∈ l
  · exact mem_cons.mp ((insertAfter_perm hs).mem_iff.mp h)
  · rw [insertAfter_of_not_mem hs] at h
    exact .inr h

theorem nodup_insertAfter {s t : MCSymbol} {l : List MCSymbol} (h : l.Nodup) (ht : t ∉ l) :
    (insertAfter s t l).Nodup := by
  by_cases hs : s ∈ l
  · exact (insertAfter_perm hs).nodup_iff.mpr (nodup_cons.mpr ⟨ht, h⟩)
  · rwa [insertAfter_of_not_mem hs]

/-- The layout behind a merge has one block more. -/
theorem Merge.Ready.layout_perm {m : Merge} (h : m.Ready I size) :
    m.result.layout.flatten ~ m.before.next :: m.before.layout.flatten := by
  obtain ⟨A, l, B, hlayout, hs, hresult⟩ := layout_split (t := m.before.next)
    (h.placed _ m.source_mem) h.wellFormed.layout_nodup
  have hlayout' : m.result.layout = A ++ insertAfter m.source m.before.next l :: B := hresult
  rw [hlayout', hlayout, flatten_append, flatten_append, flatten_cons, flatten_cons]
  exact ((Perm.append_left _ ((insertAfter_perm hs).append_right _))).trans perm_middle

/-- A merge leaves a well-formed function. -/
theorem Merge.Ready.wellFormed_result {m : Merge} (h : m.Ready I size) : m.result.WellFormed where
  closed b hb c hc := by
    rw [m.result_next, Nat.lt_succ_iff] at hb ⊢
    by_cases htail : b = m.before.next
    · subst htail
      rw [m.block_tail] at hc
      exact absurd hc not_mem_nil
    · have hb : b < m.before.next := lt_of_le_of_ne hb htail
      by_cases hmem : b ∈ m.front :: m.others
      · rw [h.succs_merged hmem, mem_singleton] at hc
        exact hc.le
      · rw [m.block_other hb hmem] at hc
        exact (h.wellFormed.closed b hb c hc).le
  order_nodup := by
    refine nodup_insertAfter h.wellFormed.order_nodup fun hmem => ?_
    exact (h.wellFormed.layout_known _ (h.wellFormed.order_placed _ hmem)).ne rfl
  order_placed b hb := by
    rw [h.layout_perm.mem_iff, mem_cons]
    exact (mem_insertAfter hb).imp id (h.wellFormed.order_placed b)
  layout_nodup := by
    refine h.layout_perm.nodup_iff.mpr (nodup_cons.mpr ⟨fun hmem => ?_, h.wellFormed.layout_nodup⟩)
    exact (h.wellFormed.layout_known _ hmem).ne rfl
  layout_known b hb := by
    rw [m.result_next, Nat.lt_succ_iff]
    rcases mem_cons.mp (h.layout_perm.mem_iff.mp hb) with rfl | hb
    · exact Nat.le_refl _
    · exact (h.wellFormed.layout_known b hb).le

/-- Groups that can be merged one behind the other: no two have a block in common. -/
structure Mergeable (I : MCInstrInfo) (size : MCInst → Nat) (suffixLen : Nat) (f : Function)
    (gs : List Group) : Prop where
  nodup : ∀ g ∈ gs, g.blocks.Nodup
  placed : ∀ g ∈ gs, ∀ b ∈ g.blocks, b ∈ f.layout.flatten
  keyed : ∀ g ∈ gs, ∀ b ∈ g.blocks, Keyed I size (f.block b) suffixLen g.key g.suffixSize
  disjoint : gs.Pairwise fun g g' => ∀ b ∈ g.blocks, b ∉ g'.blocks

variable {f : Function}

theorem Mergeable.tail {suffixLen : Nat} {g : Group} {gs : List Group}
    (h : Mergeable I size suffixLen f (g :: gs)) : Mergeable I size suffixLen f gs where
  nodup g' hg := h.nodup g' (mem_cons_of_mem _ hg)
  placed g' hg := h.placed g' (mem_cons_of_mem _ hg)
  keyed g' hg := h.keyed g' (mem_cons_of_mem _ hg)
  disjoint := (pairwise_cons.mp h.disjoint).2

theorem groups_mergeable {unused : List MCSymbol} {suffixLen : Nat} (hnodup : unused.Nodup)
    (hplaced : ∀ b ∈ unused, b ∈ f.layout.flatten) :
    Mergeable I size suffixLen f (groups I size le f unused suffixLen) where
  nodup g hg := by
    obtain ⟨k, -, rfl⟩ := mem_map.mp hg
    exact hnodup.filter _
  placed g hg b hb := by
    obtain ⟨k, -, rfl⟩ := mem_map.mp hg
    exact hplaced b (mem_of_mem_filter hb)
  keyed g hg b hb := by
    obtain ⟨k, -, rfl⟩ := mem_map.mp hg
    have hkey : ∀ c ∈ unused.filter fun b =>
        (getSuffixKey I size (f.block b) suffixLen).map (·.1) = some k,
        ∃ n, getSuffixKey I size (f.block c) suffixLen = some (k, n) := by
      intro c hc
      simpa [Option.map_eq_some_iff] using (mem_filter.mp hc).2
    obtain ⟨n, hn⟩ := hkey b hb
    obtain ⟨last, hlast⟩ := Option.isSome_iff_exists.mp
      (getLast?_isSome.mpr (ne_nil_of_mem hb))
    obtain ⟨n', hn'⟩ := hkey last (mem_of_getLast? hlast)
    have hb := keyed_of_getSuffixKey hn
    show Keyed I size (f.block b) suffixLen k (Option.getD (Option.map _ (Option.bind _ _)) 0)
    rw [hlast, Option.bind_some, hn', Option.map_some, Option.getD_some,
      ← hb.same_size (keyed_of_getSuffixKey hn')]
    exact hb
  disjoint := by
    refine Pairwise.map _ (fun k k' (hne : k ≠ k') b hb hb' => hne ?_)
      ((perm_insertionSort _ _).nodup_iff.mpr (nodup_dedup _))
    have hk := (mem_filter.mp hb).2
    have hk' := (mem_filter.mp hb').2
    rw [decide_eq_true_eq] at hk hk'
    exact Option.some.inj (hk.symm.trans hk')

section Induction

variable {P : State → Prop} {candidates : List MCSymbol}

/-- What the loops keep besides `P`. -/
structure Kept (P : State → Prop) (candidates : List MCSymbol) (s : State) : Prop where
  wellFormed : s.function.WellFormed
  placed : ∀ b ∈ candidates, b ∈ s.function.layout.flatten
  holds : P s

variable (hstep : ∀ (s : State) suffixLen front others,
  Merge.Ready I size ⟨s.function, suffixLen, front, others⟩ → P s →
    P (s.merged suffixLen front others))
include hstep

theorem kept_merged {s : State} {suffixLen : Nat} {front : MCSymbol} {others : List MCSymbol}
    (h : Kept P candidates s) (hm : Merge.Ready I size ⟨s.function, suffixLen, front, others⟩) :
    Kept P candidates (s.merged suffixLen front others) where
  wellFormed := hm.wellFormed_result
  placed b hb := hm.layout_perm.mem_iff.mpr (mem_cons_of_mem _ (h.placed b hb))
  holds := hstep s suffixLen front others hm h.holds

/-- The loop over the groups. The blocks of a group are as they were when it was made. -/
theorem kept_mergeGroups {suffixLen : Nat} {gs : List Group} :
    ∀ {s : State}, Kept P candidates s → Mergeable I size suffixLen s.function gs →
      Kept P candidates (gs.foldl (mergeGroup size suffixLen) s) := by
  induction gs with
  | nil => exact fun h _ => h
  | cons g gs ih =>
    intro s h hgs
    rw [foldl_cons, mergeGroup]
    split
    · next front second rest hblocks =>
      split
      · exact ih h hgs.tail
      · split
        · exact ih h hgs.tail
        · next hlonger =>
          have hmem : ∀ b ∈ front :: second :: rest, b ∈ g.blocks := fun b hb => hblocks ▸ hb
          have hm : Merge.Ready I size ⟨s.function, suffixLen, front, second :: rest⟩ :=
            { wellFormed := h.wellFormed
              nodup := hblocks ▸ hgs.nodup g mem_cons_self
              two := cons_ne_nil _ _
              placed := fun b hb => hgs.placed g mem_cons_self b (hmem b hb)
              keyed := ⟨g.key, g.suffixSize,
                fun b hb => hgs.keyed g mem_cons_self b (hmem b hb), Nat.lt_of_not_le hlonger⟩ }
          refine ih (kept_merged hstep h hm) ⟨hgs.tail.nodup, ?_, ?_, hgs.tail.disjoint⟩
          · intro g' hg' b hb
            exact hm.layout_perm.mem_iff.mpr (mem_cons_of_mem _ (hgs.tail.placed g' hg' b hb))
          · intro g' hg' b hb
            have hother : b ∉ front :: second :: rest := fun hmem' =>
              (pairwise_cons.mp hgs.disjoint).1 g' hg' b (hmem b hmem') hb
            have hknown := h.wellFormed.layout_known b (hgs.tail.placed g' hg' b hb)
            have hsame : (s.merged suffixLen front (second :: rest)).function.block b =
                s.function.block b :=
              Merge.block_other ⟨s.function, suffixLen, front, second :: rest⟩ hknown hother
            rw [hsame]
            exact hgs.tail.keyed g' hg' b hb
    · exact ih h hgs.tail

theorem kept_mergeLengths (hnodup : candidates.Nodup) : ∀ {n : Nat} {s : State},
    Kept P candidates s → Kept P candidates (mergeLengths I size le candidates n s) := by
  intro n
  induction n with
  | zero => exact fun h => h
  | succ n ih =>
    intro s h
    cases n with
    | zero => exact h
    | succ n =>
      refine ih (kept_mergeGroups hstep h (groups_mergeable (hnodup.filter _) ?_))
      exact fun b hb => h.placed b (mem_of_mem_filter hb)

/-- What holds at first and is kept by every merge of return blocks with one key holds in the
end. -/
theorem runOnFunction_induction {maxSuffix : Nat} {f : Function} (hf : f.WellFormed)
    (h : P ⟨f, [], []⟩) : P (runOnFunction I size le maxSuffix f) := by
  rw [runOnFunction]
  split
  · exact h
  · refine (kept_mergeLengths hstep (hf.order_nodup.filter _) ⟨hf, ?_, h⟩).holds
    exact fun b hb => hf.order_placed b (mem_of_mem_filter hb)

end Induction

variable {σ : Type*} {exec : MCInst → Nat → Nat → σ → σ} {goes : List Inst → σ → Nat}

theorem Execution.known (hf : f.WellFormed) {b : MCSymbol} {s : σ} {path : List MCSymbol}
    {r : Return σ} (h : Execution exec goes f b s path r) (hb : b < f.next) :
    ∀ c ∈ path, c < f.next := by
  induction h with
  | ends _ => exact fun c hc => mem_singleton.mp hc ▸ hb
  | goes hgo _ ih =>
    intro c hc
    rcases mem_cons.mp hc with rfl | hc
    · exact hb
    · exact ih (hf.closed _ hb _ (Block.mem_of_goesTo hgo)) c hc

theorem Preserves.refl (hf : f.WellFormed) : Preserves exec goes f f where
  backward b hb s path r h := by
    rwa [filter_eq_self.mpr fun c hc => decide_eq_true (h.known hf hb c hc)]
  forward b hb s path r h :=
    ⟨path, h, filter_eq_self.mpr fun c hc => decide_eq_true (h.known hf hb c hc)⟩

theorem filter_next {n n' : Nat} (hn : n ≤ n') (path : List MCSymbol) :
    (path.filter (· < n')).filter (· < n) = path.filter (· < n) := by
  rw [filter_filter]
  refine filter_congr fun b _ => ?_
  rw [← Bool.decide_and, decide_eq_decide]
  exact and_iff_left_of_imp fun hb => Nat.lt_of_lt_of_le hb hn

theorem Preserves.trans {g h : Function} (hn : f.next ≤ g.next) (hfg : Preserves exec goes f g)
    (hgh : Preserves exec goes g h) : Preserves exec goes f h where
  backward b hb s path r he := by
    rw [← filter_next hn]
    exact hfg.backward b hb s _ r (hgh.backward b (Nat.lt_of_lt_of_le hb hn) s path r he)
  forward b hb s path r he := by
    obtain ⟨path₁, he₁, rfl⟩ := hfg.forward b hb s path r he
    obtain ⟨path₂, he₂, rfl⟩ := hgh.forward b (Nat.lt_of_lt_of_le hb hn) s path₁ r he₁
    exact ⟨path₂, he₂, (filter_next hn path₂).symm⟩

/-- Every merge of a run is one of blocks with one key. -/
theorem runOnFunction_ready {maxSuffix : Nat} (hf : f.WellFormed) :
    ∀ m ∈ (runOnFunction I size le maxSuffix f).merges, m.Ready I size := by
  refine runOnFunction_induction
    (P := fun s => ∀ m ∈ s.merges, m.Ready I size) ?_ hf fun m hm => absurd hm not_mem_nil
  intro s suffixLen front others hready h m hm
  rcases mem_append.mp hm with hm | hm
  · exact h m hm
  · exact mem_singleton.mp hm ▸ hready

/-- A run saves at least a byte with each merge. -/
theorem runOnFunction_size (hI : PlainReturns I) {maxSuffix : Nat} (hf : f.WellFormed) :
    codeSize I size (runOnFunction I size le maxSuffix f).function +
      (runOnFunction I size le maxSuffix f).merges.length ≤ codeSize I size f := by
  refine runOnFunction_induction
    (P := fun s => codeSize I size s.function + s.merges.length ≤ codeSize I size f) ?_ hf
    (Nat.le_refl _)
  intro s suffixLen front others hready h
  have hlt : codeSize I size (s.function.merge suffixLen front others) <
      codeSize I size s.function := codeSize_merge_lt hI hready
  rw [State.merged, length_append, length_singleton]
  dsimp only
  omega

/-- What a run keeps while no merged suffix reads its address. -/
structure Faithful (exec : MCInst → Nat → Nat → σ → σ) (goes : List Inst → σ → Nat) (f : Function)
    (s : State) : Prop where
  wellFormed : s.function.WellFormed
  grows : f.next ≤ s.function.next
  before : ∀ m ∈ s.merges, Preserves exec goes f m.before
  now : Preserves exec goes f s.function

theorem runOnFunction_faithful {maxSuffix : Nat} (hf : f.WellFormed)
    (hp : ∀ m ∈ (runOnFunction I size le maxSuffix f).merges, m.Placeless exec) :
    Faithful exec goes f (runOnFunction I size le maxSuffix f) := by
  refine runOnFunction_induction
    (P := fun s => (∀ m ∈ s.merges, m.Placeless exec) → Faithful exec goes f s) ?_ hf ?_ hp
  · intro s suffixLen front others hready h hp
    have hs := h fun m hm => hp m (mem_append_left _ hm)
    have hmerge : Preserves exec goes s.function (s.function.merge suffixLen front others) :=
      preserves_merge hready (hp _ (mem_append_right _ (mem_singleton_self _)))
    refine ⟨hready.wellFormed_result, Nat.le_succ_of_le hs.grows, ?_, hs.now.trans hs.grows hmerge⟩
    intro m hm
    rcases mem_append.mp hm with hm | hm
    · exact hs.before m hm
    · exact mem_singleton.mp hm ▸ hs.now
  · exact fun _ => ⟨hf, Nat.le_refl _, fun m hm => absurd hm not_mem_nil, .refl hf⟩

/-- Every merge of a run makes the function smaller, and the run keeps every execution when no
instruction of a merged suffix reads its address. -/
theorem preserves_runOnFunction (hI : PlainReturns I) (size : MCInst → Nat)
    (le : Key → Key → Bool) (maxSuffix : Nat) {f : Function} (hf : f.WellFormed)
    (exec : MCInst → Nat → Nat → σ → σ) (goes : List Inst → σ → Nat) :
    (∀ m ∈ (runOnFunction I size le maxSuffix f).merges,
        codeSize I size m.result < codeSize I size m.before) ∧
      codeSize I size (runOnFunction I size le maxSuffix f).function +
        (runOnFunction I size le maxSuffix f).merges.length ≤ codeSize I size f ∧
      ((∀ m ∈ (runOnFunction I size le maxSuffix f).merges, m.Placeless exec) →
        (∀ m ∈ (runOnFunction I size le maxSuffix f).merges, Preserves exec goes f m.before) ∧
          Preserves exec goes f (runOnFunction I size le maxSuffix f).function) := by
  refine ⟨fun m hm => codeSize_merge_lt hI (runOnFunction_ready hf m hm), runOnFunction_size hI hf,
    fun hp => ?_⟩
  have h : Faithful exec goes f (runOnFunction I size le maxSuffix f) :=
    runOnFunction_faithful hf hp
  exact ⟨h.before, h.now⟩

end Run

/-! ## An instruction that reads its address -/

/-- Executions are determined. -/
theorem Execution.unique {σ : Type*} {exec : MCInst → Nat → Nat → σ → σ}
    {goes : List Inst → σ → Nat} {f : Function} {b : MCSymbol} {s : σ} {path path' : List MCSymbol} {r r' : Return σ}
    (h : Execution exec goes f b s path r) (h' : Execution exec goes f b s path' r') :
    path = path' ∧ r = r' := by
  induction h generalizing path' r' with
  | ends hs =>
    cases h' with
    | ends _ => exact ⟨rfl, rfl⟩
    | goes hgo _ => simp [Block.goesTo, hs] at hgo
  | goes hgo _ ih =>
    cases h' with
    | ends hs => simp [Block.goesTo, hs] at hgo
    | goes hgo' rest' =>
      obtain rfl := Option.some.inj (hgo.symm.trans hgo')
      obtain ⟨rfl, rfl⟩ := ih rest'
      exact ⟨rfl, rfl⟩

section Reading

/-- `auipc` is the first of the opcodes that are not named. -/
def auipcTable : MCInstrInfo := fun _ => { numDefs := 1 }

theorem auipcTable_plainReturns : PlainReturns auipcTable := fun _ _ => rfl

/-- `auipc` and `addi` with immediates. -/
def execAt (i : MCInst) (_flags place : Nat) (r : RegFile) : RegFile :=
  match i.opcode, i.operands with
  | .other 0, [.reg rd, .imm v] =>
    fun x => if x = rd then BitVec.ofNat 32 place + BitVec.ofInt 32 v * 4096 else r x
  | .addi, [.reg rd, .reg rs, .imm v] => fun x => if x = rd then r rs + BitVec.ofInt 32 v else r x
  | _, _ => r

/-- The first successor is that of a branch that is taken. -/
def goesTaken (insts : List Inst) (r : RegFile) : Nat :=
  if insts.getLast?.any fun i => taken i.inst r then 0 else 1

/-- A block without marks at its address. -/
def plainBlock (place : Nat) (insts : List MCInst) (succs : List MCSymbol) : Block where
  insts := insts.zipIdx.map fun p => ⟨p.1, 0, false, place + 4 * p.2⟩
  succs := succs
  isValid := true
  isEntryPoint := place = 0
  isLandingPad := false
  hasJumpTable := false
  isCold := false
  count := 0

/-- A branch to one of two returns, with `i` before each. -/
def twoReturns (i : MCInst) : Function where
  block
    | 0 => plainBlock 0
      [⟨.beq, [.reg (gpr 11), .reg (gpr 12), .expr (.symbolRef 0 2)], false⟩] [2, 1]
    | 1 => plainBlock 4 [i, ⟨.jalr, [.reg (gpr 0), .reg (gpr 1), .imm 0], false⟩] []
    | _ => plainBlock 12 [i, ⟨.jalr, [.reg (gpr 0), .reg (gpr 1), .imm 0], false⟩] []
  order := [0, 1, 2]
  layout := [[0, 1, 2]]
  next := 3

theorem twoReturns_wellFormed (i : MCInst) : (twoReturns i).WellFormed where
  closed b hb c hc := by
    have hb : b < 3 := hb
    interval_cases b
    · exact (by decide : ∀ c ∈ [2, 1], c < 3) c hc
    · exact absurd hc not_mem_nil
    · exact absurd hc not_mem_nil
  order_nodup := (by decide : [0, 1, 2].Nodup)
  order_placed b hb := by simpa [twoReturns] using hb
  layout_nodup := (by decide : [0, 1, 2].Nodup)
  layout_known := (by decide : ∀ b ∈ [0, 1, 2], b < 3)

/-- `addi sp, sp, 16`. -/
def popFrame : MCInst := ⟨.addi, [.reg (gpr 2), .reg (gpr 2), .imm 16], false⟩

/-- The run of the pass on two returns, at four bytes an instruction. -/
def runOnReturns (i : MCInst) : State :=
  runOnFunction auipcTable (fun _ => 4) (fun _ _ => true) 12 (twoReturns i)

/-- The returns of a frame are merged, with less code and the same executions. -/
theorem preserves_popFrame :
    codeSize auipcTable (fun _ => 4) (runOnReturns popFrame).function + 1 ≤
        codeSize auipcTable (fun _ => 4) (twoReturns popFrame) ∧
      Preserves execAt goesTaken (twoReturns popFrame) (runOnReturns popFrame).function := by
  obtain ⟨-, hsize, hp⟩ := preserves_runOnFunction auipcTable_plainReturns (fun _ => 4)
    (fun _ _ => true) 12 (twoReturns_wellFormed popFrame) execAt goesTaken
  refine ⟨hsize, (hp fun m hm => ?_).2⟩
  have hm : m ∈ [⟨twoReturns popFrame, 2, 1, [2]⟩] := hm
  obtain rfl := mem_singleton.mp hm
  intro i hi place r
  have hi : i ∈ (plainBlock 4 [popFrame, ⟨.jalr, [.reg (gpr 0), .reg (gpr 1), .imm 0], false⟩]
    []).insts := hi
  simp only [plainBlock, zipIdx_cons, zipIdx_nil, map_cons, map_nil, mem_cons, not_mem_nil,
    or_false] at hi
  rcases hi with rfl | rfl <;> rfl

/-- `auipc a0, 0`. -/
def addressOf : MCInst := ⟨.other 0, [.reg (gpr 10), .imm 0], false⟩

/-- The branch that is taken gets the address in the other block. -/
theorem not_preserves_addressOf :
    ¬ Preserves execAt goesTaken (twoReturns addressOf) (runOnReturns addressOf).function := by
  intro h
  have hbefore : Execution execAt goesTaken (twoReturns addressOf) 0 (fun _ => 0) [0, 2] _ :=
    .goes rfl (.ends rfl)
  have hafter : Execution execAt goesTaken (runOnReturns addressOf).function 0 (fun _ => 0)
      [0, 2, 3] _ := .goes rfl (.goes rfl (.ends rfl))
  obtain ⟨path, he, -⟩ := h.forward 0 (by decide) _ _ _ hbefore
  have hreturn := congrArg (fun r : Return RegFile => r.2 (gpr 10)) (he.unique hafter).2
  exact absurd hreturn (by decide)

end Reading

end RvLlvm.Bolt.TailMerge
