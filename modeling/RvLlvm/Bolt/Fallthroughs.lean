import Mathlib.Data.List.TakeWhile
import RvLlvm.Bolt.AddressTranslation

/-!
# Fall-through edges of a trace

Model of `BoltAddressTranslation::getFallthroughsInTrace`
(`bolt/lib/Profile/BoltAddressTranslation.cpp:251-303`). An iterator of a map is a pair of lists:
the entries before it, the nearest first, and the entries from it on; to read it with no entry left
is undefined, and `none` here. The keys are 32 bits wide, and `upper_bound` cuts the offset it is
given to those.

* `getFallthroughsInTrace_eq`: for offsets that fit a key, the result is the pairs of neighbours
  among the blocks of the trace.
* `not_fallthroughs_wide`: an offset of `2 ^ 32` is taken for zero.
-/

namespace RvLlvm.Bolt.AddressTranslation

open Support

abbrev Entry := U32 × U32

/-- An entry for a branch, and not for the start of a block. -/
def isBranchEntry (e : Entry) : Bool := e.2.val &&& BRANCHENTRY != 0

/-- A position in a map: the entries before it, the nearest first, and those from it on. -/
structure Iterator where
  before : List Entry
  after : List Entry
deriving DecidableEq

/-- `upper_bound`. -/
def upperBound (m : MapTy) (key : U32) : Iterator :=
  ⟨(m.entries.takeWhile fun e => e.1 ≤ key).reverse, m.entries.dropWhile fun e => e.1 ≤ key⟩

/-- `uint32_t` of an offset. -/
def toKey (offset : U64) : U32 := Fin.ofNat (2 ^ 32) offset.val

def toU64 (key : U32) : U64 := key.castLE (by decide)

/-- The first loop: back to the start of a block, or to the first entry. -/
def backToBlock : List Entry → List Entry → Option Iterator
  | [], _ => none
  | e :: before, after =>
    if isBranchEntry e then backToBlock before (e :: after) else some ⟨before, e :: after⟩

/-- The inner loop of the second one, with the distance from `ToIter`. -/
def skipBranches : Nat → List Entry → Option (Nat × List Entry)
  | _, [] => none
  | 0, e :: after => some (0, e :: after)
  | n + 1, e :: after => if isBranchEntry e then skipBranches n after else some (n + 1, e :: after)

/-- The second loop, with the distance from `ToIter`. Each turn brings it closer. -/
def collect : Nat → Nat → List Entry → List (U64 × U64) → Option (List (U64 × U64))
  | _, 0, _, res => some res
  | 0, _ + 1, _, _ => none
  | _ + 1, _ + 1, [], _ => none
  | turns + 1, n + 1, e :: after, res =>
    if isBranchEntry e then collect turns n after res
    else do
      let (n', after') ← skipBranches n after
      let e' ← after'.head?
      if isBranchEntry e' then some res
      else collect turns n' after' (res ++ [(toU64 e.1, toU64 e'.1)])

/-- `getFallthroughsInTrace`: `none` where an iterator is read past the map. -/
def getFallthroughsInTrace (bat : BoltAddressTranslation) (FuncAddress From To : U64) :
    Option (Option (List (U64 × U64))) :=
  if To ≤ From then some (some [])
  else
    let From := From - FuncAddress
    let To := To - FuncAddress
    match bat.maps.find FuncAddress with
    | none => some none
    | some m =>
      let FromIter := upperBound m (toKey From)
      match backToBlock FromIter.before FromIter.after with
      | none => some (some [])
      | some FromIter =>
        match (upperBound m (toKey To)).before with
        | [] => some (some [])
        | e :: before => do
          let first ← FromIter.after.head?
          if e.1 ≤ first.1 then some (some [])
          else
            let n := before.length - FromIter.before.length
            (collect n n FromIter.after []).map some

/-! ## The edges of a trace -/

/-- The keys of the blocks, in ascending order. -/
def blockKeys (m : MapTy) : List U32 := (m.entries.filter fun e => !isBranchEntry e).map Prod.fst

/-- The pairs of neighbours in a list. -/
def neighbours (keys : List U32) : List (U64 × U64) :=
  (keys.zip keys.tail).map fun p => (toU64 p.1, toU64 p.2)

/-- The edges from the last block not above one offset to the last block not above another. -/
def fallthroughs (m : MapTy) (From To : Nat) : List (U64 × U64) :=
  match ((blockKeys m).filter fun k => k.val ≤ From).getLast? with
  | none => []
  | some start => neighbours ((blockKeys m).filter fun k => start ≤ k && decide (k.val ≤ To))

/-! ## The loops -/

/-- The keys of the blocks among some entries. -/
def blocksOf (es : List Entry) : List U32 := (es.filter fun e => !isBranchEntry e).map Prod.fst

theorem blocksOf_append (es fs : List Entry) : blocksOf (es ++ fs) = blocksOf es ++ blocksOf fs := by
  unfold blocksOf
  rw [List.filter_append, List.map_append]

theorem blocksOf_of_branches {es : List Entry} (h : ∀ e ∈ es, isBranchEntry e = true) :
    blocksOf es = [] := by
  unfold blocksOf
  rw [List.filter_eq_nil_iff.mpr, List.map_nil]
  intro e he
  simp [h e he]

theorem blocksOf_cons {e : Entry} (h : isBranchEntry e = false) (es : List Entry) :
    blocksOf (e :: es) = e.1 :: blocksOf es := by
  unfold blocksOf
  rw [List.filter_cons_of_pos (by simp [h]), List.map_cons]

theorem neighbours_cons_cons (k l : U32) (ks : List U32) :
    neighbours (k :: l :: ks) = (toU64 k, toU64 l) :: neighbours (l :: ks) := rfl

/-- The first loop stops at the last block of the entries before, or there is none. -/
theorem backToBlock_spec (before after : List Entry) :
    (backToBlock before after = none ∧ ∀ e ∈ before, isBranchEntry e = true) ∨
      ∃ rest e branches, before = branches.reverse ++ e :: rest ∧
        (∀ b ∈ branches, isBranchEntry b = true) ∧ isBranchEntry e = false ∧
        backToBlock before after = some ⟨rest, e :: (branches ++ after)⟩ := by
  induction before generalizing after with
  | nil => exact .inl ⟨rfl, by simp⟩
  | cons b before ih =>
    by_cases hb : isBranchEntry b = true
    · have hstep : backToBlock (b :: before) after = backToBlock before (b :: after) := if_pos hb
      rcases ih (b :: after) with ⟨hnone, hall⟩ | ⟨rest, e, branches, rfl, hbranches, he, hsome⟩
      · exact .inl ⟨hstep.trans hnone, List.forall_mem_cons.mpr ⟨hb, hall⟩⟩
      · refine .inr ⟨rest, e, branches ++ [b], ?_, ?_, he, ?_⟩
        · simp
        · intro c hc
          rcases List.mem_append.mp hc with hc | hc
          · exact hbranches c hc
          · rwa [List.mem_singleton.mp hc]
        · rw [hstep, hsome, List.append_assoc, List.singleton_append]
    · have hb' : isBranchEntry b = false := by simpa using hb
      exact .inr ⟨before, b, [], rfl, by simp, hb', if_neg hb⟩

/-- The inner loop stops at the next block up to `ToIter`, or else at `ToIter`, a branch. -/
theorem skipBranches_spec (t : Entry) (ts behind : List Entry) :
    (∃ branches e rest, t :: ts = branches ++ e :: rest ∧
        (∀ b ∈ branches, isBranchEntry b = true) ∧ isBranchEntry e = false ∧
        skipBranches ts.length (t :: (ts ++ behind)) = some (rest.length, e :: (rest ++ behind))) ∨
      (∀ b ∈ t :: ts, isBranchEntry b = true) ∧
        ∃ e, isBranchEntry e = true ∧
          skipBranches ts.length (t :: (ts ++ behind)) = some (0, e :: behind) := by
  induction ts generalizing t with
  | nil =>
    by_cases ht : isBranchEntry t = true
    · exact .inr ⟨by simpa using ht, t, ht, rfl⟩
    · exact .inl ⟨[], t, [], rfl, by simp, by simpa using ht, rfl⟩
  | cons u ts ih =>
    by_cases ht : isBranchEntry t = true
    · have hstep : skipBranches (u :: ts).length (t :: (u :: ts ++ behind)) =
          skipBranches ts.length (u :: (ts ++ behind)) := if_pos ht
      rcases ih u with ⟨branches, e, rest, hsplit, hbranches, he, hskip⟩ | ⟨hall, e, he, hskip⟩
      · refine .inl ⟨t :: branches, e, rest, ?_, List.forall_mem_cons.mpr ⟨ht, hbranches⟩, he,
          hstep.trans hskip⟩
        rw [hsplit, List.cons_append]
      · exact .inr ⟨List.forall_mem_cons.mpr ⟨ht, hall⟩, e, he, hstep.trans hskip⟩
    · have ht' : isBranchEntry t = false := by simpa using ht
      exact .inl ⟨[], t, u :: ts, rfl, by simp, ht', if_neg ht⟩

/-- **The second loop** collects the neighbours among the blocks up to `ToIter`. -/
theorem collect_spec (turns : Nat) (e : Entry) (ts behind : List Entry) (res : List (U64 × U64))
    (hturns : ts.length ≤ turns) (he : isBranchEntry e = false) :
    collect turns ts.length (e :: (ts ++ behind)) res =
      some (res ++ neighbours (blocksOf (e :: ts))) := by
  induction turns generalizing e ts res with
  | zero =>
    obtain rfl : ts = [] := List.length_eq_zero_iff.mp (by omega)
    rw [blocksOf_cons he]
    exact congrArg some (List.append_nil res).symm
  | succ turns ih =>
    cases ts with
    | nil =>
      rw [blocksOf_cons he]
      exact congrArg some (List.append_nil res).symm
    | cons t ts =>
      have hturn : collect (turns + 1) (t :: ts).length (e :: (t :: ts ++ behind)) res =
          (do
            let (n', after') ← skipBranches ts.length (t :: (ts ++ behind))
            let e' ← after'.head?
            if isBranchEntry e' then some res
            else collect turns n' after' (res ++ [(toU64 e.1, toU64 e'.1)])) :=
        if_neg (by simp [he])
      rw [hturn, blocksOf_cons he]
      rcases skipBranches_spec t ts behind with
        ⟨branches, e', rest, hsplit, hbranches, he', hskip⟩ | ⟨hall, e', he', hskip⟩
      · have hlength := congrArg List.length hsplit
        simp only [List.length_cons, List.length_append] at hlength hturns
        rw [hskip, hsplit, blocksOf_append, blocksOf_of_branches hbranches, List.nil_append,
          blocksOf_cons he', neighbours_cons_cons]
        simp only [Option.bind_eq_bind, Option.bind_some, List.head?_cons]
        rw [if_neg (by simp [he']), ih e' rest _ (by omega) he', blocksOf_cons he',
          List.append_assoc, List.singleton_append]
      · rw [hskip, blocksOf_of_branches hall]
        simp only [Option.bind_eq_bind, Option.bind_some, List.head?_cons]
        rw [if_pos he']
        exact congrArg some (List.append_nil res).symm

/-! ## The whole function -/

theorem lt_of_mem_dropWhile {es : List Entry} (h : es.Pairwise fun a b => a.1 < b.1) (key : U32)
    {e : Entry} (he : e ∈ es.dropWhile fun a => a.1 ≤ key) : key < e.1 := by
  induction es with
  | nil => cases he
  | cons a es ih =>
    obtain ⟨ha, hes⟩ := List.pairwise_cons.mp h
    by_cases hle : a.1 ≤ key
    · rw [List.dropWhile_cons_of_pos (by simpa using hle)] at he
      exact ih hes he
    · rw [List.dropWhile_cons_of_neg (by simpa using hle)] at he
      rcases List.mem_cons.mp he with rfl | he
      · exact lt_of_not_ge hle
      · exact (lt_of_not_ge hle).trans (ha e he)

theorem le_of_mem_takeWhile {es : List Entry} {key : U32} {e : Entry}
    (he : e ∈ es.takeWhile fun a => a.1 ≤ key) : e.1 ≤ key := by
  simpa using List.mem_takeWhile_imp he

theorem filter_blocksOf (es : List Entry) (p : U32 → Bool) :
    (blocksOf es).filter p = blocksOf (es.filter fun e => p e.1) := by
  unfold blocksOf
  rw [List.filter_map, List.filter_filter, List.filter_filter]
  congr 2
  funext e
  exact Bool.and_comm _ _

theorem filter_append_left {α : Type} {p : α → Bool} {as bs : List α} (ha : ∀ a ∈ as, p a = true)
    (hb : ∀ b ∈ bs, p b = false) : (as ++ bs).filter p = as := by
  rw [List.filter_append, List.filter_eq_self.mpr ha, List.filter_eq_nil_iff.mpr, List.append_nil]
  exact fun b h => by simp [hb b h]

theorem toKey_val {offset : U64} (h : offset.val < 2 ^ 32) : (toKey offset).val = offset.val :=
  Nat.mod_eq_of_lt h

/-- The blocks that the specification takes, from where the two iterators stand. -/
theorem fallthroughs_eq {m : MapTy} {From To : U64} (hFrom : From.val < 2 ^ 32)
    (hTo : To.val < 2 ^ 32) {front branches ts behind : List Entry} {e : Entry}
    (hfrom : (m.entries.takeWhile fun a => a.1 ≤ toKey From) = front ++ e :: branches)
    (hbranches : ∀ b ∈ branches, isBranchEntry b = true) (he : isBranchEntry e = false)
    (hto : (m.entries.takeWhile fun a => a.1 ≤ toKey To) = front ++ e :: ts)
    (hbehind : (m.entries.dropWhile fun a => a.1 ≤ toKey To) = behind) :
    fallthroughs m From.val To.val = neighbours (blocksOf (e :: ts)) := by
  have hkeys : blockKeys m = blocksOf m.entries := rfl
  have hsorted := m.sorted
  have hsplit : m.entries = (front ++ e :: ts) ++ behind := by
    rw [← hto, ← hbehind, List.takeWhile_append_dropWhile]
  -- the blocks not above the first offset end with `e`
  have hlow : (m.entries.filter fun a => decide (a.1.val ≤ From.val)) = front ++ e :: branches := by
    conv_lhs => rw [← List.takeWhile_append_dropWhile (p := fun a => a.1 ≤ toKey From) (l := m.entries)]
    rw [filter_append_left, hfrom]
    · intro a ha
      have hle : a.1.val ≤ (toKey From).val := le_of_mem_takeWhile ha
      rw [toKey_val hFrom] at hle
      exact decide_eq_true hle
    · intro a ha
      have hlt : (toKey From).val < a.1.val := lt_of_mem_dropWhile hsorted _ ha
      rw [toKey_val hFrom] at hlt
      exact decide_eq_false (Nat.not_le.mpr hlt)
  have hstart : ((blockKeys m).filter fun k => decide (k.val ≤ From.val)).getLast? = some e.1 := by
    rw [hkeys, filter_blocksOf, hlow, blocksOf_append, blocksOf_cons he,
      blocksOf_of_branches hbranches]
    exact List.getLast?_concat
  -- and those from `e` to the second offset are the blocks of `e :: ts`
  have hrange : (m.entries.filter fun a => decide (e.1 ≤ a.1) && decide (a.1.val ≤ To.val)) =
      e :: ts := by
    rw [hsplit] at hsorted ⊢
    obtain ⟨hleft, -, -⟩ := List.pairwise_append.mp hsorted
    obtain ⟨-, htail, hfront⟩ := List.pairwise_append.mp hleft
    rw [List.append_assoc, List.filter_append, filter_append_left, List.filter_eq_nil_iff.mpr,
      List.nil_append]
    · intro a ha
      simp [not_le.mpr (hfront a ha e List.mem_cons_self)]
    · intro a ha
      have hle : a.1.val ≤ (toKey To).val :=
        le_of_mem_takeWhile (by rw [hto]; exact List.mem_append_right _ ha)
      rw [toKey_val hTo] at hle
      have hfirst : e.1 ≤ a.1 := by
        rcases List.mem_cons.mp ha with rfl | ha
        · exact le_refl _
        · exact (List.rel_of_pairwise_cons htail ha).le
      simp [hle, hfirst]
    · intro a ha
      have hlt : (toKey To).val < a.1.val :=
        lt_of_mem_dropWhile m.sorted _ (by rw [hbehind]; exact ha)
      rw [toKey_val hTo] at hlt
      simp [Nat.not_le.mpr hlt]
  unfold fallthroughs
  rw [hstart, hkeys]
  dsimp only
  rw [filter_blocksOf, hrange]

theorem getFallthroughsInTrace_of_fits {bat : BoltAddressTranslation} {FuncAddress From To : U64}
    {m : MapTy} (hmap : bat.maps.find FuncAddress = some m) (hlt : From < To)
    (hFrom : (From - FuncAddress).val < 2 ^ 32) (hTo : (To - FuncAddress).val < 2 ^ 32)
    (hle : (From - FuncAddress).val ≤ (To - FuncAddress).val) :
    getFallthroughsInTrace bat FuncAddress From To =
      some (some (fallthroughs m (From - FuncAddress).val (To - FuncAddress).val)) := by
  unfold getFallthroughsInTrace
  rw [if_neg (not_le.mpr hlt), hmap]
  dsimp only
  generalize From - FuncAddress = From at *
  generalize To - FuncAddress = To at *
  have hkeys : toKey From ≤ toKey To := by
    show (toKey From).val ≤ (toKey To).val
    rwa [toKey_val hFrom, toKey_val hTo]
  obtain ⟨A, hA⟩ : ∃ A, (m.entries.takeWhile fun e => e.1 ≤ toKey From) = A := ⟨_, rfl⟩
  obtain ⟨B, hB⟩ : ∃ B, (m.entries.dropWhile fun e => e.1 ≤ toKey From) = B := ⟨_, rfl⟩
  have hAB : m.entries = A ++ B := by rw [← hA, ← hB, List.takeWhile_append_dropWhile]
  have hAkeys : ∀ a ∈ A, decide (a.1 ≤ toKey To) = true := by
    intro a ha
    rw [← hA] at ha
    exact decide_eq_true ((le_of_mem_takeWhile ha).trans hkeys)
  have hupper : upperBound m (toKey From) = ⟨A.reverse, B⟩ := by rw [upperBound, hA, hB]
  rw [hupper]
  rcases backToBlock_spec A.reverse B with ⟨hnone, hall⟩ | ⟨rest, e, branches, hrev, hbranches, he, hsome⟩
  · rw [hnone]
    have hempty : ((blockKeys m).filter fun k => decide (k.val ≤ From.val)) = [] := by
      refine List.filter_eq_nil_iff.mpr fun k hk => ?_
      obtain ⟨a, ha, rfl⟩ := List.mem_map.mp hk
      obtain ⟨ha, hblock⟩ := List.mem_filter.mp ha
      rw [hAB] at ha
      rcases List.mem_append.mp ha with ha | ha
      · rw [hall a (List.mem_reverse.mpr ha)] at hblock
        cases hblock
      · have hlt : (toKey From).val < a.1.val := lt_of_mem_dropWhile m.sorted _ (by rw [hB]; exact ha)
        rw [toKey_val hFrom] at hlt
        simpa using hlt
    unfold fallthroughs
    rw [hempty]
    rfl
  · have hAeq : A = rest.reverse ++ e :: branches := by
      rw [← List.reverse_reverse A, hrev]
      simp
    -- the second iterator stands at or behind the first one
    obtain ⟨C, hC⟩ : ∃ C, (B.takeWhile fun a => a.1 ≤ toKey To) = C := ⟨_, rfl⟩
    obtain ⟨D, hD⟩ : ∃ D, (B.dropWhile fun a => a.1 ≤ toKey To) = D := ⟨_, rfl⟩
    have hto : (m.entries.takeWhile fun a => a.1 ≤ toKey To) =
        rest.reverse ++ e :: (branches ++ C) := by
      rw [hAB, List.takeWhile_append_of_pos hAkeys, hC, hAeq, List.append_assoc, List.cons_append]
    have hbehind : (m.entries.dropWhile fun a => a.1 ≤ toKey To) = D := by
      rw [hAB, List.dropWhile_append_of_pos hAkeys, hD]
    have hspec := fallthroughs_eq hFrom hTo (hA.trans hAeq) hbranches he hto hbehind
    have hafter : e :: (branches ++ B) = e :: ((branches ++ C) ++ D) := by
      rw [← List.takeWhile_append_dropWhile (p := fun a => a.1 ≤ toKey To) (l := B), hC, hD,
        List.append_assoc]
    rw [hsome, upperBound, hto, hspec]
    dsimp only
    rw [hafter]
    generalize branches ++ C = ts at *
    rcases List.eq_nil_or_concat' ts with rfl | ⟨init, b, rfl⟩
    · have hrev' : (rest.reverse ++ [e]).reverse = e :: rest := by simp
      rw [hrev', blocksOf_cons he]
      exact if_pos (le_refl e.1)
    · have hrev' : (rest.reverse ++ e :: (init ++ [b])).reverse = b :: (init.reverse ++ e :: rest) := by
        simp
      have hafter' : e.1 < b.1 := by
        have hsorted := m.sorted
        rw [← List.takeWhile_append_dropWhile (p := fun a => a.1 ≤ toKey To) (l := m.entries), hto]
          at hsorted
        have htail := (List.pairwise_append.mp (List.pairwise_append.mp hsorted).1).2.1
        exact List.rel_of_pairwise_cons htail (by simp)
      have hn : (init.reverse ++ e :: rest).length - rest.length = (init ++ [b]).length := by
        simp
        omega
      have hcollect := collect_spec (init ++ [b]).length e (init ++ [b]) D [] (Nat.le_refl _) he
      rw [hrev']
      dsimp only
      rw [hn, List.head?_cons]
      simp only [Option.bind_eq_bind, Option.bind_some]
      rw [if_neg (not_le.mpr hafter'), hcollect]
      rfl

/-- **The edges of a trace** that starts in the function, at offsets that fit a key. -/
theorem getFallthroughsInTrace_eq (bat : BoltAddressTranslation) (FuncAddress From To : U64)
    (m : MapTy) (hmap : bat.maps.find FuncAddress = some m) (hlt : From < To)
    (hinside : FuncAddress ≤ From) (hfits : To.val - FuncAddress.val < 2 ^ 32) :
    getFallthroughsInTrace bat FuncAddress From To =
      some (some (fallthroughs m (From.val - FuncAddress.val) (To.val - FuncAddress.val))) := by
  have hlt' : From.val < To.val := hlt
  have hinside' : FuncAddress.val ≤ From.val := hinside
  have hFrom : (From - FuncAddress).val = From.val - FuncAddress.val := Fin.sub_val_of_le hinside
  have hTo : (To - FuncAddress).val = To.val - FuncAddress.val :=
    Fin.sub_val_of_le (hinside.trans hlt.le)
  rw [getFallthroughsInTrace_of_fits hmap hlt (by omega) (by omega) (by omega), hFrom, hTo]

/-- Two blocks, at the offsets 0 and 8, with a branch between them and another one behind. -/
def twoBlocks : MapTy :=
  ⟨[(0, 0), (4, 0x80000004), (8, 8), (12, 0x8000000c)], by decide⟩

theorem getFallthroughsInTrace_eq_twoBlocks :
    ∃ bat m, bat.maps.find 0x1000 = some m ∧
      getFallthroughsInTrace bat 0x1000 0x1002 0x100d = some (some [(0, 8)]) ∧
      getFallthroughsInTrace bat 0x1000 0x1002 0x100d = some (some (fallthroughs m 2 13)) :=
  ⟨⟨⟨[(0x1000, twoBlocks)], by decide⟩, .empty⟩, twoBlocks, by decide, by decide,
    getFallthroughsInTrace_eq _ 0x1000 0x1002 0x100d twoBlocks (by decide) (by decide) (by decide)
      (by decide)⟩

/-- The offset `2 ^ 32` is taken for zero. -/
theorem not_fallthroughs_wide :
    ¬∀ (bat : BoltAddressTranslation) (FuncAddress From To : U64) (m : MapTy),
      bat.maps.find FuncAddress = some m → From < To → FuncAddress ≤ From →
      getFallthroughsInTrace bat FuncAddress From To =
        some (some (fallthroughs m (From.val - FuncAddress.val) (To.val - FuncAddress.val))) := by
  intro h
  have hwide := h ⟨⟨[(0x1000, twoBlocks)], by decide⟩, .empty⟩ 0x1000 0x100001000 0x100001008
    twoBlocks (by decide) (by decide) (by decide)
  exact absurd hwide (by decide)

end RvLlvm.Bolt.AddressTranslation
