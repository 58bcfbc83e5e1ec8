import Mathlib.Data.List.Basic
import Mathlib.Data.List.Perm.Basic
import Mathlib.Data.List.Nodup
import RvLlvm.Support.Overwrite

/-!
# The string table

Model of `StringTableBuilder` (`llvm/lib/MC/StringTableBuilder.cpp`): the map from strings to
offsets, `multikeySort` in its vector, and the scan that lets a string share the tail of the one
placed before it. `Size` counts bytes and does not wrap.

The map is hashed, and yields its entries in no order that can be relied on: where it is gone
through, the order is an argument. A `StringPair` is named by its string.

* `multikeySort_spec`: the sort comes to an end, and leaves the strings by their reversals, the
  longer of two with a common tail first.
* `suffix_of_before`: so a string stands behind one that ends with it, if any does.
-/

namespace RvLlvm.Mc.StringTable

open Support

/-- `StringRef`, by its bytes. -/
abbrev Str := List (BitVec 8)

/-- `StringTableBuilder::Kind`. -/
inductive Kind
  | elf
  | winCOFF
  | machO
  | machO64
  | machOLinked
  | machO64Linked
  | raw
  | dwarf
  | xcoff
  deriving DecidableEq

/-- What `initSize` sets `Size` to. -/
def initSize : Kind → Nat
  | .raw | .dwarf => 0
  | .machOLinked | .machO64Linked => 2
  | .machO | .machO64 | .elf => 1
  | .xcoff | .winCOFF => 4

/-- `K != RAW`, as it is added to a size. -/
def nul : Kind → Nat
  | .raw => 0
  | _ => 1

/-- `alignTo`. -/
def alignTo (size alignment : Nat) : Nat := (size + alignment - 1) / alignment * alignment

/-- `isAligned`. -/
def isAligned (alignment pos : Nat) : Bool := pos % alignment == 0

/-- `StringTableBuilder`; `index` is `StringIndexMap`. -/
structure StringTableBuilder where
  index : List (Str × Nat)
  size : Nat
  kind : Kind
  alignment : Nat

namespace StringTableBuilder

/-- The constructor. -/
def new (kind : Kind) (alignment : Nat) : StringTableBuilder := ⟨[], initSize kind, kind, alignment⟩

/-- The strings of the table. -/
def strings (b : StringTableBuilder) : List Str := b.index.map Prod.fst

/-- `getOffset`. -/
def getOffset (b : StringTableBuilder) (s : Str) : Option Nat := b.index.lookup s

/-- `add`. -/
def add (b : StringTableBuilder) (s : Str) : StringTableBuilder × Nat :=
  match b.getOffset s with
  | some offset => (b, offset)
  | none =>
    let start := alignTo b.size b.alignment
    ({ b with index := b.index ++ [(s, start)], size := start + s.length + nul b.kind }, start)

/-- The strings added one after the other. -/
def addAll (b : StringTableBuilder) (added : List Str) : StringTableBuilder :=
  added.foldl (fun b s => (b.add s).1) b

end StringTableBuilder

/-! ## Sorting -/

/-- `charTailAt`: the character at `pos` from the end, and -1 behind the front. -/
def charTailAt (s : Str) (pos : Nat) : Int :=
  if pos ≥ s.length then -1 else (s[s.length - pos - 1]?.getD 0).toNat

/-- `std::swap` of two places in a vector. -/
def swap (vec : List Str) (i j : Nat) : List Str :=
  match vec[i]?, vec[j]? with
  | some a, some b => (vec.set i b).set j a
  | _, _ => vec

/-- The partition of `multikeySort`, with what its variables `I` and `J` are behind it. -/
def partition (pivot : Int) (pos : Nat) : Nat → List Str → Nat → Nat → Nat → List Str × Nat × Nat
  | 0, vec, i, _, j => (vec, i, j)
  | n + 1, vec, i, k, j =>
    if k < j then
      let c := charTailAt (vec[k]?.getD []) pos
      if c > pivot then partition pivot pos n (swap vec i k) (i + 1) (k + 1) j
      else if c < pivot then partition pivot pos n (swap vec (j - 1) k) i k (j - 1)
      else partition pivot pos n vec i (k + 1) j
    else (vec, i, j)

/-- `multikeySort`, with `n` calls nested at most. -/
def multikeySort : Nat → List Str → Nat → Option (List Str)
  | 0, _, _ => none
  | n + 1, vec, pos =>
    if vec.length ≤ 1 then some vec
    else
      let pivot := charTailAt (vec[0]?.getD []) pos
      let q := partition pivot pos vec.length vec 0 1 vec.length
      (multikeySort n (q.1.take q.2.1) pos).bind fun greater =>
        (multikeySort n (q.1.drop q.2.2) pos).bind fun less =>
          let same := (q.1.take q.2.2).drop q.2.1
          (if pivot ≠ -1 then multikeySort n same (pos + 1) else some same).map fun same =>
            greater ++ same ++ less

/-- `s` is sorted before `t`: reading from the end, at the first difference its character is the
greater one. -/
def Before (s t : Str) : Prop :=
  ∃ n, (∀ i < n, charTailAt s i = charTailAt t i) ∧ charTailAt t n < charTailAt s n

theorem charTailAt_eq (s : Str) (pos : Nat) :
    charTailAt s pos = (s.reverse[pos]?).elim (-1) fun c => (c.toNat : Int) := by
  rw [charTailAt]
  split
  next h =>
    rw [List.getElem?_eq_none (by rw [List.length_reverse]; exact h)]
    rfl
  next h =>
    rw [List.getElem?_reverse (by omega), Nat.sub_right_comm,
      List.getElem?_eq_getElem (show s.length - 1 - pos < s.length by omega)]
    rfl

theorem charTailAt_nil (pos : Nat) : charTailAt [] pos = -1 := rfl

theorem neg_one_le_charTailAt (s : Str) (pos : Nat) : -1 ≤ charTailAt s pos := by
  rw [charTailAt]
  split <;> omega

variable {s t : Str}

theorem charTailAt_eq_neg_one {pos : Nat} : charTailAt s pos = -1 ↔ s.length ≤ pos := by
  rw [charTailAt]
  split <;> omega

/-- The characters from the end are those of the reversal. -/
theorem getElem?_reverse_of_charTailAt {i : Nat} (h : charTailAt s i = charTailAt t i) :
    s.reverse[i]? = t.reverse[i]? := by
  rw [charTailAt_eq, charTailAt_eq] at h
  cases hs : s.reverse[i]? with
  | none =>
    cases ht : t.reverse[i]? with
    | none => rfl
    | some d =>
      rw [hs, ht, Option.elim_none, Option.elim_some] at h
      omega
  | some c =>
    cases ht : t.reverse[i]? with
    | none =>
      rw [hs, ht, Option.elim_none, Option.elim_some] at h
      omega
    | some d =>
      rw [hs, ht, Option.elim_some, Option.elim_some] at h
      rw [BitVec.eq_of_toNat_eq (Int.ofNat_inj.mp h)]

theorem eq_of_charTailAt (h : ∀ i, charTailAt s i = charTailAt t i) : s = t :=
  List.reverse_injective (List.ext_getElem? fun i => getElem?_reverse_of_charTailAt (h i))

/-! ### Swapping -/

theorem getElem?_at (A B : List Str) (a : Str) : (A ++ a :: B)[A.length]? = some a := by
  rw [List.getElem?_append_right (Nat.le_refl _), Nat.sub_self, List.getElem?_cons_zero]

theorem set_at (A B : List Str) (a b : Str) : (A ++ a :: B).set A.length b = A ++ b :: B := by
  rw [List.set_append_right _ _ (Nat.le_refl _), Nat.sub_self, List.set_cons_zero]

theorem swap_self (A B : List Str) (a : Str) :
    swap (A ++ a :: B) A.length A.length = A ++ a :: B := by
  rw [swap, getElem?_at]
  show ((A ++ a :: B).set A.length a).set A.length a = _
  rw [set_at, set_at]

theorem swap_middle (A B C : List Str) (a b : Str) {j : Nat} (hj : j = A.length + 1 + B.length) :
    swap (A ++ a :: (B ++ b :: C)) A.length j = A ++ b :: (B ++ a :: C) := by
  have hsplit : ∀ x y, A ++ x :: (B ++ y :: C) = (A ++ x :: B) ++ y :: C := by simp
  have hlen : ∀ x, (A ++ x :: B).length = j := by
    intro x
    rw [hj, List.length_append, List.length_cons]
    omega
  have hb : (A ++ a :: (B ++ b :: C))[j]? = some b := by
    rw [hsplit, ← hlen a]
    exact getElem?_at _ _ _
  rw [swap, getElem?_at, hb]
  show ((A ++ a :: (B ++ b :: C)).set A.length b).set j a = _
  rw [set_at, hsplit, ← hlen b, set_at, ← hsplit]

theorem swap_comm (vec : List Str) (i j : Nat) (hij : i ≠ j) : swap vec i j = swap vec j i := by
  rw [swap, swap]
  cases vec[i]? with
  | none => cases vec[j]? <;> rfl
  | some a =>
    cases vec[j]? with
    | none => rfl
    | some b => exact List.set_comm b a hij

/-! ### The partition -/

/-- The vector while it is partitioned: greater ones, equal ones, what is not looked at, and less
ones. -/
structure Partitioned (pivot : Int) (pos : Nat) (greater same less : List Str) : Prop where
  greater : ∀ s ∈ greater, pivot < charTailAt s pos
  same : ∀ s ∈ same, charTailAt s pos = pivot
  less : ∀ s ∈ less, charTailAt s pos < pivot

namespace Partitioned

variable {pivot : Int} {pos : Nat} {G E L : List Str} {u : Str}

theorem toGreater {e : Str} (h : Partitioned pivot pos G (e :: E) L)
    (hu : pivot < charTailAt u pos) : Partitioned pivot pos (G ++ [u]) (E ++ [e]) L where
  greater s hs := by
    rcases List.mem_append.mp hs with hs | hs
    · exact h.greater s hs
    · rwa [List.mem_singleton.mp hs]
  same s hs := by
    refine h.same s ?_
    rcases List.mem_append.mp hs with hs | hs
    · exact List.mem_cons_of_mem _ hs
    · rw [List.mem_singleton.mp hs]
      exact List.mem_cons_self
  less := h.less

theorem toLess (h : Partitioned pivot pos G E L) (hu : charTailAt u pos < pivot) :
    Partitioned pivot pos G E (u :: L) where
  greater := h.greater
  same := h.same
  less s hs := by
    rcases List.mem_cons.mp hs with rfl | hs
    · exact hu
    · exact h.less s hs

theorem toSame (h : Partitioned pivot pos G E L) (hu : charTailAt u pos = pivot) :
    Partitioned pivot pos G (E ++ [u]) L where
  greater := h.greater
  same s hs := by
    rcases List.mem_append.mp hs with hs | hs
    · exact h.same s hs
    · rwa [List.mem_singleton.mp hs]
  less := h.less

end Partitioned

/-- From a turn of the loop on: `U` is still to be looked at. -/
theorem partition_spec {pivot : Int} {pos : Nat} :
    ∀ (n : Nat) (G E U L : List Str), Partitioned pivot pos G E L → U.length ≤ n → E ≠ [] →
      ∃ G' E' L', partition pivot pos n (G ++ (E ++ (U ++ L))) G.length (G.length + E.length)
          (G.length + E.length + U.length) = (G' ++ (E' ++ L'), G'.length, G'.length + E'.length) ∧
        Partitioned pivot pos G' E' L' ∧ E' ≠ [] ∧
        (G' ++ (E' ++ L')).Perm (G ++ (E ++ (U ++ L))) := by
  intro n
  induction n with
  | zero =>
    intro G E U L h hn hE
    obtain rfl := List.eq_nil_of_length_eq_zero (Nat.le_zero.mp hn)
    exact ⟨G, E, L, rfl, h, hE, .refl _⟩
  | succ n ih =>
    intro G E U L h hn hE
    rw [partition]
    cases U with
    | nil =>
      rw [if_neg (by simp)]
      exact ⟨G, E, L, rfl, h, hE, .refl _⟩
    | cons u U =>
      have hn' : U.length ≤ n := Nat.le_of_succ_le_succ hn
      have hget : (G ++ (E ++ (u :: U ++ L)))[G.length + E.length]?.getD [] = u := by
        rw [← List.append_assoc, List.cons_append, ← List.length_append, getElem?_at]
        rfl
      rw [if_pos (by simp), hget]
      dsimp only
      by_cases hgt : charTailAt u pos > pivot
      · -- the first of the equal ones goes behind the last of them
        obtain ⟨e, E, rfl⟩ := List.exists_cons_of_ne_nil hE
        rw [if_pos hgt]
        have hswap : swap (G ++ (e :: E ++ (u :: U ++ L))) G.length (G.length + (e :: E).length) =
            (G ++ [u]) ++ ((E ++ [e]) ++ (U ++ L)) := by
          have hmid := swap_middle G E (U ++ L) e u (j := G.length + (e :: E).length)
            (by rw [List.length_cons]; omega)
          simpa using hmid
        obtain ⟨G', E', L', heq, hpart, hE', hperm⟩ :=
          ih (G ++ [u]) (E ++ [e]) U L (h.toGreater hgt) hn' (by simp)
        refine ⟨G', E', L', ?_, hpart, hE', hperm.trans ?_⟩
        · rw [hswap, ← heq]
          congr 1 <;> simp <;> omega
        · refine List.perm_iff_count.mpr fun x => ?_
          simp only [List.count_append, List.count_cons, List.count_nil]
          omega
      · rw [if_neg hgt]
        by_cases hlt : charTailAt u pos < pivot
        · -- it changes places with the last one that is not looked at
          rw [if_pos hlt]
          obtain ⟨U', hswap, hlen, hcount⟩ : ∃ U', swap (G ++ (E ++ (u :: U ++ L)))
              (G.length + E.length + (u :: U).length - 1) (G.length + E.length) =
                G ++ (E ++ (U' ++ (u :: L))) ∧ U'.length = U.length ∧ U'.Perm U := by
            rcases List.eq_nil_or_concat' U with rfl | ⟨M, v, rfl⟩
            · refine ⟨[], ?_, rfl, .refl _⟩
              have hself := swap_self (G ++ E) L u
              simpa using hself
            · refine ⟨v :: M, ?_, by simp, (List.perm_append_singleton v M).symm⟩
              have hmid := swap_middle (G ++ E) M L u v
                (j := G.length + E.length + (u :: (M ++ [v])).length - 1) (by simp; omega)
              rw [swap_comm _ _ _ (by simp)]
              simpa using hmid
          obtain ⟨G', E', L', heq, hpart, hE', hperm⟩ :=
            ih G E U' (u :: L) (h.toLess hlt) (hlen ▸ hn') hE
          refine ⟨G', E', L', ?_, hpart, hE', hperm.trans ?_⟩
          · rw [hswap, ← heq, hlen]
            congr 1
          · refine .append_left _ (.append_left _ ?_)
            refine List.perm_middle.trans (.cons u ?_)
            exact hcount.append_right L
        · rw [if_neg hlt]
          have hsame : charTailAt u pos = pivot := by omega
          obtain ⟨G', E', L', heq, hpart, hE', hperm⟩ :=
            ih G (E ++ [u]) U L (h.toSame hsame) hn' (by simp)
          refine ⟨G', E', L', ?_, hpart, hE', hperm.trans (by simp)⟩
          rw [← heq]
          congr 1 <;> simp <;> omega

/-! ### The sort -/

/-- Strings that agree as far as `pos` from the end, and all have ended there, are one. -/
theorem eq_of_ended {pos : Nat} (h : ∀ i < pos, charTailAt s i = charTailAt t i)
    (hs : charTailAt s pos = -1) (ht : charTailAt t pos = -1) : s = t := by
  refine eq_of_charTailAt fun i => ?_
  by_cases hi : i < pos
  · exact h i hi
  · have hs' := charTailAt_eq_neg_one.mp hs
    have ht' := charTailAt_eq_neg_one.mp ht
    rw [charTailAt_eq_neg_one.mpr (show s.length ≤ i by omega),
      charTailAt_eq_neg_one.mpr (show t.length ≤ i by omega)]

/-- The sort comes to an end, where the calls may nest as deep as there are strings and characters,
and leaves the strings in order. -/
theorem multikeySort_spec :
    ∀ (n m : Nat) (vec : List Str) (pos : Nat), vec.Nodup → vec.length + m < n →
      (∀ s ∈ vec, s.length < pos + m) →
      (∀ s ∈ vec, ∀ t ∈ vec, ∀ i < pos, charTailAt s i = charTailAt t i) →
      ∃ out, multikeySort n vec pos = some out ∧ out.Perm vec ∧ out.Pairwise Before := by
  intro n
  induction n with
  | zero => exact fun _ _ _ _ hn => absurd hn (Nat.not_lt_zero _)
  | succ n ih =>
    intro m vec pos hnodup hn hlong hagree
    rw [multikeySort]
    by_cases hshort : vec.length ≤ 1
    · rw [if_pos hshort]
      refine ⟨vec, rfl, .refl _, ?_⟩
      match vec with
      | [] => exact .nil
      | [s] => exact List.pairwise_singleton _ _
    · rw [if_neg hshort]
      obtain ⟨first, rest, rfl⟩ := List.exists_cons_of_ne_nil
        (show vec ≠ [] from fun h => hshort (by rw [h]; exact Nat.zero_le 1))
      obtain ⟨G, E, L, hpart, hP, hE, hperm⟩ := @partition_spec (charTailAt first pos) pos
        (first :: rest).length [] [first] rest []
        ⟨fun s hs => absurd hs List.not_mem_nil,
          fun s hs => by rw [List.mem_singleton.mp hs], fun s hs => absurd hs List.not_mem_nil⟩
        (Nat.le_succ _) (List.cons_ne_nil _ _)
      have hq : partition (charTailAt first pos) pos (first :: rest).length (first :: rest) 0 1
          (first :: rest).length = (G ++ (E ++ L), G.length, G.length + E.length) := by
        rw [← hpart]
        congr 1 <;> simp
        omega
      have hperm' : (G ++ (E ++ L)).Perm (first :: rest) := by simpa using hperm
      have hlen := hperm'.length_eq
      have hpositive := List.length_pos_iff.mpr hE
      rw [List.length_append, List.length_append] at hlen
      have hnodup' := hperm'.nodup_iff.mpr hnodup
      obtain ⟨hGnodup, hELnodup, -⟩ := List.nodup_append.mp hnodup'
      obtain ⟨hEnodup, hLnodup, -⟩ := List.nodup_append.mp hELnodup
      have hmem : ∀ {s}, s ∈ G ∨ s ∈ E ∨ s ∈ L → s ∈ first :: rest := fun {s} hs =>
        hperm'.mem_iff.mp (by simpa using hs)
      obtain ⟨G', hGsort, hGperm, hG'⟩ := ih m G pos hGnodup (by omega)
        (fun s hs => hlong s (hmem (.inl hs)))
        (fun s hs t ht => hagree s (hmem (.inl hs)) t (hmem (.inl ht)))
      obtain ⟨L', hLsort, hLperm, hL'⟩ := ih m L pos hLnodup (by omega)
        (fun s hs => hlong s (hmem (.inr (.inr hs))))
        (fun s hs t ht => hagree s (hmem (.inr (.inr hs))) t (hmem (.inr (.inr ht))))
      obtain ⟨E', hEsort, hEperm, hE'⟩ : ∃ E', (if charTailAt first pos ≠ -1 then
          multikeySort n E (pos + 1) else some E) = some E' ∧ E'.Perm E ∧ E'.Pairwise Before := by
        by_cases hend : charTailAt first pos = -1
        · -- all have ended, so there is one
          rw [if_neg (not_not.mpr hend)]
          refine ⟨E, rfl, .refl _, hEnodup.imp_of_mem fun {s t} hs ht hne => absurd ?_ hne⟩
          exact eq_of_ended (hagree s (hmem (.inr (.inl hs))) t (hmem (.inr (.inl ht))))
            ((hP.same s hs).trans hend) ((hP.same t ht).trans hend)
        · rw [if_pos hend]
          have hfirst := hlong first List.mem_cons_self
          have hgoes : ¬ first.length ≤ pos := fun h => hend (charTailAt_eq_neg_one.mpr h)
          refine ih (m - 1) E (pos + 1) hEnodup (by omega) (fun s hs => ?_) fun s hs t ht i hi => ?_
          · have hs' := hlong s (hmem (.inr (.inl hs)))
            omega
          · rcases Nat.lt_succ_iff_lt_or_eq.mp hi with hi | rfl
            · exact hagree s (hmem (.inr (.inl hs))) t (hmem (.inr (.inl ht))) i hi
            · rw [hP.same s hs, hP.same t ht]
      have hget : (first :: rest)[0]?.getD [] = first := rfl
      refine ⟨G' ++ E' ++ L', ?_, ?_, ?_⟩
      · dsimp only
        rw [hget, hq]
        dsimp only
        rw [List.take_left, ← List.append_assoc, ← List.length_append, List.drop_left, List.take_left,
          List.drop_left, hGsort, Option.bind_some, hLsort, Option.bind_some, hEsort]
        rfl
      · rw [List.append_assoc]
        exact (hGperm.append (hEperm.append hLperm)).trans hperm'
      · -- they differ at `pos`, or were in order already
        have hdiffer : ∀ s ∈ first :: rest, ∀ t ∈ first :: rest,
            charTailAt t pos < charTailAt s pos → Before s t :=
          fun s hs t ht hlt => ⟨pos, hagree s hs t ht, hlt⟩
        refine List.pairwise_append.mpr ⟨List.pairwise_append.mpr ⟨hG', hE', fun s hs t ht => ?_⟩,
          hL', fun s hs t ht => ?_⟩
        · have hs := hGperm.mem_iff.mp hs
          have ht := hEperm.mem_iff.mp ht
          refine hdiffer s (hmem (.inl hs)) t (hmem (.inr (.inl ht))) ?_
          rw [hP.same t ht]
          exact hP.greater s hs
        · have ht := hLperm.mem_iff.mp ht
          have hless := hP.less t ht
          rcases List.mem_append.mp hs with hs | hs
          · have hs := hGperm.mem_iff.mp hs
            exact hdiffer s (hmem (.inl hs)) t (hmem (.inr (.inr ht)))
              (Int.lt_trans hless (hP.greater s hs))
          · have hs := hEperm.mem_iff.mp hs
            refine hdiffer s (hmem (.inr (.inl hs))) t (hmem (.inr (.inr ht))) ?_
            rw [hP.same s hs]
            exact hless

/-! ### Tails -/

theorem Before.asymm (h : Before s t) : ¬ Before t s := by
  obtain ⟨n, hagree, hn⟩ := h
  rintro ⟨m, hagree', hm⟩
  rcases Nat.lt_trichotomy n m with hlt | rfl | hlt
  · rw [hagree' n hlt] at hn
    exact Int.lt_irrefl _ hn
  · exact Int.lt_asymm hn hm
  · rw [hagree m hlt] at hm
    exact Int.lt_irrefl _ hm

/-- Nothing stands behind the empty string. -/
theorem not_before_of_nil (t : Str) : ¬ Before [] t := by
  rintro ⟨n, -, hn⟩
  rw [charTailAt_nil] at hn
  exact absurd (neg_one_le_charTailAt t n) (by omega)

/-- Strings with a common tail. -/
theorem suffix_iff_charTailAt : s <:+ t ↔ ∀ i < s.length, charTailAt s i = charTailAt t i := by
  constructor
  · rintro ⟨r, rfl⟩ i hi
    rw [charTailAt_eq, charTailAt_eq, List.reverse_append,
      List.getElem?_append_left (by rw [List.length_reverse]; exact hi)]
  · intro h
    rw [← List.reverse_prefix]
    refine List.prefix_iff_getElem?.mpr fun i hi => ?_
    rw [List.length_reverse] at hi
    rw [← getElem?_reverse_of_charTailAt (h i hi), List.getElem?_eq_getElem]

/-- A string stands behind those that end with it. -/
theorem before_of_suffix (h : s <:+ t) (hne : s ≠ t) : Before t s := by
  have hlt : s.length < t.length := Nat.lt_of_le_of_ne h.length_le fun heq => hne (h.eq_of_length heq)
  refine ⟨s.length, fun i hi => (suffix_iff_charTailAt.mp h i hi).symm, ?_⟩
  rw [charTailAt_eq_neg_one.mpr (Nat.le_refl s.length)]
  have hne' : charTailAt t s.length ≠ -1 := fun h1 =>
    absurd (charTailAt_eq_neg_one.mp h1) (Nat.not_le.mpr hlt)
  have hle := neg_one_le_charTailAt t s.length
  omega

/-- Between a string and one that ends with it stand only such. -/
theorem suffix_of_before {p : Str} (h : s <:+ t) (htp : Before t p) (hps : Before p s) :
    s <:+ p := by
  obtain ⟨n, hagree, hn⟩ := htp
  obtain ⟨m, hagree', hm⟩ := hps
  refine suffix_iff_charTailAt.mpr fun i hi => ?_
  by_cases hmi : m ≤ i
  · -- `p` would stand before `t`
    have htail : ∀ j ≤ m, charTailAt s j = charTailAt t j := fun j hj =>
      suffix_iff_charTailAt.mp h j (by omega)
    have hpt : Before p t := ⟨m, fun j hj => (hagree' j hj).trans (htail j (Nat.le_of_lt hj)), by
      rwa [← htail m (Nat.le_refl m)]⟩
    exact absurd ⟨n, hagree, hn⟩ hpt.asymm
  · exact (hagree' i (by omega)).symm

end RvLlvm.Mc.StringTable
