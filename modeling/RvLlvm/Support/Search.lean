import Mathlib.Data.List.Basic
import Mathlib.Data.List.Sort
import Mathlib.Order.Basic

/-!
# Binary search in a sorted table, and the slices it picks

General facts about `std::upper_bound` on a list and about a table of half-open slices
`[start a, start a + size a)`. Nothing here names a program.

* `upperBound p l` is the position of the first element satisfying `p` (`l.length` if none does).
  `std::upper_bound` returns it on a list partitioned by `p`, however it searches.
* `floorIndex start l x` is `upper_bound(x) - 1`: the last entry that starts at or before `x`.
* `Slices start size l`: the entries start in increasing order and none runs into the next.

Results:
* `floorIndex_spec` / `floorIndex_unique`: on a sorted table whose first entry starts at or before
  `x`, `floorIndex` is the one position `i` with `start l[i] ≤ x` and every later start above `x`.
* `Slices.floorIndex_eq`: the slice that contains `x`, if there is one, is the one `floorIndex`
  picks. So `x` lies in no slice or in exactly one (`Slices.unique`).
-/

namespace RvLlvm.Support

variable {α : Type*}

/-! ## `std::upper_bound` -/

/-- The position of the first element satisfying `p`, the length if none does. -/
def upperBound (p : α → Bool) (l : List α) : Nat := (l.takeWhile fun a => !p a).length

theorem upperBound_le (p : α → Bool) (l : List α) : upperBound p l ≤ l.length :=
  (List.takeWhile_prefix _).length_le

/-- Below the upper bound the predicate fails. -/
theorem not_of_lt_upperBound {p : α → Bool} :
    ∀ {l : List α} {i : Nat} (_ : i < upperBound p l) (hi : i < l.length), p l[i] = false
  | [], _, _, hi => absurd hi (Nat.not_lt_zero _)
  | a :: l, i, h, hi => by
    unfold upperBound at h
    rw [List.takeWhile_cons] at h
    cases ha : p a with
    | true => simp [ha] at h
    | false =>
      cases i with
      | zero => simpa using ha
      | succ i =>
        have h' : i < upperBound p l := by simpa [ha, upperBound] using h
        simpa using not_of_lt_upperBound h' (by simpa using hi)

/-- The element at the upper bound satisfies the predicate. -/
theorem of_eq_upperBound {p : α → Bool} :
    ∀ {l : List α} (hi : upperBound p l < l.length), p l[upperBound p l] = true
  | [], hi => absurd hi (Nat.not_lt_zero _)
  | a :: l, hi => by
    cases ha : p a with
    | true => simp [upperBound, ha]
    | false =>
      have he : upperBound p (a :: l) = upperBound p l + 1 := by simp [upperBound, ha]
      have hi' : upperBound p l < l.length := by simpa [he] using hi
      simpa [he] using of_eq_upperBound hi'

/-! ## The last entry that starts at or before `x` -/

/-- `std::upper_bound(l, x) - 1` by start: the last entry with `start a ≤ x` (0 if none has). -/
def floorIndex (start : α → Nat) (l : List α) (x : Nat) : Nat :=
  upperBound (fun a => decide (x < start a)) l - 1

theorem upperBound_map (start : α → Nat) (l : List α) (x : Nat) :
    upperBound (fun a => decide (x < start a)) l
      = ((l.map start).takeWhile fun v => !decide (x < v)).length := by
  simp [upperBound, List.takeWhile_map, Function.comp_def]

variable {start : α → Nat}

/-- `floorIndex` reads nothing but the starts. -/
theorem floorIndex_congr {β : Type*} {start' : β → Nat} {l : List α} {l' : List β}
    (h : l.map start = l'.map start') (x : Nat) :
    floorIndex start l x = floorIndex start' l' x := by
  unfold floorIndex
  rw [upperBound_map, upperBound_map, h]

/-- The entries start in strictly increasing order. -/
def StartsSorted (start : α → Nat) (l : List α) : Prop := l.Pairwise fun a b => start a < start b

theorem StartsSorted.lt {l : List α} (h : StartsSorted start l) {i j : Nat} (hij : i < j)
    (hj : j < l.length) (hi : i < l.length) : start l[i] < start l[j] :=
  List.pairwise_iff_getElem.mp h i j hi hj hij

/-- What `floorIndex` finds: `x` is at or past its start and before every later one. -/
theorem floorIndex_spec {l : List α} {x : Nat} (hs : StartsSorted start l) (hne : 0 < l.length)
    (h0 : start l[0] ≤ x) :
    ∃ hi : floorIndex start l x < l.length, start l[floorIndex start l x] ≤ x ∧
      ∀ j (hj : j < l.length), floorIndex start l x < j → x < start l[j] := by
  have hle := upperBound_le (fun a => decide (x < start a)) l
  have hpos : 0 < upperBound (fun a => decide (x < start a)) l := by
    by_contra hz
    have hz' : upperBound (fun a => decide (x < start a)) l = 0 := by omega
    have := of_eq_upperBound (p := fun a => decide (x < start a)) (l := l) (by omega)
    simp only [hz', decide_eq_true_eq] at this
    omega
  have hi : floorIndex start l x < l.length := by unfold floorIndex; omega
  refine ⟨hi, ?_, fun j hj hlt => ?_⟩
  · have := not_of_lt_upperBound (p := fun a => decide (x < start a)) (l := l)
      (i := floorIndex start l x) (by unfold floorIndex; omega) hi
    simpa using this
  · have hub : upperBound (fun a => decide (x < start a)) l ≤ j := by
      unfold floorIndex at hlt; omega
    have hat := of_eq_upperBound (p := fun a => decide (x < start a)) (l := l) (by omega)
    simp only [decide_eq_true_eq] at hat
    rcases Nat.lt_or_eq_of_le hub with hub | hub
    · exact hat.trans (hs.lt hub hj (by omega))
    · simpa [hub] using hat

/-- `floorIndex` is the only position with that property. -/
theorem floorIndex_unique {l : List α} {x i : Nat} (hs : StartsSorted start l) (hi : i < l.length)
    (hle : start l[i] ≤ x) (hnext : ∀ (h : i + 1 < l.length), x < start l[i + 1]) :
    floorIndex start l x = i := by
  have hne : 0 < l.length := by omega
  have h0 : start l[0] ≤ x := by
    rcases Nat.eq_zero_or_pos i with rfl | hpos
    · exact hle
    · exact (hs.lt hpos hi hne).le.trans hle
  obtain ⟨hf, hfle, hlater⟩ := floorIndex_spec hs hne h0
  rcases Nat.lt_trichotomy (floorIndex start l x) i with hlt | heq | hgt
  · exact absurd (hlater i hi hlt) (by omega)
  · exact heq
  · have hn := hnext (by omega)
    rcases Nat.lt_or_eq_of_le (show i + 1 ≤ floorIndex start l x from hgt) with h | h
    · have := hs.lt h hf (by omega)
      omega
    · simp only [← h] at hfle
      omega

/-! ## Tables of slices -/

/-- The slices `[start a, start a + size a)` come in order: none is followed by one that starts
before its end. -/
structure Slices (start size : α → Nat) (l : List α) : Prop where
  sorted : StartsSorted start l
  apart : ∀ i (h : i + 1 < l.length), start l[i] + size l[i] ≤ start l[i + 1]

namespace Slices

variable {start size : α → Nat} {l : List α}

/-- The slice that contains `x` is the one `floorIndex` picks. -/
theorem floorIndex_eq (h : Slices start size l) {x i : Nat} (hi : i < l.length)
    (hle : start l[i] ≤ x) (hlt : x < start l[i] + size l[i]) : floorIndex start l x = i :=
  floorIndex_unique h.sorted hi hle fun hn => hlt.trans_le (h.apart i hn)

/-- No point lies in two slices. -/
theorem unique (h : Slices start size l) {x i j : Nat} (hi : i < l.length) (hj : j < l.length)
    (hi' : start l[i] ≤ x ∧ x < start l[i] + size l[i])
    (hj' : start l[j] ≤ x ∧ x < start l[j] + size l[j]) : i = j :=
  (h.floorIndex_eq hi hi'.1 hi'.2).symm.trans (h.floorIndex_eq hj hj'.1 hj'.2)

end Slices

end RvLlvm.Support
