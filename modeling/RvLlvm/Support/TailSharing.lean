import Mathlib.Data.List.Induction
import RvLlvm.Support.Overwrite

/-!
# Pieces with common tails

A buffer into which pieces are copied, each to a place of its own. Two pieces lie apart, with a gap
between them, or end at the same place, the one a tail of the other; so the order in which they are
copied does not matter. Nothing here names a program.

* `Compatible gap p q`: the pieces `p` and `q` lie so.
* `copies_spec`: the buffer holds each piece at its place, and what it held elsewhere.
* `Compatible.end_free`: behind a piece no other piece has an element, where there is a gap.
-/

namespace RvLlvm.Support

variable {α : Type*}

/-- The one is put behind the other, `gap` places between them. -/
def Apart (gap : Nat) (p q : List α × Nat) : Prop :=
  p.2 + p.1.length + gap ≤ q.2 ∨ q.2 + q.1.length + gap ≤ p.2

/-- The one is a tail of the other. -/
def SameEnd (p q : List α × Nat) : Prop :=
  p.2 + p.1.length = q.2 + q.1.length ∧ (p.1 <:+ q.1 ∨ q.1 <:+ p.1)

def Compatible (gap : Nat) (p q : List α × Nat) : Prop := Apart gap p q ∨ SameEnd p q

/-- A position that a piece lies over. -/
def Covers (p : List α × Nat) (i : Nat) : Prop := p.2 ≤ i ∧ i < p.2 + p.1.length

variable {gap : Nat} {p q : List α × Nat}

theorem SameEnd.symm (h : SameEnd p q) : SameEnd q p := ⟨h.1.symm, h.2.symm⟩

theorem Compatible.symm (h : Compatible gap p q) : Compatible gap q p :=
  h.imp (fun h => Or.symm h) SameEnd.symm

theorem Compatible.refl (gap : Nat) (p : List α × Nat) : Compatible gap p p :=
  .inr ⟨rfl, .inl (List.suffix_refl _)⟩

theorem getElem?_of_suffix {a b : List α} {m n i : Nat} (h : a <:+ b)
    (hend : m + a.length = n + b.length) (hi : m ≤ i) : a[i - m]? = b[i - n]? := by
  obtain ⟨r, rfl⟩ := h
  rw [List.length_append] at hend
  rw [List.getElem?_append_right (by omega)]
  congr 1
  omega

/-- Where both lie they agree. -/
theorem Compatible.agree (h : Compatible gap p q) {i : Nat} (hp : Covers p i) (hq : Covers q i) :
    p.1[i - p.2]? = q.1[i - q.2]? := by
  obtain ⟨hp₁, hp₂⟩ := hp
  obtain ⟨hq₁, hq₂⟩ := hq
  rcases h with hapart | ⟨hend, hsuffix | hsuffix⟩
  · rcases hapart with h | h <;> omega
  · exact getElem?_of_suffix hsuffix hend hp₁
  · exact (getElem?_of_suffix hsuffix hend.symm hq₁).symm

theorem Compatible.end_free (h : Compatible 1 p q) : ¬ Covers q (p.2 + p.1.length) := by
  rintro ⟨h₁, h₂⟩
  rcases h with (hapart | hapart) | ⟨hend, -⟩ <;> omega

/-- A piece copied; an empty one is not. -/
def copy [DecidableEq α] (buf : List α) (p : List α × Nat) : Option (List α) :=
  if p.1 = [] then some buf else overwrite buf p.2 p.1

/-- Pieces copied one after the other. -/
def copies [DecidableEq α] (buf : List α) (pieces : List (List α × Nat)) : Option (List α) :=
  pieces.foldlM copy buf

/-- Overwriting, position by position. -/
theorem overwrite_getElem? {buf xs : List α} {pos : Nat} (hfits : pos + xs.length ≤ buf.length) :
    ∃ buf', overwrite buf pos xs = some buf' ∧ buf'.length = buf.length ∧
      (∀ i, Covers (xs, pos) i → buf'[i]? = xs[i - pos]?) ∧
      ∀ i, ¬ Covers (xs, pos) i → buf'[i]? = buf[i]? := by
  have hlen : (buf.take pos).length = pos := List.length_take_of_le (by omega)
  refine ⟨_, if_pos hfits, ?_, fun i hi => ?_, fun i hi => ?_⟩
  · rw [List.length_append, List.length_append, hlen, List.length_drop]
    omega
  · obtain ⟨h₁, h₂⟩ := hi
    simp only at h₁ h₂
    rw [List.getElem?_append_right (by omega), hlen, List.getElem?_append_left (by omega)]
  · by_cases hlt : i < pos
    · rw [List.getElem?_append_left (by omega), List.getElem?_take_of_lt hlt]
    · have hge : pos + xs.length ≤ i := by
        by_contra hnot
        exact hi ⟨Nat.not_lt.mp hlt, Nat.not_le.mp hnot⟩
      rw [List.getElem?_append_right (by omega), hlen, List.getElem?_append_right (by omega),
        List.getElem?_drop]
      congr 1
      omega

theorem copy_getElem? [DecidableEq α] {buf : List α} (hfits : p.2 + p.1.length ≤ buf.length) :
    ∃ buf', copy buf p = some buf' ∧ buf'.length = buf.length ∧
      (∀ i, Covers p i → buf'[i]? = p.1[i - p.2]?) ∧ ∀ i, ¬ Covers p i → buf'[i]? = buf[i]? := by
  rw [copy]
  by_cases hempty : p.1 = []
  · rw [if_pos hempty]
    refine ⟨buf, rfl, rfl, fun i hi => ?_, fun _ _ => rfl⟩
    have h := hi.2
    rw [hempty, List.length_nil] at h
    exact absurd hi.1 (by omega)
  · rw [if_neg hempty]
    exact overwrite_getElem? hfits

/-- **Compatible pieces are read back**, copied in any order. -/
theorem copies_spec [DecidableEq α] {buf : List α} {pieces : List (List α × Nat)}
    (hfits : ∀ p ∈ pieces, p.2 + p.1.length ≤ buf.length)
    (hcompatible : ∀ p ∈ pieces, ∀ q ∈ pieces, Compatible gap p q) :
    ∃ buf', copies buf pieces = some buf' ∧ buf'.length = buf.length ∧
      (∀ p ∈ pieces, ∀ i, Covers p i → buf'[i]? = p.1[i - p.2]?) ∧
      ∀ i, (∀ p ∈ pieces, ¬ Covers p i) → buf'[i]? = buf[i]? := by
  induction pieces using List.reverseRecOn with
  | nil => exact ⟨buf, rfl, rfl, fun p hp => absurd hp List.not_mem_nil, fun _ _ => rfl⟩
  | append_singleton pieces q ih =>
    have hfront : ∀ {p}, p ∈ pieces → p ∈ pieces ++ [q] := fun h => List.mem_append_left _ h
    have hlast : q ∈ pieces ++ [q] := by simp
    obtain ⟨buf₁, hcopies, hlen₁, hread, hrest⟩ := ih (fun p hp => hfits p (hfront hp))
      fun p hp r hr => hcompatible p (hfront hp) r (hfront hr)
    obtain ⟨buf', hcopy, hlen', hread', hrest'⟩ :=
      @copy_getElem? α q _ buf₁ (hlen₁ ▸ hfits q hlast)
    refine ⟨buf', ?_, hlen'.trans hlen₁, fun p hp i hi => ?_, fun i hi => ?_⟩
    · rw [copies, List.foldlM_append]
      show (copies buf pieces).bind _ = _
      rw [hcopies, Option.bind_some, List.foldlM_cons, hcopy]
      rfl
    · by_cases hq : Covers q i
      · rw [hread' i hq]
        exact (hcompatible q hlast p hp).agree hq hi
      · rw [hrest' i hq]
        rcases List.mem_append.mp hp with hp | hp
        · exact hread p hp i hi
        · rw [List.mem_singleton.mp hp] at hi
          exact absurd hi hq
    · rw [hrest' i (hi q hlast)]
      exact hrest i fun p hp => hi p (hfront hp)

end RvLlvm.Support
