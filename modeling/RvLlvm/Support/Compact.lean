import Mathlib.Data.List.Basic
import Mathlib.Data.List.TakeDrop
import Mathlib.Data.List.Forall2
import Mathlib.Tactic.Common

/-!
# Compacting a vector in place

A loop that cuts a vector into segments and writes, further down in the same vector, one new element
for each piece or the piece as it is. Nothing here names a program.

* `moveDown`: `memmove` towards the front, `moveEach`: the same element by element.
* `compact`: the loop; `none` is an index out of bounds or an assertion that fails.
* `compact_spec`: the segments make up the old vector, and each element of the new one stands for
  one of them.
-/

namespace RvLlvm.Support

variable {α σ : Type}

/-- `len` elements from `first` on, moved to `dst`. -/
def moveDown (arr : List α) (dst first len : Nat) : List α :=
  arr.take dst ++ (arr.drop first).take len ++ arr.drop (dst + len)

/-- One after the other, from the front. -/
def moveEach (arr : List α) (dst first : Nat) : Nat → List α
  | 0 => arr
  | len + 1 => moveEach (moveDown arr dst first 1) (dst + 1) (first + 1) len

def piece (arr : List α) (first last : Nat) : List α := (arr.drop first).take (last + 1 - first)

/-- From `first` on, with `arr`'s first `dst` elements written. -/
def compact (move : List α → Nat → Nat → Nat → List α) (n : Nat) (lastElement : List Nat)
    (build : σ → List α → Option (σ × α)) (first dst : Nat) (arr : List α) (s : σ) : Option (σ × List α) :=
  if _h : first < n then
    match lastElement[first]? with
    | none => none
    | some last =>
      if _hl : first ≤ last ∧ dst ≤ first then
        match build s (piece arr first last) with
        | some (s', c) => compact move n lastElement build (last + 1) (dst + 1) (arr.set dst c) s'
        | none =>
          compact move n lastElement build (last + 1) (dst + (last + 1 - first))
            (move arr dst first (last + 1 - first)) s
      else none
  else some (s, arr.take dst)
termination_by n - first

variable {arr : List α}

theorem length_moveDown {dst first len : Nat} (h : dst ≤ first) (hlen : first + len ≤ arr.length) :
    (moveDown arr dst first len).length = arr.length := by
  simp only [moveDown, List.length_append, List.length_take, List.length_drop]
  omega

theorem take_moveDown {dst first len : Nat} (h : dst ≤ first) (hlen : first + len ≤ arr.length) :
    (moveDown arr dst first len).take (dst + len) = arr.take dst ++ (arr.drop first).take len := by
  rw [moveDown, List.take_left']
  simp only [List.length_append, List.length_take, List.length_drop]
  omega

theorem drop_moveDown {dst first len k : Nat} (h : dst ≤ first) (hlen : first + len ≤ arr.length)
    (hk : dst + len ≤ k) : (moveDown arr dst first len).drop k = arr.drop k := by
  have hsplit : k = (arr.take dst ++ (arr.drop first).take len).length + (k - (dst + len)) := by
    simp only [List.length_append, List.length_take, List.length_drop]
    omega
  rw [moveDown, hsplit, ← List.drop_drop, List.drop_left, List.drop_drop, ← hsplit]
  congr 1
  omega

theorem moveEach_eq {dst first len : Nat} (h : dst ≤ first) (hlen : first + len ≤ arr.length) :
    moveEach arr dst first len = moveDown arr dst first len := by
  induction len generalizing arr dst first with
  | zero => simp [moveEach, moveDown]
  | succ len ih =>
    have hlen₁ : (moveDown arr dst first 1).length = arr.length := length_moveDown h (by omega)
    rw [moveEach, ih (by omega) (by rw [hlen₁]; omega), moveDown, take_moveDown h (by omega),
      drop_moveDown h (by omega) (by omega), drop_moveDown h (by omega) (by omega), moveDown]
    have hcons : (arr.drop first).take (len + 1) =
        (arr.drop first).take 1 ++ (arr.drop (first + 1)).take len := by
      rw [Nat.add_comm len 1, List.take_add, List.drop_drop]
    rw [hcons, List.append_assoc, List.append_assoc, List.append_assoc, List.append_assoc]
    congr 4
    omega

theorem take_succ_set {i : Nat} {c : α} (h : i < arr.length) :
    (arr.set i c).take (i + 1) = arr.take i ++ [c] := by
  rw [List.set_eq_take_append_cons_drop, if_pos h, List.append_cons, List.take_left']
  rw [List.length_append, List.length_take, List.length_singleton]
  omega

section
variable {R : σ → List α → α → Prop} {Ext : σ → σ → Prop} {orig : List α} {lastElement : List Nat}
  {build : σ → List α → Option (σ × α)} {move : List α → Nat → Nat → Nat → List α}

/-- **The new vector stands for the old one, piece by piece.** -/
theorem compact_spec
    (hmove : ∀ (arr : List α) (dst first len : Nat), dst ≤ first → first + len ≤ arr.length →
      move arr dst first len = moveDown arr dst first len)
    (hrefl : ∀ s, Ext s s) (htrans : ∀ s s' s'', Ext s s' → Ext s' s'' → Ext s s'')
    (hmono : ∀ s s' seg c, Ext s s' → R s seg c → R s' seg c)
    (hlast : ∀ i < orig.length, ∃ l, lastElement[i]? = some l ∧ i ≤ l ∧ l < orig.length)
    {s₀ : σ} (hkeep : ∀ s, Ext s₀ s → ∀ c ∈ orig, R s [c] c)
    (hbuild : ∀ s i l s' c, i < orig.length → Ext s₀ s → lastElement[i]? = some l →
      build s (piece orig i l) = some (s', c) → Ext s s' ∧ R s' (piece orig i l) c) :
    ∃ s' out segs, compact move orig.length lastElement build 0 0 orig s₀ = some (s', out) ∧
      Ext s₀ s' ∧ segs.flatten = orig ∧ List.Forall₂ (R s') segs out := by
  suffices hrun : ∀ (k first dst : Nat) (arr : List α) (s : σ) (segs : List (List α)),
      orig.length - first = k → first ≤ orig.length → dst ≤ first → arr.length = orig.length →
      arr.drop first = orig.drop first → Ext s₀ s → segs.flatten = orig.take first →
      List.Forall₂ (R s) segs (arr.take dst) →
      ∃ s' out segs', compact move orig.length lastElement build first dst arr s = some (s', out) ∧
        Ext s₀ s' ∧ segs'.flatten = orig ∧ List.Forall₂ (R s') segs' out from
    hrun _ 0 0 orig s₀ [] rfl (Nat.zero_le _) (Nat.le_refl 0) rfl rfl (hrefl s₀) rfl .nil
  intro k
  induction k using Nat.strongRecOn with
  | ind k ih =>
    intro first dst arr s segs hk hfirst hdst hlen hdrop hext hsegs hout
    rw [compact]
    by_cases h : first < orig.length
    · obtain ⟨last, hl, hle, hlt⟩ := hlast first h
      have hseg : piece arr first last = piece orig first last := by
        rw [piece, piece, hdrop]
      have hflat : segs.flatten ++ piece orig first last = orig.take (last + 1) := by
        rw [hsegs, piece, show last + 1 = first + (last + 1 - first) by omega, List.take_add,
          Nat.add_sub_cancel_left]
      have hdropl : arr.drop (last + 1) = orig.drop (last + 1) := by
        rw [show last + 1 = first + (last + 1 - first) by omega, ← List.drop_drop, hdrop,
          List.drop_drop]
      rw [dif_pos h, hl]
      simp only
      rw [dif_pos ⟨hle, hdst⟩, hseg]
      cases hb : build s (piece orig first last) with
      | some p =>
        obtain ⟨s', c⟩ := p
        obtain ⟨hs, hR⟩ := hbuild s first last s' c h hext hl hb
        refine ih _ (by omega) (last + 1) (dst + 1) (arr.set dst c) s' (segs ++ [piece orig first last])
          rfl (by omega) (by omega) (by rw [List.length_set, hlen]) ?_ (htrans _ _ _ hext hs) ?_ ?_
        · rw [List.drop_set_of_lt (by omega), hdropl]
        · rw [List.flatten_append, List.flatten_singleton, hflat]
        · rw [take_succ_set (by omega)]
          exact List.rel_append (hout.imp fun _ _ => hmono _ _ _ _ hs) (.cons hR .nil)
      | none =>
        simp only
        rw [hmove arr dst first _ hdst (by omega)]
        refine ih _ (by omega) (last + 1) (dst + (last + 1 - first)) _ s
          (segs ++ (piece orig first last).map fun c => [c])
          rfl (by omega) (by omega) ?_ ?_ hext ?_ ?_
        · rw [length_moveDown hdst (by omega), hlen]
        · rw [drop_moveDown hdst (by omega) (by omega), hdropl]
        · rw [List.flatten_append, ← List.flatMap_def, List.flatMap_singleton', hflat]
        · rw [take_moveDown hdst (by omega), ← piece, hseg]
          refine List.rel_append hout ?_
          rw [List.forall₂_map_left_iff, List.forall₂_same]
          exact fun c hc => hkeep s hext c (List.mem_of_mem_drop (List.mem_of_mem_take hc))
    · have heq : first = orig.length := by omega
      rw [dif_neg h]
      exact ⟨s, _, segs, rfl, hext, by rw [hsegs, heq, List.take_length], hout⟩

end

end RvLlvm.Support
