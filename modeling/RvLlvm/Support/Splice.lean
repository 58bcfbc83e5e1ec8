import Mathlib.Algebra.Order.Ring.Int
import Mathlib.Data.List.Basic

/-!
# Splicing patches into a list

A list with some of its ranges replaced, as a linker rewrites the contents of a section: each patch
names a range and what stands for it afterwards, the rest is kept in order.

* `splice` builds the new list from left to right.
* `PatchesFit`: the patches come in order, do not overlap, lie in the list and do not grow.
* `gone`: the entries lost to patches that start before a position.
* `length_splice`, `splice_kept`, `splice_patched`: the new list, entry by entry.
-/

namespace RvLlvm.Support

variable {α : Type*}

/-- `bytes` stand for the `span` entries from `start` on. -/
structure Patch (α : Type*) where
  start : Nat
  span : Nat
  bytes : List α

/-- The entries a patch loses. -/
def Patch.lost (p : Patch α) : Nat := p.span - p.bytes.length

/-- The list from position `pos` on, with the patches in place. -/
def splice (old : List α) : Nat → List (Patch α) → List α
  | pos, [] => old.drop pos
  | pos, p :: ps =>
    (old.drop pos).take (p.start - pos) ++ (p.bytes ++ splice old (p.start + p.span) ps)

/-- The patches lie between `pos` and `size`, one after the other, and none is longer than its
range. -/
def PatchesFit (size : Nat) : Nat → List (Patch α) → Prop
  | pos, [] => pos ≤ size
  | pos, p :: ps => pos ≤ p.start ∧ p.bytes.length ≤ p.span ∧ PatchesFit size (p.start + p.span) ps

instance decidablePatchesFit (size : Nat) :
    ∀ (pos : Nat) (ps : List (Patch α)), Decidable (PatchesFit size pos ps)
  | pos, [] => inferInstanceAs (Decidable (pos ≤ size))
  | pos, p :: ps =>
    have := decidablePatchesFit size (p.start + p.span) ps
    inferInstanceAs (Decidable (pos ≤ p.start ∧ p.bytes.length ≤ p.span ∧ _))

/-- The entries lost to patches that start before `x`. -/
def gone (x : Nat) (ps : List (Patch α)) : Nat :=
  (ps.map fun p => if p.start < x then p.lost else 0).sum

/-- Position `x` lies in no patch. -/
def Outside (x : Nat) (ps : List (Patch α)) : Prop :=
  ∀ p ∈ ps, x < p.start ∨ p.start + p.span ≤ x

@[simp] theorem gone_nil (x : Nat) : gone x ([] : List (Patch α)) = 0 := rfl

@[simp] theorem gone_cons (x : Nat) (p : Patch α) (ps : List (Patch α)) :
    gone x (p :: ps) = (if p.start < x then p.lost else 0) + gone x ps := rfl

namespace PatchesFit

variable {size pos : Nat} {p : Patch α} {ps : List (Patch α)}

theorem le_size : ∀ {pos : Nat} {ps : List (Patch α)}, PatchesFit size pos ps → pos ≤ size
  | _, [], h => h
  | _, _ :: _, h => by
    have hrest := le_size h.2.2
    have := h.1
    omega

theorem start_le : ∀ {pos : Nat} {ps : List (Patch α)}, PatchesFit size pos ps →
    ∀ p ∈ ps, pos ≤ p.start ∧ p.start + p.span ≤ size ∧ p.bytes.length ≤ p.span
  | _, [], _ => fun _ hp => absurd hp List.not_mem_nil
  | _, q :: _, h => fun p hp => by
    obtain ⟨hle, hlen, hrest⟩ := h
    rcases List.mem_cons.mp hp with rfl | hp
    · exact ⟨hle, hrest.le_size, hlen⟩
    · obtain ⟨hpos, hin⟩ := start_le hrest p hp
      exact ⟨by omega, hin⟩

theorem gone_eq_zero : ∀ {pos : Nat} {ps : List (Patch α)}, PatchesFit size pos ps →
    ∀ {x : Nat}, x ≤ pos → gone x ps = 0
  | _, [], _, _, _ => rfl
  | pos, p :: ps, h, x, hx => by
    have hle := h.1
    rw [gone_cons, if_neg (by omega), gone_eq_zero h.2.2 (by omega)]

/-- What is lost before a position is not more than what lies before it. -/
theorem gone_le : ∀ {pos : Nat} {ps : List (Patch α)}, PatchesFit size pos ps → ∀ {x : Nat},
    pos ≤ x → Outside x ps → gone x ps + pos ≤ x
  | _, [], _, x, hx, _ => by simpa using hx
  | pos, p :: ps, h, x, hx, hout => by
    obtain ⟨hle, hlen, hrest⟩ := h
    have hrestout : Outside x ps := fun q hq => hout q (List.mem_cons_of_mem p hq)
    rw [gone_cons]
    rcases hout p List.mem_cons_self with hbefore | hafter
    · rw [if_neg (by omega)]
      rw [hrest.gone_eq_zero (by omega)]
      omega
    · have ih := gone_le hrest hafter hrestout
      have hlost : p.lost ≤ p.span := Nat.sub_le _ _
      split_ifs <;> omega

theorem gone_start_le : ∀ {pos : Nat} {ps : List (Patch α)}, PatchesFit size pos ps →
    ∀ p ∈ ps, gone p.start ps + pos ≤ p.start
  | _, [], _ => fun _ hp => absurd hp List.not_mem_nil
  | pos, q :: ps, h => fun p hp => by
    obtain ⟨hle, hlen, hrest⟩ := h
    have hlost : q.lost ≤ q.span := Nat.sub_le _ _
    rw [gone_cons]
    rcases List.mem_cons.mp hp with rfl | hp
    · rw [if_neg (Nat.lt_irrefl _), hrest.gone_eq_zero (Nat.le_add_right _ _)]
      omega
    · have ih := gone_start_le hrest p hp
      split_ifs <;> omega

end PatchesFit

/-- **The new length**: what was there less what the patches lose. -/
theorem length_splice {old : List α} :
    ∀ {pos : Nat} {ps : List (Patch α)}, PatchesFit old.length pos ps →
      (splice old pos ps).length + (ps.map Patch.lost).sum = old.length - pos
  | pos, [], _ => by simp [splice]
  | pos, p :: ps, h => by
    obtain ⟨hle, hlen, hrest⟩ := h
    have ih := length_splice hrest
    have hsize := hrest.le_size
    simp only [splice, List.length_append, List.length_take, List.length_drop, List.map_cons,
      List.sum_cons, Patch.lost] at ih ⊢
    omega

/-- **Every entry outside the patches is kept**, moved down by what was lost before it. -/
theorem splice_kept {old : List α} :
    ∀ {pos : Nat} {ps : List (Patch α)}, PatchesFit old.length pos ps → ∀ {x : Nat}, pos ≤ x →
      Outside x ps → (splice old pos ps)[x - pos - gone x ps]? = old[x]?
  | pos, [], _, x, hx, _ => by
    rw [splice, List.getElem?_drop, gone_nil]
    congr 1
    omega
  | pos, p :: ps, h, x, hx, hout => by
    obtain ⟨hle, hlen, hrest⟩ := h
    have hsize := hrest.le_size
    have hrestout : Outside x ps := fun q hq => hout q (List.mem_cons_of_mem p hq)
    have htake : ((old.drop pos).take (p.start - pos)).length = p.start - pos := by
      rw [List.length_take, List.length_drop]
      omega
    rw [splice, gone_cons]
    rcases hout p List.mem_cons_self with hbefore | hafter
    · -- before the patch: still among the entries copied
      rw [if_neg (by omega), hrest.gone_eq_zero (by omega),
        List.getElem?_append_left (by rw [htake]; omega), List.getElem?_take,
        if_pos (by omega), List.getElem?_drop]
      congr 1
      omega
    · have ih := splice_kept hrest hafter hrestout
      have hgone := hrest.gone_le hafter hrestout
      by_cases hspan : p.start < x
      · rw [if_pos hspan, Patch.lost, List.getElem?_append_right (by rw [htake]; omega),
          List.getElem?_append_right (by rw [htake]; omega), htake, ← ih]
        congr 1
        omega
      · -- an empty patch at `x` itself
        have hzero : p.bytes.length = 0 := by omega
        rw [if_neg hspan, List.getElem?_append_right (by rw [htake]; omega),
          List.getElem?_append_right (by rw [htake]; omega), htake, ← ih]
        congr 1
        omega

/-- **Every patch is in place**, moved down by what was lost before its start. -/
theorem splice_patched {old : List α} :
    ∀ {pos : Nat} {ps : List (Patch α)}, PatchesFit old.length pos ps → ∀ p ∈ ps,
      ∀ k < p.bytes.length,
        (splice old pos ps)[p.start - pos - gone p.start ps + k]? = p.bytes[k]?
  | _, [], _ => fun _ hp => absurd hp List.not_mem_nil
  | pos, q :: ps, h => fun p hp k hk => by
    obtain ⟨hle, hlen, hrest⟩ := h
    have hsize := hrest.le_size
    have htake : ((old.drop pos).take (q.start - pos)).length = q.start - pos := by
      rw [List.length_take, List.length_drop]
      omega
    rw [splice, gone_cons]
    rcases List.mem_cons.mp hp with rfl | hp
    · rw [if_neg (Nat.lt_irrefl _), hrest.gone_eq_zero (Nat.le_add_right _ _),
        List.getElem?_append_right (by rw [htake]; omega), htake,
        List.getElem?_append_left (by omega)]
      congr 1
      omega
    · obtain ⟨hpos, hin, hfit⟩ := hrest.start_le p hp
      have ih := splice_patched hrest p hp k hk
      have hgone := hrest.gone_start_le p hp
      by_cases hspan : q.start < p.start
      · rw [if_pos hspan, Patch.lost, List.getElem?_append_right (by rw [htake]; omega),
          List.getElem?_append_right (by rw [htake]; omega), htake, ← ih]
        congr 1
        omega
      · have hzero : q.bytes.length = 0 := by omega
        rw [if_neg hspan, List.getElem?_append_right (by rw [htake]; omega),
          List.getElem?_append_right (by rw [htake]; omega), htake, ← ih]
        congr 1
        omega

end RvLlvm.Support
