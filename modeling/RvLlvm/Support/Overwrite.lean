import RvLlvm.Support.Splice

/-!
# Rewriting a list in its own place

A buffer overwritten from the left, the entries still to be read lying behind those already
written. Nothing here names a program.

* `overwrite`: entries put over those at a position, within the buffer.
* `Behind old out buf`: `buf` is `old` with its first entries overwritten by `out`.
* `Behind.overwrite`, `Behind.drop`: writing at the end of `out` extends it, and what lies behind
  it reads as it did.
-/

namespace RvLlvm.Support

variable {α : Type*}

/-- `xs` over the entries of `buf` from `pos` on, if the buffer has them. -/
def overwrite (buf : List α) (pos : Nat) (xs : List α) : Option (List α) :=
  if pos + xs.length ≤ buf.length then some (buf.take pos ++ (xs ++ buf.drop (pos + xs.length)))
  else none

/-- `old` with its first entries overwritten by `out`. -/
def Behind (old out buf : List α) : Prop := buf = out ++ old.drop out.length

namespace Behind

variable {old out buf : List α}

theorem start (old : List α) : Behind old [] old := rfl

theorem length (h : Behind old out buf) (hle : out.length ≤ old.length) :
    buf.length = old.length := by
  rw [h, List.length_append, List.length_drop]
  omega

/-- Behind what is written the buffer reads as before. -/
theorem drop (h : Behind old out buf) {n : Nat} (hn : out.length ≤ n) :
    buf.drop n = old.drop n := by
  obtain ⟨k, rfl⟩ := Nat.exists_eq_add_of_le hn
  rw [h, List.drop_append, List.drop_eq_nil_of_le (Nat.le_add_right _ _), List.nil_append,
    Nat.add_sub_cancel_left, List.drop_drop]

/-- Writing at the end of what is written extends it. -/
theorem overwrite (h : Behind old out buf) (xs : List α)
    (hle : out.length + xs.length ≤ old.length) :
    ∃ buf', Support.overwrite buf out.length xs = some buf' ∧ Behind old (out ++ xs) buf' := by
  have hlen := h.length (by omega)
  refine ⟨_, if_pos (by omega), ?_⟩
  have hdrop := h.drop (Nat.le_add_right out.length xs.length)
  have htake : buf.take out.length = out := by
    rw [h, List.take_left]
  rw [Behind, hdrop, htake, List.length_append, List.append_assoc]

end Behind

end RvLlvm.Support
