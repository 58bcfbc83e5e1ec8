import Mathlib.Tactic.Common

/-!
# Loops that test at the end

`doWhile step again n s` runs the body `step` from `s` and again as long as `again` says so, for at
most `n` turns. Nothing here names a program.

* `doWhile_spec`: what holds after the first turn and is kept by every further one holds where the
  loop stops, and with a bound that falls it does stop.
-/

namespace RvLlvm.Support

variable {σ : Type} {step : σ → σ} {again : σ → Bool}

/-- `do step while (again)`. -/
def doWhile (step : σ → σ) (again : σ → Bool) : Nat → σ → Option σ
  | 0, _ => none
  | n + 1, s => if again (step s) then doWhile step again n (step s) else some (step s)

/-- **The rule for the loop**: `Q` is kept and `bound` falls. -/
theorem doWhile_spec (Q : σ → Prop) (bound : σ → Nat)
    (hstep : ∀ s, Q s → again s = true → Q (step s) ∧ bound (step s) < bound s) {n : Nat} {s : σ}
    (hQ : Q (step s)) (hn : bound (step s) < n) :
    ∃ t, doWhile step again n s = some t ∧ Q t ∧ again t = false := by
  induction n generalizing s with
  | zero => exact absurd hn (Nat.not_lt_zero _)
  | succ n ih =>
    rw [doWhile]
    cases hagain : again (step s) with
    | false => exact ⟨step s, rfl, hQ, hagain⟩
    | true =>
      obtain ⟨hQ', hlt⟩ := hstep _ hQ hagain
      exact ih hQ' (by omega)

end RvLlvm.Support
