import Mathlib.Data.List.Perm.Subperm

/-!
# Marking with a worklist

An element that is marked for the first time is put on the worklist, and one that is taken from it
has all its successors marked. `closure` runs this for as many turns as it is told.

* `run_spec`: the turns keep `Invariant`, and with as many turns as there can be elements the
  worklist runs empty.
* `mem_closure_of_root`, `mem_closure_of_next`: then the marked elements contain the roots and are
  closed under successors.
-/

namespace RvLlvm.Support.Worklist

variable {α : Type*} [DecidableEq α]

/-- The marked elements, and those of them whose successors are still to be marked. -/
structure State (α : Type*) where
  marked : List α
  work : List α

/-- Mark an element. -/
def mark (s : State α) (a : α) : State α :=
  if a ∈ s.marked then s else ⟨a :: s.marked, a :: s.work⟩

section Run

variable (next : α → List α)

/-- Turns of the loop. -/
def run : Nat → State α → State α
  | 0, s => s
  | n + 1, s =>
    match s.work with
    | [] => s
    | a :: rest => run n ((next a).foldl mark ⟨s.marked, rest⟩)

/-- What is marked from `roots` on in `fuel` turns. -/
def closure (fuel : Nat) (roots : List α) : List α :=
  (run next fuel (roots.foldl mark ⟨[], []⟩)).marked

/-- Elements that are marked and not on the worklist have marked successors, and `U` has them
all. -/
structure Invariant (U : List α) (s : State α) : Prop where
  nodup : s.marked.Nodup
  known : s.marked ⊆ U
  work_marked : s.work ⊆ s.marked
  closed : ∀ a ∈ s.marked, a ∉ s.work → next a ⊆ s.marked

end Run

section Mark

variable {s : State α} {a : α} {l : List α}

theorem marked_mark : s.marked ⊆ (mark s a).marked := by
  rw [mark]
  split
  · exact List.Subset.refl _
  · exact List.subset_cons_self _ _

theorem marked_foldl : ∀ {s : State α}, s.marked ⊆ (l.foldl mark s).marked := by
  induction l with
  | nil => exact fun h => h
  | cons a l ih => exact fun h => ih (marked_mark h)

theorem mem_foldl : ∀ {s : State α}, l ⊆ (l.foldl mark s).marked := by
  induction l with
  | nil => exact fun h => absurd h List.not_mem_nil
  | cons a l ih =>
    intro s b hb
    rcases List.mem_cons.mp hb with rfl | hb
    · refine marked_foldl (l := l) (s := mark s b) ?_
      rw [mark]
      split
      · assumption
      · exact List.mem_cons_self
    · exact ih hb

/-- What is new is on the worklist. -/
theorem mem_work_foldl : ∀ {s : State α}, (∀ a ∈ (l.foldl mark s).marked,
    a ∈ s.marked ∨ a ∈ (l.foldl mark s).work) ∧ s.work ⊆ (l.foldl mark s).work := by
  induction l with
  | nil => exact ⟨fun a h => .inl h, List.Subset.refl _⟩
  | cons b l ih =>
    intro s
    rw [List.foldl_cons]
    obtain ⟨hnew, hwork⟩ := ih (s := mark s b)
    by_cases hb : b ∈ s.marked
    · rw [mark, if_pos hb] at hnew hwork ⊢
      exact ⟨hnew, hwork⟩
    · rw [mark, if_neg hb] at hnew hwork ⊢
      refine ⟨fun a ha => ?_, fun a ha => hwork (List.mem_cons_of_mem _ ha)⟩
      rcases hnew a ha with h | h
      · rcases List.mem_cons.mp h with rfl | h
        · exact .inr (hwork List.mem_cons_self)
        · exact .inl h
      · exact .inr h

theorem work_marked_foldl : ∀ {s : State α}, s.work ⊆ s.marked →
    (l.foldl mark s).work ⊆ (l.foldl mark s).marked := by
  induction l with
  | nil => exact id
  | cons a l ih =>
    intro s h
    refine ih ?_
    rw [mark]
    split
    · exact h
    · exact List.cons_subset_cons _ h

theorem nodup_foldl : ∀ {s : State α}, s.marked.Nodup → (l.foldl mark s).marked.Nodup := by
  induction l with
  | nil => exact id
  | cons a l ih =>
    intro s h
    refine ih ?_
    rw [mark]
    split
    · exact h
    · next ha => exact List.nodup_cons.mpr ⟨ha, h⟩

theorem known_foldl {U : List α} : ∀ {s : State α}, s.marked ⊆ U → l ⊆ U →
    (l.foldl mark s).marked ⊆ U := by
  induction l with
  | nil => exact fun h _ => h
  | cons a l ih =>
    intro s h hl
    refine ih ?_ fun b hb => hl (List.mem_cons_of_mem _ hb)
    rw [mark]
    split
    · exact h
    · exact List.cons_subset.mpr ⟨hl List.mem_cons_self, h⟩

/-- Marked elements and worklist grow together. -/
theorem length_foldl : ∀ {s : State α}, (l.foldl mark s).work.length + s.marked.length =
    s.work.length + (l.foldl mark s).marked.length := by
  induction l with
  | nil => exact rfl
  | cons a l ih =>
    intro s
    have h := ih (s := mark s a)
    rw [List.foldl_cons]
    by_cases ha : a ∈ s.marked
    · rw [mark, if_pos ha] at h ⊢
      exact h
    · rw [mark, if_neg ha] at h ⊢
      simp only [List.length_cons] at h
      omega

end Mark

variable {next : α → List α} {U : List α}

/-- One turn keeps the invariant. -/
theorem Invariant.turn (hU : ∀ a ∈ U, next a ⊆ U) {s : State α} {a : α} {rest : List α}
    (h : Invariant next U s) (hwork : s.work = a :: rest) :
    Invariant next U ((next a).foldl mark ⟨s.marked, rest⟩) where
  nodup := nodup_foldl h.nodup
  known := known_foldl h.known (hU a (h.known (h.work_marked (hwork ▸ List.mem_cons_self))))
  work_marked :=
    work_marked_foldl fun b hb => h.work_marked (hwork ▸ List.mem_cons_of_mem _ hb)
  closed b hb hnot := by
    obtain ⟨hnew, hrest⟩ := mem_work_foldl (l := next a) (s := ⟨s.marked, rest⟩)
    by_cases hba : b = a
    · exact hba ▸ mem_foldl
    · have hb := (hnew b hb).resolve_right hnot
      have hnot : b ∉ s.work := by
        rw [hwork, List.mem_cons, not_or]
        exact ⟨hba, fun h => hnot (hrest h)⟩
      exact fun c hc => marked_foldl (h.closed b hb hnot hc)

/-- With enough turns the worklist runs empty. -/
theorem run_spec (hU : ∀ a ∈ U, next a ⊆ U) : ∀ {fuel : Nat} {s : State α}, Invariant next U s →
    s.work.length + U.length ≤ fuel + s.marked.length →
    (run next fuel s).work = [] ∧ Invariant next U (run next fuel s) ∧
      s.marked ⊆ (run next fuel s).marked := by
  intro fuel
  induction fuel with
  | zero =>
    intro s h hfuel
    have hle := (List.subperm_of_subset h.nodup h.known).length_le
    have hzero : s.work.length = 0 := by omega
    exact ⟨List.length_eq_zero_iff.mp hzero, h, List.Subset.refl _⟩
  | succ n ih =>
    intro s h hfuel
    rw [run]
    split
    · next hwork => exact ⟨hwork, h, List.Subset.refl _⟩
    · next a rest hwork =>
      have hlength := length_foldl (l := next a) (s := ⟨s.marked, rest⟩)
      rw [hwork, List.length_cons] at hfuel
      obtain ⟨hempty, hinv, hsub⟩ := ih (h.turn hU hwork) (by simp only at hlength; omega)
      exact ⟨hempty, hinv, fun b hb => hsub (marked_foldl hb)⟩

variable {roots : List α} {fuel : Nat}

theorem closure_spec (hU : ∀ a ∈ U, next a ⊆ U) (hroots : roots ⊆ U) (hfuel : U.length ≤ fuel) :
    (run next fuel (roots.foldl mark ⟨[], []⟩)).work = [] ∧
      Invariant next U (run next fuel (roots.foldl mark ⟨[], []⟩)) ∧
      (roots.foldl mark ⟨[], []⟩).marked ⊆ closure next fuel roots := by
  have hlength := length_foldl (l := roots) (s := ⟨[], []⟩)
  have hstart : Invariant next U (roots.foldl mark ⟨[], []⟩) :=
    { nodup := nodup_foldl List.nodup_nil
      known := known_foldl (List.nil_subset _) hroots
      work_marked := work_marked_foldl (List.nil_subset _)
      closed := fun a ha hnot =>
        absurd ((mem_work_foldl.1 a ha).resolve_right hnot) List.not_mem_nil }
  refine run_spec hU hstart ?_
  simp only [List.length_nil] at hlength
  omega

/-- The roots are marked. -/
theorem mem_closure_of_root (hU : ∀ a ∈ U, next a ⊆ U) (hroots : roots ⊆ U)
    (hfuel : U.length ≤ fuel) : roots ⊆ closure next fuel roots :=
  fun _ ha => (closure_spec hU hroots hfuel).2.2 (mem_foldl ha)

/-- A successor of a marked element is marked. -/
theorem mem_closure_of_next (hU : ∀ a ∈ U, next a ⊆ U) (hroots : roots ⊆ U)
    (hfuel : U.length ≤ fuel) {a b : α} (ha : a ∈ closure next fuel roots) (hb : b ∈ next a) :
    b ∈ closure next fuel roots := by
  obtain ⟨hempty, hinv, -⟩ := closure_spec hU hroots hfuel
  refine hinv.closed a ha ?_ hb
  rw [hempty]
  exact List.not_mem_nil

end RvLlvm.Support.Worklist
