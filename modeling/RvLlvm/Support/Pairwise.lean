import Mathlib.Data.List.Forall2

/-!
# Lists that agree place by place

What `List.Forall₂` keeps when lists are composed, zipped or mapped.
-/

namespace RvLlvm.Support

theorem forall₂_compose {α β γ : Type} {S : α → β → Prop} {S' : γ → β → Prop} {S'' : α → γ → Prop}
    {as : List α} {ks : List β} {bs : List γ} (h : List.Forall₂ S as ks) (h' : List.Forall₂ S' bs ks)
    (hS : ∀ a ∈ as, ∀ k ∈ ks, ∀ b ∈ bs, S a k → S' b k → S'' a b) : List.Forall₂ S'' as bs := by
  induction h generalizing bs with
  | nil =>
    cases h'
    exact .nil
  | @cons a k as ks hak _ ih =>
    cases h' with
    | cons hbk h' =>
      refine .cons (hS _ List.mem_cons_self _ List.mem_cons_self _ List.mem_cons_self hak hbk) (ih h' ?_)
      exact fun a ha k hk b hb => hS a (List.mem_cons_of_mem _ ha) k (List.mem_cons_of_mem _ hk) b
        (List.mem_cons_of_mem _ hb)

theorem forall₂_refl {α : Type} {S : α → α → Prop} (hS : ∀ a, S a a) (as : List α) :
    List.Forall₂ S as as := by
  induction as with
  | nil => exact .nil
  | cons a as ih => exact .cons (hS a) ih

theorem forall₂_zip {α β : Type} {S : α → β → Prop} {as : List α} {bs : List β}
    (h : List.Forall₂ S as bs) :
    List.Forall₂ (fun a b => S a b ∧ (a, b) ∈ as.zip bs) as bs := by
  induction h with
  | nil => exact .nil
  | cons hab _ ih =>
    exact .cons ⟨hab, List.mem_cons_self⟩ (ih.imp fun _ _ hx => ⟨hx.1, List.mem_cons_of_mem _ hx.2⟩)

theorem forall₂_of_map_eq {α β γ : Type} {f : α → γ} {g : β → γ} {as : List α} {bs : List β}
    (h : as.map f = bs.map g) : List.Forall₂ (fun a b => f a = g b) as bs := by
  induction as generalizing bs with
  | nil =>
    obtain rfl := List.map_eq_nil_iff.mp h.symm
    exact .nil
  | cons a as ih =>
    cases bs with
    | nil => exact absurd h (by simp)
    | cons b bs =>
      rw [List.map_cons, List.map_cons, List.cons.injEq] at h
      exact .cons h.1 (ih h.2)

/-- A member of the second list has one in the first. -/
theorem exists_of_forall₂_right {α β : Type} {S : α → β → Prop} {as : List α} {bs : List β}
    (h : List.Forall₂ S as bs) {b : β} (hb : b ∈ bs) : ∃ a ∈ as, S a b := by
  induction h with
  | nil => exact absurd hb List.not_mem_nil
  | cons hab _ ih =>
    rcases List.mem_cons.mp hb with rfl | hb
    · exact ⟨_, List.mem_cons_self, hab⟩
    · obtain ⟨a, ha, h⟩ := ih hb
      exact ⟨a, List.mem_cons_of_mem _ ha, h⟩

end RvLlvm.Support
