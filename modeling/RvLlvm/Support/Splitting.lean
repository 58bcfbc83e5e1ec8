import Mathlib.Data.Finset.Card
import Mathlib.Data.List.Pairwise
import Mathlib.Data.List.Flatten
import Mathlib.Data.List.Nodup
import Mathlib.Algebra.Order.BigOperators.Group.List
import Mathlib.Algebra.Order.Group.Nat

/-!
# Groups of a list

A list that is cut into groups, each with one label for its elements. The lists here stand for
arrays that are sorted by group; nothing names a program.

* `Grouped`: neighbours are together exactly when their labels agree.
* `Labelled`: the label of a group is the place where it ends.
* `splits`: a group, split by comparing with its first element, and so on with the rest.
* `cut`: the number of the groups up to a place; `flatten_slice`, `flatMap_slices`: slices between
  cuts.
-/

namespace RvLlvm.Support

variable {α : Type}

/-! ## Labels -/

/-- The groups are the classes of the labels, each in one piece. -/
def Grouped (κ : α → Nat) : List (List α) → Prop
  | [] => True
  | g :: gs => g ≠ [] ∧ (∀ x ∈ g, ∀ y ∈ g, κ x = κ y) ∧ (∀ x ∈ g, ∀ y ∈ gs.flatten, κ x ≠ κ y) ∧
      Grouped κ gs

/-- The label of a group is the place of its end, counted from `b`. -/
def Labelled (κ : α → Nat) : Nat → List (List α) → Prop
  | _, [] => True
  | b, g :: gs => g ≠ [] ∧ (∀ x ∈ g, κ x = b + g.length) ∧ Labelled κ (b + g.length) gs

section

variable {κ κ' : α → Nat} {gs hs : List (List α)} {b : Nat}

theorem Grouped.congr (h : Grouped κ gs) (heq : ∀ x ∈ gs.flatten, κ' x = κ x) : Grouped κ' gs := by
  induction gs with
  | nil => trivial
  | cons g gs ih =>
    obtain ⟨hne, hsame, hdiff, hrest⟩ := h
    have hg : ∀ x ∈ g, κ' x = κ x := fun x hx => heq x (List.mem_append_left _ hx)
    have hgs : ∀ x ∈ gs.flatten, κ' x = κ x := fun x hx => heq x (List.mem_append_right g hx)
    refine ⟨hne, fun x hx y hy => ?_, fun x hx y hy => ?_, ih hrest hgs⟩
    · rw [hg x hx, hg y hy, hsame x hx y hy]
    · rw [hg x hx, hgs y hy]
      exact hdiff x hx y hy

theorem Grouped.sublist (h : Grouped κ gs) (hsub : hs.Sublist gs) : Grouped κ hs := by
  induction hsub with
  | slnil => trivial
  | cons g _ ih => exact ih h.2.2.2
  | cons_cons g hsub ih =>
    obtain ⟨hne, hsame, hdiff, hrest⟩ := h
    exact ⟨hne, hsame, fun x hx y hy => hdiff x hx y (hsub.flatten.subset hy), ih hrest⟩

theorem Labelled.congr (h : Labelled κ b gs) (heq : ∀ x ∈ gs.flatten, κ' x = κ x) :
    Labelled κ' b gs := by
  induction gs generalizing b with
  | nil => trivial
  | cons g gs ih =>
    obtain ⟨hne, hlabel, hrest⟩ := h
    refine ⟨hne, fun x hx => ?_, ih hrest fun x hx => heq x (List.mem_append_right g hx)⟩
    rw [heq x (List.mem_append_left _ hx), hlabel x hx]

theorem Labelled.bounds (h : Labelled κ b gs) :
    ∀ x ∈ gs.flatten, b < κ x ∧ κ x ≤ b + gs.flatten.length := by
  induction gs generalizing b with
  | nil => exact fun x hx => absurd hx List.not_mem_nil
  | cons g gs ih =>
    obtain ⟨hne, hlabel, hrest⟩ := h
    have hpos := List.length_pos_iff.mpr hne
    intro x hx
    rw [List.flatten_cons, List.length_append]
    rcases List.mem_append.mp hx with hx | hx
    · have hx := hlabel x hx
      omega
    · have hx := ih hrest x hx
      omega

theorem Labelled.grouped (h : Labelled κ b gs) : Grouped κ gs := by
  induction gs generalizing b with
  | nil => trivial
  | cons g gs ih =>
    obtain ⟨hne, hlabel, hrest⟩ := h
    refine ⟨hne, fun x hx y hy => (hlabel x hx).trans (hlabel y hy).symm, fun x hx y hy => ?_, ih hrest⟩
    have hx := hlabel x hx
    have hy := hrest.bounds y hy
    omega

theorem labelled_append :
    Labelled κ b (gs ++ hs) ↔ Labelled κ b gs ∧ Labelled κ (b + gs.flatten.length) hs := by
  induction gs generalizing b with
  | nil => exact ⟨fun h => ⟨trivial, h⟩, fun h => h.2⟩
  | cons g gs ih =>
    rw [List.cons_append, List.flatten_cons, List.length_append, ← Nat.add_assoc]
    simp only [Labelled, ih, and_assoc]

/-- The labels are those of the groups. -/
theorem Labelled.eq_of_labelled (h : Labelled κ b gs) (h' : Labelled κ' b gs) :
    ∀ x ∈ gs.flatten, κ x = κ' x := by
  induction gs generalizing b with
  | nil => exact fun x hx => absurd hx List.not_mem_nil
  | cons g gs ih =>
    intro x hx
    rcases List.mem_append.mp hx with hx | hx
    · rw [h.2.1 x hx, h'.2.1 x hx]
    · exact ih h.2.2 h'.2.2 x hx

theorem Grouped.eq_of_mem (h : Grouped κ gs) {g : List α} (hg : g ∈ gs) {x y : α} (hx : x ∈ g)
    (hy : y ∈ g) : κ x = κ y := by
  induction gs with
  | nil => exact absurd hg List.not_mem_nil
  | cons g' gs ih =>
    obtain ⟨-, hsame, -, hrest⟩ := h
    rcases List.mem_cons.mp hg with rfl | hg
    · exact hsame x hx y hy
    · exact ih hrest hg

theorem Grouped.mem_of_eq (h : Grouped κ gs) {g : List α} (hg : g ∈ gs) {x y : α} (hx : x ∈ g)
    (hy : y ∈ gs.flatten) (heq : κ x = κ y) : y ∈ g := by
  induction gs with
  | nil => exact absurd hg List.not_mem_nil
  | cons g' gs ih =>
    obtain ⟨-, -, hdiff, hrest⟩ := h
    rcases List.mem_cons.mp hg with rfl | hg
    · rcases List.mem_append.mp hy with hy | hy
      · exact hy
      · exact absurd heq (hdiff x hx y hy)
    · rcases List.mem_append.mp hy with hy | hy
      · exact absurd heq.symm (hdiff y hy x (List.mem_flatten.mpr ⟨g, hg, hx⟩))
      · exact ih hrest hg hy

/-- Elements with one label are in the same groups. -/
theorem Grouped.mem_iff (h : Grouped κ gs) {x y : α} (hx : x ∈ gs.flatten) (hy : y ∈ gs.flatten)
    (heq : κ x = κ y) {g : List α} (hg : g ∈ gs) : x ∈ g ↔ y ∈ g :=
  ⟨fun hxg => h.mem_of_eq hg hxg hy heq, fun hyg => h.mem_of_eq hg hyg hx heq.symm⟩

/-- A group ends where its label does. -/
theorem Grouped.takeWhile {g rest : List α} (h : Grouped κ (g :: gs)) {s : α} (hs : s ∈ g)
    (hrest : rest ⊆ g) :
    (rest ++ gs.flatten).takeWhile (fun t => decide (κ t = κ s)) = rest ∧
      (rest ++ gs.flatten).dropWhile (fun t => decide (κ t = κ s)) = gs.flatten := by
  obtain ⟨-, hsame, hdiff, -⟩ := h
  set like : α → Bool := fun t => decide (κ t = κ s) with hlike
  have hall : ∀ t ∈ rest, like t = true := fun t ht => decide_eq_true (hsame t (hrest ht) s hs)
  rw [List.takeWhile_append_of_pos hall, List.dropWhile_append_of_pos hall]
  cases hgs : gs.flatten with
  | nil => exact ⟨List.append_nil _, rfl⟩
  | cons t _ =>
    have ht : ¬ like t = true := by
      rw [hlike, decide_eq_true_iff]
      refine fun heq => hdiff s hs t ?_ heq.symm
      rw [hgs]
      exact List.mem_cons_self
    exact ⟨by rw [List.takeWhile_cons_of_neg ht, List.append_nil], List.dropWhile_cons_of_neg ht⟩

/-- A sorted list has its groups. -/
theorem exists_grouped {l : List α} (h : l.Pairwise fun x y => κ x ≤ κ y) :
    ∃ gs, l = gs.flatten ∧ Grouped κ gs := by
  induction l with
  | nil => exact ⟨[], rfl, trivial⟩
  | cons x l ih =>
    obtain ⟨hx, hl⟩ := List.pairwise_cons.mp h
    obtain ⟨gs, rfl, hgs⟩ := ih hl
    cases gs with
    | nil =>
      refine ⟨[[x]], rfl, List.cons_ne_nil _ _, fun y hy z hz => ?_, fun y _ z hz => ?_, trivial⟩
      · rw [List.mem_singleton.mp hy, List.mem_singleton.mp hz]
      · exact absurd hz List.not_mem_nil
    | cons g gs =>
      obtain ⟨hne, hsame, hdiff, hrest⟩ := hgs
      obtain ⟨y, hy⟩ := List.exists_mem_of_ne_nil g hne
      rw [List.flatten_cons] at hx hl
      have hxy : κ x ≤ κ y := hx y (List.mem_append_left _ hy)
      have hyz : ∀ z ∈ gs.flatten, κ y ≤ κ z := fun z hz =>
        (List.pairwise_append.mp hl).2.2 y hy z hz
      by_cases heq : κ x = κ y
      · have hlike : ∀ z ∈ x :: g, κ z = κ y := fun z hz => by
          rcases List.mem_cons.mp hz with rfl | hz
          · exact heq
          · exact hsame z hz y hy
        refine ⟨(x :: g) :: gs, rfl, List.cons_ne_nil _ _, fun z hz w hw => ?_, fun z hz w hw => ?_, hrest⟩
        · rw [hlike z hz, hlike w hw]
        · rw [hlike z hz]
          exact hdiff y hy w hw
      · refine ⟨[x] :: g :: gs, rfl, List.cons_ne_nil _ _, fun z hz w hw => ?_, fun z hz w hw => ?_,
          hne, hsame, hdiff, hrest⟩
        · rw [List.mem_singleton.mp hz, List.mem_singleton.mp hw]
        · rw [List.mem_singleton.mp hz]
          rcases List.mem_append.mp hw with hw | hw
          · rw [hsame w hw y hy]
            exact heq
          · have hyw := hyz w hw
            omega

/-- There are as many labels as groups. -/
theorem Labelled.card [DecidableEq α] (h : Labelled κ b gs) :
    (gs.flatten.map κ).toFinset.card = gs.length := by
  induction gs generalizing b with
  | nil => rfl
  | cons g gs ih =>
    obtain ⟨hne, hlabel, hrest⟩ := h
    have hhead : (g.map κ).toFinset = {b + g.length} := by
      ext c
      rw [List.mem_toFinset, List.mem_map, Finset.mem_singleton]
      constructor
      · rintro ⟨x, hx, rfl⟩
        exact hlabel x hx
      · rintro rfl
        obtain ⟨x, hx⟩ := List.exists_mem_of_ne_nil g hne
        exact ⟨x, hx, hlabel x hx⟩
    have hnot : b + g.length ∉ (gs.flatten.map κ).toFinset := by
      rw [List.mem_toFinset, List.mem_map]
      rintro ⟨x, hx, hκ⟩
      exact absurd hκ (Nat.ne_of_gt (hrest.bounds x hx).1)
    rw [List.flatten_cons, List.map_append, List.toFinset_append, hhead, Finset.singleton_union,
      Finset.card_insert_of_notMem hnot, ih hrest, List.length_cons]

end

/-! ## Splitting a group -/

/-- The group of the first element, then the groups of what is left. -/
def splits (E : α → α → Bool) : List α → List (List α)
  | [] => []
  | p :: rest => (p :: rest.filter (E p)) :: splits E (rest.filter fun x => !E p x)
termination_by l => l.length
decreasing_by
  rw [List.length_unattach]
  exact Nat.lt_succ_of_le ((List.length_filter_le _ _).trans_eq List.length_attach)

/-- Every group has an element that the others are like. -/
theorem splits_pivot {E : α → α → Bool} (hrefl : ∀ x, E x x = true) (l : List α) :
    ∀ g ∈ splits E l, ∃ p ∈ g, ∀ x ∈ g, E p x = true := by
  induction hn : l.length using Nat.strong_induction_on generalizing l with
  | _ n ih =>
    cases l with
    | nil =>
      rw [splits]
      exact fun g hg => absurd hg List.not_mem_nil
    | cons p rest =>
      rw [splits]
      intro g hg
      rcases List.mem_cons.mp hg with rfl | hg
      · refine ⟨p, List.mem_cons_self, fun x hx => ?_⟩
        rcases List.mem_cons.mp hx with rfl | hx
        · exact hrefl x
        · exact (List.mem_filter.mp hx).2
      · have hlt : (rest.filter fun x => !E p x).length < n := by
          rw [← hn]
          exact Nat.lt_succ_of_le (List.length_filter_le _ _)
        exact ih _ hlt _ rfl g hg

/-! ## Cutting between groups -/

/-- How many groups there are up to the one that has the place. -/
def cut : List (List α) → Nat → Nat
  | [], _ => 0
  | g :: gs, i => if i < g.length then 1 else cut gs (i - g.length) + 1

theorem cut_le (gs : List (List α)) (i : Nat) : cut gs i ≤ gs.length := by
  induction gs generalizing i with
  | nil => exact le_rfl
  | cons g gs ih =>
    rw [cut, List.length_cons]
    split
    · exact Nat.le_add_left _ _
    · exact Nat.succ_le_succ (ih _)

theorem cut_mono (gs : List (List α)) {i j : Nat} (h : i ≤ j) : cut gs i ≤ cut gs j := by
  induction gs generalizing i j with
  | nil => exact le_rfl
  | cons g gs ih =>
    rw [cut, cut]
    split
    · split
      · exact le_rfl
      · exact Nat.le_add_left _ _
    · rw [if_neg (by omega)]
      exact Nat.succ_le_succ (ih (by omega))

/-- What lies between two cuts. -/
theorem flatten_slice (gs : List (List α)) {j k : Nat} (h : j ≤ k) :
    (gs.flatten.drop (gs.take j).flatten.length).take
        ((gs.take k).flatten.length - (gs.take j).flatten.length) = ((gs.take k).drop j).flatten := by
  have hk : gs.take k = gs.take j ++ (gs.take k).drop j := by
    conv_lhs => rw [← List.take_append_drop j (gs.take k), List.take_take, Nat.min_eq_left h]
  have hgs : gs.flatten = (gs.take j).flatten ++ (((gs.take k).drop j).flatten ++ (gs.drop k).flatten) := by
    rw [← List.append_assoc, ← List.flatten_append, ← hk, ← List.flatten_append, List.take_append_drop]
  have hlen : (gs.take k).flatten.length - (gs.take j).flatten.length =
      ((gs.take k).drop j).flatten.length := by
    rw [hk, List.flatten_append, List.length_append, Nat.add_sub_cancel_left, ← hk]
  rw [hlen, hgs, List.drop_left', List.take_left']
  · rfl
  · rfl

/-- Consecutive slices make up the list. -/
theorem flatMap_slices {gs : List α} {k : Nat → Nat} (hmono : ∀ i, k i ≤ k (i + 1)) (hzero : k 0 = 0)
    (n : Nat) : ((List.range' 1 n).flatMap fun i => (gs.take (k i)).drop (k (i - 1))) = gs.take (k n) := by
  induction n with
  | zero => rw [hzero]; rfl
  | succ n ih =>
    rw [List.range'_concat, List.flatMap_append, ih, List.flatMap_singleton, Nat.one_mul,
      Nat.add_comm 1 n, Nat.add_sub_cancel]
    conv_rhs => rw [← List.take_append_drop (k n) (gs.take (k (n + 1))), List.take_take,
      Nat.min_eq_left (hmono n)]

/-- Pieces of a list without duplicates have nothing in common. -/
theorem disjoint_of_flatMap {ι : Type} {a : ι → List (List α)} {l : List ι}
    (h : (l.flatMap a).flatten.Nodup) :
    ∀ i ∈ l, ∀ j ∈ l, i ≠ j → (a i).flatten.Disjoint (a j).flatten := by
  have hflatten : (l.flatMap a).flatten = l.flatMap fun i => (a i).flatten := by
    simp only [List.flatten_eq_flatMap, List.flatMap_assoc]
  rw [hflatten, List.nodup_flatMap] at h
  have hsymm : Std.Symm (Function.onFun List.Disjoint fun i => (a i).flatten) :=
    ⟨fun _ _ hij => hij.symm⟩
  exact fun i hi j hj hij => h.2.forall hi hj hij

/-- Pieces that are nowhere shorter are longer as a whole exactly when one is. -/
theorem length_flatMap_lt {ι : Type} {a b : ι → List α} {l : List ι}
    (hle : ∀ i ∈ l, (a i).length ≤ (b i).length) :
    (l.flatMap a).length < (l.flatMap b).length ↔ ∃ i ∈ l, (a i).length < (b i).length := by
  induction l with
  | nil => simp
  | cons i l ih =>
    have hi := hle i List.mem_cons_self
    have hl : (l.flatMap a).length ≤ (l.flatMap b).length := by
      rw [List.length_flatMap, List.length_flatMap]
      exact List.sum_le_sum fun j hj => hle j (List.mem_cons_of_mem _ hj)
    have ih := ih fun j hj => hle j (List.mem_cons_of_mem _ hj)
    rw [List.flatMap_cons, List.flatMap_cons, List.length_append, List.length_append,
      List.exists_mem_cons_iff, ← ih]
    omega

end RvLlvm.Support
