import Mathlib.Algebra.Order.Ring.Int
import Mathlib.Data.List.Basic
import Mathlib.Data.List.Pairwise
import Mathlib.Order.Basic
import Mathlib.Order.Defs.LinearOrder
import Mathlib.Tactic.Common

/-!
# Ordered maps

A map with ordered keys: the list of its entries, by ascending key. Nothing here names a program.

* `insert`: an entry whose key is there already is left as it is.
* `foldl_insert`: a map is rebuilt by inserting its entries in order.
* `mem_insert`, `length_insert_le`: what an insertion can add.
* `find`, `floor`: the entry at a key, and the one before the first above it.
* `set`, `erase`: an entry whose key is there already is replaced; `mem_foldl_set`: several at once.
-/

namespace RvLlvm.Support

/-- The entries of a map, by ascending key. -/
@[ext] structure OrderedMap (κ β : Type) [LinearOrder κ] where
  entries : List (κ × β)
  sorted : entries.Pairwise fun a b => a.1 < b.1

namespace OrderedMap

variable {κ β : Type} [LinearOrder κ]

instance [DecidableEq β] : DecidableEq (OrderedMap κ β) := fun a b =>
  decidable_of_iff (a.entries = b.entries) OrderedMap.ext_iff.symm

def empty : OrderedMap κ β := ⟨[], .nil⟩

def insertEntry : List (κ × β) → κ → β → List (κ × β)
  | [], k, v => [(k, v)]
  | e :: m, k, v =>
    if k < e.1 then (k, v) :: e :: m else if k = e.1 then e :: m else e :: insertEntry m k v

attribute [local grind =] insertEntry

theorem mem_insertEntry {m : List (κ × β)} {k : κ} {v : β} {a : κ × β}
    (h : a ∈ insertEntry m k v) : a = (k, v) ∨ a ∈ m := by
  induction m with
  | nil => exact .inl (List.mem_singleton.mp h)
  | cons e m ih =>
    rw [insertEntry] at h
    split at h
    · exact List.mem_cons.mp h
    · split at h
      · exact .inr h
      · rcases List.mem_cons.mp h with rfl | h
        · exact .inr List.mem_cons_self
        · exact (ih h).imp_right (List.mem_cons_of_mem e)

theorem pairwise_insertEntry {m : List (κ × β)} (h : m.Pairwise fun a b => a.1 < b.1) (k : κ)
    (v : β) : (insertEntry m k v).Pairwise fun a b => a.1 < b.1 := by
  induction m with
  | nil => exact List.pairwise_singleton _ _
  | cons e m ih =>
    obtain ⟨he, hm⟩ := List.pairwise_cons.mp h
    rw [insertEntry]
    split
    · rename_i hlt
      refine List.pairwise_cons.mpr ⟨fun a ha => ?_, h⟩
      rcases List.mem_cons.mp ha with rfl | ha
      · exact hlt
      · exact hlt.trans (he a ha)
    · split
      · exact h
      · rename_i hnlt hne
        refine List.pairwise_cons.mpr ⟨fun a ha => ?_, ih hm⟩
        rcases mem_insertEntry ha with rfl | ha
        · exact lt_of_le_of_ne (not_lt.mp hnlt) (Ne.symm hne)
        · exact he a ha

theorem insertEntry_of_lt {m : List (κ × β)} {k : κ} {v : β} (h : ∀ e ∈ m, e.1 < k) :
    insertEntry m k v = m ++ [(k, v)] := by
  induction m with
  | nil => rfl
  | cons e m ih =>
    rw [List.forall_mem_cons] at h
    rw [insertEntry, if_neg h.1.asymm, if_neg h.1.ne', ih h.2, List.cons_append]

theorem length_insertEntry_le (m : List (κ × β)) (k : κ) (v : β) :
    (insertEntry m k v).length ≤ m.length + 1 := by
  induction m with
  | nil => exact Nat.le_refl 1
  | cons e m ih =>
    rw [insertEntry]
    split
    · exact Nat.le_refl _
    · split
      · exact Nat.le_succ _
      · exact Nat.succ_le_succ ih

/-- Insert an entry, unless its key is there. -/
def insert (m : OrderedMap κ β) (e : κ × β) : OrderedMap κ β :=
  ⟨insertEntry m.entries e.1 e.2, pairwise_insertEntry m.sorted e.1 e.2⟩

variable {m : OrderedMap κ β}

theorem mem_insert {e a : κ × β} (h : a ∈ (m.insert e).entries) :
    a = e ∨ a ∈ m.entries := mem_insertEntry h

theorem length_insert_le (m : OrderedMap κ β) (e : κ × β) :
    (m.insert e).entries.length ≤ m.entries.length + 1 :=
  length_insertEntry_le m.entries e.1 e.2

/-- **A map is rebuilt by inserting its entries in order.** -/
theorem entries_foldl_insert {acc : OrderedMap κ β} {es : List (κ × β)}
    (h : (acc.entries ++ es).Pairwise fun a b => a.1 < b.1) :
    (es.foldl insert acc).entries = acc.entries ++ es := by
  induction es generalizing acc with
  | nil => rw [List.foldl_nil, List.append_nil]
  | cons e es ih =>
    have hlt : ∀ a ∈ acc.entries, a.1 < e.1 := fun a ha =>
      (List.pairwise_append.mp h).2.2 a ha e List.mem_cons_self
    have hins : (acc.insert e).entries = acc.entries ++ [e] := insertEntry_of_lt hlt
    have happ : (acc.insert e).entries ++ es = acc.entries ++ e :: es := by
      rw [hins, List.append_assoc, List.singleton_append]
    rw [List.foldl_cons, ih (by rw [happ]; exact h), happ]

theorem foldl_insert_entries (m : OrderedMap κ β) : m.entries.foldl insert empty = m :=
  OrderedMap.ext (entries_foldl_insert m.sorted)

/-- The value at `k`. -/
def find (m : OrderedMap κ β) (k : κ) : Option β :=
  (m.entries.find? fun e => decide (e.1 = k)).map Prod.snd

/-- The entry before the first one whose key is above `k`. -/
def floor (m : OrderedMap κ β) (k : κ) : Option (κ × β) :=
  (m.entries.takeWhile fun e => decide (e.1 ≤ k)).getLast?

/-! ## Overwriting -/

def setEntry : List (κ × β) → κ → β → List (κ × β)
  | [], k, v => [(k, v)]
  | e :: m, k, v =>
    if k < e.1 then (k, v) :: e :: m else if k = e.1 then (k, v) :: m else e :: setEntry m k v

attribute [local grind =] setEntry

theorem mem_setEntry {m : List (κ × β)} (h : m.Pairwise fun a b => a.1 < b.1) (k : κ) (v : β)
    (a : κ × β) : a ∈ setEntry m k v ↔ a = (k, v) ∨ a.1 ≠ k ∧ a ∈ m := by
  induction m with
  | nil => exact ⟨fun ha => .inl (List.mem_singleton.mp ha), fun ha => ha.elim
      (fun ha => List.mem_singleton.mpr ha) fun ha => absurd ha.2 List.not_mem_nil⟩
  | cons e m ih =>
    obtain ⟨he, hm⟩ := List.pairwise_cons.mp h
    rw [setEntry]
    split
    case isTrue hlt =>
      have hne : ∀ b ∈ e :: m, b.1 ≠ k := fun b hb => by
        rcases List.mem_cons.mp hb with rfl | hb
        · exact hlt.ne'
        · exact (hlt.trans (he b hb)).ne'
      rw [List.mem_cons]
      exact or_congr_right ⟨fun hb => ⟨hne a hb, hb⟩, fun hb => hb.2⟩
    case isFalse =>
      split
      case isTrue heq =>
        have hne : ∀ b ∈ m, b.1 ≠ k := fun b hb => heq ▸ (he b hb).ne'
        rw [List.mem_cons, List.mem_cons]
        refine or_congr_right ⟨fun hb => ⟨hne a hb, .inr hb⟩, fun hb => hb.2.resolve_left ?_⟩
        rintro rfl
        exact hb.1 heq.symm
      case isFalse hne =>
        rw [List.mem_cons, List.mem_cons, ih hm]
        constructor
        · rintro (rfl | rfl | hb)
          · exact .inr ⟨fun heq => hne heq.symm, .inl rfl⟩
          · exact .inl rfl
          · exact .inr ⟨hb.1, .inr hb.2⟩
        · rintro (rfl | ⟨hak, rfl | hb⟩)
          · exact .inr (.inl rfl)
          · exact .inl rfl
          · exact .inr (.inr ⟨hak, hb⟩)

theorem pairwise_setEntry {m : List (κ × β)} (h : m.Pairwise fun a b => a.1 < b.1) (k : κ) (v : β) :
    (setEntry m k v).Pairwise fun a b => a.1 < b.1 := by
  induction m with
  | nil => exact List.pairwise_singleton _ _
  | cons e m ih =>
    obtain ⟨he, hm⟩ := List.pairwise_cons.mp h
    rw [setEntry]
    split
    case isTrue hlt =>
      refine List.pairwise_cons.mpr ⟨fun a ha => ?_, h⟩
      rcases List.mem_cons.mp ha with rfl | ha
      · exact hlt
      · exact hlt.trans (he a ha)
    case isFalse hnlt =>
      split
      case isTrue heq => exact List.pairwise_cons.mpr ⟨fun a ha => heq ▸ he a ha, hm⟩
      case isFalse hne =>
        refine List.pairwise_cons.mpr ⟨fun a ha => ?_, ih hm⟩
        rcases (mem_setEntry hm k v a).mp ha with rfl | ha
        · exact lt_of_le_of_ne (not_lt.mp hnlt) (Ne.symm hne)
        · exact he a ha.2

/-- Set the value at a key. -/
def set (m : OrderedMap κ β) (e : κ × β) : OrderedMap κ β :=
  ⟨setEntry m.entries e.1 e.2, pairwise_setEntry m.sorted e.1 e.2⟩

theorem mem_set (m : OrderedMap κ β) (e a : κ × β) :
    a ∈ (m.set e).entries ↔ a = e ∨ a.1 ≠ e.1 ∧ a ∈ m.entries :=
  mem_setEntry m.sorted e.1 e.2 a

/-- Remove a key. -/
def erase (m : OrderedMap κ β) (k : κ) : OrderedMap κ β :=
  ⟨m.entries.filter fun e => decide (e.1 ≠ k), m.sorted.filter _⟩

attribute [local grind =] erase find

theorem mem_erase (m : OrderedMap κ β) (k : κ) (a : κ × β) :
    a ∈ (m.erase k).entries ↔ a ∈ m.entries ∧ a.1 ≠ k := by
  rw [erase, List.mem_filter, decide_eq_true_iff]

/-- One value at each key. -/
theorem eq_of_mem {k : κ} {v w : β} (hv : (k, v) ∈ m.entries) (hw : (k, w) ∈ m.entries) :
    v = w := by
  by_contra hne
  have hlt := m.sorted.imp (S := fun a b => a.1 ≠ b.1) fun h => h.ne
  have hsymm : Std.Symm fun a b : κ × β => a.1 ≠ b.1 := ⟨fun _ _ h => h.symm⟩
  exact hlt.forall hv hw (fun heq => hne (Prod.mk.inj heq).2) rfl

theorem find_eq_some_iff {k : κ} {v : β} : m.find k = some v ↔ (k, v) ∈ m.entries := by
  unfold find
  constructor
  · intro h
    obtain ⟨e, he, rfl⟩ := Option.map_eq_some_iff.mp h
    have hk : e.1 = k := by simpa only [decide_eq_true_iff] using List.find?_some he
    have hmem := List.mem_of_find?_eq_some he
    subst hk
    exact hmem
  · intro h
    cases hfind : m.entries.find? fun e => decide (e.1 = k) with
    | none => exact absurd (decide_eq_true rfl) (List.find?_eq_none.mp hfind _ h)
    | some e =>
      have hk : e.1 = k := by simpa only [decide_eq_true_iff] using List.find?_some hfind
      have hmem : (k, e.2) ∈ m.entries := hk ▸ List.mem_of_find?_eq_some hfind
      rw [Option.map_some, eq_of_mem h hmem]

theorem find_set (m : OrderedMap κ β) (e : κ × β) (k : κ) :
    (m.set e).find k = if k = e.1 then some e.2 else m.find k := by
  refine Option.ext fun v => ?_
  rw [find_eq_some_iff, mem_set]
  split
  case isTrue hk =>
    subst hk
    rw [Option.some_inj]
    exact ⟨fun h => h.elim (fun h => (congrArg Prod.snd h).symm) fun h => absurd rfl h.1,
      fun h => .inl (congrArg (Prod.mk e.1) h.symm)⟩
  case isFalse hk =>
    rw [find_eq_some_iff]
    exact ⟨fun h => (h.resolve_left fun h => hk (congrArg Prod.fst h)).2, fun h => .inr ⟨hk, h⟩⟩

/-- **Maps with the same entries** are equal. -/
theorem ext_mem {m' : OrderedMap κ β} (h : ∀ a, a ∈ m.entries ↔ a ∈ m'.entries) : m = m' := by
  have hnodup : ∀ m : OrderedMap κ β, m.entries.Nodup := fun m =>
    m.sorted.imp fun hlt heq => hlt.ne (congrArg Prod.fst heq)
  have hanti : ∀ a b : κ × β, a ∈ m.entries → b ∈ m'.entries → a.1 < b.1 → b.1 < a.1 → a = b :=
    fun a b _ _ hab hba => absurd hba hab.asymm
  exact OrderedMap.ext (List.Perm.eq_of_pairwise hanti m.sorted m'.sorted
    ((List.perm_ext_iff_of_nodup (hnodup m) (hnodup m')).mpr h))

/-- Setting several keys, each once. -/
theorem mem_foldl_set {es : List (κ × β)} (h : (es.map Prod.fst).Nodup) (a : κ × β) :
    a ∈ (es.foldl set m).entries ↔ a ∈ es ∨ a.1 ∉ es.map Prod.fst ∧ a ∈ m.entries := by
  induction es generalizing m with
  | nil => exact ⟨fun ha => .inr ⟨List.not_mem_nil, ha⟩, fun ha => ha.elim
      (fun ha => absurd ha List.not_mem_nil) fun ha => ha.2⟩
  | cons e es ih =>
    obtain ⟨he, hes⟩ := List.nodup_cons.mp h
    rw [List.foldl_cons, ih hes, mem_set, List.map_cons, List.mem_cons, List.mem_cons, not_or]
    constructor
    · rintro (ha | ⟨hnot, rfl | ⟨hne, ha⟩⟩)
      · exact .inl (.inr ha)
      · exact .inl (.inl rfl)
      · exact .inr ⟨⟨hne, hnot⟩, ha⟩
    · rintro ((rfl | ha) | ⟨⟨hne, hnot⟩, ha⟩)
      · exact .inr ⟨he, .inl rfl⟩
      · exact .inl ha
      · exact .inr ⟨hnot, .inr ⟨hne, ha⟩⟩

/-- The entries of a map, set one after the other, make up the map. -/
theorem foldl_set_entries (m : OrderedMap κ β) : m.entries.foldl set empty = m := by
  have hnodup : (m.entries.map Prod.fst).Nodup :=
    List.pairwise_map.mpr (m.sorted.imp fun hlt => hlt.ne)
  refine ext_mem fun a => (mem_foldl_set hnodup a).trans ?_
  exact ⟨fun ha => ha.resolve_right fun ha => List.not_mem_nil ha.2, .inl⟩

end OrderedMap

end RvLlvm.Support
