import Mathlib.Algebra.Order.BigOperators.Group.List
import Mathlib.Algebra.Order.Group.Nat
import RvLlvm.Mc.StringTableBuilder
import RvLlvm.Support.TailSharing

/-!
# The strings of a finished table

`finalizeStringTable` and `write` of `StringTableBuilder` (`llvm/lib/MC/StringTableBuilder.cpp`).
`write` is the one to a stream, whose buffer is zero at first.

* `Layout`: strings lie apart, a NUL between them, or end together, one the tail of the other.
* `Scan`: what the scan of `finalizeStringTable` keeps; `Scan.step` is a turn.
* `tables_resolve`: what is read at the offset of a string, and what the table's size is.

Two strings lie in the header: `" "` of a linked Mach-O table and the empty one. Where the empty
string is all that an XCOFF table holds and tails are shared, it counts as a tail of the header,
whose last byte `write` sets.
-/

namespace RvLlvm.Mc.StringTable

open Support

/-! ## Finalizing -/

/-- The scan of `finalizeStringTable`: `Previous`, `Size` and the offsets. -/
structure Scan where
  previous : Str
  size : Nat
  index : List (Str × Nat)

/-- The place at the end of the string placed before, if `s` may share it. -/
def sharedOffset (kind : Kind) (alignment : Nat) (t : Scan) (s : Str) : Option Nat :=
  let pos := t.size - s.length - nul kind
  if s.isSuffixOf t.previous && isAligned alignment pos then some pos else none

/-- One turn of the scan. -/
def Scan.place (kind : Kind) (alignment : Nat) (t : Scan) (s : Str) : Scan :=
  match sharedOffset kind alignment t s with
  | some pos => { t with index := t.index ++ [(s, pos)] }
  | none =>
    let start := alignTo t.size alignment
    ⟨s, start + s.length + nul kind, t.index ++ [(s, start)]⟩

/-- `StringIndexMap[s] = offset`. -/
def assign (index : List (Str × Nat)) (s : Str) (offset : Nat) : List (Str × Nat) :=
  index.filter (·.1 ≠ s) ++ [(s, offset)]

/-- The string that the header of a linked Mach-O table holds. -/
def space : Str := [0x20]

/-- The padding at the end of a table. -/
def padded (kind : Kind) (size : Nat) : Nat :=
  match kind with
  | .machO | .machOLinked => alignTo size 4
  | .machO64 | .machO64Linked => alignTo size 8
  | _ => size

/-- The strings in the header. -/
def assignHeader (kind : Kind) (index : List (Str × Nat)) : List (Str × Nat) :=
  match kind with
  | .machOLinked | .machO64Linked => assign index space 0
  | .elf => assign index [] 0
  | _ => index

/-- How deep the calls of the sort nest at most. -/
def sortDepth (strings : List Str) : Nat := strings.length + (strings.map List.length).sum + 2

namespace StringTableBuilder

/-- `finalizeStringTable`; `strings` are those of the table in the order in which the map yields
them. -/
def finalizeStringTable (b : StringTableBuilder) (optimize : Bool) (strings : List Str) :
    Option StringTableBuilder :=
  (if optimize then
    (multikeySort (sortDepth strings) strings 0).map fun sorted =>
      let t := sorted.foldl (Scan.place b.kind b.alignment) ⟨[], initSize b.kind, []⟩
      { b with index := t.index, size := t.size }
  else some b).map fun b =>
    { b with index := assignHeader b.kind b.index, size := padded b.kind b.size }

/-- `write32le`. -/
def write32le (v : Nat) : Str := (List.range 4).map fun k => BitVec.ofNat 8 (v / 2 ^ (8 * k))

/-- The first four bytes, where the table's size is stored. -/
def writeSize (b : StringTableBuilder) (buf : Str) : Option Str :=
  match b.kind with
  | .winCOFF => overwrite buf 0 (write32le b.size)
  | .xcoff => overwrite buf 0 (write32le b.size).reverse
  | _ => some buf

/-- `write`; `order` are the entries as the map yields them. -/
def write (b : StringTableBuilder) (order : List (Str × Nat)) : Option Str :=
  (copies (List.replicate b.size 0) order).bind b.writeSize

end StringTableBuilder

/-! ## Alignment -/

variable {alignment : Nat} {index : List (Str × Nat)} {kind : Kind}

theorem le_alignTo (h : 0 < alignment) (size : Nat) : size ≤ alignTo size alignment := by
  rw [alignTo]
  have hdiv := Nat.div_add_mod (size + alignment - 1) alignment
  have hmod := Nat.mod_lt (size + alignment - 1) h
  rw [Nat.mul_comm] at hdiv
  omega

theorem dvd_alignTo (alignment size : Nat) : alignment ∣ alignTo size alignment :=
  Nat.dvd_mul_left _ _

theorem alignTo_one (size : Nat) : alignTo size 1 = size := by simp [alignTo]

theorem isAligned_iff {pos : Nat} : isAligned alignment pos = true ↔ alignment ∣ pos := by
  rw [isAligned, beq_iff_eq, Nat.dvd_iff_mod_eq_zero]

theorem le_padded (kind : Kind) (size : Nat) : size ≤ padded kind size := by
  cases kind <;> first | exact Nat.le_refl size | exact le_alignTo (by decide) size

/-! ## Layouts -/

/-- The offsets of a table's strings: places in it that resolve. -/
structure Layout (kind : Kind) (alignment size : Nat) (index : List (Str × Nat)) : Prop where
  nodup : (index.map Prod.fst).Nodup
  fits : ∀ e ∈ index, e.2 + e.1.length + nul kind ≤ size
  aligned : ∀ e ∈ index, alignment ∣ e.2
  compatible : ∀ e ∈ index, ∀ f ∈ index, Compatible (nul kind) e f

/-- The header of the table holds no string, or an empty one that ends where the header does. -/
def OffHeader (kind : Kind) (e : Str × Nat) : Prop :=
  initSize kind ≤ e.2 ∨ (e.1 = [] ∧ e.2 + nul kind = initSize kind)

namespace Layout

variable {kind : Kind} {alignment size : Nat} {index : List (Str × Nat)}

theorem nil : Layout kind alignment size [] :=
  ⟨List.nodup_nil, fun _ he => absurd he List.not_mem_nil, fun _ he => absurd he List.not_mem_nil,
    fun _ he => absurd he List.not_mem_nil⟩

/-- A string more. -/
theorem append (h : Layout kind alignment size index) {e : Str × Nat} {size' : Nat}
    (hle : size ≤ size') (hnew : e.1 ∉ index.map Prod.fst)
    (hfits : e.2 + e.1.length + nul kind ≤ size') (haligned : alignment ∣ e.2)
    (hcompatible : ∀ f ∈ index, Compatible (nul kind) e f) :
    Layout kind alignment size' (index ++ [e]) where
  nodup := by
    rw [List.map_append]
    refine List.nodup_append.mpr ⟨h.nodup, by simp, fun s hs t ht heq => ?_⟩
    obtain rfl : t = e.1 := by simpa using ht
    exact hnew (heq ▸ hs)
  fits f hf := by
    rcases List.mem_append.mp hf with hf | hf
    · exact Nat.le_trans (h.fits f hf) hle
    · rwa [List.mem_singleton.mp hf]
  aligned f hf := by
    rcases List.mem_append.mp hf with hf | hf
    · exact h.aligned f hf
    · rwa [List.mem_singleton.mp hf]
  compatible f hf g hg := by
    rcases List.mem_append.mp hf with hf | hf <;> rcases List.mem_append.mp hg with hg | hg
    · exact h.compatible f hf g hg
    · rw [List.mem_singleton.mp hg]
      exact (hcompatible f hf).symm
    · rw [List.mem_singleton.mp hf]
      exact hcompatible g hg
    · rw [List.mem_singleton.mp hf, List.mem_singleton.mp hg]
      exact .refl _ _

theorem filter (h : Layout kind alignment size index) (p : Str × Nat → Bool) :
    Layout kind alignment size (index.filter p) where
  nodup := (h.nodup.sublist (List.filter_sublist.map Prod.fst))
  fits e he := h.fits e (List.mem_filter.mp he).1
  aligned e he := h.aligned e (List.mem_filter.mp he).1
  compatible e he f hf := h.compatible e (List.mem_filter.mp he).1 f (List.mem_filter.mp hf).1

theorem mono (h : Layout kind alignment size index) {size' : Nat} (hle : size ≤ size') :
    Layout kind alignment size' index :=
  ⟨h.nodup, fun e he => Nat.le_trans (h.fits e he) hle, h.aligned, h.compatible⟩

end Layout

/-! ## The scan -/

section Scan

variable {kind : Kind} {alignment : Nat} {done : List Str} {t : Scan} {s : Str} {start : Nat}

theorem sharedOffset_eq_some {pos : Nat} (h : sharedOffset kind alignment t s = some pos) :
    s <:+ t.previous ∧ alignment ∣ pos ∧ pos = t.size - s.length - nul kind := by
  simp only [sharedOffset] at h
  split at h
  next hcond =>
    rw [Bool.and_eq_true, List.isSuffixOf_iff_suffix, isAligned_iff] at hcond
    obtain rfl := Option.some.inj h
    exact ⟨hcond.1, hcond.2, rfl⟩
  · exact absurd h (by simp)

/-- The scan behind the strings `done`; the string placed last begins at `start`, or at the end of
the header when there is none. -/
structure Scanned (kind : Kind) (alignment : Nat) (done : List Str) (t : Scan) (start : Nat) :
    Prop where
  last : start + t.previous.length + nul kind = t.size
  low : initSize kind ≤ start ∨
    (t.previous = [] ∧ start + nul kind = initSize kind ∧ ∀ s ∈ done, s = [])
  room : initSize kind ≤ t.size
  keys : t.index.map Prod.fst = done
  layout : Layout kind alignment t.size t.index
  tails : ∀ e ∈ t.index, e.2 + e.1.length + nul kind ≤ start ∨
    (e.2 + e.1.length + nul kind = t.size ∧ e.1 <:+ t.previous)
  header : ∀ e ∈ t.index, initSize kind ≤ e.2 ∨
    (e.1 = [] ∧ e.2 + nul kind = initSize kind ∧ done.head? = some [])

theorem scanned_start (hkind : kind ≠ .dwarf) :
    Scanned kind alignment [] ⟨[], initSize kind, []⟩ (initSize kind - nul kind) := by
  have hle : nul kind ≤ initSize kind := by
    cases kind <;> first | exact absurd rfl hkind | decide
  refine ⟨?_, .inr ⟨rfl, Nat.sub_add_cancel hle, fun s hs => absurd hs List.not_mem_nil⟩,
    Nat.le_refl _, rfl, .nil, fun e he => absurd he List.not_mem_nil,
    fun e he => absurd he List.not_mem_nil⟩
  exact Nat.sub_add_cancel hle

/-- A string that shares the tail of the one placed before. -/
theorem Scanned.shared (h : Scanned kind alignment done t start) (hs : s ∉ done) {pos : Nat}
    (hpos : sharedOffset kind alignment t s = some pos) :
    Scanned kind alignment (done ++ [s]) { t with index := t.index ++ [(s, pos)] } start := by
  obtain ⟨hsuffix, haligned, hpos⟩ := sharedOffset_eq_some hpos
  have hlen := hsuffix.length_le
  have hlast := h.last
  have hend : pos + s.length + nul kind = t.size := by omega
  refine ⟨h.last, ?_, h.room, ?_, ?_, fun e he => ?_, fun e he => ?_⟩
  · refine h.low.imp_right fun ⟨hprev, hstart, hdone⟩ => ⟨hprev, hstart, fun r hr => ?_⟩
    rcases List.mem_append.mp hr with hr | hr
    · exact hdone r hr
    · rw [hprev, List.suffix_nil] at hsuffix
      rw [List.mem_singleton.mp hr, hsuffix]
  · rw [List.map_append, h.keys]
    rfl
  · refine h.layout.append (Nat.le_refl _) (h.keys ▸ hs) (Nat.le_of_eq hend) haligned fun f hf => ?_
    rcases h.tails f hf with hbefore | ⟨hend', hsuffix'⟩
    · exact .inl (.inr (by simp only; omega))
    · exact .inr ⟨by simp only; omega, List.suffix_or_suffix_of_suffix hsuffix hsuffix'⟩
  · rcases List.mem_append.mp he with he | he
    · exact h.tails e he
    · rw [List.mem_singleton.mp he]
      exact .inr ⟨hend, hsuffix⟩
  · have hhead : done.head? = some [] → (done ++ [s]).head? = some [] := by
      intro hd
      rw [List.head?_append, hd]
      rfl
    rcases List.mem_append.mp he with he | he
    · exact (h.header e he).imp_right fun ⟨h₁, h₂, h₃⟩ => ⟨h₁, h₂, hhead h₃⟩
    · rw [List.mem_singleton.mp he]
      rcases h.low with hlow | ⟨hprev, hstart, hdone⟩
      · exact .inl (by simp only; omega)
      · rw [hprev, List.suffix_nil] at hsuffix
        subst hsuffix
        rw [hprev] at hlast
        simp only [List.length_nil, Nat.add_zero] at hlast hend
        refine .inr ⟨rfl, by simp only; omega, ?_⟩
        cases done with
        | nil => rfl
        | cons d done => exact hhead (congrArg some (hdone d List.mem_cons_self))

/-- A string with storage of its own. -/
theorem Scanned.placed (halignment : 0 < alignment) (h : Scanned kind alignment done t start)
    (hs : s ∉ done) :
    Scanned kind alignment (done ++ [s])
      ⟨s, alignTo t.size alignment + s.length + nul kind,
        t.index ++ [(s, alignTo t.size alignment)]⟩ (alignTo t.size alignment) := by
  have hle := le_alignTo halignment t.size
  have hroom := h.room
  have hbefore : ∀ e ∈ t.index, e.2 + e.1.length + nul kind ≤ alignTo t.size alignment := fun e he =>
    Nat.le_trans (h.layout.fits e he) hle
  refine ⟨rfl, .inl (by omega), by simp only; omega, ?_, ?_, fun e he => ?_, fun e he => ?_⟩
  · rw [List.map_append, h.keys]
    rfl
  · refine h.layout.append (by simp only; omega) (h.keys ▸ hs) (Nat.le_refl _) (dvd_alignTo _ _)
      fun f hf => ?_
    exact .inl (.inr (hbefore f hf))
  · rcases List.mem_append.mp he with he | he
    · exact .inl (hbefore e he)
    · rw [List.mem_singleton.mp he]
      exact .inr ⟨rfl, List.suffix_refl _⟩
  · rcases List.mem_append.mp he with he | he
    · refine (h.header e he).imp_right fun ⟨h₁, h₂, h₃⟩ => ⟨h₁, h₂, ?_⟩
      rw [List.head?_append, h₃]
      rfl
    · rw [List.mem_singleton.mp he]
      exact .inl (by simp only; omega)

theorem Scanned.place (halignment : 0 < alignment) (h : Scanned kind alignment done t start)
    (hs : s ∉ done) : ∃ start', Scanned kind alignment (done ++ [s]) (t.place kind alignment s) start' := by
  rw [Scan.place]
  split
  next pos hpos => exact ⟨start, h.shared hs hpos⟩
  next hnone => exact ⟨_, h.placed halignment hs⟩

/-- The scan over all strings. -/
theorem scan_scanned (hkind : kind ≠ .dwarf) (halignment : 0 < alignment) {strings : List Str}
    (hnodup : strings.Nodup) :
    ∃ start, Scanned kind alignment strings
      (strings.foldl (Scan.place kind alignment) ⟨[], initSize kind, []⟩) start := by
  induction strings using List.reverseRecOn with
  | nil => exact ⟨_, scanned_start hkind⟩
  | append_singleton strings s ih =>
    obtain ⟨hfront, -, hdisjoint⟩ := List.nodup_append.mp hnodup
    obtain ⟨start, h⟩ := ih hfront
    rw [List.foldl_append]
    exact h.place halignment fun hs => hdisjoint s hs s (by simp) rfl

/-! ### What takes storage -/

/-- A proper suffix of another string. -/
def isTail (strings : List Str) (s : Str) : Bool := strings.any fun t => s.isSuffixOf t && s != t

/-- The bytes of the strings that end no other one, with their NULs; the empty string alone takes
none. -/
def storage (kind : Kind) (strings : List Str) : Nat :=
  ((strings.filter fun s => !isTail strings s && s != []).map fun s => s.length + nul kind).sum

theorem isTail_iff {strings : List Str} :
    isTail strings s = true ↔ ∃ t ∈ strings, s <:+ t ∧ s ≠ t := by
  simp only [isTail, List.any_eq_true, Bool.and_eq_true, List.isSuffixOf_iff_suffix, bne_iff_ne]

theorem storage_perm {strings strings' : List Str} (h : strings.Perm strings') :
    storage kind strings = storage kind strings' := by
  have htail : ∀ s, isTail strings s = isTail strings' s := fun s => by
    rw [Bool.eq_iff_iff, isTail_iff, isTail_iff]
    simp only [h.mem_iff]
  rw [storage, storage]
  simp only [htail]
  exact ((h.filter _).map _).sum_nat

/-- In order, the string placed last ends with the one before, and so with every tail that
follows. -/
theorem suffix_previous_iff {pre post : List Str} {previous : Str}
    (hsorted : (pre ++ s :: post).Pairwise Before)
    (hprevious : previous = [] ∨ previous ∈ pre) (hlast : ∀ p ∈ pre.getLast?, p <:+ previous) :
    s <:+ previous ↔ isTail (pre ++ s :: post) s = true ∨ s = [] := by
  obtain ⟨-, hpost, hpre⟩ := List.pairwise_append.mp hsorted
  have hbefore : ∀ p ∈ pre, Before p s := fun p hp => hpre p hp s List.mem_cons_self
  constructor
  · intro hsuffix
    rcases hprevious with rfl | hmem
    · exact .inr (List.suffix_nil.mp hsuffix)
    · refine .inl (isTail_iff.mpr ⟨previous, List.mem_append_left _ hmem, hsuffix, fun heq => ?_⟩)
      exact (heq ▸ hbefore previous hmem).asymm (heq ▸ hbefore previous hmem)
  · rintro (htail | rfl)
    · obtain ⟨t, ht, hsuffix, hne⟩ := isTail_iff.mp htail
      have hts := before_of_suffix hsuffix hne
      have htpre : t ∈ pre := by
        rcases List.mem_append.mp ht with ht | ht
        · exact ht
        · rcases List.mem_cons.mp ht with rfl | ht
          · exact absurd rfl hne
          · exact absurd hts ((List.pairwise_cons.mp hpost).1 t ht).asymm
      obtain ⟨init, p, rfl⟩ := (List.eq_nil_or_concat' pre).resolve_left (List.ne_nil_of_mem htpre)
      refine List.IsSuffix.trans ?_ (hlast p (by simp))
      rcases List.mem_append.mp htpre with ht | ht
      · obtain ⟨-, -, hinit⟩ := List.pairwise_append.mp (List.pairwise_append.mp hsorted).1
        exact suffix_of_before hsuffix (hinit t ht p (by simp)) (hbefore p (by simp))
      · rwa [← List.mem_singleton.mp ht]
    · exact List.nil_suffix

/-- With alignment 1 the scan of strings in order takes storage for those that end no other one. -/
theorem scan_size {sorted : List Str} (hsorted : sorted.Pairwise Before) (post : List Str) :
    ∀ (pre : List Str) (t : Scan), sorted = pre ++ post →
      (t.previous = [] ∨ t.previous ∈ pre) → (∀ p ∈ pre.getLast?, p <:+ t.previous) →
      (post.foldl (Scan.place kind 1) t).size = t.size +
        ((post.filter fun s => !isTail sorted s && s != []).map fun s => s.length + nul kind).sum := by
  induction post with
  | nil => exact fun _ _ _ _ _ => rfl
  | cons s post ih =>
    intro pre t heq hprevious hlast
    have hiff := suffix_previous_iff (heq ▸ hsorted) hprevious hlast
    rw [← heq] at hiff
    have heq' : sorted = (pre ++ [s]) ++ post := by rw [heq]; simp
    rw [List.foldl_cons, Scan.place]
    split
    next pos hpos =>
      have hsuffix := (sharedOffset_eq_some hpos).1
      have hskip : (!isTail sorted s && s != []) = false := by
        rcases hiff.mp hsuffix with h | h <;> simp [h]
      rw [List.filter_cons_of_neg (by simp [hskip])]
      refine ih (pre ++ [s]) _ heq' (hprevious.imp_right fun h => List.mem_append_left _ h)
        fun p hp => ?_
      rw [List.getLast?_append, List.getLast?_singleton, Option.some_or, Option.mem_some_iff] at hp
      exact hp ▸ hsuffix
    next hnone =>
      have hnot : ¬ s <:+ t.previous := fun hsuffix => by
        have haligned : isAligned 1 (t.size - s.length - nul kind) = true :=
          isAligned_iff.mpr (Nat.one_dvd _)
        simp [sharedOffset, List.isSuffixOf_iff_suffix.mpr hsuffix, haligned] at hnone
      have hkeep : (!isTail sorted s && s != []) = true := by
        rw [hiff, not_or] at hnot
        simp [hnot.1, hnot.2]
      rw [List.filter_cons, if_pos hkeep, List.map_cons, List.sum_cons,
        ih (pre ++ [s]) _ heq' (.inr (by simp)) fun p hp => ?_]
      · simp only [alignTo_one]
        omega
      · rw [List.getLast?_append, List.getLast?_singleton, Option.some_or, Option.mem_some_iff] at hp
        exact hp ▸ List.suffix_refl _

end Scan

/-! ## Adding -/

/-- A table to which strings are added: each behind the header and behind the one before. -/
structure Added (kind : Kind) (alignment : Nat) (added : List Str) (b : StringTableBuilder) :
    Prop where
  sameKind : b.kind = kind
  sameAlignment : b.alignment = alignment
  layout : Layout kind alignment b.size b.index
  room : initSize kind ≤ b.size
  header : ∀ e ∈ b.index, initSize kind ≤ e.2
  strings : ∀ s, s ∈ b.strings ↔ s ∈ added

theorem lookup_eq_none_iff {s : Str} : index.lookup s = none ↔ s ∉ index.map Prod.fst := by
  rw [List.lookup_eq_none_iff, List.mem_map]
  constructor
  · rintro h ⟨e, he, rfl⟩
    exact absurd (h e he) (by simp)
  · intro h e he
    rw [bne_iff_ne]
    exact fun heq => h ⟨e, he, heq.symm⟩

theorem mem_of_lookup {s : Str} {offset : Nat} (h : index.lookup s = some offset) :
    (s, offset) ∈ index := by
  obtain ⟨l₁, l₂, rfl, -⟩ := List.lookup_eq_some_iff.mp h
  simp

theorem added_new (kind : Kind) (alignment : Nat) :
    Added kind alignment [] (StringTableBuilder.new kind alignment) :=
  ⟨rfl, rfl, .nil, Nat.le_refl _, fun _ he => absurd he List.not_mem_nil, fun _ => Iff.rfl⟩

theorem Added.add {added : List Str} {b : StringTableBuilder} (h : Added kind alignment added b)
    (halignment : 0 < alignment) (s : Str) : Added kind alignment (added ++ [s]) (b.add s).1 := by
  rw [StringTableBuilder.add]
  cases hs : b.getOffset s with
  | some offset =>
    refine ⟨h.sameKind, h.sameAlignment, h.layout, h.room, h.header, fun r => ?_⟩
    have hmem : s ∈ added := (h.strings s).mp (List.mem_map.mpr ⟨_, mem_of_lookup hs, rfl⟩)
    rw [h.strings, List.mem_append, List.mem_singleton]
    exact ⟨.inl, fun hr => hr.elim id fun heq => heq ▸ hmem⟩
  | none =>
    have hle := le_alignTo halignment b.size
    have hroom := h.room
    refine ⟨h.sameKind, h.sameAlignment, ?_, ?_, fun e he => ?_, fun r => ?_⟩
    · simp only [h.sameKind, h.sameAlignment]
      refine h.layout.append (by omega) (lookup_eq_none_iff.mp hs) (Nat.le_refl _) (dvd_alignTo _ _)
        fun f hf => ?_
      exact .inl (.inr (Nat.le_trans (h.layout.fits f hf) hle))
    · simp only [h.sameAlignment]
      omega
    · rcases List.mem_append.mp he with he | he
      · exact h.header e he
      · rw [List.mem_singleton.mp he]
        simp only [h.sameAlignment]
        omega
    · have hr := h.strings r
      simp only [StringTableBuilder.strings, List.map_append, List.mem_append, List.map_cons,
        List.map_nil] at hr ⊢
      rw [hr]

theorem Added.addAll (halignment : 0 < alignment) (added : List Str) :
    Added kind alignment added ((StringTableBuilder.new kind alignment).addAll added) := by
  induction added using List.reverseRecOn with
  | nil => exact added_new kind alignment
  | append_singleton added s ih =>
    rw [StringTableBuilder.addAll, List.foldl_append]
    exact ih.add halignment s

/-! ## The strings in the header -/

/-- What lies in the header at the end. -/
def InHeader (kind : Kind) (e : Str × Nat) : Prop :=
  (kind = .machOLinked ∨ kind = .machO64Linked) ∧ e = (space, 0)

theorem mem_assign {s : Str} {offset : Nat} {e : Str × Nat} :
    e ∈ assign index s offset ↔ (e ∈ index ∧ e.1 ≠ s) ∨ e = (s, offset) := by
  rw [assign, List.mem_append, List.mem_filter, decide_eq_true_eq, List.mem_singleton]

/-- A string assigned a place in the header. -/
theorem Layout.assignZero {size : Nat} {s : Str} (h : Layout kind alignment size index)
    (hfits : s.length + nul kind ≤ size)
    (hcompatible : ∀ f ∈ index, f.1 ≠ s → Compatible (nul kind) (s, 0) f) :
    Layout kind alignment size (assign index s 0) := by
  refine (h.filter _).append (Nat.le_refl _) ?_ (by simp only; omega) (Nat.dvd_zero _) fun f hf => ?_
  · rw [List.mem_map]
    rintro ⟨e, he, heq⟩
    exact of_decide_eq_true (List.mem_filter.mp he).2 heq
  · obtain ⟨hf, hne⟩ := List.mem_filter.mp hf
    exact hcompatible f hf (of_decide_eq_true hne)

theorem Layout.withHeader {size : Nat} (h : Layout kind alignment size index)
    (hroom : initSize kind ≤ size) (hheader : ∀ e ∈ index, OffHeader kind e) :
    Layout kind alignment size (assignHeader kind index) := by
  have hlinked : initSize kind = 2 → nul kind = 1 → Layout kind alignment size (assign index space 0) := by
    intro h2 hnul
    rw [h2] at hroom
    refine h.assignZero (by rw [hnul]; exact hroom) fun f hf _ => ?_
    rcases hheader f hf with hbehind | ⟨hempty, hend⟩
    · rw [h2] at hbehind
      rw [hnul]
      exact .inl (.inl hbehind)
    · refine .inr ⟨?_, .inr (hempty ▸ List.nil_suffix)⟩
      rw [hempty]
      show 1 = f.2 + 0
      omega
  have helf : initSize kind = 1 → nul kind = 1 → Layout kind alignment size (assign index [] 0) := by
    intro h1 hnul
    rw [h1] at hroom
    refine h.assignZero (by rw [hnul]; exact hroom) fun f hf hne => ?_
    rcases hheader f hf with hbehind | ⟨hempty, -⟩
    · rw [h1] at hbehind
      rw [hnul]
      exact .inl (.inl hbehind)
    · exact absurd hempty hne
  cases kind <;> first | exact h | exact hlinked rfl rfl | exact helf rfl rfl

theorem header_assignHeader (hheader : ∀ e ∈ index, OffHeader kind e) :
    ∀ e ∈ assignHeader kind index, initSize kind ≤ e.2 ∨ e.1 = [] ∨ InHeader kind e := by
  have hold : ∀ e ∈ index, initSize kind ≤ e.2 ∨ e.1 = [] ∨ InHeader kind e := fun e he =>
    (hheader e he).imp_right fun h => .inl h.1
  have hassign : ∀ s, (s = [] ∨ InHeader kind (s, 0)) →
      ∀ e ∈ assign index s 0, initSize kind ≤ e.2 ∨ e.1 = [] ∨ InHeader kind e := by
    intro s hs e he
    rcases mem_assign.mp he with ⟨he, -⟩ | rfl
    · exact hold e he
    · exact .inr hs
  cases kind <;> first
    | exact hold
    | exact hassign [] (.inl rfl)
    | exact hassign space (.inr ⟨by decide, rfl⟩)

/-- The table's strings keep an offset. -/
theorem mem_assignHeader {s : Str} (h : s ∈ index.map Prod.fst) :
    s ∈ (assignHeader kind index).map Prod.fst := by
  have hassign : ∀ r, s ∈ (assign index r 0).map Prod.fst := by
    intro r
    obtain ⟨e, he, rfl⟩ := List.mem_map.mp h
    by_cases heq : e.1 = r
    · exact List.mem_map.mpr ⟨(r, 0), mem_assign.mpr (.inr rfl), heq.symm⟩
    · exact List.mem_map.mpr ⟨e, mem_assign.mpr (.inl ⟨he, heq⟩), rfl⟩
  cases kind <;> first | exact h | exact hassign _

/-! ## Writing -/

/-- The bytes of a string are read at its offset, and a NUL behind them. -/
def ReadsBack (kind : Kind) (buf : Str) (e : Str × Nat) : Prop :=
  (buf.drop e.2).take (e.1.length + nul kind) = e.1 ++ List.replicate (nul kind) 0

theorem readsBack {buf : Str} {e : Str × Nat} (hbytes : ∀ i, Covers e i → buf[i]? = e.1[i - e.2]?)
    (hnul : nul kind = 1 → buf[e.2 + e.1.length]? = some 0) : ReadsBack kind buf e := by
  refine List.ext_getElem? fun i => ?_
  by_cases hi : i < e.1.length
  · rw [List.getElem?_take_of_lt (by omega), List.getElem?_drop, List.getElem?_append_left hi,
      hbytes _ ⟨Nat.le_add_right _ _, Nat.add_lt_add_left hi _⟩, Nat.add_sub_cancel_left]
  · rw [List.getElem?_append_right (Nat.not_lt.mp hi), List.getElem?_replicate]
    by_cases hend : i < e.1.length + nul kind
    · have hone : nul kind = 1 := by
        have hle : nul kind ≤ 1 := by cases kind <;> decide
        omega
      obtain rfl : i = e.1.length := by omega
      rw [List.getElem?_take_of_lt hend, List.getElem?_drop, hnul hone, if_pos (by omega)]
    · rw [List.getElem?_eq_none (by rw [List.length_take]; omega), if_neg (by omega)]

theorem length_write32le (v : Nat) : (StringTableBuilder.write32le v).length = 4 := rfl

/-- `write` leaves every string of a layout at its offset, where a COFF header is not in its way. -/
theorem write_layout {b : StringTableBuilder} (h : Layout b.kind alignment b.size b.index)
    (hroom : initSize b.kind ≤ b.size)
    (hcoff : b.kind = .winCOFF ∨ b.kind = .xcoff → ∀ e ∈ b.index, 4 ≤ e.2)
    {order : List (Str × Nat)} (horder : order.Perm b.index) :
    ∃ buf, b.write order = some buf ∧ buf.length = b.size ∧ ∀ e ∈ b.index, ReadsBack b.kind buf e := by
  have hlen : (List.replicate b.size (0 : BitVec 8)).length = b.size := List.length_replicate
  have hfits : ∀ e ∈ order, e.2 + e.1.length ≤ (List.replicate b.size (0 : BitVec 8)).length := by
    intro e he
    have hfits := h.fits e (horder.mem_iff.mp he)
    omega
  obtain ⟨buf, hcopies, hlength, hread, hrest⟩ := copies_spec hfits fun p hp q hq =>
    h.compatible p (horder.mem_iff.mp hp) q (horder.mem_iff.mp hq)
  rw [hlen] at hlength
  have hbytes : ∀ e ∈ b.index, ∀ i, Covers e i → buf[i]? = e.1[i - e.2]? := fun e he =>
    hread e (horder.mem_iff.mpr he)
  have hnul : ∀ e ∈ b.index, nul b.kind = 1 → buf[e.2 + e.1.length]? = some 0 := by
    intro e he hone
    have hfits := h.fits e he
    rw [hrest _ fun q hq => ?_, List.getElem?_replicate, if_pos (by omega)]
    have hcompatible := h.compatible e he q (horder.mem_iff.mp hq)
    rw [hone] at hcompatible
    exact hcompatible.end_free
  rw [StringTableBuilder.write, hcopies, Option.bind_some, StringTableBuilder.writeSize]
  -- the size is written over the first four bytes, in front of every string
  have hsize : (b.kind = .winCOFF ∨ b.kind = .xcoff) → ∀ bytes : Str, bytes.length = 4 →
      ∃ buf', overwrite buf 0 bytes = some buf' ∧ buf'.length = b.size ∧
        ∀ e ∈ b.index, ReadsBack b.kind buf' e := by
    intro hk bytes hfour
    have hfits : 0 + bytes.length ≤ buf.length := by
      have hinit : initSize b.kind = 4 := by rcases hk with hk | hk <;> rw [hk] <;> rfl
      omega
    obtain ⟨buf', hover, hlength', -, hkeep⟩ := overwrite_getElem? hfits
    have hbehind : ∀ i, 4 ≤ i → buf'[i]? = buf[i]? := fun i hi => by
      refine hkeep i fun hc => ?_
      have hlt := hc.2
      simp only at hlt
      omega
    refine ⟨buf', hover, hlength'.trans hlength, fun e he => readsBack (fun i hi => ?_) fun hone => ?_⟩
    · rw [hbehind i (Nat.le_trans (hcoff hk e he) hi.1)]
      exact hbytes e he i hi
    · rw [hbehind _ (Nat.le_trans (hcoff hk e he) (Nat.le_add_right _ _))]
      exact hnul e he hone
  split
  next hk => exact hsize (.inl hk) _ (length_write32le _)
  next hk => exact hsize (.inr hk) _ (by rw [List.length_reverse, length_write32le])
  · exact ⟨buf, rfl, hlength, fun e he => readsBack (hbytes e he) (hnul e he)⟩

/-! ## The finished table -/

/-- The scan of the sorted strings. -/
theorem optimized (halignment : 0 < alignment) (hkind : kind ≠ .dwarf) {strings : List Str}
    (hnodup : strings.Nodup) :
    ∃ sorted, multikeySort (sortDepth strings) strings 0 = some sorted ∧ sorted.Perm strings ∧
      ∃ t, sorted.foldl (Scan.place kind alignment) ⟨[], initSize kind, []⟩ = t ∧
        (∃ start, Scanned kind alignment sorted t start) ∧ sorted.Pairwise Before ∧
        (alignment = 1 → t.size = initSize kind + storage kind strings) := by
  have hshort : ∀ s ∈ strings, s.length < 0 + ((strings.map List.length).sum + 1) := by
    intro s hs
    have hle := List.le_sum_of_mem (@List.mem_map_of_mem _ _ _ _ List.length hs)
    omega
  obtain ⟨sorted, hsort, hperm, hsorted⟩ := multikeySort_spec (sortDepth strings) _ strings 0 hnodup
    (by rw [sortDepth]; omega) hshort fun _ _ _ _ i hi => absurd hi (Nat.not_lt_zero i)
  refine ⟨sorted, hsort, hperm, _, rfl,
    scan_scanned hkind halignment (hperm.nodup_iff.mpr hnodup), hsorted, ?_⟩
  rintro rfl
  rw [scan_size hsorted sorted [] _ rfl (.inl rfl) (fun p hp => absurd hp (by simp)),
    ← storage_perm hperm]
  rfl

/-- The table that is written. -/
structure Finished (kind : Kind) (alignment : Nat) (added : List Str) (b : StringTableBuilder) :
    Prop where
  sameKind : b.kind = kind
  layout : Layout kind alignment b.size b.index
  room : initSize kind ≤ b.size
  header : ∀ e ∈ b.index, initSize kind ≤ e.2 ∨ e.1 = [] ∨ InHeader kind e
  coff : kind = .winCOFF ∨ kind = .xcoff → ∀ e ∈ b.index, 4 ≤ e.2
  strings : ∀ s ∈ added, s ∈ b.strings

/-- What is done at the end keeps a layout behind the header. -/
theorem finished {size : Nat} {added : List Str} (h : Layout kind alignment size index)
    (hroom : initSize kind ≤ size) (hheader : ∀ e ∈ index, OffHeader kind e)
    (hcoff : kind = .winCOFF ∨ kind = .xcoff → ∀ e ∈ index, initSize kind ≤ e.2)
    (hadded : ∀ s ∈ added, s ∈ index.map Prod.fst) :
    Finished kind alignment added
      ⟨assignHeader kind index, padded kind size, kind, alignment⟩ where
  sameKind := rfl
  layout := (h.withHeader hroom hheader).mono (le_padded kind size)
  room := Nat.le_trans hroom (le_padded kind size)
  header := header_assignHeader hheader
  coff hk e he := by
    rcases hk with rfl | rfl
    · exact hcoff (.inl rfl) e he
    · exact hcoff (.inr rfl) e he
  strings s hs := mem_assignHeader (hadded s hs)

/-- **The tables resolve**: at its offset every string is read back, whatever the order in which the
map yields them; and with tails shared and no alignment, storage is taken by those that end no other
one. -/
theorem tables_resolve (kind : Kind) {alignment : Nat} (halignment : 0 < alignment)
    (added : List Str) (optimize : Bool) (hdwarf : optimize = true → kind ≠ .dwarf)
    (hlong : kind = .winCOFF → ∀ s ∈ added, 8 < s.length)
    (hempty : optimize = true → kind = .xcoff → [] ∈ added → ∃ s ∈ added, s ≠ [])
    {strings : List Str}
    (hstrings : strings.Perm ((StringTableBuilder.new kind alignment).addAll added).strings) :
    ∃ b, ((StringTableBuilder.new kind alignment).addAll added).finalizeStringTable optimize strings =
        some b ∧
      (∀ s ∈ added, (b.getOffset s).isSome) ∧
      (∀ order, order.Perm b.index → ∃ buf, b.write order = some buf ∧ buf.length = b.size ∧
        ∀ s offset, b.getOffset s = some offset → ReadsBack kind buf (s, offset)) ∧
      (∀ s offset, b.getOffset s = some offset → alignment ∣ offset ∧
        (initSize kind ≤ offset ∨ s = [] ∨ InHeader kind (s, offset))) ∧
      (optimize = true → alignment = 1 →
        b.size = padded kind (initSize kind + storage kind strings)) := by
  have hadd : Added kind alignment added _ := Added.addAll halignment added
  generalize (StringTableBuilder.new kind alignment).addAll added = b₀ at hstrings hadd ⊢
  have hmem : ∀ s, s ∈ strings ↔ s ∈ added := fun s => hstrings.mem_iff.trans (hadd.strings s)
  have hnodup : strings.Nodup := hstrings.nodup_iff.mpr hadd.layout.nodup
  obtain ⟨b, hb, hfinished, hsize⟩ : ∃ b, b₀.finalizeStringTable optimize strings = some b ∧
      Finished kind alignment added b ∧ (optimize = true → alignment = 1 →
        b.size = padded kind (initSize kind + storage kind strings)) := by
    rw [StringTableBuilder.finalizeStringTable, hadd.sameKind, hadd.sameAlignment]
    cases optimize with
    | false =>
      refine ⟨_, rfl, ?_, fun h => absurd h Bool.false_ne_true⟩
      simp only [hadd.sameKind, hadd.sameAlignment]
      exact finished hadd.layout hadd.room (fun e he => .inl (hadd.header e he))
        (fun _ => hadd.header) fun s hs => (hadd.strings s).mpr hs
    | true =>
      obtain ⟨sorted, hsort, hperm, t, ht, ⟨start, hscan⟩, hsorted, hsize⟩ :=
        optimized halignment (hdwarf rfl) hnodup
      have hkeys : ∀ s ∈ added, s ∈ t.index.map Prod.fst := fun s hs => by
        rw [hscan.keys]
        exact hperm.mem_iff.mpr ((hmem s).mpr hs)
      rw [if_pos rfl, hsort]
      refine ⟨_, rfl, ?_, fun _ hone => ?_⟩
      · simp only [ht]
        refine finished hscan.layout hscan.room
          (fun e he => (hscan.header e he).imp_right fun h => ⟨h.1, h.2.1⟩) (fun hk e he => ?_) hkeys
        rcases hscan.header e he with hbehind | ⟨hnil, -, hhead⟩
        · exact hbehind
        · -- nothing stands behind the empty string, so it is the only one
          obtain ⟨rest, rfl⟩ : ∃ rest, sorted = [] :: rest := by
            cases sorted with
            | nil => exact absurd hhead (by simp)
            | cons s rest => exact ⟨rest, by rw [Option.some.inj hhead]⟩
          have halone : ∀ s ∈ added, s = [] := by
            intro s hs
            rcases List.mem_cons.mp (hperm.mem_iff.mpr ((hmem s).mpr hs)) with rfl | hs
            · rfl
            · exact absurd ((List.pairwise_cons.mp hsorted).1 s hs) (not_before_of_nil s)
          have hin : [] ∈ added := (hmem _).mp (hperm.mem_iff.mp List.mem_cons_self)
          rcases hk with hk | hk
          · exact absurd (hlong hk [] hin) (by simp)
          · obtain ⟨s, hs, hne⟩ := hempty rfl hk hin
            exact absurd (halone s hs) hne
      · simp only [ht, hsize hone]
  have hoffset : ∀ s offset, b.getOffset s = some offset → (s, offset) ∈ b.index := fun s offset h =>
    mem_of_lookup h
  refine ⟨b, hb, fun s hs => ?_, fun order horder => ?_, fun s offset h => ?_, hsize⟩
  · by_contra hnone
    rw [Option.not_isSome_iff_eq_none] at hnone
    exact lookup_eq_none_iff.mp hnone (hfinished.strings s hs)
  · have hlayout := hfinished.layout
    obtain rfl : b.kind = kind := hfinished.sameKind
    obtain ⟨buf, hwrite, hlength, hread⟩ := write_layout hlayout hfinished.room hfinished.coff horder
    exact ⟨buf, hwrite, hlength, fun s offset h => hread _ (hoffset s offset h)⟩
  · exact ⟨hfinished.layout.aligned _ (hoffset s offset h), hfinished.header _ (hoffset s offset h)⟩

theorem tables_resolve_xcoff : ∃ b,
    ((StringTableBuilder.new .xcoff 1).addAll [[], [0x61], [0x62, 0x61]]).finalizeStringTable true
        [[0x61], [], [0x62, 0x61]] = some b ∧
      (∀ s ∈ [[], [0x61], [0x62, 0x61]], (b.getOffset s).isSome) ∧
      (∀ order, order.Perm b.index → ∃ buf, b.write order = some buf ∧ buf.length = b.size ∧
        ∀ s offset, b.getOffset s = some offset → ReadsBack .xcoff buf (s, offset)) ∧
      (∀ s offset, b.getOffset s = some offset → 1 ∣ offset ∧
        (initSize .xcoff ≤ offset ∨ s = [] ∨ InHeader .xcoff (s, offset))) ∧
      (true = true → 1 = 1 →
        b.size = padded .xcoff (initSize .xcoff + storage .xcoff [[0x61], [], [0x62, 0x61]])) :=
  tables_resolve .xcoff Nat.one_pos [[], [0x61], [0x62, 0x61]] true (fun _ => by decide)
    (fun h => absurd h (by decide)) (fun _ _ _ => ⟨[0x61], by decide, by decide⟩) (by decide)

/-- `" "` is the string of a linked Mach-O table's header; and the empty string, alone in an XCOFF
table, lies at the header's last byte, which is no NUL. -/
theorem header_overlapped :
    (∃ b, ((StringTableBuilder.new .machOLinked 1).addAll [[0x61]]).finalizeStringTable true [[0x61]] =
      some b ∧ b.getOffset space = some 0 ∧ 0 < initSize .machOLinked) ∧
    ∃ b, ((StringTableBuilder.new .xcoff 1).addAll [[]]).finalizeStringTable true [[]] = some b ∧
      b.getOffset [] = some 3 ∧ b.write b.index = some [0, 0, 0, 4] :=
  ⟨⟨_, rfl, rfl, by decide⟩, _, rfl, rfl, rfl⟩

end RvLlvm.Mc.StringTable
