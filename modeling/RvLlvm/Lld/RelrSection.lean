import RvLlvm.Bolt.Relr

/-!
# The RELR section of the linker

Model of `RelrSection<ELFT>::updateAllocSize` (`lld/ELF/SyntheticSections.cpp:1991-2072`) and of
`ELFFile<ELFT>::decode_relrs` (`llvm/lib/Object/ELF.cpp:327-389`). The writer counts places in 64
bits and cuts its words to the size of an address; the reader counts in words.

* `encode_eq`, `decodeRelrs_eq`: on places that fit into a word both compute what the copies in
  `RvLlvm.Bolt.Relr` compute.
* `relrs_round_trip`: after any passes the section reads back as the offsets of the last one, each
  once, and has not shrunk.
-/

namespace RvLlvm.Lld.RelrSection

open RvLlvm.Support RvLlvm.Bolt

variable (wordsize : Nat)

/-- `nBits`. -/
def nBits : Nat := wordsize * 8 - 1

/-! ## The writer -/

/-- The loop that fills a bitmap from `base`: the bitmap and the offsets left. -/
def foldBitmap (base : Nat) : List Nat → Nat × List Nat
  | [] => (0, [])
  | x :: xs =>
    let d := cell 64 (x - base)
    if nBits wordsize * wordsize ≤ d || d % wordsize ≠ 0 then (0, x :: xs)
    else
      let rest := foldBitmap base xs
      (2 ^ (d / wordsize) ||| rest.1, rest.2)

/-- The endless loop that pushes bitmaps until one is empty, for at most `n` turns. -/
def foldBitmaps : Nat → Nat → List Nat → List Nat × List Nat
  | 0, _, xs => ([], xs)
  | n + 1, base, xs =>
    let folded := foldBitmap wordsize base xs
    if folded.1 = 0 then ([], folded.2)
    else
      let rest := foldBitmaps n (base + nBits wordsize * wordsize) folded.2
      ((2 * folded.1 + 1) % 2 ^ (8 * wordsize) :: rest.1, rest.2)

/-- The loop over the sorted offsets, for at most `n` turns. -/
def encode : Nat → List Nat → List Nat
  | 0, _ => []
  | _ + 1, [] => []
  | n + 1, x :: xs =>
    let folded := foldBitmaps wordsize (xs.length + 1) (x + wordsize) xs
    x % 2 ^ (8 * wordsize) :: (folded.1 ++ encode n folded.2)

/-- `updateAllocSize`, on the words of the pass before and the offsets of this one. -/
def updateAllocSize (relrRelocs relocs : List Nat) : List Nat :=
  let words := encode wordsize relocs.length (relocs.mergeSort fun a b => decide (a ≤ b))
  words ++ List.replicate (relrRelocs.length - words.length) 1

/-- The words after each pass of `passes` has laid the section out. -/
def layouts : List Nat → List (List Nat) → List Nat :=
  List.foldl (updateAllocSize wordsize)

/-! ## The reader -/

/-- The loop over the bits of an entry, from `offset`, for at most `n` turns. -/
def decodeBitmap : Nat → Nat → Nat → List Nat
  | 0, _, _ => []
  | n + 1, offset, entry =>
    if entry / 2 = 0 then []
    else
      (if entry / 2 % 2 = 1 then [offset] else []) ++
        decodeBitmap n ((offset + wordsize) % 2 ^ (8 * wordsize)) (entry / 2)

/-- `decode_relrs`, from `base`. -/
def decodeRelrs : Nat → List Nat → List Nat
  | _, [] => []
  | base, entry :: relrs =>
    if entry % 2 = 0 then
      entry :: decodeRelrs ((entry + wordsize) % 2 ^ (8 * wordsize)) relrs
    else
      decodeBitmap wordsize (8 * wordsize) base entry ++
        decodeRelrs ((base + (8 * wordsize - 1) * wordsize) % 2 ^ (8 * wordsize)) relrs

/-! ## Both against their copies -/

variable {wordsize}

theorem nBits_mul : nBits wordsize * wordsize = Relr.maxDelta wordsize wordsize := by
  unfold nBits Relr.maxDelta
  rw [Nat.mul_comm wordsize 8]

theorem foldBitmap_eq (base : Nat) (xs : List Nat) :
    foldBitmap wordsize base xs = Relr.collect wordsize wordsize base xs := by
  induction xs with
  | nil => rfl
  | cons x xs ih =>
    unfold foldBitmap Relr.collect
    rw [nBits_mul, ih]

/-- Words that fit are not cut. -/
theorem foldBitmaps_eq {n base : Nat} {xs : List Nat}
    (h : ∀ e ∈ (Relr.writeBitmaps wordsize wordsize n base xs).1, e < 2 ^ (8 * wordsize)) :
    foldBitmaps wordsize n base xs = Relr.writeBitmaps wordsize wordsize n base xs := by
  induction n generalizing base xs with
  | zero => rfl
  | succ n ih =>
    unfold Relr.writeBitmaps at h
    unfold foldBitmaps Relr.writeBitmaps
    rw [foldBitmap_eq, nBits_mul]
    simp only at h ⊢
    split
    next => rfl
    next hbits =>
      rw [if_neg hbits] at h
      have htail := ih fun e he => h e (List.mem_cons_of_mem _ he)
      rw [htail, Nat.mod_eq_of_lt (h _ List.mem_cons_self)]

theorem encode_eq {n : Nat} {xs : List Nat}
    (h : ∀ e ∈ Relr.encode wordsize wordsize n xs, e < 2 ^ (8 * wordsize)) :
    encode wordsize n xs = Relr.encode wordsize wordsize n xs := by
  induction n generalizing xs with
  | zero => rfl
  | succ n ih =>
    cases xs with
    | nil => rfl
    | cons x xs =>
      unfold Relr.encode at h
      unfold encode Relr.encode
      simp only at h ⊢
      rw [foldBitmaps_eq fun e he =>
        h e (List.mem_cons_of_mem _ (List.mem_append_left _ he))]
      rw [Nat.mod_eq_of_lt (h x List.mem_cons_self)]
      rw [ih fun e he => h e (List.mem_cons_of_mem _ (List.mem_append_right _ he))]

theorem decodeBitmap_eq (hw : wordsize = 4 ∨ wordsize = 8) (n offset entry : Nat) :
    decodeBitmap wordsize n (offset % 2 ^ (8 * wordsize)) entry =
      (Relr.readBitmap wordsize n offset entry).map (· % 2 ^ (8 * wordsize)) := by
  induction n generalizing offset entry with
  | zero => rfl
  | succ n ih =>
    unfold decodeBitmap Relr.readBitmap
    split
    · rfl
    · rw [List.map_append, Nat.mod_add_mod, ih]
      congr 1
      split
      · rw [List.map_singleton, Nat.mod_mod_of_dvd _ (word_dvd hw)]
      · rfl

/-- Counting in words loses nothing but what a word cannot hold. -/
theorem decodeRelrs_eq (hw : wordsize = 4 ∨ wordsize = 8) (base : Nat) {relrs : List Nat}
    (h : ∀ e ∈ relrs, e < 2 ^ (8 * wordsize)) :
    decodeRelrs wordsize (base % 2 ^ (8 * wordsize)) relrs =
      (Relr.decode wordsize wordsize base relrs).map (· % 2 ^ (8 * wordsize)) := by
  induction relrs generalizing base with
  | nil => rfl
  | cons entry relrs ih =>
    have htail := fun base => ih base fun e he => h e (List.mem_cons_of_mem entry he)
    unfold decodeRelrs Relr.decode
    split
    · rw [htail, List.map_cons, Nat.mod_eq_of_lt (h entry List.mem_cons_self)]
    · rw [decodeBitmap_eq hw, Nat.mod_add_mod, htail, List.map_append]
      rfl

/-! ## Round trip -/

/-- **Sorted places read back**, with any number of fillers. -/
theorem decodeRelrs_encode {xs : List Nat} (hw : wordsize = 4 ∨ wordsize = 8)
    (heven : ∀ x ∈ xs, x % 2 = 0) (hlt : ∀ x ∈ xs, x < 2 ^ (8 * wordsize))
    (hsorted : xs.Pairwise (· < ·)) (count : Nat) :
    decodeRelrs wordsize 0 (encode wordsize xs.length xs ++ List.replicate count 1) = xs := by
  obtain ⟨-, hwords, -⟩ := Relr.decode_encode_append hw (le_refl _) heven hlt hsorted 0
  have hall : ∀ e ∈ Relr.encode wordsize wordsize xs.length xs ++ List.replicate count 1,
      e < 2 ^ (8 * wordsize) := by
    intro e he
    rcases List.mem_append.mp he with he | he
    · exact hwords e he
    · rw [List.eq_of_mem_replicate he]
      apply Nat.one_lt_two_pow
      omega
  have hdec := decodeRelrs_eq hw 0 hall
  rw [Nat.zero_mod, Relr.decode_encode hw heven hlt hsorted] at hdec
  rw [encode_eq hwords, hdec]
  conv_rhs => rw [← List.map_id xs]
  exact List.map_congr_left fun x hx => Nat.mod_eq_of_lt (hlt x hx)

theorem updateAllocSize_length (relrRelocs relocs : List Nat) :
    relrRelocs.length ≤ (updateAllocSize wordsize relrRelocs relocs).length := by
  unfold updateAllocSize
  simp only
  rw [List.length_append, List.length_replicate]
  omega

/-- **A pass keeps the set of offsets**, whatever words it found. -/
theorem decodeRelrs_updateAllocSize (hw : wordsize = 4 ∨ wordsize = 8) (relrRelocs : List Nat)
    {relocs : List Nat} (hnodup : relocs.Nodup) (heven : ∀ x ∈ relocs, x % 2 = 0)
    (hlt : ∀ x ∈ relocs, x < 2 ^ (8 * wordsize)) :
    (decodeRelrs wordsize 0 (updateAllocSize wordsize relrRelocs relocs)).Perm relocs := by
  have hperm := List.mergeSort_perm relocs fun a b => decide (a ≤ b)
  have hle : (relocs.mergeSort fun a b => decide (a ≤ b)).Pairwise (· ≤ ·) :=
    (List.pairwise_mergeSort' (· ≤ ·) relocs)
  have hsorted : (relocs.mergeSort fun a b => decide (a ≤ b)).Pairwise (· < ·) := by
    refine hle.imp₂ ?_ (hperm.nodup_iff.mpr hnodup)
    intro a b hab hne
    exact lt_of_le_of_ne hab hne
  have hlen : (relocs.mergeSort fun a b => decide (a ≤ b)).length = relocs.length := hperm.length_eq
  unfold updateAllocSize
  simp only
  rw [← hlen, decodeRelrs_encode hw (fun x hx => heven x (hperm.subset hx))
    (fun x hx => hlt x (hperm.subset hx)) hsorted]
  exact hperm

/-- **Round trip**: after any passes, the words read back as the offsets of the last pass, each
once, and the section has not shrunk. -/
theorem relrs_round_trip (hw : wordsize = 4 ∨ wordsize = 8) (passes : List (List Nat))
    {relocs : List Nat} (hnodup : relocs.Nodup) (heven : ∀ x ∈ relocs, x % 2 = 0)
    (hlt : ∀ x ∈ relocs, x < 2 ^ (8 * wordsize)) :
    (decodeRelrs wordsize 0 (layouts wordsize [] (passes ++ [relocs]))).Nodup ∧
      (∀ x, x ∈ decodeRelrs wordsize 0 (layouts wordsize [] (passes ++ [relocs])) ↔ x ∈ relocs) ∧
      (layouts wordsize [] passes).length ≤ (layouts wordsize [] (passes ++ [relocs])).length := by
  have hlast : layouts wordsize [] (passes ++ [relocs]) =
      updateAllocSize wordsize (layouts wordsize [] passes) relocs := by
    unfold layouts
    rw [List.foldl_append]
    rfl
  have hperm := decodeRelrs_updateAllocSize hw (layouts wordsize [] passes) hnodup heven hlt
  rw [hlast]
  exact ⟨hperm.nodup_iff.mpr hnodup, fun x => hperm.mem_iff, updateAllocSize_length _ _⟩

/-- Two passes of a 32-bit link; the second needs fewer words. -/
theorem relrs_round_trip_shrunk :
    (decodeRelrs 4 0 (layouts 4 [] ([[64, 8, 0x180]] ++ [[12, 8]]))).Nodup ∧
      (∀ x, x ∈ decodeRelrs 4 0 (layouts 4 [] ([[64, 8, 0x180]] ++ [[12, 8]])) ↔ x ∈ [12, 8]) ∧
      (layouts 4 [] [[64, 8, 0x180]]).length ≤
        (layouts 4 [] ([[64, 8, 0x180]] ++ [[12, 8]])).length :=
  relrs_round_trip (Or.inl rfl) _ (by decide) (by decide) (by decide)

end RvLlvm.Lld.RelrSection
