import Mathlib.Data.List.Perm.Basic
import Mathlib.Data.List.Flatten
import RvLlvm.Bolt.ProgramHeaders

/-!
# Which program header tables are complete

* `Complete`: the table written has as many entries as `e_phnum` says, every load of the input has
  exactly one load that covers where its bytes went, the loads are disjoint, and none has more
  bytes in the file than in memory.
* `Fits`: every header of the input is written, no load loses bytes that stay, and no load moves
  onto another.
* `complete_iff`: the table is complete exactly when the input fits.
* `not_complete_bssLoad`: a load of zero-filled memory only is dropped.
-/

namespace RvLlvm.Bolt

open RvLlvm.Support

/-- The address `z` is in the memory of the segment; addresses wrap at 4 GiB. -/
def Phdr.Holds (q : Phdr) (z : Int) : Prop := word (z - q.vaddr) < q.memsz

namespace Rewrite

variable (R : Rewrite)

/-! ## Complete tables -/

/-- No address is in both segments. -/
def Disjoint (p q : Phdr) : Prop := ∀ z : Int, p.Holds z → ¬ q.Holds z

/-- The segment `q` holds the image of every byte of the input load `p` that shrinking leaves. -/
def Covers (p q : Phdr) : Prop :=
  ∀ a : Nat, p.vaddr ≤ a → a < p.vaddr + p.memsz → ¬ R.Reclaimed a → q.Holds (a - R.shift p : Int)

/-- The table `out` is complete. -/
structure Complete (out : List Phdr) : Prop where
  count : out.length = R.phnum
  covers : ∀ p ∈ R.phdrs, p.isLoad = true → 0 < p.memsz →
    ∃! i : Nat, ∃ q, out[i]? = some q ∧ q.isLoad = true ∧ R.Covers p q
  disjoint : out.Pairwise fun p q => p.isLoad = true → q.isLoad = true → Disjoint p q
  sizes : ∀ q ∈ out, q.isLoad = true → q.filesz ≤ q.memsz

/-! ## Inputs that fit -/

/-- Where the new segments start. -/
def newStart : Nat :=
  if R.phdrTableAddress ≠ 0 then R.phdrTableAddress else R.newTextSegmentAddress

/-- The input's headers are those of a well-formed ELF file, an executable load holds more than the
code given up and the load at file offset 0 the bytes cut from `.rodata`, no load moves below
address zero, and the new segments lie above all loads. -/
structure WellFormed : Prop where
  length : R.phdrs.length < 2 ^ 16
  offset : ∀ p ∈ R.phdrs, p.offset < 2 ^ 32
  range : ∀ p ∈ R.phdrs, p.isLoad = true → p.vaddr + p.memsz < 2 ^ 32
  sizes : ∀ p ∈ R.phdrs, p.isLoad = true → p.filesz ≤ p.memsz
  apart : R.phdrs.Pairwise fun p q => p.isLoad = true → q.isLoad = true →
    p.vaddr + p.memsz ≤ q.vaddr ∨ q.vaddr + q.memsz ≤ p.vaddr
  gnuStack : R.phdrs.countP (fun p => decide (p.type = .gnuStack)) ≤ 1
  dynamic : R.phdrs.countP (fun p => decide (p.type = .dynamic)) ≤ 1
  text : ∃ p ∈ R.phdrs, p.isLoad = true ∧ p.r = true ∧ p.x = true ∧
    R.sizeChange + (if R.loadKind p = .rodata then R.rodataCut else 0) < p.filesz
  starts : ∀ p ∈ R.phdrs, p.isLoad = true → ¬ R.Reclaimed p.vaddr
  shift : ∀ p ∈ R.phdrs, p.isLoad = true → R.shift p ≤ p.vaddr
  table : (R.useGnuStack = true ∧ R.phdrTableOffset = 0 ∧ R.phdrTableAddress = 0) ∨
    (R.useGnuStack = false ∧ R.phdrTableOffset ≠ 0 ∧ R.phdrTableAddress ≠ 0)
  above : ∀ p ∈ R.phdrs, p.isLoad = true → p.vaddr + p.memsz ≤ R.newStart
  newText : R.newStart + R.textSegmentSize < 2 ^ 32
  newWritable : R.newWritableSegmentSize ≠ 0 →
    R.newStart + R.textSegmentSize ≤ R.newWritableSegmentAddress ∧
      R.newWritableSegmentAddress ≤ R.nextAvailableAddress ∧ R.nextAvailableAddress < 2 ^ 32
  rodata : ∀ p ∈ R.phdrs, p.isLoad = true → R.loadKind p = .rodata → R.rodataCut ≤ p.filesz
  ehFrameHdr : ∀ x ∈ R.ehFrameHdr, x.2.2 < 2 ^ 32
  rodataCutSize : R.rodataCutSize < 2 ^ 32

/-- The header is written: it is no note and no attributes, and neither its size in the file nor
its size in memory comes to zero. -/
def stays (p : Phdr) : Bool :=
  match p.type with
  | .note | .riscvAttributes => false
  | .load => decide (p.memsz ≠ R.cut p) && decide (p.filesz ≠ R.cut p)
  | .gnuStack =>
    if R.useGnuStack then decide (R.textSegmentSize ≠ 0)
    else decide (p.memsz ≠ 0) && decide (p.filesz ≠ 0)
  | .phdr =>
    decide (R.phdrTableAddress ≠ 0) || decide (p.memsz ≠ 0) && decide (p.filesz ≠ 0)
  | .gnuEhFrame =>
    match R.ehFrameHdr with
    | some (_, _, size) => decide (size ≠ 0)
    | none => decide (p.memsz ≠ 0) && decide (p.filesz ≠ 0)
  | _ => decide (p.memsz ≠ 0) && decide (p.filesz ≠ 0)

/-- The address `z` is in the load `p` once it is moved and cut. -/
def Moved (p : Phdr) (z : Int) : Prop := word (z - p.vaddr + R.shift p) < p.memsz - R.cut p

/-- The input fits what the edit does to it: every header is written, a load loses only bytes that
shrinking gives up, and the loads do not meet once moved and cut. -/
structure Fits : Prop where
  stays : ∀ p ∈ R.phdrs, R.stays p = true
  cut : ∀ p ∈ R.phdrs, p.isLoad = true → R.cut p ≤ p.filesz ∧
    ∀ a : Nat, p.vaddr + p.memsz - R.cut p ≤ a → a < p.vaddr + p.memsz → R.Reclaimed a
  apart : R.phdrs.Pairwise fun p q => p.isLoad = true → q.isLoad = true →
    ∀ z : Int, R.Moved p z → ¬ R.Moved q z

variable {R} {out : List Phdr}

/-! ## What is written -/

/-- The headers of the input that are written, and those added to them. -/
def kept (R : Rewrite) : List Phdr := (R.phdrs.map R.editPhdr).filter isWritten

def inserted (R : Rewrite) : List Phdr := if R.useGnuStack then [] else R.newEntries

theorem flatMap_if_eq {α β : Type} (c : α → Bool) (xs : List β) (l : List α)
    (h : l.countP c ≤ 1) :
    l.flatMap (fun a => if c a then xs else []) = if l.any c then xs else [] := by
  induction l with
  | nil => rfl
  | cons a l ih =>
    rw [List.countP_cons] at h
    rw [List.flatMap_cons, List.any_cons]
    cases hc : c a with
    | true =>
      rw [hc, if_pos rfl] at h
      have hzero : l.countP c = 0 := by omega
      have hnone : l.any c = false := by
        rw [List.any_eq_false]
        exact List.countP_eq_zero.mp hzero
      rw [ih (by omega), hnone]
      simp
    | false =>
      rw [hc] at h
      rw [ih (by simpa using h)]
      simp

theorem flatMap_written (l : List Phdr) :
    l.flatMap (fun p => if isWritten (R.editPhdr p) then [R.editPhdr p] else []) =
      (l.map R.editPhdr).filter isWritten := by
  induction l with
  | nil => rfl
  | cons p l ih =>
    rw [List.flatMap_cons, ih, List.map_cons, List.filter_cons]
    split <;> rfl

/-- **What is written**, in some order: the edited headers that stay and the new entries. -/
theorem table_perm (hR : R.WellFormed) (h : R.patchELFPHDRTable = some out) :
    out.Perm (R.kept ++ R.inserted) := by
  have hsplit : (R.phdrs.flatMap R.writePhdr).Perm
      (R.phdrs.flatMap (fun p => if !R.useGnuStack && p.type = .dynamic then R.newEntries else [])
        ++ R.kept) := by
    rw [kept, ← flatMap_written]
    exact (List.flatMap_append_perm R.phdrs _ _).symm
  unfold patchELFPHDRTable at h
  split at h
  · exact absurd h (by simp)
  · obtain rfl := Option.some.inj h
    rcases hR.table with ⟨hg, _⟩ | ⟨hg, _⟩
    · rw [hg] at hsplit ⊢
      simp only [inserted, hg, Bool.not_true, Bool.false_and, Bool.false_eq_true, if_false,
        if_true, List.append_nil] at hsplit ⊢
      have hnil : R.phdrs.flatMap (fun _ => ([] : List Phdr)) = [] := by simp
      rw [hnil] at hsplit
      exact hsplit
    · have hinsert := flatMap_if_eq (fun p : Phdr => decide (p.type = .dynamic)) R.newEntries
        R.phdrs hR.dynamic
      simp only [hg, Bool.not_false, Bool.true_and] at hsplit ⊢
      rw [hinsert] at hsplit
      have hadded : R.addedSegment = R.phdrs.any fun p => decide (p.type = .dynamic) := by
        rw [addedSegment, hg]
        rfl
      rw [hadded]
      have hins : R.inserted = R.newEntries := by rw [inserted, hg]; rfl
      rw [hins]
      cases hany : R.phdrs.any fun p => decide (p.type = .dynamic) with
      | true =>
        rw [hany] at hsplit
        simp only [if_true, Bool.not_true, Bool.false_eq_true, if_false,
          List.append_nil] at hsplit ⊢
        exact hsplit.trans List.perm_append_comm
      | false =>
        rw [hany] at hsplit
        simp only [Bool.not_false, Bool.false_eq_true, if_false, if_true,
          List.nil_append] at hsplit ⊢
        exact hsplit.append_right _

/-! ## The number of entries -/

theorem word_of_nonneg {x : Int} (h₀ : 0 ≤ x) (h₁ : x < 2 ^ 32) : (word x : Int) = x := by
  rw [word, Int.emod_eq_of_lt h₀ h₁, Int.toNat_of_nonneg h₀]

theorem word_of_neg {x : Int} (h₀ : -2 ^ 32 ≤ x) (h₁ : x < 0) : (word x : Int) = x + 2 ^ 32 := by
  unfold word
  omega

/-- A range above another one does not meet it, also around the address space. -/
theorem not_word_of_above {z a b : Int} {m n : Nat} (hab : a + m ≤ b) (hba : b + n ≤ a + 2 ^ 32)
    (hz : word (z - a) < m) : ¬ word (z - b) < n := by
  have ha := Int.emod_add_mul_ediv (z - a) (2 ^ 32)
  have hb := Int.emod_add_mul_ediv (z - b) (2 ^ 32)
  unfold word at hz ⊢
  generalize (z - a) / 2 ^ 32 = k at ha
  generalize (z - b) / 2 ^ 32 = l at hb
  omega

theorem word_sub_ne_zero {n c : Nat} (h : n < 2 ^ 32) (hc : c < 2 ^ 32) :
    word (n - c : Int) ≠ 0 ↔ n ≠ c := by
  unfold word
  omega

variable {p : Phdr}

theorem load_bounds (hR : R.WellFormed) (hp : p ∈ R.phdrs) (hl : p.isLoad = true) :
    p.vaddr < 2 ^ 32 ∧ p.filesz < 2 ^ 32 ∧ p.memsz < 2 ^ 32 := by
  have hrange := hR.range p hp hl
  have hsizes := hR.sizes p hp hl
  omega

theorem edit_load (hR : R.WellFormed) (hp : p ∈ R.phdrs) (hl : p.isLoad = true) :
    (R.editPhdr p).type = .load ∧
      (R.editPhdr p).vaddr = word (p.vaddr - R.shift p : Int) ∧
      (R.editPhdr p).offset = word (p.offset - R.shift p : Int) ∧
      (R.editPhdr p).filesz = word (p.filesz - R.cut p : Int) ∧
      (R.editPhdr p).memsz = word (p.memsz - R.cut p : Int) := by
  obtain ⟨hv, hf, hm⟩ := load_bounds hR hp hl
  exact editLoad_eq hl hv (hR.offset p hp) hf hm

theorem cut_lt (hR : R.WellFormed) (p : Phdr) : R.cut p < 2 ^ 32 := by
  obtain ⟨t, ht, hl, _, _, hs⟩ := hR.text
  have hf := (load_bounds hR ht hl).2.1
  have hr := hR.rodataCutSize
  have hcut : R.rodataCut ≤ R.rodataCutSize := by
    unfold rodataCut
    split
    · exact le_refl _
    · exact Nat.zero_le _
  unfold cut
  split
  · split <;> omega
  · omega

theorem word_phnum (hR : R.WellFormed) (hp : p ∈ R.phdrs) : word (32 * R.phnum : Nat) ≠ 0 := by
  have hpos := List.length_pos_of_mem hp
  have hlen := hR.length
  unfold phnum word
  split
  · split <;> omega
  · omega

theorem createNewTextPhdr_vaddr (hR : R.WellFormed) : R.createNewTextPhdr.vaddr = R.newStart := by
  have h := hR.newText
  have hlt : R.newStart < 2 ^ 32 := by omega
  unfold newStart at hlt ⊢
  unfold createNewTextPhdr
  by_cases ha : R.phdrTableAddress ≠ 0
  · rw [if_pos ha] at hlt ⊢
    simp only [if_pos ha]
    exact word_of_lt hlt
  · rw [if_neg ha] at hlt ⊢
    simp only [if_neg ha]
    exact word_of_lt hlt

theorem createNewTextPhdr_size (hR : R.WellFormed) :
    R.createNewTextPhdr.memsz = R.textSegmentSize ∧
      R.createNewTextPhdr.filesz = R.textSegmentSize := by
  have h := hR.newText
  have hword : word (R.textSegmentSize : Int) = R.textSegmentSize := word_of_lt (by omega)
  exact ⟨hword, hword⟩

/-- **A header is written exactly when it stays.** -/
theorem isWritten_editPhdr (hR : R.WellFormed) (hp : p ∈ R.phdrs) :
    isWritten (R.editPhdr p) = R.stays p := by
  have hsize : ∀ q : Phdr, q.type ≠ .riscvAttributes → q.type ≠ .note →
      isWritten q = (decide (q.memsz ≠ 0) && decide (q.filesz ≠ 0)) := by
    intro q h h'
    simp only [isWritten, h, h', ne_eq, not_false_eq_true, decide_true, Bool.true_and]
  cases htype : p.type with
  | load =>
    have hl : p.isLoad = true := decide_eq_true htype
    obtain ⟨hv, hf, hm⟩ := load_bounds hR hp hl
    obtain ⟨htype', _, _, hfile, hmem⟩ := edit_load hR hp hl
    have hcut := cut_lt hR p
    rw [hsize _ (by rw [htype']; simp) (by rw [htype']; simp), hfile, hmem]
    simp only [stays, htype, word_sub_ne_zero hm hcut, word_sub_ne_zero hf hcut]
  | gnuStack =>
    simp only [stays, editPhdr, htype]
    split
    · obtain ⟨hmem, hfile⟩ := createNewTextPhdr_size hR
      rw [hsize R.createNewTextPhdr (by simp [createNewTextPhdr]) (by simp [createNewTextPhdr]),
        hmem, hfile, Bool.and_self]
    · exact hsize p (by simp [htype]) (by simp [htype])
  | phdr =>
    simp only [stays, editPhdr, htype]
    split
    · rename_i hne
      rw [hsize _ (by simp) (by simp)]
      simp only [decide_eq_true hne, decide_eq_true (word_phnum hR hp), Bool.and_self,
        Bool.true_or]
    · rename_i hne
      rw [hsize p (by simp [htype]) (by simp [htype]), decide_eq_false hne, Bool.false_or]
  | gnuEhFrame =>
    simp only [stays, editPhdr, htype]
    cases heh : R.ehFrameHdr with
    | none => exact hsize p (by simp [htype]) (by simp [htype])
    | some x =>
      have hlt : x.2.2 < 2 ^ 32 := hR.ehFrameHdr x (by rw [heh]; rfl)
      have hword : word (x.2.2 : Int) = x.2.2 := word_of_lt hlt
      obtain ⟨offset, addr, size⟩ := x
      rw [hsize _ (by simp) (by simp)]
      simp only [hword, Bool.and_self]
  | dynamic =>
    simp only [stays, editPhdr, htype]
    exact hsize p (by simp [htype]) (by simp [htype])
  | note => simp [stays, editPhdr, htype, isWritten]
  | riscvAttributes => simp [stays, editPhdr, htype, isWritten]
  | other n =>
    simp only [stays, editPhdr, htype]
    exact hsize p (by simp [htype]) (by simp [htype])

/-- **The table has `e_phnum` entries exactly when every header stays.** -/
theorem count_iff (hR : R.WellFormed) (h : R.patchELFPHDRTable = some out) :
    out.length = R.phnum ↔ ∀ p ∈ R.phdrs, R.stays p = true := by
  have hphnum : R.phnum = R.phdrs.length + R.inserted.length := by
    unfold phnum inserted newEntries
    rcases hR.table with ⟨hg, hoff, _⟩ | ⟨hg, hoff, _⟩
    · rw [hg, if_neg (not_not.mpr hoff)]
      rfl
    · rw [hg, if_pos hoff]
      split <;> rfl
  have hkept : R.kept.length = R.phdrs.length ↔ ∀ p ∈ R.phdrs, R.stays p = true := by
    have hmap : R.kept.length = R.phdrs.length ↔
        ∀ q ∈ R.phdrs.map R.editPhdr, isWritten q = true := by
      rw [kept, ← List.length_filter_eq_length_iff, List.length_map]
    rw [hmap, List.forall_mem_map]
    constructor
    · intro hall p hp
      rw [← isWritten_editPhdr hR hp]
      exact hall p hp
    · intro hall p hp
      rw [isWritten_editPhdr hR hp]
      exact hall p hp
  rw [(table_perm hR h).length_eq, List.length_append, hphnum, ← hkept]
  omega

/-! ## The loads -/

/-- An edited load holds what the load holds once moved and cut. -/
theorem editPhdr_holds (hR : R.WellFormed) (hp : p ∈ R.phdrs) (hl : p.isLoad = true)
    (hcut : R.cut p ≤ p.memsz) (z : Int) : (R.editPhdr p).Holds z ↔ R.Moved p z := by
  obtain ⟨hv, _, hm⟩ := load_bounds hR hp hl
  obtain ⟨_, hvaddr, _, _, hmem⟩ := edit_load hR hp hl
  have hz : word (z - (word (p.vaddr - R.shift p : Int) : Int)) =
      word (z - p.vaddr + R.shift p) := by
    rw [word_eq_iff]
    unfold word
    omega
  have hsize : word (p.memsz - R.cut p : Int) = p.memsz - R.cut p := by
    unfold word
    omega
  unfold Phdr.Holds Moved
  rw [hvaddr, hmem, hz, hsize]

/-- The relation that makes the loads of a table disjoint. -/
def Clear (p q : Phdr) : Prop := p.isLoad = true → q.isLoad = true → Disjoint p q

theorem Clear.symm {q : Phdr} (h : Clear p q) : Clear q p :=
  fun hq hp z hqz hpz => h hp hq z hpz hqz

/-- Only an edited load and the replaced `PT_GNU_STACK` are loads. -/
theorem load_of_editPhdr (h : (R.editPhdr p).isLoad = true) :
    p.isLoad = true ∨
      (R.useGnuStack = true ∧ p.type = .gnuStack ∧ R.editPhdr p = R.createNewTextPhdr) := by
  cases htype : p.type with
  | load => exact Or.inl (decide_eq_true htype)
  | gnuStack =>
    simp only [editPhdr, htype] at h ⊢
    split at h
    · rename_i hg
      exact Or.inr ⟨hg, trivial, if_pos hg⟩
    · simp [Phdr.isLoad, htype] at h
  | phdr =>
    simp only [editPhdr, htype] at h
    split at h <;> simp [Phdr.isLoad, htype] at h
  | gnuEhFrame =>
    simp only [editPhdr, htype] at h
    split at h <;> simp [Phdr.isLoad, htype] at h
  | dynamic => simp [editPhdr, htype, Phdr.isLoad] at h
  | note => simp [editPhdr, htype, Phdr.isLoad] at h
  | riscvAttributes => simp [editPhdr, htype, Phdr.isLoad] at h
  | other n => simp [editPhdr, htype, Phdr.isLoad] at h

theorem createNewWritableSectionsPhdr_range (hR : R.WellFormed)
    (hw : R.newWritableSegmentSize ≠ 0) :
    R.createNewWritableSectionsPhdr.vaddr = R.newWritableSegmentAddress ∧
      R.newWritableSegmentAddress + R.createNewWritableSectionsPhdr.memsz =
        R.nextAvailableAddress := by
  obtain ⟨-, hle, hhi⟩ := hR.newWritable hw
  have hmemsz : (R.createNewWritableSectionsPhdr.memsz : Int) =
      R.nextAvailableAddress - R.newWritableSegmentAddress := word_of_nonneg (by omega) (by omega)
  exact ⟨word_of_lt (by omega), by omega⟩

/-- The new segments lie above what the loads of the input hold. -/
theorem newEntries_clear (hR : R.WellFormed) (hp : p ∈ R.phdrs) (hl : p.isLoad = true) {z : Int}
    (hz : R.Moved p z) {q : Phdr} (hq : q ∈ R.newEntries) : ¬ q.Holds z := by
  have hshift := hR.shift p hp hl
  have habove := hR.above p hp hl
  have hnew := hR.newText
  have hvaddr := createNewTextPhdr_vaddr hR
  have hsize := (createNewTextPhdr_size hR).1
  have hz' : word (z - (p.vaddr - R.shift p : Int)) < p.memsz - R.cut p := by
    rw [show z - (p.vaddr - R.shift p : Int) = z - p.vaddr + R.shift p by omega]
    exact hz
  unfold Phdr.Holds
  rcases List.mem_cons.mp hq with rfl | hq
  · rw [hvaddr, hsize]
    exact not_word_of_above (by omega) (by omega) hz'
  · split at hq
    · rename_i hw
      obtain ⟨hlo, -, hhi⟩ := hR.newWritable hw
      obtain rfl := List.mem_singleton.mp hq
      obtain ⟨hwvaddr, hwsize⟩ := createNewWritableSectionsPhdr_range hR hw
      exact not_word_of_above (by omega) (by omega) hz'
    · exact absurd hq List.not_mem_nil

/-- The new segments do not meet. -/
theorem inserted_pairwise (hR : R.WellFormed) : R.inserted.Pairwise Clear := by
  unfold inserted newEntries
  split
  · exact List.Pairwise.nil
  · refine List.pairwise_cons.mpr ⟨fun q hq => ?_, ?_⟩
    · split at hq
      · rename_i hw
        obtain ⟨hlo, -, hhi⟩ := hR.newWritable hw
        obtain rfl := List.mem_singleton.mp hq
        intro _ _ z
        have hvaddr := createNewTextPhdr_vaddr hR
        have hsize := (createNewTextPhdr_size hR).1
        obtain ⟨hwvaddr, hwsize⟩ := createNewWritableSectionsPhdr_range hR hw
        exact fun htext => not_word_of_above (by omega) (by omega) htext
      · exact absurd hq List.not_mem_nil
    · split
      · exact List.pairwise_singleton _ _
      · exact List.Pairwise.nil

theorem pairwise_of_countP_le {α : Type} {c : α → Bool} {l : List α} (h : l.countP c ≤ 1) :
    l.Pairwise fun a b => c a = true → c b = false := by
  induction l with
  | nil => exact List.Pairwise.nil
  | cons a l ih =>
    rw [List.countP_cons] at h
    refine List.pairwise_cons.mpr ⟨fun b hb hc => ?_, ih (by omega)⟩
    rw [hc, if_pos rfl] at h
    have hzero : l.countP c = 0 := by omega
    rw [← Bool.not_eq_true]
    exact List.countP_eq_zero.mp hzero b hb

/-- Two entries that both cover a load of the input are one. -/
theorem cover_unique (hR : R.WellFormed) (hout : out.Pairwise Clear) {q q' : Phdr}
    (hp : p ∈ R.phdrs) (hl : p.isLoad = true) (hm : 0 < p.memsz) {i j : Nat} (hq : out[i]? = some q)
    (hql : q.isLoad = true) (hqc : q.Holds (p.vaddr - R.shift p : Int)) (hq' : out[j]? = some q')
    (hql' : q'.isLoad = true) (hqc' : R.Covers p q') : j = i := by
  have hfirst : q'.Holds (p.vaddr - R.shift p : Int) :=
    hqc' p.vaddr (le_refl _) (by omega) (hR.starts p hp hl)
  obtain ⟨hi, rfl⟩ := List.getElem?_eq_some_iff.mp hq
  obtain ⟨hj, rfl⟩ := List.getElem?_eq_some_iff.mp hq'
  rcases Nat.lt_trichotomy i j with hlt | heq | hlt
  · exact absurd hfirst (List.pairwise_iff_getElem.mp hout i j hi hj hlt hql hql' _ hqc)
  · exact heq.symm
  · exact absurd hqc (List.pairwise_iff_getElem.mp hout j i hj hi hlt hql' hql _ hfirst)

/-! ## Inputs that fit have a complete table -/

theorem kept_of_stays (hR : R.WellFormed) (h : ∀ p ∈ R.phdrs, R.stays p = true) :
    R.kept = R.phdrs.map R.editPhdr := by
  unfold kept
  rw [List.filter_eq_self]
  intro q hq
  obtain ⟨p, hp, rfl⟩ := List.mem_map.mp hq
  rw [isWritten_editPhdr hR hp]
  exact h p hp

theorem Fits.cut_le (hF : R.Fits) (hR : R.WellFormed) (hp : p ∈ R.phdrs) (hl : p.isLoad = true) :
    R.cut p ≤ p.memsz :=
  ((hF.cut p hp hl).1).trans (hR.sizes p hp hl)

theorem Fits.pairwise (hF : R.Fits) (hR : R.WellFormed) (hperm : out.Perm
    (R.phdrs.map R.editPhdr ++ R.inserted)) : out.Pairwise Clear := by
  have hstack := pairwise_of_countP_le hR.gnuStack
  rw [hperm.pairwise_iff Clear.symm, List.pairwise_append]
  refine ⟨?_, inserted_pairwise hR, ?_⟩
  · rw [List.pairwise_map]
    refine (hF.apart.and hstack).imp_of_mem ?_
    rintro p q hp hq ⟨hapart, hone⟩ hpl hql z hpz hqz
    have hnew : R.createNewTextPhdr ∈ R.newEntries := List.mem_cons_self
    rcases load_of_editPhdr hpl with hpl' | ⟨_, hps, hpe⟩
    · rw [editPhdr_holds hR hp hpl' (hF.cut_le hR hp hpl')] at hpz
      rcases load_of_editPhdr hql with hql' | ⟨_, _, hqe⟩
      · rw [editPhdr_holds hR hq hql' (hF.cut_le hR hq hql')] at hqz
        exact hapart hpl' hql' z hpz hqz
      · rw [hqe] at hqz
        exact newEntries_clear hR hp hpl' hpz hnew hqz
    · rcases load_of_editPhdr hql with hql' | ⟨_, hqs, _⟩
      · rw [editPhdr_holds hR hq hql' (hF.cut_le hR hq hql')] at hqz
        rw [hpe] at hpz
        exact newEntries_clear hR hq hql' hqz hnew hpz
      · have := hone (decide_eq_true hps)
        rw [decide_eq_true hqs] at this
        exact absurd this (by simp)
  · intro p' hp' q hq hpl hql z hpz hqz
    obtain ⟨p, hp, rfl⟩ := List.mem_map.mp hp'
    have hqn : q ∈ R.newEntries := by
      unfold inserted at hq
      split at hq
      · exact absurd hq List.not_mem_nil
      · exact hq
    rcases load_of_editPhdr hpl with hpl' | ⟨hg, _, _⟩
    · rw [editPhdr_holds hR hp hpl' (hF.cut_le hR hp hpl')] at hpz
      exact newEntries_clear hR hp hpl' hpz hqn hqz
    · rw [inserted, if_pos hg] at hq
      exact absurd hq List.not_mem_nil

theorem Fits.sizes (hF : R.Fits) (hR : R.WellFormed) {q : Phdr}
    (hq : q ∈ R.phdrs.map R.editPhdr ++ R.inserted) (hl : q.isLoad = true) :
    q.filesz ≤ q.memsz := by
  rcases List.mem_append.mp hq with hq | hq
  · obtain ⟨p, hp, rfl⟩ := List.mem_map.mp hq
    rcases load_of_editPhdr hl with hl' | ⟨_, _, he⟩
    · obtain ⟨_, _, _, hfile, hmem⟩ := edit_load hR hp hl'
      have hsizes := hR.sizes p hp hl'
      have hcut := (hF.cut p hp hl').1
      obtain ⟨_, hf, hm⟩ := load_bounds hR hp hl'
      rw [hfile, hmem]
      unfold word
      omega
    · rw [he]
      exact le_refl _
  · unfold inserted at hq
    split at hq
    · exact absurd hq List.not_mem_nil
    · rcases List.mem_cons.mp hq with rfl | hq
      · exact le_refl _
      · split at hq
        · obtain rfl := List.mem_singleton.mp hq
          exact le_refl _
        · exact absurd hq List.not_mem_nil

/-- The edited load covers the load. -/
theorem Fits.covers_self (hF : R.Fits) (hR : R.WellFormed) (hp : p ∈ R.phdrs)
    (hl : p.isLoad = true) : R.Covers p (R.editPhdr p) := by
  intro a hlo hhi hstays
  have hcut := hF.cut_le hR hp hl
  have hm := (load_bounds hR hp hl).2.2
  rw [editPhdr_holds hR hp hl hcut]
  have hlt : a < p.vaddr + p.memsz - R.cut p := by
    by_contra hge
    exact hstays ((hF.cut p hp hl).2 a (by omega) hhi)
  unfold Moved word
  omega

theorem Fits.complete (hF : R.Fits) (hR : R.WellFormed) (h : R.patchELFPHDRTable = some out) :
    R.Complete out := by
  have hperm := table_perm hR h
  rw [kept_of_stays hR hF.stays] at hperm
  have hpairwise := hF.pairwise hR hperm
  refine ⟨(count_iff hR h).mpr hF.stays, ?_, hpairwise, ?_⟩
  · intro p hp hl hm
    have hmem : R.editPhdr p ∈ out :=
      hperm.mem_iff.mpr (List.mem_append_left _ (List.mem_map_of_mem hp))
    obtain ⟨i, hi⟩ := List.mem_iff_getElem?.mp hmem
    have hcover := hF.covers_self hR hp hl
    have hload : (R.editPhdr p).isLoad = true := decide_eq_true (edit_load hR hp hl).1
    have hfirst := hcover p.vaddr (le_refl _) (by omega) (hR.starts p hp hl)
    refine ⟨i, ⟨R.editPhdr p, hi, hload, hcover⟩, ?_⟩
    rintro j ⟨q, hj, hql, hqc⟩
    exact cover_unique hR hpairwise hp hl hm hi hload hfirst hj hql hqc
  · intro q hq hl
    exact hF.sizes hR (hperm.mem_iff.mp hq) hl

/-! ## Complete tables come from inputs that fit -/

/-- The edited headers of a complete table are pairwise clear. -/
theorem Complete.edited (hC : R.Complete out) (hR : R.WellFormed)
    (h : R.patchELFPHDRTable = some out) :
    out.Perm (R.phdrs.map R.editPhdr ++ R.inserted) ∧ (R.phdrs.map R.editPhdr).Pairwise Clear := by
  have hperm := table_perm hR h
  rw [kept_of_stays hR ((count_iff hR h).mp hC.count)] at hperm
  refine ⟨hperm, ?_⟩
  have hpairwise : out.Pairwise Clear := hC.disjoint
  rw [hperm.pairwise_iff Clear.symm, List.pairwise_append] at hpairwise
  exact hpairwise.1

/-- Only text can be cut by more than it has. -/
theorem text_of_filesz_lt_cut (hR : R.WellFormed) (hp : p ∈ R.phdrs) (hl : p.isLoad = true)
    (hlt : p.filesz < R.cut p) : R.useGnuStack = true ∧ R.loadKind p = .text := by
  unfold cut at hlt
  split at hlt
  · rename_i hg
    refine ⟨hg, ?_⟩
    cases hk : R.loadKind p with
    | text => rfl
    | rodata =>
      rw [hk] at hlt
      exact absurd (hR.rodata p hp hl hk) (Nat.not_le.mpr hlt)
    | data =>
      rw [hk] at hlt
      exact absurd hlt (Nat.not_lt_zero _)
    | other =>
      rw [hk] at hlt
      exact absurd hlt (Nat.not_lt_zero _)
  · exact absurd hlt (Nat.not_lt_zero _)

/-- How the load with the old text is moved and cut, and that it has more than that. -/
theorem shift_cut_of_text {t : Phdr} (hg : R.useGnuStack = true) (htr : t.r = true)
    (htx : t.x = true)
    (hts : R.sizeChange + (if R.loadKind t = .rodata then R.rodataCut else 0) < t.filesz) :
    (R.shift t = 0 ∧ R.cut t = R.rodataCut ∧ R.sizeChange + R.rodataCut < t.filesz) ∨
      (R.shift t = R.rodataCut ∧ R.cut t = R.sizeChange ∧ R.sizeChange < t.filesz) := by
  unfold shift cut
  rw [if_pos hg, if_pos hg]
  by_cases hk : R.loadKind t = .rodata
  · rw [if_pos hk] at hts
    rw [hk]
    exact Or.inl ⟨rfl, rfl, hts⟩
  · have htk : R.loadKind t = .text := by
      unfold loadKind at hk ⊢
      split at hk
      · exact absurd rfl hk
      · rename_i hmin
        rw [if_neg hmin, htr, htx]
        rfl
    rw [if_neg hk] at hts
    rw [htk]
    exact Or.inr ⟨rfl, rfl, hts⟩

/-- **No load is cut below zero.** A size in the file that wraps exceeds the size in memory; if
both wrap, the load runs around the address space onto the old text. -/
theorem Complete.cut_le (hC : R.Complete out) (hR : R.WellFormed)
    (h : R.patchELFPHDRTable = some out) (hp : p ∈ R.phdrs) (hl : p.isLoad = true) :
    R.cut p ≤ p.filesz := by
  obtain ⟨hperm, hclear⟩ := hC.edited hR h
  obtain ⟨t, ht, htl, htr, htx, hts⟩ := hR.text
  by_contra hlt
  obtain ⟨hg, hpk⟩ := text_of_filesz_lt_cut hR hp hl (Nat.lt_of_not_le hlt)
  have hpcut : R.cut p = R.sizeChange := by rw [cut, if_pos hg, hpk]
  have hpsh : R.shift p = R.rodataCut := by rw [shift, if_pos hg, hpk]
  have htshape := shift_cut_of_text hg htr htx hts
  obtain ⟨hpt, hpv, _, hpf, hpm⟩ := edit_load hR hp hl
  obtain ⟨htt, htv, _, _, htm⟩ := edit_load hR ht htl
  have hpload : (R.editPhdr p).isLoad = true := decide_eq_true hpt
  have htload : (R.editPhdr t).isLoad = true := decide_eq_true htt
  have hsizes : (R.editPhdr p).filesz ≤ (R.editPhdr p).memsz :=
    hC.sizes _ (hperm.mem_iff.mpr (List.mem_append_left _ (List.mem_map_of_mem hp))) hpload
  have hne : p ≠ t := by
    rintro rfl
    rcases htshape with ⟨_, hcut, hlt'⟩ | ⟨_, _, hlt'⟩ <;> omega
  -- the two loads as they were, and as they are written
  let S : Phdr → Phdr → Prop := fun p q =>
    (p.isLoad = true → q.isLoad = true →
      p.vaddr + p.memsz ≤ q.vaddr ∨ q.vaddr + q.memsz ≤ p.vaddr) ∧
    Clear (R.editPhdr p) (R.editPhdr q)
  have hsymm : Std.Symm S :=
    ⟨fun _ _ hS => ⟨fun hq hp => (hS.1 hp hq).symm, hS.2.symm⟩⟩
  have hall : R.phdrs.Pairwise S := hR.apart.and (List.pairwise_map.mp hclear)
  obtain ⟨hapart, hclear'⟩ := hall.forall hp ht hne
  have hapart := hapart hl htl
  have hmeet := hclear' hpload htload (t.vaddr - R.shift t : Int)
  have hptr := hR.range p hp hl
  have httr := hR.range t ht htl
  have hps := hR.sizes p hp hl
  have hts' := hR.sizes t ht htl
  have hpshift := hR.shift p hp hl
  have htshift := hR.shift t ht htl
  rw [hpcut] at hlt
  rw [hpf, hpm, hpcut] at hsizes
  unfold Phdr.Holds at hmeet
  rw [hpv, hpm, htv, htm, hpcut, hpsh] at hmeet
  rw [hpsh] at hpshift
  have hcutlt : R.sizeChange < 2 ^ 32 := hpcut ▸ cut_lt hR p
  -- the size in the file wraps, so the one in memory does
  have hfilesz := word_of_neg (x := p.filesz - R.sizeChange) (by omega) (by omega)
  have hwraps : p.memsz < R.sizeChange := by
    by_contra hle
    have hmemsz := word_of_nonneg (x := p.memsz - R.sizeChange) (by omega) (by omega)
    omega
  have hmemsz := word_of_neg (x := p.memsz - R.sizeChange) (by omega) (by omega)
  have hpvaddr := word_of_nonneg (x := p.vaddr - R.rodataCut) (by omega) (by omega)
  have htvaddr := word_of_nonneg (x := t.vaddr - R.shift t) (by omega) (by omega)
  have htmemsz := word_of_nonneg (x := t.memsz - R.cut t) (by omega) (by omega)
  rw [hpvaddr, htvaddr, Int.sub_self] at hmeet
  have hzero : word 0 = 0 := rfl
  -- the text begins in the load that runs around the address space
  refine hmeet ?_ (by omega)
  rcases hapart with hbelow | habove
  · have hgap := word_of_nonneg (x := t.vaddr - R.shift t - (p.vaddr - R.rodataCut))
      (by omega) (by omega)
    omega
  · have hgap := word_of_neg (x := t.vaddr - R.shift t - (p.vaddr - R.rodataCut))
      (by omega) (by omega)
    omega

theorem Complete.fits (hC : R.Complete out) (hR : R.WellFormed)
    (h : R.patchELFPHDRTable = some out) : R.Fits := by
  have hstays := (count_iff hR h).mp hC.count
  obtain ⟨hperm, hclear⟩ := hC.edited hR h
  have hpairwise : out.Pairwise Clear := hC.disjoint
  have hcut : ∀ p ∈ R.phdrs, p.isLoad = true → R.cut p ≤ p.memsz := by
    intro p hp hl
    exact (hC.cut_le hR h hp hl).trans (hR.sizes p hp hl)
  refine ⟨hstays, fun p hp hl => ⟨hC.cut_le hR h hp hl, ?_⟩, ?_⟩
  · intro a hlo hhi
    by_contra hstay
    have hle := hcut p hp hl
    have hmem : p.memsz ≠ R.cut p := by
      have hs := hstays p hp
      have htype : p.type = .load := of_decide_eq_true hl
      simp only [stays, htype, Bool.and_eq_true, decide_eq_true_eq] at hs
      exact hs.1
    obtain ⟨i, ⟨q, hi, hql, hqc⟩, _⟩ := hC.covers p hp hl (by omega)
    have hin : R.editPhdr p ∈ out :=
      hperm.mem_iff.mpr (List.mem_append_left _ (List.mem_map_of_mem hp))
    obtain ⟨j, hj⟩ := List.mem_iff_getElem?.mp hin
    have hload : (R.editPhdr p).isLoad = true := decide_eq_true (edit_load hR hp hl).1
    have hfirst : (R.editPhdr p).Holds (p.vaddr - R.shift p : Int) := by
      rw [editPhdr_holds hR hp hl hle]
      unfold Moved word
      omega
    have heq := cover_unique hR hpairwise hp hl (by omega) hj hload hfirst hi hql hqc
    rw [heq, hj] at hi
    obtain rfl := Option.some.inj hi
    have hheld := hqc a (by omega) hhi hstay
    rw [editPhdr_holds hR hp hl hle] at hheld
    have hm := (load_bounds hR hp hl).2.2
    unfold Moved word at hheld
    omega
  · refine (List.pairwise_map.mp hclear).imp_of_mem ?_
    intro p q hp hq hpq hpl hql z hpz hqz
    rw [← editPhdr_holds hR hp hpl (hcut p hp hpl)] at hpz
    rw [← editPhdr_holds hR hq hql (hcut q hq hql)] at hqz
    exact hpq (decide_eq_true (edit_load hR hp hpl).1) (decide_eq_true (edit_load hR hq hql).1) z
      hpz hqz

/-- **The table is complete exactly when the input fits.** -/
theorem complete_iff (hR : R.WellFormed) (h : R.patchELFPHDRTable = some out) :
    R.Complete out ↔ R.Fits := by
  constructor
  · intro hC
    exact hC.fits hR h
  · intro hF
    exact hF.complete hR h

/-! ## Two inputs -/

theorem smallRewrite_wellFormed : (smallRewrite []).WellFormed := by
  constructor <;> decide

theorem smallRewrite_fits : (smallRewrite []).Fits := by
  refine ⟨by decide, ?_, ?_⟩
  · intro p hp hl
    rcases List.mem_cons.mp hp with rfl | hp
    · exact ⟨by decide, fun a hlo hhi => Or.inl ⟨hlo, hhi⟩⟩
    · rcases List.mem_cons.mp hp with rfl | hp
      · exact ⟨by decide, fun a hlo hhi => absurd hhi (not_lt.mpr hlo)⟩
      · obtain rfl := List.mem_singleton.mp hp
        exact absurd hl (by decide)
  · refine List.pairwise_cons.mpr ⟨fun q hq _ hql z hpz hqz => ?_, ?_⟩
    · rcases List.mem_cons.mp hq with rfl | hq
      · have hpz' : word (z - (0x10000 : Nat) + (0 : Nat)) < 0x1f00 := hpz
        have hqz' : word (z - (0x13000 : Nat) + (0x100 : Nat)) < 0x200 := hqz
        unfold word at hpz' hqz'
        omega
      · obtain rfl := List.mem_singleton.mp hq
        exact absurd hql (by decide)
    · refine List.pairwise_cons.mpr ⟨fun q hq _ hql => ?_, List.pairwise_singleton _ _⟩
      obtain rfl := List.mem_singleton.mp hq
      exact absurd hql (by decide)

theorem complete_smallRewrite :
    ∃ out, (smallRewrite []).patchELFPHDRTable = some out ∧ (smallRewrite []).Complete out :=
  ⟨_, rfl, (complete_iff smallRewrite_wellFormed rfl).mpr smallRewrite_fits⟩

/-- A load of zero-filled memory only. -/
def bssLoad : Phdr := ⟨.load, 0x2100, 0x14000, 0x14000, 0, 0x400, true, true, false, 0x1000⟩

/-- **A load with nothing in the file is not written**, and `e_phnum` still counts it. -/
theorem not_complete_bssLoad :
    ¬ ∀ (R : Rewrite) (out : List Phdr), R.WellFormed → R.patchELFPHDRTable = some out →
      R.Complete out := by
  intro h
  have hR : (smallRewrite [bssLoad]).WellFormed := by
    constructor <;> decide
  have hC := h (smallRewrite [bssLoad]) _ hR rfl
  exact absurd hC.count (by decide)

end Rewrite

end RvLlvm.Bolt
