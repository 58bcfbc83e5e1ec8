import Mathlib.Data.Nat.Bitwise
import Mathlib.Data.List.Sort
import RvLlvm.Bolt.Sections

/-!
# RELR sections

Model of `readDynamicRelrRelocations` and `patchELFAllocatableRelrSection`
(`bolt/lib/Rewrite/RewriteInstance.cpp:2455-2507, 5309-5402`) with `isRelative` and `getRelative`
(`bolt/lib/Core/Relocation.cpp:826, 888`). A word of the section is an address, or a bitmap of the
words that follow the last place reached. Running addresses are kept unwrapped and taken modulo
`2 ^ 64` where they are read.

* `decode` is the loop of the reader, `encode` that of the writer.
* `decode_encode`: they are inverse on every sorted list of even addresses, whatever its gaps and
  unaligned neighbours, and the filler decodes to nothing.
* `rewritten_iff`: the rewritten section holds the locations of the input exactly when the type
  that the reader gives them is one that the writer looks for, or none is lost otherwise.
* `not_rewritten_riscv`: on RISC-V it is not.
-/

namespace RvLlvm.Bolt

open RvLlvm.Support

namespace Relr

variable (pSize entrySize : Nat)

/-- `MaxDelta`. -/
def maxDelta : Nat := (8 * entrySize - 1) * pSize

/-! ## Reading -/

/-- The loop over the bits of a bitmap, for at most `n` turns. -/
def readBitmap : Nat → Nat → Nat → List Nat
  | 0, _, _ => []
  | n + 1, address, entry =>
    if entry / 2 = 0 then []
    else
      (if entry / 2 % 2 = 1 then [address % 2 ^ 64] else []) ++
        readBitmap n (address + pSize) (entry / 2)

/-- The loop over the words, from `address`. -/
def decode : Nat → List Nat → List Nat
  | _, [] => []
  | address, entry :: entries =>
    if entry % 2 = 0 then entry :: decode (entry + pSize) entries
    else
      readBitmap pSize (8 * entrySize) address entry ++
        decode (address + maxDelta pSize entrySize) entries

/-! ## Writing -/

/-- The loop that fills a bitmap: the bitmap and what is left. -/
def collect (base : Nat) : List Nat → Nat × List Nat
  | [] => (0, [])
  | x :: xs =>
    let delta := cell 64 (x - base)
    if maxDelta pSize entrySize ≤ delta || delta % pSize ≠ 0 then (0, x :: xs)
    else
      let rest := collect base xs
      (2 ^ (delta / pSize) ||| rest.1, rest.2)

/-- The loop that writes bitmaps until one is empty, for at most `n` turns. -/
def writeBitmaps : Nat → Nat → List Nat → List Nat × List Nat
  | 0, _, xs => ([], xs)
  | n + 1, base, xs =>
    let bits := collect pSize entrySize base xs
    if bits.1 = 0 then ([], bits.2)
    else
      let rest := writeBitmaps n (base + maxDelta pSize entrySize) bits.2
      ((2 * bits.1 + 1) :: rest.1, rest.2)

/-- The loop over the offsets, for at most `n` turns. -/
def encode : Nat → List Nat → List Nat
  | 0, _ => []
  | _ + 1, [] => []
  | n + 1, x :: xs =>
    let bitmaps := writeBitmaps pSize entrySize (xs.length + 1) (x + pSize) xs
    x :: (bitmaps.1 ++ encode n bitmaps.2)

/-! ## One bitmap -/

variable {pSize entrySize}

theorem mem_readBitmap {n address entry a : Nat} (h : entry < 2 ^ n) :
    a ∈ readBitmap pSize n address entry ↔
      ∃ k, entry.testBit (k + 1) = true ∧ a = (address + k * pSize) % 2 ^ 64 := by
  induction n generalizing address entry with
  | zero =>
    obtain rfl : entry = 0 := by simpa using h
    simp [readBitmap]
  | succ n ih =>
    have hhalf : entry / 2 < 2 ^ n := by
      rw [pow_succ] at h
      omega
    simp only [readBitmap]
    split
    next hzero =>
      constructor
      · intro hmem
        exact absurd hmem List.not_mem_nil
      · rintro ⟨k, hk, -⟩
        rw [Nat.testBit_succ, hzero, Nat.zero_testBit] at hk
        exact absurd hk Bool.false_ne_true
    next hzero =>
      rw [List.mem_append, ih hhalf]
      constructor
      · rintro (hmem | ⟨k, hk, rfl⟩)
        · by_cases hodd : entry / 2 % 2 = 1
          · rw [if_pos hodd, List.mem_singleton] at hmem
            refine ⟨0, ?_, by rw [hmem, Nat.zero_mul, Nat.add_zero]⟩
            rw [Nat.testBit_succ, Nat.testBit_zero, hodd]
            rfl
          · rw [if_neg hodd] at hmem
            exact absurd hmem List.not_mem_nil
        · refine ⟨k + 1, ?_, ?_⟩
          · rw [Nat.testBit_succ]
            exact hk
          · congr 1
            ring
      · rintro ⟨k, hk, rfl⟩
        cases k with
        | zero =>
          left
          rw [Nat.testBit_succ, Nat.testBit_zero, decide_eq_true_eq] at hk
          rw [if_pos hk, Nat.zero_mul, Nat.add_zero]
          exact List.mem_singleton_self _
        | succ k =>
          right
          refine ⟨k, ?_, ?_⟩
          · rw [Nat.testBit_succ] at hk
            exact hk
          · congr 1
            ring

/-- The places read from a bitmap ascend as long as they do not wrap. -/
theorem readBitmap_pairwise {n address entry : Nat} (hp : 0 < pSize) (h : entry < 2 ^ n)
    (hwrap : ∀ k, entry.testBit (k + 1) = true → address + k * pSize < 2 ^ 64) :
    (readBitmap pSize n address entry).Pairwise (· < ·) := by
  induction n generalizing address entry with
  | zero => exact List.Pairwise.nil
  | succ n ih =>
    have hhalf : entry / 2 < 2 ^ n := by
      rw [pow_succ] at h
      omega
    have hwrap' : ∀ k, (entry / 2).testBit (k + 1) = true →
        address + pSize + k * pSize < 2 ^ 64 := by
      intro k hk
      have := hwrap (k + 1) (by rw [Nat.testBit_succ]; exact hk)
      calc address + pSize + k * pSize = address + (k + 1) * pSize := by ring
        _ < 2 ^ 64 := this
    simp only [readBitmap]
    split
    · exact List.Pairwise.nil
    · rw [List.pairwise_append]
      refine ⟨?_, ih hhalf hwrap', ?_⟩
      · split
        · exact List.pairwise_singleton _ _
        · exact List.Pairwise.nil
      · intro a ha b hb
        obtain ⟨k, hk, rfl⟩ := (mem_readBitmap hhalf).mp hb
        rw [Nat.mod_eq_of_lt (hwrap' k hk)]
        by_cases hodd : entry / 2 % 2 = 1
        · rw [if_pos hodd, List.mem_singleton] at ha
          have := Nat.mod_le address (2 ^ 64)
          rw [ha]
          calc address % 2 ^ 64 ≤ address := this
            _ < address + pSize := Nat.lt_add_of_pos_right hp
            _ ≤ address + pSize + k * pSize := Nat.le_add_right _ _
        · rw [if_neg hodd] at ha
          exact absurd ha List.not_mem_nil

/-- The window test of the writer, on a place not far below `base`. -/
theorem delta_lt_iff {m base x : Nat} (hm : m ≤ 2 ^ 32) (hx : x < 2 ^ 64)
    (hbase : base ≤ x + 2 ^ 32) : cell 64 (x - base) < m ↔ base ≤ x ∧ x - base < m := by
  unfold cell
  omega

theorem delta_eq {base x : Nat} (hx : x < 2 ^ 64) (h : base ≤ x) :
    cell 64 (x - base : Int) = x - base := by
  unfold cell
  omega

/-- What a bitmap from `base` takes of the list `xs`, and what it leaves. -/
structure Collected (pSize m base : Nat) (xs : List Nat) (bits : Nat) (taken rest : List Nat) :
    Prop where
  split : xs = taken ++ rest
  window : ∀ x ∈ taken, base ≤ x ∧ x - base < m ∧ (x - base) % pSize = 0
  bit : ∀ k, bits.testBit k = true ↔ ∃ x ∈ taken, x = base + k * pSize

theorem collect_spec (entrySize : Nat) {base : Nat} {xs : List Nat} (hp : 0 < pSize)
    (hm : maxDelta pSize entrySize ≤ 2 ^ 32) (hlt : ∀ x ∈ xs, x < 2 ^ 64)
    (hbase : ∀ x ∈ xs, base ≤ x + 2 ^ 32) :
    ∃ taken, Collected pSize (maxDelta pSize entrySize) base xs
      (collect pSize entrySize base xs).1 taken (collect pSize entrySize base xs).2 := by
  induction xs with
  | nil => exact ⟨[], rfl, by simp, by simp [collect]⟩
  | cons x xs ih =>
    obtain ⟨taken, hsplit, hwindow, hbit⟩ := ih (fun y hy => hlt y (List.mem_cons_of_mem x hy))
      (fun y hy => hbase y (List.mem_cons_of_mem x hy))
    have hx := hlt x List.mem_cons_self
    have hxb := hbase x List.mem_cons_self
    simp only [collect]
    split
    next => exact ⟨[], rfl, by simp, by simp⟩
    next hstop =>
      simp only [Bool.or_eq_true, decide_eq_true_eq, not_or, not_le, ne_eq, not_not] at hstop
      obtain ⟨hdelta, halign⟩ := hstop
      obtain ⟨hle, hwin⟩ := (delta_lt_iff hm hx hxb).mp hdelta
      rw [delta_eq hx hle] at halign ⊢
      refine ⟨x :: taken, ?_, ?_, ?_⟩
      · rw [List.cons_append, ← hsplit]
      · intro y hy
        rcases List.mem_cons.mp hy with rfl | hy
        · exact ⟨hle, hwin, halign⟩
        · exact hwindow y hy
      · intro k
        have hpow : (2 ^ ((x - base) / pSize)).testBit k = true ↔ x = base + k * pSize := by
          rw [Nat.testBit_two_pow, decide_eq_true_eq]
          constructor
          · rintro rfl
            have := Nat.div_mul_cancel (Nat.dvd_of_mod_eq_zero halign)
            omega
          · rintro rfl
            rw [Nat.add_sub_cancel_left, Nat.mul_div_cancel _ hp]
        rw [Nat.testBit_or, Bool.or_eq_true, hpow, hbit k]
        simp only [List.mem_cons, exists_eq_or_imp]

namespace Collected

variable {m base bits : Nat} {xs taken rest : List Nat}

theorem eq_nil (h : Collected pSize m base xs 0 taken rest) : taken = [] := by
  rw [List.eq_nil_iff_forall_not_mem]
  intro x hx
  obtain ⟨hle, -, halign⟩ := h.window x hx
  have hk : x = base + (x - base) / pSize * pSize := by
    rw [Nat.div_mul_cancel (Nat.dvd_of_mod_eq_zero halign)]
    omega
  have := (h.bit ((x - base) / pSize)).mpr ⟨x, hx, hk⟩
  rw [Nat.zero_testBit] at this
  exact Bool.false_ne_true this

theorem ne_nil (h : Collected pSize m base xs bits taken rest) (hbits : bits ≠ 0) :
    taken ≠ [] := by
  rintro rfl
  obtain ⟨k, hk⟩ := Nat.exists_testBit_of_ne_zero hbits
  obtain ⟨x, hx, -⟩ := (h.bit k).mp hk
  exact List.not_mem_nil hx

/-- The bitmap fits into its word. -/
theorem bits_lt {n : Nat} (h : Collected pSize (n * pSize) base xs bits taken rest) :
    bits < 2 ^ n := by
  apply Nat.lt_pow_two_of_testBit
  intro k hk
  by_contra hbit
  obtain ⟨x, hx, rfl⟩ := (h.bit k).mp (by simpa using hbit)
  have hwin := (h.window _ hx).2.1
  rw [Nat.add_sub_cancel_left] at hwin
  exact absurd (Nat.lt_of_mul_lt_mul_right hwin) (not_lt.mpr hk)

/-- **A bitmap reads back** as what it took. -/
theorem readBitmap_eq {n : Nat} (hp : 0 < pSize)
    (h : Collected pSize (n * pSize) base xs bits taken rest) (hlt : ∀ x ∈ xs, x < 2 ^ 64)
    (hsorted : xs.Pairwise (· < ·)) :
    readBitmap pSize (n + 1) base (2 * bits + 1) = taken := by
  have hword : 2 * bits + 1 < 2 ^ (n + 1) := by
    have := h.bits_lt
    rw [pow_succ]
    omega
  have htest : ∀ k, (2 * bits + 1).testBit (k + 1) = bits.testBit k := by
    intro k
    rw [Nat.testBit_succ]
    congr 1
    omega
  have hlt' : ∀ x ∈ taken, x < 2 ^ 64 := by
    intro x hx
    refine hlt x ?_
    rw [h.split]
    exact List.mem_append_left _ hx
  have hwrap : ∀ k, (2 * bits + 1).testBit (k + 1) = true → base + k * pSize < 2 ^ 64 := by
    intro k hk
    rw [htest] at hk
    obtain ⟨x, hx, rfl⟩ := (h.bit k).mp hk
    exact hlt' _ hx
  have hmem : ∀ a, a ∈ readBitmap pSize (n + 1) base (2 * bits + 1) ↔ a ∈ taken := by
    intro a
    rw [mem_readBitmap hword]
    constructor
    · rintro ⟨k, hk, rfl⟩
      rw [Nat.mod_eq_of_lt (hwrap k hk)]
      rw [htest] at hk
      obtain ⟨x, hx, rfl⟩ := (h.bit k).mp hk
      exact hx
    · intro ha
      obtain ⟨hle, -, halign⟩ := h.window a ha
      have hk : a = base + (a - base) / pSize * pSize := by
        rw [Nat.div_mul_cancel (Nat.dvd_of_mod_eq_zero halign)]
        omega
      refine ⟨(a - base) / pSize, ?_, ?_⟩
      · rw [htest]
        exact (h.bit _).mpr ⟨a, ha, hk⟩
      · rw [← hk, Nat.mod_eq_of_lt (hlt' a ha)]
  have hleft := readBitmap_pairwise hp hword hwrap
  have hright : taken.Pairwise (· < ·) := by
    rw [h.split] at hsorted
    exact hsorted.sublist (List.sublist_append_left _ _)
  have hperm : (readBitmap pSize (n + 1) base (2 * bits + 1)).Perm taken :=
    (List.perm_ext_iff_of_nodup hleft.nodup hright.nodup).mpr hmem
  exact hperm.eq_of_pairwise (fun a b _ _ hab hba => absurd hab (lt_asymm hba)) hleft hright

end Collected

/-! ## Whole sections -/

/-- **A group of bitmaps** reads back as what it took, whatever follows. -/
theorem decode_writeBitmaps {w n : Nat} (base : Nat) {xs : List Nat} (hw : w = 4 ∨ w = 8)
    (hn : xs.length < n) (hlt : ∀ x ∈ xs, x < 2 ^ 64) (hbase : ∀ x ∈ xs, base ≤ x + 2 ^ 32)
    (hsorted : xs.Pairwise (· < ·)) :
    ∃ taken base', xs = taken ++ (writeBitmaps w w n base xs).2 ∧
      (∀ e ∈ (writeBitmaps w w n base xs).1, e < 2 ^ (8 * w)) ∧
      ∀ words, decode w w base ((writeBitmaps w w n base xs).1 ++ words) =
        taken ++ decode w w base' words := by
  have hp : 0 < w := by omega
  have hm : maxDelta w w ≤ 2 ^ 32 := by
    rcases hw with rfl | rfl <;> decide
  have hpred : 8 * w = 8 * w - 1 + 1 := by omega
  induction n generalizing base xs with
  | zero => exact absurd hn (Nat.not_lt_zero _)
  | succ n ih =>
    obtain ⟨taken, hC⟩ := collect_spec w hp hm hlt hbase
    simp only [writeBitmaps]
    split
    next hzero =>
      rw [hzero] at hC
      obtain rfl := hC.eq_nil
      exact ⟨[], base, hC.split, by simp, fun words => rfl⟩
    next hbits =>
      have hmem : ∀ x ∈ (collect w w base xs).2, x ∈ xs := by
        intro x hx
        rw [hC.split]
        exact List.mem_append_right _ hx
      -- something was taken, so what is left lies above `base`
      have habove : ∀ x ∈ (collect w w base xs).2, base ≤ x := by
        intro x hx
        obtain ⟨y, hy⟩ := List.exists_mem_of_ne_nil _ (hC.ne_nil hbits)
        have hs := hsorted
        rw [hC.split, List.pairwise_append] at hs
        exact ((hC.window y hy).1).trans (hs.2.2 y hy x hx).le
      have hlen : (collect w w base xs).2.length < n := by
        have := congrArg List.length hC.split
        rw [List.length_append] at this
        have := List.length_pos_iff.mpr (hC.ne_nil hbits)
        omega
      have hsorted' : (collect w w base xs).2.Pairwise (· < ·) := by
        have hs := hsorted
        rw [hC.split] at hs
        exact hs.sublist (List.sublist_append_right _ _)
      obtain ⟨taken', base', hsplit, hfit, hdec⟩ := ih (base + maxDelta w w) hlen
        (fun x hx => hlt x (hmem x hx)) (fun x hx => by have := habove x hx; omega) hsorted'
      refine ⟨taken ++ taken', base', ?_, ?_, ?_⟩
      · rw [List.append_assoc, ← hsplit]
        exact hC.split
      · intro e he
        rcases List.mem_cons.mp he with rfl | he
        · have := hC.bits_lt
          rw [hpred, pow_succ]
          omega
        · exact hfit e he
      · intro words
        have hodd : ¬ (2 * (collect w w base xs).1 + 1) % 2 = 0 := by omega
        have hread := hC.readBitmap_eq hp hlt hsorted
        rw [← hpred] at hread
        rw [List.cons_append, decode, if_neg hodd, hread, hdec, List.append_assoc]

/-- **The words of a sorted list of places** read back as the list, whatever follows. -/
theorem decode_encode_append {w n : Nat} {xs : List Nat} (hw : w = 4 ∨ w = 8) (hn : xs.length ≤ n)
    (heven : ∀ x ∈ xs, x % 2 = 0) (hlt : ∀ x ∈ xs, x < 2 ^ (8 * w))
    (hsorted : xs.Pairwise (· < ·)) (base : Nat) :
    ∃ base', (∀ e ∈ encode w w n xs, e < 2 ^ (8 * w)) ∧
      ∀ words, decode w w base (encode w w n xs ++ words) = xs ++ decode w w base' words := by
  have hfull : (2 : Nat) ^ (8 * w) ≤ 2 ^ 64 := by
    rcases hw with rfl | rfl <;> decide
  induction n generalizing base xs with
  | zero =>
    obtain rfl := List.eq_nil_of_length_eq_zero (Nat.le_zero.mp hn)
    exact ⟨base, by simp [encode], fun words => rfl⟩
  | succ n ih =>
    cases xs with
    | nil => exact ⟨base, by simp [encode], fun words => rfl⟩
    | cons x xs =>
      have hs := List.pairwise_cons.mp hsorted
      obtain ⟨taken, base₁, hsplit, hfit, hdec⟩ := decode_writeBitmaps (x + w) hw
        (Nat.lt_add_one xs.length)
        (fun y hy => (hlt y (List.mem_cons_of_mem x hy)).trans_le hfull)
        (fun y hy => by have := hs.1 y hy; omega) hs.2
      have hmem : ∀ y ∈ (writeBitmaps w w (xs.length + 1) (x + w) xs).2, y ∈ x :: xs := by
        intro y hy
        apply List.mem_cons_of_mem
        rw [hsplit]
        exact List.mem_append_right _ hy
      have hlen : (writeBitmaps w w (xs.length + 1) (x + w) xs).2.length ≤ n := by
        have := congrArg List.length hsplit
        rw [List.length_append] at this
        rw [List.length_cons] at hn
        omega
      have hsorted' : (writeBitmaps w w (xs.length + 1) (x + w) xs).2.Pairwise (· < ·) := by
        have hs' := hs.2
        rw [hsplit] at hs'
        exact hs'.sublist (List.sublist_append_right _ _)
      obtain ⟨base₂, hfit', hdec'⟩ := ih hlen (fun y hy => heven y (hmem y hy))
        (fun y hy => hlt y (hmem y hy)) hsorted' base₁
      refine ⟨base₂, ?_, ?_⟩
      · intro e he
        simp only [encode, List.mem_cons, List.mem_append] at he
        rcases he with rfl | he | he
        · exact hlt e List.mem_cons_self
        · exact hfit e he
        · exact hfit' e he
      · intro words
        have hx : x % 2 = 0 := heven x List.mem_cons_self
        simp only [encode, List.cons_append, List.append_assoc]
        rw [decode, if_pos hx, hdec, hdec', ← List.append_assoc, ← hsplit]

/-- The filler decodes to nothing. -/
theorem decode_filler (w base count : Nat) : decode w w base (List.replicate count 1) = [] := by
  induction count generalizing base with
  | zero => rfl
  | succ count ih =>
    have hread : readBitmap w (8 * w) base 1 = [] := by
      cases 8 * w <;> rfl
    rw [List.replicate_succ, decode, if_neg (by decide), hread, ih]
    rfl

/-- **Round trip**, with any number of fillers. -/
theorem decode_encode {w : Nat} {xs : List Nat} (hw : w = 4 ∨ w = 8) (heven : ∀ x ∈ xs, x % 2 = 0)
    (hlt : ∀ x ∈ xs, x < 2 ^ (8 * w)) (hsorted : xs.Pairwise (· < ·)) (count : Nat) :
    decode w w 0 (encode w w xs.length xs ++ List.replicate count 1) = xs := by
  obtain ⟨base', -, hdec⟩ := decode_encode_append hw (le_refl _) heven hlt hsorted 0
  rw [hdec, decode_filler, List.append_nil]

end Relr

/-! ## The rewritten section -/

/-- `Triple::ArchType`, of the architectures supported. -/
inductive Arch
  | x86_64 | aarch64 | riscv64 | riscv32
  deriving DecidableEq

/-- `Relocation::getRelative`. -/
def getRelative : Arch → Nat
  | .aarch64 => 0x403
  | _ => 8

/-- `Relocation::isRelative`. -/
def isRelative : Arch → Nat → Bool
  | .aarch64, type => type == 0x403
  | .riscv64, type => type == 3
  | .riscv32, type => type == 3
  | .x86_64, type => type == 8

/-- The insertion of `RelOffsets`, a `std::set`. -/
def emplace (x : Nat) : List Nat → List Nat
  | [] => [x]
  | y :: ys => if x < y then x :: y :: ys else if x = y then y :: ys else y :: emplace x ys

theorem mem_emplace {x a : Nat} {ys : List Nat} : a ∈ emplace x ys ↔ a = x ∨ a ∈ ys := by
  induction ys with
  | nil => exact List.mem_singleton.trans (or_iff_left List.not_mem_nil).symm
  | cons y ys ih =>
    simp only [emplace]
    split
    · exact List.mem_cons
    · split
      next h => simp only [h, List.mem_cons, or_self_left]
      next => rw [List.mem_cons, ih, List.mem_cons, or_left_comm]

theorem emplace_pairwise {x : Nat} {ys : List Nat} (h : ys.Pairwise (· < ·)) :
    (emplace x ys).Pairwise (· < ·) := by
  induction ys with
  | nil => exact List.pairwise_singleton _ _
  | cons y ys ih =>
    have hs := List.pairwise_cons.mp h
    simp only [emplace]
    split
    next hlt =>
      refine List.pairwise_cons.mpr ⟨?_, h⟩
      intro z hz
      rcases List.mem_cons.mp hz with rfl | hz
      · exact hlt
      · exact hlt.trans (hs.1 z hz)
    next hge =>
      split
      · exact h
      next hne =>
        refine List.pairwise_cons.mpr ⟨?_, ih hs.2⟩
        intro z hz
        rcases mem_emplace.mp hz with rfl | hz
        · omega
        · exact hs.1 z hz

/-- What the two functions read. `relr` are the words of the section, `dynamic` the dynamic
relocations read elsewhere, each with its address and type; `functions` and `movedData` give the
new addresses of the functions emitted and of the data moved. -/
structure RelrInput where
  arch : Arch
  codePointerSize : Nat
  dynamicRelrEntrySize : Nat
  relr : List Nat
  relrSectionSize : Nat
  dynamic : List (Nat × Nat)
  sections : List BinarySection
  functions : List (Nat × Nat)
  movedData : List (Nat × Nat)

namespace RelrInput

variable (I : RelrInput)

/-- The locations that `readDynamicRelrRelocations` finds. -/
def locations : List Nat := Relr.decode I.codePointerSize I.dynamicRelrEntrySize 0 I.relr

/-- The dynamic relocations registered. -/
def dynamicRelocations : List (Nat × Nat) :=
  I.dynamic ++ I.locations.map fun a => (a, getRelative I.arch)

/-- `getNewFunctionOrDataAddress`. -/
def getNewFunctionOrDataAddress (a : Nat) : Nat :=
  let function := (I.functions.lookup a).getD 0
  if function ≠ 0 then function else (I.movedData.lookup a).getD 0

/-- The new address of a location; a location outside all sections is not registered. -/
def newAddress (a : Nat) : Option Nat :=
  (getSectionForAddress I.sections a).map fun sec =>
    let new := I.getNewFunctionOrDataAddress a
    if new = 0 then
      (if sec.outputAddress = 0 then sec.address else sec.outputAddress) + (a - sec.address)
    else new

/-- `RelOffsets`. -/
def relOffsets : List Nat :=
  ((I.dynamicRelocations.filter fun r => isRelative I.arch r.2).filterMap
    fun r => I.newAddress r.1).foldr emplace []

/-- `patchELFAllocatableRelrSection`: the words of the section, unless it gives up. -/
def patchELFAllocatableRelrSection : Option (List Nat) :=
  let size := I.dynamicRelrEntrySize
  let words := Relr.encode I.codePointerSize size I.relOffsets.length I.relOffsets
  let count := I.relrSectionSize / size
  if (I.relOffsets.all fun a => decide (a % 2 = 0)) && decide (words.length ≤ count) &&
      decide (I.relrSectionSize % size = 0) then
    some (words.map (· % 2 ^ (8 * size)) ++ List.replicate (count - words.length) 1)
  else none

/-- The section has words of four or eight bytes, as the pointers have, and new addresses fit into
them. -/
structure WellFormed : Prop where
  size : I.dynamicRelrEntrySize = I.codePointerSize
  word : I.codePointerSize = 4 ∨ I.codePointerSize = 8
  fits : ∀ r ∈ I.dynamicRelocations, ∀ a, I.newAddress r.1 = some a →
    a < 2 ^ (8 * I.codePointerSize)

/-- The words `out` hold the new addresses of the locations of the input, each once. -/
structure Rewritten (out : List Nat) : Prop where
  nodup : (Relr.decode I.codePointerSize I.dynamicRelrEntrySize 0 out).Nodup
  mem : ∀ a, a ∈ Relr.decode I.codePointerSize I.dynamicRelrEntrySize 0 out ↔
    ∃ l ∈ I.locations, I.newAddress l = some a

/-- The writer finds what the reader registered, or the same places among the other relative
relocations, and nothing else among these. -/
structure Found : Prop where
  relr : isRelative I.arch (getRelative I.arch) = true ∨
    ∀ l ∈ I.locations, ∀ a, I.newAddress l = some a →
      ∃ r ∈ I.dynamic, isRelative I.arch r.2 = true ∧ I.newAddress r.1 = some a
  others : ∀ r ∈ I.dynamic, isRelative I.arch r.2 = true → ∀ a, I.newAddress r.1 = some a →
    ∃ l ∈ I.locations, I.newAddress l = some a

variable {I}

theorem mem_foldr_emplace {a : Nat} {xs : List Nat} : a ∈ xs.foldr emplace [] ↔ a ∈ xs := by
  induction xs with
  | nil => rfl
  | cons x xs ih => rw [List.foldr_cons, mem_emplace, ih, List.mem_cons]

theorem foldr_emplace_pairwise (xs : List Nat) : (xs.foldr emplace []).Pairwise (· < ·) := by
  induction xs with
  | nil => exact List.Pairwise.nil
  | cons x xs ih => exact emplace_pairwise ih

theorem mem_relOffsets {a : Nat} :
    a ∈ I.relOffsets ↔
      (∃ r ∈ I.dynamic, isRelative I.arch r.2 = true ∧ I.newAddress r.1 = some a) ∨
        (isRelative I.arch (getRelative I.arch) = true ∧
          ∃ l ∈ I.locations, I.newAddress l = some a) := by
  unfold relOffsets dynamicRelocations
  rw [mem_foldr_emplace, List.mem_filterMap]
  constructor
  · rintro ⟨r, hr, ha⟩
    obtain ⟨hmem, hrel⟩ := List.mem_filter.mp hr
    rcases List.mem_append.mp hmem with hmem | hmem
    · exact Or.inl ⟨r, hmem, hrel, ha⟩
    · obtain ⟨l, hl, rfl⟩ := List.mem_map.mp hmem
      exact Or.inr ⟨hrel, l, hl, ha⟩
  · rintro (⟨r, hr, hrel, ha⟩ | ⟨hrel, l, hl, ha⟩)
    · exact ⟨r, List.mem_filter.mpr ⟨List.mem_append_left _ hr, hrel⟩, ha⟩
    · refine ⟨(l, getRelative I.arch), List.mem_filter.mpr ⟨?_, hrel⟩, ha⟩
      exact List.mem_append_right _ (List.mem_map_of_mem hl)

/-- **The rewritten section reads back** as the set of offsets. -/
theorem decode_patch (hwf : I.WellFormed) {out : List Nat}
    (h : I.patchELFAllocatableRelrSection = some out) :
    Relr.decode I.codePointerSize I.dynamicRelrEntrySize 0 out = I.relOffsets := by
  obtain ⟨hsize, hword, hfits⟩ := hwf
  unfold patchELFAllocatableRelrSection at h
  rw [hsize] at h ⊢
  simp only at h
  split at h
  next hok =>
    simp only [Bool.and_eq_true, List.all_eq_true, decide_eq_true_eq] at hok
    have hlt : ∀ a ∈ I.relOffsets, a < 2 ^ (8 * I.codePointerSize) := by
      intro a ha
      rcases mem_relOffsets.mp ha with ⟨r, hr, -, ha⟩ | ⟨-, l, hl, ha⟩
      · exact hfits r (List.mem_append_left _ hr) a ha
      · exact hfits (l, _) (List.mem_append_right _ (List.mem_map_of_mem hl)) a ha
    have hsorted : I.relOffsets.Pairwise (· < ·) := foldr_emplace_pairwise _
    obtain ⟨-, hwords, -⟩ := Relr.decode_encode_append hword (le_refl _) hok.1.1 hlt hsorted 0
    have hmap : (Relr.encode I.codePointerSize I.codePointerSize I.relOffsets.length
        I.relOffsets).map (· % 2 ^ (8 * I.codePointerSize)) = Relr.encode I.codePointerSize
          I.codePointerSize I.relOffsets.length I.relOffsets := by
      conv_rhs => rw [← List.map_id (Relr.encode _ _ _ _)]
      exact List.map_congr_left fun e he => Nat.mod_eq_of_lt (hwords e he)
    rw [← Option.some.inj h, hmap]
    exact Relr.decode_encode hword hok.1.1 hlt hsorted _
  next => exact absurd h (by simp)

/-- **No relocation is lost or gained** exactly when the writer finds what the reader
registered. -/
theorem rewritten_iff (hwf : I.WellFormed) {out : List Nat}
    (h : I.patchELFAllocatableRelrSection = some out) : I.Rewritten out ↔ I.Found := by
  have hdec := decode_patch hwf h
  constructor
  · intro hR
    have hmem : ∀ a, a ∈ I.relOffsets ↔ ∃ l ∈ I.locations, I.newAddress l = some a := by
      intro a
      rw [← hdec]
      exact hR.mem a
    constructor
    · rw [or_iff_not_imp_left]
      intro hrel l hl a ha
      rcases mem_relOffsets.mp ((hmem a).mpr ⟨l, hl, ha⟩) with hother | ⟨hrel', -⟩
      · exact hother
      · exact absurd hrel' hrel
    · intro r hr hrel a ha
      exact (hmem a).mp (mem_relOffsets.mpr (Or.inl ⟨r, hr, hrel, ha⟩))
  · rintro ⟨hrelr, hothers⟩
    constructor
    · rw [hdec]
      exact (foldr_emplace_pairwise _).nodup
    · intro a
      rw [hdec, mem_relOffsets]
      constructor
      · rintro (⟨r, hr, hrel, ha⟩ | ⟨-, hl⟩)
        · exact hothers r hr hrel a ha
        · exact hl
      · rintro ⟨l, hl, ha⟩
        rcases hrelr with hrel | hall
        · exact Or.inr ⟨hrel, l, hl, ha⟩
        · exact Or.inl (hall l hl a ha)

/-- A section `.data` at `0x12000` with two pointers to relocate, the second unaligned to the
first. -/
def twoPointers (arch : Arch) (w : Nat) : RelrInput where
  arch := arch
  codePointerSize := w
  dynamicRelrEntrySize := w
  relr := [0x12000, 0x1200a, 3]
  relrSectionSize := 4 * w
  dynamic := []
  sections := [{ name := ".data", address := 0x12000, size := 0x100, outputAddress := 0x22000 }]
  functions := []
  movedData := []

theorem twoPointers_fits {arch : Arch} {w : Nat} (new : List (Option Nat))
    (hnew : (twoPointers arch w).dynamicRelocations.map
      (fun r => (twoPointers arch w).newAddress r.1) = new)
    (hlt : ∀ a, some a ∈ new → a < 2 ^ (8 * w)) (hw : w = 4 ∨ w = 8) :
    (twoPointers arch w).WellFormed := by
  refine ⟨rfl, hw, ?_⟩
  intro r hr a ha
  apply hlt
  rw [← hnew, ← ha]
  exact List.mem_map_of_mem hr

theorem rewritten_aarch64 :
    ∃ out, (twoPointers .aarch64 8).patchELFAllocatableRelrSection = some out ∧
      (twoPointers .aarch64 8).Rewritten out := by
  have hwf : (twoPointers .aarch64 8).WellFormed := by
    refine twoPointers_fits [some 0x22000, some 0x2200a, some 0x22012] rfl ?_ (Or.inr rfl)
    intro a ha
    simp only [List.mem_cons, Option.some.injEq, List.not_mem_nil, or_false] at ha
    omega
  refine ⟨_, rfl, (rewritten_iff hwf rfl).mpr ⟨Or.inl rfl, ?_⟩⟩
  intro r hr
  exact absurd hr List.not_mem_nil

/-- **On RISC-V every relocation is lost**: the reader registers the type of x86-64. -/
theorem not_rewritten_riscv :
    ¬ ∀ (I : RelrInput) (out : List Nat), I.WellFormed →
      I.patchELFAllocatableRelrSection = some out → I.Rewritten out := by
  intro h
  have hwf : (twoPointers .riscv32 4).WellFormed := by
    refine twoPointers_fits [some 0x22000, some 0x2200a, some 0x2200e] rfl ?_ (Or.inl rfl)
    intro a ha
    simp only [List.mem_cons, Option.some.injEq, List.not_mem_nil, or_false] at ha
    omega
  have hR := h (twoPointers .riscv32 4) _ hwf rfl
  have hmem := (hR.mem 0x22000).mpr ⟨0x12000, by decide, rfl⟩
  exact absurd hmem (by decide)

end RelrInput

end RvLlvm.Bolt
