import RvLlvm.Support.Memory
import RvLlvm.Bolt.ProgramHeaders

/-!
# Patching the GOT

Model of `RewriteInstance::patchELFGOT` and `getNewFunctionAddress`
(`bolt/lib/Rewrite/RewriteInstance.cpp:5521-5554`, `5740-5747`). Files are byte memories. The loop
goes through the section in words of eight bytes, on RV32 as well, and writes each new address where
the word stood in the input.

* `patchEntries_at`, `patchEntries_of_not`: what the loop leaves in a word, and outside the words.
* `outputOffset_eq`: where the headers that `patchELFPHDRTable` writes map the GOT.
* `entryByEntry_iff`: the table is patched entry by entry exactly where the words fit the section,
  no pair of short entries is taken for one, and the data segment stays in place.
-/

namespace RvLlvm.Bolt

open RvLlvm.Support

/-- The fields of an input section header that the patching reads. -/
structure GOTSection where
  name : String
  addr : Nat
  offset : Nat
  size : Nat
  deriving DecidableEq

/-- What `patchELFGOT` reads: the sections and bytes of the input, and for each address the output
address of the function there (`getBinaryFunctionAtAddress`). `load` is the segment of the GOT. -/
structure GOTFile where
  wordsize : Nat
  R : Rewrite
  load : Phdr
  sections : List GOTSection
  input : Memory
  functions : Nat → Option Nat

namespace GOTFile

variable (F : GOTFile)

/-- `getNewFunctionAddress`; 0 stands for none. -/
def getNewFunctionAddress (oldAddress : Nat) : Nat :=
  match F.functions oldAddress with
  | none => 0
  | some outputAddress => outputAddress

/-- One turn of the loop, at the file offset of `GOTEntry`. -/
def patchEntry (got : GOTSection) (out : Memory) (i : Nat) : Memory :=
  let newAddress := F.getNewFunctionAddress (F.input.readNat (got.offset + 8 * i) 8)
  if newAddress = 0 then out else out.write (got.offset + 8 * i) (leBytes 8 newAddress)

/-- The turns of the loop: it goes on while `GOTEntry` is below the end of the section. -/
def turns (got : GOTSection) : Nat := (got.size + 7) / 8

/-- The first `n` turns. -/
def patchEntries (got : GOTSection) (out : Memory) : Nat → Memory
  | 0 => out
  | n + 1 => F.patchEntry got (patchEntries got out n) n

/-- The first section of the name. -/
def gotSection : Option GOTSection := F.sections.find? fun s => s.name == ".got"

/-- `patchELFGOT`, on the output written so far. -/
def patchELFGOT (out : Memory) : Memory :=
  match F.gotSection with
  | none => out
  | some got => F.patchEntries got out (turns got)

/-! ## What the loop leaves -/

variable {F} {got : GOTSection} {out : Memory}

variable {i : Nat}

/-- A turn changes no byte outside its word. -/
theorem patchEntry_of_not {a : Nat} (h : ¬ (got.offset + 8 * i ≤ a ∧ a < got.offset + 8 * i + 8)) :
    F.patchEntry got out i a = out a := by
  rw [patchEntry]
  split
  · rfl
  · exact Memory.write_of_not _ (by rwa [length_leBytes])

theorem patchEntries_of_not {n a : Nat} (h : ¬ (got.offset ≤ a ∧ a < got.offset + 8 * n)) :
    F.patchEntries got out n a = out a := by
  induction n with
  | zero => rfl
  | succ n ih => rw [patchEntries, patchEntry_of_not (by omega), ih (by omega)]

/-- The bytes of a word are those of its own turn. -/
theorem patchEntries_eq_patchEntry {n a : Nat} (hi : i < n)
    (ha : got.offset + 8 * i ≤ a ∧ a < got.offset + 8 * i + 8) :
    F.patchEntries got out n a = F.patchEntry got out i a := by
  induction n with
  | zero => exact absurd hi (Nat.not_lt_zero i)
  | succ n ih =>
    rw [patchEntries]
    by_cases heq : i = n
    · subst heq
      have hbefore : F.patchEntries got out i a = out a := patchEntries_of_not (by omega)
      unfold patchEntry
      split
      · exact hbefore
      · unfold Memory.write
        rw [if_pos ha.1, if_pos ha.1, hbefore]
    · rw [patchEntry_of_not (by omega)]
      exact ih (by omega)

/-- The word at `i` after the loop. -/
theorem patchEntries_at {n : Nat} (hi : i < n) :
    (F.patchEntries got out n).readNat (got.offset + 8 * i) 8 =
      if F.getNewFunctionAddress (F.input.readNat (got.offset + 8 * i) 8) = 0 then
        out.readNat (got.offset + 8 * i) 8
      else F.getNewFunctionAddress (F.input.readNat (got.offset + 8 * i) 8) % 256 ^ 8 := by
  have hturn : (F.patchEntries got out n).readNat (got.offset + 8 * i) 8 =
      (F.patchEntry got out i).readNat (got.offset + 8 * i) 8 :=
    Memory.readNat_congr fun j hj => patchEntries_eq_patchEntry hi (by omega)
  rw [hturn, patchEntry]
  split
  · rfl
  · exact Memory.readNat_write _ _ _ _

/-! ## Where the output maps the GOT -/

variable (F)

/-- The header of the segment in the output: the 64-bit half of `patchELFPHDRTable` copies loads. -/
def outputPhdr : Phdr := if F.wordsize = 4 then F.R.editPhdr F.load else F.load

/-- How far the segment moves down. -/
def shift : Nat := if F.wordsize = 4 then F.R.shift F.load else 0

/-- The file offset at which the output headers map an address of the segment. -/
def outputOffset (addr : Int) : Int := F.outputPhdr.offset + (addr - F.outputPhdr.vaddr)

/-- The GOT's address in the output. -/
def gotAddress (got : GOTSection) : Int := got.addr - F.shift

/-- The file offset of the GOT in the output. -/
def gotOffset (got : GOTSection) : Nat := (F.outputOffset (F.gotAddress got)).toNat

/-- A pointer that holds the address of a function with another one in the output. -/
def Moved (pointer : Nat) : Prop :=
  F.getNewFunctionAddress pointer ≠ 0 ∧ F.getNewFunctionAddress pointer ≠ pointer

instance (pointer : Nat) : Decidable (F.Moved pointer) := inferInstanceAs (Decidable (_ ∧ _))

/-- **The file around the GOT**: it lies in its segment, which does not move below the start of the
file or of memory; pointers are addresses of the file's class; and the output has the GOT's contents
where its headers map them. -/
structure WellFormed (got : GOTSection) (out : Memory) : Prop where
  wordsize : F.wordsize = 4 ∨ F.wordsize = 8
  isLoad : F.load.isLoad = true
  class32 : F.wordsize = 4 →
    F.load.vaddr < 2 ^ 32 ∧ F.load.offset < 2 ^ 32 ∧ F.load.filesz < 2 ^ 32 ∧ F.load.memsz < 2 ^ 32
  shift_le : F.shift ≤ F.load.vaddr ∧ F.shift ≤ F.load.offset
  inLoad : F.load.vaddr ≤ got.addr ∧ got.offset + F.load.vaddr = F.load.offset + got.addr
  pointers : ∀ a b, F.functions a = some b → a < 256 ^ F.wordsize ∧ b < 256 ^ F.wordsize
  contents : ∀ k < got.size, out (F.gotOffset got + k) = F.input (got.offset + k)

variable {F}

/-- The output headers map the GOT `shift` below its place in the input. -/
theorem outputOffset_eq (hwf : F.WellFormed got out) (k : Int) :
    F.outputOffset (F.gotAddress got + k) = got.offset - F.shift + k := by
  obtain ⟨hvaddr, hoffset⟩ := hwf.shift_le
  obtain ⟨_, hplace⟩ := hwf.inLoad
  have hplace' : (got.offset : Int) + F.load.vaddr =
    F.load.offset + got.addr := by exact_mod_cast hplace
  have hheader : (F.outputPhdr.vaddr : Int) = F.load.vaddr - F.shift ∧
      (F.outputPhdr.offset : Int) = F.load.offset - F.shift := by
    unfold outputPhdr
    unfold shift at hvaddr hoffset ⊢
    split
    · next h32 =>
      rw [if_pos h32] at hvaddr hoffset
      obtain ⟨hv, ho, hf, hm⟩ := hwf.class32 h32
      obtain ⟨_, hva, hof, _, _⟩ := Rewrite.editLoad_eq (R := F.R) hwf.isLoad hv ho hf hm
      rw [hva, hof]
      unfold word
      omega
    · simp
  unfold outputOffset gotAddress
  omega

theorem gotOffset_eq (hwf : F.WellFormed got out) :
    F.gotOffset got + F.shift = got.offset := by
  have h := outputOffset_eq hwf 0
  obtain ⟨hvaddr, hoffset⟩ := hwf.shift_le
  obtain ⟨haddr, hplace⟩ := hwf.inLoad
  rw [Int.add_zero, Int.add_zero] at h
  rw [gotOffset, h]
  omega

/-! ## Entry by entry -/

variable (F)

/-- **Patched entry by entry**: every read stays in the section, every word written is the one that
the output headers map at the entry's address, the entries of moved functions hold their new
addresses, and nothing else has changed. -/
structure EntryByEntry (got : GOTSection) (out : Memory) : Prop where
  reads : ∀ i < turns got, 8 * i + 8 ≤ got.size
  placed : ∀ i < turns got, F.getNewFunctionAddress (F.input.readNat (got.offset + 8 * i) 8) ≠ 0 →
    F.outputOffset (F.gotAddress got + (8 * i : Nat)) = (got.offset + 8 * i : Nat)
  moved : ∀ i, F.wordsize * i + F.wordsize ≤ got.size →
    F.Moved (F.input.readNat (got.offset + F.wordsize * i) F.wordsize) →
    (F.patchELFGOT out).readNat (F.gotOffset got + F.wordsize * i) F.wordsize =
      F.getNewFunctionAddress (F.input.readNat (got.offset + F.wordsize * i) F.wordsize)
  kept : ∀ i, F.wordsize * i + F.wordsize ≤ got.size →
    ¬ F.Moved (F.input.readNat (got.offset + F.wordsize * i) F.wordsize) →
    (F.patchELFGOT out).readNat (F.gotOffset got + F.wordsize * i) F.wordsize =
      out.readNat (F.gotOffset got + F.wordsize * i) F.wordsize
  outside : ∀ a, ¬ (F.gotOffset got ≤ a ∧ a < F.gotOffset got + got.size) →
    F.patchELFGOT out a = out a

/-- The words fit the section; of two short entries in a word, the second holds no moved function,
and the first one only in front of zero; and the segment stays in place, unless there is nothing to
patch. -/
def Patchable (got : GOTSection) : Prop :=
  got.size % 8 = 0 ∧
  (F.wordsize = 4 → ∀ i, 8 * i + 8 ≤ got.size →
    ¬ F.Moved (F.input.readNat (got.offset + 8 * i + 4) 4) ∧
    (F.Moved (F.input.readNat (got.offset + 8 * i) 4) →
      F.input.readNat (got.offset + 8 * i + 4) 4 = 0)) ∧
  (F.shift = 0 ∨ ∀ i, 8 * i + 8 ≤ got.size →
    F.getNewFunctionAddress (F.input.readNat (got.offset + 8 * i) 8) = 0)

variable {F}

theorem patchELFGOT_eq (hgot : F.gotSection = some got) (out : Memory) :
    F.patchELFGOT out = F.patchEntries got out (turns got) := by
  rw [patchELFGOT, hgot]

/-- No function lies at, or goes to, an address beyond the file's class. -/
theorem getNewFunctionAddress_lt (hwf : F.WellFormed got out) (v : Nat) :
    F.getNewFunctionAddress v < 256 ^ F.wordsize := by
  unfold getNewFunctionAddress
  cases h : F.functions v with
  | none => positivity
  | some b => exact (hwf.pointers v b h).2

theorem getNewFunctionAddress_of_le (hwf : F.WellFormed got out) {v : Nat}
    (h : 256 ^ F.wordsize ≤ v) : F.getNewFunctionAddress v = 0 := by
  unfold getNewFunctionAddress
  cases hv : F.functions v with
  | none => rfl
  | some b => exact absurd (hwf.pointers v b hv).1 (Nat.not_lt.mpr h)

/-- The output reads as the input does, entry for entry. -/
theorem readNat_contents (hwf : F.WellFormed got out) {k w : Nat} (h : k + w ≤ got.size) :
    out.readNat (F.gotOffset got + k) w = F.input.readNat (got.offset + k) w :=
  Memory.readNat_congr fun i hi => by
    rw [Nat.add_assoc, Nat.add_assoc]
    exact hwf.contents (k + i) (by omega)

/-- A word of two short entries. -/
theorem readNat_pair (m : Memory) (d : Nat) :
    m.readNat d 8 = m.readNat d 4 + 256 ^ 4 * m.readNat (d + 4) 4 :=
  Memory.readNat_add m d 4 4

/-- Where the segment stays in place, a word of the GOT holds what its turn has left. -/
theorem word_patched (hwf : F.WellFormed got out) (hgot : F.gotSection = some got)
    (hplace : F.shift = 0) (hi : 8 * i + 8 ≤ got.size) :
    (F.patchELFGOT out).readNat (F.gotOffset got + 8 * i) 8 =
      if F.getNewFunctionAddress (F.input.readNat (got.offset + 8 * i) 8) = 0 then
        F.input.readNat (got.offset + 8 * i) 8
      else F.getNewFunctionAddress (F.input.readNat (got.offset + 8 * i) 8) := by
  have hoffset : F.gotOffset got = got.offset := by
    have h := gotOffset_eq hwf
    omega
  have hlt : F.getNewFunctionAddress (F.input.readNat (got.offset + 8 * i) 8) < 256 ^ 8 :=
    lt_of_lt_of_le (getNewFunctionAddress_lt hwf _)
      (Nat.pow_le_pow_right (by decide) (by rcases hwf.wordsize with h | h <;> omega))
  have hcontents := readNat_contents hwf hi
  rw [hoffset] at hcontents
  rw [patchELFGOT_eq hgot, hoffset, patchEntries_at (by unfold turns; omega), hcontents,
    Nat.mod_eq_of_lt hlt]

/-- Where nothing is to be patched, the output stays as it is. -/
theorem patchELFGOT_of_none (hgot : F.gotSection = some got) (hdvd : got.size % 8 = 0)
    (hnone : ∀ i, 8 * i + 8 ≤ got.size →
      F.getNewFunctionAddress (F.input.readNat (got.offset + 8 * i) 8) = 0) :
    F.patchELFGOT out = out := by
  rw [patchELFGOT_eq hgot]
  have hall : ∀ n ≤ turns got, F.patchEntries got out n = out := by
    intro n
    induction n with
    | zero => exact fun _ => rfl
    | succ n ih =>
      intro hn
      unfold turns at hn
      rw [patchEntries, ih (by unfold turns; omega), patchEntry, hnone n (by omega)]
      rfl
  exact hall _ (Nat.le_refl _)

/-- What a word holds after the loop, wherever the segment goes. -/
theorem word_of_patchable (hwf : F.WellFormed got out) (hgot : F.gotSection = some got)
    (hdvd : got.size % 8 = 0) (hplaced : F.shift = 0 ∨ ∀ i, 8 * i + 8 ≤ got.size →
      F.getNewFunctionAddress (F.input.readNat (got.offset + 8 * i) 8) = 0)
    (hi : 8 * i + 8 ≤ got.size) :
    (F.patchELFGOT out).readNat (F.gotOffset got + 8 * i) 8 =
      if F.getNewFunctionAddress (F.input.readNat (got.offset + 8 * i) 8) = 0 then
        F.input.readNat (got.offset + 8 * i) 8
      else F.getNewFunctionAddress (F.input.readNat (got.offset + 8 * i) 8) := by
  rcases hplaced with hplace | hnone
  · exact word_patched hwf hgot hplace hi
  · rw [patchELFGOT_of_none hgot hdvd hnone, hnone i hi, if_pos rfl, readNat_contents hwf hi]

/-- What a turn makes of a pointer is what the pointer should become. -/
theorem newEntry_eq (F : GOTFile) (v : Nat) :
    (if F.getNewFunctionAddress v = 0 then v else F.getNewFunctionAddress v) =
      if F.Moved v then F.getNewFunctionAddress v else v := by
  by_cases hnone : F.getNewFunctionAddress v = 0
  · rw [if_pos hnone, if_neg fun h => h.1 hnone]
  · rw [if_neg hnone]
    split
    · rfl
    · next h => exact Classical.byContradiction fun hne => h ⟨hnone, hne⟩

/-- The two halves of a word of short entries, where the halves of the input are `lo` and `hi`. -/
theorem halves_patched (hwf : F.WellFormed got out) (h32 : F.wordsize = 4) {lo hi : Nat}
    (hlo : lo < 256 ^ 4) {m : Memory} {d : Nat}
    (hword : m.readNat d 8 =
      if F.getNewFunctionAddress (lo + 256 ^ 4 * hi) = 0 then lo + 256 ^ 4 * hi
      else F.getNewFunctionAddress (lo + 256 ^ 4 * hi)) :
    (hi ≠ 0 → m.readNat d 4 = lo ∧ m.readNat (d + 4) 4 = hi) ∧
    (hi = 0 → m.readNat (d + 4) 4 = 0 ∧ m.readNat d 4 =
      if F.getNewFunctionAddress lo = 0 then lo else F.getNewFunctionAddress lo) := by
  have hlow := m.readNat_lt d 4
  rw [readNat_pair] at hword
  constructor
  · intro hne
    rw [if_pos (getNewFunctionAddress_of_le hwf (by rw [h32]; omega))] at hword
    omega
  · intro hzero
    have hnew := getNewFunctionAddress_lt hwf lo
    rw [h32] at hnew
    simp only [hzero, Nat.mul_zero, Nat.add_zero] at hword
    by_cases hnone : F.getNewFunctionAddress lo = 0
    · rw [if_pos hnone] at hword ⊢
      omega
    · rw [if_neg hnone] at hword ⊢
      omega

/-- **One short entry after the loop.** The second of a pair that is patched holds zero before and
after. -/
theorem pair_iff (hwf : F.WellFormed got out) (h32 : F.wordsize = 4) {lo hi : Nat}
    (hlo : lo < 256 ^ 4) {m : Memory} {d : Nat}
    (hword : m.readNat d 8 =
      if F.getNewFunctionAddress (lo + 256 ^ 4 * hi) = 0 then lo + 256 ^ 4 * hi
      else F.getNewFunctionAddress (lo + 256 ^ 4 * hi)) :
    (m.readNat d 4 = (if F.Moved lo then F.getNewFunctionAddress lo else lo) ∧
      m.readNat (d + 4) 4 = if F.Moved hi then F.getNewFunctionAddress hi else hi) ↔
    ¬ F.Moved hi ∧ (F.Moved lo → hi = 0) := by
  obtain ⟨hpos, hzero⟩ := halves_patched hwf h32 hlo hword
  have hkept : ∀ v, v = (if F.Moved v then F.getNewFunctionAddress v else v) ↔ ¬ F.Moved v := by
    intro v
    split
    · next h => exact ⟨fun heq => absurd heq.symm h.2, fun hn => absurd h hn⟩
    · next h => exact ⟨fun _ => h, fun _ => rfl⟩
  by_cases hhi : hi = 0
  · obtain ⟨hsecond, hfirst⟩ := hzero hhi
    rw [hfirst, newEntry_eq, hsecond, ← hhi, hkept]
    exact ⟨fun h => ⟨h.2, fun _ => rfl⟩, fun h => ⟨rfl, h.1⟩⟩
  · obtain ⟨hfirst, hsecond⟩ := hpos hhi
    rw [hfirst, hsecond, hkept, hkept]
    exact ⟨fun h => ⟨h.2, fun hm => absurd hm h.1⟩, fun h => ⟨fun hm => hhi (h.2 hm), h.1⟩⟩

/-- The value an entry should have. -/
theorem EntryByEntry.entry (hwf : F.WellFormed got out) (h : F.EntryByEntry got out)
    (hi : F.wordsize * i + F.wordsize ≤ got.size) :
    (F.patchELFGOT out).readNat (F.gotOffset got + F.wordsize * i) F.wordsize =
      if F.Moved (F.input.readNat (got.offset + F.wordsize * i) F.wordsize) then
        F.getNewFunctionAddress (F.input.readNat (got.offset + F.wordsize * i) F.wordsize)
      else F.input.readNat (got.offset + F.wordsize * i) F.wordsize := by
  split
  · next hm => exact h.moved i hi hm
  · next hm => rw [h.kept i hi hm, readNat_contents hwf hi]

/-- On a file of short pointers, the words of the table are patched as pairs. -/
theorem patchable_pair (hwf : F.WellFormed got out) (hgot : F.gotSection = some got)
    (h32 : F.wordsize = 4) (h : F.EntryByEntry got out) (hplaced : F.shift = 0 ∨
      ∀ i, 8 * i + 8 ≤ got.size → F.getNewFunctionAddress
        (F.input.readNat (got.offset + 8 * i) 8) = 0) (hdvd : got.size % 8 = 0)
    (hi : 8 * i + 8 ≤ got.size) :
    ¬ F.Moved (F.input.readNat (got.offset + 8 * i + 4) 4) ∧
      (F.Moved (F.input.readNat (got.offset + 8 * i) 4) →
        F.input.readNat (got.offset + 8 * i + 4) 4 = 0) := by
  have hword := word_of_patchable hwf hgot hdvd hplaced hi
  rw [readNat_pair F.input] at hword
  refine (pair_iff hwf h32 (F.input.readNat_lt _ 4) hword).mp ⟨?_, ?_⟩
  · have hfirst := h.entry hwf (i := 2 * i) (by rw [h32]; omega)
    rwa [h32, ← Nat.mul_assoc] at hfirst
  · have hsecond := h.entry hwf (i := 2 * i + 1) (by rw [h32]; omega)
    rwa [h32, Nat.mul_add, ← Nat.mul_assoc, ← Nat.add_assoc, ← Nat.add_assoc] at hsecond

theorem patchable_of_entryByEntry (hwf : F.WellFormed got out) (hgot : F.gotSection = some got)
    (h : F.EntryByEntry got out) : F.Patchable got := by
  have hdvd : got.size % 8 = 0 := by
    by_contra hne
    have hlast := h.reads (got.size / 8) (by unfold turns; omega)
    omega
  have hplaced : F.shift = 0 ∨ ∀ i, 8 * i + 8 ≤ got.size →
      F.getNewFunctionAddress (F.input.readNat (got.offset + 8 * i) 8) = 0 := by
    by_cases hshift : F.shift = 0
    · exact Or.inl hshift
    · refine Or.inr fun i hi => Classical.byContradiction fun hne => ?_
      have hi' := h.placed i (by unfold turns; omega) hne
      rw [outputOffset_eq hwf] at hi'
      omega
  exact ⟨hdvd, fun h32 i hi => patchable_pair hwf hgot h32 h hplaced hdvd hi, hplaced⟩

theorem entryByEntry_of_patchable (hwf : F.WellFormed got out) (hgot : F.gotSection = some got)
    (h : F.Patchable got) : F.EntryByEntry got out := by
  obtain ⟨hdvd, hpairs, hplaced⟩ := h
  -- what each entry holds, by the width of a pointer
  have hentry : ∀ i, F.wordsize * i + F.wordsize ≤ got.size →
      (F.patchELFGOT out).readNat (F.gotOffset got + F.wordsize * i) F.wordsize =
        if F.Moved (F.input.readNat (got.offset + F.wordsize * i) F.wordsize) then
          F.getNewFunctionAddress (F.input.readNat (got.offset + F.wordsize * i) F.wordsize)
        else F.input.readNat (got.offset + F.wordsize * i) F.wordsize := by
    intro i hi
    rcases hwf.wordsize with h32 | h64
    · have hword := word_of_patchable hwf hgot hdvd hplaced (i := i / 2) (by rw [h32] at hi; omega)
      rw [readNat_pair F.input] at hword
      obtain ⟨hfirst, hsecond⟩ := (pair_iff hwf h32 (F.input.readNat_lt _ 4) hword).mpr
        (hpairs h32 (i / 2) (by rw [h32] at hi; omega))
      rw [h32]
      rcases Nat.even_or_odd' i with ⟨j, rfl | rfl⟩
      · rwa [Nat.mul_div_cancel_left j two_pos, show 8 * j = 4 * (2 * j) by omega] at hfirst
      · rwa [show (2 * j + 1) / 2 = j by omega, Nat.add_assoc, Nat.add_assoc,
          show 8 * j + 4 = 4 * (2 * j + 1) by omega] at hsecond
    · rw [h64] at hi ⊢
      rw [word_of_patchable hwf hgot hdvd hplaced hi]
      exact F.newEntry_eq _
  refine ⟨fun i hi => ?_, fun i hi hne => ?_, fun i hi hm => ?_, fun i hi hm => ?_, fun a ha => ?_⟩
  · unfold turns at hi
    omega
  · rw [outputOffset_eq hwf]
    rcases hplaced with hplace | hnone
    · rw [hplace]
      omega
    · unfold turns at hi
      exact absurd (hnone i (by omega)) hne
  · rw [hentry i hi, if_pos hm]
  · rw [hentry i hi, if_neg hm, readNat_contents hwf hi]
  · rcases hplaced with hplace | hnone
    · have hoffset := gotOffset_eq hwf
      rw [patchELFGOT_eq hgot]
      exact patchEntries_of_not (by unfold turns; omega)
    · rw [patchELFGOT_of_none hgot hdvd hnone]

/-- **The GOT is patched entry by entry exactly where it is `Patchable`.** -/
theorem entryByEntry_iff (hwf : F.WellFormed got out) (hgot : F.gotSection = some got) :
    F.EntryByEntry got out ↔ F.Patchable got :=
  ⟨patchable_of_entryByEntry hwf hgot, entryByEntry_of_patchable hwf hgot⟩

/-! ## A table of two entries -/

/-- A file with 16 bytes of GOT at the start of its data segment, which holds `entries`; the
functions at `0x11000` and `0x11100` move, and the code does not shrink. -/
def twoEntries (wordsize : Nat) (entries : List UInt8) : GOTFile where
  wordsize := wordsize
  R := { Rewrite.smallRewrite [] with sizeChange := 0 }
  load := ⟨.load, 0x2000, 0x13000, 0x13000, 0x100, 0x200, true, true, false, 0x1000⟩
  sections := [⟨".got", 0x13000, 0x2000, entries.length⟩]
  input := Memory.write (fun _ => 0) 0x2000 entries
  functions a :=
    if a = 0x11000 then some 0x30000 else if a = 0x11100 then some 0x30100 else none

/-- The two addresses as long pointers. -/
def longEntries : List UInt8 := leBytes 8 0x11000 ++ leBytes 8 0x11100

/-- The two addresses as short pointers. -/
def shortEntries : List UInt8 := leBytes 4 0x11000 ++ leBytes 4 0x11100

theorem entryByEntry_longEntries :
    (twoEntries 8 longEntries).EntryByEntry ⟨".got", 0x13000, 0x2000, 16⟩
        (twoEntries 8 longEntries).input ↔
      (twoEntries 8 longEntries).Patchable ⟨".got", 0x13000, 0x2000, 16⟩ := by
  refine entryByEntry_iff ⟨Or.inr rfl, rfl, fun h => absurd h (by decide), by decide, by decide,
    fun a b h => ?_, fun k hk => ?_⟩ rfl
  · simp only [twoEntries] at h ⊢
    split at h
    · obtain rfl := Option.some.inj h
      omega
    · split at h
      · obtain rfl := Option.some.inj h
        omega
      · exact absurd h (by simp)
  · rw [show (twoEntries 8 longEntries).gotOffset ⟨".got", 0x13000, 0x2000, 16⟩ = 0x2000 by decide]

/-- The two short entries make one word, which is no function's address. -/
theorem not_entryByEntry_shortEntries :
    ¬ (twoEntries 4 shortEntries).EntryByEntry ⟨".got", 0x13000, 0x2000, 8⟩
      (twoEntries 4 shortEntries).input := by
  intro h
  have hfirst := h.moved 0 (by decide) (by decide)
  exact absurd hfirst (by decide)

end GOTFile

end RvLlvm.Bolt
