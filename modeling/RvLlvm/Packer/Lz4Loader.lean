import Mathlib.Data.Nat.Bitwise
import RvLlvm.Support.Lz4
import RvLlvm.Support.Machine

/-!
# The LZ4 loader stub

The machine code of `loaderTemplate` (`lld/ELF/RISCVLZ4Packer.cpp:29-44`), patched with the size of
the mapping, the entry and the size of the block (`:186-200`), run on a machine that decodes it from
memory. The stub maps memory at `0x10000`, decodes the block that follows it to there and jumps.

* `SafeStep`: a step inside the stub that loads from the stub, the block or the output only.
* `step_opImm` and its kin: one step for each kind of instruction in the listing.
* `run_copy`, `run_extend`: the two inner loops, which copy bytes and read the rest of a length.
-/

namespace RvLlvm.Packer.Lz4

open RvLlvm.Support RvLlvm.Support.Rv RvLlvm.Support.Lz4

/-- `loaderTemplate`. -/
def loaderTemplate : List UInt8 :=
  [0x41, 0x65, 0x97, 0x05, 0x00, 0x00, 0x93, 0x85, 0xA5, 0x09, 0x8C, 0x41,
    0x1D, 0x46, 0x93, 0x06, 0x20, 0x03, 0x7D, 0x57, 0x81, 0x47, 0x93, 0x08,
    0xE0, 0x0D, 0x73, 0x00, 0x00, 0x00, 0x97, 0x02, 0x00, 0x00, 0x93, 0x82,
    0x22, 0x08, 0x83, 0xA2, 0x02, 0x00, 0x17, 0x05, 0x00, 0x00, 0x13, 0x05,
    0xA5, 0x07, 0xC1, 0x65, 0x10, 0x41, 0x11, 0x05, 0x2A, 0x96, 0x03, 0x48,
    0x05, 0x00, 0x05, 0x05, 0x13, 0x57, 0x48, 0x00, 0x19, 0xC7, 0x35, 0x20,
    0xAA, 0x86, 0x3D, 0x28, 0x36, 0x85, 0x63, 0x51, 0xC5, 0x02, 0x83, 0x47,
    0x05, 0x00, 0xB3, 0x86, 0xF5, 0x40, 0x83, 0x47, 0x15, 0x00, 0x09, 0x05,
    0xA2, 0x07, 0x9D, 0x8E, 0x13, 0x77, 0xF8, 0x00, 0x29, 0x20, 0x11, 0x07,
    0x31, 0x28, 0xF1, 0xB7, 0x82, 0x82, 0x93, 0x47, 0xF7, 0x00, 0x81, 0xEB,
    0x83, 0x47, 0x05, 0x00, 0x05, 0x05, 0x3E, 0x97, 0x93, 0xC7, 0xF7, 0x0F,
    0xF5, 0xDB, 0x82, 0x80, 0x83, 0xC7, 0x06, 0x00, 0x85, 0x06, 0x23, 0x80,
    0xF5, 0x00, 0x85, 0x05, 0x7D, 0x17, 0x6D, 0xFB, 0x82, 0x80, 0x01, 0x00,
    0x66, 0x66, 0x55, 0x55, 0x22, 0x22, 0x11, 0x11, 0x44, 0x44, 0x33, 0x33]

/-- The code of the template: offset, instruction and length. -/
def listing : List (Nat × Instr × Nat) :=
  [ -- the mapping
    (0, .lui 10 0x10000, 2), (2, .auipc 11 0, 4), (6, .opImm .addi 11 11 154, 4),
    (10, .lw 11 11 0, 2), (12, .opImm .addi 12 0 7, 2), (14, .opImm .addi 13 0 50, 4),
    (18, .opImm .addi 14 0 (-1), 2), (20, .opImm .addi 15 0 0, 2), (22, .opImm .addi 17 0 222, 4),
    (26, .ecall, 4),
    -- entry, source, destination and the end of the source
    (30, .auipc 5 0, 4), (34, .opImm .addi 5 5 130, 4), (38, .lw 5 5 0, 4), (42, .auipc 10 0, 4),
    (46, .opImm .addi 10 10 122, 4), (50, .lui 11 0x10000, 2), (52, .lw 12 10 0, 2),
    (54, .opImm .addi 10 10 4, 2), (56, .add 12 12 10, 2),
    -- the literals of a sequence, and the end test
    (58, .lbu 16 10 0, 4), (62, .opImm .addi 10 10 1, 2), (64, .opImm .srli 14 16 4, 4),
    (68, .branch .eq 14 0 14, 2), (70, .jal 1 44, 2), (72, .add 13 0 10, 2), (74, .jal 1 62, 2),
    (76, .add 10 0 13, 2), (78, .branch .ge 10 12 34, 4),
    -- the match of a sequence
    (82, .lbu 15 10 0, 4), (86, .sub 13 11 15, 4), (90, .lbu 15 10 1, 4),
    (94, .opImm .addi 10 10 2, 2), (96, .opImm .slli 15 15 8, 2), (98, .sub 13 13 15, 2),
    (100, .opImm .andi 14 16 15, 4), (104, .jal 1 10, 2), (106, .opImm .addi 14 14 4, 2),
    (108, .jal 1 28, 2), (110, .jal 0 (-52), 2), (112, .jalr 0 5 0, 2),
    -- the rest of a length
    (114, .opImm .xori 15 14 15, 4), (118, .branch .ne 15 0 16, 2), (120, .lbu 15 10 0, 4),
    (124, .opImm .addi 10 10 1, 2), (126, .add 14 14 15, 2), (128, .opImm .xori 15 15 255, 4),
    (132, .branch .eq 15 0 (-12), 2), (134, .jalr 0 1 0, 2),
    -- the copy
    (136, .lbu 15 13 0, 4), (140, .opImm .addi 13 13 1, 2), (142, .sb 15 11 0, 4),
    (146, .opImm .addi 11 11 1, 2), (148, .opImm .addi 14 14 (-1), 2),
    (150, .branch .ne 14 0 (-14), 2), (152, .jalr 0 1 0, 2)]

/-- The code of the stub, apart from a memory. -/
def code : Memory := fun i => loaderTemplate.getD i 0

/-- The listing is what the bytes decode to. -/
theorem fetch_listing : ∀ e ∈ listing, fetch code e.1 = some e.2 := by decide

theorem fetch_code {k : Nat} {i : Instr × Nat} (h : listing.lookup k = some i) :
    fetch code k = some i := by
  obtain ⟨l₁, l₂, hsplit, -⟩ := List.lookup_eq_some_iff.mp h
  refine fetch_listing (k, i) ?_
  rw [hsplit]
  exact List.mem_append_right _ List.mem_cons_self

theorem listing_bounds : ∀ e ∈ listing, e.1 + 4 ≤ 156 ∧ e.2.2 ≤ 4 := by decide

theorem bounds_of_lookup {k n : Nat} {i : Instr} (h : listing.lookup k = some (i, n)) :
    k + 4 ≤ 156 ∧ n ≤ 4 := by
  obtain ⟨l₁, l₂, hsplit, -⟩ := List.lookup_eq_some_iff.mp h
  refine listing_bounds (k, i, n) ?_
  rw [hsplit]
  exact List.mem_append_right _ List.mem_cons_self

/-- The loader once patched. -/
def loader (mmapSize destAddr dataLen : Nat) : List UInt8 :=
  loaderTemplate.take 156 ++ (leBytes 4 mmapSize ++ (leBytes 4 destAddr ++ leBytes 4 dataLen))

/-- `ecall` with the number of `mmap`: fixed anonymous memory, which holds zeros. -/
def mmap (s : State) : Option State :=
  if s.x 17 = 222 then some { s with mem := s.mem.fill (s.x 10) 0 (s.x 11) } else none

/-- A patched loader in memory at `base`, with its block behind it. -/
structure Stub where
  base : Nat
  mmapSize : Nat
  entry : Nat
  block : List UInt8
  deriving DecidableEq

namespace Stub

variable (S : Stub)

/-- The bytes of the loader and the block. -/
def bytes : List UInt8 := loader S.mmapSize S.entry S.block.length ++ S.block

/-- The end of the block. -/
def stop : Nat := S.base + 168 + S.block.length

/-- The stub is in memory. -/
def Loaded (m : Memory) : Prop := ∀ i < S.bytes.length, m (S.base + i) = S.bytes.getD i 0

/-- The stub lies above the mapping and below 4 GiB, the entry is an address outside its code. -/
structure Fits : Prop where
  even : S.base % 2 = 0
  above : 0x10000 + S.mmapSize ≤ S.base
  below : S.stop < 2 ^ 32
  entry_even : S.entry % 2 = 0
  entry_lt : S.entry < 2 ^ 32
  entry_outside : S.entry < S.base ∨ S.base + 154 ≤ S.entry

/-- The address may be loaded from: it is in the stub, or in the output up to `a1`. -/
def Readable (s : State) (a : Nat) : Prop :=
  (S.base ≤ a ∧ a < S.stop) ∨ (0x10000 ≤ a ∧ a < s.x 11)

/-- A step of the stub: one inside its code that loads from readable addresses. -/
structure SafeStep (s t : State) : Prop where
  inside : S.base ≤ s.pc ∧ s.pc < S.base + 154
  reads : ∀ a ∈ reads s, S.Readable s a
  step : step mmap s = some t

/-- A run of such steps. -/
abbrev Runs : State → State → Prop := Relation.ReflTransGen S.SafeStep

variable {S}

/-! ## Steps -/

theorem length_loaderTemplate : loaderTemplate.length = 168 := by rfl

theorem length_loader (a b c : Nat) : (loader a b c).length = 168 := by
  simp only [loader, List.length_append, List.length_take, length_leBytes, length_loaderTemplate]
  rfl

theorem length_bytes : S.bytes.length = 168 + S.block.length := by
  rw [bytes, List.length_append, length_loader]

variable {bs : List UInt8} {m : Memory} {p : Nat}

theorem getD_append_left {as : List UInt8} {i : Nat} (h : i < as.length) :
    (as ++ bs).getD i 0 = as.getD i 0 := by
  rw [List.getD_eq_getElem?_getD, List.getElem?_append_left h, List.getD_eq_getElem?_getD]

theorem getD_append_right (as bs : List UInt8) (i : Nat) :
    (as ++ bs).getD (as.length + i) 0 = bs.getD i 0 := by
  rw [List.getD_eq_getElem?_getD, List.getElem?_append_right (Nat.le_add_right _ _),
    Nat.add_sub_cancel_left, List.getD_eq_getElem?_getD]

theorem Loaded.fetch (h : S.Loaded m) {k : Nat} (hk : k + 4 ≤ 156) :
    fetch m (S.base + k) = fetch code k := by
  apply fetch_congr
  intro i hi
  have hlen := length_bytes (S := S)
  have htake : (loaderTemplate.take 156).length = 156 := by
    rw [List.length_take, length_loaderTemplate]
    rfl
  rw [Nat.add_assoc, h (k + i) (by omega), code, bytes, loader, List.append_assoc,
    getD_append_left (by omega), List.getD_eq_getElem?_getD, List.getElem?_take_of_lt (by omega),
    List.getD_eq_getElem?_getD]

theorem word_eq {z : Int} {n : Nat} (h : z = n) (hn : n < 2 ^ 32) : word z = n := by
  rw [h, word_of_lt hn]

section Steps

variable {x : Regs} {m : Memory} {k n rd r₁ r₂ : Nat} {imm : Int}

/-- **A step of the code**: what the instruction at `k` does. -/
theorem SafeStep.of_exec (h : S.Loaded m) {i : Instr} (hl : listing.lookup k = some (i, n))
    {t : State} (hexec : exec mmap i n ⟨x, m, S.base + k⟩ = some t)
    (hreads : ∀ a ∈ i.reads ⟨x, m, S.base + k⟩, S.Readable ⟨x, m, S.base + k⟩ a) :
    S.SafeStep ⟨x, m, S.base + k⟩ t := by
  have hk := (bounds_of_lookup hl).1
  have hfetch : Rv.fetch m (S.base + k) = some (i, n) := (h.fetch hk).trans (fetch_code hl)
  refine ⟨⟨Nat.le_add_right _ _, ?_⟩, ?_, ?_⟩
  · simp only
    omega
  · simp only [Rv.reads, hfetch]
    exact hreads
  · simp only [Rv.step, hfetch, Option.bind_some]
    exact hexec

/-- Where the next instruction is. -/
theorem next_eq (hf : S.Fits) {i : Instr} (hl : listing.lookup k = some (i, n)) :
    word ((S.base + k : Nat) + n) = S.base + (k + n) := by
  obtain ⟨hk, hn⟩ := bounds_of_lookup hl
  have := hf.below
  unfold stop at this
  exact word_eq (by push_cast; ring) (by omega)

/-- Where a jump goes. -/
theorem target_eq (hf : S.Fits) {j : Nat} (hj : j ≤ 168) (himm : (k : Int) + imm = j) :
    word ((S.base + k : Nat) + imm) = S.base + j := by
  have := hf.below
  unfold stop at this
  exact word_eq (by push_cast; omega) (by omega)

theorem step_opImm (hf : S.Fits) (h : S.Loaded m) {op : ImmOp}
    (hl : listing.lookup k = some (.opImm op rd r₁ imm, n)) :
    S.SafeStep ⟨x, m, S.base + k⟩ ⟨x.write rd (op.value (x r₁) imm), m, S.base + (k + n)⟩ := by
  refine SafeStep.of_exec h hl ?_ (by simp [Instr.reads])
  simp only [exec]
  rw [next_eq hf hl]

theorem step_lui (hf : S.Fits) (h : S.Loaded m)
    (hl : listing.lookup k = some (.lui rd imm, n)) :
    S.SafeStep ⟨x, m, S.base + k⟩ ⟨x.write rd (word imm), m, S.base + (k + n)⟩ := by
  refine SafeStep.of_exec h hl ?_ (by simp [Instr.reads])
  simp only [exec]
  rw [next_eq hf hl]

theorem step_auipc (hf : S.Fits) (h : S.Loaded m)
    (hl : listing.lookup k = some (.auipc rd 0, n)) :
    S.SafeStep ⟨x, m, S.base + k⟩ ⟨x.write rd (S.base + k), m, S.base + (k + n)⟩ := by
  refine SafeStep.of_exec h hl ?_ (by simp [Instr.reads])
  simp only [exec]
  rw [next_eq hf hl, target_eq hf (by have := bounds_of_lookup hl; omega : k ≤ 168) (by simp)]

theorem step_add (hf : S.Fits) (h : S.Loaded m)
    (hl : listing.lookup k = some (.add rd r₁ r₂, n)) :
    S.SafeStep ⟨x, m, S.base + k⟩
      ⟨x.write rd (word (x r₁ + x r₂)), m, S.base + (k + n)⟩ := by
  refine SafeStep.of_exec h hl ?_ (by simp [Instr.reads])
  simp only [exec]
  rw [next_eq hf hl]

theorem step_sub (hf : S.Fits) (h : S.Loaded m)
    (hl : listing.lookup k = some (.sub rd r₁ r₂, n)) :
    S.SafeStep ⟨x, m, S.base + k⟩
      ⟨x.write rd (word (x r₁ - x r₂)), m, S.base + (k + n)⟩ := by
  refine SafeStep.of_exec h hl ?_ (by simp [Instr.reads])
  simp only [exec]
  rw [next_eq hf hl]

theorem step_lbu (hf : S.Fits) (h : S.Loaded m)
    (hl : listing.lookup k = some (.lbu rd r₁ imm, n)) {a : Nat}
    (ha : word (x r₁ + imm) = a) (hread : S.Readable ⟨x, m, S.base + k⟩ a) :
    S.SafeStep ⟨x, m, S.base + k⟩ ⟨x.write rd (m a).toNat, m, S.base + (k + n)⟩ := by
  refine SafeStep.of_exec h hl ?_ ?_
  · simp only [exec]
    rw [next_eq hf hl, ha]
  · intro b hb
    obtain rfl : b = a := by
      rw [← ha]
      exact List.mem_singleton.mp hb
    exact hread

/-- A word of the stub itself. -/
theorem step_lw (hf : S.Fits) (h : S.Loaded m)
    (hl : listing.lookup k = some (.lw rd r₁ imm, n)) {j : Nat} (hj : j + 4 ≤ 168)
    (ha : word (x r₁ + imm) = S.base + j) :
    S.SafeStep ⟨x, m, S.base + k⟩
      ⟨x.write rd (wordAt m (S.base + j)), m, S.base + (k + n)⟩ := by
  refine SafeStep.of_exec h hl ?_ ?_
  · simp only [exec]
    rw [next_eq hf hl, ha]
  · intro b hb
    simp only [Instr.reads, ha, List.mem_map, List.mem_range] at hb
    obtain ⟨i, hi, rfl⟩ := hb
    left
    unfold stop
    omega

theorem step_sb (hf : S.Fits) (h : S.Loaded m)
    (hl : listing.lookup k = some (.sb r₂ r₁ imm, n)) {a : Nat} (ha : word (x r₁ + imm) = a) :
    S.SafeStep ⟨x, m, S.base + k⟩
      ⟨x, Function.update m a (UInt8.ofNat (x r₂)), S.base + (k + n)⟩ := by
  refine SafeStep.of_exec h hl ?_ (by simp [Instr.reads])
  simp only [exec]
  rw [next_eq hf hl, ha]

theorem step_taken (hf : S.Fits) (h : S.Loaded m) {c : Cond}
    (hl : listing.lookup k = some (.branch c r₁ r₂ imm, n)) {j : Nat} (hj : j ≤ 168)
    (himm : (k : Int) + imm = j) (hc : c.holds (x r₁) (x r₂) = true) :
    S.SafeStep ⟨x, m, S.base + k⟩ ⟨x, m, S.base + j⟩ := by
  refine SafeStep.of_exec h hl ?_ (by simp [Instr.reads])
  simp only [exec]
  rw [if_pos hc, target_eq hf hj himm]

theorem step_passed (hf : S.Fits) (h : S.Loaded m) {c : Cond}
    (hl : listing.lookup k = some (.branch c r₁ r₂ imm, n))
    (hc : c.holds (x r₁) (x r₂) = false) :
    S.SafeStep ⟨x, m, S.base + k⟩ ⟨x, m, S.base + (k + n)⟩ := by
  refine SafeStep.of_exec h hl ?_ (by simp [Instr.reads])
  simp only [exec]
  rw [hc, if_neg Bool.false_ne_true, next_eq hf hl]

theorem step_jal (hf : S.Fits) (h : S.Loaded m)
    (hl : listing.lookup k = some (.jal rd imm, n)) {j : Nat} (hj : j ≤ 168)
    (himm : (k : Int) + imm = j) :
    S.SafeStep ⟨x, m, S.base + k⟩ ⟨x.write rd (S.base + (k + n)), m, S.base + j⟩ := by
  refine SafeStep.of_exec h hl ?_ (by simp [Instr.reads])
  simp only [exec]
  rw [next_eq hf hl, target_eq hf hj himm]

theorem step_jr (h : S.Loaded m)
    (hl : listing.lookup k = some (.jalr 0 r₁ 0, n)) (heven : x r₁ % 2 = 0)
    (hlt : x r₁ < 2 ^ 32) : S.SafeStep ⟨x, m, S.base + k⟩ ⟨x, m, x r₁⟩ := by
  refine SafeStep.of_exec h hl ?_ (by simp [Instr.reads])
  simp only [exec]
  rw [word_eq (by ring : (x r₁ : Int) + 0 = x r₁) hlt]
  have hhalf : x r₁ / 2 * 2 = x r₁ := by omega
  rw [hhalf]
  rfl

end Steps

/-! ## Registers -/

/-- Registers after a write. -/
@[simp] theorem write_apply (x : Regs) {r : Nat} (hr : r ≠ 0) (v r' : Nat) :
    x.write r v r' = if r' = r then v else x r' := by
  split
  next h => rw [h, Regs.write_self hr]
  next h => exact Regs.write_of_ne h

theorem write_zero (x : Regs) (v : Nat) : x.write 0 v = x := rfl

theorem addi_value {v n : Nat} {imm : Int} (h : (v : Int) + imm = n) (hn : n < 2 ^ 32) :
    ImmOp.addi.value v imm = n := word_eq h hn

/-! ## The copy -/

theorem Loaded.update (h : S.Loaded m) {d : Nat} (hd : d < S.base) (c : UInt8) :
    S.Loaded (Function.update m d c) := by
  intro i hi
  rw [Function.update_of_ne (by omega), h i hi]

/-- One byte is copied and counted. -/
theorem run_copy_byte (hf : S.Fits) {n : Nat} {x : Regs} (h : S.Loaded m) {src dst : Nat}
    (h14 : x 14 = n + 1) (h13 : x 13 = src) (h11 : x 11 = dst) (hn : n < 2 ^ 32)
    (hsrc : src + 1 < 2 ^ 32) (hdst : dst + 1 ≤ S.base)
    (hread : (S.base ≤ src ∧ src < S.stop) ∨ (0x10000 ≤ src ∧ src < dst)) :
    ∃ x', S.Runs ⟨x, m, S.base + 136⟩ ⟨x', Function.update m dst (m src), S.base + 150⟩ ∧
      x' 14 = n ∧ x' 13 = src + 1 ∧ x' 11 = dst + 1 ∧
      ∀ r ∉ [11, 13, 14, 15], x' r = x r := by
  have hbelow := hf.below
  unfold stop at hbelow
  have hm := h.update (by omega : dst < S.base) (m src)
  have s1 := step_lbu (x := x) hf h (k := 136) rfl (a := src)
    (word_eq (by rw [h13]; ring) (by omega)) (by rw [Readable]; simp only [h11]; exact hread)
  have s2 := step_opImm (x := x.write 15 (m src).toNat) hf h (k := 140) rfl
  rw [addi_value (by simp [h13]) hsrc] at s2
  have s3 := step_sb (x := (x.write 15 (m src).toNat).write 13 (src + 1)) hf h (k := 142) rfl (a := dst) (word_eq (by simp [h11]) (by omega))
  have hbyte : UInt8.ofNat (((x.write 15 (m src).toNat).write 13 (src + 1)) 15) = m src := by
    simp
  rw [hbyte] at s3
  have s4 := step_opImm (x := (x.write 15 (m src).toNat).write 13 (src + 1)) hf hm (k := 146) rfl
  rw [addi_value (by simp [h11] : _ = ((dst + 1 : Nat) : Int)) (by omega)] at s4
  have s5 := step_opImm (x := ((x.write 15 (m src).toNat).write 13 (src + 1)).write 11 (dst + 1))
    hf hm (k := 148) rfl
  rw [addi_value (by simp [h14] : _ = (n : Int)) hn] at s5
  refine ⟨_, .head s1 (.head s2 (.head s3 (.head s4 (.single s5)))), by simp, by simp, by simp, ?_⟩
  intro r hr
  simp only [List.mem_cons, not_or] at hr
  simp [hr]

/-- **The copy** of `n` bytes is the byte loop of memory. -/
theorem run_copy (hf : S.Fits) {n : Nat} (hn : 0 < n) {x : Regs} (h : S.Loaded m) {src dst : Nat}
    (h0 : x 0 = 0) (h14 : x 14 = n) (h13 : x 13 = src) (h11 : x 11 = dst) (hsrc : src + n < 2 ^ 32)
    (hdst : dst + n ≤ S.base) (hread : ∀ i < n, (S.base ≤ src + i ∧ src + i < S.stop) ∨
      (0x10000 ≤ src + i ∧ src + i < dst + i)) (heven : x 1 % 2 = 0) (hlt : x 1 < 2 ^ 32) :
    ∃ x', S.Runs ⟨x, m, S.base + 136⟩ ⟨x', m.copy dst src n, x 1⟩ ∧ x' 13 = src + n ∧
      x' 11 = dst + n ∧ ∀ r ∉ [11, 13, 14, 15], x' r = x r := by
  induction n generalizing x m src dst with
  | zero => exact absurd hn (Nat.lt_irrefl 0)
  | succ n ih =>
    obtain ⟨x₁, hrun, h14₁, h13₁, h11₁, hframe⟩ := run_copy_byte hf h h14 h13 h11 (by omega)
      (by omega) (by omega) (hread 0 (Nat.succ_pos n))
    have hm := h.update (by omega : dst < S.base) (m src)
    have h0₁ : x₁ 0 = 0 := by
      rw [hframe 0 (by decide), h0]
    have h1₁ : x₁ 1 = x 1 := hframe 1 (by decide)
    by_cases hlast : n = 0
    · -- the count is down to zero
      subst hlast
      have s6 := step_passed (x := x₁) hf hm (k := 150) rfl
        (by rw [h14₁, h0₁]; rfl)
      have s7 := step_jr (x := x₁) hm (k := 152) rfl
        (by rw [h1₁]; exact heven) (by rw [h1₁]; exact hlt)
      rw [h1₁] at s7
      exact ⟨x₁, (hrun.tail s6).tail s7, h13₁, h11₁, hframe⟩
    · have s6 := step_taken (x := x₁) hf hm (k := 150) rfl (j := 136) (by omega) rfl (by rw [h14₁, h0₁]; exact decide_eq_true hlast)
      obtain ⟨x₂, hrun₂, h13₂, h11₂, hframe₂⟩ := ih (Nat.pos_of_ne_zero hlast) hm h0₁ h14₁ h13₁ h11₁
        (by omega) (by omega)
        (fun i hi => by have := hread (i + 1) (Nat.succ_lt_succ hi); omega)
        (by rw [h1₁]; exact heven) (by rw [h1₁]; exact hlt)
      rw [h1₁] at hrun₂
      refine ⟨x₂, (hrun.tail s6).trans hrun₂, by omega, by omega, ?_⟩
      intro r hr
      rw [hframe₂ r hr, hframe r hr]

/-! ## The rest of a length -/

/-- The bytes `bs` are in the block at address `p`. -/
structure InBlock (S : Stub) (p : Nat) (bs : List UInt8) : Prop where
  base : S.base ≤ p
  split : ∃ pre post, S.block = pre ++ (bs ++ post) ∧ p = S.base + 168 + pre.length

theorem InBlock.stop_le (h : S.InBlock p bs) : p + bs.length ≤ S.stop := by
  obtain ⟨-, pre, post, hblock, rfl⟩ := h
  rw [stop, hblock, List.length_append, List.length_append]
  omega

theorem InBlock.mem (h : S.InBlock p bs) (hm : S.Loaded m) {i : Nat} (hi : i < bs.length) :
    m (p + i) = bs.getD i 0 := by
  obtain ⟨-, pre, post, hblock, rfl⟩ := h
  have hlen : pre.length + i < S.block.length := by
    rw [hblock, List.length_append, List.length_append]
    omega
  have hget := hm (168 + (pre.length + i)) (by rw [length_bytes]; omega)
  rw [bytes] at hget
  have hloader := length_loader S.mmapSize S.entry S.block.length
  rw [← hloader, getD_append_right, hloader, hblock, getD_append_right,
    getD_append_left hi] at hget
  rw [← hget]
  congr 1
  omega

theorem InBlock.append {cs : List UInt8} (h : S.InBlock p (bs ++ cs)) :
    S.InBlock p bs ∧ S.InBlock (p + bs.length) cs := by
  obtain ⟨hbase, pre, post, hblock, rfl⟩ := h
  refine ⟨⟨hbase, pre, cs ++ post, ?_, rfl⟩, by omega, pre ++ bs, post, ?_, ?_⟩
  · rw [hblock, List.append_assoc]
  · rw [hblock, List.append_assoc, List.append_assoc]
  · rw [List.length_append]
    omega

theorem InBlock.lbu {c : UInt8} (h : S.InBlock p (c :: bs)) (hm : S.Loaded m) :
    m p = c ∧ S.base ≤ p ∧ p < S.stop := by
  have hstop := h.stop_le
  rw [List.length_cons] at hstop
  exact ⟨h.mem hm (i := 0) (Nat.succ_pos _), h.base, by omega⟩

theorem InBlock.tail {c : UInt8} (h : S.InBlock p (c :: bs)) :
    S.InBlock (p + 1) bs := (show S.InBlock p ([c] ++ bs) from h).append.2

theorem xori_value (v w : Nat) {imm : Int} (h : word imm = w) :
    ImmOp.xori.value v imm = v ^^^ w := by
  rw [ImmOp.value, h]

/-- One byte of a length is added. -/
theorem run_extend_byte (hf : S.Fits) {x : Regs} (h : S.Loaded m) {acc : Nat} {c : UInt8}
    (h14 : x 14 = acc) (h10 : x 10 = p) (hblock : S.InBlock p (c :: bs))
    (hacc : acc + c.toNat < 2 ^ 32) :
    ∃ x', S.Runs ⟨x, m, S.base + 120⟩ ⟨x', m, S.base + 132⟩ ∧ x' 15 = c.toNat ^^^ 255 ∧
      x' 14 = acc + c.toNat ∧ x' 10 = p + 1 ∧
      ∀ r ∉ [10, 14, 15], x' r = x r := by
  obtain ⟨hc, hbase, hstop⟩ := hblock.lbu h
  have hbelow := hf.below
  have s1 := step_lbu (x := x) hf h (k := 120) rfl (a := p)
    (word_eq (by rw [h10]; ring) (by omega)) (Or.inl ⟨hbase, hstop⟩)
  rw [hc] at s1
  have s2 := step_opImm (x := x.write 15 c.toNat) hf h (k := 124) rfl
  rw [addi_value (by simp [h10] : _ = ((p + 1 : Nat) : Int)) (by omega)] at s2
  have s3 := step_add (x := (x.write 15 c.toNat).write 10 (p + 1)) hf h (k := 126) rfl
  rw [word_eq (by simp [h14] : _ = ((acc + c.toNat : Nat) : Int)) hacc] at s3
  have s4 := step_opImm (x := ((x.write 15 c.toNat).write 10 (p + 1)).write 14 (acc + c.toNat))
    hf h (k := 128) rfl
  rw [xori_value _ 255 (by decide)] at s4
  refine ⟨_, .head s1 (.head s2 (.head s3 (.single s4))), by simp, by simp, by simp, ?_⟩
  intro r hr
  simp only [List.mem_cons, not_or] at hr
  simp [hr]

/-- The bytes of a length, up to the first that is not 255. -/
theorem run_extend_loop (hf : S.Fits) (k : Nat) {x : Regs} (h : S.Loaded m) {acc : Nat} {c : UInt8}
    (hc : c.toNat ≠ 255) (h0 : x 0 = 0) (h14 : x 14 = acc) (h10 : x 10 = p)
    (hblock : S.InBlock p (List.replicate k 255 ++ [c])) (hacc : acc + (255 * k + c.toNat) < 2 ^ 32)
    (heven : x 1 % 2 = 0) (hlt : x 1 < 2 ^ 32) :
    ∃ x', S.Runs ⟨x, m, S.base + 120⟩ ⟨x', m, x 1⟩ ∧ x' 14 = acc + (255 * k + c.toNat) ∧
      x' 10 = p + (k + 1) ∧ ∀ r ∉ [10, 14, 15], x' r = x r := by
  induction k generalizing x p acc with
  | zero =>
    obtain ⟨x₁, hrun, h15₁, h14₁, h10₁, hframe⟩ :=
      run_extend_byte hf h h14 h10 hblock (by omega)
    have h0₁ : x₁ 0 = 0 := by rw [hframe 0 (by decide), h0]
    have h1₁ : x₁ 1 = x 1 := hframe 1 (by decide)
    have hne : c.toNat ^^^ 255 ≠ 0 := fun hz => hc (Nat.eq_of_xor_eq_zero hz)
    have s5 := step_passed (x := x₁) hf h (k := 132) rfl
      (by rw [h15₁, h0₁]; exact decide_eq_false hne)
    have s6 := step_jr (x := x₁) h (k := 134) rfl
      (by rw [h1₁]; exact heven) (by rw [h1₁]; exact hlt)
    rw [h1₁] at s6
    exact ⟨x₁, (hrun.tail s5).tail s6, by omega, h10₁, hframe⟩
  | succ k ih =>
    have hbytes : List.replicate (k + 1) 255 ++ [c] =
        [(255 : UInt8)] ++ (List.replicate k 255 ++ [c]) := rfl
    rw [hbytes] at hblock
    obtain ⟨x₁, hrun, h15₁, h14₁, h10₁, hframe⟩ :=
      run_extend_byte hf h h14 h10 hblock (by change acc + 255 < 2 ^ 32; omega)
    have h0₁ : x₁ 0 = 0 := by rw [hframe 0 (by decide), h0]
    have h1₁ : x₁ 1 = x 1 := hframe 1 (by decide)
    have s5 := step_taken (x := x₁) hf h (k := 132) rfl (j := 120) (by omega) rfl (by rw [h15₁, h0₁]; rfl)
    obtain ⟨x₂, hrun₂, h14₂, h10₂, hframe₂⟩ := ih h0₁ h14₁ h10₁ hblock.append.2
      (by change acc + 255 + _ < _; omega) (by rw [h1₁]; exact heven) (by rw [h1₁]; exact hlt)
    rw [h1₁] at hrun₂
    refine ⟨x₂, (hrun.tail s5).trans hrun₂, ?_, by omega, ?_⟩
    · rw [h14₂]
      change acc + 255 + _ = _
      omega
    · intro r hr
      rw [hframe₂ r hr, hframe r hr]

/-- **The rest of a length**: from its nibble and the bytes that continue it. -/
theorem run_extend (hf : S.Fits) {n : Nat} (hn : n < 2 ^ 32) {x : Regs} (h : S.Loaded m)
    (h0 : x 0 = 0) (h14 : x 14 = nibble n) (h10 : x 10 = p) (hblock : S.InBlock p (extension n))
    (heven : x 1 % 2 = 0) (hlt : x 1 < 2 ^ 32) :
    ∃ x', S.Runs ⟨x, m, S.base + 114⟩ ⟨x', m, x 1⟩ ∧ x' 14 = n ∧
      x' 10 = p + (extension n).length ∧ ∀ r ∉ [10, 14, 15], x' r = x r := by
  have s1 := step_opImm (x := x) hf h (k := 114) rfl
  rw [xori_value _ 15 (by decide), h14] at s1
  have hframe : ∀ r, r ≠ 15 → (x.write 15 (nibble n ^^^ 15)) r = x r := by
    intro r hr
    simp [hr]
  by_cases hsmall : n < 15
  · have hnibble : nibble n = n := by
      rw [nibble]
      omega
    have hne : nibble n ^^^ 15 ≠ 0 := by
      intro hz
      have := Nat.eq_of_xor_eq_zero hz
      omega
    have s2 := step_taken (x := x.write 15 (nibble n ^^^ 15)) hf h (k := 118) rfl (j := 134) (by omega) rfl
      (by rw [Regs.write_self (by decide), hframe 0 (by decide), h0]; exact decide_eq_true hne)
    have s3 := step_jr (x := x.write 15 (nibble n ^^^ 15)) h (k := 134) rfl (by rw [hframe 1 (by decide)]; exact heven)
      (by rw [hframe 1 (by decide)]; exact hlt)
    rw [hframe 1 (by decide)] at s3
    refine ⟨_, .head s1 (.head s2 (.single s3)), ?_, ?_, ?_⟩
    · rw [hframe 14 (by decide), h14, hnibble]
    · rw [hframe 10 (by decide), h10, extension, if_pos hsmall]
      rfl
    · intro r hr
      simp only [List.mem_cons, not_or] at hr
      exact hframe r hr.2.2.1
  · have hnibble : nibble n = 15 := by
      rw [nibble]
      omega
    rw [extension, if_neg hsmall] at hblock
    have hbyte : (UInt8.ofNat ((n - 15) % 255)).toNat = (n - 15) % 255 := by
      rw [UInt8.toNat_ofNat']
      omega
    have s2 := step_passed (x := x.write 15 (nibble n ^^^ 15)) hf h (k := 118) rfl
      (by rw [Regs.write_self (by decide), hframe 0 (by decide), h0, hnibble]; rfl)
    have h1₁ := hframe 1 (by decide)
    obtain ⟨x₂, hrun, h14₂, h10₂, hframe₂⟩ := run_extend_loop hf ((n - 15) / 255)
      (x := x.write 15 (nibble n ^^^ 15)) h (by rw [hbyte]; omega)
      (by rw [hframe 0 (by decide), h0]) (by rw [hframe 14 (by decide), h14, hnibble])
      (by rw [hframe 10 (by decide), h10]) hblock (by omega) (by rw [h1₁]; exact heven)
      (by rw [h1₁]; exact hlt)
    rw [h1₁] at hrun
    refine ⟨x₂, .head s1 (.head s2 hrun), by omega, ?_, ?_⟩
    · rw [h10₂, extension, if_neg hsmall, List.length_append, List.length_replicate]
      rfl
    · intro r hr
      rw [hframe₂ r hr]
      simp only [List.mem_cons, not_or] at hr
      exact hframe r hr.2.2.1

end Stub

end RvLlvm.Packer.Lz4
