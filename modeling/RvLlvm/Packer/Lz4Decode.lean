import RvLlvm.Packer.Lz4Loader

/-!
# The LZ4 loader stub decodes its block

The parts of the stub of `loaderTemplate` (`lld/ELF/RISCVLZ4Packer.cpp:29-44`) outside its two inner
loops, put together over a block of any length.

* `run_start`: the mapping and the three patched words; `run_literals`, `run_match`: the two halves
  of a sequence; `run_sequences`: the loop.
* `decodes_iff`: the stub decodes the block exactly when its signed end test does not take the
  literals of an earlier sequence for the end (`Seen`).
-/

namespace RvLlvm.Packer.Lz4.Stub

open RvLlvm.Support RvLlvm.Support.Rv RvLlvm.Support.Lz4

variable {S : Stub}

/-! ## The start -/

variable {m : Memory} {x : Regs} {out : List UInt8} {p : Nat}

theorem wordAt_leBytes {a n : Nat} (hn : n < 2 ^ 32)
    (h : ∀ i < 4, m (a + i) = (leBytes 4 n).getD i 0) : wordAt m a = n := by
  have hle : leNat (leBytes 4 n) = n := leNat_leBytes hn
  have h0 : m a = _ := h 0 (by decide)
  have h1 : m (a + 1) = _ := h 1 (by decide)
  have h2 : m (a + 2) = _ := h 2 (by decide)
  have h3 : m (a + 3) = _ := h 3 (by decide)
  simp only [leBytes, leNat] at hle
  simp only [leBytes, List.getD_cons_zero, List.getD_cons_succ] at h0 h1 h2 h3
  rw [wordAt, halfAt, halfAt, h0, h1, h2, h3]
  omega

/-- A patched word: `l` before it and `r` after it. -/
theorem Loaded.wordAt (h : S.Loaded m) {n : Nat} (hn : n < 2 ^ 32) {l r : List UInt8}
    (hsplit : S.bytes = l ++ (leBytes 4 n ++ r)) : wordAt m (S.base + l.length) = n := by
  refine wordAt_leBytes hn fun i hi => ?_
  have hlen : (leBytes 4 n).length = 4 := length_leBytes 4 n
  rw [Nat.add_assoc, h (l.length + i), hsplit, getD_append_right, getD_append_left (by omega)]
  rw [hsplit, List.length_append, List.length_append]
  omega

/-- The three patched words. -/
theorem Loaded.words (hf : S.Fits) (h : S.Loaded m) :
    Rv.wordAt m (S.base + 156) = S.mmapSize ∧ Rv.wordAt m (S.base + 160) = S.entry ∧
      Rv.wordAt m (S.base + 164) = S.block.length := by
  have habove := hf.above
  have hbelow := hf.below
  unfold stop at hbelow
  have htake : (loaderTemplate.take 156).length = 156 := by
    rw [List.length_take, length_loaderTemplate]
    rfl
  have h1 := h.wordAt (n := S.mmapSize) (by omega) (l := loaderTemplate.take 156)
    (r := leBytes 4 S.entry ++ (leBytes 4 S.block.length ++ S.block))
    (by simp only [bytes, loader, List.append_assoc])
  have h2 := h.wordAt hf.entry_lt (l := loaderTemplate.take 156 ++ leBytes 4 S.mmapSize)
    (r := leBytes 4 S.block.length ++ S.block) (by simp only [bytes, loader, List.append_assoc])
  have h3 := h.wordAt (n := S.block.length) (by omega)
    (l := loaderTemplate.take 156 ++ leBytes 4 S.mmapSize ++ leBytes 4 S.entry) (r := S.block)
    (by simp only [bytes, loader, List.append_assoc])
  rw [htake] at h1
  rw [List.length_append, htake, length_leBytes] at h2
  rw [List.length_append, List.length_append, htake, length_leBytes, length_leBytes] at h3
  exact ⟨h1, h2, h3⟩

theorem Loaded.fill (h : S.Loaded m) {d n : Nat} (c : UInt8) (hd : d + n ≤ S.base) :
    S.Loaded (m.fill d c n) := by
  intro i hi
  rw [Memory.fill_apply, if_neg (by omega), h i hi]

theorem Loaded.write (h : S.Loaded m) {d : Nat} {l : List UInt8} (hd : d + l.length ≤ S.base) :
    S.Loaded (m.write d l) := by
  intro i hi
  rw [Memory.write, if_pos (by omega), List.getElem?_eq_none (by omega), ← h i hi]
  rfl

/-- An operation whose value does not matter. -/
theorem skip_opImm (hf : S.Fits) (h : S.Loaded m) {k n rd r₁ : Nat} {imm : Int} {op : ImmOp}
    (hl : listing.lookup k = some (.opImm op rd r₁ imm, n)) :
    ∃ v, S.SafeStep ⟨x, m, S.base + k⟩ ⟨x.write rd v, m, S.base + (k + n)⟩ :=
  ⟨_, step_opImm hf h hl⟩

/-- `mmap` with the number of the call in `a7`. -/
theorem step_ecall (hf : S.Fits) (h : S.Loaded m) (h17 : x 17 = 222) :
    S.SafeStep ⟨x, m, S.base + 26⟩ ⟨x, m.fill (x 10) 0 (x 11), S.base + 30⟩ := by
  refine SafeStep.of_exec h (k := 26) rfl ?_ (by simp [Instr.reads])
  simp only [exec, mmap, if_pos h17, Option.map_some]
  rw [next_eq hf (k := 26) rfl]

/-- The mapping. -/
theorem run_map (hf : S.Fits) (h : S.Loaded m) (h0 : x 0 = 0) :
    ∃ x', S.Runs ⟨x, m, S.base⟩ ⟨x', m.fill 0x10000 0 S.mmapSize, S.base + 30⟩ ∧ x' 0 = 0 := by
  have hbelow := hf.below
  unfold stop at hbelow
  have s1 := step_lui (x := x) hf h (k := 0) rfl
  rw [show word 0x10000 = 0x10000 from rfl] at s1
  set x₁ := x.write 10 0x10000 with hx₁
  have s2 := step_auipc (x := x₁) hf h (k := 2) rfl
  set x₂ := x₁.write 11 (S.base + 2) with hx₂
  have s3 := step_opImm (x := x₂) hf h (k := 6) rfl
  rw [addi_value (by simp [hx₂]; omega : _ = ((S.base + 156 : Nat) : Int)) (by omega)] at s3
  set x₃ := x₂.write 11 (S.base + 156) with hx₃
  have s4 := step_lw (x := x₃) hf h (k := 10) rfl (j := 156)
    (by decide) (word_eq (by simp [hx₃]) (by omega))
  rw [(h.words hf).1] at s4
  set x₄ := x₃.write 11 S.mmapSize with hx₄
  obtain ⟨v₅, s5⟩ := skip_opImm (x := x₄) hf h (k := 12) rfl
  set x₅ := x₄.write 12 v₅ with hx₅
  obtain ⟨v₆, s6⟩ := skip_opImm (x := x₅) hf h (k := 14) rfl
  set x₆ := x₅.write 13 v₆ with hx₆
  obtain ⟨v₇, s7⟩ := skip_opImm (x := x₆) hf h (k := 18) rfl
  set x₇ := x₆.write 14 v₇ with hx₇
  obtain ⟨v₈, s8⟩ := skip_opImm (x := x₇) hf h (k := 20) rfl
  set x₈ := x₇.write 15 v₈ with hx₈
  have h0₈ : x₈ 0 = 0 := by
    simp [hx₈, hx₇, hx₆, hx₅, hx₄, hx₃, hx₂, hx₁, h0]
  have h10₈ : x₈ 10 = 0x10000 := by
    simp [hx₈, hx₇, hx₆, hx₅, hx₄, hx₃, hx₂, hx₁]
  have h11₈ : x₈ 11 = S.mmapSize := by
    simp [hx₈, hx₇, hx₆, hx₅, hx₄]
  have s9 := step_opImm (x := x₈) hf h (k := 22) rfl
  rw [addi_value (by simp [h0₈] : _ = ((222 : Nat) : Int)) (by decide)] at s9
  have s10 := step_ecall (x := x₈.write 17 222) hf h (by simp)
  rw [show (x₈.write 17 222) 10 = 0x10000 by simp [h10₈],
    show (x₈.write 17 222) 11 = S.mmapSize by simp [h11₈]] at s10
  exact ⟨_, .head s1 (.head s2 (.head s3 (.head s4 (.head s5 (.head s6 (.head s7 (.head s8
    (.head s9 (.single s10))))))))), by simp [h0₈]⟩

/-- The state at the head of the loop: `out` is decoded and `p` is the next byte of the block. -/
structure Head (S : Stub) (x : Regs) (out : List UInt8) (p : Nat) : Prop where
  zero : x 0 = 0
  entry : x 5 = S.entry
  source : x 10 = p
  destination : x 11 = 0x10000 + out.length
  stop : x 12 = S.stop

/-- The patched words are loaded, and the bounds of the block computed. -/
theorem run_setup (hf : S.Fits) (h : S.Loaded m) (h0 : x 0 = 0) :
    ∃ x', S.Runs ⟨x, m, S.base + 30⟩ ⟨x', m, S.base + 58⟩ ∧ S.Head x' [] (S.base + 168) := by
  have hbelow := hf.below
  unfold Stub.stop at hbelow
  obtain ⟨-, hentry, hlength⟩ := h.words hf
  have s1 := step_auipc (x := x) hf h (k := 30) rfl
  set x₁ := x.write 5 (S.base + 30) with hx₁
  have s2 := step_opImm (x := x₁) hf h (k := 34) rfl
  rw [addi_value (by simp [hx₁]; omega : _ = ((S.base + 160 : Nat) : Int)) (by omega)] at s2
  set x₂ := x₁.write 5 (S.base + 160) with hx₂
  have s3 := step_lw (x := x₂) hf h (k := 38) rfl (j := 160)
    (by decide) (word_eq (by simp [hx₂]) (by omega))
  rw [hentry] at s3
  set x₃ := x₂.write 5 S.entry with hx₃
  have s4 := step_auipc (x := x₃) hf h (k := 42) rfl
  set x₄ := x₃.write 10 (S.base + 42) with hx₄
  have s5 := step_opImm (x := x₄) hf h (k := 46) rfl
  rw [addi_value (by simp [hx₄]; omega : _ = ((S.base + 164 : Nat) : Int)) (by omega)] at s5
  set x₅ := x₄.write 10 (S.base + 164) with hx₅
  have s6 := step_lui (x := x₅) hf h (k := 50) rfl
  rw [show word 0x10000 = 0x10000 from rfl] at s6
  set x₆ := x₅.write 11 0x10000 with hx₆
  have s7 := step_lw (x := x₆) hf h (k := 52) rfl (j := 164)
    (by decide) (word_eq (by simp [hx₆, hx₅]) (by omega))
  rw [hlength] at s7
  set x₇ := x₆.write 12 S.block.length with hx₇
  have s8 := step_opImm (x := x₇) hf h (k := 54) rfl
  rw [addi_value (by simp [hx₇, hx₆, hx₅]; omega : _ = ((S.base + 168 : Nat) : Int))
    (by omega)] at s8
  set x₈ := x₇.write 10 (S.base + 168) with hx₈
  have s9 := step_add (x := x₈) hf h (k := 56) rfl
  rw [word_eq (by simp [hx₈, hx₇]; omega : _ = ((S.base + 168 + S.block.length : Nat) : Int))
    hbelow] at s9
  refine ⟨_, .head s1 (.head s2 (.head s3 (.head s4 (.head s5 (.head s6 (.head s7 (.head s8
    (.single s9)))))))), ?_, ?_, ?_, ?_, ?_⟩
  · simp [hx₈, hx₇, hx₆, hx₅, hx₄, hx₃, hx₂, hx₁, h0]
  · simp [hx₈, hx₇, hx₆, hx₅, hx₄, hx₃]
  · simp [hx₈]
  · simp [hx₈, hx₇, hx₆]
  · simp [Stub.stop]

theorem write_nil (m : Memory) (d : Nat) : m.write d [] = m := by
  funext a
  rw [Memory.write, List.getElem?_nil, Option.getD_none, ite_self]

/-- **The start** of the stub: nothing is decoded yet. -/
theorem run_start (hf : S.Fits) (h : S.Loaded m) (h0 : x 0 = 0) :
    ∃ x', S.Runs ⟨x, m, S.base⟩
      ⟨x', (m.fill 0x10000 0 S.mmapSize).write 0x10000 [], S.base + 58⟩ ∧
      S.Head x' [] (S.base + 168) := by
  obtain ⟨x₁, hrun, h0₁⟩ := run_map hf h h0
  obtain ⟨x₂, hrun₂, hhead⟩ := run_setup hf (h.fill 0 hf.above) h0₁
  rw [write_nil]
  exact ⟨x₂, hrun.trans hrun₂, hhead⟩

/-! ## A sequence -/

theorem token_nibbles {a b : Nat} (ha : a < 16) (hb : b < 16) :
    (token a b).toNat / 16 = a ∧ (token a b).toNat % 16 = b := by
  rw [token, UInt8.toNat_ofNat']
  omega

theorem nibble_lt (n : Nat) : nibble n < 16 := by
  rw [nibble]
  omega

theorem nibble_eq_zero {n : Nat} : nibble n = 0 ↔ n = 0 := by
  rw [nibble]
  omega

/-- The token, its high half in `a4`. -/
theorem run_token (hf : S.Fits) (h : S.Loaded m) {bs : List UInt8} {a b : Nat}
    (hhead : S.Head x out p) (ha : a < 16) (hb : b < 16) (hblock : S.InBlock p (token a b :: bs)) :
    ∃ x', S.Runs ⟨x, m, S.base + 58⟩ ⟨x', m, S.base + 68⟩ ∧ S.Head x' out (p + 1) ∧
      x' 14 = a ∧ x' 16 = (token a b).toNat := by
  obtain ⟨hc, hbase, hstop⟩ := hblock.lbu h
  have hbelow := hf.below
  have s1 := step_lbu (x := x) hf h (k := 58) rfl (a := p)
    (word_eq (by rw [hhead.source]; ring) (by omega)) (Or.inl ⟨hbase, hstop⟩)
  rw [hc] at s1
  set x₁ := x.write 16 (token a b).toNat with hx₁
  have s2 := step_opImm (x := x₁) hf h (k := 62) rfl
  rw [addi_value (by simp [hx₁, hhead.source] : _ = ((p + 1 : Nat) : Int)) (by omega)] at s2
  set x₂ := x₁.write 10 (p + 1) with hx₂
  have s3 := step_opImm (x := x₂) hf h (k := 64) rfl
  have hhigh : ImmOp.srli.value (x₂ 16) 4 = a := by
    have h16 : x₂ 16 = (token a b).toNat := by simp [hx₂, hx₁]
    rw [ImmOp.value, h16]
    exact (token_nibbles ha hb).1
  rw [hhigh] at s3
  refine ⟨_, .head s1 (.head s2 (.single s3)), ⟨?_, ?_, ?_, ?_, ?_⟩, by simp, by simp [hx₂, hx₁]⟩
  · simp [hx₂, hx₁, hhead.zero]
  · simp [hx₂, hx₁, hhead.entry]
  · simp [hx₂]
  · simp [hx₂, hx₁, hhead.destination]
  · simp [hx₂, hx₁, hhead.stop]

/-- A register file that agrees with a head but for its two pointers. -/
theorem Head.of_frame {x' : Regs} {out' : List UInt8} {p' : Nat} (h : S.Head x out p)
    (hframe : ∀ r, r = 0 ∨ r = 5 ∨ r = 12 → x' r = x r) (hsource : x' 10 = p')
    (hdestination : x' 11 = 0x10000 + out'.length) : S.Head x' out' p' where
  zero := (hframe 0 (Or.inl rfl)).trans h.zero
  entry := (hframe 5 (Or.inr (Or.inl rfl))).trans h.entry
  source := hsource
  destination := hdestination
  stop := (hframe 12 (Or.inr (Or.inr rfl))).trans h.stop

/-- The literals after the token, when there are some. -/
theorem run_literals_pos (hf : S.Fits) (h : S.Loaded m) {literals : List UInt8}
    (hhead : S.Head x out p) (hne : literals ≠ []) (h14 : x 14 = nibble literals.length)
    (hout : out.length + literals.length ≤ S.mmapSize)
    (hblock : S.InBlock p (extension literals.length ++ literals)) :
    ∃ x', S.Runs ⟨x, m.write 0x10000 out, S.base + 68⟩
        ⟨x', m.write 0x10000 (out ++ literals), S.base + 78⟩ ∧
      S.Head x' (out ++ literals) (p + (extension literals.length ++ literals).length) ∧
      x' 16 = x 16 := by
  have hbelow := hf.below
  have habove := hf.above
  have heven := hf.even
  have hend := hblock.stop_le
  obtain ⟨hext, hlits⟩ := hblock.append
  have hbase := hlits.base
  have hstop := hlits.stop_le
  have hpos : 0 < literals.length := List.length_pos_iff.mpr hne
  have hm : S.Loaded (m.write 0x10000 out) := h.write (by omega)
  have hret : S.base + 72 < 2 ^ 32 ∧ S.base + 76 < 2 ^ 32 := by
    unfold Stub.stop at hbelow
    omega
  have s1 := step_passed (x := x) hf hm (k := 68) rfl
    (by
      rw [h14, hhead.zero]
      exact decide_eq_false (fun hz => absurd (nibble_eq_zero.mp hz) (by omega)))
  have s2 := step_jal (x := x) hf hm (k := 70) rfl (j := 114) (by omega) rfl
  set x₂ := x.write 1 (S.base + 72) with hx₂
  have hframe₂ : ∀ r, r ≠ 1 → x₂ r = x r := fun r hr => by simp [hx₂, hr]
  have h1₂ : x₂ 1 = S.base + 72 := by simp [hx₂]
  obtain ⟨x₃, hrun₃, h14₃, h10₃, hframe₃⟩ := run_extend hf (n := literals.length) (by omega) hm
    ((hframe₂ 0 (by decide)).trans hhead.zero) ((hframe₂ 14 (by decide)).trans h14)
    ((hframe₂ 10 (by decide)).trans hhead.source) hext (by rw [h1₂]; omega) (by rw [h1₂]; omega)
  rw [h1₂] at hrun₃
  have h0₃ : x₃ 0 = 0 := by
    rw [hframe₃ 0 (by decide), hframe₂ 0 (by decide), hhead.zero]
  have s4 := step_add (x := x₃) hf hm (k := 72) rfl
  rw [word_eq (by rw [h0₃, h10₃]; simp :
    _ = ((p + (extension literals.length).length : Nat) : Int)) (by omega)] at s4
  set x₄ := x₃.write 13 (p + (extension literals.length).length) with hx₄
  have hframe₄ : ∀ r, r ≠ 13 → x₄ r = x₃ r := fun r hr => by simp [hx₄, hr]
  have s5 := step_jal (x := x₄) hf hm (k := 74) rfl (j := 136) (by omega) rfl
  set x₅ := x₄.write 1 (S.base + 76) with hx₅
  have hframe₅ : ∀ r, r ≠ 1 → x₅ r = x₄ r := fun r hr => by simp [hx₅, hr]
  have h1₅ : x₅ 1 = S.base + 76 := by simp [hx₅]
  have h11₅ : x₅ 11 = 0x10000 + out.length := by
    rw [hframe₅ 11 (by decide), hframe₄ 11 (by decide),
      hframe₃ 11 (by decide), hframe₂ 11 (by decide), hhead.destination]
  obtain ⟨x₆, hrun₆, h13₆, h11₆, hframe₆⟩ := run_copy hf hpos hm
    (by rw [hframe₅ 0 (by decide), hframe₄ 0 (by decide), h0₃])
    (by rw [hframe₅ 14 (by decide), hframe₄ 14 (by decide), h14₃])
    (by rw [hframe₅ 13 (by decide)]; simp [hx₄] :
      x₅ 13 = p + (extension literals.length).length) h11₅ (by omega) (by omega)
    (fun i hi => Or.inl ⟨by omega, by omega⟩) (by rw [h1₅]; omega) (by rw [h1₅]; omega)
  rw [h1₅, push_literals m 0x10000 out (fun i hi => ?_) (Or.inl (by omega))] at hrun₆
  · have h0₆ : x₆ 0 = 0 := by
      rw [hframe₆ 0 (by decide), hframe₅ 0 (by decide),
        hframe₄ 0 (by decide), h0₃]
    have s7 := step_add (x := x₆) hf (h.write (l := out ++ literals) (d := 0x10000)
      (by rw [List.length_append]; omega)) (k := 76) rfl
    rw [word_eq (by rw [h0₆, h13₆]; simp :
      _ = ((p + (extension literals.length).length + literals.length : Nat) : Int))
      (by omega)] at s7
    refine ⟨_, .head s1 (.head s2 (hrun₃.trans (.head s4 (.head s5 (hrun₆.tail s7))))), ?_, ?_⟩
    · refine hhead.of_frame (fun r hr => ?_) ?_ ?_
      · rw [write_apply _ (by decide), if_neg (by omega), hframe₆ r (by simp; omega),
          hframe₅ r (by omega), hframe₄ r (by omega), hframe₃ r (by simp; omega),
          hframe₂ r (by omega)]
      · rw [Regs.write_self (by decide), List.length_append, Nat.add_assoc]
      · rw [Regs.write_of_ne (by decide), h11₆, List.length_append, Nat.add_assoc]
    · rw [Regs.write_of_ne (by decide),
        hframe₆ 16 (by decide), hframe₅ 16 (by decide),
        hframe₄ 16 (by decide), hframe₃ 16 (by decide),
        hframe₂ 16 (by decide)]
  · exact hlits.mem h hi

/-- **The literals** of a sequence; the end test comes next only when there are some. -/
theorem run_literals (hf : S.Fits) (h : S.Loaded m) {literals : List UInt8} {low : Nat}
    (hhead : S.Head x out p) (hlow : low < 16) (hout : out.length + literals.length ≤ S.mmapSize)
    (hblock : S.InBlock p (literalBytes literals low)) :
    ∃ x', S.Runs ⟨x, m.write 0x10000 out, S.base + 58⟩
        ⟨x', m.write 0x10000 (out ++ literals), S.base + if literals = [] then 82 else 78⟩ ∧
      S.Head x' (out ++ literals) (p + (literalBytes literals low).length) ∧
      x' 16 % 16 = low := by
  have hm : S.Loaded (m.write 0x10000 out) := by
    have := hf.above
    exact h.write (by omega)
  obtain ⟨x₁, hrun, hhead₁, h14₁, h16₁⟩ :=
    run_token hf hm hhead (nibble_lt literals.length) hlow hblock
  have hlow₁ : x₁ 16 % 16 = low := by
    rw [h16₁]
    exact (token_nibbles (nibble_lt _) hlow).2
  by_cases hne : literals = []
  · subst hne
    have s4 := step_taken (x := x₁) hf hm (k := 68) rfl (j := 82) (by omega) rfl (by rw [h14₁, hhead₁.zero]; rfl)
    rw [if_pos rfl, List.append_nil]
    exact ⟨x₁, hrun.tail s4, hhead₁, hlow₁⟩
  · have htail : S.InBlock (p + 1) (extension literals.length ++ literals) :=
      hblock.tail
    obtain ⟨x₂, hrun₂, hhead₂, h16₂⟩ := run_literals_pos hf h hhead₁ hne h14₁ hout htail
    rw [if_neg hne]
    refine ⟨x₂, hrun.trans hrun₂, ?_, by rw [h16₂, hlow₁]⟩
    have hp : p + (literalBytes literals low).length =
        p + 1 + (extension literals.length ++ literals).length := by
      rw [literalBytes, List.length_cons]
      omega
    rw [hp]
    exact hhead₂

/-- The two bytes of the offset, subtracted from the end of the output. -/
theorem run_offset (hf : S.Fits) (h : S.Loaded m) {bs : List UInt8} {offset : Nat}
    (hhead : S.Head x out p) (hword : offset < 2 ^ 16) (hreach : offset ≤ out.length)
    (hout : out.length ≤ S.mmapSize) (hblock : S.InBlock p (leBytes 2 offset ++ bs)) :
    ∃ x', S.Runs ⟨x, m, S.base + 82⟩ ⟨x', m, S.base + 100⟩ ∧ S.Head x' out (p + 2) ∧
      x' 13 = 0x10000 + out.length - offset ∧ x' 16 = x 16 := by
  have hbelow := hf.below
  have habove := hf.above
  have hbytes : leBytes 2 offset ++ bs =
      UInt8.ofNat offset :: UInt8.ofNat (offset / 256) :: bs := rfl
  rw [hbytes] at hblock
  have hsplit : (UInt8.ofNat offset).toNat + 256 * (UInt8.ofNat (offset / 256)).toNat = offset := by
    rw [UInt8.toNat_ofNat', UInt8.toNat_ofNat']
    omega
  set lo := UInt8.ofNat offset with hlo
  set hi := UInt8.ofNat (offset / 256) with hhi
  obtain ⟨hc, hbase, hstop⟩ := hblock.lbu h
  obtain ⟨hc', hbase', hstop'⟩ := hblock.tail.lbu h
  have s1 := step_lbu (x := x) hf h (k := 82) rfl (a := p)
    (word_eq (by rw [hhead.source]; ring) (by omega)) (Or.inl ⟨hbase, hstop⟩)
  rw [hc] at s1
  set x₁ := x.write 15 lo.toNat with hx₁
  have s2 := step_sub (x := x₁) hf h (k := 86) rfl
  rw [word_eq (by simp [hx₁, hhead.destination]; omega :
    _ = ((0x10000 + out.length - lo.toNat : Nat) : Int)) (by omega)] at s2
  set x₂ := x₁.write 13 (0x10000 + out.length - lo.toNat) with hx₂
  have s3 := step_lbu (x := x₂) hf h (k := 90) rfl (a := p + 1)
    (word_eq (by simp [hx₂, hx₁, hhead.source]) (by omega)) (Or.inl ⟨hbase', hstop'⟩)
  rw [hc'] at s3
  set x₃ := x₂.write 15 hi.toNat with hx₃
  have s4 := step_opImm (x := x₃) hf h (k := 94) rfl
  rw [addi_value (by simp [hx₃, hx₂, hx₁, hhead.source] : _ = ((p + 2 : Nat) : Int))
    (by omega)] at s4
  set x₄ := x₃.write 10 (p + 2) with hx₄
  have s5 := step_opImm (x := x₄) hf h (k := 96) rfl
  have hshift : ImmOp.slli.value (x₄ 15) 8 = 256 * hi.toNat := by
    have h15 : x₄ 15 = hi.toNat := by simp [hx₄, hx₃]
    have := hi.toNat_lt
    rw [ImmOp.value, h15]
    refine word_eq ?_ (by omega)
    push_cast
    ring
  rw [hshift] at s5
  set x₅ := x₄.write 15 (256 * hi.toNat) with hx₅
  have s6 := step_sub (x := x₅) hf h (k := 98) rfl
  rw [word_eq (by simp [hx₅, hx₄, hx₃, hx₂]; omega :
    _ = ((0x10000 + out.length - offset : Nat) : Int)) (by omega)] at s6
  refine ⟨_, .head s1 (.head s2 (.head s3 (.head s4 (.head s5 (.single s6))))),
    hhead.of_frame (fun r hr => ?_) ?_ ?_, by simp, by simp [hx₅, hx₄, hx₃, hx₂, hx₁]⟩
  · obtain rfl | rfl | rfl := hr <;> simp [hx₅, hx₄, hx₃, hx₂, hx₁]
  · simp [hx₅, hx₄]
  · simp [hx₅, hx₄, hx₃, hx₂, hx₁, hhead.destination]

/-- **The match** of a sequence. -/
theorem run_match (hf : S.Fits) (h : S.Loaded m) {q : Sequence}
    (hhead : S.Head x (out ++ q.literals) p) (hfollows : q.Follows out)
    (h16 : x 16 % 16 = nibble (q.matchLength - 4)) (hout : (q.decode out).length ≤ S.mmapSize)
    (hblock : S.InBlock p q.matchBytes) :
    ∃ x', S.Runs ⟨x, m.write 0x10000 (out ++ q.literals), S.base + 82⟩
        ⟨x', m.write 0x10000 (q.decode out), S.base + 58⟩ ∧
      S.Head x' (q.decode out) (p + q.matchBytes.length) := by
  have hbelow := hf.below
  have habove := hf.above
  have heven := hf.even
  have hlen := length_decode out q
  have hlength := hfollows.length
  have hpos := hfollows.pos
  have hreach : q.offset ≤ (out ++ q.literals).length := by
    rw [List.length_append]
    exact hfollows.reach
  have hstop := hblock.stop_le
  have hbytes : q.matchBytes.length = 2 + (extension (q.matchLength - 4)).length := by
    rw [Sequence.matchBytes, List.length_append, length_leBytes]
  have hdecode : q.decode out = copyMatch (out ++ q.literals) q.offset q.matchLength := rfl
  set out₁ := out ++ q.literals with hout₁
  have hlen₁ : out₁.length + q.matchLength = (q.decode out).length := by
    rw [hout₁, List.length_append, hlen]
  have hm : S.Loaded (m.write 0x10000 out₁) := h.write (by omega)
  have hret : S.base + 106 < 2 ^ 32 ∧ S.base + 110 < 2 ^ 32 := by
    unfold Stub.stop at hbelow
    omega
  obtain ⟨x₁, hrun₁, hhead₁, h13₁, h16₁⟩ :=
    run_offset hf hm hhead hfollows.word hreach (by omega) hblock
  have hext := hblock.append.2
  rw [length_leBytes] at hext
  have s2 := step_opImm (x := x₁) hf hm (k := 100) rfl
  have hmask : ImmOp.andi.value (x₁ 16) 15 = nibble (q.matchLength - 4) := by
    rw [ImmOp.value, show word 15 = 2 ^ 4 - 1 from rfl, Nat.and_two_pow_sub_one_eq_mod, h16₁]
    exact h16
  rw [hmask] at s2
  set x₂ := x₁.write 14 (nibble (q.matchLength - 4)) with hx₂
  have s3 := step_jal (x := x₂) hf hm (k := 104) rfl (j := 114) (by omega) rfl
  set x₃ := x₂.write 1 (S.base + 106) with hx₃
  have hframe₃ : ∀ r ∉ [1, 14], x₃ r = x₁ r := by
    intro r hr
    simp only [List.mem_cons, not_or] at hr
    simp [hx₃, hx₂, hr]
  have h1₃ : x₃ 1 = S.base + 106 := by simp [hx₃]
  obtain ⟨x₄, hrun₄, h14₄, h10₄,
    hframe₄⟩ := run_extend hf (n := q.matchLength - 4) (x := x₃) (by omega)
    hm
    (by rw [hframe₃ 0 (by decide), hhead₁.zero]) (by simp [hx₃, hx₂])
    (by rw [hframe₃ 10 (by decide), hhead₁.source]) hext (by rw [h1₃]; omega)
    (by rw [h1₃]; omega)
  rw [h1₃] at hrun₄
  have hframe₄' : ∀ r ∉ [1, 10, 14, 15], x₄ r = x₁ r := by
    intro r hr
    simp only [List.mem_cons, not_or] at hr
    rw [hframe₄ r (by simp [hr]), hframe₃ r (by simp [hr])]
  have s5 := step_opImm (x := x₄) hf hm (k := 106) rfl
  rw [addi_value (by rw [h14₄]; omega : _ = (q.matchLength : Int)) (by omega)] at s5
  set x₅ := x₄.write 14 q.matchLength with hx₅
  have s6 := step_jal (x := x₅) hf hm (k := 108) rfl (j := 136) (by omega) rfl
  set x₆ := x₅.write 1 (S.base + 110) with hx₆
  have hframe₆ : ∀ r ∉ [1, 14], x₆ r = x₄ r := by
    intro r hr
    simp only [List.mem_cons, not_or] at hr
    simp [hx₆, hx₅, hr]
  have h1₆ : x₆ 1 = S.base + 110 := by simp [hx₆]
  obtain ⟨x₇, hrun₇, -, h11₇, hframe₇⟩ := run_copy hf (x := x₆) (by omega : 0 < q.matchLength) hm
    (by rw [hframe₆ 0 (by decide),
      hframe₄' 0 (by decide), hhead₁.zero])
    (by simp [hx₆, hx₅])
    (by rw [hframe₆ 13 (by decide),
      hframe₄' 13 (by decide), h13₁])
    (by rw [hframe₆ 11 (by decide),
      hframe₄' 11 (by decide), hhead₁.destination])
    (by omega) (by omega) (fun i hi => Or.inr ⟨by omega, by omega⟩) (by rw [h1₆]; omega)
    (by rw [h1₆]; omega)
  rw [h1₆, push_match m 0x10000 out₁ hpos hreach, ← hdecode] at hrun₇
  have s8 := step_jal (x := x₇) hf (h.write (l := q.decode out) (d := 0x10000) (by omega))
    (k := 110) rfl (j := 58) (by omega) rfl
  rw [write_zero] at s8
  refine ⟨x₇, hrun₁.trans (.head s2 (.head s3 (hrun₄.trans (.head s5 (.head s6
    (hrun₇.tail s8)))))), hhead₁.of_frame (fun r hr => ?_) ?_ ?_⟩
  · rw [hframe₇ r (by simp; omega), hframe₆ r (by simp; omega), hframe₄' r (by simp; omega)]
  · rw [hframe₇ 10 (by decide),
      hframe₆ 10 (by decide), h10₄]
    omega
  · rw [h11₇]
    omega

/-! ## The loop -/

/-- The address of the literals' end in a sequence at `p`. -/
def literalsEnd (p : Nat) (q : Sequence) : Nat :=
  p + (literalBytes q.literals (nibble (q.matchLength - 4))).length

/-- The end test sees that the literals of each sequence, if it has some, are not the last: they do
not end below 2 GiB in a block that ends above. -/
def Seen (S : Stub) : Nat → List Sequence → Prop
  | _, [] => True
  | p, q :: qs =>
    (q.literals ≠ [] → literalsEnd p q < 2 ^ 31 → S.stop < 2 ^ 31) ∧ Seen S (p + q.bytes.length) qs

instance decidableSeen (S : Stub) : (p : Nat) → (qs : List Sequence) → Decidable (S.Seen p qs)
  | _, [] => inferInstanceAs (Decidable True)
  | p, q :: qs =>
    haveI := decidableSeen S (p + q.bytes.length) qs
    inferInstanceAs (Decidable
      ((q.literals ≠ [] → literalsEnd p q < 2 ^ 31 → S.stop < 2 ^ 31) ∧ S.Seen _ qs))

/-- The end test, taken: the stub jumps to the entry. -/
theorem run_end (hf : S.Fits) (h : S.Loaded m) (hhead : S.Head x out p)
    (htest : signed S.stop ≤ signed p) : S.Runs ⟨x, m, S.base + 78⟩ ⟨x, m, S.entry⟩ := by
  have s1 := step_taken (x := x) hf h (k := 78) rfl (j := 112) (by omega) rfl
    (by rw [hhead.source, hhead.stop, ge_holds]; exact decide_eq_true htest)
  have s2 := step_jr (x := x) h (k := 112) rfl
    (by rw [hhead.entry]; exact hf.entry_even) (by rw [hhead.entry]; exact hf.entry_lt)
  rw [hhead.entry] at s2
  exact .head s1 (.single s2)

section Sequence

variable {x : Regs} {m : Memory} {out tail : List UInt8} {p : Nat} {q : Sequence}

theorem literalsEnd_lt (hblock : S.InBlock p (q.bytes ++ tail)) : literalsEnd p q < S.stop := by
  have hstop := hblock.stop_le
  have hmatch : 2 ≤ q.matchBytes.length := by
    rw [Sequence.matchBytes, List.length_append, length_leBytes]
    omega
  rw [List.length_append, Sequence.bytes, List.length_append] at hstop
  rw [literalsEnd]
  omega

/-- **A sequence** is decoded when the end test sees that its literals are not the last. -/
theorem run_sequence (hf : S.Fits) (h : S.Loaded m) (hhead : S.Head x out p)
    (hfollows : q.Follows out) (hout : (q.decode out).length ≤ S.mmapSize)
    (hblock : S.InBlock p (q.bytes ++ tail))
    (hseen : q.literals ≠ [] → literalsEnd p q < 2 ^ 31 → S.stop < 2 ^ 31) :
    ∃ x', S.Runs ⟨x, m.write 0x10000 out, S.base + 58⟩
        ⟨x', m.write 0x10000 (q.decode out), S.base + 58⟩ ∧
      S.Head x' (q.decode out) (p + q.bytes.length) := by
  have hlen := length_decode out q
  have habove := hf.above
  have hlt := literalsEnd_lt hblock
  obtain ⟨hliterals, hmatch⟩ := hblock.append.1.append
  obtain ⟨x₁, hrun₁, hhead₁, h16₁⟩ :=
    run_literals hf h hhead (nibble_lt _) (by omega) hliterals
  obtain ⟨x₂, hrun₂, hhead₂⟩ := run_match hf h hhead₁ hfollows h16₁ hout hmatch
  have hend : p + (literalBytes q.literals (nibble (q.matchLength - 4))).length +
      q.matchBytes.length = p + q.bytes.length := by
    rw [Sequence.bytes, List.length_append]
    omega
  rw [hend] at hhead₂
  refine ⟨x₂, ?_, hhead₂⟩
  by_cases hne : q.literals = []
  · rw [if_pos hne] at hrun₁
    exact hrun₁.trans hrun₂
  · rw [if_neg hne] at hrun₁
    -- the pointer is not at the end, and the signed test agrees
    have htest : ¬ signed S.stop ≤ signed (literalsEnd p q) := by
      rw [signed_le_iff hlt hf.below]
      have := hseen hne
      omega
    have s1 := step_passed (x := x₁) hf
      (h.write (l := out ++ q.literals) (d := 0x10000) (by rw [List.length_append]; omega))
      (k := 78) rfl
      (by rw [hhead₁.source, hhead₁.stop, ge_holds]; exact decide_eq_false htest)
    exact (hrun₁.tail s1).trans hrun₂

/-- The literals of the sequence at `p` are taken for the last. -/
structure Unseen (S : Stub) (p : Nat) (q : Sequence) : Prop where
  literals : q.literals ≠ []
  below : literalsEnd p q < 2 ^ 31
  above : 2 ^ 31 ≤ S.stop

/-- **A sequence whose literals are taken for the last**: the stub jumps before the end. -/
theorem run_sequence_unseen (hf : S.Fits) (h : S.Loaded m) (hhead : S.Head x out p)
    (hout : (q.decode out).length ≤ S.mmapSize) (hblock : S.InBlock p (q.bytes ++ tail))
    (hunseen : S.Unseen p q) :
    ∃ x', S.Runs ⟨x, m.write 0x10000 out, S.base + 58⟩
      ⟨x', m.write 0x10000 (out ++ q.literals), S.entry⟩ ∧ x' 10 < S.stop := by
  have hlen := length_decode out q
  have hfit := hf.above
  have hlt := literalsEnd_lt hblock
  obtain ⟨x₁, hrun₁, hhead₁, -⟩ :=
    run_literals hf h hhead (nibble_lt _) (by omega) hblock.append.1.append.1
  rw [if_neg hunseen.literals] at hrun₁
  refine ⟨x₁, hrun₁.trans (run_end hf (h.write ?_) hhead₁ ?_), ?_⟩
  · rw [List.length_append]
    omega
  · exact (signed_le_iff hlt hf.below).mpr ⟨hunseen.below, hunseen.above⟩
  · rw [hhead₁.source]
    exact hlt

end Sequence

/-- **The loop**, by induction over the sequences: all are decoded when the end test sees that none
is the last. -/
theorem run_sequences (hf : S.Fits) (h : S.Loaded m) (qs : List Sequence) {tail : List UInt8}
    (hhead : S.Head x out p) (hfollow : Follow out qs)
    (hout : (qs.foldl Sequence.decode out).length ≤ S.mmapSize)
    (hblock : S.InBlock p (qs.flatMap Sequence.bytes ++ tail)) (hseen : S.Seen p qs) :
    ∃ x', S.Runs ⟨x, m.write 0x10000 out, S.base + 58⟩
        ⟨x', m.write 0x10000 (qs.foldl Sequence.decode out), S.base + 58⟩ ∧
      S.Head x' (qs.foldl Sequence.decode out) (p + (qs.flatMap Sequence.bytes).length) := by
  induction qs generalizing x out p with
  | nil => exact ⟨x, .refl, hhead⟩
  | cons q qs ih =>
    obtain ⟨hfollows, hfollow'⟩ := hfollow
    obtain ⟨hfirst, hrest⟩ := hseen
    rw [List.flatMap_cons, List.append_assoc] at hblock
    rw [List.foldl_cons] at hout
    have hlen := length_le_foldl qs (q.decode out)
    obtain ⟨x₁, hrun₁, hhead₁⟩ := run_sequence hf h hhead hfollows (by omega) hblock hfirst
    obtain ⟨x₂, hrun₂, hhead₂⟩ := ih hhead₁ hfollow' hout hblock.append.2 hrest
    refine ⟨x₂, hrun₁.trans hrun₂, ?_⟩
    rw [List.flatMap_cons, List.length_append, ← Nat.add_assoc]
    exact hhead₂

/-- The stub jumps with `part` decoded, after the literals of a sequence that it takes for the
last. -/
def Stops (S : Stub) (b : Block) (part : List UInt8) : Prop :=
  ∃ pre q post, b.sequences = pre ++ q :: post ∧ S.Seen (S.base + 168) pre ∧
    S.Unseen (S.base + 168 + (pre.flatMap Sequence.bytes).length) q ∧
    part = pre.foldl Sequence.decode [] ++ q.literals

/-- The end test sees every sequence or stops at the first that it does not. -/
theorem exists_unseen {qs : List Sequence} (h : ¬ S.Seen p qs) :
    ∃ pre q post, qs = pre ++ q :: post ∧ S.Seen p pre ∧
      S.Unseen (p + (pre.flatMap Sequence.bytes).length) q := by
  induction qs generalizing p with
  | nil => exact absurd trivial h
  | cons q qs ih =>
    by_cases hfirst : q.literals ≠ [] → literalsEnd p q < 2 ^ 31 → S.stop < 2 ^ 31
    · obtain ⟨pre, r, post, rfl, hpre, hr⟩ := ih fun hrest => h ⟨hfirst, hrest⟩
      refine ⟨q :: pre, r, post, rfl, ⟨hfirst, hpre⟩, ?_⟩
      rw [List.flatMap_cons, List.length_append, ← Nat.add_assoc]
      exact hr
    · push Not at hfirst
      obtain ⟨hne, hbelow, habove⟩ := hfirst
      exact ⟨[], q, qs, rfl, trivial, hne, hbelow, habove⟩

/-! ## The block -/

theorem safeStep_rightUnique : Relator.RightUnique S.SafeStep := by
  intro a b c hb hc
  exact Option.some_injective _ (hb.step.symm.trans hc.step)

/-- Two runs that end where the stub cannot go on end alike. -/
theorem runs_stuck_unique {s t u : State} (ht : S.Runs s t) (hu : S.Runs s u)
    (htstuck : ∀ v, ¬ S.SafeStep t v) (hustuck : ∀ v, ¬ S.SafeStep u v) : t = u := by
  rcases Relation.ReflTransGen.total_of_right_unique safeStep_rightUnique ht hu with h | h
  · rcases Relation.ReflTransGen.cases_head h with h | ⟨v, hv, -⟩
    · exact h
    · exact absurd hv (htstuck v)
  · rcases Relation.ReflTransGen.cases_head h with h | ⟨v, hv, -⟩
    · exact h.symm
    · exact absurd hv (hustuck v)

theorem stuck_of_entry (hf : S.Fits) {t : State} (ht : t.pc = S.entry) (v : State) :
    ¬ S.SafeStep t v := by
  intro hstep
  have := hstep.inside
  have := hf.entry_outside
  omega

/-- A run that ends at the entry ends nowhere else. -/
theorem runs_entry_unique (hf : S.Fits) {s t u : State} (ht : S.Runs s t) (hu : S.Runs s u)
    (htpc : t.pc = S.entry) (hupc : u.pc = S.entry) : t = u :=
  runs_stuck_unique ht hu (stuck_of_entry hf htpc) (stuck_of_entry hf hupc)

/-- The stub, run from its start on registers `x` and memory `m`, decodes block `b` to `0x10000`
without a load outside itself and its output, and jumps to the entry with the whole block read. -/
def Decodes (S : Stub) (b : Block) (x : Regs) (m : Memory) : Prop :=
  ∃ x', S.Runs ⟨x, m, S.base⟩
      ⟨x', (m.fill 0x10000 0 S.mmapSize).write 0x10000 b.decode, S.entry⟩ ∧ x' 10 = S.stop

section Block

variable {b : Block} {x : Regs} {m : Memory}

/-- The block is where the loop starts. -/
theorem inBlock_block (hblock : S.block = b.bytes) :
    S.InBlock (S.base + 168)
      (b.sequences.flatMap Sequence.bytes ++ literalBytes b.last b.lastNibble) :=
  ⟨by omega, [], [], by rw [hblock, Block.bytes]; simp, rfl⟩

/-- **A block** is decoded when the end test sees no earlier end. -/
theorem decodes_of_seen (hf : S.Fits) (hblock : S.block = b.bytes) (hwf : b.WellFormed)
    (hlast : b.last ≠ []) (hout : b.decode.length ≤ S.mmapSize) (h : S.Loaded m) (h0 : x 0 = 0)
    (hseen : S.Seen (S.base + 168) b.sequences) : S.Decodes b x m := by
  have hin := inBlock_block hblock
  have hlen := b.length_decode
  obtain ⟨x₁, hrun₁, hhead₁⟩ := run_start hf h h0
  have hm := h.fill 0 hf.above
  obtain ⟨x₂, hrun₂, hhead₂⟩ :=
    run_sequences hf hm b.sequences hhead₁ hwf.follow (by omega) hin hseen
  obtain ⟨x₃, hrun₃, hhead₃, -⟩ :=
    run_literals hf hm hhead₂ hwf.nibble (by omega) hin.append.2
  rw [if_neg hlast] at hrun₃
  have hstop : S.base + 168 + (b.sequences.flatMap Sequence.bytes).length +
      (literalBytes b.last b.lastNibble).length = S.stop := by
    rw [Stub.stop, hblock, Block.bytes, List.length_append]
    omega
  rw [hstop] at hhead₃
  have hend := run_end hf (hm.write (d := 0x10000) (l := b.decode)
    (by have := hf.above; omega)) hhead₃ (le_refl _)
  exact ⟨x₃, ((hrun₁.trans hrun₂).trans hrun₃).trans hend, hhead₃.source⟩

/-- What is decoded is the start of the block's output. -/
theorem Stops.prefix {part : List UInt8} (h : S.Stops b part) : part <+: b.decode := by
  obtain ⟨pre, q, post, hsplit, -, -, rfl⟩ := h
  rw [Block.decode, hsplit, List.foldl_append, List.foldl_cons]
  exact ((prefix_copyMatch _ q.offset q.matchLength).trans (prefix_foldl post _)).trans
    (List.prefix_append _ _)

/-- **A block** is decoded up to the literals that are taken for the last. -/
theorem run_of_stops (hf : S.Fits) (hblock : S.block = b.bytes) (hwf : b.WellFormed)
    (hout : b.decode.length ≤ S.mmapSize) (h : S.Loaded m) (h0 : x 0 = 0) {part : List UInt8}
    (hstops : S.Stops b part) :
    ∃ x', S.Runs ⟨x, m, S.base⟩
      ⟨x', (m.fill 0x10000 0 S.mmapSize).write 0x10000 part, S.entry⟩ ∧ x' 10 < S.stop := by
  obtain ⟨pre, q, post, hsplit, hpre, hunseen, rfl⟩ := hstops
  have hin := inBlock_block hblock
  have hfollow := hwf.follow
  have hlen := b.length_decode
  rw [hsplit, List.foldl_append, List.foldl_cons] at hlen
  rw [hsplit, List.flatMap_append, List.flatMap_cons, List.append_assoc, List.append_assoc] at hin
  rw [hsplit] at hfollow
  have hpost := length_le_foldl post (q.decode (pre.foldl Sequence.decode []))
  have hq := length_decode (pre.foldl Sequence.decode []) q
  have hm := h.fill 0 hf.above
  obtain ⟨x₁, hrun₁, hhead₁⟩ := run_start hf h h0
  obtain ⟨x₂, hrun₂, hhead₂⟩ :=
    run_sequences hf hm pre hhead₁ hfollow.append.1 (by omega) hin hpre
  obtain ⟨x₃, hrun₃, hlt⟩ :=
    run_sequence_unseen hf hm hhead₂ (by omega) hin.append.2 hunseen
  exact ⟨x₃, (hrun₁.trans hrun₂).trans hrun₃, hlt⟩

/-- A block is not decoded when the end test takes an earlier end. -/
theorem seen_of_decodes (hf : S.Fits) (hblock : S.block = b.bytes) (hwf : b.WellFormed)
    (hout : b.decode.length ≤ S.mmapSize) (h : S.Loaded m) (h0 : x 0 = 0)
    (hdecodes : S.Decodes b x m) : S.Seen (S.base + 168) b.sequences := by
  by_contra hmissed
  obtain ⟨pre, q, post, hsplit, hpre, hunseen⟩ := exists_unseen hmissed
  obtain ⟨x₁, hrun₁, hlt⟩ := run_of_stops hf hblock hwf hout h h0
    ⟨pre, q, post, hsplit, hpre, hunseen, rfl⟩
  obtain ⟨x', hrun', hstop⟩ := hdecodes
  obtain rfl : x₁ = x' := congrArg State.x (runs_entry_unique hf hrun₁ hrun' rfl rfl)
  omega

/-- A block without any literal is read past its end: the stub never comes to the entry. -/
theorem not_runs_of_empty (hf : S.Fits) (hblock : S.block = b.bytes) (hwf : b.WellFormed)
    (hsequences : b.sequences = []) (hlast : b.last = []) (h : S.Loaded m) (h0 : x 0 = 0)
    {t : State} (hrun : S.Runs ⟨x, m, S.base⟩ t) : t.pc ≠ S.entry := by
  intro hpc
  have hbelow := hf.below
  have habove := hf.above
  have hin := inBlock_block hblock
  rw [hsequences, hlast, List.flatMap_nil, List.nil_append] at hin
  have hm := h.fill 0 hf.above
  obtain ⟨x₁, hrun₁, hhead₁⟩ := run_start hf h h0
  obtain ⟨x₂, hrun₂, hhead₂, -⟩ :=
    run_literals hf hm hhead₁ hwf.nibble (Nat.zero_le _) hin
  rw [if_pos rfl] at hrun₂
  have hstop : S.base + 168 + (literalBytes [] b.lastNibble).length = S.stop := by
    rw [Stub.stop, hblock, Block.bytes, hsequences, hlast]
    rfl
  rw [hstop] at hhead₂
  -- the next load is at the end of the block
  have hstuck : ∀ v, ¬ S.SafeStep
      ⟨x₂, (m.fill 0x10000 0 S.mmapSize).write 0x10000 [], S.base + 82⟩ v := by
    intro v hstep
    have hfetch : fetch ((m.fill 0x10000 0 S.mmapSize).write 0x10000 []) (S.base + 82) =
        some (.lbu 15 10 0, 4) :=
      ((hm.write (by simpa using by omega)).fetch (by omega)).trans (fetch_code (k := 82) rfl)
    have hread := hstep.reads S.stop (by
      simp only [Rv.reads, hfetch, Instr.reads]
      rw [word_eq (by rw [hhead₂.source]; ring) hbelow]
      exact List.mem_singleton_self _)
    have hdestination := hhead₂.destination
    rcases hread with ⟨-, hlt⟩ | ⟨-, hlt⟩
    · exact Nat.lt_irrefl _ hlt
    · change S.stop < x₂ 11 at hlt
      rw [hdestination] at hlt
      have hnil : ([] ++ [] : List UInt8).length = 0 := rfl
      unfold Stub.stop at hlt
      omega
  obtain rfl := runs_stuck_unique hrun (hrun₁.trans hrun₂) (stuck_of_entry hf hpc) hstuck
  have := hf.entry_outside
  simp only at hpc
  omega

end Block

/-- **The stub decodes a block exactly** when its signed end test takes no literals before the last
for the end of the block. -/
theorem decodes_iff (S : Stub) (hf : S.Fits) (b : Block) (hblock : S.block = b.bytes)
    (hwf : b.WellFormed) (hlast : b.last ≠ []) (hout : b.decode.length ≤ S.mmapSize) (x : Regs)
    (m : Memory) (h : S.Loaded m) (h0 : x 0 = 0) :
    S.Decodes b x m ↔ S.Seen (S.base + 168) b.sequences :=
  ⟨seen_of_decodes hf hblock hwf hout h h0, decodes_of_seen hf hblock hwf hlast hout h h0⟩

/-! ## The stubs of the packer -/

/-- The stub for an image of `n` bytes that starts at `0x10000` (`:186-204`). -/
def packed (n entry : Nat) (block : List UInt8) : Stub where
  base := (0x20000 + n) / 0x10000 * 0x10000 + 84
  mmapSize := (n + 0x10000) / 0x10000 * 0x10000
  entry := entry
  block := block

/-- Memory with the stub in it. -/
def memory (S : Stub) : Memory := fun a => S.bytes.getD (a - S.base) 0

theorem loaded_memory (S : Stub) : S.Loaded S.memory := by
  intro i _
  rw [memory, Nat.add_sub_cancel_left]

theorem packed_fits {n entry : Nat} {block : List UInt8} (heven : entry % 2 = 0)
    (hentry : entry < 0x10000 + n) (hbelow : 0x20000 + n + 252 + block.length < 2 ^ 32) :
    (packed n entry block).Fits where
  even := by
    simp only [packed]
    omega
  above := by
    simp only [packed]
    omega
  below := by
    simp only [packed, stop]
    omega
  entry_even := heven
  entry_lt := by
    simp only [packed]
    omega
  entry_outside := by
    simp only [packed]
    omega

/-- A block of one match and one literal after it. -/
def shortBlock : Block := ⟨[⟨[65], 1, 4⟩], [66], 0⟩

theorem shortBlock_wellFormed : shortBlock.WellFormed :=
  ⟨⟨⟨by decide, by decide, by decide, by decide⟩, trivial⟩, by decide⟩

/-- Its stub decodes it. -/
theorem decodes_shortBlock :
    (packed 6 0x10000 shortBlock.bytes).Decodes shortBlock (fun _ => 0)
      (packed 6 0x10000 shortBlock.bytes).memory :=
  (decodes_iff _ (packed_fits rfl (by decide) (by decide)) shortBlock rfl shortBlock_wellFormed
    (by decide) (by decide) _ _ (loaded_memory _) rfl).mpr (by decide)

/-- A block of one match and `k` literals after it. -/
def longBlock (k : Nat) : Block := ⟨[⟨[0], 1, 4⟩], List.replicate k 0, 0⟩

theorem longBlock_wellFormed (k : Nat) : (longBlock k).WellFormed :=
  ⟨⟨⟨by decide, by decide, by decide, by decide⟩, trivial⟩, Nat.succ_pos 15⟩

theorem length_longBlock_decode (k : Nat) : (longBlock k).decode.length = 5 + k := by
  rw [Block.decode, List.length_append, longBlock, List.length_replicate]
  rfl

theorem length_longBlock_bytes {k : Nat} (hk : 15 ≤ k) :
    (longBlock k).bytes.length = 5 + ((k - 15) / 255 + 1 + k) := by
  rw [Block.bytes, List.length_append, longBlock, literalBytes, List.length_cons,
    List.length_append, List.length_replicate, extension, if_neg (by omega), List.length_append,
    List.length_replicate, List.length_singleton]
  change 4 + _ = _
  omega

/-- A block whose end lies above 2 GiB, with its output below, is not decoded: the literals of its
first sequence are taken for the last. -/
theorem not_decodes_longBlock :
    let b := longBlock (2 ^ 30)
    let S := packed (2 ^ 30 + 5) 0x10000 b.bytes
    b.WellFormed ∧ b.last ≠ [] ∧ 0x10000 + b.decode.length ≤ 2 ^ 31 ∧ S.Fits ∧
      S.block = b.bytes ∧ b.decode.length ≤ S.mmapSize ∧ S.Loaded S.memory ∧
      ¬ S.Decodes b (fun _ => 0) S.memory := by
  intro b S
  have hdecode : b.decode.length = 5 + 2 ^ 30 := length_longBlock_decode _
  have hbytes : b.bytes.length = 5 + ((2 ^ 30 - 15) / 255 + 1 + 2 ^ 30) :=
    length_longBlock_bytes (by omega)
  have hfits : S.Fits := packed_fits rfl (by omega) (by rw [hbytes]; omega)
  have hout : b.decode.length ≤ S.mmapSize := by
    rw [hdecode]
    simp only [S, packed]
    omega
  have hstop : S.stop = (0x20000 + (2 ^ 30 + 5)) / 0x10000 * 0x10000 + 84 + 168 + b.bytes.length :=
    rfl
  rw [hbytes] at hstop
  refine ⟨longBlock_wellFormed _, ?_, by omega, hfits, rfl, hout, loaded_memory S, ?_⟩
  · intro hnil
    have := congrArg List.length hnil
    rw [show b.last = List.replicate (2 ^ 30) 0 from rfl, List.length_replicate,
      List.length_nil] at this
    omega
  · intro hdecodes
    have hseen := seen_of_decodes hfits rfl (longBlock_wellFormed _) hout (loaded_memory S) rfl
      hdecodes
    have htest := hseen.1 (List.cons_ne_nil _ _) (by
      change (0x20000 + (2 ^ 30 + 5)) / 0x10000 * 0x10000 + 84 + 168 + 2 < _
      omega)
    omega

end RvLlvm.Packer.Lz4.Stub
