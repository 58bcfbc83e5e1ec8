import RvLlvm.Lld.FinalizeRelax

/-!
# Alignment in links of mixed objects

`R_RISCV_ALIGN` in a link of objects with and without compressed instructions: the padding is sized
for the object (`RISCVAsmBackend.cpp:678-695`), calls shrink by the flags of the output
(`calcEFlags`, `relaxCall`, `relax` and `finalizeRelax`, `lld/ELF/Arch/RISCV.cpp:140-165, 572-596,
651-723, 751-853`).

* `calcEFlags_rvc`: one object with compressed instructions turns them on for all.
* `Survives`: what an `R_RISCV_ALIGN` is for. `survives_iff`: it survives a turn of `relax` unless
  its object has no compressed instructions and the padding has come to start two bytes past the
  boundary.
* `alignment_iff`: so in every run of passes. `standsWell_of_noShort`, `alignment_of_noShort`: nothing
  but a call shrunk to two bytes brings it there.
-/

namespace RvLlvm.Lld

open RvLlvm.Support

/-! ## The flags of the output -/

/-- An object file. -/
structure ObjFile where
  name : String
  eflags : Nat

/-- `EF_RISCV_RVC`. -/
def efRiscvRvc : Nat := 0x0001

/-- `EF_RISCV_FLOAT_ABI`. -/
def efRiscvFloatAbi : Nat := 0x0006

/-- `EF_RISCV_RVE`. -/
def efRiscvRve : Nat := 0x0008

/-- One turn of the loop of `calcEFlags`: the flags and the errors so far. -/
def mergeEFlags (first : ObjFile) (x : Nat × List String) (f : ObjFile) : Nat × List String :=
  let target := if f.eflags &&& efRiscvRvc ≠ 0 then x.1 ||| efRiscvRvc else x.1
  (target, x.2 ++
    (if f.eflags &&& efRiscvFloatAbi ≠ target &&& efRiscvFloatAbi then
      [f.name ++ ": cannot link object files with different floating-point ABI from " ++
        first.name]
    else []) ++
    (if f.eflags &&& efRiscvRve ≠ target &&& efRiscvRve then
      [f.name ++ ": cannot link object files with different EF_RISCV_RVE"]
    else []))

/-- `calcEFlags`: the flags of the output, and the errors. -/
def calcEFlags : List ObjFile → Nat × List String
  | [] => (0, [])
  | first :: files => (first :: files).foldl (mergeEFlags first) (first.eflags, [])

/-- The flags tell of compressed instructions. -/
def hasRvc (eflags : Nat) : Bool := eflags &&& efRiscvRvc != 0

theorem hasRvc_iff (eflags : Nat) : hasRvc eflags = true ↔ eflags.testBit 0 = true := by
  unfold hasRvc efRiscvRvc
  rw [bne_iff_ne, Nat.and_one_is_mod, Nat.testBit_zero, decide_eq_true_eq]
  omega

theorem foldl_mergeEFlags_rvc (first : ObjFile) (files : List ObjFile) (x : Nat × List String) :
    hasRvc (files.foldl (mergeEFlags first) x).1 = true ↔
      hasRvc x.1 = true ∨ ∃ f ∈ files, hasRvc f.eflags = true := by
  induction files generalizing x with
  | nil => simp
  | cons f files ih =>
    have hstep : hasRvc (mergeEFlags first x f).1 = true ↔
        hasRvc x.1 = true ∨ hasRvc f.eflags = true := by
      unfold mergeEFlags
      simp only
      split
      next hf =>
        have hself : hasRvc f.eflags = true := bne_iff_ne.mpr hf
        rw [hasRvc_iff, Nat.testBit_or]
        simp only [hself, or_true, iff_true, Bool.or_eq_true]
        exact Or.inr rfl
      next hf =>
        have hself : ¬ hasRvc f.eflags = true := fun h => hf (bne_iff_ne.mp h)
        exact (or_iff_left hself).symm
    rw [List.foldl_cons, ih, hstep, List.exists_mem_cons_iff, or_assoc]

/-- **One object with compressed instructions turns them on** in the output. -/
theorem calcEFlags_rvc (files : List ObjFile) :
    hasRvc (calcEFlags files).1 = true ↔ ∃ f ∈ files, hasRvc f.eflags = true := by
  cases files with
  | nil =>
    constructor
    · intro h
      exact absurd h (by decide)
    · rintro ⟨f, hf, -⟩
      exact absurd hf List.not_mem_nil
  | cons first files =>
    unfold calcEFlags
    rw [foldl_mergeEFlags_rvc]
    constructor
    · rintro (h | h)
      · exact ⟨first, List.mem_cons_self, h⟩
      · exact h
    · exact Or.inr

/-! ## Padding -/

/-- A sequence of `nop`s, with `c.nop`s where instructions may be compressed. -/
inductive Nops (rvc : Bool) : List UInt8 → Prop
  | nil : Nops rvc []
  | nop {bytes : List UInt8} : Nops rvc bytes → Nops rvc (le32 0x00000013 ++ bytes)
  | cnop {bytes : List UInt8} : rvc = true → Nops rvc bytes → Nops rvc (le16 0x0001 ++ bytes)

/-- `MinNopLen` of an object. -/
def minNopLen (rvc : Bool) : Nat := if rvc then 2 else 4

/-- What the assembler leaves of a section: the padding of every `R_RISCV_ALIGN` is that of the
object, in a place where code of the object can be, for an alignment `.p2align` allows. -/
structure Assembled (rvc : Bool) (sec : InputSection) (content : List UInt8) : Prop where
  addend : ∀ r ∈ sec.relocs, r.type = .align →
    ∃ k < 32, minNopLen rvc < 2 ^ k ∧ r.addend = 2 ^ k - minNopLen rvc
  place : ∀ r ∈ sec.relocs, r.type = .align → minNopLen rvc ∣ r.offset
  within : ∀ r ∈ sec.relocs, r.type = .align → r.offset + r.addend.toNat ≤ content.length
  padding : ∀ r ∈ sec.relocs, r.type = .align →
    Nops rvc ((content.drop r.offset).take r.addend.toNat)

namespace Nops

theorem mono {bytes : List UInt8} (h : Nops false bytes) (rvc : Bool) : Nops rvc bytes := by
  induction h with
  | nil => exact .nil
  | nop _ ih => exact .nop ih
  | cnop hf => exact absurd hf Bool.false_ne_true

/-- Padding without `c.nop` stays so when whole `nop`s are dropped. -/
theorem drop {bytes : List UInt8} (h : Nops false bytes) (n : Nat) :
    Nops false (bytes.drop (4 * n)) := by
  induction n generalizing bytes with
  | zero => exact h
  | succ n ih =>
    cases h with
    | nil =>
      rw [List.drop_nil]
      exact .nil
    | nop h => exact ih h
    | cnop hf => exact absurd hf Bool.false_ne_true

theorem replicate (rvc : Bool) (n : Nat) {bytes : List UInt8} (h : Nops rvc bytes) :
    Nops rvc ((List.replicate n (le32 0x00000013)).flatten ++ bytes) := by
  induction n with
  | zero => exact h
  | succ n ih =>
    rw [List.replicate_succ, List.flatten_cons, List.append_assoc]
    exact .nop ih

end Nops

/-- The padding `finalizeRelax` writes. -/
theorem nops_spec {rvc : Bool} {d : Nat} (h : d % 4 = 0 ∨ rvc = true ∧ d % 4 = 2) :
    ∃ bytes, nops d = some bytes ∧ bytes.length = d ∧ Nops rvc bytes := by
  unfold nops
  have hlen : (List.replicate (d / 4) (le32 0x00000013)).flatten.length = d / 4 * 4 := by
    rw [List.length_flatten, List.map_replicate, List.sum_replicate]
    rfl
  simp only [Int.toNat_natCast]
  rw [if_neg (by omega)]
  rcases h with h | ⟨hrvc, h⟩
  · refine ⟨_, if_pos h, ?_, ?_⟩
    · rw [hlen]
      omega
    · have := Nops.replicate rvc (d / 4) .nil
      rw [List.append_nil] at this
      exact this
  · refine ⟨_, (if_neg (by omega)).trans (if_pos h), ?_, ?_⟩
    · rw [List.length_append, hlen]
      have : (le16 0x0001).length = 2 := rfl
      omega
    · exact Nops.replicate rvc (d / 4) (.cnop hrvc .nil)

/-- The padding that `finalizeRelax` leaves of `r` after decision `z`: the bytes it writes, and what
it copies from then to the end of the padding. -/
def keptPadding (old : List UInt8) (r : Relocation) (z : Relaxed) : Option (List UInt8) :=
  if z.remove = 0 ∧ z.type = .none then copyRange old r.offset (r.offset + r.addend.toNat)
  else
    (rewrite r z.type z.remove []).bind fun (bytes, _, _) =>
      (copyRange old (r.offset + bytes.length + z.remove) (r.offset + r.addend.toNat)).map
        (bytes ++ ·)

/-- **An `R_RISCV_ALIGN` does its work**: no byte is missing, the padding kept is made of `nop`s and
the code behind it is aligned. -/
structure Survives (rvcOut rvc : Bool) (old : List UInt8) (r : Relocation) (loc : Int)
    (z : Relaxed) : Prop where
  nonneg : z.remove < 2 ^ 31
  nops : ∃ bytes, keptPadding old r z = some bytes ∧ (bytes.length : Int) = r.addend - z.remove ∧
    Nops rvcOut bytes
  aligned : (loc + (r.addend - z.remove)) % (r.addend + minNopLen rvc) = 0

namespace Link

variable {L : Link}

/-! ## One `R_RISCV_ALIGN` -/

/-- The distance to the next boundary. -/
def toBoundary (loc align : Int) : Int := (loc + align - 1) / align * align - loc

theorem toBoundary_spec (loc align : Int) (h : 0 < align) :
    0 ≤ toBoundary loc align ∧ toBoundary loc align < align ∧
      align ∣ loc + toBoundary loc align := by
  have hdiv := Int.emod_add_mul_ediv (loc + align - 1) align
  have hlo := Int.emod_nonneg (loc + align - 1) h.ne'
  have hhi := Int.emod_lt_of_pos (loc + align - 1) h
  have hcomm := Int.mul_comm ((loc + align - 1) / align) align
  unfold toBoundary
  refine ⟨by omega, by omega, (loc + align - 1) / align, ?_⟩
  omega

theorem powerOf2Ceil_pow {k n : Nat} (hlo : 2 ^ k < 2 * n) (hhi : n ≤ 2 ^ k) (hn : 2 ≤ n) :
    powerOf2Ceil n = 2 ^ k := by
  unfold powerOf2Ceil
  rw [if_neg (by omega), if_neg (by omega)]
  congr 1
  have hk : k ≠ 0 := by
    rintro rfl
    omega
  obtain ⟨j, rfl⟩ := Nat.exists_eq_succ_of_ne_zero hk
  rw [Nat.pow_succ] at hlo hhi
  have hlog : (n - 1).log2 = j := (Nat.log2_eq_iff (by omega)).mpr ⟨by omega, by
    rw [Nat.pow_succ]
    omega⟩
  rw [hlog]

/-- What the assembler and the section's place say of an `R_RISCV_ALIGN` at address `loc`. -/
structure AlignAt (rvc : Bool) (r : Relocation) (loc : Int) : Prop where
  type : r.type = .align
  addend : ∃ k < 32, minNopLen rvc < 2 ^ k ∧ r.addend = 2 ^ k - minNopLen rvc
  even : loc % 2 = 0

variable {loc : Int} {r : Relocation} {rvc : Bool} {rest : List Relocation}

/-- The alignment is a power of two that is no smaller than the next `nop`. -/
theorem AlignAt.align (h : AlignAt rvc r loc) :
    ∃ k, r.addend + minNopLen rvc = (2 ^ k : Nat) ∧ 2 ^ k ≤ 2 ^ 31 ∧ 4 ∣ 2 ^ k ∧
      (rvc = false → 8 ∣ 2 ^ k) := by
  obtain ⟨k, hk, hlt, haddend⟩ := h.addend
  have htwo : 2 < 2 ^ k := by
    unfold minNopLen at hlt
    split at hlt <;> omega
  have hk2 : 2 ≤ k := by
    by_contra hlow
    have : 2 ^ k ≤ 2 ^ 1 := Nat.pow_le_pow_right (by decide) (by omega)
    omega
  refine ⟨k, ?_, Nat.pow_le_pow_right (by decide) (by omega), Nat.pow_dvd_pow 2 hk2, ?_⟩
  · rw [haddend]
    push_cast
    ring
  · rintro rfl
    have hfour : 4 < 2 ^ k := hlt
    have hk3 : 3 ≤ k := by
      by_contra hlow
      have : 2 ^ k ≤ 2 ^ 2 := Nat.pow_le_pow_right (by decide) (by omega)
      omega
    exact Nat.pow_dvd_pow 2 hk3

/-- The number of bytes to remove, before it is cut to a word. -/
theorem relaxReloc_align {st : State} {s : SecId} (h : AlignAt rvc r loc) :
    L.relaxReloc st s loc r rest =
      ⟨.none, [], word (r.addend - toBoundary loc (r.addend + minNopLen rvc))⟩ := by
  obtain ⟨k, halign, -, hfour, height⟩ := h.align
  have hceil : powerOf2Ceil (r.addend + 2).toNat = 2 ^ k := by
    have hpos : 0 < 2 ^ k := Nat.two_pow_pos k
    unfold minNopLen at halign
    cases rvc with
    | false =>
      have := height rfl
      simp only [Bool.false_eq_true, if_false] at halign
      apply powerOf2Ceil_pow <;> omega
    | true =>
      simp only [if_true] at halign
      apply powerOf2Ceil_pow <;> omega
  unfold relaxReloc toBoundary
  rw [h.type]
  simp only [hceil]
  rw [halign]
  congr 2
  ring

/-- The padding is long enough. -/
def StandsWell (rvc : Bool) (r : Relocation) (loc : Int) : Prop :=
  rvc = true ∨ loc % (r.addend + 4) ≠ 2

instance (rvc : Bool) (r : Relocation) (loc : Int) : Decidable (StandsWell rvc r loc) :=
  inferInstanceAs (Decidable (_ ∨ _))

theorem toBoundary_le_iff (h : AlignAt rvc r loc) :
    toBoundary loc (r.addend + minNopLen rvc) ≤ r.addend ↔ StandsWell rvc r loc := by
  obtain ⟨k, halign, -, hfour, height⟩ := h.align
  have hpos : 0 < 2 ^ k := Nat.two_pow_pos k
  have heven := h.even
  obtain ⟨hlo, hhi, hdvd⟩ := toBoundary_spec loc (2 ^ k : Nat) (by omega)
  unfold StandsWell
  rw [halign]
  -- the boundary is even, so the distance to it is
  have htwo : (2 : Int) ∣ loc + toBoundary loc (2 ^ k : Nat) := by
    refine Int.dvd_trans ?_ hdvd
    omega
  unfold minNopLen at halign
  cases rvc with
  | true =>
    simp only [if_true] at halign
    constructor
    · exact fun _ => Or.inl rfl
    · intro _
      omega
  | false =>
    have := height rfl
    simp only [Bool.false_eq_true, if_false] at halign
    have haddend : r.addend + 4 = (2 ^ k : Nat) := by omega
    rw [haddend]
    simp only [Bool.false_eq_true, false_or]
    constructor
    · intro hle hmod
      have hnext : ((2 ^ k : Nat) : Int) ∣ toBoundary loc (2 ^ k : Nat) + 2 := by
        have hself : ((2 ^ k : Nat) : Int) ∣ loc - 2 := by
          rw [← hmod]
          exact Int.dvd_self_sub_emod
        have := Int.dvd_sub hdvd hself
        have hsum : loc + toBoundary loc (2 ^ k : Nat) - (loc - 2) =
          toBoundary loc (2 ^ k : Nat) + 2 := by ring
        rwa [hsum] at this
      have := Int.le_of_dvd (by omega) hnext
      omega
    · intro hmod
      by_contra hgt
      apply hmod
      have hdist : toBoundary loc (2 ^ k : Nat) = (2 ^ k : Nat) - 2 := by omega
      rw [hdist] at hdvd
      have hself : ((2 ^ k : Nat) : Int) ∣ loc - 2 := by
        have := Int.dvd_sub hdvd (Int.dvd_refl ((2 ^ k : Nat) : Int))
        have hsum : loc + (((2 ^ k : Nat) : Int) - 2) - (2 ^ k : Nat) = loc - 2 := by ring
        rwa [hsum] at this
      rw [Int.emod_eq_emod_iff_emod_sub_eq_zero.mpr (Int.emod_eq_zero_of_dvd hself)]
      exact Int.emod_eq_of_lt (by decide) (by omega)

theorem copyRange_eq {old : List UInt8} {start stop : Nat} (h : start ≤ stop)
    (h' : stop ≤ old.length) :
    copyRange old start stop = some ((old.drop start).take (stop - start)) := if_pos ⟨h, h'⟩

/-- The padding kept when `remove` bytes go and `d` stay. -/
theorem keptPadding_nops {rvcOut : Bool} {old : List UInt8} {remove d : Nat}
    (htype : r.type = .align) (haddend : r.addend = (remove + d : Nat))
    (hwithin : r.offset + (remove + d) ≤ old.length)
    (hpad : Nops rvc ((old.drop r.offset).take (remove + d))) (hrvc : rvc = true → rvcOut = true)
    (hplain : (remove + d) % 4 = 0 → rvc = false) (hd : d % 4 = 0 ∨ rvcOut = true ∧ d % 4 = 2) :
    ∃ bytes, keptPadding old r ⟨.none, [], remove⟩ = some bytes ∧ bytes.length = d ∧
      Nops rvcOut bytes := by
  have hnat : r.addend.toNat = remove + d := by omega
  have hnops : Nops rvcOut ((old.drop r.offset).take (remove + d)) := by
    cases rvc with
    | true =>
      rw [hrvc rfl]
      exact hpad
    | false => exact hpad.mono rvcOut
  unfold keptPadding
  rw [hnat]
  by_cases hzero : remove = 0
  · -- the relocation is passed by
    subst hzero
    refine ⟨_, (if_pos ⟨rfl, rfl⟩).trans (copyRange_eq (Nat.le_add_right _ _) hwithin), ?_, ?_⟩
    · rw [List.length_take, List.length_drop]
      omega
    · rw [Nat.add_sub_cancel_left]
      exact hnops
  · rw [if_neg fun h => hzero h.1]
    unfold rewrite
    simp only [htype]
    by_cases hmiddle : remove % 4 ≠ 0 ∨ r.addend % 4 ≠ 0
    · -- the `nop`s are written anew
      obtain ⟨bytes, hbytes, hlen, hvalid⟩ := nops_spec hd
      have hskip : r.addend - (remove : Int) = d := by omega
      rw [if_pos hmiddle, hskip, hbytes]
      simp only [Option.map_some, Option.bind_some]
      rw [copyRange_eq (by omega) hwithin]
      refine ⟨bytes, ?_, hlen, hvalid⟩
      have hnone : r.offset + (remove + d) - (r.offset + bytes.length + remove) = 0 := by omega
      rw [Option.map_some, hnone, List.take_zero, List.append_nil]
    · -- the first `nop`s go
      rw [if_neg hmiddle]
      simp only [Option.bind_some, List.length_nil, Nat.add_zero]
      rw [copyRange_eq (by omega) hwithin, Option.map_some]
      refine ⟨_, rfl, ?_, ?_⟩
      · rw [List.nil_append, List.length_take, List.length_drop]
        omega
      · have hfour : remove = 4 * (remove / 4) := by omega
        obtain rfl := hplain (by omega)
        have hdrop := (hpad.drop (remove / 4)).mono rvcOut
        rw [← hfour, List.drop_take, List.drop_drop] at hdrop
        rw [List.nil_append]
        have hlen : r.offset + (remove + d) - (r.offset + remove) = remove + d - remove := by omega
        rw [hlen]
        exact hdrop

/-- **An `R_RISCV_ALIGN` survives** exactly when its padding is long enough where it has come to
stand. -/
theorem survives_iff {rvcOut : Bool} {old : List UInt8} {st : State} {s : SecId}
    (h : AlignAt rvc r loc) (hwithin : r.offset + r.addend.toNat ≤ old.length)
    (hpad : Nops rvc ((old.drop r.offset).take r.addend.toNat)) (hrvc : rvc = true → rvcOut = true)
    (hquad : rvcOut = false → loc % 4 = 0) :
    Survives rvcOut rvc old r loc (L.relaxReloc st s loc r rest) ↔ StandsWell rvc r loc := by
  obtain ⟨k, halign, hmax, hfour, height⟩ := h.align
  have hpos : 0 < 2 ^ k := Nat.two_pow_pos k
  have hlen : minNopLen rvc = 2 ∧ rvc = true ∨ minNopLen rvc = 4 ∧ rvc = false := by
    cases rvc with
    | true => exact Or.inl ⟨rfl, rfl⟩
    | false => exact Or.inr ⟨rfl, rfl⟩
  have hlong : minNopLen rvc ≤ 2 ^ k := by
    rcases hlen with ⟨hm, -⟩ | ⟨hm, -⟩ <;> omega
  have heven := h.even
  obtain ⟨hlo, hhi, hdvd⟩ := toBoundary_spec loc (2 ^ k : Nat) (by omega)
  have hle := toBoundary_le_iff h
  rw [relaxReloc_align h, ← hle, halign]
  rw [halign] at hle
  constructor
  · intro hs
    have hnonneg := hs.nonneg
    simp only at hnonneg
    unfold word at hnonneg
    omega
  · intro hfits
    obtain ⟨d, hd⟩ := Int.eq_ofNat_of_zero_le hlo
    rw [hd] at hfits hdvd hhi ⊢
    obtain ⟨remove, hremove⟩ := Int.eq_ofNat_of_zero_le (Int.sub_nonneg.mpr hfits)
    have hword : word (r.addend - (d : Int)) = remove := by
      rw [hremove]
      apply word_of_lt
      omega
    rw [hword]
    have haddend : r.addend = (remove + d : Nat) := by omega
    have hnat : r.addend.toNat = remove + d := by omega
    have hfourI : (4 : Int) ∣ loc + d := Int.dvd_trans (by omega) hdvd
    have hd4 : d % 4 = 0 ∨ rvcOut = true ∧ d % 4 = 2 := by
      cases hout : rvcOut with
      | true =>
        have : d % 4 = 0 ∨ d % 4 = 2 := by omega
        exact this.imp_right fun h2 => ⟨rfl, h2⟩
      | false =>
        have := hquad hout
        left
        omega
    have hplain : (remove + d) % 4 = 0 → rvc = false := by
      intro hzero
      rcases hlen with ⟨hm, -⟩ | ⟨-, hno⟩
      · omega
      · exact hno
    rw [hnat] at hwithin hpad
    obtain ⟨bytes, hbytes, hblen, hvalid⟩ :=
      keptPadding_nops h.type haddend hwithin hpad hrvc hplain hd4
    refine ⟨?_, ⟨bytes, hbytes, ?_, hvalid⟩, ?_⟩
    · simp only
      omega
    · simp only
      omega
    · simp only
      rw [halign]
      apply Int.emod_eq_zero_of_dvd
      have hsum : loc + (r.addend - (remove : Int)) = loc + d := by omega
      rw [hsum]
      exact hdvd

/-! ## The turns of a pass -/

/-- A turn of the loop of `relax`: the relocation, where it has come to stand, and what it
becomes. -/
structure Turn where
  reloc : Relocation
  loc : Int
  result : Relaxed

/-- The turns of the loop of `relax`. -/
def turnsLoop (L : Link) (s : SecId) (secAddr : Int) :
    List Relocation → List Nat → RelaxState → List Turn
  | [], _, _ => []
  | r :: rest, olds, x =>
    ⟨r, secAddr + r.offset - x.delta,
      L.relaxReloc x.st s (secAddr + r.offset - x.delta) r rest⟩ ::
      turnsLoop L s secAddr rest olds.tail (L.relaxStep s secAddr r rest (olds.headD 0) x)

/-- The turns of `relax` for section `s`. -/
def turns (L : Link) (st : State) (s : SecId) : List Turn :=
  turnsLoop L s (L.secVA st s) (L.input s).relocs (st.deltas s)
    ⟨st, 0, st.anchors s, [], [], [], false⟩

/-- The decisions recorded are those of the turns. -/
theorem turns_decisions (st : State) (s : SecId) :
    (turns L st s).map Turn.result = decisions L st s := by
  have hloop : ∀ (rs : List Relocation) (olds : List Nat) (x : RelaxState),
      (turnsLoop L s (L.secVA st s) rs olds x).map Turn.result =
        decisionsLoop L s (L.secVA st s) rs olds x := by
    intro rs
    induction rs with
    | nil => exact fun _ _ => rfl
    | cons r rest ih =>
      intro olds x
      rw [turnsLoop, decisionsLoop, List.map_cons, ih]
  exact hloop _ _ _

/-- Every turn takes the decision for a relocation of the section where it stands. -/
theorem turnsLoop_result {s : SecId} {secAddr : Int} :
    ∀ {rs : List Relocation} {olds : List Nat} {x : RelaxState},
      ∀ t ∈ turnsLoop L s secAddr rs olds x,
        t.reloc ∈ rs ∧ ∃ st rest, t.result = L.relaxReloc st s t.loc t.reloc rest
  | [], _, _ => fun t ht => absurd ht List.not_mem_nil
  | r :: rest, olds, x => fun t ht => by
    rw [turnsLoop] at ht
    rcases List.mem_cons.mp ht with rfl | ht
    · exact ⟨List.mem_cons_self, x.st, rest, rfl⟩
    · obtain ⟨hmem, hresult⟩ := turnsLoop_result t ht
      exact ⟨List.mem_cons_of_mem r hmem, hresult⟩

/-- A call is shrunk to two bytes only where the output has compressed instructions. -/
theorem relaxReloc_short {st : State} {s : SecId} (hrvc : L.rvc = false) :
    (L.relaxReloc st s loc r rest).type ≠ .rvcJump := by
  have hstays : unrelaxed.type ≠ .rvcJump := by decide
  have hcall : (L.relaxCall st s loc r).type ≠ .rvcJump := by
    simp only [relaxCall, hrvc, Bool.false_and, Bool.false_eq_true, if_false]
    generalize (if r.pltPc = true then L.pltVA st r.sym else L.symVA st r.sym 0) = dest
    split
    · exact fun h => RelType.noConfusion h
    · exact hstays
  have htls : (L.relaxTlsLe st s r).type ≠ .rvcJump := by
    simp only [relaxTlsLe]
    split
    · exact hstays
    · split
      · exact fun h => RelType.noConfusion h
      · exact fun h => RelType.noConfusion h
      · exact fun h => RelType.noConfusion h
      · exact fun h => RelType.noConfusion h
      · exact hstays
  have hgp : (L.relaxHi20Lo12 st r).type ≠ .rvcJump := by
    unfold relaxHi20Lo12
    split
    · exact hstays
    · split
      · exact hstays
      · split
        · exact fun h => RelType.noConfusion h
        · exact fun h => RelType.noConfusion h
        · exact fun h => RelType.noConfusion h
        · exact hstays
  unfold relaxReloc
  split
  · exact fun h => RelType.noConfusion h
  iterate 9
    split
    · first
        | exact hcall
        | exact htls
        | exact hgp
    · exact hstays
  · exact hstays

/-- The number of bytes gone is even; without calls shrunk to two bytes it is a multiple of four. -/
def Steady (short : Bool) (delta : Nat) : Prop := delta % 2 = 0 ∧ (short = false → delta % 4 = 0)

theorem relaxReloc_steady {short : Bool} {st : State} {s : SecId} (hne : r.type ≠ .align)
    (hshort : short = false → (L.relaxReloc st s loc r rest).type ≠ .rvcJump) :
    Steady short (L.relaxReloc st s loc r rest).remove := by
  have hzero : Steady short 0 := ⟨by decide, fun _ => by decide⟩
  have hsix : 6 % 2 = 0 := by decide
  have hfour : Steady short 4 := ⟨by decide, fun _ => by decide⟩
  have hdec := relaxReloc_decision (L := L) st s loc r rest
  generalize L.relaxReloc st s loc r rest = z at hdec hshort ⊢
  cases hdec with
  | padding n hty => exact absurd hty hne
  | short w _ => exact ⟨hsix, fun hno => absurd rfl (hshort hno)⟩
  | stays _ => exact hzero
  | jal w _ => exact hfour
  | deleted _ => exact hfour
  | patched w _ => exact hzero
  | gprelI _ => exact hzero
  | gprelS _ => exact hzero

theorem relaxReloc_align_steady {short : Bool} {st : State} {s : SecId} (h : AlignAt rvc r loc)
    (hown : short = false → rvc = false) (hquad : short = false → loc % 4 = 0) :
    Steady short (L.relaxReloc st s loc r rest).remove := by
  obtain ⟨k, halign, -, hfour, height⟩ := h.align
  have hpos : 0 < 2 ^ k := Nat.two_pow_pos k
  have heven := h.even
  obtain ⟨hlo, hhi, hdvd⟩ := toBoundary_spec loc (2 ^ k : Nat) (by omega)
  have hfourI : (4 : Int) ∣ loc + toBoundary loc (2 ^ k : Nat) := Int.dvd_trans (by omega) hdvd
  rw [relaxReloc_align h, halign]
  unfold minNopLen at halign
  refine ⟨?_, fun hno => ?_⟩
  · simp only
    unfold word
    split at halign <;> omega
  · obtain rfl := hown hno
    have := hquad hno
    simp only [Bool.false_eq_true, if_false] at halign
    simp only
    unfold word
    omega

/-- **Every `R_RISCV_ALIGN` stands at an even address**, and at a multiple of four unless a call
was shrunk to two bytes. -/
theorem turnsLoop_spec (short : Bool) {rvc : Bool} {s : SecId} {secAddr : Int}
    {content : List UInt8}
    (hasm : Assembled rvc (L.input s) content) (haddr : secAddr % minNopLen rvc = 0)
    (hown : short = false → rvc = false) :
    ∀ {rs : List Relocation} {olds : List Nat} {x : RelaxState},
      (∀ r ∈ rs, r ∈ (L.input s).relocs) →
      (short = false → ∀ t ∈ turnsLoop L s secAddr rs olds x, t.result.type ≠ .rvcJump) →
      Steady short x.delta →
      ∀ t ∈ turnsLoop L s secAddr rs olds x, t.reloc.type = .align →
        AlignAt rvc t.reloc t.loc ∧ (short = false → t.loc % 4 = 0)
  | [], _, _, _, _, _ => fun t ht => absurd ht List.not_mem_nil
  | r :: rest, olds, x, hrs, hshort, hsteady => fun t ht htype => by
    have hmem := hrs r List.mem_cons_self
    -- where an `R_RISCV_ALIGN` at this turn stands
    have hat : r.type = .align → AlignAt rvc r (secAddr + r.offset - x.delta) ∧
        (short = false → (secAddr + r.offset - x.delta) % 4 = 0) := by
      intro hty
      obtain ⟨k, hk, hlt, haddend⟩ := hasm.addend r hmem hty
      have hplace := hasm.place r hmem hty
      obtain ⟨htwo, hfour⟩ := hsteady
      refine ⟨⟨hty, ⟨k, hk, hlt, haddend⟩, ?_⟩, fun hno => ?_⟩
      · cases rvc with
        | true =>
          have haddr2 : secAddr % 2 = 0 := haddr
          have hplace2 : 2 ∣ r.offset := hplace
          omega
        | false =>
          have haddr4 : secAddr % 4 = 0 := haddr
          have hplace4 : 4 ∣ r.offset := hplace
          omega
      · obtain rfl := hown hno
        have := hfour hno
        have haddr4 : secAddr % 4 = 0 := haddr
        have hplace4 : 4 ∣ r.offset := hplace
        omega
    rw [turnsLoop] at ht hshort
    rcases List.mem_cons.mp ht with rfl | ht
    · exact hat htype
    · have hremove : Steady short (L.relaxReloc x.st s (secAddr + r.offset - x.delta) r
          rest).remove := by
        by_cases hty : r.type = .align
        · exact relaxReloc_align_steady (hat hty).1 hown (hat hty).2
        · exact relaxReloc_steady hty fun hno => hshort hno _ List.mem_cons_self
      have hnext : Steady short (L.relaxStep s secAddr r rest (olds.headD 0) x).delta := by
        obtain ⟨htwo, hfour⟩ := hsteady
        obtain ⟨htwo', hfour'⟩ := hremove
        refine ⟨?_, fun hno => ?_⟩
        · simp only [relaxStep]
          omega
        · have := hfour hno
          have := hfour' hno
          simp only [relaxStep]
          omega
      exact turnsLoop_spec short hasm haddr hown (fun r' hr' => hrs r' (List.mem_cons_of_mem r hr'))
        (fun hno t' ht' => hshort hno t' (List.mem_cons_of_mem _ ht')) hnext t ht htype

end Link

/-! ## Every run of passes -/

/-- A link of object files: the flags of the output are merged from theirs, and every executable
section was assembled for the flags of its own. -/
structure MixedLink where
  link : Link
  files : List ObjFile
  owner : SecId → ObjFile
  content : SecId → List UInt8
  rvc : link.rvc = hasRvc (calcEFlags files).1
  owned : ∀ s ∈ link.execSections, owner s ∈ files
  assembled : ∀ s ∈ link.execSections,
    Assembled (hasRvc (owner s).eflags) (link.input s) (content s)

namespace MixedLink

open Link

variable (M : MixedLink)

/-- The object of section `s` has compressed instructions. -/
def ownRvc (s : SecId) : Bool := hasRvc (M.owner s).eflags

/-- Every executable section starts where code of its object can be. -/
def Aligned (st : State) : Prop :=
  ∀ s ∈ M.link.execSections, M.link.secVA st s % minNopLen (M.ownRvc s) = 0

/-- The sections a pass visits, each with the state it is relaxed in. -/
def visits : List SecId → State → List (State × SecId)
  | [], _ => []
  | s :: rest, st => (st, s) :: visits rest (M.link.relax st s).1

/-- A run of the linker that starts in `st₀`, with all visits so far. Between two passes addresses
are assigned: anything may change but the anchors and the deltas, and sections keep their
alignment. -/
inductive Run (st₀ : State) : List (State × SecId) → State → Prop
  | start : M.Aligned (M.link.initSymbolAnchors st₀) → Run st₀ [] (M.link.initSymbolAnchors st₀)
  | pass {vs : List (State × SecId)} {st : State} : Run st₀ vs st →
      Run st₀ (vs ++ M.visits M.link.execSections st)
        (M.link.relaxSections M.link.execSections st).1
  | assign {vs : List (State × SecId)} {st st' : State} : Run st₀ vs st →
      st'.anchors = st.anchors → st'.deltas = st.deltas → M.Aligned st' → Run st₀ vs st'

/-- All `R_RISCV_ALIGN`s of the visits `vs` have property `P`. -/
def AllAligns (P : SecId → Turn → Prop) (vs : List (State × SecId)) : Prop :=
  ∀ v ∈ vs, ∀ t ∈ turns M.link v.1 v.2, t.reloc.type = .align → P v.2 t

variable {M}

theorem Aligned.relax {st : State} (h : M.Aligned st) (s : SecId) :
    M.Aligned (M.link.relax st s).1 := by
  have hframe := relax_frame (L := M.link) st s
  intro i hi
  have hsame : M.link.secVA (M.link.relax st s).1 i = M.link.secVA st i := by
    unfold secVA
    rw [hframe.addr, hframe.secOff]
  rw [hsame]
  exact h i hi

/-- A pass visits executable sections at aligned addresses. -/
theorem visits_aligned {ss : List SecId} {st : State} (hss : ∀ s ∈ ss, s ∈ M.link.execSections)
    (h : M.Aligned st) :
    (∀ v ∈ M.visits ss st, v.2 ∈ M.link.execSections ∧ M.Aligned v.1) ∧
      M.Aligned (M.link.relaxSections ss st).1 := by
  induction ss generalizing st with
  | nil => exact ⟨fun v hv => absurd hv List.not_mem_nil, h⟩
  | cons s rest ih =>
    obtain ⟨hrest, hend⟩ :=
      ih (fun i hi => hss i (List.mem_cons_of_mem s hi)) (h.relax s)
    refine ⟨fun v hv => ?_, hend⟩
    rcases List.mem_cons.mp hv with rfl | hv
    · exact ⟨hss s List.mem_cons_self, h⟩
    · exact hrest v hv

theorem Run.aligned {st₀ st : State} {vs : List (State × SecId)} (h : M.Run st₀ vs st) :
    (∀ v ∈ vs, v.2 ∈ M.link.execSections ∧ M.Aligned v.1) ∧ M.Aligned st := by
  induction h with
  | start hst => exact ⟨fun v hv => absurd hv List.not_mem_nil, hst⟩
  | pass _ ih =>
    obtain ⟨hvs, hst⟩ := ih
    obtain ⟨hnew, hend⟩ := visits_aligned (fun _ hi => hi) hst
    refine ⟨fun v hv => ?_, hend⟩
    rcases List.mem_append.mp hv with hv | hv
    · exact hvs v hv
    · exact hnew v hv
  | assign _ _ _ hst ih => exact ⟨ih.1, hst⟩

/-- An object with compressed instructions turns them on. -/
theorem rvc_of_ownRvc {s : SecId} (hs : s ∈ M.link.execSections) (h : M.ownRvc s = true) :
    M.link.rvc = true := by
  rw [M.rvc]
  exact (calcEFlags_rvc M.files).mpr ⟨M.owner s, M.owned s hs, h⟩

/-- One visit: an `R_RISCV_ALIGN` survives exactly where its padding is long enough. -/
theorem visit_survives_iff {st : State} {s : SecId} (hs : s ∈ M.link.execSections)
    (haddr : M.Aligned st) {t : Turn} (ht : t ∈ turns M.link st s) (htype : t.reloc.type = .align) :
    Survives M.link.rvc (M.ownRvc s) (M.content s) t.reloc t.loc t.result ↔
      StandsWell (M.ownRvc s) t.reloc t.loc := by
  have hasm := M.assembled s hs
  have hown : M.link.rvc = false → M.ownRvc s = false := by
    intro hno
    by_contra hyes
    rw [rvc_of_ownRvc hs (by simpa using hyes)] at hno
    exact Bool.false_ne_true hno.symm
  have hshort : M.link.rvc = false → ∀ t ∈ turns M.link st s, t.result.type ≠ .rvcJump := by
    intro hno t ht
    obtain ⟨-, st', rest, hresult⟩ := turnsLoop_result t ht
    rw [hresult]
    exact relaxReloc_short hno
  obtain ⟨hat, hquad⟩ := turnsLoop_spec M.link.rvc hasm (haddr s hs) hown (fun _ hr => hr) hshort
    ⟨rfl, fun _ => rfl⟩ t ht htype
  obtain ⟨hmem, st', rest, hresult⟩ := turnsLoop_result t ht
  rw [hresult]
  exact survives_iff hat (hasm.within _ hmem htype) (hasm.padding _ hmem htype)
    (rvc_of_ownRvc hs) hquad

/-- **Only calls shrunk to two bytes put it there**: a visit without one keeps all padding long
enough, whatever the other objects. -/
theorem standsWell_of_noShort {st₀ st : State} {vs : List (State × SecId)} (h : M.Run st₀ vs st)
    (hshort : ∀ v ∈ vs, M.ownRvc v.2 = false →
      ∀ t ∈ turns M.link v.1 v.2, t.result.type ≠ .rvcJump) :
    M.AllAligns (fun s t => StandsWell (M.ownRvc s) t.reloc t.loc) vs := by
  obtain ⟨hvs, -⟩ := h.aligned
  intro v hv t ht htype
  cases hown : M.ownRvc v.2 with
  | true => exact Or.inl rfl
  | false =>
    obtain ⟨hs, haddr⟩ := hvs v hv
    obtain ⟨hat, hquad⟩ := turnsLoop_spec false (M.assembled v.2 hs) (haddr v.2 hs)
      (fun _ => hown) (fun _ hr => hr) (fun _ => hshort v hv hown) ⟨rfl, fun _ => rfl⟩ t ht htype
    obtain ⟨k, halign, -, hfour, -⟩ := hat.align
    have hself : minNopLen (hasRvc (M.owner v.2).eflags) = 4 := by
      unfold ownRvc at hown
      rw [hown]
      rfl
    rw [hself] at halign
    right
    intro hmod
    have hfourI : (4 : Int) ∣ (2 ^ k : Nat) := by omega
    have hmod4 := Int.emod_emod_of_dvd t.loc hfourI
    have hzero := hquad rfl
    have hcast : t.reloc.addend + 4 = ((2 ^ k : Nat) : Int) := halign
    rw [← hcast, hmod, hzero] at hmod4
    exact absurd hmod4 (by decide)

/-- **Alignment survives every run without such a call**, in particular where all objects have
compressed instructions or none has. -/
theorem alignment_of_noShort {st₀ st : State} {vs : List (State × SecId)} (h : M.Run st₀ vs st)
    (hshort : M.link.rvc = true → ∀ v ∈ vs, M.ownRvc v.2 = false →
      ∀ t ∈ turns M.link v.1 v.2, t.result.type ≠ .rvcJump) :
    M.AllAligns (fun s t => Survives M.link.rvc (M.ownRvc s) (M.content s) t.reloc t.loc t.result)
      vs := by
  have hwell := standsWell_of_noShort h fun v hv hown t ht => by
    cases hrvc : M.link.rvc with
    | true => exact hshort hrvc v hv hown t ht
    | false =>
      obtain ⟨-, st', rest, hresult⟩ := turnsLoop_result t ht
      rw [hresult]
      exact relaxReloc_short hrvc
  obtain ⟨hvs, -⟩ := h.aligned
  exact fun v hv t ht htype =>
    (visit_survives_iff (hvs v hv).1 (hvs v hv).2 ht htype).mpr (hwell v hv t ht htype)

/-! ## Tail calls before an aligned loop -/

/-- The code of an object without compressed instructions: `n` tail calls to its end, and a loop
aligned to eight bytes. -/
def tailCode (n : Nat) : List UInt8 :=
  (List.replicate n (le32 0x00000317 ++ le32 0x00030067)).flatten ++ le32 0x00000013 ++
    le32 0x0000006f

def tailInput (n : Nat) : InputSection where
  relocs := (List.range n).flatMap (fun i =>
    [⟨.call, 8 * i, 0, 0, false⟩, ⟨.relax, 8 * i, 0, 0, false⟩]) ++ [⟨.align, 8 * n, 0, 4, false⟩]
  word off := if off % 8 = 0 then 0x00000317 else 0x00030067
  size := 8 * n + 8
  addralign := 8
  parent := 0
  live := true

/-- Its link with an object that has compressed instructions. -/
def tailLink (n : Nat) : Link :=
  { fixedLink with
    input := fun s => if s = 0 then tailInput n else fixedLink.input s
    symbols := []
    initSym := fun _ => ⟨.input 0, 8 * n + 4⟩
    rvc := true }

theorem tailInput_align {n : Nat} {r : Relocation} (hr : r ∈ (tailInput n).relocs)
    (ht : r.type = .align) : r = ⟨.align, 8 * n, 0, 4, false⟩ := by
  rcases List.mem_append.mp hr with hr | hr
  · obtain ⟨i, -, hi⟩ := List.mem_flatMap.mp hr
    rcases List.mem_cons.mp hi with rfl | hi
    · exact RelType.noConfusion ht
    · obtain rfl := List.mem_singleton.mp hi
      exact RelType.noConfusion ht
  · exact List.mem_singleton.mp hr

theorem tailCode_drop (n : Nat) :
    (tailCode n).drop (8 * n) = le32 0x00000013 ++ le32 0x0000006f := by
  have hlen : (List.replicate n (le32 0x00000317 ++ le32 0x00030067)).flatten.length = 8 * n := by
    rw [List.length_flatten, List.map_replicate, List.sum_replicate]
    exact Nat.mul_comm n 8
  unfold tailCode
  rw [List.append_assoc, ← hlen, List.drop_left]

theorem tailInput_assembled (n : Nat) : Assembled false (tailInput n) (tailCode n) := by
  refine ⟨?_, ?_, ?_, ?_⟩ <;> intro r hr ht <;> obtain rfl := tailInput_align hr ht
  · exact ⟨3, by decide, by decide, (by decide : (4 : Int) = 2 ^ 3 - (minNopLen false : Int))⟩
  · exact Nat.dvd_mul_right_of_dvd (by decide : 4 ∣ 8) n
  · have := congrArg List.length (tailCode_drop n)
    rw [List.length_drop] at this
    have hlen : (le32 0x00000013 ++ le32 0x0000006f).length = 8 := rfl
    show 8 * n + 4 ≤ _
    omega
  · show Nops false (((tailCode n).drop (8 * n)).take 4)
    rw [tailCode_drop]
    exact .nop .nil

def tailMixed (n : Nat) : MixedLink where
  link := tailLink n
  files := [⟨"a.o", 0⟩, ⟨"b.o", 1⟩]
  owner _ := ⟨"a.o", 0⟩
  content _ := tailCode n
  rvc := rfl
  owned _ _ := List.mem_cons_self
  assembled s hs := by
    obtain rfl : s = 0 := List.mem_singleton.mp hs
    exact tailInput_assembled n

/-- The state a run starts in, and the visits of its first pass. -/
def tailStart (n : Nat) : State := ((tailLink n).assignAddresses (tailLink n).initialState).1

def tailVisits (n : Nat) : List (State × SecId) :=
  (tailMixed n).visits (tailLink n).execSections ((tailLink n).initSymbolAnchors (tailStart n))

theorem tail_run (n : Nat)
    (h : (tailLink n).secVA ((tailLink n).initSymbolAnchors (tailStart n)) 0 % 4 = 0) :
    ∃ st, (tailMixed n).Run (tailStart n) (tailVisits n) st := by
  refine ⟨_, .pass (.start ?_)⟩
  intro s hs
  obtain rfl : s = 0 := List.mem_singleton.mp hs
  have hown : (tailMixed n).ownRvc 0 = false := (by decide : hasRvc 0 = false)
  rw [hown]
  exact h

/-- The loop alone. -/
theorem alignment_of_noShort_tailMixed :
    (tailMixed 0).AllAligns (fun s t => Survives true ((tailMixed 0).ownRvc s)
      ((tailMixed 0).content s) t.reloc t.loc t.result) (tailVisits 0) := by
  obtain ⟨st, hrun⟩ := tail_run 0 (by decide)
  have hshort : ∀ v ∈ tailVisits 0, ∀ t ∈ turns (tailLink 0) v.1 v.2, t.result.type ≠ .rvcJump := by
    decide
  exact alignment_of_noShort hrun fun _ v hv _ => hshort v hv

end MixedLink

end RvLlvm.Lld
