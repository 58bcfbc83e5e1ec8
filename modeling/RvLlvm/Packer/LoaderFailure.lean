import RvLlvm.Packer.Loader

/-!
# The loader when the decompressor fails

`_start` (`llvm/utils/packer/src/loader.c:97-160`) with what `tinfl_decompress_mem_to_mem`
(`tinfl.c:530-535`) returns: `(size_t)-1` for every status but `TINFL_STATUS_DONE`, and the number
of bytes otherwise. The loader tests for zero, and lends the decompressor 64 MiB of a heap of 1 MiB.

* `Host.start`: the loader up to its jump, with what it does not survive.
* `runs_packed`: a packed program that the decompressor gives back runs, with its image in place.
* `guarded_iff`: the loader keeps to its heap and to what it decompressed exactly when the
  decompressor is done, with at least one byte and no more than the heap holds.
* `not_guarded_badHeader`: a payload without a zlib header.
-/

namespace RvLlvm.Packer

open RvLlvm.Support

/-! ## The decompressor -/

/-- `tinfl_status`. -/
inductive Status
  | badParam
  | adler32Mismatch
  | failed
  | done
  | needsMoreInput
  | hasMoreOutput
  deriving DecidableEq

/-- `tinfl_decompress` into a buffer that does not wrap: how it ends, and what it has written, which
is no more than the capacity it is given. -/
structure Tinfl where
  decompress : List UInt8 → Nat → Status × List UInt8
  length_le : ∀ src cap, (decompress src cap).2.length ≤ cap

/-- `TINFL_DECOMPRESS_MEM_TO_MEM_FAILED`, in 32 bits. -/
def memToMemFailed : Nat := 2 ^ 32 - 1

/-- `tinfl_decompress_mem_to_mem`: what it returns, and what it has written. -/
def Tinfl.decompressMemToMem (T : Tinfl) (src : List UInt8) (cap : Nat) : Nat × List UInt8 :=
  let (status, out) := T.decompress src cap
  (if status ≠ .done then memToMemFailed else out.length, out)

/-! ## The loader -/

/-- How the loader ends: in an empty loop, with a write past its heap, with its own memory mapped
over, or with a jump to `target` on the stack `top`. -/
inductive Outcome
  | spin
  | overrun
  | overmap
  | jump (target top : Nat) (mem : Memory)

/-- What the loader runs on: the addresses the kernel gives it, the ranges of its own image and
stack, and the decompressor. -/
structure Host where
  heap : Nat
  stackBase : Nat
  own : List (Nat × Nat)
  tinfl : Tinfl

namespace Host

variable (H : Host)

/-- The capacity that the loader passes. -/
def capacity : Nat := 64 * 1024 * 1024

/-- `STACK_SIZE`. -/
def stackSize : Nat := 128 * 1024

/-- The loader on a decompressor that either gives the data or nothing. -/
def loader : Loader where
  heap := H.heap
  own := H.own
  decompress src :=
    let (status, out) := H.tinfl.decompress src capacity
    if status = .done then some out else none

/-- `stack_top`. -/
def stackTop : Nat := (H.stackBase + stackSize) % 2 ^ 32 / 16 * 16

/-- `_start` on the header and the compressed payload. -/
def start (hdr packed : List UInt8) (mem : Memory) : Outcome :=
  match parse hdr with
  | none => .spin
  | some (entry, phs) =>
    let (size, out) := H.tinfl.decompressMemToMem packed capacity
    if 2 ^ 20 < 0x1000 + out.length then .overrun
    else if size = 0 then .spin
    else
      match H.loader.loadSegments (mem.write H.loader.tmp out) phs with
      | none => .overmap
      | some mem => if H.stackBase = 2 ^ 32 - 1 then .spin else .jump entry H.stackTop mem

/-- The header is one of the packer for segments of an executable that stay off the loader, and the
kernel has given it a stack. -/
structure Setup (hdr : List UInt8) (entry : Nat) (phs : List SegHdr) : Prop where
  header : parse hdr = some (entry, phs)
  filesz : ∀ s ∈ phs, s.f ≤ s.m
  range : ∀ s ∈ phs, s.v + s.m + 0xfff < 2 ^ 32
  apart : ∀ s ∈ phs, H.loader.reaches s = false
  stack : H.stackBase ≠ 2 ^ 32 - 1

/-- The decompressor fails, or its output is larger than the heap behind `tmp`. -/
def Fails (packed : List UInt8) : Prop :=
  (H.tinfl.decompress packed capacity).1 ≠ .done ∨
    2 ^ 20 < 0x1000 + (H.tinfl.decompress packed capacity).2.length

/-- The loader starts only what it has decompressed: on a failure it neither writes past its heap
nor jumps; otherwise it jumps to the entry, with the output where it was written. -/
def Guarded (hdr packed : List UInt8) (entry : Nat) (mem : Memory) : Prop :=
  (H.Fails packed → H.start hdr packed mem ≠ .overrun ∧
    ∀ target top mem', H.start hdr packed mem ≠ .jump target top mem') ∧
  (¬ H.Fails packed → ∃ mem', H.start hdr packed mem = .jump entry H.stackTop mem' ∧
    ∀ j < (H.tinfl.decompress packed capacity).2.length,
      mem' (H.loader.tmp + j) = (H.tinfl.decompress packed capacity).2.getD j 0)

end Host

/-! ## The heap -/

namespace Loader

variable {L : Loader}

/-- A segment off the loader's memory leaves the heap as it is. -/
theorem loadSegment_apply_heap {s : SegHdr} (hfilesz : s.f ≤ s.m)
    (hrange : s.v + s.m + 0xfff < 2 ^ 32) (hreach : L.reaches s = false) (mem : Memory) {a : Nat}
    (hlow : L.heap ≤ a) (hhigh : a < L.heap + 2 ^ 20) : L.loadSegment mem s a = mem a := by
  have hapart := heap_apart hreach
  have hmapS : s.mapS = s.v / 0x1000 * 0x1000 := rfl
  have hend : s.mapS + s.mapL = (s.v + s.m + 0xfff) / 0x1000 * 0x1000 := by
    unfold SegHdr.mapL SegHdr.mapS word
    omega
  have hword : word ((s.m : Int) - s.f) = s.m - s.f := by
    unfold word
    omega
  rw [loadSegment, hword, Memory.fill_apply, if_neg (by omega), Memory.copy_apply_of_not _ _ _ _
    (by omega), Memory.fill_apply, if_neg (by omega)]

/-- The loop over the segments leaves the heap as it is. -/
theorem loadSegments_apply_heap {phs : List SegHdr} (hfilesz : ∀ s ∈ phs, s.f ≤ s.m)
    (hrange : ∀ s ∈ phs, s.v + s.m + 0xfff < 2 ^ 32) {mem mem' : Memory}
    (h : L.loadSegments mem phs = some mem') {a : Nat} (hlow : L.heap ≤ a)
    (hhigh : a < L.heap + 2 ^ 20) : mem' a = mem a := by
  induction phs generalizing mem with
  | nil =>
    obtain rfl := Option.some.inj h
    rfl
  | cons s phs ih =>
    rw [loadSegments] at h
    split at h
    · exact absurd h (by simp)
    next hreach =>
      rw [ih (fun t ht => hfilesz t (List.mem_cons_of_mem s ht))
        (fun t ht => hrange t (List.mem_cons_of_mem s ht)) h]
      exact loadSegment_apply_heap (hfilesz s List.mem_cons_self) (hrange s List.mem_cons_self)
        (Bool.eq_false_iff.mpr hreach) mem hlow hhigh

end Loader

namespace Host

variable {H : Host} {hdr packed : List UInt8} {entry : Nat} {phs : List SegHdr}

/-- What the loader does on a header of the packer. -/
theorem start_eq (h : H.Setup hdr entry phs) (packed : List UInt8) (mem : Memory) :
    ∃ mem', H.loader.loadSegments
        (mem.write H.loader.tmp (H.tinfl.decompress packed capacity).2) phs = some mem' ∧
      H.start hdr packed mem =
        if 2 ^ 20 < 0x1000 + (H.tinfl.decompress packed capacity).2.length then .overrun
        else if (H.tinfl.decompressMemToMem packed capacity).1 = 0 then .spin
        else .jump entry H.stackTop mem' := by
  obtain ⟨mem', hload⟩ := Loader.exists_loadSegments h.apart
    (mem.write H.loader.tmp (H.tinfl.decompress packed capacity).2)
  refine ⟨mem', hload, ?_⟩
  have hout : (H.tinfl.decompressMemToMem packed capacity).2 =
      (H.tinfl.decompress packed capacity).2 := rfl
  simp only [start, h.header, hout, hload, if_neg h.stack]

/-- The output is in the heap when the loader jumps. -/
theorem output_kept (h : H.Setup hdr entry phs) {mem mem' : Memory} {out : List UInt8}
    (hload : H.loader.loadSegments (mem.write H.loader.tmp out) phs = some mem')
    (hheap : 0x1000 + out.length ≤ 2 ^ 20) :
    ∀ j < out.length, mem' (H.loader.tmp + j) = out.getD j 0 := by
  intro j hj
  have htmp : H.loader.tmp = H.loader.heap + 0x1000 := rfl
  rw [Loader.loadSegments_apply_heap h.filesz h.range hload (by omega) (by omega),
    Memory.write_of_lt _ hj, List.getD_eq_getElem?_getD, List.getElem?_eq_getElem hj]
  rfl

/-- **A packed program runs**: where the decompressor gives the bytes of the segments back and the
heap holds them, the loader jumps, with the image in place if no page spoils an earlier segment. -/
theorem runs_packed {segs : List Segment} (hentry : entry < 2 ^ 32) (hcount : segs.length < 2 ^ 32)
    (hfits : ∀ s ∈ segs, s.Fits) (hdisj : Loader.Disjoint segs)
    (hreach : ∀ s ∈ headersAt 0 segs, H.loader.reaches s = false) (hstack : H.stackBase ≠ 2 ^ 32 - 1)
    (hdone : H.tinfl.decompress packed capacity = (.done, payload segs))
    (hne : (payload segs).length ≠ 0) (hheap : 0x1000 + (payload segs).length ≤ 2 ^ 20) (mem : Memory) :
    ∃ mem', H.start (Packer.header entry segs) packed mem = .jump entry H.stackTop mem' ∧
      (Loader.Placed mem' segs ↔ Loader.Spared segs) := by
  obtain ⟨mem', hload⟩ := Loader.exists_loadSegments hreach (mem.write H.loader.tmp (payload segs))
  have hout : H.tinfl.decompressMemToMem packed capacity = ((payload segs).length, payload segs) := by
    rw [Tinfl.decompressMemToMem, hdone]
    rfl
  have hloaded : Loader.Loaded H.loader entry segs mem entry mem' := ⟨rfl, hload, hheap⟩
  refine ⟨mem', ?_, hloaded.placed_iff hfits hdisj⟩
  simp only [start, parse_header hentry hcount hfits (by omega), hout, hload, if_neg hstack,
    if_neg (Nat.not_lt.mpr hheap), if_neg hne]

/-- **The loader starts only what it has decompressed** exactly when the decompressor is done, with
at least one byte and no more than the heap holds. -/
theorem guarded_iff (h : H.Setup hdr entry phs) (mem : Memory) :
    H.Guarded hdr packed entry mem ↔ (H.tinfl.decompress packed capacity).1 = .done ∧
      0 < (H.tinfl.decompress packed capacity).2.length ∧
      0x1000 + (H.tinfl.decompress packed capacity).2.length ≤ 2 ^ 20 := by
  obtain ⟨mem', hload, hstart⟩ := start_eq h packed mem
  have hsize : (H.tinfl.decompressMemToMem packed capacity).1 =
      if (H.tinfl.decompress packed capacity).1 ≠ .done then memToMemFailed
      else (H.tinfl.decompress packed capacity).2.length := rfl
  have hkept := output_kept h hload
  rw [Guarded, Fails, hstart, hsize]
  generalize H.tinfl.decompress packed capacity = result at hkept ⊢
  obtain ⟨status, out⟩ := result
  simp only at hkept ⊢
  constructor
  · rintro ⟨hfails, hworks⟩
    by_cases hheap : 2 ^ 20 < 0x1000 + out.length
    · exact absurd (if_pos hheap) (hfails (Or.inr hheap)).1
    rw [if_neg hheap] at hfails hworks
    by_cases hdone : status = .done
    · -- the test for zero is the only one left
      refine ⟨hdone, Nat.pos_of_ne_zero fun hzero => ?_, Nat.le_of_not_lt hheap⟩
      obtain ⟨mem₁, hjump, -⟩ := hworks (not_or.mpr ⟨not_not.mpr hdone, hheap⟩)
      rw [if_neg (not_not.mpr hdone), if_pos hzero] at hjump
      exact absurd hjump (by simp)
    · -- a failure is not zero
      have hjump := (hfails (Or.inl hdone)).2 entry H.stackTop mem'
      rw [if_pos hdone] at hjump
      exact absurd rfl hjump
  · rintro ⟨rfl, hpos, hheap⟩
    have hworks : ¬ (Status.done ≠ .done ∨ 2 ^ 20 < 0x1000 + out.length) :=
      not_or.mpr ⟨not_not.mpr rfl, Nat.not_lt.mpr hheap⟩
    refine ⟨fun hfails => absurd hfails hworks, fun _ => ⟨mem', ?_, hkept hheap⟩⟩
    rw [if_neg (Nat.not_lt.mpr hheap), if_neg (not_not.mpr rfl), if_neg (Nat.pos_iff_ne_zero.mp hpos)]

end Host

/-! ## A payload that is no zlib stream -/

/-- `mz_adler32`: the checksum of a zlib stream. -/
def adler32 (bs : List UInt8) : Nat :=
  let (s₁, s₂) := bs.foldl (fun (s : Nat × Nat) b =>
    ((s.1 + b.toNat) % 65521, (s.2 + (s.1 + b.toNat)) % 65521)) (1, 0)
  s₂ * 65536 + s₁

/-- The decompressor on zlib streams of one stored block; any other block is not for it. -/
def storedDecompress (src : List UInt8) (cap : Nat) : Status × List UInt8 :=
  let byte i := (src.getD i 0).toNat
  let len := byte 3 + 256 * byte 4
  let out := ((src.drop 7).take len).take cap
  if (byte 0 * 256 + byte 1) % 31 ≠ 0 ∨ byte 1 / 32 % 2 = 1 ∨ byte 0 % 16 ≠ 8 then (.failed, [])
  else if byte 2 ≠ 1 ∨ len + (byte 5 + 256 * byte 6) ≠ 0xffff then (.failed, [])
  else if src.length < 7 + len then (.failed, out)
  else if cap < len then (.hasMoreOutput, out)
  else if leNat ((src.drop (7 + len)).take 4).reverse ≠ adler32 out then (.adler32Mismatch, out)
  else (.done, out)

def storedTinfl : Tinfl where
  decompress := storedDecompress
  length_le src cap := by
    unfold storedDecompress
    simp only
    repeat' split
    all_goals first | exact Nat.zero_le _ | exact List.length_take_le _ _

/-- A loader at `0x80070000` with its heap at `0x40000000` and its stack behind it. -/
def storedHost : Host where
  heap := 0x40000000
  stackBase := 0x40100000
  own := [(0x80070000, 0x80110000), (0x40100000, 0x40120000)]
  tinfl := storedTinfl

/-- One instruction at `0x10000`. -/
def oneSegment : List Segment := [⟨0x10000, 4, 5, 0x1000, [0x13, 0x05, 0xf0, 0xff]⟩]

theorem storedHost_setup :
    storedHost.Setup (header 0x10000 oneSegment) 0x10000 (headersAt 0 oneSegment) where
  header := parse_header (by decide) (by decide)
    (List.forall_mem_singleton.mpr ⟨by decide, by decide, by decide, by decide⟩) (by decide)
  filesz := List.forall_mem_singleton.mpr (by decide)
  range := List.forall_mem_singleton.mpr (by decide)
  apart := List.forall_mem_singleton.mpr (by decide)
  stack := by decide

/-- The instruction in a stored block. -/
def storedPayload : List UInt8 :=
  [0x78, 0x01, 0x01, 0x04, 0x00, 0xfb, 0xff, 0x13, 0x05, 0xf0, 0xff, 0x03, 0x3e, 0x02, 0x08]

theorem guarded_storedPayload :
    storedHost.Guarded (header 0x10000 oneSegment) storedPayload 0x10000 (fun _ => 0) :=
  (Host.guarded_iff storedHost_setup (fun _ => 0)).mpr (by decide)

theorem runs_packed_storedPayload : ∃ mem, storedHost.start (header 0x10000 oneSegment) storedPayload
    (fun _ => 0) = .jump 0x10000 storedHost.stackTop mem ∧ (Loader.Placed mem oneSegment ↔
      Loader.Spared oneSegment) :=
  Host.runs_packed (by decide) (by decide) (List.forall_mem_singleton.mpr
      ⟨by decide, by decide, by decide, by decide⟩) (List.pairwise_singleton _ _) storedHost_setup.apart
    (by decide) (by decide) (by decide) (by decide) _

/-- **A payload without a zlib header** is not decompressed, and the loader jumps. -/
theorem not_guarded_badHeader :
    ¬ ∀ (H : Host) (hdr packed : List UInt8) (entry : Nat) (phs : List SegHdr) (mem : Memory),
      H.Setup hdr entry phs → H.Guarded hdr packed entry mem := by
  intro h
  obtain ⟨mem', -, hjump⟩ := Host.start_eq storedHost_setup [0, 0] (fun _ => 0)
  rw [if_neg (by decide), if_neg (by decide)] at hjump
  have hguarded := h storedHost _ [0, 0] _ _ (fun _ => 0) storedHost_setup
  exact (hguarded.1 (Or.inl (by decide))).2 _ _ _ hjump

end RvLlvm.Packer
