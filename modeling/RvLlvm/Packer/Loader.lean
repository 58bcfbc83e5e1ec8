import RvLlvm.Support.BitField
import RvLlvm.Support.Memory

/-!
# The packer and its loader

Model of the serialisation of `llvm/utils/packer/pack.py:60-84` and of `_start` in
`llvm/utils/packer/src/loader.c:97-160`. The loader maps the pages of each segment anew, at their
fixed place, and fills them; a later segment on the same page wipes what an earlier one left.

* `header`, `payload`: what `pack.py` writes; `parse` what the loader reads.
* `start`: the memory when the loader jumps, and where it jumps. It has no meaning once a segment is
  mapped over the memory of the loader itself, which then no longer runs.
* `image_placed_iff`: every segment is in place exactly when each byte of an earlier segment that
  lies on a page of a later one is zero.
* `not_placed_sharedPage`: two segments on one page.
-/

namespace RvLlvm.Packer

open RvLlvm.Support

/-! ## Packing -/

/-- A `PT_LOAD` segment with its bytes in the file. -/
structure Segment where
  vaddr : Nat
  memsz : Nat
  flags : Nat
  align : Nat
  data : List UInt8

/-- Byte `j` of the segment in memory. -/
def Segment.byte (s : Segment) (j : Nat) : UInt8 := s.data.getD j 0

/-- The segment headers, the first one's bytes being at `offset` of the payload. -/
def segmentHeaders : Nat → List Segment → List UInt8
  | _, [] => []
  | offset, s :: segs =>
    leBytes 4 s.vaddr ++ (leBytes 4 s.data.length ++ (leBytes 4 s.memsz ++ (leBytes 4 s.flags ++
      (leBytes 4 s.align ++ (leBytes 4 offset ++ segmentHeaders (offset + s.data.length) segs)))))

/-- `hdr`. -/
def header (entry : Nat) (segs : List Segment) : List UInt8 :=
  leBytes 4 0x52565058 ++ (leBytes 4 entry ++ (leBytes 4 segs.length ++ segmentHeaders 0 segs))

/-- The payload before it is compressed. -/
def payload (segs : List Segment) : List UInt8 := segs.flatMap Segment.data

/-! ## Loading -/

/-- `SegHdr`. -/
structure SegHdr where
  v : Nat
  f : Nat
  m : Nat
  flg : Nat
  aln : Nat
  off : Nat
  deriving DecidableEq

/-- The table of `n` segment headers. -/
def parseSegments : Nat → List UInt8 → Option (List SegHdr)
  | 0, _ => some []
  | n + 1, bs => do
    let (v, bs) ← readWord bs
    let (f, bs) ← readWord bs
    let (m, bs) ← readWord bs
    let (flg, bs) ← readWord bs
    let (aln, bs) ← readWord bs
    let (off, bs) ← readWord bs
    let rest ← parseSegments n bs
    return ⟨v, f, m, flg, aln, off⟩ :: rest

/-- The entry and the headers; nothing if the magic number is wrong. -/
def parse (bs : List UInt8) : Option (Nat × List SegHdr) := do
  let (magic, bs) ← readWord bs
  if magic ≠ 0x52565058 then none
  else
    let (entry, bs) ← readWord bs
    let (phnum, bs) ← readWord bs
    let phs ← parseSegments phnum bs
    return (entry, phs)

namespace SegHdr

variable (s : SegHdr)

/-- `mapS`. -/
def mapS : Nat := s.v / 0x1000 * 0x1000

/-- `mapL`. -/
def mapL : Nat := word ((s.v + s.m + 0xfff) % 2 ^ 32 / 0x1000 * 0x1000 - s.mapS : Int)

/-- The address is on a page of the segment. -/
def OnPages (a : Nat) : Prop := s.mapS ≤ a ∧ a < s.mapS + s.mapL

instance (a : Nat) : Decidable (s.OnPages a) := inferInstanceAs (Decidable (_ ∧ _))

end SegHdr

/-- What the loader runs on: `heap` is what the kernel gives it, `own` the ranges of its image and
stack, each with its end. -/
structure Loader where
  heap : Nat
  own : List (Nat × Nat)
  decompress : List UInt8 → Option (List UInt8)

namespace Loader

variable (L : Loader)

/-- `tmp`. -/
def tmp : Nat := L.heap + 0x1000

/-- The pages of the segment reach into the loader's memory. -/
def reaches (s : SegHdr) : Bool :=
  ((L.heap, L.heap + 2 ^ 20) :: L.own).any fun r =>
    decide (s.mapS < r.2) && decide (r.1 < s.mapS + s.mapL)

/-- One turn of the loop over the segments. -/
def loadSegment (mem : Memory) (s : SegHdr) : Memory :=
  let mem := mem.fill s.mapS 0 s.mapL
  let mem := mem.copy s.v (L.tmp + s.off) s.f
  mem.fill (s.v + s.f) 0 (word (s.m - s.f : Int))

/-- The loop over the segments. -/
def loadSegments : Memory → List SegHdr → Option Memory
  | mem, [] => some mem
  | mem, s :: phs => if L.reaches s then none else loadSegments (L.loadSegment mem s) phs

/-- `_start` on the header and the compressed payload, up to the jump. An empty payload stops it,
and one beyond the heap is a fault. -/
def start (hdr packed : List UInt8) (mem : Memory) : Option (Nat × Memory) := do
  let (entry, phs) ← parse hdr
  let data ← L.decompress packed
  if data.length = 0 ∨ 2 ^ 20 < 0x1000 + data.length then none
  else
    let mem ← L.loadSegments (mem.write L.tmp data) phs
    return (entry, mem)

end Loader

/-! ## What is read is what was written -/

/-- The header of `s`, its bytes being at `offset`. -/
def Segment.header (s : Segment) (offset : Nat) : SegHdr :=
  ⟨s.vaddr, s.data.length, s.memsz, s.flags, s.align, offset⟩

/-- The headers that the loader finds, the first one's bytes being at `offset`. -/
def headersAt : Nat → List Segment → List SegHdr
  | _, [] => []
  | offset, s :: segs => s.header offset :: headersAt (offset + s.data.length) segs

/-- A segment of an executable: no more bytes in the file than in memory, and not in the last page
of the address space, which is the kernel's. -/
structure Segment.Fits (s : Segment) : Prop where
  filesz : s.data.length ≤ s.memsz
  range : s.vaddr + s.memsz + 0xfff < 2 ^ 32
  flags : s.flags < 2 ^ 32
  align : s.align < 2 ^ 32

theorem parseSegments_segmentHeaders {segs : List Segment} (hfits : ∀ s ∈ segs, s.Fits)
    (offset : Nat) (hoff : offset + (payload segs).length < 2 ^ 32) :
    parseSegments segs.length (segmentHeaders offset segs) = some (headersAt offset segs) := by
  induction segs generalizing offset with
  | nil => rfl
  | cons s segs ih =>
    obtain ⟨hfilesz, hrange, hflags, halign⟩ := hfits s List.mem_cons_self
    rw [payload, List.flatMap_cons, List.length_append] at hoff
    have hrest := ih (fun t ht => hfits t (List.mem_cons_of_mem s ht)) (offset + s.data.length)
      (by rw [payload]; omega)
    simp only [List.length_cons, parseSegments, segmentHeaders]
    rw [readWord_leBytes (by omega : s.vaddr < 2 ^ 32)]
    simp only [Option.bind_eq_bind, Option.bind_some]
    rw [readWord_leBytes (by omega : s.data.length < 2 ^ 32)]
    simp only [Option.bind_some]
    rw [readWord_leBytes (by omega : s.memsz < 2 ^ 32)]
    simp only [Option.bind_some]
    rw [readWord_leBytes hflags]
    simp only [Option.bind_some]
    rw [readWord_leBytes halign]
    simp only [Option.bind_some]
    rw [readWord_leBytes (by omega : offset < 2 ^ 32)]
    simp only [Option.bind_some, hrest]
    rfl

/-- **The loader reads what the packer wrote.** -/
theorem parse_header {entry : Nat} {segs : List Segment} (hentry : entry < 2 ^ 32)
    (hcount : segs.length < 2 ^ 32) (hfits : ∀ s ∈ segs, s.Fits)
    (hpayload : (payload segs).length < 2 ^ 32) :
    parse (header entry segs) = some (entry, headersAt 0 segs) := by
  have hsegs := parseSegments_segmentHeaders hfits 0 (by omega)
  unfold parse header
  rw [readWord_leBytes (by decide)]
  simp only [Option.bind_eq_bind, Option.bind_some, ne_eq, not_true_eq_false, if_false]
  rw [readWord_leBytes hentry]
  simp only [Option.bind_some]
  rw [readWord_leBytes hcount]
  simp only [Option.bind_some, hsegs]
  rfl

/-! ## One segment -/

/-- The address is in the memory of the segment. -/
def Segment.Holds (s : Segment) (a : Nat) : Prop := s.vaddr ≤ a ∧ a < s.vaddr + s.memsz

/-- The address is on a page of the segment. -/
def Segment.OnPages (s : Segment) (a : Nat) : Prop :=
  s.vaddr / 0x1000 * 0x1000 ≤ a ∧ a < (s.vaddr + s.memsz + 0xfff) / 0x1000 * 0x1000

instance (s : Segment) (a : Nat) : Decidable (s.OnPages a) := inferInstanceAs (Decidable (_ ∧ _))

instance (s : Segment) (a : Nat) : Decidable (s.Holds a) := inferInstanceAs (Decidable (_ ∧ _))

theorem mapS_add_mapL {s : Segment} (h : s.Fits) (offset : Nat) :
    (s.header offset).mapS + (s.header offset).mapL =
      (s.vaddr + s.memsz + 0xfff) / 0x1000 * 0x1000 := by
  have hrange := h.range
  unfold SegHdr.mapL SegHdr.mapS Segment.header word
  simp only
  omega

/-- A segment lies on its pages. -/
theorem Segment.Holds.onPages {s : Segment} {a : Nat} (h : s.Holds a) : s.OnPages a := by
  obtain ⟨hlo, hhi⟩ := h
  unfold Segment.OnPages
  omega

namespace Loader

variable {L : Loader}

/-- A segment that stays off the loader's memory stays off its heap. -/
theorem heap_apart {s : SegHdr} (h : L.reaches s = false) :
    L.heap + 2 ^ 20 ≤ s.mapS ∨ s.mapS + s.mapL ≤ L.heap := by
  simp only [reaches, List.any_cons, Bool.or_eq_false_iff, Bool.and_eq_false_iff,
    decide_eq_false_iff_not, not_lt] at h
  exact h.1

variable {data : List UInt8} {offset : Nat} {mem : Memory} {segs : List Segment}

/-- Byte `j` of a segment whose bytes are at `offset` of the payload. -/
theorem getD_payload {s : Segment} {rest : List UInt8} (hbytes : data.drop offset = s.data ++ rest)
    {j : Nat} (hj : j < s.data.length) : data.getD (offset + j) 0 = s.byte j := by
  have hget : data[offset + j]? = s.data[j]? := by
    rw [← List.getElem?_drop, hbytes, List.getElem?_append_left hj]
  rw [List.getD_eq_getElem?_getD, hget, Segment.byte, List.getD_eq_getElem?_getD]

/-- **One turn of the loop**: the segment is in place, the rest of its pages is zero, and nothing
else changes, as long as its bytes are in the heap. -/
theorem loadSegment_apply {s : Segment} (hfits : s.Fits)
    (hreach : L.reaches (s.header offset) = false) {rest : List UInt8}
    (hdata : ∀ j < data.length, mem (L.tmp + j) = data.getD j 0)
    (hheap : 0x1000 + data.length ≤ 2 ^ 20) (hbytes : data.drop offset = s.data ++ rest) (a : Nat) :
    L.loadSegment mem (s.header offset) a =
      if s.Holds a then s.byte (a - s.vaddr) else if s.OnPages a then 0 else mem a := by
  have hend := mapS_add_mapL hfits offset
  have hstart : (s.header offset).mapS = s.vaddr / 0x1000 * 0x1000 := rfl
  have hapart := heap_apart hreach
  have hrange := hfits.range
  have hfilesz := hfits.filesz
  have hlen : s.data.length ≤ data.length - offset := by
    have := congrArg List.length hbytes
    rw [List.length_drop, List.length_append] at this
    omega
  have hword : word ((s.memsz : Int) - s.data.length) = s.memsz - s.data.length := by
    unfold word
    omega
  have htmp : L.tmp = L.heap + 0x1000 := rfl
  have hcopy : s.vaddr + s.data.length ≤ L.tmp + offset ∨
      L.tmp + offset + s.data.length ≤ s.vaddr := by
    omega
  have hturn : L.loadSegment mem (s.header offset) a =
      ((((mem.fill (s.header offset).mapS 0 (s.header offset).mapL).copy s.vaddr (L.tmp + offset)
        s.data.length).fill (s.vaddr + s.data.length) 0 (s.memsz - s.data.length)) a) := by
    rw [← hword]
    rfl
  rw [hturn, Memory.fill_apply, Memory.copy_apply _ hcopy, Memory.fill_apply, Memory.fill_apply]
  generalize (s.header offset).mapS = start, (s.header offset).mapL = size at *
  by_cases hfile : s.vaddr ≤ a ∧ a < s.vaddr + s.data.length
  · -- a byte of the file, read from the heap, which the mapping left alone
    have hsrc : ¬ (start ≤ L.tmp + offset + (a - s.vaddr) ∧
        L.tmp + offset + (a - s.vaddr) < start + size) := by
      omega
    have hholds : s.Holds a := ⟨hfile.1, by omega⟩
    have hj : a - s.vaddr < s.data.length := by omega
    have hbss : ¬ (s.vaddr + s.data.length ≤ a ∧
        a < s.vaddr + s.data.length + (s.memsz - s.data.length)) := by
      omega
    rw [if_neg hbss, if_pos hfile, if_neg hsrc, if_pos hholds, Nat.add_assoc,
      hdata _ (by omega), getD_payload hbytes hj]
  · by_cases hholds : s.Holds a
    · -- a byte past the file
      obtain ⟨hlo, hhi⟩ := hholds
      have hbyte : s.byte (a - s.vaddr) = 0 := by
        rw [Segment.byte, List.getD_eq_getElem?_getD, List.getElem?_eq_none (by omega)]
        rfl
      rw [if_pos (by omega), if_pos ⟨hlo, hhi⟩, hbyte]
    · have hout : ¬ (s.vaddr ≤ a ∧ a < s.vaddr + s.memsz) := hholds
      rw [if_neg (by omega), if_neg hfile, if_neg hholds]
      by_cases hpage : start ≤ a ∧ a < start + size
      · have hon : s.OnPages a := ⟨by omega, by omega⟩
        rw [if_pos hpage, if_pos hon]
      · have hoff : ¬ s.OnPages a := fun hon => hpage ⟨by have := hon.1; omega, by have := hon.2; omega⟩
        rw [if_neg hpage, if_neg hoff]

/-! ## All segments -/

/-- The payload in the heap outlasts a turn of the loop. -/
theorem heap_loadSegment {s : Segment} (hfits : s.Fits)
    (hreach : L.reaches (s.header offset) = false) {rest : List UInt8}
    (hdata : ∀ j < data.length, mem (L.tmp + j) = data.getD j 0)
    (hheap : 0x1000 + data.length ≤ 2 ^ 20) (hbytes : data.drop offset = s.data ++ rest) :
    ∀ j < data.length, L.loadSegment mem (s.header offset) (L.tmp + j) = data.getD j 0 := by
  intro j hj
  have hend := mapS_add_mapL hfits offset
  have hstart : (s.header offset).mapS = s.vaddr / 0x1000 * 0x1000 := rfl
  have hapart := heap_apart hreach
  have htmp : L.tmp = L.heap + 0x1000 := rfl
  have hpage : ¬ s.OnPages (L.tmp + j) := by
    unfold Segment.OnPages
    omega
  rw [loadSegment_apply hfits hreach hdata hheap hbytes, if_neg (fun h => hpage h.onPages),
    if_neg hpage, hdata j hj]

/-- **Outside the segments** the loop leaves zero on their pages and nothing else changed. -/
theorem loadSegments_apply (hfits : ∀ s ∈ segs, s.Fits) {mem' : Memory}
    (h : L.loadSegments mem (headersAt offset segs) = some mem')
    (hdata : ∀ j < data.length, mem (L.tmp + j) = data.getD j 0)
    (hheap : 0x1000 + data.length ≤ 2 ^ 20) (hbytes : data.drop offset = payload segs) {a : Nat}
    (ha : ∀ s ∈ segs, ¬ s.Holds a) : mem' a = if ∃ s ∈ segs, s.OnPages a then 0 else mem a := by
  induction segs generalizing offset mem with
  | nil =>
    obtain rfl := Option.some.inj h
    rw [if_neg (by simp)]
  | cons s segs ih =>
    have hs := hfits s List.mem_cons_self
    simp only [headersAt, loadSegments] at h
    split at h
    · exact absurd h (by simp)
    next hreach =>
      have hreach : L.reaches (s.header offset) = false := by simpa using hreach
      have hbytes₁ : data.drop offset = s.data ++ payload segs := hbytes
      have hbytes₂ : data.drop (offset + s.data.length) = payload segs := by
        rw [← List.drop_drop, hbytes₁, List.drop_left']
        rfl
      rw [ih (fun t ht => hfits t (List.mem_cons_of_mem s ht)) h
        (heap_loadSegment hs hreach hdata hheap hbytes₁) hbytes₂
        (fun t ht => ha t (List.mem_cons_of_mem s ht)),
        loadSegment_apply hs hreach hdata hheap hbytes₁, if_neg (ha s List.mem_cons_self)]
      simp only [List.mem_cons, exists_eq_or_imp]
      by_cases hrest : ∃ t ∈ segs, t.OnPages a
      · rw [if_pos hrest, if_pos (Or.inr hrest)]
      · rw [if_neg hrest]
        by_cases hpage : s.OnPages a
        · rw [if_pos hpage, if_pos (Or.inl hpage)]
        · rw [if_neg hpage, if_neg (by rintro (h | h); exacts [hpage h, hrest h])]

/-- The segments are in place. -/
def Placed (mem : Memory) (segs : List Segment) : Prop :=
  ∀ s ∈ segs, ∀ j < s.memsz, mem (s.vaddr + j) = s.byte j

/-- Each byte of a segment that lies on a page of a later one is zero. -/
def Spared (segs : List Segment) : Prop :=
  segs.Pairwise fun s t => ∀ j < s.memsz, t.OnPages (s.vaddr + j) → s.byte j = 0

/-- No address is in two segments. -/
def Disjoint (segs : List Segment) : Prop :=
  segs.Pairwise fun s t => ∀ a, s.Holds a → ¬ t.Holds a

theorem placed_loadSegments (hfits : ∀ s ∈ segs, s.Fits) (hdisj : Disjoint segs) {mem' : Memory}
    (h : L.loadSegments mem (headersAt offset segs) = some mem')
    (hdata : ∀ j < data.length, mem (L.tmp + j) = data.getD j 0)
    (hheap : 0x1000 + data.length ≤ 2 ^ 20) (hbytes : data.drop offset = payload segs) :
    Placed mem' segs ↔ Spared segs := by
  induction segs generalizing offset mem with
  | nil => exact ⟨fun _ => List.Pairwise.nil, fun _ s hs => absurd hs List.not_mem_nil⟩
  | cons s segs ih =>
    have hs := hfits s List.mem_cons_self
    have hrest : ∀ t ∈ segs, t.Fits := fun t ht => hfits t (List.mem_cons_of_mem s ht)
    obtain ⟨hapart, hdisj'⟩ := List.pairwise_cons.mp hdisj
    simp only [headersAt, loadSegments] at h
    split at h
    · exact absurd h (by simp)
    next hreach =>
      have hreach : L.reaches (s.header offset) = false := by simpa using hreach
      have hbytes₁ : data.drop offset = s.data ++ payload segs := hbytes
      have hbytes₂ : data.drop (offset + s.data.length) = payload segs := by
        rw [← List.drop_drop, hbytes₁, List.drop_left']
        rfl
      have hdata' := heap_loadSegment hs hreach hdata hheap hbytes₁
      -- what the later segments leave of this one
      have hhead : ∀ j < s.memsz, mem' (s.vaddr + j) =
          if ∃ t ∈ segs, t.OnPages (s.vaddr + j) then 0 else s.byte j := by
        intro j hj
        have hholds : s.Holds (s.vaddr + j) := ⟨Nat.le_add_right _ _, by omega⟩
        rw [loadSegments_apply hrest h hdata' hheap hbytes₂
          (fun t ht => hapart t ht _ hholds), loadSegment_apply hs hreach hdata hheap hbytes₁,
          if_pos hholds, Nat.add_sub_cancel_left]
      have htail := ih hrest hdisj' h hdata' hbytes₂
      unfold Placed Spared at htail ⊢
      rw [List.forall_mem_cons, List.pairwise_cons, htail]
      refine and_congr_left fun _ => ?_
      constructor
      · intro hplaced t ht j hj hpage
        have := hhead j hj
        rw [if_pos ⟨t, ht, hpage⟩, hplaced j hj] at this
        exact this
      · intro hspared j hj
        rw [hhead j hj]
        split
        next hex =>
          obtain ⟨t, ht, hpage⟩ := hex
          exact (hspared t ht j hj hpage).symm
        next => rfl

/-- What a run up to the jump consists of. -/
structure Loaded (L : Loader) (entry : Nat) (segs : List Segment) (mem : Memory) (target : Nat)
    (mem' : Memory) : Prop where
  target_eq : target = entry
  load : L.loadSegments (mem.write L.tmp (payload segs)) (headersAt 0 segs) = some mem'
  heap : 0x1000 + (payload segs).length ≤ 2 ^ 20

theorem start_eq_some {compress : List UInt8 → List UInt8}
    (hzlib : ∀ d, L.decompress (compress d) = some d) {entry : Nat} (hentry : entry < 2 ^ 32)
    (hcount : segs.length < 2 ^ 32) (hfits : ∀ s ∈ segs, s.Fits) {mem' : Memory} {target : Nat}
    (h : L.start (header entry segs) (compress (payload segs)) mem = some (target, mem')) :
    Loaded L entry segs mem target mem' := by
  unfold start at h
  rw [hzlib] at h
  cases hparse : parse (header entry segs) with
  | none => rw [hparse] at h; exact absurd h (by simp)
  | some read =>
    obtain ⟨entry', phs⟩ := read
    rw [hparse] at h
    simp only [Option.bind_eq_bind, Option.bind_some] at h
    split at h
    · exact absurd h (by simp)
    next hsize =>
      rw [not_or, not_lt] at hsize
      rw [parse_header hentry hcount hfits (by omega)] at hparse
      obtain ⟨rfl, rfl⟩ := Prod.mk.inj (Option.some.inj hparse)
      cases hload : L.loadSegments (mem.write L.tmp (payload segs)) (headersAt 0 segs) with
      | none => rw [hload] at h; exact absurd h (by simp)
      | some mem₁ =>
        rw [hload] at h
        obtain ⟨rfl, rfl⟩ := Prod.mk.inj (Option.some.inj h)
        exact ⟨rfl, hload, hsize.2⟩

theorem exists_loadSegments {phs : List SegHdr} (h : ∀ p ∈ phs, L.reaches p = false)
    (mem : Memory) : ∃ mem', L.loadSegments mem phs = some mem' := by
  induction phs generalizing mem with
  | nil => exact ⟨mem, rfl⟩
  | cons p phs ih =>
    rw [loadSegments, h p List.mem_cons_self, if_neg Bool.false_ne_true]
    exact ih (fun q hq => h q (List.mem_cons_of_mem p hq)) _

/-- **The loader jumps** when no segment reaches into its memory and the payload fits its heap. -/
theorem exists_start {compress : List UInt8 → List UInt8}
    (hzlib : ∀ d, L.decompress (compress d) = some d) {entry : Nat} (hentry : entry < 2 ^ 32)
    (hcount : segs.length < 2 ^ 32) (hfits : ∀ s ∈ segs, s.Fits) (hne : (payload segs).length ≠ 0)
    (hheap : 0x1000 + (payload segs).length ≤ 2 ^ 20)
    (hreach : ∀ p ∈ headersAt 0 segs, L.reaches p = false) (mem : Memory) :
    ∃ mem', L.start (header entry segs) (compress (payload segs)) mem = some (entry, mem') := by
  obtain ⟨mem', hload⟩ := exists_loadSegments hreach (mem.write L.tmp (payload segs))
  refine ⟨mem', ?_⟩
  unfold start
  rw [hzlib, parse_header hentry hcount hfits (by omega)]
  simp only [Option.bind_eq_bind, Option.bind_some]
  rw [if_neg (by rw [not_or, not_lt]; exact ⟨hne, hheap⟩), hload]
  rfl

theorem Loaded.placed_iff {entry : Nat} (hfits : ∀ s ∈ segs, s.Fits) (hdisj : Disjoint segs)
    {mem' : Memory} {target : Nat} (h : Loaded L entry segs mem target mem') :
    Placed mem' segs ↔ Spared segs := by
  refine placed_loadSegments hfits hdisj h.load ?_ h.heap rfl
  intro j hj
  rw [Memory.write_of_lt _ hj, List.getD_eq_getElem?_getD, List.getElem?_eq_getElem hj]
  rfl

/-- **The image is in place** when the loader jumps exactly when no segment's page holds a byte,
other than zero, of an earlier segment. -/
theorem image_placed_iff {compress : List UInt8 → List UInt8}
    (hzlib : ∀ d, L.decompress (compress d) = some d) {entry : Nat} {segs : List Segment}
    (hentry : entry < 2 ^ 32) (hcount : segs.length < 2 ^ 32) (hfits : ∀ s ∈ segs, s.Fits)
    (hdisj : Disjoint segs) {mem mem' : Memory} {target : Nat}
    (h : L.start (header entry segs) (compress (payload segs)) mem = some (target, mem')) :
    (target = entry ∧ Placed mem' segs) ↔ Spared segs := by
  have hloaded := start_eq_some hzlib hentry hcount hfits h
  rw [and_iff_right hloaded.target_eq, hloaded.placed_iff hfits hdisj]

/-! ## Two segments -/

/-- Code at `0x10000` and data at `addr`. -/
def twoSegments (addr : Nat) : List Segment :=
  [⟨0x10000, 8, 5, 0x1000, [0x13, 0x05, 0xf0, 0xff]⟩, ⟨addr, 8, 6, 0x1000, [1, 2]⟩]

/-- A loader at `0x80070000` whose heap is at `0x40000000`; nothing is compressed. -/
def plainLoader : Loader where
  heap := 0x40000000
  own := [(0x80070000, 0x80110000)]
  decompress := some

theorem twoSegments_fits {addr : Nat} (h : addr < 2 ^ 31) : ∀ s ∈ twoSegments addr, s.Fits := by
  intro s hs
  simp only [twoSegments, List.mem_cons, List.not_mem_nil, or_false] at hs
  rcases hs with rfl | rfl
  · constructor <;> decide
  · refine ⟨by simp, ?_, by simp, by simp⟩
    change addr + 8 + 0xfff < 2 ^ 32
    omega

theorem twoSegments_disjoint {addr : Nat} (h : 0x10008 ≤ addr) : Disjoint (twoSegments addr) := by
  refine List.pairwise_pair.mpr ?_
  intro a hs ht
  have hhi : a < 0x10000 + 8 := hs.2
  have hlo : addr ≤ a := ht.1
  omega

theorem plainLoader_inverse (d : List UInt8) : plainLoader.decompress (id d) = some d := rfl

theorem plainLoader_start {addr : Nat} (hlt : addr < 2 ^ 31)
    (hreach : ∀ p ∈ headersAt 0 (twoSegments addr), plainLoader.reaches p = false) :
    ∃ mem', plainLoader.start (header 0x10000 (twoSegments addr)) (id (payload (twoSegments addr)))
      (fun _ => 0) = some (0x10000, mem') := by
  have hlen : (payload (twoSegments addr)).length = 6 := rfl
  have hcount : (twoSegments addr).length = 2 := rfl
  apply exists_start plainLoader_inverse (by decide) _ (twoSegments_fits hlt) _ _ hreach
  · rw [hcount]
    decide
  · rw [hlen]
    decide
  · rw [hlen]
    decide

theorem image_placed_apart :
    ∃ target mem', plainLoader.start (header 0x10000 (twoSegments 0x11000))
        (id (payload (twoSegments 0x11000))) (fun _ => 0) = some (target, mem') ∧
      target = 0x10000 ∧ Placed mem' (twoSegments 0x11000) := by
  obtain ⟨mem', hstart⟩ := plainLoader_start (by decide : 0x11000 < 2 ^ 31) (by decide)
  refine ⟨_, mem', hstart, (image_placed_iff plainLoader_inverse (by decide) (by decide)
    (twoSegments_fits (by decide)) (twoSegments_disjoint (by decide)) hstart).mpr ?_⟩
  refine List.pairwise_pair.mpr ?_
  intro j hj hpage
  have hlo : 0x11000 / 0x1000 * 0x1000 ≤ 0x10000 + j := hpage.1
  have hj : j < 8 := hj
  omega

/-- **A segment on the page of an earlier one** wipes its code. -/
theorem not_placed_sharedPage :
    ¬ ∀ (L : Loader) (compress : List UInt8 → List UInt8) (entry : Nat) (segs : List Segment)
      (mem mem' : Memory) (target : Nat), (∀ d, L.decompress (compress d) = some d) →
      entry < 2 ^ 32 → segs.length < 2 ^ 32 → (∀ s ∈ segs, s.Fits) → Disjoint segs →
      L.start (header entry segs) (compress (payload segs)) mem = some (target, mem') →
      target = entry ∧ Placed mem' segs := by
  intro h
  obtain ⟨mem', hstart⟩ := plainLoader_start (by decide : 0x10800 < 2 ^ 31) (by decide)
  have hfits := twoSegments_fits (by decide : 0x10800 < 2 ^ 31)
  have hdisj := twoSegments_disjoint (by decide : 0x10008 ≤ 0x10800)
  have hplaced := (h plainLoader id 0x10000 (twoSegments 0x10800) _ _ _ plainLoader_inverse
    (by decide) (by decide) hfits hdisj hstart).2
  have hloaded := start_eq_some plainLoader_inverse (by decide) (by decide) hfits hstart
  have hspared := List.pairwise_pair.mp ((hloaded.placed_iff hfits hdisj).mp hplaced)
  exact absurd (hspared 0 (by decide) (by decide)) (by decide)

end Loader

end RvLlvm.Packer
