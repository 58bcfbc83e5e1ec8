import RvLlvm.Packer.Lz4Image

/-!
# The arithmetic and the layout of the packer

All sums of `packWithLZ4` (`lld/ELF/RISCVLZ4Packer.cpp:112-233`) have 32 bits, those that its checks
compare included, so a sum that wraps passes.

Results:
* `safe_iff`: on an executable that passes the checks no sum wraps and no copy leaves its buffers
  exactly when the ends of its segments, in memory and in the file, and the size of its image are in
  bounds.
* `not_safe_wrappedOffset`: a segment whose end in the file wraps.
* `layout_sound`: an image at `0x10000` that does not wrap is mapped below the loader, and nothing
  is left behind it.
-/

namespace RvLlvm.Packer.Lz4

open RvLlvm.Support RvLlvm.Support.Rv RvLlvm.Support.Lz4

/-! ## Passing the checks -/

/-- The executable passes the checks of its headers and, as `r` is the range of its segments, those
of each segment. -/
structure Accepted (input : List UInt8) (r : LoadRange) : Prop where
  range : checkLoads input = some r
  start_le : ∀ ph ∈ loads input, r.loadStart ≤ ph.pVaddr
  image : ∀ ph ∈ loads input, word (word (ph.pVaddr - r.loadStart) + ph.pFilesz) ≤ imageSize r
  file : ∀ ph ∈ loads input, word (ph.pOffset + ph.pFilesz) ≤ input.length

/-- The copies stay in their buffers, no sum wraps, and the mapping holds the image. -/
structure Safe (input : List UInt8) (r : LoadRange) : Prop where
  reads : ∀ ph ∈ loads input, ph.pOffset + ph.pFilesz ≤ input.length
  writes : ∀ ph ∈ loads input, word (ph.pVaddr - r.loadStart) + ph.pFilesz ≤ imageSize r
  memEnd : ∀ ph ∈ loads input, ph.pVaddr + ph.pMemsz < 2 ^ 32
  fileEnd : ∀ ph ∈ loads input, ph.pVaddr + ph.pFilesz < 2 ^ 32
  imageEnd : ∀ ph ∈ loads input, word (ph.pVaddr - r.loadStart) + ph.pFilesz < 2 ^ 32
  offsetEnd : ∀ ph ∈ loads input, ph.pOffset + ph.pFilesz < 2 ^ 32
  roundedMap : word (r.fileEnd - r.loadStart) + 0x10000 < 2 ^ 32
  mmapSize : imageSize r + 0x10000 < 2 ^ 32
  mapped : imageSize r ≤ roundMap (imageSize r)

/-! ## Without wrapping -/

/-- The range of all segments in exact arithmetic. -/
def exactRange (front : Phdr) (segs : List Phdr) : LoadRange :=
  segs.foldl (fun r ph => ⟨min r.loadStart ph.pVaddr, max r.loadEnd (ph.pVaddr + ph.pMemsz),
    max r.fileEnd (ph.pVaddr + ph.pFilesz)⟩)
    ⟨front.pVaddr, front.pVaddr + front.pMemsz, front.pVaddr + front.pFilesz⟩

/-- The size of the image in exact arithmetic. -/
def exactImageSize (r : LoadRange) : Nat :=
  if (r.fileEnd - r.loadStart + 0x10000) / 0x10000 * 0x10000 < r.loadEnd - r.loadStart then
    r.loadEnd - r.loadStart
  else r.fileEnd - r.loadStart

/-- The ends of the segments are below 4 GiB, and the image leaves room for its rounding. -/
structure Bounded (input : List UInt8) : Prop where
  memEnd : ∀ ph ∈ loads input, ph.pVaddr + ph.pMemsz < 2 ^ 32
  fileEnd : ∀ ph ∈ loads input, ph.pVaddr + ph.pFilesz < 2 ^ 32
  offsetEnd : ∀ ph ∈ loads input, ph.pOffset + ph.pFilesz < 2 ^ 32
  image : ∀ front segs, loads input = front :: segs →
    exactImageSize (exactRange front (front :: segs)) + 0x10000 < 2 ^ 32

theorem word_add {a b : Nat} (h : a + b < 2 ^ 32) : word (a + b : Int) = a + b := by
  rw [← Nat.cast_add, word_of_lt h]

theorem word_sub {a b : Nat} (hle : b ≤ a) (ha : a < 2 ^ 32) : word (a - b : Int) = a - b := by
  rw [← Nat.cast_sub hle, word_of_lt (by omega)]

/-- Segments that do not wrap have an exact range. -/
theorem foldl_widen {segs : List Phdr} (hmem : ∀ ph ∈ segs, ph.pVaddr + ph.pMemsz < 2 ^ 32)
    (hfile : ∀ ph ∈ segs, ph.pVaddr + ph.pFilesz < 2 ^ 32) (init : LoadRange) :
    segs.foldl LoadRange.widen init =
      segs.foldl (fun r ph => ⟨min r.loadStart ph.pVaddr, max r.loadEnd (ph.pVaddr + ph.pMemsz),
        max r.fileEnd (ph.pVaddr + ph.pFilesz)⟩) init := by
  induction segs generalizing init with
  | nil => rfl
  | cons ph segs ih =>
    rw [List.foldl_cons, List.foldl_cons, ih (fun t ht => hmem t (List.mem_cons_of_mem ph ht))
      (fun t ht => hfile t (List.mem_cons_of_mem ph ht)), LoadRange.widen,
      word_add (hmem ph List.mem_cons_self), word_add (hfile ph List.mem_cons_self)]

/-- What the range of the segments is. -/
structure Spans (segs : List Phdr) (r : LoadRange) : Prop where
  start_le : ∀ ph ∈ segs, r.loadStart ≤ ph.pVaddr
  le_loadEnd : ∀ ph ∈ segs, ph.pVaddr + ph.pMemsz ≤ r.loadEnd
  le_fileEnd : ∀ ph ∈ segs, ph.pVaddr + ph.pFilesz ≤ r.fileEnd
  start_le_fileEnd : r.loadStart ≤ r.fileEnd
  loadEnd_lt : r.loadEnd < 2 ^ 32
  fileEnd_lt : r.fileEnd < 2 ^ 32

/-- The loop over the segments, by induction on those that it has seen. -/
theorem Spans.foldl {seen segs : List Phdr} {init : LoadRange} (h : Spans seen init)
    (hmem : ∀ ph ∈ segs, ph.pVaddr + ph.pMemsz < 2 ^ 32)
    (hfile : ∀ ph ∈ segs, ph.pVaddr + ph.pFilesz < 2 ^ 32) :
    Spans (segs.reverse ++ seen) (segs.foldl LoadRange.widen init) := by
  induction segs generalizing seen init with
  | nil => exact h
  | cons ph segs ih =>
    have hm := word_add (hmem ph List.mem_cons_self)
    have hf := word_add (hfile ph List.mem_cons_self)
    have hmlt := hmem ph List.mem_cons_self
    have hflt := hfile ph List.mem_cons_self
    rw [List.reverse_cons, List.append_assoc, List.singleton_append, List.foldl_cons]
    refine ih ⟨?_, ?_, ?_, ?_, ?_, ?_⟩ (fun t ht => hmem t (List.mem_cons_of_mem ph ht))
      (fun t ht => hfile t (List.mem_cons_of_mem ph ht))
    · exact List.forall_mem_cons.mpr ⟨Nat.min_le_right _ _,
        fun t ht => (Nat.min_le_left _ _).trans (h.start_le t ht)⟩
    · rw [LoadRange.widen, hm]
      exact List.forall_mem_cons.mpr ⟨Nat.le_max_right _ _,
        fun t ht => (h.le_loadEnd t ht).trans (Nat.le_max_left _ _)⟩
    · rw [LoadRange.widen, hf]
      exact List.forall_mem_cons.mpr ⟨Nat.le_max_right _ _,
        fun t ht => (h.le_fileEnd t ht).trans (Nat.le_max_left _ _)⟩
    · rw [LoadRange.widen, hf]
      exact (Nat.min_le_left _ _).trans (h.start_le_fileEnd.trans (Nat.le_max_left _ _))
    · rw [LoadRange.widen, hm]
      exact Nat.max_lt.mpr ⟨h.loadEnd_lt, hmlt⟩
    · rw [LoadRange.widen, hf]
      exact Nat.max_lt.mpr ⟨h.fileEnd_lt, hflt⟩

theorem checkLoads_eq_some {input : List UInt8} {r : LoadRange} (h : checkLoads input = some r) :
    ∃ front segs, loads input = front :: segs ∧ r = loadRange front (front :: segs) ∧
      r.loadStart < r.loadEnd := by
  rw [checkLoads] at h
  split at h
  · exact absurd h (by simp)
  split at h
  · exact absurd h (by simp)
  split at h
  · exact absurd h (by simp)
  split at h
  · exact absurd h (by simp)
  next front segs hloads =>
    dsimp only at h
    split at h
    · exact absurd h (by simp)
    split at h
    · exact absurd h (by simp)
    next hlt =>
      obtain rfl := Option.some.inj h
      exact ⟨front, segs, hloads, rfl, Nat.not_le.mp hlt⟩

section

variable {input : List UInt8} {r : LoadRange}

/-- The range of segments that do not wrap. -/
theorem spans_of_checkLoads (h : checkLoads input = some r)
    (hmem : ∀ ph ∈ loads input, ph.pVaddr + ph.pMemsz < 2 ^ 32)
    (hfile : ∀ ph ∈ loads input, ph.pVaddr + ph.pFilesz < 2 ^ 32) : Spans (loads input) r := by
  obtain ⟨front, segs, hloads, rfl, -⟩ := checkLoads_eq_some h
  rw [hloads] at hmem hfile ⊢
  have hm := hmem front List.mem_cons_self
  have hf := hfile front List.mem_cons_self
  have hfront : Spans [front] ⟨front.pVaddr, word (front.pVaddr + front.pMemsz),
      word (front.pVaddr + front.pFilesz)⟩ := by
    rw [word_add hm, word_add hf]
    refine ⟨?_, ?_, ?_, Nat.le_add_right _ _, hm, hf⟩ <;>
      exact List.forall_mem_singleton.mpr (Nat.le_refl _)
  obtain ⟨h1, h2, h3, h4, h5, h6⟩ := hfront.foldl hmem hfile
  have hsub : ∀ ph ∈ front :: segs, ph ∈ (front :: segs).reverse ++ [front] := fun ph hph =>
    List.mem_append_left _ (List.mem_reverse.mpr hph)
  exact ⟨fun ph hph => h1 ph (hsub ph hph), fun ph hph => h2 ph (hsub ph hph),
    fun ph hph => h3 ph (hsub ph hph), h4, h5, h6⟩

theorem exactRange_eq (h : checkLoads input = some r)
    (hmem : ∀ ph ∈ loads input, ph.pVaddr + ph.pMemsz < 2 ^ 32)
    (hfile : ∀ ph ∈ loads input, ph.pVaddr + ph.pFilesz < 2 ^ 32) {front : Phdr} {segs : List Phdr}
    (hloads : loads input = front :: segs) : exactRange front (front :: segs) = r := by
  obtain ⟨front', segs', hloads', rfl, -⟩ := checkLoads_eq_some h
  obtain ⟨rfl, rfl⟩ := List.cons.inj (hloads.symm.trans hloads')
  rw [hloads] at hmem hfile
  rw [loadRange, foldl_widen hmem hfile, word_add (hmem front List.mem_cons_self),
    word_add (hfile front List.mem_cons_self)]
  rfl

theorem roundMap_of_lt {n : Nat} (h : n + 0x10000 < 2 ^ 32) :
    roundMap n = (n + 0x10000) / 0x10000 * 0x10000 := by
  rw [roundMap, show ((n : Int) + 0x10000) = (n : Int) + (0x10000 : Nat) by rfl, word_add h]

theorem Spans.imageSize_eq (h : Spans (loads input) r) (hlt : r.loadStart < r.loadEnd)
    (hround : r.fileEnd - r.loadStart + 0x10000 < 2 ^ 32) : imageSize r = exactImageSize r := by
  have hmem := h.loadEnd_lt
  have hfile := h.fileEnd_lt
  have hle := h.start_le_fileEnd
  rw [imageSize, exactImageSize, word_sub hlt.le hmem, word_sub hle hfile, roundMap_of_lt hround]

/-- Where the image is, it holds the file's part, and with its rounding all the memory. -/
theorem exactImageSize_bounds (r : LoadRange) : r.fileEnd - r.loadStart ≤ exactImageSize r ∧
    r.loadEnd - r.loadStart ≤ (exactImageSize r + 0x10000) / 0x10000 * 0x10000 := by
  rw [exactImageSize]
  split <;> omega

/-- **The packer's arithmetic** is safe exactly on segments and images in bounds. -/
theorem safe_iff (h : Accepted input r) : Safe input r ↔ Bounded input := by
  obtain ⟨front, segs, hloads, -, hlt⟩ := checkLoads_eq_some h.range
  constructor
  · intro hs
    refine ⟨hs.memEnd, hs.fileEnd, hs.offsetEnd, fun front segs hloads => ?_⟩
    have hspans := spans_of_checkLoads h.range hs.memEnd hs.fileEnd
    have hround := hs.roundedMap
    rw [word_sub hspans.start_le_fileEnd hspans.fileEnd_lt] at hround
    rw [exactRange_eq h.range hs.memEnd hs.fileEnd hloads, ← hspans.imageSize_eq hlt hround]
    exact hs.mmapSize
  · intro hb
    have hspans := spans_of_checkLoads h.range hb.memEnd hb.fileEnd
    have himage := hb.image front segs hloads
    rw [exactRange_eq h.range hb.memEnd hb.fileEnd hloads] at himage
    have hfile := (exactImageSize_bounds r).1
    have hround : r.fileEnd - r.loadStart + 0x10000 < 2 ^ 32 := by omega
    have hsize := hspans.imageSize_eq hlt hround
    have hoffset : ∀ ph ∈ loads input, word (ph.pVaddr - r.loadStart) = ph.pVaddr - r.loadStart :=
      fun ph hph => word_sub (h.start_le ph hph) (loads_pVaddr_lt hph)
    have hend : ∀ ph ∈ loads input, word (ph.pVaddr - r.loadStart) + ph.pFilesz < 2 ^ 32 :=
      fun ph hph => by
        have := hb.fileEnd ph hph
        rw [hoffset ph hph]
        omega
    refine ⟨fun ph hph => ?_, fun ph hph => ?_, hb.memEnd, hb.fileEnd, hend, hb.offsetEnd, ?_, ?_, ?_⟩
    · rw [← word_add (hb.offsetEnd ph hph)]
      exact h.file ph hph
    · rw [← word_add (hend ph hph)]
      exact h.image ph hph
    · rw [word_sub hspans.start_le_fileEnd hspans.fileEnd_lt]
      exact hround
    · rw [hsize]
      exact himage
    · rw [hsize, roundMap_of_lt himage]
      omega

end

/-- The small executable is safe to pack. -/
theorem safe_smallFile : Safe (smallFile 0x10000) ⟨0x10000, 0x10004, 0x10004⟩ := by
  have hloads := (smallFile_loads 0x10000 (Or.inl rfl)).1
  refine (safe_iff ⟨smallFile_packed_low.range, ?_, ?_, ?_⟩).mpr ⟨?_, ?_, ?_, ?_⟩
  · rw [hloads]
    decide
  · rw [hloads]
    decide
  · rw [hloads]
    decide
  · rw [hloads]
    decide
  · rw [hloads]
    decide
  · rw [hloads]
    decide
  · intro front segs hfront
    obtain ⟨rfl, rfl⟩ := List.cons.inj (hloads.symm.trans hfront)
    decide

/-- A segment of 32 bytes that starts 16 bytes below the end of a 4 GiB file. -/
def wrappedOffset : List UInt8 :=
  outEh 0x10000 0 ++ (leBytes 4 ptLoad ++ (leBytes 4 0xfffffff0 ++ (leBytes 4 0x10000 ++
    (leBytes 4 0x10000 ++ (leBytes 4 0x20 ++ (leBytes 4 0x20 ++ (leBytes 4 7 ++
    leBytes 4 0x1000)))))))

theorem wrappedOffset_loads :
    loads wrappedOffset = [⟨1, 0xfffffff0, 0x10000, 0x20, 0x20⟩] := by decide

theorem wrappedOffset_accepted : Accepted wrappedOffset ⟨0x10000, 0x10020, 0x10020⟩ where
  range := by decide
  start_le := by
    rw [wrappedOffset_loads]
    decide
  image := by
    rw [wrappedOffset_loads]
    decide
  file := by
    rw [wrappedOffset_loads]
    decide

/-- **An offset near 4 GiB** passes the check and is read from behind the file. -/
theorem not_safe_wrappedOffset : ¬ ∀ input r, Accepted input r → Safe input r := by
  intro h
  have hreads := (h _ _ wrappedOffset_accepted).reads
  rw [wrappedOffset_loads] at hreads
  exact absurd (hreads _ (List.mem_singleton_self _)) (by decide)

/-! ## The layout -/

section

variable {compress : Compress} {input : List UInt8} {S : Stub} {r : LoadRange}
  {image : List UInt8} {b : Block}

theorem Packed.length_image (hp : Packed compress input S r image b) :
    image.length = imageSize r := hp.image_spec.1

/-- **The mapping** holds every segment of an image at `0x10000` that does not wrap. -/
theorem Packed.covers (hc : Compresses compress) (hp : Packed compress input S r image b)
    (hstart : r.loadStart = 0x10000)
    (hwrap : ∀ ph ∈ loads input, ph.pVaddr + ph.size < 2 ^ 32) :
    ∀ ph ∈ loads input, ∀ j < ph.size, S.Mapped (ph.pVaddr + j) := by
  have hmem : ∀ ph ∈ loads input, ph.pVaddr + ph.pMemsz < 2 ^ 32 := fun ph hph =>
    (Nat.add_le_add_left (Nat.le_max_right _ _) _).trans_lt (hwrap ph hph)
  have hfile : ∀ ph ∈ loads input, ph.pVaddr + ph.pFilesz < 2 ^ 32 := fun ph hph =>
    (Nat.add_le_add_left (Nat.le_max_left _ _) _).trans_lt (hwrap ph hph)
  have hspans := spans_of_checkLoads hp.range hmem hfile
  obtain ⟨-, -, -, -, hlt⟩ := checkLoads_eq_some hp.range
  have hfileEnd := hspans.fileEnd_lt
  have hsize : image.length = exactImageSize r := by
    rw [hp.length_image]
    exact hspans.imageSize_eq hlt (by omega)
  obtain ⟨hn, -⟩ := hp.sizes hc
  have hmap : S.mmapSize = (exactImageSize r + 0x10000) / 0x10000 * 0x10000 := by
    rw [← hsize, hp.made, stub]
    exact roundMap_eq hn
  obtain ⟨hfileIn, hmemIn⟩ := exactImageSize_bounds r
  intro ph hph j hj
  have hlow := hspans.start_le ph hph
  have hloadEnd := hspans.le_loadEnd ph hph
  have hend := hspans.le_fileEnd ph hph
  unfold Phdr.size at hj
  constructor
  · omega
  · omega

/-- **The loader** lies behind the mapping, at an address that fits its place in the file. -/
theorem Packed.placed (hc : Compresses compress) (hp : Packed compress input S r image b) :
    0x10000 + S.mmapSize = S.base / 0x1000 * 0x1000 ∧ 84 % 0x1000 = S.base % 0x1000 := by
  obtain ⟨hn, -⟩ := hp.sizes hc
  have hbase : S.base = (0x20000 + image.length) / 0x10000 * 0x10000 + 84 := by
    rw [hp.made, stub]
    exact loaderVaddr_eq hn
  have hmap : S.mmapSize = (image.length + 0x10000) / 0x10000 * 0x10000 := by
    rw [hp.made, stub]
    exact roundMap_eq hn
  constructor
  · omega
  · omega

/-- Whatever the stub decodes is no longer than the image. -/
theorem Packed.length_part_le (hc : Compresses compress) (hp : Packed compress input S r image b)
    {part : List UInt8}
    (hpart : (part = b.decode ∧ S.Seen (S.base + 168) b.sequences) ∨ S.Stops b part) :
    part.length ≤ image.length := by
  rw [← hp.decode hc]
  rcases hpart with ⟨rfl, -⟩ | hstops
  · exact Nat.le_refl _
  · exact hstops.prefix.length_le

/-- Memory behind what a run has written: zeros in the mapping, and as it was outside. -/
theorem write_fill_apply_of_le {m : Memory} {part : List UInt8} {n a : Nat}
    (hpart : part.length ≤ n) (hn : n ≤ S.mmapSize) :
    (S.Mapped a → 0x10000 + n ≤ a →
      (m.fill 0x10000 0 S.mmapSize).write 0x10000 part a = 0) ∧
    (¬ S.Mapped a → (m.fill 0x10000 0 S.mmapSize).write 0x10000 part a = m a) := by
  constructor
  · intro hmapped ha
    rw [getD_of_mapped hmapped]
    exact getD_of_length_le (by omega)
  · intro hout
    unfold Stub.Mapped at hout
    rw [Memory.write]
    split
    · rw [List.getElem?_eq_none (by omega), Option.getD_none, Memory.fill_apply, if_neg hout]
    · rw [Memory.fill_apply, if_neg hout]

/-- What a run of the loader leaves of the memory it starts on. -/
structure Leaves (out : List UInt8) (S : Stub) (n : Nat) (m m' : Memory) : Prop where
  loader : Maps out m'
  zero : ∀ a, S.Mapped a → 0x10000 + n ≤ a → m' a = 0
  frame : ∀ a, ¬ S.Mapped a → m' a = m a

/-- The layout of a packed executable: the mapping holds the segments, ends before the first page of
the loader, and each run to the entry leaves the loader as it is and zeros behind the image. -/
structure Layout (input out : List UInt8) (S : Stub) : Prop where
  covers : ∀ ph ∈ loads input, ∀ j < ph.size, S.Mapped (ph.pVaddr + j)
  loader : ∃ ph, loads out = [ph] ∧ 0x10000 + S.mmapSize ≤ ph.pVaddr / 0x1000 * 0x1000 ∧
    ph.pOffset % 0x1000 = ph.pVaddr % 0x1000
  runs : Starts input → ∀ image, buildImage input = some image → ∀ (x : Regs) (m : Memory),
    x 0 = 0 → Maps out m →
      (image ≠ [] → ∃ x' m', S.Runs ⟨x, m, (ehdr out).eEntry⟩ ⟨x', m', (ehdr input).eEntry⟩) ∧
      ∀ x' m', S.Runs ⟨x, m, (ehdr out).eEntry⟩ ⟨x', m', (ehdr input).eEntry⟩ →
        Leaves out S image.length m m'

/-- The loader's own segment is outside the mapping. -/
theorem Packed.leaves (hc : Compresses compress) (hp : Packed compress input S r image b)
    {m : Memory} (hm : Maps (output (ehdr input).eFlags S) m) {part : List UInt8}
    (hpart : (part = b.decode ∧ S.Seen (S.base + 168) b.sequences) ∨ S.Stops b part) :
    Leaves (output (ehdr input).eFlags S) S image.length m
      ((m.fill 0x10000 0 S.mmapSize).write 0x10000 part) := by
  obtain ⟨-, habove, hstop, hn⟩ := hp.bounds hc
  have hlen := hp.length_part_le hc hpart
  have hframe : ∀ a, ¬ S.Mapped a → (m.fill 0x10000 0 S.mmapSize).write 0x10000 part a = m a :=
    fun a => (write_fill_apply_of_le hlen hn).2
  refine ⟨fun ph hph j hj => ?_, fun a => (write_fill_apply_of_le hlen hn).1, hframe⟩
  rw [hframe, hm ph hph j hj]
  rw [loads_output _ hstop] at hph
  obtain rfl := List.mem_singleton.mp hph
  rintro ⟨-, hlt⟩
  simp only at hlt
  omega

end

/-- **The layout** of a packed executable whose image starts at `0x10000` and does not wrap. -/
theorem layout_sound {compress : Compress} (hc : Compresses compress) {input out : List UInt8}
    {S : Stub} (hpack : packStub compress input = some S)
    (hout : packWithLZ4 compress input = some out) {r : LoadRange}
    (hr : checkLoads input = some r) (hstart : r.loadStart = 0x10000)
    (hwrap : ∀ ph ∈ loads input, ph.pVaddr + ph.size < 2 ^ 32) : Layout input out S := by
  obtain ⟨r', image, b, hp⟩ := packStub_eq_some hpack
  obtain rfl := Option.some.inj (hp.range.symm.trans hr)
  obtain rfl : output (ehdr input).eFlags S = out := by
    rw [packWithLZ4, hpack] at hout
    exact Option.some.inj hout
  have hcovers := hp.covers hc hstart hwrap
  obtain ⟨-, -, hstop, -⟩ := hp.bounds hc
  obtain ⟨hend, hcongr⟩ := hp.placed hc
  refine ⟨hcovers, ⟨_, loads_output _ hstop, hend.le, hcongr⟩, ?_⟩
  intro hstarts image' himage x m h0 hm
  obtain rfl := Option.some.inj (hp.built.symm.trans himage)
  obtain ⟨ph, hph, j, hj, hentry⟩ := hstarts.inLoad
  have hfits : S.Fits := hp.fits hc hstarts.even (hentry ▸ hcovers ph hph j hj)
  have hloaded := hm.loaded _ hstop
  obtain ⟨hbase, hS, -⟩ := hp.eEntry hc
  obtain ⟨part, hpart⟩ := exists_part S b
  constructor
  · intro hne
    obtain ⟨x', hrun⟩ := hp.run (x := x) hc hfits hne hloaded h0 hpart
    exact ⟨x', _, hrun⟩
  · intro x' m' hrun
    have hne : image ≠ [] := by
      rw [hbase, ← hS] at hrun
      exact hp.image_ne_nil hc hfits hloaded h0 hrun
    obtain ⟨x₁, hrun₁⟩ := hp.run (x := x) hc hfits hne hloaded h0 hpart
    obtain rfl : m' = (m.fill 0x10000 0 S.mmapSize).write 0x10000 part := congrArg State.mem
      (Stub.runs_entry_unique hfits hrun hrun₁ hS.symm hS.symm)
    exact hp.leaves hc hm hpart

/-- The layout of the small executable. -/
theorem layout_smallFile :
    Layout (smallFile 0x10000) (output 0 (smallStub 0x10000)) (smallStub 0x10000) := by
  have hp := smallFile_packed_low
  refine layout_sound plainCompress_compresses hp.packStub hp.packWithLZ4 hp.range rfl ?_
  rw [(smallFile_loads 0x10000 (Or.inl rfl)).1]
  decide

end RvLlvm.Packer.Lz4
