import RvLlvm.Packer.Lz4Packer

/-!
# The unpacked image

What the loader of a packed executable leaves in memory
(`lld/ELF/RISCVLZ4Packer.cpp:30-45,112-233`). The image is built from the lowest address of a
segment on, and always unpacked at `0x10000`.

* `buildImage_spec`: each byte of the image is that of a segment or zero.
* `unpacks_iff`: the executable is in memory and starts exactly when it is `Unpackable`: its lowest
  address is `0x10000` or it has only zeros, its segments agree where they overlap, and none wraps.
* `not_unpacks_highSegment`: an executable that is linked at another address.
-/

namespace RvLlvm.Packer.Lz4

open RvLlvm.Support RvLlvm.Support.Rv RvLlvm.Support.Lz4

/-! ## The bytes of the image -/

theorem getD_memcpy {dst src dst' : List UInt8} {d s n : Nat} (h : memcpy dst d src s n = some dst')
    (i : Nat) :
    dst'.getD i 0 = if d ≤ i ∧ i < d + n then src.getD (s + (i - d)) 0 else dst.getD i 0 := by
  rw [memcpy] at h
  split at h
  next hfit =>
    obtain ⟨hd, hs⟩ := hfit
    obtain rfl := Option.some.inj h
    have hlen : (dst.take d).length = d := by
      rw [List.length_take]
      omega
    have hmid : ((src.drop s).take n).length = n := by
      rw [List.length_take, List.length_drop]
      omega
    rcases Nat.lt_or_ge i d with hlt | hge
    · rw [if_neg (by omega), Stub.getD_append_left (by omega), List.getD_eq_getElem?_getD,
        List.getElem?_take_of_lt hlt, List.getD_eq_getElem?_getD]
    · obtain ⟨j, rfl⟩ := Nat.exists_eq_add_of_le hge
      have hskip := Stub.getD_append_right (dst.take d) ((src.drop s).take n ++ dst.drop (d + n)) j
      rw [hlen] at hskip
      rw [hskip]
      rcases Nat.lt_or_ge j n with hj | hj
      · rw [if_pos (by omega), Stub.getD_append_left (by omega), List.getD_eq_getElem?_getD,
          List.getElem?_take_of_lt hj, List.getElem?_drop, Nat.add_sub_cancel_left,
          List.getD_eq_getElem?_getD]
      · obtain ⟨k, rfl⟩ := Nat.exists_eq_add_of_le hj
        have hlast := Stub.getD_append_right ((src.drop s).take n) (dst.drop (d + n)) k
        rw [hmid] at hlast
        rw [if_neg (by omega), hlast, List.getD_eq_getElem?_getD, List.getElem?_drop,
          List.getD_eq_getElem?_getD, Nat.add_assoc]
  next => exact absurd h (by simp)

theorem length_memcpy {dst src dst' : List UInt8} {d s n : Nat}
    (h : memcpy dst d src s n = some dst') : dst'.length = dst.length := by
  rw [memcpy] at h
  split at h
  next hfit =>
    obtain rfl := Option.some.inj h
    rw [List.length_append, List.length_append, List.length_take, List.length_take,
      List.length_drop, List.length_drop]
    omega
  next => exact absurd h (by simp)

/-- The segment has a file byte for byte `i` of an image from `start` on. -/
def Phdr.Fills (ph : Phdr) (start i : Nat) : Prop :=
  ph.pVaddr ≤ start + i ∧ start + i < ph.pVaddr + ph.pFilesz

instance (ph : Phdr) (start i : Nat) : Decidable (ph.Fills start i) :=
  inferInstanceAs (Decidable (_ ∧ _))

variable {image input : List UInt8}

/-- One segment is copied to its place in the image. -/
theorem copySegment_spec {image' : List UInt8} {start : Nat} {ph : Phdr} (hv : ph.pVaddr < 2 ^ 32)
    (h : copySegment input start image ph = some image') :
    image'.length = image.length ∧ ∀ i, image'.getD i 0 =
      if ph.Fills start i then ph.byte input (start + i - ph.pVaddr) else image.getD i 0 := by
  rw [copySegment] at h
  split at h
  · exact absurd h (by simp)
  next hcheck =>
    push Not at hcheck
    have hoffset : word (ph.pVaddr - start) = ph.pVaddr - start := by
      have hcast : (ph.pVaddr - start : Int) = (ph.pVaddr - start : Nat) := by omega
      rw [hcast, word_of_lt (by omega)]
    rw [hoffset] at h
    refine ⟨length_memcpy h, fun i => ?_⟩
    rw [getD_memcpy h i]
    by_cases hfills : ph.Fills start i
    · have hrange := hfills
      unfold Phdr.Fills at hrange
      rw [if_pos hfills, if_pos (by omega), Phdr.byte, if_pos (by omega)]
      congr 1
      omega
    · rw [if_neg hfills, if_neg]
      unfold Phdr.Fills at hfills
      omega

/-- The loop over the segments, by induction: a byte is that of a segment, or untouched. -/
theorem foldlM_copySegment {start : Nat} (segs : List Phdr) (hv : ∀ ph ∈ segs, ph.pVaddr < 2 ^ 32)
    {image' : List UInt8} (h : segs.foldlM (copySegment input start) image = some image') :
    image'.length = image.length ∧ ∀ i,
      (image'.getD i 0 = image.getD i 0 ∧ ∀ ph ∈ segs, ¬ ph.Fills start i) ∨
      ∃ ph ∈ segs, ph.Fills start i ∧ image'.getD i 0 = ph.byte input (start + i - ph.pVaddr) := by
  induction segs generalizing image with
  | nil =>
    obtain rfl := Option.some.inj h
    exact ⟨rfl, fun i => Or.inl ⟨rfl, fun ph hph => absurd hph List.not_mem_nil⟩⟩
  | cons ph segs ih =>
    rw [List.foldlM_cons] at h
    obtain ⟨image₁, hcopy, hrest⟩ := Option.bind_eq_some_iff.mp h
    obtain ⟨hlen₁, hbyte₁⟩ := copySegment_spec (hv ph List.mem_cons_self) hcopy
    obtain ⟨hlen, hbyte⟩ := ih (fun t ht => hv t (List.mem_cons_of_mem ph ht)) hrest
    refine ⟨hlen.trans hlen₁, fun i => ?_⟩
    rcases hbyte i with ⟨hsame, hnone⟩ | ⟨t, ht, hfills, heq⟩
    · rw [hbyte₁ i] at hsame
      by_cases hfills : ph.Fills start i
      · rw [if_pos hfills] at hsame
        exact Or.inr ⟨ph, List.mem_cons_self, hfills, hsame⟩
      · rw [if_neg hfills] at hsame
        refine Or.inl ⟨hsame, fun t ht => ?_⟩
        rcases List.mem_cons.mp ht with rfl | ht
        · exact hfills
        · exact hnone t ht
    · exact Or.inr ⟨t, List.mem_cons_of_mem ph ht, hfills, heq⟩

theorem loads_pVaddr_lt {ph : Phdr} (h : ph ∈ loads input) : ph.pVaddr < 2 ^ 32 := by
  obtain ⟨i, -, rfl⟩ := List.mem_map.mp (List.mem_of_mem_filter h)
  exact number_lt _ _

/-- **The image**: each byte is one of a segment at the address that it stands for, or zero where no
segment has one. -/
theorem buildImage_spec (h : buildImage input = some image) :
    ∃ r, checkLoads input = some r ∧ image.length = imageSize r ∧ ∀ i,
      (image.getD i 0 = 0 ∧ ∀ ph ∈ loads input, ¬ ph.Fills r.loadStart i) ∨
      ∃ ph ∈ loads input, ph.Fills r.loadStart i ∧
        image.getD i 0 = ph.byte input (r.loadStart + i - ph.pVaddr) := by
  obtain ⟨r, hr, hfold⟩ := Option.bind_eq_some_iff.mp h
  obtain ⟨hlen, hbyte⟩ := foldlM_copySegment (loads input) (fun ph => loads_pVaddr_lt) hfold
  rw [List.length_replicate] at hlen
  refine ⟨r, hr, hlen, fun i => ?_⟩
  have hzero : (List.replicate (imageSize r) (0 : UInt8)).getD i 0 = 0 := by
    rw [List.getD_eq_getElem?_getD, List.getElem?_replicate]
    split <;> rfl
  have hi := hbyte i
  rw [hzero] at hi
  exact hi

/-! ## The stub -/

/-- The address is in the memory that the loader maps. -/
def Stub.Mapped (S : Stub) (a : Nat) : Prop := 0x10000 ≤ a ∧ a < 0x10000 + S.mmapSize

/-- What the packer has made when it succeeds. -/
structure Packed (compress : Compress) (input : List UInt8) (S : Stub) (r : LoadRange)
    (image : List UInt8) (b : Block) : Prop where
  range : checkLoads input = some r
  built : buildImage input = some image
  block : compress image (compressBound image.length) = some b
  made : S = stub (ehdr input).eEntry image.length b

theorem packStub_eq_some {compress : Compress} {S : Stub} (h : packStub compress input = some S) :
    ∃ r image b, Packed compress input S r image b := by
  rw [packStub] at h
  obtain ⟨image, himage, h⟩ := Option.bind_eq_some_iff.mp h
  obtain ⟨b, hb, h⟩ := Option.bind_eq_some_iff.mp h
  have hrange := himage
  rw [buildImage] at hrange
  obtain ⟨r, hr, -⟩ := Option.bind_eq_some_iff.mp hrange
  exact ⟨r, image, b, hr, himage, hb, (Option.some.inj h).symm⟩

section Packed

variable {compress : Compress} {input : List UInt8} {S : Stub} {r : LoadRange}
  {image : List UInt8} {b : Block}

theorem Packed.decode (hc : Compresses compress) (hp : Packed compress input S r image b) :
    b.decode = image := hc.decode hp.block

/-- The block is no longer than the compressor's bound, and the image no longer than it takes. -/
theorem Packed.sizes (hc : Compresses compress) (hp : Packed compress input S r image b) :
    image.length ≤ 0x7E000000 ∧ b.bytes.length ≤ image.length + image.length / 255 + 16 := by
  have hcap := hc.capacity hp.block
  have hpos : 0 < b.bytes.length := by
    rw [Block.bytes, List.length_append, literalBytes, List.length_cons]
    omega
  rw [compressBound] at hcap
  split at hcap
  · omega
  · exact ⟨by omega, hcap⟩

theorem roundMap_eq {n : Nat} (hn : n ≤ 0x7E000000) :
    roundMap n = (n + 0x10000) / 0x10000 * 0x10000 := by
  have hcast : (n + 0x10000 : Int) = (n + 0x10000 : Nat) := by omega
  rw [roundMap, hcast, word_of_lt (by omega)]

theorem loaderVaddr_eq {n : Nat} (hn : n ≤ 0x7E000000) :
    loaderVaddr n = (0x20000 + n) / 0x10000 * 0x10000 + 84 := by
  have hfirst : (0x10000 + n : Int) = (0x10000 + n : Nat) := by omega
  have hsecond : ((0x10000 + n : Nat) + 0x10000 : Int) = (0x10000 + n + 0x10000 : Nat) := by omega
  rw [loaderVaddr, hfirst, word_of_lt (by omega), hsecond, word_of_lt (by omega)]
  have hround : (((0x10000 + n + 0x10000 : Nat) : Int) / 0x10000 * 0x10000 + ((52 + 32 : Nat) : Int)) =
      ((0x20000 + n) / 0x10000 * 0x10000 + 84 : Nat) := by omega
  rw [← word_of_lt (by omega : (0x20000 + n) / 0x10000 * 0x10000 + 84 < 2 ^ 32), ← hround]

/-- Where the stub and the mapping lie. -/
theorem Packed.bounds (hc : Compresses compress) (hp : Packed compress input S r image b) :
    S.base % 2 = 0 ∧ 0x10000 + S.mmapSize ≤ S.base ∧ S.stop < 2 ^ 32 ∧
      image.length ≤ S.mmapSize := by
  obtain ⟨hn, hlen⟩ := hp.sizes hc
  have hbase : S.base = (0x20000 + image.length) / 0x10000 * 0x10000 + 84 := by
    rw [hp.made, stub]
    exact loaderVaddr_eq hn
  have hmap : S.mmapSize = (image.length + 0x10000) / 0x10000 * 0x10000 := by
    rw [hp.made, stub]
    exact roundMap_eq hn
  have hblock : S.block = b.bytes := by
    rw [hp.made]
    rfl
  rw [Stub.stop, hblock]
  omega

theorem Packed.fits (hc : Compresses compress) (hp : Packed compress input S r image b)
    (heven : (ehdr input).eEntry % 2 = 0) (hentry : S.Mapped (ehdr input).eEntry) : S.Fits := by
  obtain ⟨hbase, habove, hstop, -⟩ := hp.bounds hc
  have hS : S.entry = (ehdr input).eEntry := by
    rw [hp.made]
    rfl
  obtain ⟨hlow, hhigh⟩ := hentry
  unfold Stub.stop at hstop
  refine ⟨hbase, habove, hstop, ?_, ?_, ?_⟩
  · rw [hS]
    exact heven
  · omega
  · omega

end Packed

/-! ## The run -/

/-- The executable `input`, packed as `out`, unpacks itself: from the entry of `out` the loader runs
to the executable's own, with all its segments in the memory that it has mapped. -/
def Unpacks (input out : List UInt8) (S : Stub) (x : Regs) (m : Memory) : Prop :=
  ∃ x' m', S.Runs ⟨x, m, (ehdr out).eEntry⟩ ⟨x', m', (ehdr input).eEntry⟩ ∧
    (∀ ph ∈ loads input, ∀ j < ph.size, S.Mapped (ph.pVaddr + j)) ∧ Maps input m'

/-- When it does. The stub of the block may stop early only in front of zeros. -/
structure Unpackable (input : List UInt8) (S : Stub) (r : LoadRange) (b : Block) : Prop where
  based : r.loadStart = 0x10000 ∨ ∀ ph ∈ loads input, ∀ j, ph.byte input j = 0
  agree : ∀ s ∈ loads input, ∀ t ∈ loads input, ∀ j < s.size, ∀ k < t.size,
    s.pVaddr + j = t.pVaddr + k → s.byte input j = t.byte input k
  inside : ∀ ph ∈ loads input, ∀ j < ph.size, S.Mapped (ph.pVaddr + j)
  nonempty : imageSize r ≠ 0
  seen : S.Seen (S.base + 168) b.sequences ∨
    ∃ part, S.Stops b part ∧ ∀ i, part.length ≤ i → b.decode.getD i 0 = 0

/-- The entry of an executable is the even address of a byte of one of its segments. -/
structure Starts (input : List UInt8) : Prop where
  even : (ehdr input).eEntry % 2 = 0
  inLoad : ∃ ph ∈ loads input, ∃ j < ph.size, ph.pVaddr + j = (ehdr input).eEntry

/-- Memory after a run, where the loader has mapped it. -/
theorem getD_of_mapped {S : Stub} {m : Memory} {part : List UInt8} {a : Nat} (h : S.Mapped a) :
    (m.fill 0x10000 0 S.mmapSize).write 0x10000 part a = part.getD (a - 0x10000) 0 := by
  obtain ⟨hlow, hhigh⟩ := h
  rw [Memory.write, if_pos hlow, Memory.fill_apply, if_pos ⟨hlow, hhigh⟩,
    List.getD_eq_getElem?_getD]

/-- A set of addresses within bounds is not closed under a shift. -/
theorem not_of_shift {P : Nat → Prop} {lo hi start : Nat} (hne : start ≠ lo)
    (h : ∀ a, P a → (lo ≤ a ∧ a < hi) ∧ P (start + (a - lo))) (a : Nat) : ¬ P a := by
  -- by induction on the distance to the bound that the shift moves to
  induction hd : (if lo < start then hi - a else a) using Nat.strong_induction_on generalizing a with
  | _ d ih =>
    intro ha
    obtain ⟨hbounds, hnext⟩ := h a ha
    refine ih _ ?_ (start + (a - lo)) rfl hnext
    rw [← hd]
    split <;> omega

section Run

variable {compress : Compress} {input : List UInt8} {S : Stub} {r : LoadRange}
  {image : List UInt8} {b : Block} {x : Regs} {m : Memory}

theorem Packed.image_spec (hp : Packed compress input S r image b) :
    image.length = imageSize r ∧ ∀ i,
      (image.getD i 0 = 0 ∧ ∀ ph ∈ loads input, ¬ ph.Fills r.loadStart i) ∨
      ∃ ph ∈ loads input, ph.Fills r.loadStart i ∧
        image.getD i 0 = ph.byte input (r.loadStart + i - ph.pVaddr) := by
  obtain ⟨r', hr', hspec⟩ := buildImage_spec hp.built
  obtain rfl : r = r' := Option.some.inj (hp.range.symm.trans hr')
  exact hspec

theorem Packed.eEntry (hc : Compresses compress) (hp : Packed compress input S r image b) :
    (ehdr (output (ehdr input).eFlags S)).eEntry = S.base ∧ S.entry = (ehdr input).eEntry ∧
      S.block = b.bytes := by
  obtain ⟨-, -, hstop, -⟩ := hp.bounds hc
  unfold Stub.stop at hstop
  refine ⟨ehdr_output _ (by omega), ?_, ?_⟩
  · rw [hp.made]
    rfl
  · rw [hp.made]
    rfl

/-- **The run** of a stub with an image: it reaches the entry with the block, or what it takes for
the block, decoded. -/
theorem Packed.run (hc : Compresses compress) (hp : Packed compress input S r image b)
    (hfits : S.Fits) (himage : image ≠ []) (hm : S.Loaded m) (h0 : x 0 = 0) {part : List UInt8}
    (hpart : (part = b.decode ∧ S.Seen (S.base + 168) b.sequences) ∨ S.Stops b part) :
    ∃ x', S.Runs ⟨x, m, (ehdr (output (ehdr input).eFlags S)).eEntry⟩
      ⟨x', (m.fill 0x10000 0 S.mmapSize).write 0x10000 part, (ehdr input).eEntry⟩ := by
  obtain ⟨hbase, hentry, hblock⟩ := hp.eEntry hc
  have hwf := hc.wellFormed hp.block
  have hout : b.decode.length ≤ S.mmapSize := by
    rw [hp.decode hc]
    exact (hp.bounds hc).2.2.2
  rw [hbase, ← hentry]
  rcases hpart with ⟨rfl, hseen⟩ | hstops
  · obtain ⟨x', hrun, -⟩ := Stub.decodes_of_seen hfits hblock hwf (hc.last hp.block himage) hout hm
      h0 hseen
    exact ⟨x', hrun⟩
  · obtain ⟨x', hrun, -⟩ := Stub.run_of_stops hfits hblock hwf hout hm h0 hstops
    exact ⟨x', hrun⟩

/-- What there is to decode. -/
theorem exists_part (S : Stub) (b : Block) :
    ∃ part, ((part = b.decode ∧ S.Seen (S.base + 168) b.sequences) ∨ S.Stops b part) := by
  by_cases hseen : S.Seen (S.base + 168) b.sequences
  · exact ⟨_, Or.inl ⟨rfl, hseen⟩⟩
  · obtain ⟨pre, q, post, hsplit, hpre, hunseen⟩ := Stub.exists_unseen hseen
    exact ⟨_, Or.inr ⟨pre, q, post, hsplit, hpre, hunseen, rfl⟩⟩

/-- A decoded byte is that of the image. -/
theorem Packed.getD_part (hc : Compresses compress) (hp : Packed compress input S r image b)
    {part : List UInt8}
    (hpart : (part = b.decode ∧ S.Seen (S.base + 168) b.sequences) ∨ S.Stops b part) {i : Nat}
    (hi : i < part.length) : part.getD i 0 = image.getD i 0 := by
  rw [← hp.decode hc]
  rcases hpart with ⟨rfl, -⟩ | hstops
  · rfl
  · obtain ⟨rest, hrest⟩ := hstops.prefix
    rw [← hrest, Stub.getD_append_left hi]

theorem getD_of_length_le {l : List UInt8} {i : Nat} (h : l.length ≤ i) : l.getD i 0 = 0 := by
  rw [List.getD_eq_getElem?_getD, List.getElem?_eq_none h]
  rfl

/-- **An executable that is not linked at `0x10000`** has only zeros when its image, unpacked there,
is right. -/
theorem Packed.zero_of_maps (hc : Compresses compress) (hp : Packed compress input S r image b)
    {part : List UInt8}
    (hpart : (part = b.decode ∧ S.Seen (S.base + 168) b.sequences) ∨ S.Stops b part)
    (hinside : ∀ ph ∈ loads input, ∀ j < ph.size, S.Mapped (ph.pVaddr + j))
    (hmaps : Maps input ((m.fill 0x10000 0 S.mmapSize).write 0x10000 part))
    (hbased : r.loadStart ≠ 0x10000) : ∀ ph ∈ loads input, ∀ j, ph.byte input j = 0 := by
  -- a byte of a segment is found in the image, where it stands for another address of a segment
  have hshift : ∀ a, (∃ s ∈ loads input, ∃ j < s.pFilesz, s.pVaddr + j = a ∧ s.byte input j ≠ 0) →
      (0x10000 ≤ a ∧ a < 0x10000 + S.mmapSize) ∧
        ∃ s ∈ loads input, ∃ j < s.pFilesz, s.pVaddr + j = r.loadStart + (a - 0x10000) ∧
          s.byte input j ≠ 0 := by
    rintro a ⟨s, hs, j, hj, rfl, hne⟩
    have hj' : j < s.size := lt_of_lt_of_le hj (Nat.le_max_left _ _)
    have hmapped := hinside s hs j hj'
    refine ⟨hmapped, ?_⟩
    have hbyte := hmaps s hs j hj'
    rw [getD_of_mapped hmapped] at hbyte
    have hlt : s.pVaddr + j - 0x10000 < part.length := by
      by_contra hge
      rw [getD_of_length_le (Nat.le_of_not_lt hge)] at hbyte
      exact hne hbyte.symm
    rw [hp.getD_part hc hpart hlt] at hbyte
    rcases hp.image_spec.2 (s.pVaddr + j - 0x10000) with ⟨hzero, -⟩ | ⟨t, ht, hfills, heq⟩
    · exact absurd (hbyte.symm.trans hzero) hne
    · obtain ⟨hlow, hhigh⟩ := hfills
      refine ⟨t, ht, _, ?_, Nat.add_sub_of_le hlow, ?_⟩
      · omega
      · rw [← heq, hbyte]
        exact hne
  intro s hs j
  by_contra hne
  have hj : j < s.pFilesz := by
    by_contra hge
    exact hne (if_neg hge)
  exact not_of_shift hbased hshift (s.pVaddr + j) ⟨s, hs, j, hj, rfl, hne⟩

end Run

section Run

variable {compress : Compress} {input : List UInt8} {S : Stub} {r : LoadRange}
  {image : List UInt8} {b : Block} {x : Regs} {m : Memory}

/-- An executable that unpacks itself has an image. -/
theorem Packed.image_ne_nil (hc : Compresses compress) (hp : Packed compress input S r image b)
    (hfits : S.Fits) (hm : S.Loaded m) (h0 : x 0 = 0) {x' : Regs} {m' : Memory}
    (hrun : S.Runs ⟨x, m, S.base⟩ ⟨x', m', S.entry⟩) : image ≠ [] := by
  intro hnil
  have hlen := b.length_decode
  rw [hp.decode hc, hnil, List.length_nil] at hlen
  have hlast : b.last = [] := List.length_eq_zero_iff.mp (by omega)
  have hwf := hc.wellFormed hp.block
  have hsequences : b.sequences = [] := by
    cases hqs : b.sequences with
    | nil => rfl
    | cons q qs =>
      rw [hqs, List.foldl_cons] at hlen
      have hfollow := hwf.follow
      rw [hqs] at hfollow
      have hmatch := hfollow.1.length
      have hq := length_decode [] q
      have hle := length_le_foldl qs (q.decode [])
      omega
  exact Stub.not_runs_of_empty hfits (hp.eEntry hc).2.2 hwf hsequences hlast hm h0 hrun rfl

/-- **An executable that unpacks itself** is one that can. -/
theorem Packed.unpackable (hc : Compresses compress) (hp : Packed compress input S r image b)
    (hstarts : Starts input) (hm : S.Loaded m) (h0 : x 0 = 0)
    (h : Unpacks input (output (ehdr input).eFlags S) S x m) :
    Unpackable input S r b := by
  obtain ⟨x', m', hrun, hinside, hmaps⟩ := h
  obtain ⟨ph, hph, j, hj, hj'⟩ := hstarts.inLoad
  have hfits : S.Fits := hp.fits hc hstarts.even (hj' ▸ hinside ph hph j hj)
  obtain ⟨hbase, hentry, -⟩ := hp.eEntry hc
  have hne : image ≠ [] := by
    rw [hbase, ← hentry] at hrun
    exact hp.image_ne_nil hc hfits hm h0 hrun
  obtain ⟨part, hpart⟩ := exists_part S b
  obtain ⟨x₁, hrun₁⟩ := hp.run (x := x) hc hfits hne hm h0 hpart
  obtain rfl : m' = (m.fill 0x10000 0 S.mmapSize).write 0x10000 part := congrArg State.mem
    (Stub.runs_entry_unique hfits hrun hrun₁ hentry.symm hentry.symm)
  refine ⟨?_, ?_, hinside, ?_, ?_⟩
  · by_cases hbased : r.loadStart = 0x10000
    · exact Or.inl hbased
    · exact Or.inr (hp.zero_of_maps hc hpart hinside hmaps hbased)
  · intro s hs t ht j hj k hk heq
    rw [← hmaps s hs j hj, ← hmaps t ht k hk, heq]
  · rw [← hp.image_spec.1]
    exact fun hzero => hne (List.length_eq_zero_iff.mp hzero)
  · rcases hpart with ⟨-, hseen⟩ | hstops
    · exact Or.inl hseen
    · refine Or.inr ⟨part, hstops, fun i hi => ?_⟩
      rw [hp.decode hc]
      rcases hp.image_spec.2 i with ⟨hzero, -⟩ | ⟨t, ht, hfills, heq⟩
      · exact hzero
      · rw [heq]
        by_cases hbased : r.loadStart = 0x10000
        · obtain ⟨hlow, hhigh⟩ := hfills
          have hsize : r.loadStart + i - t.pVaddr < t.size :=
            lt_of_lt_of_le (by omega) (Nat.le_max_left _ _)
          have hbyte := hmaps t ht _ hsize
          rw [getD_of_mapped (hinside t ht _ hsize), Nat.add_sub_of_le hlow, hbased,
            Nat.add_sub_cancel_left, getD_of_length_le hi] at hbyte
          rw [hbased]
          exact hbyte.symm
        · exact hp.zero_of_maps hc (Or.inr hstops) hinside hmaps hbased t ht _

/-- **An executable that can** unpacks itself. -/
theorem Packed.unpacks (hc : Compresses compress) (hp : Packed compress input S r image b)
    (hstarts : Starts input) (hm : S.Loaded m) (h0 : x 0 = 0) (h : Unpackable input S r b) :
    Unpacks input (output (ehdr input).eFlags S) S x m := by
  obtain ⟨ph, hph, j, hj, hj'⟩ := hstarts.inLoad
  have hfits : S.Fits := hp.fits hc hstarts.even (hj' ▸ h.inside ph hph j hj)
  have hne : image ≠ [] := by
    intro hnil
    have hlen := hp.image_spec.1
    rw [hnil] at hlen
    exact h.nonempty hlen.symm
  -- what is decoded is the image, but for zeros at its end
  obtain ⟨part, hpart, hrest⟩ : ∃ part,
      ((part = b.decode ∧ S.Seen (S.base + 168) b.sequences) ∨ S.Stops b part) ∧
        ∀ i, part.length ≤ i → b.decode.getD i 0 = 0 := by
    rcases h.seen with hseen | ⟨part, hstops, hzero⟩
    · exact ⟨_, Or.inl ⟨rfl, hseen⟩, fun i hi => getD_of_length_le hi⟩
    · exact ⟨part, Or.inr hstops, hzero⟩
  obtain ⟨x₁, hrun₁⟩ := hp.run (x := x) hc hfits hne hm h0 hpart
  refine ⟨x₁, _, hrun₁, h.inside, fun s hs j hj => ?_⟩
  have hmapped := h.inside s hs j hj
  obtain ⟨i, hi⟩ : ∃ i, s.pVaddr + j = 0x10000 + i := ⟨_, (Nat.add_sub_of_le hmapped.1).symm⟩
  have himage : part.getD i 0 = image.getD i 0 := by
    rcases Nat.lt_or_ge i part.length with hlt | hge
    · exact hp.getD_part hc hpart hlt
    · rw [getD_of_length_le hge, ← hp.decode hc, hrest i hge]
  rw [getD_of_mapped hmapped, hi, Nat.add_sub_cancel_left, himage]
  rcases hp.image_spec.2 i with ⟨hzero, hnone⟩ | ⟨t, ht, hfills, heq⟩
  · rw [hzero]
    rcases h.based with hbased | hzeros
    · refine (if_neg fun hlt => hnone s hs ?_).symm
      rw [Phdr.Fills, hbased]
      omega
    · exact (hzeros s hs j).symm
  · rw [heq]
    rcases h.based with hbased | hzeros
    · obtain ⟨hlow, hhigh⟩ := hfills
      rw [hbased] at hlow hhigh ⊢
      exact h.agree t ht s hs _ (lt_of_lt_of_le (by omega) (Nat.le_max_left _ _)) j hj (by omega)
    · rw [hzeros t ht, hzeros s hs]

end Run

/-- **A packed executable unpacks itself exactly** when it is unpackable. -/
theorem unpacks_iff {compress : Compress} (hc : Compresses compress) {input out : List UInt8}
    {S : Stub} (hpack : packStub compress input = some S)
    (hout : packWithLZ4 compress input = some out) (hstarts : Starts input) {x : Regs} {m : Memory}
    (hm : Maps out m) (h0 : x 0 = 0) :
    Unpacks input out S x m ↔ ∃ r image b, checkLoads input = some r ∧
      buildImage input = some image ∧ compress image (compressBound image.length) = some b ∧
      Unpackable input S r b := by
  obtain ⟨r, image, b, hp⟩ := packStub_eq_some hpack
  obtain rfl : output (ehdr input).eFlags S = out := by
    rw [packWithLZ4, hpack] at hout
    exact Option.some.inj hout
  have hloaded := hm.loaded _ (hp.bounds hc).2.2.1
  constructor
  · intro h
    exact ⟨r, image, b, hp.range, hp.built, hp.block, hp.unpackable hc hstarts hloaded h0 h⟩
  · rintro ⟨r', image', b', hr, hi, hb, h⟩
    obtain rfl := Option.some.inj (hi.symm.trans hp.built)
    obtain rfl := Option.some.inj (hr.symm.trans hp.range)
    obtain rfl := Option.some.inj (hb.symm.trans hp.block)
    exact hp.unpacks hc hstarts hloaded h0 h

/-! ## Two executables -/

/-- A compressor that writes one run of literals. -/
def plainCompress : Compress := fun src cap =>
  if (Block.bytes ⟨[], src, 0⟩).length ≤ cap then some ⟨[], src, 0⟩ else none

theorem plainCompress_eq {src : List UInt8} {cap : Nat} {b : Block}
    (h : plainCompress src cap = some b) : b.bytes.length ≤ cap ∧ b = ⟨[], src, 0⟩ := by
  rw [plainCompress] at h
  split at h
  next hcap =>
    obtain rfl := Option.some.inj h
    exact ⟨hcap, rfl⟩
  next => exact absurd h (by simp)

theorem plainCompress_compresses : Compresses plainCompress where
  capacity h := (plainCompress_eq h).1
  wellFormed h := by
    rw [(plainCompress_eq h).2]
    exact ⟨trivial, Nat.succ_pos 15⟩
  decode h := by
    rw [(plainCompress_eq h).2]
    rfl
  last h hne := by
    rw [(plainCompress_eq h).2]
    exact hne

/-- An executable of one instruction at `vaddr`. -/
def smallFile (vaddr : Nat) : List UInt8 :=
  outEh vaddr 0 ++ (outPh vaddr 4 ++ [0x13, 0x05, 0xf0, 0xff])

/-- The stub of its packed form. -/
def smallStub (vaddr : Nat) : Stub := stub vaddr 4 ⟨[], [0x13, 0x05, 0xf0, 0xff], 0⟩

/-- The packed executable is mapped. -/
theorem maps_memory (flags : Nat) {S : Stub} (hstop : S.stop < 2 ^ 32) :
    Maps (output flags S) S.memory := by
  intro ph hph j hj
  rw [loads_output flags hstop] at hph
  obtain rfl := List.mem_singleton.mp hph
  rw [Phdr.size, Nat.max_self] at hj
  rw [Phdr.byte, if_pos hj, getD_output, Stub.memory]
  exact congrArg (S.bytes.getD · 0) (Nat.add_sub_cancel_left _ _)

theorem smallFile_packed_low :
    Packed plainCompress (smallFile 0x10000) (smallStub 0x10000) ⟨0x10000, 0x10004, 0x10004⟩
      [0x13, 0x05, 0xf0, 0xff] ⟨[], [0x13, 0x05, 0xf0, 0xff], 0⟩ :=
  ⟨by decide, by decide, by decide, by rfl⟩

theorem smallFile_packed_high :
    Packed plainCompress (smallFile 0x11000) (smallStub 0x11000) ⟨0x11000, 0x11004, 0x11004⟩
      [0x13, 0x05, 0xf0, 0xff] ⟨[], [0x13, 0x05, 0xf0, 0xff], 0⟩ :=
  ⟨by decide, by decide, by decide, by rfl⟩

theorem Packed.packStub {compress : Compress} {S : Stub} {r : LoadRange} {b : Block}
    (hp : Packed compress input S r image b) : packStub compress input = some S := by
  rw [Lz4.packStub, hp.built, Option.bind_eq_bind, Option.bind_some, hp.block,
    Option.bind_eq_bind, Option.bind_some, hp.made]
  rfl

theorem Packed.packWithLZ4 {compress : Compress} {S : Stub} {r : LoadRange} {b : Block}
    (hp : Packed compress input S r image b) :
    packWithLZ4 compress input = some (output (ehdr input).eFlags S) := by
  rw [Lz4.packWithLZ4, hp.packStub]
  rfl

theorem smallFile_loads (vaddr : Nat) (hv : vaddr = 0x10000 ∨ vaddr = 0x11000) :
    loads (smallFile vaddr) = [⟨1, 84, vaddr, 4, 4⟩] ∧ (ehdr (smallFile vaddr)).eEntry = vaddr := by
  obtain rfl | rfl := hv <;> decide

theorem smallFile_starts {vaddr : Nat} (hv : vaddr = 0x10000 ∨ vaddr = 0x11000) :
    Starts (smallFile vaddr) := by
  obtain ⟨hloads, hentry⟩ := smallFile_loads vaddr hv
  refine ⟨?_, ⟨1, 84, vaddr, 4, 4⟩, ?_, 0, ?_, hentry.symm⟩
  · rw [hentry]
    omega
  · rw [hloads]
    exact List.mem_singleton_self _
  · exact Nat.succ_pos 3

/-- **An executable linked at `0x10000`** unpacks itself. -/
theorem unpacks_lowSegment :
    Unpacks (smallFile 0x10000) (output 0 (smallStub 0x10000)) (smallStub 0x10000) (fun _ => 0)
      (smallStub 0x10000).memory := by
  have hloads := (smallFile_loads 0x10000 (Or.inl rfl)).1
  have hp := smallFile_packed_low
  have hmap : (smallStub 0x10000).mmapSize = 0x10000 := by decide
  refine (unpacks_iff plainCompress_compresses hp.packStub hp.packWithLZ4
    (smallFile_starts (Or.inl rfl)) (maps_memory _ (by decide)) rfl).mpr
    ⟨_, _, _, hp.range, hp.built, hp.block, Or.inl rfl, ?_, ?_, by decide, Or.inl trivial⟩
  · intro s hs t ht j _ k _ heq
    rw [hloads] at hs ht
    obtain rfl := List.mem_singleton.mp hs
    obtain rfl := List.mem_singleton.mp ht
    rw [Nat.add_left_cancel heq]
  · intro ph hph j hj
    rw [hloads] at hph
    obtain rfl := List.mem_singleton.mp hph
    have hj : j < 4 := hj
    rw [Stub.Mapped, hmap]
    simp only
    omega

/-- **An executable linked at another address** does not: its image is unpacked at `0x10000`. -/
theorem not_unpacks_highSegment :
    packWithLZ4 plainCompress (smallFile 0x11000) = some (output 0 (smallStub 0x11000)) ∧
      packStub plainCompress (smallFile 0x11000) = some (smallStub 0x11000) ∧
      Starts (smallFile 0x11000) ∧
      ∀ (x : Regs) (m : Memory), x 0 = 0 → Maps (output 0 (smallStub 0x11000)) m →
        ¬ Unpacks (smallFile 0x11000) (output 0 (smallStub 0x11000)) (smallStub 0x11000) x m := by
  have hp := smallFile_packed_high
  have hstarts := smallFile_starts (Or.inr rfl)
  refine ⟨hp.packWithLZ4, hp.packStub, hstarts, fun x m h0 hm hunpacks => ?_⟩
  have hloaded := hm.loaded _ (by decide)
  rcases (hp.unpackable plainCompress_compresses hstarts hloaded h0 hunpacks).based with hbased | hzero
  · exact absurd hbased (by decide)
  · have hbyte := hzero ⟨1, 84, 0x11000, 4, 4⟩
      (by rw [(smallFile_loads 0x11000 (Or.inr rfl)).1]; exact List.mem_singleton_self _) 0
    exact absurd hbyte (by decide)

end RvLlvm.Packer.Lz4
