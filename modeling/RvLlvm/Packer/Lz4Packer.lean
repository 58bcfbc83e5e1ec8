import RvLlvm.Packer.Lz4Decode

/-!
# The LZ4 packer

Model of `packWithLZ4` (`lld/ELF/RISCVLZ4Packer.cpp:99-240`) from the bytes of the executable to the
bytes of the packed one, in the 32-bit arithmetic of the source. A `memcpy` outside its buffers has
no meaning here. The compressor is a parameter that gives a block.

* `buildImage`: the checks, and the image of all `PT_LOAD`s from the lowest address on.
* `packWithLZ4`: the header, the program header, the patched loader and the block.
* `Maps`: what a system does with an executable before it starts.
-/

namespace RvLlvm.Packer.Lz4

open RvLlvm.Support RvLlvm.Support.Rv RvLlvm.Support.Lz4

/-! ## The file -/

/-- The number in `k` bytes of a file. -/
def number (k : Nat) (file : List UInt8) (o : Nat) : Nat := leNat ((file.drop o).take k)

/-- `Elf32_Ehdr`. -/
structure Ehdr where
  eEntry : Nat
  ePhoff : Nat
  eFlags : Nat
  ePhentsize : Nat
  ePhnum : Nat

/-- `eh`. -/
def ehdr (file : List UInt8) : Ehdr where
  eEntry := number 4 file 24
  ePhoff := number 4 file 28
  eFlags := number 4 file 36
  ePhentsize := number 2 file 42
  ePhnum := number 2 file 44

/-- The tests on `e_ident` and `e_machine`. -/
def isElf32Riscv (file : List UInt8) : Bool :=
  file.take 6 == [0x7f, 0x45, 0x4c, 0x46, 1, 1] && number 2 file 18 == 243

/-- `Elf32_Phdr`. -/
structure Phdr where
  pType : Nat
  pOffset : Nat
  pVaddr : Nat
  pFilesz : Nat
  pMemsz : Nat
  deriving DecidableEq

/-- The program header at offset `o`. -/
def phdrAt (file : List UInt8) (o : Nat) : Phdr where
  pType := number 4 file o
  pOffset := number 4 file (o + 4)
  pVaddr := number 4 file (o + 8)
  pFilesz := number 4 file (o + 16)
  pMemsz := number 4 file (o + 20)

/-- `PT_LOAD`. -/
def ptLoad : Nat := 1

/-- `loads`. -/
def loads (file : List UInt8) : List Phdr :=
  ((List.range (ehdr file).ePhnum).map fun i =>
    phdrAt file ((ehdr file).ePhoff + i * (ehdr file).ePhentsize)).filter (·.pType == ptLoad)

namespace Phdr

variable (ph : Phdr)

/-- The bytes of memory that the segment has something to say about. -/
def size : Nat := max ph.pFilesz ph.pMemsz

/-- Byte `j` of the segment: the file's, and zero behind them. -/
def byte (file : List UInt8) (j : Nat) : UInt8 :=
  if j < ph.pFilesz then file.getD (ph.pOffset + j) 0 else 0

end Phdr

/-- Every segment of the executable is in memory. -/
def Maps (file : List UInt8) (m : Memory) : Prop :=
  ∀ ph ∈ loads file, ∀ j < ph.size, m (ph.pVaddr + j) = ph.byte file j

/-! ## The image -/

/-- `loadStart`, `loadEnd` and `fileEnd`. -/
structure LoadRange where
  loadStart : Nat
  loadEnd : Nat
  fileEnd : Nat
  deriving DecidableEq

/-- One turn of the loop over the segments. -/
def LoadRange.widen (r : LoadRange) (ph : Phdr) : LoadRange where
  loadStart := min r.loadStart ph.pVaddr
  loadEnd := max r.loadEnd (word (ph.pVaddr + ph.pMemsz))
  fileEnd := max r.fileEnd (word (ph.pVaddr + ph.pFilesz))

/-- The range of all segments; `front` is the first. -/
def loadRange (front : Phdr) (segs : List Phdr) : LoadRange :=
  segs.foldl LoadRange.widen
    ⟨front.pVaddr, word (front.pVaddr + front.pMemsz), word (front.pVaddr + front.pFilesz)⟩

/-- `(n + 0x10000) & ~0xffff`. -/
def roundMap (n : Nat) : Nat := word (n + 0x10000) / 0x10000 * 0x10000

/-- `imageSize`. -/
def imageSize (r : LoadRange) : Nat :=
  let memImageSize := word (r.loadEnd - r.loadStart)
  let fileImageSize := word (r.fileEnd - r.loadStart)
  if roundMap fileImageSize < memImageSize then memImageSize else fileImageSize

/-- `memcpy` of `n` bytes into `dst` at `d` from `src` at `s`. -/
def memcpy (dst : List UInt8) (d : Nat) (src : List UInt8) (s n : Nat) : Option (List UInt8) :=
  if d + n ≤ dst.length ∧ s + n ≤ src.length then
    some (dst.take d ++ ((src.drop s).take n ++ dst.drop (d + n)))
  else none

/-- One turn of the loop that fills the image. -/
def copySegment (input : List UInt8) (loadStart : Nat) (image : List UInt8) (ph : Phdr) :
    Option (List UInt8) :=
  if ph.pVaddr < loadStart ∨
      image.length < word (word (ph.pVaddr - loadStart) + ph.pFilesz) ∨
      input.length < word (ph.pOffset + ph.pFilesz) then none
  else memcpy image (word (ph.pVaddr - loadStart)) input ph.pOffset ph.pFilesz

/-- The checks of the executable, its segments and their range. -/
def checkLoads (input : List UInt8) : Option LoadRange :=
  if input.length < 52 then none
  else if isElf32Riscv input = false then none
  else if input.length < (ehdr input).ePhoff + (ehdr input).ePhnum * (ehdr input).ePhentsize ∨
      (ehdr input).ePhentsize ≠ 32 then none
  else
    match loads input with
    | [] => none
    | front :: segs =>
      let r := loadRange front (front :: segs)
      if 16 < (front :: segs).length then none
      else if r.loadEnd ≤ r.loadStart then none
      else some r

/-- The image of the segments. -/
def buildImage (input : List UInt8) : Option (List UInt8) := do
  let r ← checkLoads input
  (loads input).foldlM (copySegment input r.loadStart) (List.replicate (imageSize r) 0)

/-! ## The packed executable -/

/-- `LZ4_compressBound`. -/
def compressBound (n : Nat) : Nat := if 0x7E000000 < n then 0 else n + n / 255 + 16

/-- `LZ4_compress_HC`: the block it writes for a source within a capacity, if it succeeds. -/
abbrev Compress := List UInt8 → Nat → Option Block

/-- What is known of a compressor: it keeps to the capacity, its blocks decode to their source, and
the last bytes of a source are literals. -/
structure Compresses (compress : Compress) : Prop where
  capacity : ∀ {src cap b}, compress src cap = some b → b.bytes.length ≤ cap
  wellFormed : ∀ {src cap b}, compress src cap = some b → b.WellFormed
  decode : ∀ {src cap b}, compress src cap = some b → b.decode = src
  last : ∀ {src cap b}, compress src cap = some b → src ≠ [] → b.last ≠ []

/-- `loaderVaddr`. -/
def loaderVaddr (n : Nat) : Nat :=
  word (word (word (0x10000 + n) + 0x10000) / 0x10000 * 0x10000 + (52 + 32 : Nat))

/-- The patched loader and its block, at the address it is given. -/
def stub (entry n : Nat) (b : Block) : Stub where
  base := loaderVaddr n
  mmapSize := roundMap n
  entry := entry
  block := b.bytes

/-- `outEh`. -/
def outEh (entry flags : Nat) : List UInt8 :=
  [0x7f, 0x45, 0x4c, 0x46, 1, 1, 1, 0, 0, 0, 0, 0, 0, 0, 0, 0] ++ (leBytes 2 2 ++
    (leBytes 2 243 ++ (leBytes 4 1 ++ (leBytes 4 entry ++ (leBytes 4 52 ++ (leBytes 4 0 ++
    (leBytes 4 flags ++ (leBytes 2 52 ++ (leBytes 2 32 ++ (leBytes 2 1 ++ (leBytes 2 0 ++
    (leBytes 2 0 ++ leBytes 2 0))))))))))))

/-- `outPh`. -/
def outPh (vaddr size : Nat) : List UInt8 :=
  leBytes 4 ptLoad ++ (leBytes 4 84 ++ (leBytes 4 vaddr ++ (leBytes 4 vaddr ++ (leBytes 4 size ++
    (leBytes 4 size ++ (leBytes 4 7 ++ leBytes 4 0x1000))))))

/-- `out`: the two headers, the patched loader and the block. -/
def output (flags : Nat) (S : Stub) : List UInt8 :=
  outEh S.base flags ++ (outPh S.base (168 + S.block.length) ++ S.bytes)

/-- The stub in the packed executable. -/
def packStub (compress : Compress) (input : List UInt8) : Option Stub := do
  let image ← buildImage input
  let b ← compress image (compressBound image.length)
  return stub (ehdr input).eEntry image.length b

/-- `packWithLZ4`, from the bytes it reads to those it writes. -/
def packWithLZ4 (compress : Compress) (input : List UInt8) : Option (List UInt8) :=
  (packStub compress input).map (output (ehdr input).eFlags)

/-! ## Reading the packed executable -/

theorem number_lt (file : List UInt8) (o : Nat) : number 4 file o < 2 ^ 32 := by
  have hlen : ((file.drop o).take 4).length ≤ 4 := by
    rw [List.length_take]
    exact Nat.min_le_left _ _
  exact (leNat_lt _).trans_le (Nat.pow_le_pow_right (by omega) hlen)

/-- A number that was written after `l`. -/
theorem number_append {k v : Nat} (hv : v < 256 ^ k) (l r : List UInt8) :
    number k (l ++ (leBytes k v ++ r)) l.length = v := by
  rw [number, List.drop_left, List.take_left' (length_leBytes k v), leNat_leBytes hv]

section Output

variable (flags : Nat) (S : Stub)

theorem getD_output (i : Nat) : (output flags S).getD (84 + i) 0 = S.bytes.getD i 0 := by
  have hlen : (outEh S.base flags ++ outPh S.base (168 + S.block.length)).length = 84 := rfl
  rw [output, ← List.append_assoc, ← hlen, Stub.getD_append_right]

variable {S}

theorem ehdr_output (hbase : S.base < 2 ^ 32) : (ehdr (output flags S)).eEntry = S.base :=
  number_append (k := 4) hbase ((outEh S.base flags).take 24) _

/-- The packed executable has one segment: the loader and its block. -/
theorem loads_output (hstop : S.stop < 2 ^ 32) :
    loads (output flags S) = [⟨1, 84, S.base, 168 + S.block.length, 168 + S.block.length⟩] := by
  have hbase : S.base < 256 ^ 4 := by
    unfold Stub.stop at hstop
    omega
  have hsize : 168 + S.block.length < 256 ^ 4 := by
    unfold Stub.stop at hstop
    omega
  set ph := outPh S.base (168 + S.block.length) with hph
  set eh := outEh S.base flags with heh
  have hphoff : (ehdr (output flags S)).ePhoff = 52 := number_append (k := 4) (by omega) (eh.take 28) _
  have hphnum : (ehdr (output flags S)).ePhnum = 1 := number_append (k := 2) (by omega) (eh.take 44) _
  have htype : number 4 (output flags S) 52 = 1 := number_append (k := 4) (v := 1) (by omega) eh _
  have hoffset : number 4 (output flags S) (52 + 4) = 84 :=
    number_append (k := 4) (by omega) (eh ++ ph.take 4) _
  have hvaddr : number 4 (output flags S) (52 + 8) = S.base :=
    number_append (k := 4) hbase (eh ++ ph.take 8) _
  have hfilesz : number 4 (output flags S) (52 + 16) = 168 + S.block.length :=
    number_append (k := 4) hsize (eh ++ ph.take 16) _
  have hmemsz : number 4 (output flags S) (52 + 20) = 168 + S.block.length :=
    number_append (k := 4) hsize (eh ++ ph.take 20) _
  have hphdr : phdrAt (output flags S) 52 =
      ⟨1, 84, S.base, 168 + S.block.length, 168 + S.block.length⟩ := by
    rw [phdrAt, htype, hoffset, hvaddr, hfilesz, hmemsz]
  rw [loads, hphnum, hphoff, List.range_one, List.map_singleton, Nat.zero_mul, Nat.add_zero, hphdr]
  rfl

/-- A system that maps the packed executable loads the stub. -/
theorem Maps.loaded {m : Memory} (hstop : S.stop < 2 ^ 32) (h : Maps (output flags S) m) :
    S.Loaded m := by
  intro i hi
  rw [Stub.length_bytes] at hi
  have hbyte := h ⟨1, 84, S.base, 168 + S.block.length, 168 + S.block.length⟩
    (by rw [loads_output flags hstop]; exact List.mem_singleton_self _) i
    (by rw [Phdr.size, Nat.max_self]; exact hi)
  rw [Phdr.byte, if_pos hi, getD_output] at hbyte
  exact hbyte

end Output

end RvLlvm.Packer.Lz4
