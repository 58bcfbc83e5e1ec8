import Mathlib.Data.List.SplitBy
import Mathlib.Data.List.TakeWhile
import RvLlvm.Support.Leb128

/-!
# Android packed relocations

Model of `AndroidPackedRelocationSection<ELFT>::updateAllocSize`
(`lld/ELF/SyntheticSections.cpp:1742-1983`) and of `ELFFile<ELFT>::android_relas`
(`llvm/lib/Object/ELF.cpp:391-458`) with the accessors of `Elf_Rel_Impl`
(`llvm/include/llvm/Object/ELFTypes.h:380-478`). A section is a list of bytes; its numbers are
signed LEB128. `llvm::sort` may order equal elements as it likes, so any sort is allowed.

* `readGroup_ok`: a group of relocations that is written is read back, and the running offset and
  addend of the reader agree with those of the writer again.
* `androidRelas_round_trip`: every list of dynamic relocations is read back as the same entries,
  in another order.
-/

namespace RvLlvm.Lld.AndroidPacked

open RvLlvm.Support

/-- What the two functions read of the configuration and the target. -/
structure Config where
  wordsize : Nat
  isRela : Bool
  isMips64EL : Bool
  relativeRel : Nat
  word : wordsize = 4 ∨ wordsize = 8
  relativeRel_lt : relativeRel < 2 ^ 32
  mips : isMips64EL = true → wordsize = 8 ∧ relativeRel ≠ 0

/-- `llvm::sort`. -/
structure Sorting (α : Type) where
  sort : (α → α → Bool) → List α → List α
  perm : ∀ lt xs, (sort lt xs).Perm xs

/-- `Elf_Rela`. The offset and the info fill words; the addend is signed. -/
structure Rela where
  rOffset : Nat
  rInfo : Nat
  rAddend : Int
  deriving DecidableEq

/-- What a `DynamicReloc` is written from. -/
structure DynamicReloc where
  getOffset : Nat
  getSymIndex : Nat
  type : Nat
  computeAddend : Int
  symIndex_lt : getSymIndex < 2 ^ 32
  type_lt : type < 2 ^ 32

namespace Config

variable (C : Config)

/-- `setSymbolAndType` of words that are no MIPS words. -/
def setSymbolAndType (s t : Nat) : Nat :=
  if C.wordsize = 4 then (s * 2 ^ 8 + t % 2 ^ 8) % 2 ^ 32 else s * 2 ^ 32 + t

/-- `getRInfo`. -/
def getRInfo (t : Nat) : Nat :=
  if C.isMips64EL then
    t * 2 ^ 32 % 2 ^ 64 ||| ((t / 2 ^ 8) &&& 0xff000000) ||| ((t / 2 ^ 24) &&& 0x00ff0000) |||
      ((t / 2 ^ 40) &&& 0x0000ff00) ||| ((t / 2 ^ 56) &&& 0x000000ff)
  else t

/-- `getType`. -/
def getType (info : Nat) : Nat :=
  if C.wordsize = 4 then C.getRInfo info % 2 ^ 8 else C.getRInfo info % 2 ^ 32

/-- The entry of a relocation. -/
def entry (rel : DynamicReloc) : Rela where
  rOffset := rel.getOffset % 2 ^ (8 * C.wordsize)
  rInfo := C.setSymbolAndType rel.getSymIndex rel.type
  rAddend := if C.isRela then rel.computeAddend.bmod (2 ^ (8 * C.wordsize)) else 0

/-- The test that tells relative relocations. -/
def isRelative (r : Rela) : Bool := C.getType r.rInfo == C.relativeRel

/-! ## The writer -/

/-- `add`. -/
def add (v : Int) : List Nat := Sleb128.encode v

/-- `RELOCATION_GROUPED_BY_INFO_FLAG`. -/
def groupedByInfoFlag : Nat := 1

/-- `RELOCATION_GROUPED_BY_OFFSET_DELTA_FLAG`. -/
def groupedByOffsetDeltaFlag : Nat := 2

/-- `RELOCATION_GROUPED_BY_ADDEND_FLAG`. -/
def groupedByAddendFlag : Nat := 4

/-- `RELOCATION_GROUP_HAS_ADDEND_FLAG`. -/
def groupHasAddendFlag : Nat := 8

/-- The running `offset` and `addend` of the writer; differences to them are cut by `add`. -/
structure Running where
  offset : Nat := 0
  addend : Int := 0

/-- The loop that cuts the relative relocations into groups one word apart. -/
def adjacent (r s : Rela) : Bool :=
  (r.rOffset + C.wordsize) % 2 ^ (8 * C.wordsize) == s.rOffset

/-- The test of the loop that groups the others by what they share with the first. -/
def sameInfo (i j : Rela) : Bool :=
  i.rInfo == j.rInfo && (!C.isRela || i.rAddend == j.rAddend)

/-- The loop that groups the others, for at most `n` turns. -/
def infoGroups : Nat → List Rela → List (List Rela)
  | 0, _ => []
  | _ + 1, [] => []
  | n + 1, i :: rest =>
    (i :: rest.takeWhile (C.sameInfo i)) :: infoGroups n (rest.dropWhile (C.sameInfo i))

/-- A group of the others is not worth its header. -/
def ungrouped (g : List Rela) : Bool :=
  decide (g.length < 3) || (C.isRela && (g.head?.map (·.rAddend)).getD 0 != 0)

/-- `hasAddendIfRela`. -/
def hasAddendIfRela : Nat := if C.isRela then groupHasAddendFlag else 0

/-- The running state after a relocation of a group. -/
def Running.next (hasAddend : Bool) (s : Running) (r : Rela) : Running where
  offset := r.rOffset
  addend := if hasAddend then r.rAddend else s.addend

/-- What the loops over the relocations of a group write for each: the differences that the group
does not give. -/
def describe (byOffset byInfo hasAddend : Bool) (s : Running) : List Rela → List Int
  | [] => []
  | r :: rs =>
    (if byOffset then [] else [(r.rOffset : Int) - s.offset]) ++
      (if byInfo then [] else [(r.rInfo : Int)]) ++
      (if hasAddend then [r.rAddend - s.addend] else []) ++
      describe byOffset byInfo hasAddend (s.next hasAddend r) rs

/-- A loop over groups, and the running state it leaves. -/
def overGroups (write : Running → List Rela → List Int) (after : Running → List Rela → Running)
    (s : Running) : List (List Rela) → List Int × Running
  | [] => ([], s)
  | g :: gs =>
    let rest := overGroups write after (after s g) gs
    (write s g ++ rest.1, rest.2)

/-- The two groups of a run of relative relocations. -/
def writeRelativeGroup (s : Running) : List Rela → List Int
  | [] => []
  | r :: rs =>
    let flags : Nat := groupedByOffsetDeltaFlag + groupedByInfoFlag + C.hasAddendIfRela
    [1, (flags : Int), (r.rOffset : Int) - s.offset, (C.relativeRel : Int)] ++
      describe true true C.isRela s [r] ++
      [(rs.length : Int), (flags : Int), (C.wordsize : Int), (C.relativeRel : Int)] ++
      describe true true C.isRela (s.next C.isRela r) rs

/-- The group of the ungrouped relative relocations. -/
def writeUngroupedRelatives (s : Running) (rs : List Rela) : List Int :=
  if rs = [] then []
  else
    [(rs.length : Int), ((groupedByInfoFlag + C.hasAddendIfRela : Nat) : Int),
      (C.relativeRel : Int)] ++ describe false true C.isRela s rs

/-- A group of others that share their info. -/
def writeNonRelativeGroup (s : Running) : List Rela → List Int
  | [] => []
  | r :: rs =>
    [((r :: rs).length : Int), (groupedByInfoFlag : Int), (r.rInfo : Int)] ++
      describe false true false s (r :: rs)

/-- The group of the ungrouped others. -/
def writeUngroupedNonRelatives (s : Running) (rs : List Rela) : List Int :=
  if rs = [] then []
  else
    [(rs.length : Int), (C.hasAddendIfRela : Int)] ++ describe false false C.isRela s rs

/-- The running state after a loop over relocations. -/
def Running.over (hasAddend : Bool) (s : Running) (rs : List Rela) : Running :=
  rs.foldl (Running.next hasAddend) s

/-- The running state after a group whose loop ends with `addend = 0`. -/
def Running.reset (s : Running) (rs : List Rela) : Running :=
  { s.over false rs with addend := 0 }

/-- The numbers written for the entries. -/
def numbers (S : Sorting Rela) (entries : List Rela) : List Int :=
  let relatives := S.sort (fun a b => decide (a.rOffset < b.rOffset)) (entries.filter C.isRelative)
  let nonRelatives := S.sort
    (fun a b =>
      if a.rInfo ≠ b.rInfo then decide (a.rInfo < b.rInfo)
      else if a.rAddend ≠ b.rAddend then decide (a.rAddend < b.rAddend)
      else decide (a.rOffset < b.rOffset))
    (entries.filter fun r => !C.isRelative r)
  let runs := relatives.splitBy C.adjacent
  let ungroupedRelatives := (runs.filter fun g => decide (g.length < 8)).flatten
  let relativeGroups := runs.filter fun g => !decide (g.length < 8)
  let groups := C.infoGroups nonRelatives.length nonRelatives
  let ungroupedNonRelatives := S.sort (fun a b => decide (a.rOffset < b.rOffset))
    (groups.filter C.ungrouped).flatten
  let nonRelativeGroups := groups.filter fun g => !C.ungrouped g
  let first := overGroups C.writeRelativeGroup (Running.over C.isRela) {} relativeGroups
  let second := first.2.over C.isRela ungroupedRelatives
  let third := overGroups writeNonRelativeGroup Running.reset second nonRelativeGroups
  [(entries.length : Int), 0] ++ first.1 ++ C.writeUngroupedRelatives first.2 ungroupedRelatives ++
    third.1 ++ C.writeUngroupedNonRelatives third.2 ungroupedNonRelatives

/-- `updateAllocSize`, on the bytes of the pass before and the relocations of this one. -/
def updateAllocSize (S : Sorting Rela) (relocData : List Nat) (relocs : List DynamicReloc) :
    List Nat :=
  let data := [0x41, 0x50, 0x53, 0x32] ++ (C.numbers S (relocs.map C.entry)).flatMap add
  data ++ List.replicate (relocData.length - data.length) 0

end Config

/-! ## The reader -/

/-- What the reader gives up with. -/
inductive Error
  | leb (e : Sleb128.Malformed)
  | groupUnexpectedlyLarge
  | invalidHeader
  deriving DecidableEq

/-- `getSLEB128`, as 64 bits. -/
def getSLEB128 (data : List Nat) : Except Error (Nat × List Nat) :=
  match Sleb128.decode data with
  | .ok r => .ok r
  | .error e => .error (.leb e)

/-- `getSLEB128` where a flag asks for it. -/
def getIf (flag : Bool) (data : List Nat) : Except Error (Nat × List Nat) :=
  if flag then getSLEB128 data else .ok (0, data)

/-- The state of the reader: `Offset`, `Addend` and the bytes left. -/
structure Reader where
  offset : Nat
  addend : Nat
  data : List Nat

/-- What the header of a group says. -/
structure Header where
  groupedByInfo : Bool
  groupedByOffsetDelta : Bool
  groupedByAddend : Bool
  groupHasAddend : Bool
  groupOffsetDelta : Nat
  groupRInfo : Nat

variable (wordsize : Nat)

/-- The turn of the loop over the relocations of a group. -/
def readReloc (H : Header) (R : Reader) : Except Error (Rela × Reader) := do
  let (delta, data) ← getIf (!H.groupedByOffsetDelta) R.data
  let offset := (R.offset + if H.groupedByOffsetDelta then H.groupOffsetDelta else delta) % 2 ^ 64
  let (info, data) ← getIf (!H.groupedByInfo) data
  let (more, data) ← getIf (H.groupHasAddend && !H.groupedByAddend) data
  let addend : Nat := (R.addend + more) % 2 ^ 64
  .ok ({ rOffset := offset % 2 ^ (8 * wordsize)
         rInfo := (if H.groupedByInfo then H.groupRInfo else info) % 2 ^ (8 * wordsize)
         rAddend := (addend : Int).bmod (2 ^ (8 * wordsize)) }, ⟨offset, addend, data⟩)

/-- The loop over the relocations of a group. -/
def readRelocs (H : Header) : Nat → Reader → Except Error (List Rela × Reader)
  | 0, R => .ok ([], R)
  | n + 1, R => do
    let (r, R) ← readReloc wordsize H R
    let (rs, R) ← readRelocs H n R
    .ok (r :: rs, R)

/-- The header of a group, after its number of relocations. -/
def readHeader (R : Reader) : Except Error (Header × Reader) := do
  let (flags, data) ← getSLEB128 R.data
  let byInfo := flags &&& Config.groupedByInfoFlag != 0
  let byOffset := flags &&& Config.groupedByOffsetDeltaFlag != 0
  let byAddend := flags &&& Config.groupedByAddendFlag != 0
  let hasAddend := flags &&& Config.groupHasAddendFlag != 0
  let (delta, data) ← getIf byOffset data
  let (info, data) ← getIf byInfo data
  let (more, data) ← getIf (byAddend && hasAddend) data
  .ok (⟨byInfo, byOffset, byAddend, hasAddend, delta, info⟩,
    ⟨R.offset, if hasAddend then (R.addend + more) % 2 ^ 64 else 0, data⟩)

/-- The loop over the groups, for at most `n` turns: each takes a byte. -/
def readGroups : Nat → Nat → Reader → Except Error (List Rela)
  | _, 0, _ => .ok []
  | 0, _ + 1, _ => .error (.leb .extendsPastEnd)
  | n + 1, numRelocs, R => do
    let (numRelocsInGroup, data) ← getSLEB128 R.data
    if numRelocs < numRelocsInGroup then .error .groupUnexpectedlyLarge
    else
      let (H, R) ← readHeader { R with data := data }
      let (rs, R) ← readRelocs wordsize H numRelocsInGroup R
      let rest ← readGroups n (numRelocs - numRelocsInGroup) R
      .ok (rs ++ rest)

/-- `android_relas`. -/
def androidRelas : List Nat → Except Error (List Rela)
  | 0x41 :: 0x50 :: 0x53 :: 0x32 :: data => do
    let (numRelocs, data) ← getSLEB128 data
    let (offset, data) ← getSLEB128 data
    readGroups wordsize data.length numRelocs ⟨offset, 0, data⟩
  | _ => .error .invalidHeader

/-! ## A number -/

theorem getSLEB128_add (v : Int) (data : List Nat) :
    getSLEB128 (Config.add v ++ data) = .ok (cell 64 v, data) := by
  unfold getSLEB128 Config.add
  rw [Sleb128.decode_encode]

theorem getSLEB128_cons (v : Int) (vs : List Int) (data : List Nat) :
    getSLEB128 ((v :: vs).flatMap Config.add ++ data) =
      .ok (cell 64 v, vs.flatMap Config.add ++ data) := by
  rw [List.flatMap_cons, List.append_assoc, getSLEB128_add]

theorem cell_nat {n : Nat} (h : n < 2 ^ 64) : cell 64 n = n := by
  unfold cell
  omega

/-- A number that stands where a flag asks for it. -/
theorem getIf_ite (flag : Bool) (v : Int) (vs : List Int) (data : List Nat) :
    getIf flag (((if flag then [v] else []) ++ vs).flatMap Config.add ++ data) =
      .ok (if flag then cell 64 v else 0, vs.flatMap Config.add ++ data) := by
  unfold getIf
  cases flag with
  | true => exact getSLEB128_cons v vs data
  | false => rfl

/-- A number that stands unless a flag forbids it. -/
theorem getIf_not_ite (flag : Bool) (v : Int) (vs : List Int) (data : List Nat) :
    getIf (!flag) (((if flag then [] else [v]) ++ vs).flatMap Config.add ++ data) =
      .ok (if flag then 0 else cell 64 v, vs.flatMap Config.add ++ data) := by
  unfold getIf
  cases flag with
  | true => rfl
  | false => exact getSLEB128_cons v vs data

theorem bind_ok {α β : Type} (x : α) (f : α → Except Error β) : (Except.ok x >>= f) = f x := rfl

/-! ## A group -/

variable {wordsize}

/-- The fields of an entry fit into words. -/
structure Rela.Fits (wordsize : Nat) (r : Rela) : Prop where
  offset : r.rOffset < 2 ^ (8 * wordsize)
  info : r.rInfo < 2 ^ (8 * wordsize)
  addend : r.rAddend.bmod (2 ^ (8 * wordsize)) = r.rAddend

/-- The reader and the writer run alike, as far as a word can tell. -/
structure Agrees (wordsize : Nat) (s : Config.Running) (R : Reader) : Prop where
  offset : R.offset % 2 ^ (8 * wordsize) = s.offset % 2 ^ (8 * wordsize)
  addend : (R.addend : Int).bmod (2 ^ (8 * wordsize)) = s.addend.bmod (2 ^ (8 * wordsize))

/-- What a difference to the running value brings. -/
theorem add_difference (hw : wordsize = 4 ∨ wordsize = 8) {a b c : Nat}
    (h : a % 2 ^ (8 * wordsize) = b % 2 ^ (8 * wordsize)) :
    (a + cell 64 ((c : Int) - b)) % 2 ^ 64 % 2 ^ (8 * wordsize) = c % 2 ^ (8 * wordsize) := by
  unfold cell
  rcases hw with rfl | rfl
  · norm_num at h ⊢
    omega
  · norm_num at h ⊢
    omega

theorem add_difference_signed (hw : wordsize = 4 ∨ wordsize = 8) {a : Nat} {b c : Int}
    (h : (a : Int).bmod (2 ^ (8 * wordsize)) = b.bmod (2 ^ (8 * wordsize))) :
    (((a + cell 64 (c - b)) % 2 ^ 64 : Nat) : Int).bmod (2 ^ (8 * wordsize)) =
      c.bmod (2 ^ (8 * wordsize)) := by
  have hmod := congrArg (· % ((2 ^ (8 * wordsize) : Nat) : Int)) h
  simp only [Int.bmod_emod] at hmod
  have hsum : (((a + cell 64 (c - b)) % 2 ^ 64 : Nat) : Int) % (2 ^ (8 * wordsize) : Nat) =
      c % (2 ^ (8 * wordsize) : Nat) := by
    unfold cell
    rcases hw with rfl | rfl
    · norm_num at hmod ⊢
      omega
    · norm_num at hmod ⊢
      omega
  rw [← Int.emod_bmod, hsum, Int.emod_bmod]

/-- What a group's header must say of the entries `rs` that follow a place `offset`. -/
structure Describes (wordsize : Nat) (H : Header) (offset : Nat) (rs : List Rela) : Prop where
  offsets : H.groupedByOffsetDelta = true →
    (offset :: rs.map (·.rOffset)).IsChain fun a b =>
      (a + H.groupOffsetDelta) % 2 ^ (8 * wordsize) = b % 2 ^ (8 * wordsize)
  infos : H.groupedByInfo = true → ∀ r ∈ rs, H.groupRInfo % 2 ^ (8 * wordsize) = r.rInfo
  addends : H.groupHasAddend = false → ∀ r ∈ rs, r.rAddend = 0
  each : H.groupedByAddend = false

namespace Describes

variable {H : Header} {offset : Nat} {r : Rela} {rs : List Rela}

theorem head (h : Describes wordsize H offset (r :: rs)) : Describes wordsize H offset [r] := by
  refine ⟨fun hdelta => ?_, fun hby r' hr' => ?_, fun hno r' hr' => ?_, h.each⟩
  · have hchain := h.offsets hdelta
    rw [List.map_cons] at hchain
    exact List.isChain_pair.mpr (List.isChain_cons_cons.mp hchain).1
  · rw [List.mem_singleton.mp hr']
    exact h.infos hby r List.mem_cons_self
  · rw [List.mem_singleton.mp hr']
    exact h.addends hno r List.mem_cons_self

theorem tail (h : Describes wordsize H offset (r :: rs)) : Describes wordsize H r.rOffset rs := by
  refine ⟨fun hdelta => ?_, fun hby r' hr' => ?_, fun hno r' hr' => ?_, h.each⟩
  · have hchain := h.offsets hdelta
    rw [List.map_cons] at hchain
    exact (List.isChain_cons_cons.mp hchain).2
  · exact h.infos hby r' (List.mem_cons_of_mem r hr')
  · exact h.addends hno r' (List.mem_cons_of_mem r hr')

end Describes

variable {s : Config.Running}

theorem readReloc_ok (hw : wordsize = 4 ∨ wordsize = 8) {H : Header} {R : Reader} {r : Rela}
    {vs : List Int} {data : List Nat} (hagrees : Agrees wordsize s R)
    (hdesc : Describes wordsize H s.offset [r]) (hfits : r.Fits wordsize)
    (hzero : H.groupHasAddend = false → s.addend = 0)
    (hdata : R.data = ((if H.groupedByOffsetDelta then [] else [(r.rOffset : Int) - s.offset]) ++
      (if H.groupedByInfo then [] else [(r.rInfo : Int)]) ++
      (if H.groupHasAddend then [r.rAddend - s.addend] else []) ++ vs).flatMap Config.add ++ data) :
    ∃ R', readReloc wordsize H R = .ok (r, R') ∧ R'.data = vs.flatMap Config.add ++ data ∧
      Agrees wordsize (s.next H.groupHasAddend r) R' := by
  obtain ⟨hoffset, haddend⟩ := hagrees
  have hgrouped : (H.groupHasAddend && !H.groupedByAddend) = H.groupHasAddend := by
    rw [hdesc.each, Bool.not_false, Bool.and_true]
  unfold readReloc
  rw [hdata, List.append_assoc, List.append_assoc, getIf_not_ite, bind_ok]
  simp only
  rw [getIf_not_ite, bind_ok]
  simp only
  rw [hgrouped, getIf_ite, bind_ok]
  simp only
  -- the three fields
  have hnew : (R.offset + if H.groupedByOffsetDelta = true then H.groupOffsetDelta else
      if H.groupedByOffsetDelta = true then 0 else cell 64 ((r.rOffset : Int) - s.offset)) %
        2 ^ 64 % 2 ^ (8 * wordsize) = r.rOffset % 2 ^ (8 * wordsize) := by
    by_cases hdelta : H.groupedByOffsetDelta = true
    · rw [if_pos hdelta, Nat.mod_mod_of_dvd _ (word_dvd hw), Nat.add_mod, hoffset, ← Nat.add_mod]
      have hchain := hdesc.offsets hdelta
      rw [List.map_singleton] at hchain
      exact (List.isChain_cons_cons.mp hchain).1
    · rw [if_neg hdelta, if_neg hdelta]
      exact add_difference hw hoffset
  have hinfo : (if H.groupedByInfo = true then H.groupRInfo else
      if H.groupedByInfo = true then 0 else cell 64 (r.rInfo : Int)) % 2 ^ (8 * wordsize) =
        r.rInfo := by
    have hlt : r.rInfo < 2 ^ 64 := hfits.info.trans_le (Nat.le_of_dvd (by decide) (word_dvd hw))
    by_cases hby : H.groupedByInfo = true
    · rw [if_pos hby]
      exact hdesc.infos hby r List.mem_cons_self
    · rw [if_neg hby, if_neg hby, cell_nat hlt, Nat.mod_eq_of_lt hfits.info]
  have hnext : (((R.addend + if H.groupHasAddend = true then cell 64 (r.rAddend - s.addend) else 0) %
      2 ^ 64 : Nat) : Int).bmod (2 ^ (8 * wordsize)) =
        (s.next H.groupHasAddend r).addend.bmod (2 ^ (8 * wordsize)) := by
    unfold Config.Running.next
    by_cases hhas : H.groupHasAddend = true
    · simp only [if_pos hhas]
      exact add_difference_signed hw haddend
    · have hsame := add_difference_signed hw (c := s.addend) haddend
      rw [sub_self] at hsame
      simp only [if_neg hhas]
      exact hsame
  have hread : (s.next H.groupHasAddend r).addend.bmod (2 ^ (8 * wordsize)) = r.rAddend := by
    unfold Config.Running.next
    by_cases hhas : H.groupHasAddend = true
    · simp only [if_pos hhas]
      exact hfits.addend
    · have hno := Bool.eq_false_of_not_eq_true hhas
      simp only [if_neg hhas]
      rw [hzero hno, hdesc.addends hno r List.mem_cons_self]
      exact Int.zero_bmod
  refine ⟨⟨_, _, vs.flatMap Config.add ++ data⟩, ?_, rfl, ⟨hnew, hnext⟩⟩
  rw [hnew, hinfo, hnext, hread, Nat.mod_eq_of_lt hfits.offset]

/-- **The relocations of a group** are read back, and reader and writer agree after them. -/
theorem readRelocs_ok (hw : wordsize = 4 ∨ wordsize = 8) {H : Header} {R : Reader} {rs : List Rela}
    {data : List Nat} (hagrees : Agrees wordsize s R) (hdesc : Describes wordsize H s.offset rs)
    (hfits : ∀ r ∈ rs, r.Fits wordsize) (hzero : H.groupHasAddend = false → s.addend = 0)
    (hdata : R.data = (Config.describe H.groupedByOffsetDelta H.groupedByInfo H.groupHasAddend s
      rs).flatMap Config.add ++ data) :
    ∃ R', readRelocs wordsize H rs.length R = .ok (rs, R') ∧ R'.data = data ∧
      Agrees wordsize (s.over H.groupHasAddend rs) R' := by
  induction rs generalizing s R with
  | nil => exact ⟨R, rfl, hdata, hagrees⟩
  | cons r rs ih =>
    obtain ⟨R₁, hread, hdata₁, hagrees₁⟩ := readReloc_ok hw hagrees hdesc.head
      (hfits r List.mem_cons_self) hzero hdata
    have hzero₁ : H.groupHasAddend = false → (s.next H.groupHasAddend r).addend = 0 := by
      intro hno
      unfold Config.Running.next
      rw [hno]
      exact hzero hno
    obtain ⟨R₂, hrest, hdata₂, hagrees₂⟩ := ih hagrees₁ hdesc.tail
      (fun r' hr' => hfits r' (List.mem_cons_of_mem r hr')) hzero₁ hdata₁
    refine ⟨R₂, ?_, hdata₂, hagrees₂⟩
    rw [List.length_cons, readRelocs, hread, bind_ok]
    simp only
    rw [hrest, bind_ok]

/-- The numbers of a group: its header, and what its loop writes. -/
def groupNumbers (byOffset byInfo hasAddend : Bool) (delta info : Int) (s : Config.Running)
    (rs : List Rela) : List Int :=
  let flags : Nat := (if byOffset then Config.groupedByOffsetDeltaFlag else 0) +
    (if byInfo then Config.groupedByInfoFlag else 0) +
    (if hasAddend then Config.groupHasAddendFlag else 0)
  [(rs.length : Int), (flags : Int)] ++ (if byOffset then [delta] else []) ++
    (if byInfo then [info] else []) ++ Config.describe byOffset byInfo hasAddend s rs

/-- What the reader takes the header of such a group for. -/
def groupHeader (byOffset byInfo hasAddend : Bool) (delta info : Int) : Header where
  groupedByInfo := byInfo
  groupedByOffsetDelta := byOffset
  groupedByAddend := false
  groupHasAddend := hasAddend
  groupOffsetDelta := if byOffset then cell 64 delta else 0
  groupRInfo := if byInfo then cell 64 info else 0

/-- The running state that a group starts from: without addends it starts at zero. -/
def atGroup (hasAddend : Bool) (s : Config.Running) : Config.Running :=
  { s with addend := if hasAddend then s.addend else 0 }

theorem describe_atGroup (byOffset byInfo hasAddend : Bool) (s : Config.Running) (rs : List Rela) :
    Config.describe byOffset byInfo hasAddend (atGroup hasAddend s) rs =
      Config.describe byOffset byInfo hasAddend s rs := by
  induction rs generalizing s with
  | nil => rfl
  | cons r rs ih =>
    cases hasAddend with
    | true => rfl
    | false =>
      unfold Config.describe
      have hnext : (atGroup false s).next false r = atGroup false (s.next false r) := rfl
      rw [hnext, ih]
      rfl

theorem readHeader_ok (hw : wordsize = 4 ∨ wordsize = 8) {byOffset byInfo hasAddend : Bool}
    {delta info : Int} {R : Reader} {flags : Nat} {vs : List Int} {data : List Nat}
    (hagrees : Agrees wordsize s R)
    (hflags : flags = (if byOffset then Config.groupedByOffsetDeltaFlag else 0) +
      (if byInfo then Config.groupedByInfoFlag else 0) +
      (if hasAddend then Config.groupHasAddendFlag else 0))
    (hdata : R.data = ((flags : Int) :: ((if byOffset then [delta] else []) ++
      ((if byInfo then [info] else []) ++ vs))).flatMap Config.add ++ data) :
    ∃ R', readHeader R = .ok (groupHeader byOffset byInfo hasAddend delta info, R') ∧
      R'.data = vs.flatMap Config.add ++ data ∧ Agrees wordsize (atGroup hasAddend s) R' := by
  have hlt : flags < 2 ^ 64 := by
    rw [hflags]
    cases byOffset <;> cases byInfo <;> cases hasAddend <;> decide
  have hbits : (flags &&& Config.groupedByInfoFlag != 0) = byInfo ∧
      (flags &&& Config.groupedByOffsetDeltaFlag != 0) = byOffset ∧
      (flags &&& Config.groupedByAddendFlag != 0) = false ∧
      (flags &&& Config.groupHasAddendFlag != 0) = hasAddend := by
    rw [hflags]
    cases byOffset <;> cases byInfo <;> cases hasAddend <;> decide
  obtain ⟨hinfo, hoffset, haddend, hhas⟩ := hbits
  unfold readHeader
  rw [hdata, getSLEB128_cons, bind_ok, cell_nat hlt]
  simp only [hinfo, hoffset, haddend, hhas, Bool.false_and]
  rw [getIf_ite, bind_ok]
  simp only
  rw [getIf_ite, bind_ok]
  simp only
  have hnone : getIf false (vs.flatMap Config.add ++ data) =
    .ok (0, vs.flatMap Config.add ++ data) := rfl
  rw [hnone, bind_ok]
  refine ⟨⟨_, _, vs.flatMap Config.add ++ data⟩, rfl, rfl, hagrees.offset, ?_⟩
  cases hasAddend with
  | true =>
    have hsame := add_difference_signed hw (c := s.addend) hagrees.addend
    rw [sub_self] at hsame
    exact hsame
  | false => rfl

/-- The numbers `values` are read back as `entries`, whatever follows them. -/
def Reads (wordsize : Nat) (s : Config.Running) (values : List Int) (entries : List Rela)
    (s' : Config.Running) : Prop :=
  ∀ (n k : Nat) (R : Reader) (vs : List Int) (data : List Nat), R.data.length ≤ n →
    R.data = (values ++ vs).flatMap Config.add ++ data → Agrees wordsize s R →
    ∃ n' R', R'.data.length ≤ n' ∧ R'.data = vs.flatMap Config.add ++ data ∧
      Agrees wordsize s' R' ∧ readGroups wordsize n (entries.length + k) R =
        (readGroups wordsize n' k R').map (entries ++ ·)

namespace Reads

variable {s s' s'' : Config.Running} {values values' : List Int} {entries entries' : List Rela}

theorem nil (s : Config.Running) : Reads wordsize s [] [] s := by
  intro n k R vs data hn hdata hagrees
  refine ⟨n, R, hn, hdata, hagrees, ?_⟩
  rw [List.length_nil, Nat.zero_add]
  cases readGroups wordsize n k R with
  | ok rs => rfl
  | error e => rfl

theorem append (h : Reads wordsize s values entries s')
    (h' : Reads wordsize s' values' entries' s'') :
    Reads wordsize s (values ++ values') (entries ++ entries') s'' := by
  intro n k R vs data hn hdata hagrees
  rw [List.append_assoc] at hdata
  obtain ⟨n₁, R₁, hn₁, hdata₁, hagrees₁, hread₁⟩ :=
    h n (entries'.length + k) R (values' ++ vs) data hn hdata hagrees
  obtain ⟨n₂, R₂, hn₂, hdata₂, hagrees₂, hread₂⟩ := h' n₁ k R₁ vs data hn₁ hdata₁ hagrees₁
  refine ⟨n₂, R₂, hn₂, hdata₂, hagrees₂, ?_⟩
  rw [List.length_append, Nat.add_assoc, hread₁, hread₂]
  cases readGroups wordsize n₂ k R₂ with
  | ok rs =>
    simp only [Except.map]
    rw [List.append_assoc]
  | error e => rfl

end Reads

theorem readGroups_succ (n : Nat) {numRelocs : Nat} (hne : numRelocs ≠ 0) (R : Reader) :
    readGroups wordsize (n + 1) numRelocs R = (do
      let (numRelocsInGroup, data) ← getSLEB128 R.data
      if numRelocs < numRelocsInGroup then .error .groupUnexpectedlyLarge
      else
        let (H, R) ← readHeader { R with data := data }
        let (rs, R) ← readRelocs wordsize H numRelocsInGroup R
        let rest ← readGroups wordsize n (numRelocs - numRelocsInGroup) R
        .ok (rs ++ rest)) := by
  cases numRelocs with
  | zero => exact absurd rfl hne
  | succ numRelocs => rfl

theorem add_length_pos (v : Int) : 0 < (Config.add v).length :=
  List.length_pos_iff.mpr (Sleb128.encode_ne_nil v)

/-- **A group that is written is read back**, and reader and writer agree after it. -/
theorem readGroup_ok (hw : wordsize = 4 ∨ wordsize = 8) (byOffset byInfo hasAddend : Bool)
    (delta info : Int) {rs : List Rela} (hne : rs ≠ []) (hlen : rs.length < 2 ^ 64)
    (hfits : ∀ r ∈ rs, r.Fits wordsize)
    (hdesc : Describes wordsize (groupHeader byOffset byInfo hasAddend delta info) s.offset rs) :
    Reads wordsize s (groupNumbers byOffset byInfo hasAddend delta info s rs) rs
      ((atGroup hasAddend s).over hasAddend rs) := by
  intro n k R vs data hn hdata hagrees
  have hpos : 0 < rs.length := List.length_pos_iff.mpr hne
  obtain ⟨flags, hflags⟩ : ∃ flags, flags =
    (if byOffset then Config.groupedByOffsetDeltaFlag else 0) +
      (if byInfo then Config.groupedByInfoFlag else 0) +
      (if hasAddend then Config.groupHasAddendFlag else 0) := ⟨_, rfl⟩
  unfold groupNumbers at hdata
  simp only [← hflags, List.append_assoc, List.cons_append, List.nil_append] at hdata
  obtain ⟨R₁, hheader, hdata₁, hagrees₁⟩ := readHeader_ok hw
    (R := ⟨R.offset, R.addend, ((flags : Int) :: ((if byOffset then [delta] else []) ++
      ((if byInfo then [info] else []) ++
        (Config.describe byOffset byInfo hasAddend s rs ++ vs)))).flatMap Config.add ++ data⟩)
    ⟨hagrees.offset, hagrees.addend⟩ hflags rfl
  rw [← describe_atGroup, List.flatMap_append, List.append_assoc] at hdata₁
  have hzero : hasAddend = false → (atGroup hasAddend s).addend = 0 := by
    rintro rfl
    rfl
  obtain ⟨R₂, hrelocs, hdata₂, hagrees₂⟩ := readRelocs_ok hw hagrees₁ hdesc hfits hzero hdata₁
  -- the number of relocations takes a byte, so fewer turns are left and fewer needed
  have hshort : R₂.data.length < R.data.length := by
    rw [hdata, hdata₂]
    simp only [List.flatMap_cons, List.flatMap_append, List.length_append]
    have := add_length_pos (rs.length : Int)
    omega
  obtain ⟨n, rfl⟩ : ∃ n', n = n' + 1 := ⟨n - 1, by omega⟩
  refine ⟨n, R₂, by omega, hdata₂, hagrees₂, ?_⟩
  rw [readGroups_succ n (by omega), hdata, getSLEB128_cons, bind_ok, cell_nat hlen]
  simp only
  rw [if_neg (by omega), hheader, bind_ok]
  simp only
  rw [hrelocs, bind_ok]
  simp only
  rw [Nat.add_sub_cancel_left]
  cases readGroups wordsize n k R₂ with
  | ok rest => rfl
  | error e => rfl

/-! ## The entries -/

namespace Config

variable {C : Config}

/-- What the writer counts on in an entry. -/
structure Entry (C : Config) (r : Rela) : Prop where
  fits : r.Fits C.wordsize
  relative : C.isRelative r = true → r.rInfo = C.relativeRel
  addend : C.isRela = false → r.rAddend = 0

theorem and_high {x k : Nat} (y : Nat) (h : x < 2 ^ k) : x &&& y * 2 ^ k = 0 := by
  apply Nat.eq_of_testBit_eq
  intro i
  rw [Nat.testBit_and, Nat.zero_testBit, Nat.testBit_mul_two_pow]
  by_cases hi : k ≤ i
  · rw [Nat.testBit_lt_two_pow (h.trans_le (Nat.pow_le_pow_right (by decide) hi)), Bool.false_and]
  · rw [decide_eq_false hi, Bool.false_and, Bool.and_false]

/-- Read as a MIPS word, a plain info without a symbol has no type. -/
theorem getType_mips (hm : C.isMips64EL = true) {t : Nat} (ht : t < 2 ^ 32) : C.getType t = 0 := by
  have h4 : C.wordsize ≠ 4 := by
    rw [(C.mips hm).1]
    decide
  have h1 : t / 2 ^ 8 &&& 0xff000000 = 0 := and_high (k := 24) 255 (by omega)
  have h2 : t / 2 ^ 24 &&& 0x00ff0000 = 0 := and_high (k := 16) 255 (by omega)
  have h3 : t / 2 ^ 40 = 0 := by omega
  have h5 : t / 2 ^ 56 = 0 := by omega
  unfold getType getRInfo
  rw [if_neg h4, if_pos hm, h1, h2, h3, h5]
  simp only [Nat.zero_and, Nat.or_zero]
  omega

/-- **A relative relocation without a symbol** has the info that its group gives. -/
theorem rInfo_of_relative {t : Nat} (ht : t < 2 ^ 32)
    (h : C.getType (C.setSymbolAndType 0 t) = C.relativeRel) :
    C.setSymbolAndType 0 t = C.relativeRel := by
  by_cases hm : C.isMips64EL = true
  · have h4 : C.wordsize ≠ 4 := by
      rw [(C.mips hm).1]
      decide
    unfold setSymbolAndType at h
    rw [if_neg h4, Nat.zero_mul, Nat.zero_add, getType_mips hm ht] at h
    exact absurd h.symm (C.mips hm).2
  · unfold getType getRInfo at h
    simp only [if_neg hm] at h
    unfold setSymbolAndType at h ⊢
    split
    next h4 =>
      simp only [if_pos h4] at h
      omega
    next h4 =>
      simp only [if_neg h4] at h
      omega

theorem entry_ok {rel : DynamicReloc} (h : C.isRelative (C.entry rel) = true →
    rel.getSymIndex = 0) : C.Entry (C.entry rel) := by
  have hpos : 0 < 2 ^ (8 * C.wordsize) := Nat.two_pow_pos _
  refine ⟨⟨Nat.mod_lt _ hpos, ?_, ?_⟩, ?_, ?_⟩
  · have hs := rel.symIndex_lt
    have ht := rel.type_lt
    unfold entry setSymbolAndType
    rcases C.word with hw | hw
    · rw [hw]
      exact Nat.mod_lt _ (by decide)
    · rw [hw]
      simp only [Nat.reduceEqDiff, if_false]
      omega
  · unfold entry
    split
    · exact Int.bmod_bmod
    · exact Int.zero_bmod
  · intro hrel
    have hsym := h hrel
    unfold isRelative entry at hrel
    unfold entry
    rw [beq_iff_eq, hsym] at hrel
    rw [hsym]
    exact rInfo_of_relative rel.type_lt hrel
  · intro hno
    unfold entry
    rw [hno]
    rfl

/-! ## The loops of the writer -/

/-- The running addend of a section without addends. -/
def Running.Plain (C : Config) (s : Running) : Prop := C.isRela = false → s.addend = 0

variable {s : Running} {rs : List Rela}

theorem Running.Plain.atGroup_eq (h : s.Plain C) : atGroup C.isRela s = s := by
  unfold atGroup
  cases hrela : C.isRela with
  | true => rfl
  | false =>
    have := h hrela
    rw [← this]
    rfl

theorem Running.Plain.over (h : s.Plain C) (rs : List Rela) : (s.over C.isRela rs).Plain C := by
  intro hrela
  unfold Running.over
  rw [hrela]
  induction rs generalizing s with
  | nil => exact h hrela
  | cons r rs ih => exact ih (s := s.next false r) fun _ => h hrela

theorem relativeRel_word : cell 64 (C.relativeRel : Int) % 2 ^ (8 * C.wordsize) =
    C.relativeRel := by
  have h := C.relativeRel_lt
  rw [cell_nat (by omega)]
  apply Nat.mod_eq_of_lt
  refine h.trans_le (Nat.pow_le_pow_right (by decide) ?_)
  have := C.word
  omega

/-- The relocations of a group of relative ones. -/
structure Relatives (C : Config) (rs : List Rela) : Prop where
  entry : ∀ r ∈ rs, C.Entry r
  relative : ∀ r ∈ rs, C.isRelative r = true

theorem Relatives.describes (h : Relatives C rs) (byOffset : Bool) (delta : Int) {offset : Nat}
    (hoffsets : byOffset = true → (offset :: rs.map (·.rOffset)).IsChain fun a b =>
      (a + cell 64 delta) % 2 ^ (8 * C.wordsize) = b % 2 ^ (8 * C.wordsize)) :
    Describes C.wordsize (groupHeader byOffset true C.isRela delta C.relativeRel) offset rs := by
  refine ⟨?_, ?_, ?_, rfl⟩
  · intro hby
    have hdelta : (groupHeader byOffset true C.isRela delta C.relativeRel).groupOffsetDelta =
      cell 64 delta := if_pos hby
    rw [hdelta]
    exact hoffsets hby
  · intro _ r hr
    rw [(h.entry r hr).relative (h.relative r hr)]
    exact relativeRel_word
  · intro hno r hr
    exact (h.entry r hr).addend hno

theorem reads_relativeGroup {g : List Rela} (hs : s.Plain C) (hg : Relatives C g)
    (hlen : g.length < 2 ^ 64) (htwo : 2 ≤ g.length) (hchain : g.IsChain (C.adjacent · ·)) :
    Reads C.wordsize s (C.writeRelativeGroup s g) g (s.over C.isRela g) := by
  cases g with
  | nil => exact absurd htwo (by decide)
  | cons r rs =>
    have hne : rs ≠ [] := by
      rintro rfl
      rw [List.length_singleton] at htwo
      omega
    have hnext : (s.next C.isRela r).Plain C := hs.over [r]
    have hfirst : Relatives C [r] := by
      refine ⟨?_, ?_⟩
      · intro r' hr'
        rw [List.mem_singleton.mp hr']
        exact hg.entry r List.mem_cons_self
      · intro r' hr'
        rw [List.mem_singleton.mp hr']
        exact hg.relative r List.mem_cons_self
    have hrest : Relatives C rs :=
      ⟨fun r' hr' => hg.entry r' (List.mem_cons_of_mem r hr'),
        fun r' hr' => hg.relative r' (List.mem_cons_of_mem r hr')⟩
    -- the first group moves to the run, the second follows it word by word
    have hto : ([s.offset, r.rOffset]).IsChain fun a b =>
        (a + cell 64 ((r.rOffset : Int) - s.offset)) % 2 ^ (8 * C.wordsize) =
          b % 2 ^ (8 * C.wordsize) := by
      rw [List.isChain_pair, ← Nat.mod_mod_of_dvd _ (word_dvd C.word)]
      exact add_difference C.word rfl
    have halong : ((r :: rs).map (·.rOffset)).IsChain fun a b =>
        (a + cell 64 (C.wordsize : Int)) % 2 ^ (8 * C.wordsize) = b % 2 ^ (8 * C.wordsize) := by
      rw [List.isChain_map]
      refine hchain.imp ?_
      intro a b hab
      have hcell : cell 64 (C.wordsize : Int) = C.wordsize := by
        apply cell_nat
        have := C.word
        omega
      unfold adjacent at hab
      rw [beq_iff_eq] at hab
      rw [hcell, ← hab, Nat.mod_mod]
    have hone := readGroup_ok C.word true true C.isRela ((r.rOffset : Int) - s.offset)
      C.relativeRel (s := s) (List.cons_ne_nil r []) (by decide : 1 < 2 ^ 64)
      (fun r' hr' => (hfirst.entry r' hr').fits) (hfirst.describes true _ fun _ => hto)
    have htail := readGroup_ok C.word true true C.isRela C.wordsize C.relativeRel hne
      (by rw [List.length_cons] at hlen; omega)
      (fun r' hr' => (hrest.entry r' hr').fits)
      (s := s.next C.isRela r) (hrest.describes true _ fun _ => halong)
    rw [hs.atGroup_eq] at hone
    rw [hnext.atGroup_eq] at htail
    have hboth := hone.append htail
    have hnumbers : C.writeRelativeGroup s (r :: rs) =
        groupNumbers true true C.isRela ((r.rOffset : Int) - s.offset) C.relativeRel s [r] ++
          groupNumbers true true C.isRela C.wordsize C.relativeRel (s.next C.isRela r) rs := by
      unfold writeRelativeGroup groupNumbers hasAddendIfRela
      simp only [if_true, List.append_assoc, List.cons_append, List.nil_append,
        List.length_singleton]
      rfl
    rw [hnumbers]
    exact hboth

theorem reads_ungroupedRelatives (hs : s.Plain C) (hrs : Relatives C rs)
    (hlen : rs.length < 2 ^ 64) :
    Reads C.wordsize s (C.writeUngroupedRelatives s rs) rs (s.over C.isRela rs) := by
  unfold writeUngroupedRelatives
  split
  next hnil =>
    rw [hnil]
    exact Reads.nil s
  next hne =>
    have hread := readGroup_ok C.word false true C.isRela 0 C.relativeRel hne hlen
      (fun r hr => (hrs.entry r hr).fits) (s := s)
      (hrs.describes false 0 fun hno => absurd hno Bool.false_ne_true)
    rw [hs.atGroup_eq] at hread
    have hnumbers : [(rs.length : Int), ((groupedByInfoFlag + C.hasAddendIfRela : Nat) : Int),
        (C.relativeRel : Int)] ++ describe false true C.isRela s rs =
          groupNumbers false true C.isRela 0 C.relativeRel s rs := by
      unfold groupNumbers hasAddendIfRela
      simp
    rw [hnumbers]
    exact hread

/-- A group of others: entries that share their info and, with addends, have none. -/
structure Others (C : Config) (rs : List Rela) : Prop where
  entry : ∀ r ∈ rs, C.Entry r
  info : ∀ r ∈ rs, ∀ r' ∈ rs, r.rInfo = r'.rInfo
  addend : ∀ r ∈ rs, r.rAddend = 0

theorem over_atGroup (s : Running) (rs : List Rela) :
    (atGroup false s).over false rs = s.reset rs := by
  induction rs generalizing s with
  | nil => rfl
  | cons r rs ih => exact ih (s.next false r)

theorem reads_nonRelativeGroup {g : List Rela} (hg : Others C g) (hlen : g.length < 2 ^ 64)
    (hne : g ≠ []) : Reads C.wordsize s (writeNonRelativeGroup s g) g (s.reset g) := by
  cases g with
  | nil => exact absurd rfl hne
  | cons r rs =>
    have hdesc : Describes C.wordsize (groupHeader false true false 0 r.rInfo) s.offset (r :: rs) := by
      refine ⟨fun hno => absurd hno Bool.false_ne_true, ?_, fun _ => hg.addend, rfl⟩
      intro _ r' hr'
      have hlt := (hg.entry r List.mem_cons_self).fits.info
      have hlt64 : r.rInfo < 2 ^ 64 := hlt.trans_le (Nat.le_of_dvd (by decide) (word_dvd C.word))
      have hcell : (groupHeader false true false 0 r.rInfo).groupRInfo = r.rInfo := cell_nat hlt64
      rw [hcell, Nat.mod_eq_of_lt hlt]
      exact hg.info r List.mem_cons_self r' hr'
    have hread := readGroup_ok C.word false true false 0 r.rInfo hne hlen
      (fun r' hr' => (hg.entry r' hr').fits) hdesc
    rw [over_atGroup] at hread
    exact hread

theorem reads_ungroupedNonRelatives (hs : s.Plain C) (hrs : ∀ r ∈ rs, C.Entry r)
    (hlen : rs.length < 2 ^ 64) :
    Reads C.wordsize s (C.writeUngroupedNonRelatives s rs) rs (s.over C.isRela rs) := by
  unfold writeUngroupedNonRelatives
  split
  next hnil =>
    rw [hnil]
    exact Reads.nil s
  next hne =>
    have hdesc : Describes C.wordsize (groupHeader false false C.isRela 0 0) s.offset rs :=
      ⟨fun hno => absurd hno Bool.false_ne_true, fun hno => absurd hno Bool.false_ne_true,
        fun hno r hr => (hrs r hr).addend hno, rfl⟩
    have hread := readGroup_ok C.word false false C.isRela 0 0 hne hlen
      (fun r hr => (hrs r hr).fits) hdesc
    rw [hs.atGroup_eq] at hread
    have hnumbers : [(rs.length : Int), (C.hasAddendIfRela : Int)] ++
        describe false false C.isRela s rs = groupNumbers false false C.isRela 0 0 s rs := by
      unfold groupNumbers hasAddendIfRela
      simp
    rw [hnumbers]
    exact hread

/-- A loop over groups that are read back each is read back. -/
theorem reads_overGroups {write : Running → List Rela → List Int}
    {after : Running → List Rela → Running} {gs : List (List Rela)}
    (hreads : ∀ g ∈ gs, ∀ s : Running, s.Plain C →
      Reads C.wordsize s (write s g) g (after s g) ∧ (after s g).Plain C) (hs : s.Plain C) :
    Reads C.wordsize s (overGroups write after s gs).1 gs.flatten (overGroups write after s gs).2 ∧
      (overGroups write after s gs).2.Plain C := by
  induction gs generalizing s with
  | nil => exact ⟨Reads.nil s, hs⟩
  | cons g gs ih =>
    obtain ⟨hfirst, hplain⟩ := hreads g List.mem_cons_self s hs
    obtain ⟨hrest, hplain'⟩ := ih (fun g' hg' => hreads g' (List.mem_cons_of_mem g hg')) hplain
    exact ⟨hfirst.append hrest, hplain'⟩

/-! ## The whole section -/

theorem infoGroups_flatten {n : Nat} (h : rs.length ≤ n) : (C.infoGroups n rs).flatten = rs := by
  induction n generalizing rs with
  | zero =>
    rw [List.eq_nil_of_length_eq_zero (Nat.le_zero.mp h)]
    rfl
  | succ n ih =>
    cases rs with
    | nil => rfl
    | cons i rest =>
      have hlen := (List.dropWhile_sublist (C.sameInfo i) (l := rest)).length_le
      rw [List.length_cons] at h
      rw [infoGroups, List.flatten_cons, ih (by omega), List.cons_append,
        List.takeWhile_append_dropWhile]

/-- The entries of a group share with the first what the loop compares. -/
theorem sameInfo_of_mem {n : Nat} {g : List Rela} (hg : g ∈ C.infoGroups n rs) :
    ∃ i, g.head? = some i ∧ ∀ r ∈ g, C.sameInfo i r = true := by
  induction n generalizing rs with
  | zero => exact absurd hg List.not_mem_nil
  | succ n ih =>
    cases rs with
    | nil => exact absurd hg List.not_mem_nil
    | cons i rest =>
      rw [infoGroups, List.mem_cons] at hg
      rcases hg with rfl | hg
      · refine ⟨i, rfl, ?_⟩
        intro r hr
        rcases List.mem_cons.mp hr with rfl | hr
        · unfold sameInfo
          simp
        · exact List.mem_takeWhile_imp hr
      · exact ih hg

/-- What is left of a list without some of its groups. -/
theorem flatten_filter_perm (p : List Rela → Bool) (gs : List (List Rela)) :
    ((gs.filter p).flatten ++ (gs.filter fun g => !p g).flatten).Perm gs.flatten := by
  rw [← List.flatten_append]
  exact (List.filter_append_perm p gs).flatten

theorem length_le_of_mem {gs : List (List Rela)} {g : List Rela} (h : g ∈ gs) :
    g.length ≤ gs.flatten.length := (List.sublist_flatten_of_mem h).length_le

/-- **The relative relocations** are read back, in whatever order they were sorted. -/
theorem reads_relatives {relatives : List Rela} (hrel : Relatives C relatives)
    (hlen : relatives.length < 2 ^ 64) (hs : s.Plain C) :
    let runs := relatives.splitBy C.adjacent
    let ungroupedRelatives := (runs.filter fun g => decide (g.length < 8)).flatten
    let first := overGroups C.writeRelativeGroup (Running.over C.isRela) s
      (runs.filter fun g => !decide (g.length < 8))
    ∃ packed : List Rela, packed.Perm relatives ∧
      Reads C.wordsize s (first.1 ++ C.writeUngroupedRelatives first.2 ungroupedRelatives) packed
        (first.2.over C.isRela ungroupedRelatives) ∧
      (first.2.over C.isRela ungroupedRelatives).Plain C := by
  intro runs ungroupedRelatives first
  have hflatten : runs.flatten = relatives := List.flatten_splitBy C.adjacent relatives
  have hperm := flatten_filter_perm (fun g => decide (g.length < 8)) runs
  rw [hflatten] at hperm
  have hpart : ∀ rs : List Rela, rs ⊆ relatives → Relatives C rs := fun rs hsub =>
    ⟨fun r hr => hrel.entry r (hsub hr), fun r hr => hrel.relative r (hsub hr)⟩
  have hgroups : ∀ g ∈ runs.filter fun g => !decide (g.length < 8), ∀ s : Running, s.Plain C →
      Reads C.wordsize s (C.writeRelativeGroup s g) g (s.over C.isRela g) ∧
        (s.over C.isRela g).Plain C := by
    intro g hg s hs
    obtain ⟨hmem, hlong⟩ := List.mem_filter.mp hg
    simp only [Bool.not_eq_true', decide_eq_false_iff_not, not_lt] at hlong
    have hle := length_le_of_mem hmem
    have hsub : g ⊆ relatives := by
      rw [← hflatten]
      exact (List.sublist_flatten_of_mem hmem).subset
    rw [hflatten] at hle
    exact ⟨reads_relativeGroup hs (hpart g hsub) (by omega) (by omega)
      (List.isChain_of_mem_splitBy hmem), hs.over g⟩
  obtain ⟨hreads, hplain⟩ := reads_overGroups hgroups hs
  have hsub : ungroupedRelatives ⊆ relatives := fun r hr =>
    hperm.subset (List.mem_append_left _ hr)
  have hle : ungroupedRelatives.length ≤ relatives.length := by
    rw [← hperm.length_eq, List.length_append]
    exact Nat.le_add_right _ _
  refine ⟨_, ?_, hreads.append (reads_ungroupedRelatives hplain (hpart _ hsub) (by omega)),
    hplain.over _⟩
  exact List.perm_append_comm.trans hperm

/-- **The other relocations** are read back, in whatever order they were sorted. -/
theorem reads_nonRelatives (S : Sorting Rela) {nonRelatives : List Rela}
    (hentry : ∀ r ∈ nonRelatives, C.Entry r) (hlen : nonRelatives.length < 2 ^ 64) (hs : s.Plain C)
    (lt : Rela → Rela → Bool) :
    let groups := C.infoGroups nonRelatives.length nonRelatives
    let ungroupedNonRelatives := S.sort lt (groups.filter C.ungrouped).flatten
    let third := overGroups writeNonRelativeGroup Running.reset s
      (groups.filter fun g => !C.ungrouped g)
    ∃ (packed : List Rela) (s' : Running), packed.Perm nonRelatives ∧
      Reads C.wordsize s (third.1 ++ C.writeUngroupedNonRelatives third.2 ungroupedNonRelatives)
        packed s' := by
  intro groups ungroupedNonRelatives third
  have hflatten : groups.flatten = nonRelatives := infoGroups_flatten (le_refl _)
  have hperm := flatten_filter_perm C.ungrouped groups
  rw [hflatten] at hperm
  have hgroups : ∀ g ∈ groups.filter fun g => !C.ungrouped g, ∀ s : Running, s.Plain C →
      Reads C.wordsize s (writeNonRelativeGroup s g) g (s.reset g) ∧ (s.reset g).Plain C := by
    intro g hg s hs
    obtain ⟨hmem, hworth⟩ := List.mem_filter.mp hg
    obtain ⟨i, hhead, hsame⟩ := sameInfo_of_mem hmem
    have hle := length_le_of_mem hmem
    rw [hflatten] at hle
    have hsub : g ⊆ nonRelatives := by
      rw [← hflatten]
      exact (List.sublist_flatten_of_mem hmem).subset
    have hinfo : ∀ r ∈ g, r.rInfo = i.rInfo := by
      intro r hr
      have := hsame r hr
      unfold sameInfo at this
      simp only [Bool.and_eq_true, beq_iff_eq] at this
      exact this.1.symm
    have haddend : ∀ r ∈ g, r.rAddend = 0 := by
      intro r hr
      cases hrela : C.isRela with
      | false => exact (hentry r (hsub hr)).addend hrela
      | true =>
        have hr' := hsame r hr
        unfold sameInfo at hr'
        unfold ungrouped at hworth
        simp only [hrela, Bool.not_true, Bool.false_or, Bool.and_eq_true, beq_iff_eq] at hr'
        simp only [hrela, hhead, Option.map_some, Option.getD_some, Bool.true_and, Bool.not_or,
          Bool.and_eq_true, Bool.not_eq_true', bne_eq_false_iff_eq] at hworth
        rw [← hr'.2, hworth.2]
    have hne : g ≠ [] := by
      rintro rfl
      exact absurd hhead (by simp)
    exact ⟨reads_nonRelativeGroup ⟨fun r hr => hentry r (hsub hr),
      fun r hr r' hr' => (hinfo r hr).trans (hinfo r' hr').symm, haddend⟩ (by omega) hne,
      fun _ => rfl⟩
  obtain ⟨hreads, hplain⟩ := reads_overGroups hgroups hs
  have hsort := S.perm lt (groups.filter C.ungrouped).flatten
  have hsub : ungroupedNonRelatives ⊆ nonRelatives := fun r hr =>
    hperm.subset (List.mem_append_left _ (hsort.subset hr))
  have hle : ungroupedNonRelatives.length ≤ nonRelatives.length := by
    rw [← hperm.length_eq, List.length_append, ← hsort.length_eq]
    exact Nat.le_add_right _ _
  refine ⟨_, _, ?_, hreads.append (reads_ungroupedNonRelatives hplain
    (fun r hr => hentry r (hsub hr)) (by omega))⟩
  exact List.perm_append_comm.trans ((hsort.append_right _).trans hperm)

/-- **The numbers of a section** are read back as its entries, in another order. -/
theorem numbers_ok (S : Sorting Rela) {entries : List Rela} (hentries : ∀ r ∈ entries, C.Entry r)
    (hlen : entries.length < 2 ^ 64) :
    ∃ (values : List Int) (packed : List Rela) (s : Running),
      C.numbers S entries = (entries.length : Int) :: 0 :: values ∧ packed.Perm entries ∧
        Reads C.wordsize {} values packed s := by
  have hplain : Running.Plain C {} := fun _ => rfl
  have hsplit := List.filter_append_perm C.isRelative entries
  have hrelperm := S.perm (fun a b : Rela => decide (a.rOffset < b.rOffset))
    (entries.filter C.isRelative)
  have hnonperm := S.perm
    (fun a b : Rela =>
      if a.rInfo ≠ b.rInfo then decide (a.rInfo < b.rInfo)
      else if a.rAddend ≠ b.rAddend then decide (a.rAddend < b.rAddend)
      else decide (a.rOffset < b.rOffset))
    (entries.filter fun r => !C.isRelative r)
  have hlens := hsplit.length_eq
  rw [List.length_append, ← hrelperm.length_eq, ← hnonperm.length_eq] at hlens
  obtain ⟨packed₁, hperm₁, hreads₁, hplain₁⟩ := reads_relatives
    ⟨fun r hr => hentries r (List.mem_filter.mp (hrelperm.subset hr)).1,
      fun r hr => (List.mem_filter.mp (hrelperm.subset hr)).2⟩ (by omega) hplain
  obtain ⟨packed₂, s', hperm₂, hreads₂⟩ := reads_nonRelatives S
    (fun r hr => hentries r (List.mem_filter.mp (hnonperm.subset hr)).1) (by omega) hplain₁
    (fun a b => decide (a.rOffset < b.rOffset))
  refine ⟨_, packed₁ ++ packed₂, s', ?_, ?_, hreads₁.append hreads₂⟩
  · unfold numbers
    simp only [List.append_assoc, List.cons_append, List.nil_append]
  · exact ((hperm₁.trans hrelperm).append (hperm₂.trans hnonperm)).trans hsplit

theorem androidRelas_header (wordsize : Nat) (data : List Nat) :
    androidRelas wordsize ([0x41, 0x50, 0x53, 0x32] ++ data) = (do
      let (numRelocs, data) ← getSLEB128 data
      let (offset, data) ← getSLEB128 data
      readGroups wordsize data.length numRelocs ⟨offset, 0, data⟩) := rfl

/-- **Round trip**: the section of any dynamic relocations is read back as their entries, in
another order, whatever the section held before. -/
theorem androidRelas_round_trip (C : Config) (S : Sorting Rela) (relocData : List Nat)
    (relocs : List DynamicReloc) (hlen : relocs.length < 2 ^ 64)
    (hrelative : ∀ rel ∈ relocs, C.isRelative (C.entry rel) = true → rel.getSymIndex = 0) :
    ∃ packed, androidRelas C.wordsize (C.updateAllocSize S relocData relocs) = .ok packed ∧
      packed.Perm (relocs.map C.entry) := by
  have hentries : ∀ r ∈ relocs.map C.entry, C.Entry r := by
    intro r hr
    obtain ⟨rel, hrel, rfl⟩ := List.mem_map.mp hr
    exact entry_ok (hrelative rel hrel)
  have hlen' : (relocs.map C.entry).length < 2 ^ 64 := by
    rw [List.length_map]
    exact hlen
  obtain ⟨values, packed, s, hnumbers, hperm, hreads⟩ := numbers_ok S hentries hlen'
  refine ⟨packed, ?_, hperm⟩
  unfold updateAllocSize
  rw [hnumbers]
  simp only
  generalize List.replicate _ 0 = padding
  rw [List.append_assoc, androidRelas_header, getSLEB128_cons, bind_ok, cell_nat hlen']
  simp only
  rw [getSLEB128_cons, bind_ok]
  simp only
  obtain ⟨n, R, -, -, -, hread⟩ := hreads (values.flatMap add ++ padding).length 0
    ⟨cell 64 0, 0, values.flatMap add ++ padding⟩ [] padding (le_refl _)
    (by rw [List.append_nil]) ⟨rfl, rfl⟩
  rw [Nat.add_zero, hperm.length_eq] at hread
  rw [hread]
  cases n with
  | zero => simp [readGroups, Except.map]
  | succ n => simp [readGroups, Except.map]

/-- A sort that keeps the order of equals. -/
def stable : Sorting Rela where
  sort lt xs := xs.mergeSort fun a b => !lt b a
  perm _ xs := List.mergeSort_perm xs _

/-- A 64-bit RISC-V link. -/
def riscv64 : Config where
  wordsize := 8
  isRela := true
  isMips64EL := false
  relativeRel := 3
  word := Or.inr rfl
  relativeRel_lt := by decide
  mips := fun h => absurd h Bool.false_ne_true

/-- A pointer to relocate at `offset`. -/
def relative (offset : Nat) (addend : Int) : DynamicReloc where
  getOffset := offset
  getSymIndex := 0
  type := 3
  computeAddend := addend
  symIndex_lt := by decide
  type_lt := by decide

/-- The address of symbol 5 at `offset`. -/
def absolute (offset : Nat) (addend : Int) : DynamicReloc where
  getOffset := offset
  getSymIndex := 5
  type := 2
  computeAddend := addend
  symIndex_lt := by decide
  type_lt := by decide

/-- A table of nine pointers, one more, and four uses of a symbol. -/
def table : List DynamicReloc :=
  [relative 0x2100 (-4)] ++ (List.range 9).map (fun i => relative (0x1000 + 8 * i) (0x500 - i)) ++
    [absolute 0x3000 0, absolute 0x3008 7, absolute 0x2f00 0, absolute 0x3010 0]

theorem androidRelas_round_trip_table :
    ∃ packed, androidRelas 8 (riscv64.updateAllocSize stable [] table) = .ok packed ∧
      packed.Perm (table.map riscv64.entry) :=
  androidRelas_round_trip riscv64 stable [] table (by decide) (by decide)

end Config

end RvLlvm.Lld.AndroidPacked
