import Mathlib.Data.List.Basic
import Mathlib.Data.List.Induction
import Mathlib.Data.List.TakeWhile
import Mathlib.Algebra.BigOperators.Group.List.Basic
import Mathlib.Tactic.Ring
import Mathlib.Tactic.Linarith

/-!
# Emitting a data section

Model of `BinarySection::emitAsData` (`bolt/lib/Core/BinarySection.cpp:73-142`), of the emission of
a composed relocation (`bolt/include/bolt/Core/Relocation.h:126-150`) and of `createExpr` and
`getComposeOpcodeFor` (`bolt/lib/Core/Relocation.cpp:901-947`), for the relocations of RISC-V data.
The hot-data labels, which have no bytes, are left out.

* `emitLoop_image`: what the loop emits, byte by byte.
* `denote_composeExpr`: the fold counts every later relocation with its sign.
* `emitAsData_faithful_iff`: a section is emitted faithfully exactly where each group is
  `Composable`; the sign of the first relocation of a group is lost.
-/

namespace RvLlvm.Bolt.DataEmission

abbrev SymId := Nat

/-- The relocation types of data. -/
inductive RelocType
  | r32 | r64 | add32 | sub32
  deriving DecidableEq

/-- `Relocation`; an `Addend` is read as `int64_t` by `MCConstantExpr`. -/
structure Relocation where
  offset : Nat
  symbol : Option SymId
  type : RelocType
  addend : BitVec 64
  deriving DecidableEq

/-- `MCBinaryExpr::Opcode`, as far as it is used. -/
inductive Opcode
  | add | sub
  deriving DecidableEq

/-- `MCExpr`. -/
inductive Expr
  | symbol (s : SymId)
  | const (value : Int)
  | binary (op : Opcode) (lhs rhs : Expr)
  deriving DecidableEq

/-- What the streamer gets. -/
inductive Emission
  | bytes (bs : List UInt8)
  | value (e : Expr) (size : Nat)
  deriving DecidableEq

/-- `getSizeForTypeRISCV`. -/
def getSizeForType : RelocType → Nat
  | .r64 => 8
  | _ => 4

/-- `getComposeOpcodeFor`; `none` is `llvm_unreachable`. -/
def getComposeOpcodeFor : RelocType → Option Opcode
  | .add32 => some .add
  | .sub32 => some .sub
  | _ => none

namespace Relocation

variable (r : Relocation)

/-- `getSize`. -/
def getSize : Nat := getSizeForType r.type

/-- `createExpr`; none of the types is relative to the pc. -/
def createExpr : Expr :=
  match r.symbol with
  | some s => if r.addend ≠ 0 then .binary .add (.symbol s) (.const r.addend.toInt) else .symbol s
  | none => .const r.addend.toInt

end Relocation

/-- The later turns of the loop of `Relocation::emit`, where `RetainedValue` is set. -/
def composeExpr : Expr → List Relocation → Option Expr
  | value, [] => some value
  | value, r :: rest =>
    match getComposeOpcodeFor r.type with
    | none => none
    | some op => composeExpr (.binary op value r.createExpr) rest

/-- `Relocation::emit`: value and size of a group, which has at least one relocation. -/
def emit : List Relocation → Option (Expr × Nat)
  | [] => none
  | first :: rest =>
    match composeExpr first.createExpr rest with
    | none => none
    | some value => some (value, (rest.getLastD first).getSize)

/-- `BinarySection`, as far as it is used; `relocations` is the multiset in its order. -/
structure DataSection where
  contents : List UInt8
  relocations : List Relocation
  undefinedSymbols : List SymId

namespace DataSection

variable (S : DataSection)

/-- `HasUndefSym`. -/
def hasUndefSym (r : Relocation) : Bool :=
  match r.symbol with
  | none => false
  | some s => S.undefinedSymbols.contains s

/-- The loop of `emitAsData` from `SectionOffset`, over the relocations left. -/
def emitLoop (sectionOffset : Nat) : List Relocation → Option (List Emission)
  | [] =>
    some (if sectionOffset < S.contents.length then
      [.bytes (S.contents.drop sectionOffset)] else [])
  | r :: rest =>
    let gap : List Emission :=
      if sectionOffset < r.offset then
        [.bytes ((S.contents.drop sectionOffset).take (r.offset - sectionOffset))]
      else []
    let here := if sectionOffset < r.offset then r.offset else sectionOffset
    let group := r :: rest.takeWhile fun x => x.offset ≤ r.offset
    let next := rest.dropWhile fun x => x.offset ≤ r.offset
    if group.any S.hasUndefSym then (emitLoop here next).map (gap ++ ·)
    else
      match emit group with
      | none => none
      | some (value, size) => (emitLoop (here + size) next).map (gap ++ .value value size :: ·)
  termination_by relocs => relocs.length
  decreasing_by all_goals
    have h := (List.dropWhile_sublist (l := rest) fun x => decide (x.offset ≤ r.offset)).length_le
    simp only [List.length_cons]
    omega

/-- `emitAsData`; `none` is `llvm_unreachable`. -/
def emitAsData : Option (List Emission) :=
  if S.relocations.isEmpty then some [.bytes S.contents] else S.emitLoop 0 S.relocations

end DataSection

/-! ## Bytes -/

/-- One byte of the output: given, or the `i`-th of a value of `size` bytes. -/
inductive Cell
  | byte (b : UInt8)
  | field (e : Expr) (i size : Nat)
  deriving DecidableEq

def Emission.image : Emission → List Cell
  | .bytes bs => bs.map .byte
  | .value e size => (List.range size).map fun i => .field e i size

/-- The bytes of the output. -/
def image (out : List Emission) : List Cell := out.flatMap Emission.image

/-- The value of an expression where the symbols have values. -/
def Expr.denote (ρ : SymId → Int) : Expr → Int
  | .symbol s => ρ s
  | .const value => value
  | .binary .add lhs rhs => lhs.denote ρ + rhs.denote ρ
  | .binary .sub lhs rhs => lhs.denote ρ - rhs.denote ρ

/-- The term of a relocation: symbol and addend. -/
def Relocation.term (ρ : SymId → Int) (r : Relocation) : Int :=
  (match r.symbol with
    | some s => ρ s
    | none => 0) + r.addend.toInt

/-- The term with its sign. -/
def Relocation.signedTerm (ρ : SymId → Int) (r : Relocation) : Int :=
  if r.type = .sub32 then -r.term ρ else r.term ρ

@[simp] theorem image_nil : image [] = [] := rfl

@[simp] theorem image_cons (e : Emission) (out : List Emission) :
    image (e :: out) = e.image ++ image out := List.flatMap_cons

theorem image_append (out out' : List Emission) : image (out ++ out') = image out ++ image out' :=
  List.flatMap_append

/-! ## Values -/

theorem denote_createExpr (ρ : SymId → Int)
    (r : Relocation) : r.createExpr.denote ρ = r.term ρ := by
  unfold Relocation.createExpr Relocation.term
  cases r.symbol with
  | none => exact (Int.zero_add _).symm
  | some s =>
    simp only
    split
    · rfl
    · next h =>
      rw [not_not.mp h]
      exact (Int.add_zero _).symm

/-- **The fold counts the later relocations with their signs.** -/
theorem denote_composeExpr (ρ : SymId → Int) {value e : Expr} {rest : List Relocation}
    (h : composeExpr value rest = some e) :
    e.denote ρ = value.denote ρ + (rest.map (Relocation.signedTerm ρ)).sum := by
  induction rest generalizing value with
  | nil =>
    obtain rfl := Option.some.inj h
    simp
  | cons r rest ih =>
    rw [composeExpr] at h
    rw [List.map_cons, List.sum_cons]
    cases htype : r.type with
    | r32 | r64 =>
      rw [htype] at h
      exact absurd h (by simp [getComposeOpcodeFor])
    | add32 =>
      rw [htype] at h
      rw [ih h, Expr.denote, denote_createExpr, Relocation.signedTerm, htype, if_neg (by decide)]
      ring
    | sub32 =>
      rw [htype] at h
      rw [ih h, Expr.denote, denote_createExpr, Relocation.signedTerm, htype, if_pos rfl]
      ring

/-- The fold goes through exactly where the later relocations can be composed. -/
theorem composeExpr_isSome (value : Expr) (rest : List Relocation) :
    (composeExpr value rest).isSome ↔ ∀ r ∈ rest, r.type = .add32 ∨ r.type = .sub32 := by
  induction rest generalizing value with
  | nil => simp [composeExpr]
  | cons r rest ih =>
    rw [composeExpr, List.forall_mem_cons]
    cases htype : r.type with
    | r32 | r64 => simp [getComposeOpcodeFor]
    | add32 | sub32 =>
      simp only [getComposeOpcodeFor]
      rw [ih]
      simp

/-! ## Groups -/

/-- The relocations at one offset. -/
def groupAt (relocs : List Relocation) (o : Nat) : List Relocation :=
  relocs.filter fun r => r.offset = o

/-- **The relocations of a section**: in the order of their offsets, inside the contents, and apart
from those at other offsets. -/
structure Fields (length : Nat) (relocs : List Relocation) : Prop where
  sorted : relocs.Pairwise fun r r' => r.offset ≤ r'.offset
  inside : ∀ r ∈ relocs, r.offset + r.getSize ≤ length
  apart : ∀ r ∈ relocs, ∀ r' ∈ relocs, r.offset < r'.offset → r.offset + r.getSize ≤ r'.offset

section Groups

variable {length : Nat} {r : Relocation} {rest : List Relocation}

/-- `upper_bound`: the relocations behind the first, up to another offset. -/
theorem mem_takeWhile (h : Fields length (r :: rest)) {x : Relocation}
    (hx : x ∈ rest.takeWhile fun x => x.offset ≤ r.offset) : x.offset = r.offset := by
  have hle : x.offset ≤ r.offset := by simpa using List.mem_takeWhile_imp hx
  have hge := (List.pairwise_cons.mp h.sorted).1 x ((List.takeWhile_sublist _).subset hx)
  omega

/-- What is left lies behind. -/
theorem mem_dropWhile (h : Fields length (r :: rest)) {x : Relocation}
    (hx : x ∈ rest.dropWhile fun x => x.offset ≤ r.offset) : r.offset < x.offset := by
  have hsorted := (List.pairwise_cons.mp h.sorted).2
  clear h
  induction rest with
  | nil => exact absurd hx List.not_mem_nil
  | cons y ys ih =>
    rw [List.dropWhile_cons] at hx
    split at hx
    · exact ih hx (List.pairwise_cons.mp hsorted).2
    · next hy =>
      have hy' : ¬ y.offset ≤ r.offset := by simpa using hy
      rcases List.mem_cons.mp hx with rfl | hmem
      · omega
      · have hle := (List.pairwise_cons.mp hsorted).1 x hmem
        omega

theorem Fields.next (h : Fields length (r :: rest)) :
    Fields length (rest.dropWhile fun x => x.offset ≤ r.offset) := by
  have hsub : ∀ x ∈ rest.dropWhile fun x => x.offset ≤ r.offset, x ∈ r :: rest := fun x hx =>
    List.mem_cons_of_mem r ((List.dropWhile_sublist _).subset hx)
  exact ⟨(List.pairwise_cons.mp h.sorted).2.sublist (List.dropWhile_sublist _),
    fun x hx => h.inside x (hsub x hx), fun x hx y hy => h.apart x (hsub x hx) y (hsub y hy)⟩

/-- The group that a turn takes. -/
theorem groupAt_here (h : Fields length (r :: rest)) :
    groupAt (r :: rest) r.offset = r :: rest.takeWhile fun x => x.offset ≤ r.offset := by
  have hsplit : rest = rest.takeWhile (fun x => x.offset ≤ r.offset) ++
      rest.dropWhile fun x => x.offset ≤ r.offset := List.takeWhile_append_dropWhile.symm
  have htake : (rest.takeWhile fun x => x.offset ≤ r.offset).filter (fun x => x.offset = r.offset) =
      rest.takeWhile fun x => x.offset ≤ r.offset :=
    List.filter_eq_self.mpr fun x hx => decide_eq_true (mem_takeWhile h hx)
  have hdrop : (rest.dropWhile fun x => x.offset ≤ r.offset).filter (fun x => x.offset = r.offset) =
      [] := List.filter_eq_nil_iff.mpr fun x hx => by
    have hlt := mem_dropWhile h hx
    simp only [decide_eq_true_eq]
    omega
  rw [groupAt, List.filter_cons_of_pos (by simp)]
  conv_lhs => rw [hsplit, List.filter_append, htake, hdrop, List.append_nil]

/-- The group at another offset is left for later. -/
theorem groupAt_next (h : Fields length (r :: rest)) {o : Nat} (ho : o ≠ r.offset) :
    groupAt (r :: rest) o = groupAt (rest.dropWhile fun x => x.offset ≤ r.offset) o := by
  have hsplit : rest = rest.takeWhile (fun x => x.offset ≤ r.offset) ++
      rest.dropWhile fun x => x.offset ≤ r.offset := List.takeWhile_append_dropWhile.symm
  have htake : (rest.takeWhile fun x => x.offset ≤ r.offset).filter (fun x => x.offset = o) = [] :=
    List.filter_eq_nil_iff.mpr fun x hx => by
      rw [mem_takeWhile h hx]
      simpa using fun heq => ho heq.symm
  rw [groupAt, List.filter_cons_of_neg (by simpa using fun heq => ho heq.symm)]
  conv_lhs => rw [hsplit, List.filter_append, htake, List.nil_append]
  rfl

/-- A relocation is in the group of the turn, or left for later. -/
theorem mem_or_next (h : Fields length (r :: rest)) {x : Relocation} (hx : x ∈ r :: rest) :
    x.offset = r.offset ∨ x ∈ rest.dropWhile fun x => x.offset ≤ r.offset := by
  rcases List.mem_cons.mp hx with rfl | hmem
  · exact Or.inl rfl
  · rw [← List.takeWhile_append_dropWhile (p := fun x : Relocation => decide (x.offset ≤ r.offset))
      (l := rest)] at hmem
    rcases List.mem_append.mp hmem with hin | hnext
    · exact Or.inl (mem_takeWhile h hin)
    · exact Or.inr hnext

/-- The size of a group is that of one of its relocations. -/
theorem emit_size {group : List Relocation} {e : Expr} {size : Nat}
    (h : emit group = some (e, size)) : ∃ x ∈ group, size = x.getSize := by
  cases group with
  | nil => exact absurd h (by simp [emit])
  | cons first rest =>
    rw [emit] at h
    split at h
    · exact absurd h (by simp)
    · obtain ⟨_, rfl⟩ := Prod.mk.inj (Option.some.inj h)
      cases rest using List.reverseRecOn with
      | nil => exact ⟨first, List.mem_cons_self, rfl⟩
      | append_singleton xs x => exact ⟨x, by simp, by simp⟩

end Groups

/-! ## What the loop emits -/

namespace DataSection

variable (S : DataSection)

/-- No symbol of the group is undefined. -/
def Emitted (relocs : List Relocation) (r : Relocation) : Prop :=
  (groupAt relocs r.offset).any S.hasUndefSym = false

/-- **What is emitted from `s` on**: the contents, with the value of each emitted group over its
field. -/
structure Image (s : Nat) (relocs : List Relocation) (out : List Emission) : Prop where
  length : s + (image out).length = S.contents.length
  kept : ∀ k, s ≤ k → ∀ hk : k < S.contents.length,
    (∀ r ∈ relocs, S.Emitted relocs r → ¬ (r.offset ≤ k ∧ k < r.offset + r.getSize)) →
    (image out)[k - s]? = some (.byte (S.contents.get ⟨k, hk⟩))
  fields : ∀ r ∈ relocs, S.Emitted relocs r →
    ∃ e size, emit (groupAt relocs r.offset) = some (e, size) ∧
    ∀ j < size, (image out)[r.offset - s + j]? = some (.field e j size)

variable {S}

variable {out : List Emission} {relocs : List Relocation}

theorem Image.prepend {s here : Nat} (h : S.Image here relocs out) (hs : s ≤ here)
    (hfields : ∀ r ∈ relocs, here ≤ r.offset) :
    S.Image s relocs ((if s < here then [.bytes ((S.contents.drop s).take (here - s))] else [])
      ++ out) := by
  have hlen := h.length
  have hgap : image (if s < here then [.bytes ((S.contents.drop s).take (here - s))] else []) =
      ((S.contents.drop s).take (here - s)).map .byte := by
    split
    · exact List.append_nil _
    · rw [show here - s = 0 by omega]
      rfl
  have hcount : (((S.contents.drop s).take (here - s)).map Cell.byte).length = here - s := by
    rw [List.length_map, List.length_take, List.length_drop]
    omega
  constructor
  · rw [image_append, hgap, List.length_append, hcount]
    omega
  · intro k hsk hk hfree
    rw [image_append, hgap]
    by_cases hbefore : k < here
    · rw [List.getElem?_append_left (by omega), List.getElem?_map,
        List.getElem?_take_of_lt (by omega),
        List.getElem?_drop, show s + (k - s) = k by omega, List.getElem?_eq_getElem hk]
      rfl
    · rw [List.getElem?_append_right (by omega), hcount,
        show k - s - (here - s) = k - here by omega]
      exact h.kept k (by omega) hk hfree
  · intro r hr hemitted
    obtain ⟨e, size, hemit, hcells⟩ := h.fields r hr hemitted
    have hr' := hfields r hr
    refine ⟨e, size, hemit, fun j hj => ?_⟩
    rw [image_append, hgap, List.getElem?_append_right (by omega), hcount,
      show r.offset - s + j - (here - s) = r.offset - here + j by omega]
    exact hcells j hj

theorem emitted_next {length : Nat} {r x : Relocation} {rest : List Relocation}
    (h : Fields length (r :: rest)) (hx : x ∈ rest.dropWhile fun x => x.offset ≤ r.offset) :
    S.Emitted (r :: rest) x ↔ S.Emitted (rest.dropWhile fun x => x.offset ≤ r.offset) x := by
  have hlt := mem_dropWhile h hx
  unfold Emitted
  rw [groupAt_next h (by omega)]

/-- A group that is skipped leaves its bytes to what follows. -/
theorem Image.skip {here : Nat} {r : Relocation} {rest : List Relocation}
    (hfields : Fields S.contents.length (r :: rest)) (hundef : ¬ S.Emitted (r :: rest) r)
    (h : S.Image here (rest.dropWhile fun x => x.offset ≤ r.offset) out) :
    S.Image here (r :: rest) out := by
  have hmem : ∀ x ∈ rest.dropWhile fun x => x.offset ≤ r.offset, x ∈ r :: rest := fun x hx =>
    List.mem_cons_of_mem r ((List.dropWhile_sublist _).subset hx)
  constructor
  · exact h.length
  · intro k hhere hk hfree
    exact h.kept k hhere hk fun x hx hemitted =>
      hfree x (hmem x hx) ((emitted_next hfields hx).mpr hemitted)
  · intro x hx hemitted
    rcases mem_or_next hfields hx with hsame | hnext
    · unfold Emitted at hemitted hundef
      rw [hsame] at hemitted
      exact absurd hemitted hundef
    · have hlt := mem_dropWhile hfields hnext
      rw [groupAt_next hfields (by omega)]
      exact h.fields x hnext ((emitted_next hfields hnext).mp hemitted)

/-- The value of a group fills its field. -/
theorem Image.value {r : Relocation} {rest : List Relocation} {e : Expr} {size : Nat}
    (hfields : Fields S.contents.length (r :: rest)) (hdef : S.Emitted (r :: rest) r)
    (hemit : emit (groupAt (r :: rest) r.offset) = some (e, size))
    (h : S.Image (r.offset + size) (rest.dropWhile fun x => x.offset ≤ r.offset) out) :
    S.Image r.offset (r :: rest) (.value e size :: out) := by
  have hmem : ∀ x ∈ rest.dropWhile fun x => x.offset ≤ r.offset, x ∈ r :: rest := fun x hx =>
    List.mem_cons_of_mem r ((List.dropWhile_sublist _).subset hx)
  have hlen := h.length
  obtain ⟨z, hz, hsize⟩ := emit_size hemit
  obtain ⟨hzmem, hzoffset⟩ := List.mem_filter.mp hz
  have hzoffset' : z.offset = r.offset := of_decide_eq_true hzoffset
  have hcount : (Emission.image (.value e size)).length = size := by
    rw [Emission.image, List.length_map, List.length_range]
  constructor
  · rw [image_cons, List.length_append, hcount]
    omega
  · intro k hk0 hk hfree
    have hbehind : r.offset + size ≤ k := by
      have hz' := hfree z hzmem (by
        unfold Emitted
        rwa [hzoffset'])
      omega
    rw [image_cons, List.getElem?_append_right (by omega), hcount,
      show k - r.offset - size = k - (r.offset + size) by omega]
    exact h.kept k hbehind hk fun x hx hemitted =>
      hfree x (hmem x hx) ((emitted_next hfields hx).mpr hemitted)
  · intro x hx hemitted
    rcases mem_or_next hfields hx with hsame | hnext
    · rw [hsame]
      refine ⟨e, size, hemit, fun j hj => ?_⟩
      rw [Nat.sub_self, Nat.zero_add, image_cons, List.getElem?_append_left (by omega),
        Emission.image,
        List.getElem?_map, List.getElem?_range hj]
      rfl
    · have hlt := mem_dropWhile hfields hnext
      have hapart := hfields.apart z hzmem x hx (by omega)
      rw [groupAt_next hfields (by omega)]
      obtain ⟨e', size', hemit', hcells⟩ :=
        h.fields x hnext ((emitted_next hfields hnext).mp hemitted)
      refine ⟨e', size', hemit', fun j hj => ?_⟩
      rw [image_cons, List.getElem?_append_right (by omega), hcount,
        show x.offset - r.offset + j - size = x.offset - (r.offset + size) + j by omega]
      exact hcells j hj

/-- **The loop emits the contents with the values of the groups.** -/
theorem emitLoop_image {s : Nat} (hs : s ≤ S.contents.length) (hbelow : ∀ r ∈ relocs, s ≤ r.offset)
    (hfields : Fields S.contents.length relocs) (hout : S.emitLoop s relocs = some out) :
    S.Image s relocs out := by
  induction hn : relocs.length using Nat.strong_induction_on generalizing relocs s out with
  | _ n ih =>
    cases relocs with
    | nil =>
      rw [emitLoop] at hout
      obtain rfl := Option.some.inj hout
      have himage : image (if s < S.contents.length then [.bytes (S.contents.drop s)] else []) =
          (S.contents.drop s).map .byte := by
        split
        · exact List.append_nil _
        · rw [List.drop_of_length_le (by omega)]
          rfl
      constructor
      · rw [himage, List.length_map, List.length_drop]
        omega
      · intro k hsk hk _
        rw [himage, List.getElem?_map, List.getElem?_drop, show s + (k - s) = k by omega,
          List.getElem?_eq_getElem hk]
        rfl
      · exact fun r hr => absurd hr List.not_mem_nil
    | cons r rest =>
      have hsr : s ≤ r.offset := hbelow r List.mem_cons_self
      have hinside := hfields.inside r List.mem_cons_self
      have hhere : (if s < r.offset then r.offset else s) = r.offset := by
        split <;> omega
      have hshorter : (rest.dropWhile fun x => x.offset ≤ r.offset).length < n := by
        have hle := (List.dropWhile_sublist (l := rest) fun x => decide
          (x.offset ≤ r.offset)).length_le
        rw [← hn, List.length_cons]
        omega
      have hall : ∀ x ∈ r :: rest, r.offset ≤ x.offset := by
        intro x hx
        rcases mem_or_next hfields hx with hsame | hnext
        · omega
        · exact (mem_dropWhile hfields hnext).le
      rw [emitLoop, hhere, ← groupAt_here hfields] at hout
      split at hout
      · next hundef =>
        obtain ⟨tail, htail, rfl⟩ := Option.map_eq_some_iff.mp hout
        have hrest := ih _ hshorter (by omega) (fun x hx => (mem_dropWhile hfields hx).le)
          hfields.next
          htail rfl
        exact (hrest.skip hfields (by
          unfold Emitted
          rw [hundef]
          decide)).prepend hsr hall
      · next hdef =>
        split at hout
        · exact absurd hout (by simp)
        · next e size hemit =>
          obtain ⟨tail, htail, rfl⟩ := Option.map_eq_some_iff.mp hout
          obtain ⟨z, hz, hsize⟩ := emit_size hemit
          obtain ⟨hzmem, hzoffset⟩ := List.mem_filter.mp hz
          have hzoffset' : z.offset = r.offset := of_decide_eq_true hzoffset
          have hzinside := hfields.inside z hzmem
          have hnext : ∀ x ∈ rest.dropWhile fun x => x.offset ≤ r.offset,
            r.offset + size ≤ x.offset := by
            intro x hx
            have hlt := mem_dropWhile hfields hx
            have hapart := hfields.apart z hzmem x
              (List.mem_cons_of_mem r ((List.dropWhile_sublist _).subset hx)) (by omega)
            omega
          have hrest := ih _ hshorter (by omega) hnext hfields.next htail rfl
          exact (hrest.value hfields (by simpa [Emitted] using hdef) hemit).prepend hsr hall

/-- The loop goes through exactly where each emitted group can be composed. -/
theorem emitLoop_isSome {s : Nat} (hfields : Fields S.contents.length relocs) :
    (S.emitLoop s relocs).isSome ↔
      ∀ r ∈ relocs, S.Emitted relocs r → (emit (groupAt relocs r.offset)).isSome := by
  induction hn : relocs.length using Nat.strong_induction_on generalizing relocs s with
  | _ n ih =>
    cases relocs with
    | nil =>
      rw [emitLoop]
      exact ⟨fun _ r hr => absurd hr List.not_mem_nil, fun _ => rfl⟩
    | cons r rest =>
      have hshorter : (rest.dropWhile fun x => x.offset ≤ r.offset).length < n := by
        have hle := (List.dropWhile_sublist (l := rest) fun x => decide
          (x.offset ≤ r.offset)).length_le
        rw [← hn, List.length_cons]
        omega
      have hgroup : ∀ x ∈ rest.dropWhile fun x => x.offset ≤ r.offset,
          groupAt (r :: rest) x.offset =
            groupAt (rest.dropWhile fun x => x.offset ≤ r.offset) x.offset := fun x hx => by
        have hlt := mem_dropWhile hfields hx
        exact groupAt_next hfields (by omega)
      have hsplit : (∀ x ∈ r :: rest, S.Emitted (r :: rest) x →
          (emit (groupAt (r :: rest) x.offset)).isSome) ↔
          (S.Emitted (r :: rest) r → (emit (groupAt (r :: rest) r.offset)).isSome) ∧
          ∀ x ∈ rest.dropWhile fun x => x.offset ≤ r.offset,
            S.Emitted (rest.dropWhile fun x => x.offset ≤ r.offset) x →
            (emit (groupAt (rest.dropWhile fun x => x.offset ≤ r.offset) x.offset)).isSome := by
        constructor
        · intro h
          refine ⟨h r List.mem_cons_self, fun x hx hemitted => ?_⟩
          rw [← hgroup x hx]
          exact h x (List.mem_cons_of_mem r ((List.dropWhile_sublist _).subset hx))
            ((emitted_next hfields hx).mpr hemitted)
        · intro h x hx hemitted
          rcases mem_or_next hfields hx with hsame | hnext
          · unfold Emitted at hemitted h
            rw [hsame] at hemitted ⊢
            exact h.1 hemitted
          · rw [hgroup x hnext]
            exact h.2 x hnext ((emitted_next hfields hnext).mp hemitted)
      rw [hsplit, emitLoop, ← groupAt_here hfields]
      split
      · next hundef =>
        rw [Option.isSome_map, ih _ hshorter hfields.next rfl]
        refine ⟨fun h => ⟨fun hemitted => ?_, h⟩, fun h => h.2⟩
        unfold Emitted at hemitted
        rw [hundef] at hemitted
        exact absurd hemitted (by decide)
      · next hdef =>
        have hemitted : S.Emitted (r :: rest) r := by simpa [Emitted] using hdef
        split
        · next hnone =>
          refine ⟨fun h => absurd h (by simp), fun h => ?_⟩
          have hsome := h.1 hemitted
          rw [hnone] at hsome
          exact absurd hsome (by simp)
        · next e size hemit =>
          rw [Option.isSome_map, ih _ hshorter hfields.next rfl]
          refine ⟨fun h => ⟨fun _ => ?_, h⟩, fun h => h.2⟩
          rw [hemit]
          rfl

end DataSection

/-! ## What a group should be -/

/-- The value of a group is right, and of the size of its field. -/
def GroupFaithful (group : List Relocation) : Prop :=
  ∃ e size, emit group = some (e, size) ∧ (∀ r ∈ group, r.getSize = size) ∧
    ∀ ρ, e.denote ρ = (group.map (Relocation.signedTerm ρ)).sum

/-- A group that can be composed: the first relocation is not a subtraction, except of the constant
0, and the others are additions and subtractions, of four bytes as the first is. -/
def Composable : List Relocation → Prop
  | [] => False
  | first :: rest =>
    (first.type = .sub32 → first.symbol = none ∧ first.addend = 0) ∧
    (∀ r ∈ rest, r.type = .add32 ∨ r.type = .sub32) ∧
    (first.type = .r64 → rest = [])

theorem getSize_pos (r : Relocation) : 0 < r.getSize := by
  unfold Relocation.getSize getSizeForType
  split <;> omega

theorem getSize_of_compose {r : Relocation}
    (h : r.type = .add32 ∨ r.type = .sub32) : r.getSize = 4 := by
  unfold Relocation.getSize
  rcases h with h | h <;> rw [h] <;> rfl

theorem getSize_eq_four_iff (r : Relocation) : r.getSize = 4 ↔ r.type ≠ .r64 := by
  unfold Relocation.getSize
  cases r.type <;> decide

/-- The first relocation counts with a plus, whatever its type. -/
theorem signedTerm_eq_term_iff (r : Relocation) :
    (∀ ρ, r.term ρ = r.signedTerm ρ) ↔ (r.type = .sub32 → r.symbol = none ∧ r.addend = 0) := by
  unfold Relocation.signedTerm
  by_cases htype : r.type = .sub32
  · simp only [if_pos htype]
    constructor
    · intro h _
      have hzero := h fun _ => 0
      have hone := h fun _ => 1
      cases hsymbol : r.symbol with
      | none =>
        simp only [Relocation.term, hsymbol] at hzero
        have haddend : r.addend.toInt = (0#64).toInt := by
          rw [BitVec.toInt_zero]
          omega
        exact ⟨rfl, BitVec.toInt_inj.mp haddend⟩
      | some s =>
        simp only [Relocation.term, hsymbol] at hzero hone
        omega
    · intro h ρ
      obtain ⟨hsymbol, haddend⟩ := h htype
      unfold Relocation.term
      rw [hsymbol, haddend]
      rfl
  · simp only [if_neg htype]
    exact ⟨fun _ h => absurd h htype, fun _ _ => trivial⟩

/-- **A group is faithful exactly where it is composable.** -/
theorem groupFaithful_iff (group : List Relocation) : GroupFaithful group ↔ Composable group := by
  cases group with
  | nil => exact ⟨fun ⟨_, _, h, _⟩ => absurd h (by simp [emit]), fun h => h.elim⟩
  | cons first rest =>
    have hvalue : ∀ e, composeExpr first.createExpr rest = some e → ∀ ρ,
        e.denote ρ = ((first :: rest).map (Relocation.signedTerm ρ)).sum ↔
          first.term ρ = first.signedTerm ρ := fun e he ρ => by
      rw [denote_composeExpr ρ he, denote_createExpr, List.map_cons, List.sum_cons]
      exact add_left_inj _
    constructor
    · rintro ⟨e, size, hemit, hsize, hdenote⟩
      rw [emit] at hemit
      cases hcompose : composeExpr first.createExpr rest with
      | none =>
        rw [hcompose] at hemit
        exact absurd hemit (by simp)
      | some value =>
        rw [hcompose] at hemit
        obtain ⟨rfl, -⟩ := Prod.mk.inj (Option.some.inj hemit)
        have hrest := (composeExpr_isSome first.createExpr rest).mp
          (Option.isSome_iff_exists.mpr ⟨_, hcompose⟩)
        refine ⟨(signedTerm_eq_term_iff first).mp fun ρ => (hvalue _ hcompose ρ).mp
          (hdenote ρ), hrest,
          fun hlong => ?_⟩
        cases rest with
        | nil => rfl
        | cons x xs =>
          have hx := hsize x (List.mem_cons_of_mem _ List.mem_cons_self)
          have hfirst := hsize first List.mem_cons_self
          rw [getSize_of_compose (hrest x List.mem_cons_self)] at hx
          exact absurd hlong ((getSize_eq_four_iff first).mp (hfirst.trans hx.symm))
    · rintro ⟨hsign, hrest, hlong⟩
      obtain ⟨value, hcompose⟩ := Option.isSome_iff_exists.mp
        ((composeExpr_isSome first.createExpr rest).mpr hrest)
      refine ⟨value, (rest.getLastD first).getSize, by rw [emit, hcompose], ?_, fun ρ =>
        (hvalue _ hcompose ρ).mpr ((signedTerm_eq_term_iff first).mpr hsign ρ)⟩
      cases rest with
      | nil => simp
      | cons x xs =>
        have hfirst : first.getSize = 4 :=
          (getSize_eq_four_iff first).mpr fun h => absurd (hlong h) (by simp)
        have hall : ∀ r ∈ first :: x :: xs, r.getSize = 4 := fun r hr => by
          rcases List.mem_cons.mp hr with rfl | hmem
          · exact hfirst
          · exact getSize_of_compose (hrest r hmem)
        have hlast : (x :: xs).getLastD first ∈ first :: x :: xs := by
          rw [List.getLastD_eq_getLast?, List.getLast?_eq_some_getLast (List.cons_ne_nil x xs)]
          exact List.mem_cons_of_mem first (List.getLast_mem _)
        intro r hr
        rw [hall r hr, hall _ hlast]

namespace DataSection

variable (S : DataSection)

/-- **Faithful emission**: as many bytes as the section has, the bytes outside the emitted
relocations as they were, and at each emitted relocation a value of its size, which is the sum of
the terms at its offset with their signs. -/
structure Faithful (out : List Emission) : Prop where
  length : (image out).length = S.contents.length
  kept : ∀ k (hk : k < S.contents.length),
    (∀ r ∈ S.relocations, S.Emitted S.relocations r → ¬ (r.offset ≤ k ∧ k < r.offset + r.getSize)) →
    (image out)[k]? = some (.byte (S.contents.get ⟨k, hk⟩))
  values : ∀ r ∈ S.relocations, S.Emitted S.relocations r → ∃ e,
    (∀ j < r.getSize, (image out)[r.offset + j]? = some (.field e j r.getSize)) ∧
    ∀ ρ, e.denote ρ = ((groupAt S.relocations r.offset).map (Relocation.signedTerm ρ)).sum

variable {S}

/-- A section without relocations goes out as the loop would emit it. -/
theorem emitAsData_image (hfields : Fields S.contents.length S.relocations) {out : List Emission}
    (h : S.emitAsData = some out) : S.Image 0 S.relocations out := by
  rw [emitAsData] at h
  split at h
  · next hempty =>
    obtain rfl := Option.some.inj h
    have hnil : S.relocations = [] := List.isEmpty_iff.mp hempty
    have himage : image [Emission.bytes S.contents] = S.contents.map .byte := List.append_nil _
    constructor
    · rw [himage, List.length_map, Nat.zero_add]
    · intro k _ hk _
      rw [himage, Nat.sub_zero, List.getElem?_map, List.getElem?_eq_getElem hk]
      rfl
    · intro r hr
      rw [hnil] at hr
      exact absurd hr List.not_mem_nil
  · exact emitLoop_image (Nat.zero_le _) (fun _ _ => Nat.zero_le _) hfields h

theorem emitAsData_isSome (hfields : Fields S.contents.length S.relocations) :
    S.emitAsData.isSome ↔ ∀ r ∈ S.relocations, S.Emitted S.relocations r →
      (emit (groupAt S.relocations r.offset)).isSome := by
  rw [emitAsData]
  split
  · next hempty =>
    have hnil : S.relocations = [] := List.isEmpty_iff.mp hempty
    rw [hnil]
    exact ⟨fun _ r hr => absurd hr List.not_mem_nil, fun _ => rfl⟩
  · exact emitLoop_isSome hfields

/-- What is emitted is faithful exactly where each group is. -/
theorem faithful_iff_groups (hfields : Fields S.contents.length S.relocations) {out : List Emission}
    (h : S.emitAsData = some out) :
    S.Faithful out ↔ ∀ r ∈ S.relocations, S.Emitted S.relocations r →
      GroupFaithful (groupAt S.relocations r.offset) := by
  have himage := emitAsData_image hfields h
  have hself : ∀ r ∈ S.relocations, r ∈ groupAt S.relocations r.offset := fun r hr =>
    List.mem_filter.mpr ⟨hr, decide_eq_true rfl⟩
  constructor
  · intro hfaithful r hr hemitted
    obtain ⟨e, size, hemit, hcells⟩ := himage.fields r hr hemitted
    obtain ⟨z, -, hz⟩ := emit_size hemit
    have hfirst := hcells 0 (hz ▸ getSize_pos z)
    rw [Nat.sub_zero] at hfirst
    -- every relocation of the group reads the same byte
    have hsame : ∀ x ∈ groupAt S.relocations r.offset, ∃ e', x.getSize = size ∧ e' = e ∧ ∀ ρ,
        e'.denote ρ = ((groupAt S.relocations r.offset).map (Relocation.signedTerm ρ)).sum := by
      intro x hx
      obtain ⟨hxmem, hxoffset⟩ := List.mem_filter.mp hx
      have hxoffset' : x.offset = r.offset := of_decide_eq_true hxoffset
      obtain ⟨e', hcells', hdenote⟩ := hfaithful.values x hxmem (by
        unfold Emitted
        rwa [hxoffset'])
      have hfirst' := hcells' 0 (getSize_pos x)
      rw [hxoffset'] at hfirst' hdenote
      obtain ⟨rfl, -, hsize⟩ := Cell.field.inj (Option.some.inj (hfirst.symm.trans hfirst'))
      exact ⟨e, hsize.symm, rfl, hdenote⟩
    obtain ⟨e', -, rfl, hdenote⟩ := hsame r (hself r hr)
    exact ⟨e', size, hemit, fun x hx => (hsame x hx).choose_spec.1, hdenote⟩
  · intro hgroups
    constructor
    · exact (Nat.zero_add _).symm.trans himage.length
    · intro k hk hfree
      exact himage.kept k (Nat.zero_le k) hk hfree
    · intro r hr hemitted
      obtain ⟨e, size, hemit, hcells⟩ := himage.fields r hr hemitted
      obtain ⟨e', size', hemit', hsizes, hdenote⟩ := hgroups r hr hemitted
      obtain ⟨rfl, rfl⟩ := Prod.mk.inj (Option.some.inj (hemit.symm.trans hemit'))
      refine ⟨e, fun j hj => ?_, hdenote⟩
      rw [hsizes r (hself r hr)] at hj ⊢
      exact hcells j hj

/-- **A section is emitted, and faithfully, exactly where each emitted group can be composed.** -/
theorem emitAsData_faithful_iff (S : DataSection)
    (hfields : Fields S.contents.length S.relocations) :
    (∃ out, S.emitAsData = some out ∧ S.Faithful out) ↔
      ∀ r ∈ S.relocations, S.Emitted S.relocations r →
        Composable (groupAt S.relocations r.offset) := by
  constructor
  · rintro ⟨out, hout, hfaithful⟩ r hr hemitted
    exact (groupFaithful_iff _).mp ((faithful_iff_groups hfields hout).mp hfaithful r hr hemitted)
  · intro h
    have hgroups : ∀ r ∈ S.relocations, S.Emitted S.relocations r →
        GroupFaithful (groupAt S.relocations r.offset) := fun r hr hemitted =>
      (groupFaithful_iff _).mpr (h r hr hemitted)
    obtain ⟨out, hout⟩ := Option.isSome_iff_exists.mp
      ((emitAsData_isSome hfields).mpr fun r hr hemitted => by
      obtain ⟨e, size, hemit, -⟩ := hgroups r hr hemitted
      rw [hemit]
      rfl)
    exact ⟨out, hout, (faithful_iff_groups hfields hout).mpr hgroups⟩

/-- Four bytes, filled by the difference of two symbols in either order. -/
def difference (first second : RelocType) : DataSection :=
  ⟨[1, 2, 3, 4], [⟨0, some 1, first, 0⟩, ⟨0, some 2, second, 0⟩], []⟩

theorem fields_difference (first : RelocType) (second : RelocType) (h : first ≠ .r64)
    (h' : second ≠ .r64) :
    Fields 4 (difference first second).relocations := by
  have hsize : Relocation.getSize ⟨0, some 1, first, 0#64⟩ = 4 := (getSize_eq_four_iff _).mpr h
  have hsize' : Relocation.getSize ⟨0, some 2, second, 0#64⟩ = 4 := (getSize_eq_four_iff _).mpr h'
  refine ⟨by simp [difference], ?_, ?_⟩
  · simp [difference, hsize, hsize']
  · simp [difference]

theorem faithful_addSub :
    (∃ out, (difference .add32 .sub32).emitAsData = some out ∧
      (difference .add32 .sub32).Faithful out) ↔
      ∀ r ∈ (difference .add32 .sub32).relocations,
        (difference .add32 .sub32).Emitted (difference .add32 .sub32).relocations r →
        Composable (groupAt (difference .add32 .sub32).relocations r.offset) :=
  emitAsData_faithful_iff _ (fields_difference _ _ (by decide) (by decide))

/-- With the subtraction in front, the sum of the two symbols is emitted. -/
theorem not_faithful_subAdd :
    ¬ ∃ out, (difference .sub32 .add32).emitAsData = some out ∧
      (difference .sub32 .add32).Faithful out := by
  rintro ⟨out, hout, hfaithful⟩
  have hfields := fields_difference .sub32 .add32 (by decide) (by decide)
  have hgroup := (faithful_iff_groups (S := difference .sub32 .add32) hfields hout).mp hfaithful
    ⟨0, some 1, .sub32, 0⟩ List.mem_cons_self rfl
  have hsign := ((groupFaithful_iff _).mp hgroup).1 rfl
  exact absurd hsign.1 (by decide)

end DataSection

end RvLlvm.Bolt.DataEmission
