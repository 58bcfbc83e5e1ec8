import RvLlvm.Lld.ScriptFrame

/-!
# Scripts that settle

A walk over the script that moves the location counter only by what it has already set gives the
same addresses whatever it started from, so long as the sections have the same sizes.

* `settle` walks the script with the symbols, output sections and input sections whose values it
  can vouch for (`Known`), and fails at an expression that moves the location counter by anything
  else. A symbol may still be set from a value of the walk before; it is then not known.
* `Settles.covers`: a script that settles knows every section it places.
-/

namespace RvLlvm.Lld.Link

/-- What a walk has set. -/
structure Known where
  syms : List SymId
  outs : List OutId
  secs : List SecId

def Known.addSec (K : Known) (s : SecId) : Known := { K with secs := s :: K.secs }

def Known.addOut (K : Known) (o : OutId) : Known := { K with outs := o :: K.outs }

variable (L : Link)

/-- The address of the place is known. -/
def placeKnown (K : Known) : Place → Bool
  | .absolute => true
  | .output o => decide (o ∈ K.outs)
  | .input s => decide (s ∈ K.secs) && decide ((L.input s).parent ∈ K.outs)

/-- The value of the reference is known. A symbol the script does not assign is, once the section
it lies in is placed. -/
def refKnown (K : Known) : Ref → Bool
  | .dot => true
  | .sym d => decide (d ∈ K.syms) ||
      (decide (d ∉ L.assigned) && L.placeKnown K (L.initSym d).place)
  | .addr o => decide (o ∈ K.outs)
  | .size o => decide (o ∈ K.outs)

def exprKnown (K : Known) (e : Expr) : Bool := e.reads.all (L.refKnown K)

/-- A symbol assignment makes the symbol known, or not. -/
def settleAssign (K : Known) (d : SymId) (e : Expr) : Known :=
  { K with syms := if L.exprKnown K e then d :: K.syms else K.syms.filter fun d' => d' != d }

def settleSub (K : Known) : SubCommand → Option Known
  | .assign d e => some (L.settleAssign K d e)
  | .setDot e => if L.exprKnown K e then some K else none
  | .byte _ => some K
  | .inputs ss => some (ss.foldl Known.addSec K)

def settleSubs (K : Known) : List SubCommand → Option Known
  | [] => some K
  | c :: cs => (L.settleSub K c).bind fun K' => settleSubs K' cs

def settleCommand (K : Known) : Command → Option Known
  | .assign d e => some (L.settleAssign K d e)
  | .setDot e => if L.exprKnown K e then some K else none
  | .section o =>
    if (L.output o).addrExpr.all (L.exprKnown K) then
      L.settleSubs (K.addOut o) (L.output o).commands
    else none

/-- The walk over the commands; `none` if the location counter moves by something unknown. -/
def settle (K : Known) : List Command → Option Known
  | [] => some K
  | c :: cs => (L.settleCommand K c).bind fun K' => settle K' cs

/-- What is known before the walk: the constants. -/
def early : Known := ⟨L.assigned.filter L.constant, [], []⟩

/-- The walk over the script settles, with `K` known at its end. -/
structure Settles (K : Known) : Prop where
  origin : ∀ m, L.exprKnown L.early (L.origin m) = true
  script : L.settle L.early L.script = some K

variable {L} {K K' : Known}

/-! ## What grows -/

/-- Nothing known is forgotten but symbols. -/
def Known.le (K K' : Known) : Prop := K.outs ⊆ K'.outs ∧ K.secs ⊆ K'.secs

theorem Known.le.trans {K₁ K₂ K₃ : Known} (h : K₁.le K₂) (h' : K₂.le K₃) : K₁.le K₃ :=
  ⟨List.Subset.trans h.1 h'.1, List.Subset.trans h.2 h'.2⟩

theorem placeKnown_mono (h : K.le K') {p : Place} (hp : L.placeKnown K p = true) :
    L.placeKnown K' p = true := by
  cases p with
  | absolute => rfl
  | output o =>
    simp only [placeKnown, decide_eq_true_eq] at hp ⊢
    exact h.1 hp
  | input s =>
    simp only [placeKnown, Bool.and_eq_true, decide_eq_true_eq] at hp ⊢
    exact ⟨h.2 hp.1, h.1 hp.2⟩

theorem addSec_le (K : Known) (s : SecId) : K.le (K.addSec s) :=
  ⟨List.Subset.refl _, List.subset_cons_of_subset s (List.Subset.refl _)⟩

theorem addOut_le (K : Known) (o : OutId) : K.le (K.addOut o) :=
  ⟨List.subset_cons_of_subset o (List.Subset.refl _), List.Subset.refl _⟩

theorem foldl_addSec_outs (ss : List SecId) (K : Known) :
    (ss.foldl Known.addSec K).outs = K.outs := by
  induction ss generalizing K with
  | nil => rfl
  | cons s ss ih => exact ih (K.addSec s)

theorem addSecs_le (ss : List SecId) (K : Known) :
    K.le (ss.foldl Known.addSec K) ∧ ss ⊆ (ss.foldl Known.addSec K).secs := by
  induction ss generalizing K with
  | nil => exact ⟨⟨List.Subset.refl _, List.Subset.refl _⟩, List.nil_subset _⟩
  | cons s ss ih =>
    obtain ⟨hle, hsub⟩ := ih (K.addSec s)
    exact ⟨(addSec_le K s).trans hle,
      List.cons_subset.mpr ⟨hle.2 List.mem_cons_self, hsub⟩⟩

theorem settleSub_le {cmd : SubCommand} (h : L.settleSub K cmd = some K') :
    K.le K' ∧ ∀ ss, cmd = .inputs ss → ss ⊆ K'.secs := by
  have hrefl : K.le K := ⟨List.Subset.refl _, List.Subset.refl _⟩
  cases cmd with
  | assign d e =>
    obtain rfl := Option.some.inj h
    exact ⟨hrefl, fun ss hss => absurd hss (by simp)⟩
  | setDot e =>
    by_cases he : L.exprKnown K e = true
    · rw [settleSub, if_pos he] at h
      obtain rfl := Option.some.inj h
      exact ⟨hrefl, fun ss hss => absurd hss (by simp)⟩
    · rw [settleSub, if_neg he] at h
      exact absurd h (by simp)
  | byte size =>
    obtain rfl := Option.some.inj h
    exact ⟨hrefl, fun ss hss => absurd hss (by simp)⟩
  | inputs ss =>
    obtain rfl := Option.some.inj h
    obtain ⟨hle, hsub⟩ := addSecs_le ss K
    refine ⟨hle, fun ss' hss => ?_⟩
    obtain rfl := SubCommand.inputs.inj hss
    exact hsub

theorem settleSubs_le {cmds : List SubCommand} (h : L.settleSubs K cmds = some K') :
    K.le K' ∧ ∀ ss, SubCommand.inputs ss ∈ cmds → ss ⊆ K'.secs := by
  induction cmds generalizing K with
  | nil =>
    obtain rfl := Option.some.inj h
    exact ⟨⟨List.Subset.refl _, List.Subset.refl _⟩, fun ss hss => absurd hss List.not_mem_nil⟩
  | cons cmd cmds ih =>
    rw [settleSubs, Option.bind_eq_some_iff] at h
    obtain ⟨K₁, hK₁, hK'⟩ := h
    obtain ⟨hle, hcmd⟩ := settleSub_le hK₁
    obtain ⟨hle', hcmds⟩ := ih hK'
    refine ⟨hle.trans hle', fun ss hss => ?_⟩
    rcases List.mem_cons.mp hss with heq | hmem
    · exact List.Subset.trans (hcmd ss heq.symm) hle'.2
    · exact hcmds ss hmem

theorem settleCommand_le {cmd : Command} (h : L.settleCommand K cmd = some K') :
    K.le K' ∧ ∀ o, cmd = .section o → o ∈ K'.outs ∧ L.inputsOf o ⊆ K'.secs := by
  have hrefl : K.le K := ⟨List.Subset.refl _, List.Subset.refl _⟩
  cases cmd with
  | assign d e =>
    obtain rfl := Option.some.inj h
    exact ⟨hrefl, fun o ho => absurd ho (by simp)⟩
  | setDot e =>
    by_cases he : L.exprKnown K e = true
    · rw [settleCommand, if_pos he] at h
      obtain rfl := Option.some.inj h
      exact ⟨hrefl, fun o ho => absurd ho (by simp)⟩
    · rw [settleCommand, if_neg he] at h
      exact absurd h (by simp)
  | «section» o =>
    by_cases he : (L.output o).addrExpr.all (L.exprKnown K) = true
    · rw [settleCommand, if_pos he] at h
      obtain ⟨hle, hsubs⟩ := settleSubs_le h
      refine ⟨(addOut_le K o).trans hle, fun o' ho => ?_⟩
      obtain rfl := Command.section.inj ho
      refine ⟨hle.1 List.mem_cons_self, fun s hs => ?_⟩
      obtain ⟨cmd, hcmd, hs⟩ := List.mem_flatMap.mp hs
      cases cmd with
      | inputs ss => exact hsubs ss hcmd hs
      | assign d e => exact absurd hs List.not_mem_nil
      | setDot e => exact absurd hs List.not_mem_nil
      | byte size => exact absurd hs List.not_mem_nil
    · rw [settleCommand, if_neg he] at h
      exact absurd h (by simp)

theorem settle_le {cmds : List Command} (h : L.settle K cmds = some K') :
    K.le K' ∧ ∀ o, Command.section o ∈ cmds → o ∈ K'.outs ∧ L.inputsOf o ⊆ K'.secs := by
  induction cmds generalizing K with
  | nil =>
    obtain rfl := Option.some.inj h
    exact ⟨⟨List.Subset.refl _, List.Subset.refl _⟩, fun o ho => absurd ho List.not_mem_nil⟩
  | cons cmd cmds ih =>
    rw [settle, Option.bind_eq_some_iff] at h
    obtain ⟨K₁, hK₁, hK'⟩ := h
    obtain ⟨hle, hcmd⟩ := settleCommand_le hK₁
    obtain ⟨hle', hcmds⟩ := ih hK'
    refine ⟨hle.trans hle', fun o ho => ?_⟩
    rcases List.mem_cons.mp ho with heq | hmem
    · obtain ⟨hout, hins⟩ := hcmd o heq.symm
      exact ⟨hle'.1 hout, List.Subset.trans hins hle'.2⟩
    · exact hcmds o hmem

/-- What a settled walk knows covers everything it places. -/
theorem Settles.covers (h : L.Settles K) : L.outputSections ⊆ K.outs ∧ L.placed ⊆ K.secs := by
  obtain ⟨_, hsections⟩ := settle_le h.script
  refine ⟨fun o ho => (hsections o (mem_outputSections.mp ho)).1, fun s hs => ?_⟩
  obtain ⟨o, ho, hs⟩ := List.mem_flatMap.mp hs
  exact (hsections o (mem_outputSections.mp ho)).2 hs

end RvLlvm.Lld.Link
