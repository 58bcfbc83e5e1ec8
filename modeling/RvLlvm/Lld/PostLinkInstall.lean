import RvLlvm.Lld.PostLink

/-!
# What is installed behind BOLT

* `smallest`, `offers`, `chosen`: the payloads that a run makes from the image, and the one that is
  selected.
* `selectBestPayloadCandidate_spec`: the candidate selected holds the smallest payload offered.
* `runBoltAndPack_iff`: the file at the output path is the image as it was, or the smaller payload
  that was selected, exactly when the copy that ends the run is complete.
-/

namespace RvLlvm.Lld.PostLink

open Packer.Lz4

/-! ## Payloads -/

/-- The first of the shortest. -/
def smallest : List Bytes → Option Bytes
  | [] => none
  | b :: rest => some (rest.foldl (fun best d => if d.length < best.length then d else best) b)

/-- What `packWithLegacyPacker` leaves. -/
def legacyPayload (s : LegacySteps) : Option Bytes :=
  if s.toolsPresent && s.tempDir && s.mkdir && s.stub && s.copyPayload && s.packPy && s.headers &&
      s.final.ok && s.strip.ok && s.objcopy.ok && s.chmod then s.objcopy.output
  else none

/-- What `packWithLZ4` leaves. -/
def lz4Payload (compress : Compress) (s : LZ4Steps) (input : Bytes) : Option Bytes :=
  if s.read && s.write && s.chmod && s.rename && !input.isEmpty then packWithLZ4 compress
    input else none

/-- A payload is offered when the input was copied and something is left. -/
def offer (o : CopyOutcome) (payload : Option Bytes) : Option Bytes :=
  if o = .copied then payload.filter (· ≠ []) else none

/-- The payloads made of one input: itself, and packed when it has more than 50000 bytes. -/
def offers (compress : Compress) (s : PackSteps) (input : Option Bytes) : List Bytes :=
  match input with
  | none => []
  | some b =>
    [b].filter (· ≠ []) ++
      if 50000 < b.length then
        (offer s.legacyCopy (legacyPayload s.legacy)).toList ++
          (offer s.lz4Copy (lz4Payload compress s.lz4 b)).toList
      else []

/-- BOLT and the alignment went through. -/
def bolted (w : World) : Bool := w.bolt.ok && w.bolt.output.any (!·.isEmpty) && w.align.ok

/-- The payload that a run selects: the shorter of the best made of BOLT's output and the best made
of the image before BOLT. -/
def chosen (compress : Compress) (w : World) (image : Bytes) : Option Bytes :=
  if bolted w then
    smallest ((smallest (offers compress w.packBolt w.align.output)).toList ++
      (smallest (offers compress w.packPrebolt (some image))).toList)
  else none

/-- At the output path is the image, or the payload that was selected and is shorter. -/
def Intact (compress : Compress) (w : World) (image : Bytes) (out : Option Bytes) : Prop :=
  out = some image ∨
    ∃ payload, chosen compress w image = some payload ∧ payload.length < image.length ∧
      out = some payload

/-- What the last copy leaves at its target. -/
def CopyOutcome.result (o : CopyOutcome) (src : Bytes) (old : Option Bytes) : Option Bytes :=
  match o with
  | .copied => some src
  | .untouched => old
  | .cut missing => some (src.take (src.length - missing))

/-- All bytes are copied. -/
def CopyOutcome.complete (o : CopyOutcome) : Prop := o = .copied ∨ o = .cut 0

/-! ## Files -/

section Files

variable (fs : Files) {p q : String} (b : Option Bytes)

@[simp] theorem put_self : fs.put p b p = b := Function.update_self ..

theorem put_of_ne (h : q ≠ p) : fs.put p b q = fs q := Function.update_of_ne h ..

theorem unlink_of_ne (h : q ≠ p) : fs.unlink p q = fs q := put_of_ne fs none h

variable {fs}

theorem fileSizeOf_some {b : Bytes} (h : fs p = some b) : fileSizeOf fs p = b.length := by
  rw [fileSizeOf, h]

theorem fileSizeOf_pos : 0 < fileSizeOf fs p ↔ ∃ b, fs p = some b ∧ b ≠ [] := by
  rw [fileSizeOf]
  split
  next h => simp [h]
  next b h => simp [h, List.length_pos_iff]

/-- `cp` changes its target only. -/
theorem cp_frame (o : CopyOutcome) (src : String) (h : q ≠ p) : (cp o src p fs).2 q = fs q := by
  unfold cp
  split
  · rfl
  · exact put_of_ne _ _ h
  · rfl
  · exact put_of_ne _ _ h

/-- What `cp` leaves at its target. -/
theorem cp_target {o : CopyOutcome} {src : String} {b : Bytes} (h : fs src = some b) :
    (cp o src p fs).2 p = o.result b (fs p) := by
  unfold cp
  rw [h]
  cases o with
  | copied => exact put_self ..
  | untouched => rfl
  | cut missing => exact put_self ..

theorem cp_ok {o : CopyOutcome} {src : String} {b : Bytes} (h : fs src = some b) :
    (cp o src p fs).1 = true ↔ o = .copied := by
  unfold cp
  rw [h]
  cases o <;> simp

end Files

/-! ## The smallest candidate -/

section Smallest

/-- Where the sizes are those of the contents, the candidate found holds the smallest content. -/
theorem minElement_map (content : PayloadCandidate → Bytes) {cands : List PayloadCandidate}
    (h : ∀ c ∈ cands, c.size = (content c).length) :
    (minElement cands).map content = smallest (cands.map content) := by
  cases cands with
  | nil => rfl
  | cons c rest =>
    simp only [minElement, smallest, List.map_cons, Option.map_some]
    congr 1
    have hc := h c List.mem_cons_self
    replace h : ∀ d ∈ rest, d.size = (content d).length :=
      fun d hd => h d (List.mem_cons_of_mem _ hd)
    induction rest generalizing c with
    | nil => rfl
    | cons d rest ih =>
      have hd := h d List.mem_cons_self
      have hlt : d.size < c.size ↔ (content d).length < (content c).length := by omega
      rw [List.foldl_cons, List.map_cons, List.foldl_cons]
      by_cases hshorter : (content d).length < (content c).length
      · rw [if_pos hshorter, if_pos (hlt.mpr hshorter)]
        exact ih d hd fun e he => h e (List.mem_cons_of_mem _ he)
      · rw [if_neg hshorter, if_neg (hlt.not.mpr hshorter)]
        exact ih c hc fun e he => h e (List.mem_cons_of_mem _ he)

theorem foldl_mem {α : Type} (f : α → α → Bool) (c : α) (rest : List α) :
    rest.foldl (fun best d => if f best d then d else best) c ∈ c :: rest := by
  induction rest generalizing c with
  | nil => exact List.mem_singleton_self c
  | cons d rest ih =>
    rw [List.foldl_cons]
    by_cases h : f c d = true
    · rw [if_pos h]
      exact List.mem_cons_of_mem _ (ih d)
    · rw [if_neg h]
      rcases List.mem_cons.mp (ih c) with heq | hmem
      · rw [heq]
        exact List.mem_cons_self
      · exact List.mem_cons_of_mem _ (List.mem_cons_of_mem _ hmem)

theorem minElement_mem {cands : List PayloadCandidate} {best : PayloadCandidate}
    (h : minElement cands = some best) : best ∈ cands := by
  cases cands with
  | nil => exact absurd h (by simp [minElement])
  | cons c rest =>
    obtain rfl := Option.some.inj h
    simpa only [decide_eq_true_eq] using foldl_mem
      (fun best d => decide (d.size < best.size)) c rest

theorem smallest_mem {l : List Bytes} {b : Bytes} (h : smallest l = some b) : b ∈ l := by
  cases l with
  | nil => exact absurd h (by simp [smallest])
  | cons c rest =>
    obtain rfl := Option.some.inj h
    simpa only [decide_eq_true_eq] using foldl_mem
      (fun best d : Bytes => decide (d.length < best.length)) c rest

end Smallest

/-! ## Packing -/

section Packing

variable {fs : Files} {b : Bytes}

/-- What a packer does to a file with bytes `b`: it leaves the payload when it succeeds, and touches
only the file and a scratch file. -/
structure PackSpec (pack : String → Files → Bool × Files) (path scratch : String) (b : Bytes)
    (payload : Option Bytes) : Prop where
  done : ∀ fs, fs path = some b → (pack path fs).1 = true → (pack path fs).2 path = payload
  failed : ∀ fs, fs path = some b → (pack path fs).1 = false → payload = none
  frame : ∀ fs q, fs path = some b → q ≠ path → q ≠ scratch → (pack path fs).2 q = fs q

theorem legacyPacker_spec (s : LegacySteps) (path scratch : String) (b : Bytes) :
    PackSpec (packWithLegacyPacker s) path scratch b (legacyPayload s) where
  done fs h hok := by
    revert hok
    simp only [packWithLegacyPacker, h, legacyPayload]
    split_ifs <;> simp_all
  failed fs h hok := by
    revert hok
    simp only [packWithLegacyPacker, h, legacyPayload]
    split_ifs <;> simp_all
  frame fs q h hq _ := by
    simp only [packWithLegacyPacker, h]
    split_ifs
    · rfl
    all_goals exact put_of_ne _ _ hq

theorem ne_append (path : String) {tail : String} (h : tail ≠ "") : path ≠ path ++ tail :=
  fun heq => h (String.append_eq_left_iff.mp heq.symm)

theorem rename_put (ok : Bool) (out : Bytes) (tmp path : String) :
    rename ok tmp path (fs.put tmp (some out)) =
      if ok then (true, ((fs.put tmp (some out)).put path (some out)).unlink tmp)
      else (false, fs.put tmp (some out)) := by
  unfold rename
  rw [put_self]

theorem lz4Packer_spec (compress : Compress) (s : LZ4Steps) (path : String) (b : Bytes) :
    PackSpec (packFileWithLZ4 compress s) path (path ++ ".lz4.tmp") b
      (lz4Payload compress s b) where
  done fs h hok := by
    revert hok
    simp only [packFileWithLZ4, h, lz4Payload, rename_put]
    cases packWithLZ4 compress b with
    | none => split_ifs <;> simp
    | some out =>
      have hdone : (((fs.put (path ++ ".lz4.tmp") (some out)).put path (some out)).unlink
          (path ++ ".lz4.tmp")) path = some out := by
        rw [unlink_of_ne _ (ne_append path (by decide)), put_self]
      split_ifs <;> simp_all
  failed fs h hok := by
    revert hok
    simp only [packFileWithLZ4, h, lz4Payload, rename_put]
    cases packWithLZ4 compress b with
    | none => simp
    | some out => split_ifs <;> simp_all
  frame fs q h hq hscratch := by
    simp only [packFileWithLZ4, h, rename_put]
    cases packWithLZ4 compress b with
    | none => split_ifs <;> rfl
    | some out =>
      split_ifs
      · rfl
      · exact unlink_of_ne _ hscratch
      · exact (unlink_of_ne _ hscratch).trans ((put_of_ne _ _ hq).trans (put_of_ne _ _ hscratch))
      · contradiction
      · exact (unlink_of_ne _ hscratch).trans (put_of_ne _ _ hscratch)

/-- A copy of a file that is not empty succeeds when `cp` does. -/
theorem copyFileForCandidate_ok {o : CopyOutcome} {src dst : String} (hb : b ≠ [])
    (h : fs src = some b) :
    (copyFileForCandidate o src dst fs).1 = true ↔ o = .copied := by
  rw [copyFileForCandidate, Bool.and_eq_true, cp_ok h]
  refine ⟨And.left, fun ho => ⟨ho, decide_eq_true (fileSizeOf_pos.mpr ⟨b, ?_, hb⟩)⟩⟩
  rw [cp_target h, ho]
  rfl

/-- Without a checksum what is not empty is accepted. -/
theorem addVerified_some {cands : List PayloadCandidate} {path label : String} {p : Bytes}
    (h : fs path = some p) (hp : p ≠ []) :
    addVerifiedPayloadCandidate noChecksum cands path label fs =
      (true, cands ++ [⟨path, label, p.length⟩]) := by
  have hsize := fileSizeOf_some h
  have hpos : 0 < p.length := List.length_pos_iff.mpr hp
  rw [addVerifiedPayloadCandidate, if_neg (by omega),
    if_neg (fun h => Bool.false_ne_true h.1), hsize]

theorem addVerified_none {cands : List PayloadCandidate} {path label : String}
    (h : ∀ p, fs path = some p → p = []) :
    addVerifiedPayloadCandidate noChecksum cands path label fs = (false, cands) := by
  rw [addVerifiedPayloadCandidate, if_pos]
  by_contra hpos
  obtain ⟨p, hp, hne⟩ := fileSizeOf_pos.mp (not_le.mp hpos)
  exact hne (h p hp)

/-- **A packed candidate**: it is the payload offered, and only the copy and a scratch file are
touched. -/
theorem addPacked_spec {pack : String → Files → Bool × Files} {inputPath path scratch : String}
    {payload : Option Bytes} (hpack : PackSpec pack path scratch b payload) (o : CopyOutcome)
    (label : String) (cands : List PayloadCandidate) (hb : b ≠ []) (hin : fs inputPath = some b) :
    (addPacked noChecksum o pack inputPath path label cands fs).1 =
        cands ++ (offer o payload).toList.map (fun p => ⟨path, label, p.length⟩) ∧
      (∀ p ∈ offer o payload,
        (addPacked noChecksum o pack inputPath path label cands fs).2 path = some p) ∧
      ∀ q, q ≠ path → q ≠ scratch →
        (addPacked noChecksum o pack inputPath path label cands fs).2 q = fs q := by
  have hframe : ∀ q, q ≠ path → (copyFileForCandidate o inputPath path fs).2 q = fs q :=
    fun q hq => cp_frame o inputPath hq
  by_cases ho : o = .copied
  · have hok : (copyFileForCandidate o inputPath path fs).1 = true :=
      (copyFileForCandidate_ok hb hin).mpr ho
    have hcopy : (copyFileForCandidate o inputPath path fs).2 path = some b := by
      rw [copyFileForCandidate, cp_target hin, ho]
      rfl
    simp only [addPacked, hok, if_true]
    generalize (copyFileForCandidate o inputPath path fs).2 = fs₁ at hframe hcopy
    simp only [offer, if_pos ho]
    cases hpacked : (pack path fs₁).1 with
    | false =>
      rw [hpack.failed fs₁ hcopy hpacked]
      simp only [Bool.false_eq_true, if_false, Option.filter_none, Option.toList_none, List.map_nil,
        List.append_nil, reduceCtorEq, false_imp_iff, implies_true, true_and, Option.mem_def]
      exact fun q hq hs => (unlink_of_ne _ hq).trans
        ((hpack.frame fs₁ q hcopy hq hs).trans (hframe q hq))
    | true =>
      have hdone := hpack.done fs₁ hcopy hpacked
      have hkept : ∀ q, q ≠ path → q ≠ scratch → (pack path fs₁).2 q = fs q :=
        fun q hq hs => (hpack.frame fs₁ q hcopy hq hs).trans (hframe q hq)
      simp only [if_true]
      cases hoffer : payload.filter (· ≠ []) with
      | none =>
        rw [addVerified_none]
        · simp only [Bool.false_eq_true, if_false, Option.toList_none, List.map_nil,
            List.append_nil, reduceCtorEq, false_imp_iff, implies_true, true_and, Option.mem_def]
          exact fun q hq hs => (unlink_of_ne _ hq).trans (hkept q hq hs)
        · intro p hp
          by_contra hne
          rw [hdone.symm.trans hp] at hoffer
          simp [hne] at hoffer
      | some p =>
        obtain ⟨hp, hne⟩ := Option.filter_eq_some_iff.mp hoffer
        have hfile := hdone.trans hp
        rw [addVerified_some hfile (of_decide_eq_true hne)]
        refine ⟨rfl, fun p' hp' => ?_, hkept⟩
        obtain rfl := Option.some.inj hp'
        exact hfile
  · have hfail : (copyFileForCandidate o inputPath path fs).1 = false :=
      Bool.eq_false_iff.mpr fun h => ho ((copyFileForCandidate_ok hb hin).mp h)
    simp only [addPacked, hfail, Bool.false_eq_true, if_false, offer, if_neg ho, Option.toList_none,
      List.map_nil, List.append_nil, reduceCtorEq, false_imp_iff, implies_true, true_and,
        Option.mem_def]
    exact fun q hq _ => hframe q hq

end Packing

/-! ## Selection -/

section Selection

variable {fs fs' : Files} {cands : List PayloadCandidate} {payloads : List Bytes}

/-- The candidates hold the payloads, in this order. -/
def Offered (cands : List PayloadCandidate) (payloads : List Bytes) (fs : Files) : Prop :=
  cands.map (fun c => (fs c.path, c.size)) = payloads.map fun p => (some p, (p.length : Int))

theorem Offered.append {cands' : List PayloadCandidate} {payloads' : List Bytes}
    (h : Offered cands payloads fs) (h' : Offered cands' payloads' fs) :
    Offered (cands ++ cands') (payloads ++ payloads') fs := by
  rw [Offered, List.map_append, List.map_append, h, h']

theorem Offered.frame (h : Offered cands payloads fs)
    (hframe : ∀ c ∈ cands, fs' c.path = fs c.path) :
    Offered cands payloads fs' := by
  rw [Offered, ← h]
  exact List.map_congr_left fun c hc => by rw [hframe c hc]

theorem Offered.mem (h : Offered cands payloads fs) {c : PayloadCandidate} (hc : c ∈ cands) :
    ∃ p ∈ payloads, fs c.path = some p ∧ c.size = p.length := by
  have hmem := List.mem_map_of_mem (f := fun c : PayloadCandidate => (fs c.path, c.size)) hc
  rw [h] at hmem
  obtain ⟨p, hp, heq⟩ := List.mem_map.mp hmem
  exact ⟨p, hp, (congrArg Prod.fst heq).symm, (congrArg Prod.snd heq).symm⟩

/-- The candidate found holds the smallest payload. -/
theorem Offered.minElement (h : Offered cands payloads fs) :
    Offered (minElement cands).toList (smallest payloads).toList fs := by
  have hpayloads : payloads = cands.map fun c => (fs c.path).getD [] := by
    have hmap := congrArg (List.map fun x : Option Bytes × Int => x.1.getD []) h
    simpa only [List.map_map, Function.comp_def, Option.getD_some, List.map_id'] using hmap.symm
  have hsize : ∀ c ∈ cands, c.size = ((fs c.path).getD []).length := by
    intro c hc
    obtain ⟨p, -, hp, hsize⟩ := h.mem hc
    rw [hp, hsize]
    rfl
  have hmin := minElement_map (fun c => (fs c.path).getD []) hsize
  rw [← hpayloads] at hmin
  rw [← hmin]
  cases hbest : PostLink.minElement cands with
  | none => rfl
  | some best =>
    obtain ⟨p, -, hp, hsize⟩ := h.mem (minElement_mem hbest)
    simp [Offered, hp, hsize]

theorem Offered.best (h : Offered cands payloads fs) :
    (PostLink.minElement cands = none ∧ smallest payloads = none) ∨
      ∃ best p, PostLink.minElement cands = some best ∧ best ∈ cands ∧ smallest payloads = some p ∧
        fs best.path = some p ∧ best.size = p.length := by
  have hmin := h.minElement
  cases hbest : PostLink.minElement cands with
  | none =>
    rw [hbest] at hmin
    refine .inl ⟨rfl, ?_⟩
    cases hsmall : smallest payloads with
    | none => rfl
    | some p =>
      rw [hsmall] at hmin
      exact absurd hmin (by simp [Offered])
  | some best =>
    rw [hbest] at hmin
    obtain ⟨p, hp, hfile, hsize⟩ := hmin.mem (List.mem_singleton_self best)
    exact .inr ⟨best, p, rfl, minElement_mem hbest, Option.mem_toList.mp hp, hfile, hsize⟩

theorem unlinkOthers_eq (kept : List String) {q : String}
    (h : q ∈ kept ∨ ∀ c ∈ cands, c.path ≠ q) : unlinkOthers kept cands fs q = fs q := by
  rw [unlinkOthers]
  induction cands generalizing fs with
  | nil => rfl
  | cons c rest ih =>
    rw [List.foldl_cons, ih (h.imp_right fun hne d hd => hne d (List.mem_cons_of_mem _ hd))]
    split
    · rfl
    next hkept =>
      refine unlink_of_ne _ ?_
      rintro rfl
      rcases h with hq | hne
      · exact hkept hq
      · exact hne c List.mem_cons_self rfl

/-- The files that a selection packs. -/
def packedPaths (P : String) : List String := [P ++ ".legacy.tmp", P ++ ".lz4.tmp"]

/-- The files that a selection touches. -/
def touchedPaths (P : String) : List String := packedPaths P ++ [P ++ ".lz4.tmp" ++ ".lz4.tmp"]

theorem offered_packed {path : String} (label : String) {o : Option Bytes}
    (h : ∀ p ∈ o, fs path = some p) :
    Offered (o.toList.map fun p => ⟨path, label, p.length⟩) o.toList fs := by
  cases o with
  | none => rfl
  | some p => simp [Offered, h p rfl]

theorem path_of_packed {path label : String} {o : Option Bytes} {c : PayloadCandidate}
    (hc : c ∈ o.toList.map fun p => (⟨path, label, p.length⟩ : PayloadCandidate)) :
    c.path = path := by
  obtain ⟨p, -, rfl⟩ := List.mem_map.mp hc
  rfl

theorem packedPaths_ne (P : String) : P ++ ".legacy.tmp" ≠ P ++ ".lz4.tmp" ∧
    P ++ ".legacy.tmp" ≠ P ++ ".lz4.tmp" ++ ".lz4.tmp" := by
  refine ⟨fun h => absurd ((String.append_right_inj P).mp h) (by decide), fun h => ?_⟩
  rw [String.append_assoc] at h
  exact absurd ((String.append_right_inj P).mp h) (by decide)

theorem gatherCandidates_spec (compress : Compress) (s : PackSteps) {inputPath P : String}
    (hin : inputPath ∉ touchedPaths P) :
    Offered (gatherCandidates compress noChecksum s inputPath P fs).1
      (offers compress s (fs inputPath))
        (gatherCandidates compress noChecksum s inputPath P fs).2 ∧
      (∀ c ∈ (gatherCandidates compress noChecksum s inputPath P fs).1,
        c.path ∈ inputPath :: packedPaths P) ∧
      ∀ q ∉ touchedPaths P, (gatherCandidates compress noChecksum s inputPath P fs).2 q = fs q := by
  have hplain : ∀ c ∈ (addVerifiedPayloadCandidate noChecksum [] inputPath "plain" fs).2,
      c.path = inputPath := by
    intro c hc
    rw [addVerifiedPayloadCandidate] at hc
    split_ifs at hc
    · exact absurd hc List.not_mem_nil
    · exact absurd hc List.not_mem_nil
    · rw [List.mem_singleton.mp hc]
  cases hb : fs inputPath with
  | none =>
    have hsize : fileSizeOf fs inputPath = -1 := by rw [fileSizeOf, hb]
    simp only [gatherCandidates, addVerifiedPayloadCandidate, hsize]
    exact ⟨rfl, fun c hc => absurd hc List.not_mem_nil, fun _ _ => rfl⟩
  | some b =>
    have hsize := fileSizeOf_some hb
    have hbase : Offered (addVerifiedPayloadCandidate noChecksum [] inputPath "plain" fs).2
        ([b].filter (· ≠ [])) fs := by
      by_cases hempty : b = []
      · rw [addVerified_none fun p hp => (Option.some.inj (hb.symm.trans hp)).symm.trans
          hempty, hempty]
        rfl
      · rw [addVerified_some hb hempty]
        simp [Offered, hb, hempty]
    simp only [gatherCandidates, hsize, offers]
    by_cases hlarge : 50000 < b.length
    · rw [if_pos (by exact_mod_cast hlarge), if_pos hlarge]
      have hne : b ≠ [] := by
        rintro rfl
        exact absurd hlarge (by decide)
      generalize (addVerifiedPayloadCandidate noChecksum [] inputPath "plain" fs).2 =
        plain at hplain hbase
      obtain ⟨hcands, hfile, hframe⟩ := addPacked_spec
        (legacyPacker_spec s.legacy (P ++ ".legacy.tmp") (P ++ ".legacy.tmp") b)
          s.legacyCopy "legacy"
        plain hne hb
      generalize addPacked noChecksum s.legacyCopy (packWithLegacyPacker s.legacy) inputPath
        (P ++ ".legacy.tmp") "legacy" plain fs = legacy at hcands hfile hframe ⊢
      simp only [touchedPaths, packedPaths, List.mem_append, List.mem_cons,
        List.not_mem_nil, or_false,
        not_or] at hin ⊢
      obtain ⟨⟨hinLegacy, hinLz4⟩, hinScratch⟩ := hin
      obtain ⟨hnames, hnames'⟩ := packedPaths_ne P
      have hbLegacy : legacy.2 inputPath = some b := (hframe _ hinLegacy hinLegacy).trans hb
      obtain ⟨hcands', hfile', hframe'⟩ := addPacked_spec
        (lz4Packer_spec compress s.lz4 (P ++ ".lz4.tmp") b) s.lz4Copy "lz4" legacy.1 hne hbLegacy
      generalize addPacked noChecksum s.lz4Copy (packFileWithLZ4 compress s.lz4) inputPath
        (P ++ ".lz4.tmp") "lz4" legacy.1 legacy.2 = lz4 at hcands' hfile' hframe' ⊢
      rw [hcands', hcands]
      have hofferedLegacy := (hbase.frame fun c hc => by
        rw [hplain c hc]
        exact hframe _ hinLegacy hinLegacy).append (offered_packed "legacy" hfile)
      have hpaths : ∀ c ∈ plain ++ (offer s.legacyCopy (legacyPayload s.legacy)).toList.map
          (fun p => (⟨P ++ ".legacy.tmp", "legacy", p.length⟩ : PayloadCandidate)),
          c.path = inputPath ∨ c.path = P ++ ".legacy.tmp" :=
        fun c hc => (List.mem_append.mp hc).imp (hplain c) path_of_packed
      refine ⟨?_, ?_, ?_⟩
      · rw [← List.append_assoc]
        refine (hofferedLegacy.frame fun c hc => ?_).append (offered_packed "lz4" hfile')
        rcases hpaths c hc with hpath | hpath
        · rw [hpath]
          exact hframe' _ hinLz4 hinScratch
        · rw [hpath]
          exact hframe' _ hnames hnames'
      · intro c hc
        rcases List.mem_append.mp hc with hc | hc
        · exact (hpaths c hc).imp_right .inl
        · exact .inr (.inr (path_of_packed hc))
      · rintro q ⟨⟨hqLegacy, hqLz4⟩, hqScratch⟩
        exact (hframe' q hqLz4 hqScratch).trans (hframe q hqLegacy hqLegacy)
    · rw [if_neg (by exact_mod_cast hlarge), if_neg hlarge, List.append_nil]
      exact ⟨hbase, fun c hc => List.mem_cons.mpr (.inl (hplain c hc)), fun _ _ => rfl⟩

/-- **The best payload**: the candidate selected holds the smallest payload offered, and only the
copies that were packed are touched. -/
theorem selectBest_spec (compress : Compress) (s : PackSteps) {inputPath objPath lbl P : String}
    (hP : objPath ++ ".cand." ++ sanitizePathTag (if lbl = "" then "none" else lbl) = P)
    (hin : inputPath ∉ touchedPaths P) :
    Offered (selectBestPayloadCandidate compress noChecksum s inputPath objPath lbl fs).1.toList
        (smallest (offers compress s (fs inputPath))).toList
        (selectBestPayloadCandidate compress noChecksum s inputPath objPath lbl fs).2 ∧
      (∀ best ∈ (selectBestPayloadCandidate compress noChecksum s inputPath objPath lbl fs).1,
        best.path ∈ inputPath :: packedPaths P) ∧
      ∀ q ∉ touchedPaths P,
        (selectBestPayloadCandidate compress noChecksum s inputPath objPath lbl fs).2 q = fs q := by
  obtain ⟨hoffered, hpaths, hframe⟩ := gatherCandidates_spec compress s hin
  have hbest := hoffered.minElement
  simp only [selectBestPayloadCandidate, hP]
  generalize gatherCandidates compress noChecksum s inputPath P fs = all at hpaths hframe hbest
  cases hmin : PostLink.minElement all.1 with
  | none =>
    rw [hmin] at hbest
    exact ⟨hbest, fun best h => absurd h (by simp), hframe⟩
  | some best =>
    rw [hmin] at hbest
    refine ⟨hbest.frame fun c hc => ?_, fun c hc => ?_, fun q hq => ?_⟩
    · obtain rfl := List.mem_singleton.mp hc
      exact unlinkOthers_eq _ (.inl List.mem_cons_self)
    · obtain rfl := Option.some.inj hc
      exact hpaths _ (minElement_mem hmin)
    · refine (unlinkOthers_eq _ ?_).trans (hframe q hq)
      by_cases hq' : q = inputPath
      · exact .inl (by simp [hq'])
      · refine .inr fun c hc => ?_
        rintro rfl
        rcases List.mem_cons.mp (hpaths c hc) with heq | hmem
        · exact hq' heq
        · exact hq (List.mem_append_left _ hmem)

end Selection

/-! ## Installation -/

section Installation

variable {fs : Files}

theorem offers_ne_nil {compress : Compress} {s : PackSteps} {input : Option Bytes} {p : Bytes}
    (h : p ∈ offers compress s input) : p ≠ [] := by
  have hoffer : ∀ {o : CopyOutcome} {payload : Option Bytes}, p ∈ (offer o payload).toList →
    p ≠ [] := by
    intro o payload hp
    rw [Option.mem_toList, offer] at hp
    split at hp
    · exact of_decide_eq_true (Option.filter_eq_some_iff.mp hp).2
    · exact absurd hp (by simp)
  unfold offers at h
  split at h
  · exact absurd h List.not_mem_nil
  · rcases List.mem_append.mp h with h | h
    · exact of_decide_eq_true (List.mem_filter.mp h).2
    · split at h
      · exact (List.mem_append.mp h).elim hoffer hoffer
      · exact absurd h List.not_mem_nil

theorem self_eq_append {o tail : String} : o = o ++ tail ↔ tail = "" :=
  eq_comm.trans String.append_eq_left_iff

theorem addSizeCandidates_spec (compress : Compress) (s : PackSteps) {objPath : String}
    (input : String)
    {source P : String} (cands : List PayloadCandidate)
    (hP : objPath ++ ".cand." ++ sanitizePathTag
      (if "no-oracle-" ++ source = "" then "none" else "no-oracle-" ++ source) = P)
    (hin : input ∉ touchedPaths P) :
    ∃ new, (addSizeCandidates compress s objPath input source cands fs).1 = cands ++ new ∧
      Offered new (smallest (offers compress s (fs input))).toList
        (addSizeCandidates compress s objPath input source cands fs).2 ∧
      (∀ c ∈ new, c.path ∈ input :: packedPaths P) ∧
      ∀ q ∉ touchedPaths P, (addSizeCandidates compress s objPath input source cands fs).2
        q = fs q := by
  obtain ⟨hoffered, hpaths, hframe⟩ := selectBest_spec compress s hP hin
  simp only [addSizeCandidates]
  generalize selectBestPayloadCandidate compress noChecksum s input objPath
    ("no-oracle-" ++ source) fs = r
    at hoffered hpaths hframe
  cases hr : r.1 with
  | none =>
    rw [hr] at hoffered
    exact ⟨[], (List.append_nil _).symm, hoffered, fun c hc => absurd hc List.not_mem_nil, hframe⟩
  | some best =>
    rw [hr] at hoffered
    obtain ⟨p, hp, hfile, hsize⟩ := hoffered.mem (List.mem_singleton_self best)
    refine ⟨_, rfl, ?_, fun c hc => ?_, hframe⟩
    · have heq : [(r.2 best.path, best.size)] = _ := hoffered
      rw [Offered, ← heq, List.map_singleton, fileSizeOf_some hfile, hsize]
    · obtain rfl := List.mem_singleton.mp hc
      exact hpaths best hr

/-- A file that is removed unless it is the one kept. -/
theorem unlinkUnless_eq {best o q : String} {b c : Option Bytes} (hq : q ≠ o) (hbest : fs best = b)
    (ho : fs o = c) : (if q = best then fs else fs.unlink q) best = b ∧
      (if q = best then fs else fs.unlink q) o = c := by
  split
  · exact ⟨hbest, ho⟩
  next hother => exact ⟨(unlink_of_ne _ (Ne.symm hother)).trans hbest,
    (unlink_of_ne _ hq.symm).trans ho⟩

theorem smallest_mem_offers {compress : Compress} {s : PackSteps} {input : Option Bytes} {p : Bytes}
    (h : p ∈ (smallest (offers compress s input)).toList) : p ∈ offers compress s input :=
  smallest_mem (Option.mem_toList.mp h)

/-- The guard before the last copy: the payload has to be shorter than the image. -/
theorem installGuard {best : PayloadCandidate} {p image : Bytes} (hsize : best.size = p.length)
    (hp : p ≠ []) (hne : image ≠ []) :
    ((some best).filter fun best => decide ((0 : Int) < image.length) && decide (0 < best.size) &&
        decide (best.size < (image.length : Int))) =
      if p.length < image.length then some best else none := by
  have hp' : 0 < p.length := List.length_pos_iff.mpr hp
  have hpositive : 0 < image.length := List.length_pos_iff.mpr hne
  split
  · next hshorter =>
    rw [Option.filter_some, if_pos]
    rw [hsize, Bool.and_eq_true, Bool.and_eq_true]
    exact ⟨⟨decide_eq_true (by omega), decide_eq_true (by omega)⟩, decide_eq_true (by omega)⟩
  · next hshorter =>
    rw [Option.filter_some, if_neg]
    rw [hsize, Bool.and_eq_true, not_and]
    exact fun _ h => hshorter (Int.ofNat_lt.mp (of_decide_eq_true h))

section Copies

variable {w : World} {objPath : String} {cands : List PayloadCandidate}

/-- The last copy when no payload is installed. -/
theorem restored {image : Bytes} (hout : ∀ c ∈ cands, c.path ≠ objPath)
    (himage : fs (objPath ++ ".prebolt") = some image) :
    (copyFileForCandidate w.install (objPath ++ ".prebolt") objPath
      (((unlinkOthers [objPath ++ ".prebolt"] cands fs).unlink (objPath ++ ".opt.out")).unlink
        (objPath ++ ".bolt.aligned.tmp"))).2 objPath = w.install.result image (fs objPath) := by
  rw [copyFileForCandidate, cp_target (b := image)]
  · rw [unlink_of_ne _ (by simp [self_eq_append]), unlink_of_ne _ (by simp [self_eq_append]),
      unlinkOthers_eq _ (.inr hout)]
  · rw [unlink_of_ne _ (by simp), unlink_of_ne _ (by simp),
      unlinkOthers_eq _ (.inl (List.mem_singleton_self _)), himage]

/-- The last copy when the payload of `best` is installed. -/
theorem installed {best : PayloadCandidate} {p : Bytes} (hout : ∀ c ∈ cands, c.path ≠ objPath)
    (hbest : best.path ≠ objPath) (hfile : fs best.path = some p) :
    let others := unlinkOthers [best.path] cands fs
    let noRaw := if objPath ++ ".opt.out" =
      best.path then others else others.unlink (objPath ++ ".opt.out")
    let noAligned := if objPath ++ ".bolt.aligned.tmp" = best.path then noRaw
      else noRaw.unlink (objPath ++ ".bolt.aligned.tmp")
    let copied := (copyFileForCandidate w.install best.path objPath noAligned).2
    (if best.path = objPath ++ ".prebolt" then copied else copied.unlink best.path) objPath =
      w.install.result p (fs objPath) := by
  have hinstall : ∀ fs' : Files, fs' best.path = some p → fs' objPath = fs objPath →
      (copyFileForCandidate w.install best.path objPath fs').2 objPath =
        w.install.result p (fs objPath) := by
    intro fs' hp' hold'
    rw [copyFileForCandidate, cp_target hp', hold']
  have hothers : unlinkOthers [best.path] cands fs best.path = some p :=
    (unlinkOthers_eq _ (.inl (List.mem_singleton_self _))).trans hfile
  have hothers' : unlinkOthers [best.path] cands fs objPath = fs objPath :=
    unlinkOthers_eq _ (.inr hout)
  obtain ⟨hraw, hraw'⟩ := unlinkUnless_eq (q := objPath ++ ".opt.out") (by simp) hothers hothers'
  obtain ⟨haligned, haligned'⟩ :=
    unlinkUnless_eq (q := objPath ++ ".bolt.aligned.tmp") (by simp) hraw hraw'
  simp only
  split
  · exact hinstall _ haligned haligned'
  · exact (unlink_of_ne _ hbest.symm).trans (hinstall _ haligned haligned')

end Copies

/-- **Installation**: the last copy is of the payload selected when it is shorter than the image,
and else of the image. -/
theorem selectAndInstall_spec (compress : Compress) (w : World) (objPath : String) {image : Bytes}
    (hne : image ≠ []) (himage : fs (objPath ++ ".prebolt") = some image) :
    selectAndInstall compress w objPath (objPath ++ ".opt.out") (objPath ++ ".bolt.aligned.tmp")
      fs objPath =
      w.install.result (((smallest
          ((smallest (offers compress w.packBolt (fs (objPath ++ ".bolt.aligned.tmp")))).toList ++
            (smallest (offers compress w.packPrebolt (some image))).toList)).filter
          (·.length < image.length)).getD image) (fs objPath) := by
  have htag : objPath ++ ".cand." ++ sanitizePathTag
      (if "no-oracle-" ++ "bolt" = "" then "none" else "no-oracle-" ++ "bolt") =
      objPath ++ ".cand.no-oracle-bolt" := by
    rw [String.append_assoc]
    exact congrArg (objPath ++ ·) (by decide)
  have htag' : objPath ++ ".cand." ++ sanitizePathTag
      (if "no-oracle-" ++ "prebolt" = "" then "none" else "no-oracle-" ++ "prebolt") =
      objPath ++ ".cand.no-oracle-prebolt" := by
    rw [String.append_assoc]
    exact congrArg (objPath ++ ·) (by decide)
  obtain ⟨new, hcands, hoffered, hpaths, hframe⟩ := addSizeCandidates_spec compress w.packBolt
    (objPath ++ ".bolt.aligned.tmp") [] htag (by
      simp [touchedPaths, packedPaths, String.append_assoc])
  simp only [selectAndInstall]
  generalize addSizeCandidates compress w.packBolt objPath (objPath ++ ".bolt.aligned.tmp")
    "bolt" [] fs =
    bolt at hcands hoffered hframe ⊢
  have himage' : bolt.2 (objPath ++ ".prebolt") = some image := (hframe _ (by
    simp [touchedPaths, packedPaths, String.append_assoc])).trans himage
  obtain ⟨new', hcands', hoffered', hpaths', hframe'⟩ := addSizeCandidates_spec compress
    w.packPrebolt (objPath ++ ".prebolt") bolt.1 htag' (by
      simp [touchedPaths, packedPaths, String.append_assoc])
  generalize addSizeCandidates compress w.packPrebolt objPath (objPath ++ ".prebolt")
    "prebolt" bolt.1
    bolt.2 = all at hcands' hoffered' hframe' ⊢
  rw [himage'] at hoffered'
  -- Where the candidates are: none at the output path, and those of BOLT not among the second ones.
  have hplaces : ∀ c ∈ new, c.path ≠ objPath ∧
    c.path ∉ touchedPaths (objPath ++ ".cand.no-oracle-prebolt") := by
    intro c hc
    have hpath := hpaths c hc
    simp only [packedPaths, List.mem_cons, List.not_mem_nil, or_false] at hpath
    rcases hpath with h | h | h <;> rw [h] <;>
      simp [touchedPaths, packedPaths, String.append_assoc]
  have hplaces' : ∀ c ∈ new', c.path ≠ objPath := by
    intro c hc
    have hpath := hpaths' c hc
    simp only [packedPaths, List.mem_cons, List.not_mem_nil, or_false] at hpath
    rcases hpath with h | h | h <;> rw [h] <;> simp [String.append_assoc]
  have hout : ∀ c ∈ all.1, c.path ≠ objPath := by
    intro c hc
    rw [hcands', hcands, List.nil_append] at hc
    exact (List.mem_append.mp hc).elim (fun h => (hplaces c h).1) (hplaces' c)
  have hall := (hoffered.frame fun c hc => hframe' _ (hplaces c hc).2).append hoffered'
  rw [show new ++ new' = all.1 by rw [hcands', hcands, List.nil_append]] at hall
  have himage'' : all.2 (objPath ++ ".prebolt") = some image := (hframe' _ (by
    simp [touchedPaths, packedPaths, String.append_assoc])).trans himage'
  have hold : all.2 objPath = fs objPath := by
    rw [hframe' objPath (by simp [touchedPaths, packedPaths, String.append_assoc, self_eq_append]),
      hframe objPath (by simp [touchedPaths, packedPaths, String.append_assoc, self_eq_append])]
  have hsmall : ∀ p ∈ (smallest (offers compress w.packBolt
    (fs (objPath ++ ".bolt.aligned.tmp")))).toList ++
      (smallest (offers compress w.packPrebolt (some image))).toList, p ≠ [] := fun p hp =>
    (List.mem_append.mp hp).elim (fun h => offers_ne_nil (smallest_mem_offers h))
      fun h => offers_ne_nil (smallest_mem_offers h)
  generalize (smallest (offers compress w.packBolt (fs (objPath ++ ".bolt.aligned.tmp")))).toList ++
      (smallest (offers compress w.packPrebolt (some image))).toList = payloads at hall hsmall ⊢
  rw [fileSizeOf_some himage'']
  have hrestore := restored (w := w) hout himage''
  rw [hold] at hrestore
  rcases hall.best with ⟨hmin, hsmallest⟩ | ⟨best, p, hmin, hmem, hsmallest, hfile, hsize⟩
  · rw [hmin, hsmallest]
    exact hrestore
  · have hguard := installGuard hsize (hsmall p (smallest_mem hsmallest)) hne
    rw [hmin, hsmallest]
    by_cases hshorter : p.length < image.length
    · have hguard' : (some p).filter (fun q => decide (q.length < image.length)) = some p := by
        rw [Option.filter_some, if_pos (decide_eq_true hshorter)]
      rw [if_pos hshorter] at hguard
      simp only [hguard, hguard', Option.getD_some]
      rw [← hold]
      exact installed hout (hout best hmem) hfile
    · have hguard' : (some p).filter (fun q => decide (q.length < image.length)) = none := by
        rw [Option.filter_some, if_neg (by simpa using hshorter)]
      rw [if_neg hshorter] at hguard
      simp only [hguard, hguard', Option.getD_none]
      exact hrestore

end Installation

/-! ## The output -/

section Output

variable {compress : Compress} {w : World} {image : Bytes}

/-- What the last copy is of. -/
def target (compress : Compress) (w : World) (image : Bytes) : Bytes :=
  ((chosen compress w image).filter (·.length < image.length)).getD image

theorem chosen_ne_nil {p : Bytes} (h : chosen compress w image = some p) : p ≠ [] := by
  rw [chosen] at h
  split at h
  · exact (List.mem_append.mp (smallest_mem h)).elim
      (fun h => offers_ne_nil (smallest_mem_offers h))
      fun h => offers_ne_nil (smallest_mem_offers h)
  · exact absurd h (by simp)

theorem target_cases (compress : Compress) (w : World) (image : Bytes) :
    (target compress w image = image ∧
        ∀ p, chosen compress w image = some p → ¬ p.length < image.length) ∨
      chosen compress w image = some (target compress w image) ∧
        (target compress w image).length < image.length := by
  cases hchosen : chosen compress w image with
  | none => exact .inl ⟨by rw [target, hchosen]; rfl, fun p hp => absurd hp (by simp)⟩
  | some p =>
    by_cases hshorter : p.length < image.length
    · have htarget : target compress w image = p := by
        rw [target, hchosen, Option.filter_some, if_pos (decide_eq_true hshorter)]
        rfl
      exact .inr ⟨by rw [htarget], by rwa [htarget]⟩
    · refine .inl ⟨?_, fun q hq => by rwa [← Option.some.inj hq]⟩
      rw [target, hchosen, Option.filter_some, if_neg (by simpa using hshorter)]
      rfl

theorem intact_target : Intact compress w image (some (target compress w image)) := by
  rcases target_cases compress w image with ⟨h, -⟩ | ⟨h, hshorter⟩
  · exact .inl (by rw [h])
  · exact .inr ⟨_, h, hshorter, rfl⟩

/-- What is shorter than the target is neither the image nor the payload selected. -/
theorem not_intact_of_shorter {t : Bytes} (h : t.length < (target compress w image).length) :
    ¬ Intact compress w image (some t) := by
  rcases target_cases compress w image with ⟨htarget, hnone⟩ | ⟨hchosen, hshorter⟩
  · rw [htarget] at h
    rintro (heq | ⟨p, hp, hlt, -⟩)
    · obtain rfl := Option.some.inj heq
      exact lt_irrefl _ h
    · exact hnone p hp hlt
  · rintro (heq | ⟨p, hp, -, heq⟩)
    · obtain rfl := Option.some.inj heq
      exact lt_asymm h hshorter
    · obtain rfl := Option.some.inj heq
      rw [hp] at hchosen
      rw [← Option.some.inj hchosen] at h
      exact lt_irrefl _ h

/-- **The last copy**: it leaves the output intact when it is complete, and else when it does not
touch an output that is intact. -/
theorem intact_result (hne : image ≠ []) (o : CopyOutcome) (old : Option Bytes) :
    Intact compress w image (o.result (target compress w image) old) ↔
      o.complete ∨ o = .untouched ∧ Intact compress w image old := by
  have hpos : 0 < (target compress w image).length := by
    rcases target_cases compress w image with ⟨h, -⟩ | ⟨h, -⟩
    · rw [h]
      exact List.length_pos_iff.mpr hne
    · exact List.length_pos_iff.mpr (chosen_ne_nil h)
  cases o with
  | copied => exact iff_of_true intact_target (.inl (.inl rfl))
  | untouched => simp [CopyOutcome.result, CopyOutcome.complete]
  | cut missing =>
    by_cases hmissing : missing = 0
    · subst hmissing
      refine iff_of_true ?_ (.inl (.inr rfl))
      rw [CopyOutcome.result, Nat.sub_zero, List.take_length]
      exact intact_target
    · refine iff_of_false (not_intact_of_shorter ?_) (by simp [CopyOutcome.complete, hmissing])
      rw [List.length_take]
      omega

/-- The image is replaced by what `objcopy` makes of it. -/
def Normalizes (w : World) (normalized : Bytes) : Prop :=
  w.backup = .copied ∧ w.normalize.ok = true ∧ w.normalize.output = some normalized ∧
    w.rename = true

/-- What is at the output path when BOLT has run: its log, when that is the name of the output. -/
def leftover (w : World) (objPath : String) (normalized : Bytes) : Bytes :=
  if objPath = "bolt.log" then w.log.getD normalized else normalized

theorem prebolt_ne_log (objPath : String) : objPath ++ ".prebolt" ≠ "bolt.log" := by
  intro h
  have hlength := congrArg String.length h
  rw [String.length_append, show ".prebolt".length = 8 by decide,
    show "bolt.log".length = 8 by decide] at hlength
  obtain rfl : objPath = "" := String.length_eq_zero_iff.mp (by omega)
  exact absurd h (by decide)

theorem boltOnce_spec {fs : Files} {objPath : String} {normalized : Bytes}
    (hobj : fs objPath = some normalized) (himage : fs (objPath ++ ".prebolt") = some image) :
    (boltOnce w objPath fs).2 objPath = some (leftover w objPath normalized) ∧
      (boltOnce w objPath fs).2 (objPath ++ ".prebolt") = some image ∧
      (bolted w = true → (boltOnce w objPath fs).2 (objPath ++ ".bolt.aligned.tmp") =
        w.align.output) ∧
      (boltOnce w objPath fs).1 =
        if bolted w then some (objPath ++ ".opt.out", objPath ++ ".bolt.aligned.tmp")
          else none := by
  have hlogged : (if w.log.isSome then fs.put "bolt.log" w.log else fs) objPath =
      some (leftover w objPath normalized) := by
    rw [leftover]
    cases hlog : w.log with
    | none => simpa using hobj
    | some b =>
      by_cases hpath : objPath = "bolt.log"
      · simp [hpath]
      · simp [hpath, put_of_ne _ _ hpath, hobj]
  have hlogged' : (if w.log.isSome then fs.put "bolt.log" w.log else fs) (objPath ++ ".prebolt") =
      some image := by
    split
    · exact (put_of_ne _ _ (prebolt_ne_log objPath)).trans himage
    · exact himage
  simp only [boltOnce]
  generalize (if w.log.isSome then fs.put "bolt.log" w.log else fs) = logged at hlogged hlogged'
  have hraw : 0 < fileSizeOf (logged.put (objPath ++ ".opt.out") w.bolt.output)
    (objPath ++ ".opt.out") ↔
      w.bolt.output.any (!·.isEmpty) = true := by
    rw [fileSizeOf_pos, put_self]
    cases w.bolt.output <;> simp
  have hobj' : ∀ fs' : Files, ∀ tail b, tail ≠ "" →
    fs' objPath = some (leftover w objPath normalized) →
      fs'.put (objPath ++ tail) b objPath = some (leftover w objPath normalized) :=
    fun fs' tail b htail h => (put_of_ne _ _ (ne_append objPath htail)).trans h
  have himage' : ∀ fs' : Files, ∀ tail b, tail ≠ ".prebolt" →
    fs' (objPath ++ ".prebolt") = some image →
      fs'.put (objPath ++ tail) b (objPath ++ ".prebolt") = some image :=
    fun fs' tail b htail h =>
      (put_of_ne _ _ fun heq => htail ((String.append_right_inj objPath).mp heq).symm).trans h
  by_cases hbolt : w.bolt.ok = true ∧ w.bolt.output.any (!·.isEmpty) = true
  · rw [if_neg (by simp [hbolt.1, hraw.mpr hbolt.2])]
    have hbolted : bolted w = w.align.ok := by rw [bolted, hbolt.1, hbolt.2, Bool.and_self,
      Bool.true_and]
    rw [hbolted]
    have halignedObj := hobj' _ ".bolt.aligned.tmp" w.align.output (by decide)
      (hobj' logged ".opt.out" w.bolt.output (by decide) hlogged)
    have halignedImage := himage' _ ".bolt.aligned.tmp" w.align.output (by decide)
      (himage' logged ".opt.out" w.bolt.output (by decide) hlogged')
    cases w.align.ok with
    | false => exact ⟨halignedObj, halignedImage, fun h => absurd h Bool.false_ne_true, rfl⟩
    | true => exact ⟨halignedObj, halignedImage, fun _ => put_self .., rfl⟩
  · have hfail : bolted w = false := Bool.eq_false_iff.mpr fun h => by
      rw [bolted, Bool.and_eq_true, Bool.and_eq_true] at h
      exact hbolt h.1
    rw [if_pos, hfail]
    · exact ⟨hobj' _ _ _ (by decide) hlogged, himage' _ _ _ (by decide) hlogged',
        fun h => absurd h Bool.false_ne_true, rfl⟩
    · rw [Bool.or_eq_true]
      rcases not_and_or.mp hbolt with hrc | hempty
      · exact .inl (by simpa using hrc)
      · exact .inr (decide_eq_true (not_lt.mp (hraw.not.mpr hempty)))

/-- Where normalisation does not go through, the image stays. -/
theorem runBoltAndPack_unnormalized (compress : Compress) {objPath : String} {fs : Files}
    (himage : fs objPath = some image) (hnormalizes : ¬ ∃ n, Normalizes w n) :
    runBoltAndPack compress w objPath fs objPath = some image := by
  have hbackup : (cp w.backup objPath (objPath ++ ".prebolt") fs).2 objPath = some image :=
    (cp_frame _ _ (ne_append objPath (by decide))).trans himage
  by_cases hcopied : w.backup = .copied
  swap
  · have hfail : (cp w.backup objPath (objPath ++ ".prebolt") fs).1 = false :=
      Bool.eq_false_iff.mpr fun h => hcopied ((cp_ok himage).mp h)
    simp only [runBoltAndPack, hfail, Bool.not_false, if_true, hbackup]
  have hok := (cp_ok (p := objPath ++ ".prebolt") himage).mpr hcopied
  simp only [runBoltAndPack, hok, Bool.not_true, Bool.false_eq_true, if_false]
  generalize (cp w.backup objPath (objPath ++ ".prebolt") fs).2 = saved at hbackup
  have hother := ne_append objPath (show ".prebolt.normalized.tmp" ≠ "" by decide)
  have hwritten : saved.put (objPath ++ ".prebolt.normalized.tmp") w.normalize.output objPath =
    some image :=
    (put_of_ne _ _ hother).trans hbackup
  cases hrc : w.normalize.ok with
  | false =>
    simp only [Bool.false_eq_true, if_false, Bool.not_false, if_true]
    exact (unlink_of_ne _ hother).trans hwritten
  | true =>
    cases houtput : w.normalize.output with
    | none =>
      rw [houtput] at hwritten
      simp only [if_true, rename, put_self, Bool.not_false]
      exact (unlink_of_ne _ hother).trans hwritten
    | some n =>
      have hrename : w.rename = false :=
        Bool.eq_false_iff.mpr fun h => hnormalizes ⟨n, hcopied, hrc, houtput, h⟩
      rw [houtput] at hwritten
      simp only [if_true, rename_put, hrename, Bool.false_eq_true, if_false, Bool.not_false]
      exact (unlink_of_ne _ hother).trans hwritten

/-- Where it does, the last copy decides. -/
theorem runBoltAndPack_normalized (compress : Compress) {objPath : String} {fs : Files} {n : Bytes}
    (himage : fs objPath = some image) (hn : Normalizes w n) :
    Intact compress w image (runBoltAndPack compress w objPath fs objPath) ↔
      if image = [] then n = []
      else w.install.complete ∨
        w.install = .untouched ∧ Intact compress w image (some (leftover w objPath n)) := by
  have hok := (cp_ok (p := objPath ++ ".prebolt") himage).mpr hn.1
  have hsaved : (cp w.backup objPath (objPath ++ ".prebolt") fs).2 (objPath ++ ".prebolt") =
    some image := by
    rw [cp_target himage, hn.1]
    rfl
  simp only [runBoltAndPack, hok, Bool.not_true, Bool.false_eq_true, if_false]
  generalize (cp w.backup objPath (objPath ++ ".prebolt") fs).2 = saved at hsaved
  obtain ⟨-, hnormalized, houtput, hrename⟩ := hn
  have hkeep : ∀ tail, tail ≠ ".prebolt.normalized.tmp" → tail ≠ "" → ∀ b b',
      (((saved.put (objPath ++ ".prebolt.normalized.tmp") b).put objPath b').unlink
        (objPath ++ ".prebolt.normalized.tmp")) (objPath ++ tail) = saved (objPath ++ tail) := by
    intro tail htail hempty b b'
    have hother : objPath ++ tail ≠ objPath ++ ".prebolt.normalized.tmp" :=
      fun h => htail ((String.append_right_inj objPath).mp h)
    exact (unlink_of_ne _ hother).trans ((put_of_ne _ _ (ne_append objPath hempty).symm).trans
      (put_of_ne _ _ hother))
  simp only [hnormalized, houtput, hrename, if_true, rename_put, Bool.not_true,
    Bool.false_eq_true, if_false]
  have hobj : (((saved.put (objPath ++ ".prebolt.normalized.tmp") (some n)).put objPath
    (some n)).unlink
        (objPath ++ ".prebolt.normalized.tmp")) objPath = some n := by
    rw [unlink_of_ne _ (ne_append objPath (by decide)), put_self]
  have hprebolt := (hkeep ".prebolt" (by decide) (by decide) (some n) (some n)).trans hsaved
  generalize (((saved.put (objPath ++ ".prebolt.normalized.tmp") (some n)).put objPath
    (some n)).unlink
        (objPath ++ ".prebolt.normalized.tmp")) = renamed at hobj hprebolt
  rw [fileSizeOf_some hprebolt]
  by_cases hempty : image = []
  · subst hempty
    rw [if_pos (by simp), if_pos rfl, hobj]
    refine ⟨?_, fun h => .inl (by rw [h])⟩
    rintro (h | ⟨p, -, hp, -⟩)
    · exact Option.some.inj h
    · exact absurd hp (Nat.not_lt_zero _)
  · have hpos : 0 < image.length := List.length_pos_iff.mpr hempty
    rw [if_neg (by omega), if_neg hempty, ← intact_result hempty]
    obtain ⟨hleft, hbackup', haligned, hresult⟩ := boltOnce_spec (w := w) hobj hprebolt
    rw [hresult]
    cases hbolted : bolted w with
    | false =>
      have htarget : target compress w image = image := by
        rw [target, chosen, hbolted]
        rfl
      simp only [Bool.false_eq_true, if_false]
      rw [copyFileForCandidate, cp_target hbackup', hleft, htarget]
    | true =>
      simp only [if_true]
      rw [selectAndInstall_spec compress w objPath hempty hbackup', haligned hbolted, hleft,
        target, chosen,
        if_pos hbolted]

/-- **The output path**: when the run returns, the image as it was is there, or the smaller payload
that was selected, exactly when normalisation does not go through, or the last copy is complete, or
it leaves alone an output that is intact. -/
theorem runBoltAndPack_iff (compress : Compress) (w : World) (objPath : String) (fs : Files)
    (image : Bytes)
    (himage : fs objPath = some image) :
    Intact compress w image (runBoltAndPack compress w objPath fs objPath) ↔
      ∀ normalized, Normalizes w normalized →
        if image = [] then normalized = []
        else w.install.complete ∨
          w.install = .untouched ∧ Intact compress w image
            (some (leftover w objPath normalized)) := by
  by_cases hnormalizes : ∃ n, Normalizes w n
  · obtain ⟨n, hn⟩ := hnormalizes
    rw [runBoltAndPack_normalized compress himage hn]
    refine ⟨fun h n' hn' => ?_, fun h => h n hn⟩
    have hunique : n' = n := Option.some.inj (hn'.2.2.1.symm.trans hn.2.2.1)
    rw [hunique]
    exact h
  · refine iff_of_true ?_ fun n hn => absurd ⟨n, hn⟩ hnormalizes
    rw [runBoltAndPack_unnormalized compress himage hnormalizes]
    exact .inl rfl

end Output

/-! ## A run -/

/-- BOLT makes three bytes of an image; `install` is the last copy. -/
def threeBytes (install : CopyOutcome) : World :=
  let none' : ToolOutcome := ⟨false, none⟩
  let noPack : PackSteps :=
    ⟨.untouched, ⟨false, false, false, false, false, false, false, none', none', none', false⟩,
      .untouched,
      ⟨false, false, false, false⟩⟩
  ⟨.copied, ⟨true, some [1, 2, 3, 4]⟩, true, none, ⟨true, some [1, 2]⟩,
    ⟨true, some [1, 2, 3]⟩, noPack,
    noPack, install⟩

/-- An image of five bytes. -/
def fiveBytes : Files := fun path => if path = "a.out" then some [1, 2, 3, 4, 5] else none

theorem runBoltAndPack_threeBytes :
    Intact (fun _ _ => none) (threeBytes .copied) [1, 2, 3, 4, 5]
        (runBoltAndPack (fun _ _ => none) (threeBytes .copied) "a.out" fiveBytes "a.out") ↔
      ∀ normalized, Normalizes (threeBytes .copied) normalized →
        if ([1, 2, 3, 4, 5] : Bytes) = [] then normalized = []
        else (threeBytes .copied).install.complete ∨ (threeBytes .copied).install = .untouched ∧
          Intact (fun _ _ => none) (threeBytes .copied) [1, 2, 3, 4, 5]
            (some (leftover (threeBytes .copied) "a.out" normalized)) :=
  runBoltAndPack_iff _ _ _ _ _ (by decide)

/-- The disk is full when the candidate is copied onto the output: two bytes are there. -/
theorem not_intact_installCut :
    ¬ Intact (fun _ _ => none) (threeBytes (.cut 1)) [1, 2, 3, 4, 5]
      (runBoltAndPack (fun _ _ => none) (threeBytes (.cut 1)) "a.out" fiveBytes "a.out") := by
  have hout : runBoltAndPack (fun _ _ => none) (threeBytes (.cut 1)) "a.out" fiveBytes "a.out" =
      some [1, 2] := by decide
  have hchosen : chosen (fun _ _ => none) (threeBytes (.cut 1)) [1, 2, 3, 4, 5] =
    some [1, 2, 3] := by
    decide
  rw [Intact, hout, hchosen]
  rintro (h | ⟨p, hp, -, h⟩)
  · exact absurd h (by decide)
  · rw [← Option.some.inj hp] at h
    exact absurd h (by decide)

end RvLlvm.Lld.PostLink
