import Mathlib.Data.List.Nodup
import RvLlvm.Isa.Accepted
import RvLlvm.Isa.ArchRoundTrip

/-!
# The order of multi-letter extensions

The loop over the multi-letter extensions of `parseArchString` (`RISCVISAInfo.cpp:812-884`) as a
function of each of them: the names and versions that it adds do not depend on their order.

* `outcome`: what a multi-letter extension adds.
* `parseOtherExts_iff`: the loop, without its order.
* **`parseArchString_perm`**: extensions written in another order are accepted with the same result.
-/

namespace RvLlvm.Isa

open RvLlvm.Support RISCVISAInfo

variable {opts : Options} {I R : RISCVISAInfo} {parts parts' : List Str}

/-- The name in a multi-letter extension. -/
def extName (s : Str) : Str := s.take (findLastNonVersionCharacter s + 1)

theorem name_of_parseOtherExt {s : Str} {e : Str × Version}
    (h : parseOtherExt opts s = .ok (some e)) : e.1 = extName s := by
  unfold parseOtherExt at h
  split at h
  · cases h
  · dsimp only at h
    split at h
    · split at h <;> cases h
    · split at h
      · cases h
      · split at h
        · split at h <;> cases h
        · exact congrArg Prod.fst (Option.some.inj (Except.ok.inj h)).symm

/-- The entry that a multi-letter extension sets, if it is accepted and not ignored. -/
def outcome (opts : Options) (s : Str) : Option (ExtName × Version) :=
  match parseOtherExt opts s with
  | .ok (some (name, version)) =>
    if opts.ignoreUnknown && !isSupportedExtension name then none else some (⟨name⟩, version)
  | _ => none

theorem name_of_outcome {s : Str} {a : ExtName × Version} (h : outcome opts s = some a) :
    a.1.chars = extName s := by
  unfold outcome at h
  split at h
  · split at h
    · cases h
    · rename_i hother _
      exact Option.some.inj h ▸ name_of_parseOtherExt hother
  · cases h

/-- The names that are set. -/
def names (l : List (ExtName × Version)) : List Str := l.map fun a => a.1.chars

theorem supported_of_outcome {s : Str} {a : ExtName × Version} (hignore : opts.ignoreUnknown = true)
    (h : outcome opts s = some a) : isSupportedExtension a.1.chars = true := by
  unfold outcome at h
  split at h
  · split at h
    · cases h
    · rename_i hkept
      rw [hignore, Bool.true_and, Bool.not_eq_true', Bool.not_eq_false] at hkept
      exact Option.some.inj h ▸ hkept
  · cases h

theorem names_sublist (hignore : opts.ignoreUnknown = true) (parts : List Str) :
    (names (parts.filterMap (outcome opts))).Sublist
      ((parts.map extName).filter isSupportedExtension) := by
  induction parts with
  | nil => exact List.Sublist.refl _
  | cons s parts ih =>
    rw [List.map_cons]
    cases h : outcome opts s with
    | none =>
      rw [List.filterMap_cons_none h]
      exact ih.trans ((List.sublist_cons_self _ _).filter _)
    | some a =>
      have hsupported := supported_of_outcome hignore h
      rw [name_of_outcome h] at hsupported
      rw [List.filterMap_cons_some h, names, List.map_cons, name_of_outcome h,
        List.filter_cons_of_pos hsupported]
      exact ih.cons_cons _

/-- **The loop, without its order**: each part is accepted, no name is set twice unless what is
unknown is ignored, and the outcomes are set. -/
theorem parseOtherExts_iff {allExts allExts' : List Str}
    (hall : opts.ignoreUnknown = false → allExts.Nodup) :
    parseOtherExts opts parts I allExts = .ok (R, allExts') ↔
      (∀ s ∈ parts, ∃ o, parseOtherExt opts s = .ok o) ∧
        (opts.ignoreUnknown = false → (allExts ++ names (parts.filterMap (outcome opts))).Nodup) ∧
          R = (parts.filterMap (outcome opts)).foldl addEntry I ∧
            allExts' = allExts ++ names (parts.filterMap (outcome opts)) := by
  induction parts generalizing I allExts with
  | nil =>
    rw [List.filterMap_nil, names, List.map_nil, List.append_nil, parseOtherExts, List.foldl_nil,
      Except.ok.injEq, Prod.mk.injEq]
    constructor
    · rintro ⟨rfl, rfl⟩
      exact ⟨fun _ hs => absurd hs List.not_mem_nil, hall, rfl, rfl⟩
    · rintro ⟨-, -, rfl, rfl⟩
      exact ⟨rfl, rfl⟩
  | cons s parts ih =>
    rw [parseOtherExts, List.forall_mem_cons]
    cases hother : parseOtherExt opts s with
    | error error =>
      refine ⟨fun h => (by cases h), fun h => ?_⟩
      obtain ⟨o, ho⟩ := h.1.1
      cases ho
    | ok o =>
      have hex : ∃ o', Except.ok (ε := String) o = .ok o' := ⟨o, rfl⟩
      cases o with
      | none =>
        have hnone : outcome opts s = none := by rw [outcome, hother]
        rw [List.filterMap_cons_none hnone, ih hall, and_iff_right hex]
      | some e =>
        obtain ⟨name, version⟩ := e
        have hignored : opts.ignoreUnknown = true → isSupportedExtension name = false →
            outcome opts s = none := fun hignore hsupported => by
          rw [outcome, hother]
          simp only [hignore, hsupported, Bool.not_false, Bool.and_true, if_true]
        have hset : ¬(opts.ignoreUnknown && !isSupportedExtension name) = true →
            outcome opts s = some (⟨name⟩, version) := fun hnot => by
          rw [outcome, hother]
          exact if_neg hnot
        dsimp only
        split
        case isTrue hdup =>
          -- a name that is there already
          rw [Bool.and_eq_true, Bool.not_eq_true', List.contains_iff_mem] at hdup
          refine ⟨fun h => (by cases h), fun h => ?_⟩
          have hnodup := h.2.1 hdup.1
          rw [List.filterMap_cons_some (hset (by rw [hdup.1, Bool.false_and]; exact Bool.false_ne_true)), names, List.map_cons] at hnodup
          exact absurd rfl ((List.nodup_append.mp hnodup).2.2 _ hdup.2 _ List.mem_cons_self)
        case isFalse hnew =>
          split
          case isTrue hignore =>
            rw [Bool.and_eq_true, Bool.not_eq_true'] at hignore
            rw [List.filterMap_cons_none (hignored hignore.1 hignore.2), ih hall, and_iff_right hex]
          case isFalse hkept =>
            have hall' : opts.ignoreUnknown = false → (allExts ++ [name]).Nodup := by
              intro hstrict
              rw [hstrict, Bool.not_false, Bool.true_and, List.contains_iff_mem] at hnew
              exact List.nodup_append.mpr ⟨hall hstrict, List.nodup_singleton _, fun a ha b hb heq =>
                hnew (List.mem_singleton.mp hb ▸ heq ▸ ha)⟩
            have happ : ∀ l, allExts ++ names ((⟨name⟩, version) :: l) =
                allExts ++ [name] ++ names l := fun l => by
              rw [names, List.map_cons, List.append_assoc]
              rfl
            rw [List.filterMap_cons_some (hset hkept), ih hall', and_iff_right hex, happ,
              List.foldl_cons]
            rfl

/-! ## Another order -/

theorem names_perm {l l' : List (ExtName × Version)} (h : l.Perm l') : (names l).Perm (names l') :=
  h.map _

/-- Entries with different names can be set in any order. -/
theorem foldl_addEntry_perm {l l' : List (ExtName × Version)} (hperm : l.Perm l')
    (hnodup : (names l).Nodup) : l.foldl addEntry I = l'.foldl addEntry I := by
  have hkeys : ∀ l, (names l).Nodup → (l.map Prod.fst).Nodup := fun l h =>
    List.Nodup.of_map ExtName.chars (by rw [List.map_map]; exact h)
  have hnodup' : (names l').Nodup := (names_perm hperm).nodup_iff.mp hnodup
  have hexts : l.foldl OrderedMap.set I.exts = l'.foldl OrderedMap.set I.exts := by
    refine OrderedMap.ext_mem fun a => ?_
    rw [OrderedMap.mem_foldl_set (hkeys l hnodup), OrderedMap.mem_foldl_set (hkeys l' hnodup'),
      hperm.mem_iff, (hperm.map Prod.fst).mem_iff]
  rw [foldl_addEntry, foldl_addEntry, hexts]

theorem parseTail_perm (hperm : parts.Perm parts')
    (hnames : opts.ignoreUnknown = true → ((parts.map extName).filter isSupportedExtension).Nodup)
    (h : parseTail opts parts I = .ok R) : parseTail opts parts' I = .ok R := by
  have hnil : opts.ignoreUnknown = false → ([] : List Str).Nodup := fun _ => List.nodup_nil
  unfold parseTail at h
  split at h
  case h_1 => cases h
  case h_2 K allExts hloop =>
    obtain ⟨hall, hnodup, rfl, rfl⟩ := (parseOtherExts_iff hnil).mp hloop
    have hperm' := hperm.filterMap (outcome opts)
    have hnodup' : (names (parts.filterMap (outcome opts))).Nodup := by
      cases hignore : opts.ignoreUnknown with
      | false => exact hnodup hignore
      | true => exact (names_sublist hignore parts).nodup (hnames hignore)
    have hloop' : parseOtherExts opts parts' I [] =
        .ok ((parts.filterMap (outcome opts)).foldl addEntry I,
          [] ++ names (parts'.filterMap (outcome opts))) := by
      refine (parseOtherExts_iff hnil).mpr ⟨fun s hs => hall s (hperm.mem_iff.mpr hs), fun _ => ?_,
        foldl_addEntry_perm hperm' hnodup', rfl⟩
      exact (names_perm hperm').nodup_iff.mp hnodup'
    have hfind : ∀ {l l' : List Str}, l.Perm l' →
        (l.find? fun name => !isSupportedExtension name) = none →
          (l'.find? fun name => !isSupportedExtension name) = none := fun hl hnone =>
      List.find?_eq_none.mpr fun name hname =>
        List.find?_eq_none.mp hnone name (hl.mem_iff.mpr hname)
    split at h
    case h_1 => cases h
    case h_2 hnone =>
      unfold parseTail
      rw [hloop']
      dsimp only
      rw [hfind ((names_perm hperm').append_left []) hnone]
      exact h

/-! ## Whole strings -/

theorem mem_intercalate {c : Char} (h : c ∈ ['_'].intercalate parts) :
    c = '_' ∨ ∃ s ∈ parts, c ∈ s := by
  induction parts with
  | nil => exact absurd h List.not_mem_nil
  | cons s parts ih =>
    cases parts with
    | nil =>
      rw [List.intercalate_singleton] at h
      exact .inr ⟨s, List.mem_cons_self, h⟩
    | cons s' parts =>
      rw [List.intercalate_cons_cons, List.append_assoc] at h
      rcases List.mem_append.mp h with h | h
      · exact .inr ⟨s, List.mem_cons_self, h⟩
      · rcases List.mem_cons.mp h with h | h
        · exact .inl h
        · exact (ih h).imp_right fun ⟨t, ht, hc⟩ => ⟨t, List.mem_cons_of_mem _ ht, hc⟩

theorem mem_intercalate_of_mem {c : Char} {s : Str} (hs : s ∈ parts) (hc : c ∈ s) :
    c ∈ ['_'].intercalate parts := by
  induction parts with
  | nil => exact absurd hs List.not_mem_nil
  | cons t parts ih =>
    cases parts with
    | nil =>
      rw [List.intercalate_singleton]
      exact List.mem_singleton.mp hs ▸ hc
    | cons t' parts =>
      rw [List.intercalate_cons_cons, List.append_assoc]
      rcases List.mem_cons.mp hs with rfl | hs
      · exact List.mem_append_left _ hc
      · exact List.mem_append_right _ (List.mem_cons_of_mem _ (ih hs))

theorem lower_of_parseArchString {arch : Str} (h : parseArchString opts arch = .ok R) :
    ∀ c ∈ arch, c.isUpper = false := by
  unfold parseArchString at h
  split at h
  · cases h
  · rename_i hlower
    rw [Bool.not_eq_true, List.any_eq_false] at hlower
    exact fun c hc => Bool.not_eq_true _ ▸ hlower c hc

theorem getLast?_of_parseArchString {arch : Str} (h : parseArchString opts arch = .ok R) :
    arch.getLast? ≠ some '_' := by
  intro hlast
  unfold parseArchString at h
  dsimp only at h
  rw [if_pos hlast] at h
  split at h
  · cases h
  split at h
  · cases h
  split at h
  · cases h
  split at h <;> cases h

theorem getLast?_archString {head : Str} (hne : parts ≠ []) (hnil : ∀ s ∈ parts, s ≠ [])
    (hwhole : ∀ s ∈ parts, '_' ∉ s) : (archString head parts).getLast? ≠ some '_' := by
  induction parts generalizing head with
  | nil => exact absurd rfl hne
  | cons s parts ih =>
    rw [List.forall_mem_cons] at hnil hwhole
    cases parts with
    | nil =>
      rw [archString, List.intercalate_singleton, List.getLast?_append,
        List.getLast?_eq_some_getLast hnil.1]
      intro heq
      exact hwhole.1 (Option.some.inj heq ▸ List.getLast_mem hnil.1)
    | cons s' parts =>
      have hsplit : archString head (s :: s' :: parts) =
          archString (head ++ s ++ ['_']) (s' :: parts) := by
        rw [archString, archString, List.intercalate_cons_cons]
        simp only [List.append_assoc]
      rw [hsplit]
      exact ih (List.cons_ne_nil _ _) hnil.2 hwhole.2

/-- No part of an accepted string is empty. -/
theorem ne_nil_of_parseTail (h : parseTail opts parts I = .ok R) : ∀ s ∈ parts, s ≠ [] := by
  rintro s hs rfl
  unfold parseTail at h
  split at h
  · cases h
  · rename_i hloop
    obtain ⟨o, ho⟩ := ((parseOtherExts_iff fun _ => List.nodup_nil).mp hloop).1 [] hs
    cases ho

/-- **The order of multi-letter extensions** does not matter. -/
theorem parseArchString_perm {head : Str} (hcut : Cut head parts) (hcut' : Cut head parts')
    (hperm : parts.Perm parts') (hnames : opts.ignoreUnknown = true →
      ((parts.map extName).filter isSupportedExtension).Nodup)
    (h : parseArchString opts (archString head parts) = .ok R) :
    parseArchString opts (archString head parts') = .ok R := by
  by_cases hne : parts = []
  · subst hne
    rwa [← hperm.nil_eq]
  have hne' : parts' ≠ [] := fun hnil => hne (List.Perm.eq_nil (hnil ▸ hperm))
  have hlower := lower_of_parseArchString h
  have hlast := getLast?_of_parseArchString h
  have hany : ∀ s : Str, (∀ c ∈ s, c.isUpper = false) → s.any Char.isUpper = false := fun s hs =>
    List.any_eq_false.mpr fun c hc => by rw [hs c hc]; exact Bool.false_ne_true
  have hlower' : ∀ c ∈ archString head parts', c.isUpper = false := by
    intro c hc
    rcases List.mem_append.mp hc with hc | hc
    · exact hlower c (List.mem_append_left _ hc)
    · rcases mem_intercalate hc with rfl | ⟨s, hs, hc⟩
      · decide
      · exact hlower c (List.mem_append_right _ (mem_intercalate_of_mem (hperm.mem_iff.mpr hs) hc))
  rw [parseArchString_archString hcut (hany _ hlower) hlast] at h
  cases hhead : parseHead opts head with
  | error error =>
    rw [hhead] at h
    cases h
  | ok K =>
    rw [hhead] at h
    have hnil := ne_nil_of_parseTail h
    have hlast' : (archString head parts').getLast? ≠ some '_' :=
      getLast?_archString hne' (fun s hs => hnil s (hperm.mem_iff.mpr hs)) hcut'.whole
    rw [parseArchString_archString hcut' (hany _ hlower') hlast', hhead]
    exact parseTail_perm hperm hnames h

end RvLlvm.Isa
