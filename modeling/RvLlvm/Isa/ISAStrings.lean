import RvLlvm.Isa.ArchOrder

/-!
# ISA strings

What `parseArchString` and `parseFeatures` (`RISCVISAInfo.cpp:556-892`) accept, as a whole.

* `readBack_of_accepted`: an accepted set is closed, and its string is read back.
* **`accepted_strings`**: for arch strings, for lists of features, and in any order of the
  extensions.

A list of features can ask for both bases, and then `toString` writes a string that
`parseArchString` does not accept; and when what is unknown is ignored, the last of two versions of
an extension counts.
-/

namespace RvLlvm.Isa

open RvLlvm.Support RISCVISAInfo

theorem readBack_of_accepted {check : Bool} {J R : RISCVISAInfo} (h : Accepted check J R) :
    Closed R ∧ parseNormalizedArchString R.toString = .ok R ∧ (OneBase R → ∀ ignore,
      parseArchString (rereading check ignore) R.toString = .ok R) := by
  obtain ⟨hvalid, hclosed, rfl, hcheck⟩ := h
  rw [toString_withLens]
  exact ⟨hclosed.congr rfl rfl, parseNormalizedArchString_toString hvalid hclosed,
    fun hone _ => parseArchString_toString hvalid hclosed hone hcheck⟩

/-- **Accepted ISA strings** are closed under the tables and read back, and the order of their
multi-letter extensions does not matter. -/
theorem accepted_strings :
    (∀ opts arch R, parseArchString opts arch = .ok R →
      Closed R ∧ parseNormalizedArchString R.toString = .ok R ∧
        parseArchString { opts with enableExperimentalExtension := true } R.toString = .ok R) ∧
    (∀ xLen features R, xLen = 32 ∨ xLen = 64 → parseFeatures xLen features = .ok R →
      Closed R ∧ parseNormalizedArchString R.toString = .ok R ∧
        (¬(R.count ['i'] = true ∧ R.count ['e'] = true) → ∀ opts, opts.enableExperimentalExtension = true →
          parseArchString opts R.toString = .ok R)) ∧
    ∀ opts head parts parts' R, Cut head parts → Cut head parts' → parts.Perm parts' →
      (opts.ignoreUnknown = true → ((parts.map extName).filter isSupportedExtension).Nodup) →
        parseArchString opts (archString head parts) = .ok R →
          parseArchString opts (archString head parts') = .ok R := by
  refine ⟨fun opts arch R h => ?_, fun xLen features R hxlen h => ?_,
    fun opts head parts parts' R => parseArchString_perm⟩
  · obtain ⟨J, hJ, hone⟩ := accepted_of_parseArchString h
    obtain ⟨hclosed, hnormalized, hread⟩ := readBack_of_accepted hJ
    have hone' : OneBase R := hJ.lens ▸ hone
    exact ⟨hclosed, hnormalized, hread hone' opts.ignoreUnknown⟩
  · have hback : ∀ check, Closed R ∧ parseNormalizedArchString R.toString = .ok R ∧
        (OneBase R → ∀ ignore, parseArchString (rereading check ignore) R.toString = .ok R) := by
      intro check
      obtain ⟨J, hJ⟩ := accepted_of_parseFeatures hxlen h
      exact readBack_of_accepted hJ
    refine ⟨(hback true).1, (hback true).2.1, fun hone opts hopts => ?_⟩
    have hform : opts = rereading opts.experimentalExtensionVersionCheck opts.ignoreUnknown := by
      rw [rereading, ← hopts]
    rw [hform]
    exact (hback _).2.2 hone _

theorem exists_ok {x : Except String RISCVISAInfo} {p : RISCVISAInfo → Bool}
    (h : x.toOption.any p = true) : ∃ R, x = .ok R ∧ p R = true := by
  cases x with
  | error error => cases h
  | ok R => exact ⟨R, rfl, h⟩

set_option maxRecDepth 100000 in
theorem accepted_strings_rv64 :
    (∃ R, parseArchString ⟨false, true, false⟩ (archString "rv64imac_".toList ["zba".toList, "zbb".toList]) =
        .ok R ∧ parseArchString ⟨true, true, false⟩ R.toString = .ok R ∧
          parseArchString ⟨false, true, false⟩
            (archString "rv64imac_".toList ["zbb".toList, "zba".toList]) = .ok R) ∧
      ∃ R, parseFeatures 64 ["+m".toList, "+zba".toList] = .ok R ∧ Closed R ∧
        parseArchString ⟨true, true, false⟩ R.toString = .ok R := by
  constructor
  · obtain ⟨R, hR, -⟩ := exists_ok (p := fun _ => true) (x := parseArchString ⟨false, true, false⟩
      (archString "rv64imac_".toList ["zba".toList, "zbb".toList])) (by decide +kernel)
    refine ⟨R, hR, (accepted_strings.1 _ _ R hR).2.2, accepted_strings.2.2 _ _ _ _ R
      (by decide +kernel) (by decide +kernel) (List.Perm.swap _ _ _) (fun h => (by cases h)) hR⟩
  · obtain ⟨R, hR, hbase⟩ := exists_ok (p := fun R => !R.count ['e'])
      (x := parseFeatures 64 ["+m".toList, "+zba".toList]) (by decide +kernel)
    obtain ⟨hclosed, -, hread⟩ := accepted_strings.2.1 64 _ R (.inr rfl) hR
    refine ⟨R, hR, hclosed, hread (fun hboth => ?_) _ rfl⟩
    rw [hboth.2] at hbase
    cases hbase

set_option maxRecDepth 100000 in
/-- Both bases from features, and two versions of an extension in two orders. -/
theorem not_accepted_strings :
    ((parseFeatures 64 ["+i".toList, "+e".toList]).toOption.map toString =
        some "rv64i2p1_e2p0".toList ∧
      (parseArchString ⟨true, true, false⟩ "rv64i2p1_e2p0".toList).toOption = none) ∧
    (parseArchString ⟨true, false, true⟩ "rv64i_ztso1p0_ztso2p0".toList).toOption.map toString ≠
      (parseArchString ⟨true, false, true⟩ "rv64i_ztso2p0_ztso1p0".toList).toOption.map
        toString := by
  decide +kernel

end RvLlvm.Isa
