import Mathlib.Data.List.Infix
import QuicFuscate.Stealth.Profile

/-!
# Names of records

The directory lists a profile for every file whose name is that of a record, in any case, with `mac`
for `macos` and with the extension any number of times.  Only the plain name is ever read.
-/

namespace QuicFuscate.Stealth

open TlsClientHelloSpoofer

/-! ## Trimming -/

private theorem stripSuffix_append {suffix t : List Char} (ht : ¬ suffix <:+ t) {n r : ℕ} (hr : r ≤ n) :
    stripSuffix suffix n (t ++ (List.replicate r suffix).flatten) = t := by
  induction r generalizing n with
  | zero =>
      rw [List.replicate_zero, List.flatten_nil, List.append_nil]
      cases n with
      | zero => rfl
      | succ n => rw [stripSuffix, if_neg (by rwa [List.isSuffixOf_iff_suffix])]
  | succ r ih =>
      obtain ⟨n, rfl⟩ : ∃ m, n = m + 1 := ⟨n - 1, by omega⟩
      have hsplit : t ++ (List.replicate (r + 1) suffix).flatten =
          (t ++ (List.replicate r suffix).flatten) ++ suffix := by
        rw [List.replicate_succ', List.flatten_append, List.flatten_singleton, List.append_assoc]
      rw [hsplit, stripSuffix, if_pos (by rw [List.isSuffixOf_iff_suffix]; exact List.suffix_append _ _),
        List.length_append, Nat.add_sub_cancel, List.take_left']
      · exact ih (by omega)
      · rfl

private theorem exists_stripSuffix_append (suffix : List Char) (n : ℕ) (s : List Char) :
    ∃ r, s = stripSuffix suffix n s ++ (List.replicate r suffix).flatten := by
  induction n generalizing s with
  | zero => exact ⟨0, by simp [stripSuffix]⟩
  | succ n ih =>
      rw [stripSuffix]
      split
      · rename_i h
        obtain ⟨t, rfl⟩ := List.isSuffixOf_iff_suffix.mp h
        rw [List.length_append, Nat.add_sub_cancel, List.take_left' rfl]
        obtain ⟨r, hr⟩ := ih t
        refine ⟨r + 1, ?_⟩
        rw [List.replicate_succ', List.flatten_append, List.flatten_singleton, ← List.append_assoc, ← hr]
      · exact ⟨0, by simp⟩

/-! ## Names -/

theorem browserFromStr_eq_some {s : List Char} {b : BrowserProfile} :
    BrowserProfile.fromStr s = some b ↔ toLowercase s = browserName b := by
  unfold BrowserProfile.fromStr
  generalize toLowercase s = t
  constructor
  · intro h
    dsimp only at h
    split_ifs at h with h₁ h₂ h₃ h₄ h₅ h₆ h₇ <;> cases h <;> assumption
  · rintro rfl
    cases b <;> decide

theorem osFromStr_eq_some {s : List Char} {o : OsProfile} :
    OsProfile.fromStr s = some o ↔ toLowercase s = osName o ∨ o = .macOS ∧ toLowercase s = "mac".toList := by
  unfold OsProfile.fromStr
  generalize toLowercase s = t
  constructor
  · intro h
    dsimp only at h
    split_ifs at h with h₁ h₂ h₃ h₄ h₅
    · cases h
      exact .inl h₁
    · cases h
      exact h₂.imp id fun h => ⟨rfl, h⟩
    all_goals
      cases h
      exact .inl (by assumption)
  · rintro (rfl | ⟨rfl, rfl⟩)
    · cases o <;> decide
    · decide

/-- A character that lowering does not touch is in a name only if it is in the lowered name. -/
private theorem not_mem_of_toLowercase {s : List Char} {c : Char} (hc : c.toLower = c)
    (h : c ∉ toLowercase s) : c ∉ s := by
  intro hmem
  apply h
  rw [toLowercase, List.mem_map]
  exact ⟨c, hmem, hc⟩

def OsProfile.IsName (o : OsProfile) (s : List Char) : Prop := s = osName o ∨ o = .macOS ∧ s = "mac".toList

theorem OsProfile.IsName.no_underscore {o : OsProfile} {s : List Char} (h : o.IsName s) : '_' ∉ s := by
  rcases h with rfl | ⟨-, rfl⟩
  · cases o <;> decide
  · decide

theorem OsProfile.IsName.last {o : OsProfile} {s : List Char} (h : o.IsName s) : s ≠ [] ∧ 'o' ∉ s.getLast? := by
  rcases h with rfl | ⟨-, rfl⟩
  · cases o <;> decide
  · decide

private theorem browserName_no_underscore (b : BrowserProfile) : '_' ∉ browserName b := by
  cases b <;> decide

/-! ## Records -/

/-- The name of a file that stands for a profile: the two names in any case, with an underscore between them and one or
more extensions. -/
def Denotes (name : List Char) (b : BrowserProfile) (o : OsProfile) : Prop :=
  ∃ browser os : List Char, ∃ n, toLowercase browser = browserName b ∧ o.IsName (toLowercase os) ∧
    name = (browser ++ '_' :: os) ++ (List.replicate (n + 1) extension).flatten

private theorem not_extension_suffix {browser os : List Char} {o : OsProfile} (h : o.IsName (toLowercase os)) :
    ¬ extension <:+ browser ++ '_' :: os := by
  rintro ⟨t, ht⟩
  have hlast := congrArg List.getLast? ht
  have hne : os ≠ [] := by
    rintro rfl
    exact h.last.1 rfl
  have hlower : (toLowercase os).getLast? = os.getLast?.map Char.toLower := List.getLast?_map
  rw [List.getLast?_append_of_ne_nil _ (by decide), List.getLast?_append_of_ne_nil _ (by simp),
    List.getLast?_cons_of_ne_nil hne] at hlast
  apply h.last.2
  rw [hlower, ← hlast]
  decide

private theorem splitOn_pair {browser os : List Char} (hb : '_' ∉ browser) (ho : '_' ∉ os) :
    (browser ++ '_' :: os).splitOn '_' = [browser, os] := by
  have h : (['_'].intercalate [browser, os]).splitOn '_' = [browser, os] :=
    List.splitOn_intercalate '_' (by simp [hb, ho]) (by simp)
  simpa [List.intercalate] using h

private theorem profileOf_eq_some {name : List Char} {b : BrowserProfile} {o : OsProfile} :
    profileOf name = some (b, o) ↔ Denotes name b o := by
  constructor
  · intro h
    unfold profileOf at h
    split at h
    · rename_i hext
      split at h
      · rename_i browser os hsplit
        split at h
        · rename_i b' o' hb ho
          cases h
          have hjoin : ['_'].intercalate ((trimEndMatches extension name).splitOn '_') =
              trimEndMatches extension name :=
            List.intercalate_splitOn '_'
          have htrim : trimEndMatches extension name = browser ++ '_' :: os := by
            rw [← hjoin, hsplit]
            simp [List.intercalate]
          obtain ⟨r, hr⟩ := exists_stripSuffix_append extension name.length name
          rw [← trimEndMatches, htrim] at hr
          have hos := osFromStr_eq_some.mp ho
          cases r with
          | zero =>
              rw [List.replicate_zero, List.flatten_nil, List.append_nil] at hr
              exact absurd (List.isSuffixOf_iff_suffix.mp (hr ▸ hext)) (not_extension_suffix hos)
          | succ n => exact ⟨browser, os, n, browserFromStr_eq_some.mp hb, hos, hr⟩
        · cases h
      · cases h
    · cases h
  · rintro ⟨browser, os, n, hb, ho, rfl⟩
    have hsuffix : extension <:+ (browser ++ '_' :: os) ++ (List.replicate (n + 1) extension).flatten := by
      rw [List.replicate_succ', List.flatten_append, List.flatten_singleton, ← List.append_assoc]
      exact List.suffix_append _ _
    have htrim : trimEndMatches extension ((browser ++ '_' :: os) ++ (List.replicate (n + 1) extension).flatten) =
        browser ++ '_' :: os := by
      apply stripSuffix_append (not_extension_suffix ho)
      have hlength : extension.length = 5 := by decide
      simp only [List.length_append, List.length_flatten, List.map_replicate, List.sum_replicate_nat, hlength]
      omega
    have hunder : '_' ∉ browser ∧ '_' ∉ os :=
      ⟨not_mem_of_toLowercase (by decide) (hb ▸ browserName_no_underscore b),
        not_mem_of_toLowercase (by decide) ho.no_underscore⟩
    rw [profileOf, if_pos (List.isSuffixOf_iff_suffix.mpr hsuffix), htrim, splitOn_pair hunder.1 hunder.2]
    dsimp only
    rw [browserFromStr_eq_some.mpr hb, osFromStr_eq_some.mpr ho]

private theorem denotes_profilePath (b : BrowserProfile) (o : OsProfile) : Denotes (profilePath b o) b o := by
  refine ⟨browserName b, osName o, 0, ?_, .inl ?_, ?_⟩
  · cases b <;> decide
  · cases o <;> decide
  · simp [profilePath]

/-- A profile is listed exactly if a file of the directory stands for it.  The file that its record is read from
does, and no file stands for two profiles. -/
theorem mem_availableProfiles_iff (dir : ProfileDirectory) (b : BrowserProfile) (o : OsProfile) :
    ((b, o) ∈ availableProfiles dir ↔ ∃ name ∈ dir.entries, Denotes name b o) ∧ Denotes (profilePath b o) b o ∧
      ∀ name b' o', Denotes name b o → Denotes name b' o' → b' = b ∧ o' = o := by
  refine ⟨?_, denotes_profilePath b o, ?_⟩
  · rw [availableProfiles, List.mem_filterMap]
    simp only [profileOf_eq_some]
  · intro name b' o' h h'
    rw [← profileOf_eq_some] at h h'
    rw [h, Option.some.injEq, Prod.mk.injEq] at h'
    exact ⟨h'.1.symm, h'.2.symm⟩

end QuicFuscate.Stealth
