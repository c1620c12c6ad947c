import DevSpecs.Proofs.Version.RunOrder
import Mathlib

/-!
# Canonical texts

The segments of a version, each in its canonical spelling and joined by dots, are
a text of an equal version.  Scanning that text finds the same runs again: each
of them is of one kind, and a dot separates it from the next.  Two versions are
therefore equal exactly when their canonical texts are the same.
-/

namespace DevSpecs

namespace Version

/-! ## Letter case -/

/-- Only capital letters change in lower case, and they stay letters. -/
theorem toLower_cases (c : Char) :
    c.toLower = c ∨ c.isAlpha = true ∧ c.toLower.isAlpha = true := by
  by_cases hupper : c.isUpper = true
  · have halpha : c.isAlpha = true := by rw [Char.isAlpha, hupper, Bool.true_or]
    exact Or.inr ⟨halpha, (Char.isAlpha_toLower_eq_isAlpha c).trans halpha⟩
  · exact Or.inl (Char.toLower_eq_of_not_isUpper hupper)

theorem toLower_of_isDigit {c : Char} (h : c.isDigit = true) : c.toLower = c := by
  rcases toLower_cases c with hsame | ⟨hc, -⟩
  · exact hsame
  · rw [isAlpha_of_isDigit h] at hc
    contradiction

/-! ## Runs in canonical spelling -/

/-- Digits without the zeros in front, and letters in lower case. -/
def canonicalRun (run : Text) : Text :=
  if run.all Char.isDigit then reduced run else lowered run

section Runs

variable {run : Text}

theorem lowered_lowered (run : Text) : lowered (lowered run) = lowered run := by
  simp [lowered]

theorem isLetters_lowered (h : IsLetters run) : IsLetters (lowered run) := by
  refine ⟨by simpa [lowered] using h.1, ?_⟩
  intro c hc
  obtain ⟨d, hd, rfl⟩ := List.mem_map.mp hc
  rw [Char.isAlpha_toLower_eq_isAlpha]
  exact h.2 d hd

theorem canonicalRun_of_isNumeral (h : IsNumeral run) :
    canonicalRun run = reduced run :=
  if_pos (List.all_eq_true.mpr h.2)

theorem canonicalRun_of_isLetters (h : IsLetters run) :
    canonicalRun run = lowered run := by
  obtain ⟨c, hc⟩ := List.exists_mem_of_ne_nil run h.1
  apply if_neg
  intro hall
  have hdigit := isAlpha_of_isDigit (List.all_eq_true.mp hall c hc)
  rw [h.2 c hc] at hdigit
  contradiction

theorem isNumeral_or_isLetters (h : IsRun run) : IsNumeral run ∨ IsLetters run := by
  obtain ⟨hne, kind, hrun⟩ := h
  cases kind with
  | digits => exact Or.inl ⟨hne, hrun⟩
  | letters => exact Or.inr ⟨hne, hrun⟩

theorem isRun_canonicalRun (h : IsRun run) : IsRun (canonicalRun run) := by
  rcases isNumeral_or_isLetters h with hnumeral | hletters
  · rw [canonicalRun_of_isNumeral hnumeral]
    obtain ⟨hne, hdigits⟩ := (isReduced_reduced hnumeral.2).isNumeral
    exact ⟨hne, .digits, hdigits⟩
  · rw [canonicalRun_of_isLetters hletters]
    obtain ⟨hne, halpha⟩ := isLetters_lowered hletters
    exact ⟨hne, .letters, halpha⟩

/-- A run and its canonical spelling count as the same. -/
theorem runAlike_canonicalRun (h : IsRun run) : RunAlike (canonicalRun run) run := by
  rcases isNumeral_or_isLetters h with hnumeral | hletters
  · rw [canonicalRun_of_isNumeral hnumeral]
    exact .numerals (isReduced_reduced hnumeral.2).isNumeral hnumeral
      (numeralValue_reduced run)
  · rw [canonicalRun_of_isLetters hletters]
    exact .letters (isLetters_lowered hletters) hletters (lowered_lowered run)

theorem text_ofRun (h : IsRun run) : (Segment.ofRun run).text = canonicalRun run := by
  rcases run_cases h with hword | hnumeral | hname
  · rw [ofRun_of_isLowWord hword, canonicalRun_of_isLetters hword.1]
    rfl
  · rw [text_ofRun_of_isNumeral hnumeral, canonicalRun_of_isNumeral hnumeral]
  · obtain ⟨b, hb, hofRun⟩ := ofRun_of_isHighName hname
    rw [hofRun, canonicalRun_of_isLetters hname.1, ← hb]
    rfl

end Runs

/-! ## Rescanning -/

/-- Runs that are joined by dots are found again. -/
theorem maximalRuns_intercalate {rs : List Text} (h : ∀ run ∈ rs, IsRun run) :
    MaximalRuns (['.'].intercalate rs) rs := by
  induction rs with
  | nil => exact .nil
  | cons run rs ih =>
      obtain ⟨⟨hne, kind, hrun⟩, hrest⟩ := List.forall_mem_cons.mp h
      by_cases hrs : rs = []
      · subst hrs
        have hlast : MaximalRuns (run ++ []) [run] :=
          .run kind hne hrun (by simp) .nil
        simpa [List.intercalate] using hlast
      · rw [List.intercalate_cons_of_ne_nil hrs, List.append_assoc]
        refine .run kind hne hrun ?_ (.separator rfl (ih hrest))
        rintro _ ⟨⟩
        cases kind <;> rfl

section Canonical

variable (v : Version)

theorem isRun_of_mem_runs {run : Text} (h : run ∈ runs v.text) : IsRun run :=
  (maximalRuns_runs (forall_isAllowed v)).isRun h

theorem canonicalText_eq :
    v.canonicalText = ['.'].intercalate ((runs v.text).map canonicalRun) := by
  rw [canonicalText, segments, segmentsOf_eq, List.map_map]
  congr 1
  exact List.map_congr_left fun run hrun => text_ofRun (isRun_of_mem_runs v hrun)

theorem maximalRuns_canonicalText :
    MaximalRuns v.canonicalText ((runs v.text).map canonicalRun) := by
  rw [canonicalText_eq]
  apply maximalRuns_intercalate
  intro run hrun
  obtain ⟨written, hwritten, rfl⟩ := List.mem_map.mp hrun
  exact isRun_canonicalRun (isRun_of_mem_runs v hwritten)

/-- The canonical text has the segments that it is made of. -/
theorem segmentsOf_canonicalText : segmentsOf v.canonicalText = v.segments := by
  rw [segmentsOf_eq, ← (maximalRuns_canonicalText v).eq_runs, List.map_map,
    segments, segmentsOf_eq]
  refine List.map_congr_left fun run hrun => ?_
  exact ofRun_eq_of_runAlike (runAlike_canonicalRun (isRun_of_mem_runs v hrun))

end Canonical

/-- A text of allowed characters with the segments of a version is one of an equal
version. -/
theorem exists_of_segmentsOf_eq {t : Text} {v : Version}
    (hallowed : ∀ c ∈ t, isAllowed c = true) (h : segmentsOf t = v.segments) :
    ∃ u, ofText? t = some u ∧ u.segments = v.segments := by
  have hruns : runs t ≠ [] := by
    intro hnil
    rw [segmentsOf_eq, hnil] at h
    exact v.segments_ne_nil h.symm
  obtain ⟨u, rfl⟩ :=
    exists_text_eq hallowed ((maximalRuns_runs hallowed).ne_nil_iff.mp hruns)
  exact ⟨u, ofText?_text u, h⟩

end Version

end DevSpecs
