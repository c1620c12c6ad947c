import DevSpecs.Proofs.Version.Canonical

/-!
# Texts of one version

The case of letters, the choice and number of separators, separators between a
digit and a letter, and zeros in front of a number do not matter.  This file
says what such a change is, and shows that changes of this kind keep a text of
an equal version.
-/

namespace DevSpecs

namespace Version

/-- A change to a text that does not matter: another case of a letter, another
separator, one more separator beside one, at either end or between a digit and
a character that is none, or zeros in front of a number. -/
inductive Varied : Text → Text → Prop
  | letterCase {c d : Char} (s t : Text) (h : c.toLower = d.toLower) :
      Varied (s ++ c :: t) (s ++ d :: t)
  | exchanged {c d : Char} (s t : Text) (hc : isSeparator c = true)
      (hd : isSeparator d = true) : Varied (s ++ c :: t) (s ++ d :: t)
  | repeated {c d : Char} (s t : Text) (hc : isSeparator c = true)
      (hd : isSeparator d = true) : Varied (s ++ c :: t) (s ++ c :: d :: t)
  | leading {c : Char} (t : Text) (hc : isSeparator c = true) :
      Varied t (c :: t)
  | trailing {c : Char} (t : Text) (hc : isSeparator c = true) :
      Varied t (t ++ [c])
  | boundary {c d e : Char} (s t : Text) (hne : c.isDigit ≠ e.isDigit)
      (hd : isSeparator d = true) :
      Varied (s ++ c :: e :: t) (s ++ c :: d :: e :: t)
  | padded {d : Char} (s t : Text) (zeros : Nat)
      (hs : ∀ c ∈ s.getLast?, c.isDigit = false) (hd : d.isDigit = true) :
      Varied (s ++ d :: t) (s ++ List.replicate zeros '0' ++ d :: t)

/-! ## Characters that count as the same -/

/-- A letter in lower case, and one separator for all. -/
def folded (c : Char) : Char :=
  if isSeparator c then '.' else c.toLower

theorem RunKind.holds_toLower (kind : RunKind) (c : Char) :
    kind.holds c.toLower = kind.holds c := by
  cases kind with
  | letters => exact Char.isAlpha_toLower_eq_isAlpha c
  | digits =>
      rcases toLower_cases c with h | ⟨hc, hlower⟩
      · rw [h]
      · have hnot : ∀ {d : Char}, d.isAlpha = true → d.isDigit = false := by
          intro d hd
          rw [← Bool.not_eq_true]
          intro hdigit
          rw [isAlpha_of_isDigit hdigit] at hd
          contradiction
        exact (hnot hlower).trans (hnot hc).symm

theorem folded_of_isSeparator {c : Char} (h : isSeparator c = true) :
    folded c = '.' :=
  if_pos h

theorem folded_of_holds {kind : RunKind} {c : Char} (h : kind.holds c = true) :
    folded c = c.toLower := by
  rw [folded, RunKind.isSeparator_of_holds h, if_neg Bool.false_ne_true]

theorem folded_toLower (c : Char) : folded c.toLower = folded c := by
  rcases toLower_cases c with h | ⟨hc, hlower⟩
  · rw [h]
  · have hletter : RunKind.letters.holds c = true := hc
    have hlow : RunKind.letters.holds c.toLower = true := hlower
    rw [folded_of_holds hlow, folded_of_holds hletter,
      Char.toLower_toLower_eq_toLower]

theorem RunKind.holds_folded (kind : RunKind) (c : Char) :
    kind.holds (folded c) = kind.holds c := by
  cases hc : isSeparator c with
  | false => rw [folded, hc, if_neg Bool.false_ne_true, holds_toLower]
  | true =>
      have hdot : kind.holds '.' = false := by cases kind <;> rfl
      have hnot : kind.holds c = false := by
        rw [← Bool.not_eq_true]
        intro hholds
        rw [isSeparator_of_holds hholds] at hc
        contradiction
      rw [folded_of_isSeparator hc, hdot, hnot]

/-- Folding a text folds its runs. -/
theorem MaximalRuns.map_folded {t : Text} {rs : List Text}
    (h : MaximalRuns t rs) : MaximalRuns (t.map folded) (rs.map lowered) := by
  induction h with
  | nil => exact .nil
  | separator hc _ ih =>
      rw [List.map_cons, folded_of_isSeparator hc]
      exact .separator rfl ih
  | @run run rest rs kind hne hrun hend _ ih =>
      have hlowered : run.map folded = lowered run :=
        List.map_congr_left fun c hc => folded_of_holds (hrun c hc)
      rw [List.map_append, List.map_cons, hlowered]
      refine .run kind (by simpa [lowered] using hne) ?_ ?_ ih
      · intro c hc
        obtain ⟨d, hd, rfl⟩ := List.mem_map.mp hc
        rw [RunKind.holds_toLower]
        exact hrun d hd
      · intro c hc
        rw [List.head?_map] at hc
        obtain ⟨d, hd, rfl⟩ := Option.mem_map.mp hc
        rw [RunKind.holds_folded]
        exact hend d hd

theorem runAlike_lowered {run : Text} (h : IsRun run) : RunAlike (lowered run) run := by
  rcases isNumeral_or_isLetters h with hnumeral | hletters
  · have hsame : lowered run = run :=
      (List.map_congr_left fun c hc => toLower_of_isDigit (hnumeral.2 c hc)).trans
        (List.map_id' run)
    rw [hsame]
    exact .numerals hnumeral hnumeral rfl
  · exact .letters (isLetters_lowered hletters) hletters (lowered_lowered run)

theorem segmentsOf_map_folded {t : Text} (h : ∀ c ∈ t, isAllowed c = true) :
    segmentsOf (t.map folded) = segmentsOf t := by
  have hruns := maximalRuns_runs h
  rw [segmentsOf_eq, segmentsOf_eq, ← hruns.map_folded.eq_runs, List.map_map]
  refine List.map_congr_left fun run hrun => ?_
  exact ofRun_eq_of_runAlike (runAlike_lowered (hruns.isRun hrun))

/-! ## Places where no run goes on -/

/-- No run goes on from the end of `s` into `t`. -/
def Apart (s t : Text) : Prop :=
  ∀ kind : RunKind, ∀ c ∈ s.getLast?, kind.holds c = true →
    ∀ d ∈ t.head?, kind.holds d = false

theorem MaximalRuns.append {s t : Text} {rs ts : List Text}
    (hs : MaximalRuns s rs) (ht : MaximalRuns t ts) (h : Apart s t) :
    MaximalRuns (s ++ t) (rs ++ ts) := by
  induction hs with
  | nil => exact ht
  | @separator c s rs hc _ ih =>
      refine .separator hc (ih fun kind d hd => h kind d ?_)
      obtain ⟨before, rfl⟩ := List.getLast?_eq_some_iff.mp hd
      exact List.getLast?_eq_some_iff.mpr ⟨c :: before, rfl⟩
  | @run run rest rs kind hne hrun hend _ ih =>
      rw [List.append_assoc, List.cons_append]
      refine .run kind hne hrun ?_ (ih fun other d hd => h other d ?_)
      · -- Behind the run comes the rest, or what is appended if there is none.
        intro d hd
        by_cases hrest : rest = []
        · subst hrest
          have hlast := List.getLast?_eq_some_getLast hne
          rw [List.append_nil] at h
          exact h kind _ hlast (hrun _ (List.getLast_mem hne)) d hd
        · rw [List.head?_append_of_ne_nil _ hrest] at hd
          exact hend d hd
      · obtain ⟨before, rfl⟩ := List.getLast?_eq_some_iff.mp hd
        exact List.getLast?_eq_some_iff.mpr
          ⟨run ++ before, (List.append_assoc _ _ _).symm⟩

theorem segmentsOf_append {s t : Text} (hs : ∀ c ∈ s, isAllowed c = true)
    (ht : ∀ c ∈ t, isAllowed c = true) (h : Apart s t) :
    segmentsOf (s ++ t) = segmentsOf s ++ segmentsOf t := by
  have hruns := (maximalRuns_runs hs).append (maximalRuns_runs ht) h
  simp only [segmentsOf_eq, ← hruns.eq_runs, List.map_append]

theorem apart_concat {s t : Text} {c e : Char} (hne : c.isDigit ≠ e.isDigit) :
    Apart (s ++ [c]) (e :: t) := by
  intro kind d hd hholds x hx
  obtain rfl : c = d := by simpa using hd
  obtain rfl : e = x := by simpa using hx
  rw [← Bool.not_eq_true]
  intro hother
  apply hne
  rw [RunKind.isDigit_of_holds hholds, RunKind.isDigit_of_holds hother]

theorem apart_of_isDigit {s t : Text} (hs : ∀ c ∈ s.getLast?, c.isDigit = false)
    (ht : ∀ d ∈ t.head?, d.isDigit = true) : Apart s t := by
  intro kind c hc hholds d hd
  cases kind with
  | digits =>
      have hdigit : c.isDigit = true := hholds
      rw [hs c hc] at hdigit
      contradiction
  | letters => exact isAlpha_of_isDigit (ht d hd)

/-! ## Zeros in front of a number -/

theorem numeralValue_replicate_append (zeros : Nat) (run : Text) :
    numeralValue (List.replicate zeros '0' ++ run) = numeralValue run := by
  induction zeros with
  | zero => rfl
  | succ n ih =>
      rw [List.replicate_succ, List.cons_append, numeralValue_cons, Nat.sub_self,
        Nat.mul_zero, Nat.zero_add, ih]

/-- A number with no digit after it is the first run that is read. -/
theorem runs_numeral_append {run rest : Text} (hrun : IsNumeral run)
    (hend : ∀ c ∈ rest.head?, c.isDigit = false)
    (hrest : ∀ c ∈ rest.head?, isAllowed c = true) :
    runs (run ++ rest) = run :: runs rest := by
  have hdigits : ∀ c ∈ run, RunKind.digits.holds c = true := hrun.2
  exact runs_run_append hrun.1 hdigits hend hrest

/-- Zeros in front of a text that starts with a digit lengthen its first run. -/
theorem segmentsOf_replicate_append {d : Char} {t : Text} (zeros : Nat)
    (hd : d.isDigit = true) (ht : ∀ c ∈ d :: t, isAllowed c = true) :
    segmentsOf (List.replicate zeros '0' ++ d :: t) = segmentsOf (d :: t) := by
  let run := (d :: t).takeWhile Char.isDigit
  let rest := (d :: t).dropWhile Char.isDigit
  have hsplit : run ++ rest = d :: t := List.takeWhile_append_dropWhile
  have hdigits : ∀ c ∈ run, c.isDigit = true :=
    List.all_eq_true.mp List.all_takeWhile
  have hend : ∀ c ∈ rest.head?, c.isDigit = false := Text.head?_dropWhile
  have hrest : ∀ c ∈ rest.head?, isAllowed c = true := fun c hc =>
    ht c ((List.dropWhile_sublist _).subset (List.mem_of_mem_head? hc))
  have hnumeral : IsNumeral run := ⟨by simp [run, hd], hdigits⟩
  have hpadded : IsNumeral (List.replicate zeros '0' ++ run) := by
    refine ⟨by simp [hnumeral.1], fun c hc => ?_⟩
    rcases List.mem_append.mp hc with hc | hc
    · rw [List.eq_of_mem_replicate hc]
      rfl
    · exact hdigits c hc
  have halike := RunAlike.numerals hpadded hnumeral
    (numeralValue_replicate_append zeros run)
  rw [← hsplit, ← List.append_assoc, segmentsOf_eq, segmentsOf_eq,
    runs_numeral_append hpadded hend hrest,
    runs_numeral_append hnumeral hend hrest,
    List.map_cons, List.map_cons, ofRun_eq_of_runAlike halike]

/-! ## Changes keep the version -/

theorem isAllowed_toLower (c : Char) : isAllowed c.toLower = isAllowed c := by
  rcases toLower_cases c with h | ⟨hc, hlower⟩
  · rw [h]
  · have hletter : RunKind.letters.holds c = true := hc
    have hlow : RunKind.letters.holds c.toLower = true := hlower
    rw [RunKind.isAllowed_of_holds hlow, RunKind.isAllowed_of_holds hletter]

namespace Varied

variable {s t : Text}

theorem forall_isAllowed_iff (h : Varied s t) :
    (∀ c ∈ s, isAllowed c = true) ↔ ∀ c ∈ t, isAllowed c = true := by
  cases h with
  | letterCase s t h =>
      simp only [List.forall_mem_append, List.forall_mem_cons]
      rw [← isAllowed_toLower, h, isAllowed_toLower]
  | exchanged s t hc hd =>
      simp [or_imp, forall_and, isAllowed_of_isSeparator hc,
        isAllowed_of_isSeparator hd]
  | repeated s t hc hd =>
      simp [or_imp, forall_and, isAllowed_of_isSeparator hd]
  | leading t hc => simp [isAllowed_of_isSeparator hc]
  | trailing t hc => simp [or_imp, forall_and, isAllowed_of_isSeparator hc]
  | boundary s t hne hd =>
      simp [or_imp, forall_and, isAllowed_of_isSeparator hd]
  | padded s t zeros hs hd =>
      have hzero : isAllowed '0' = true := rfl
      simp [or_imp, forall_and, hzero]

theorem segmentsOf_eq (h : Varied s t) (hs : ∀ c ∈ s, isAllowed c = true) :
    segmentsOf t = segmentsOf s := by
  have ht := h.forall_isAllowed_iff.mp hs
  cases h with
  | letterCase s t h =>
      rw [← segmentsOf_map_folded hs, ← segmentsOf_map_folded ht, List.map_append,
        List.map_append, List.map_cons, List.map_cons, ← folded_toLower, ← h,
        folded_toLower]
  | exchanged s t hc hd =>
      rw [← segmentsOf_map_folded hs, ← segmentsOf_map_folded ht, List.map_append,
        List.map_append, List.map_cons, List.map_cons, folded_of_isSeparator hc,
        folded_of_isSeparator hd]
  | @repeated c d s t hc hd =>
      rw [segmentsOf_append_separator s hc, segmentsOf_append_separator s hc,
        ← List.nil_append (d :: t), segmentsOf_append_separator [] hd]
      rfl
  | leading _ hc => exact segmentsOf_append_separator [] hc s
  | trailing _ hc =>
      rw [segmentsOf_append_separator s hc []]
      exact List.append_nil _
  | boundary s t hne hd =>
      rw [List.append_cons] at hs ⊢
      rw [List.append_cons s _ (_ :: t), segmentsOf_append_separator _ hd]
      obtain ⟨hleft, hright⟩ := List.forall_mem_append.mp hs
      exact (segmentsOf_append hleft hright (apart_concat hne)).symm
  | @padded d s t zeros hlast hd =>
      obtain ⟨hleft, hright⟩ := List.forall_mem_append.mp hs
      rw [List.append_assoc] at ht ⊢
      have hpadded := (List.forall_mem_append.mp ht).2
      have hhead : ∀ c ∈ (List.replicate zeros '0' ++ d :: t).head?,
          c.isDigit = true := by
        cases zeros with
        | zero => simpa using hd
        | succ n =>
            rintro _ ⟨⟩
            rfl
      rw [segmentsOf_append hleft hright (apart_of_isDigit hlast (by simpa using hd)),
        segmentsOf_append hleft hpadded (apart_of_isDigit hlast hhead),
        segmentsOf_replicate_append zeros hd hright]

end Varied

/-- Texts that such changes lead from one to the other, in either direction, have
the same segments if they name versions, and name versions alike. -/
theorem segmentsOf_eq_of_eqvGen {s t : Text} (h : Relation.EqvGen Varied s t) :
    ((∀ c ∈ s, isAllowed c = true) ↔ ∀ c ∈ t, isAllowed c = true) ∧
      ((∀ c ∈ s, isAllowed c = true) → segmentsOf t = segmentsOf s) := by
  induction h with
  | rel s t h => exact ⟨h.forall_isAllowed_iff, h.segmentsOf_eq⟩
  | refl s => exact ⟨Iff.rfl, fun _ => rfl⟩
  | symm s t _ ih =>
      obtain ⟨hallowed, hsegments⟩ := ih
      exact ⟨hallowed.symm, fun ht => (hsegments (hallowed.mpr ht)).symm⟩
  | trans s t u _ _ ih ih' =>
      obtain ⟨hallowed, hsegments⟩ := ih
      obtain ⟨hallowed', hsegments'⟩ := ih'
      refine ⟨hallowed.trans hallowed', fun hs => ?_⟩
      exact (hsegments' (hallowed.mp hs)).trans (hsegments hs)

/-- Every version is equal to the one of its canonical text, whose runs are those
of its text with digits without the zeros in front and letters in lower case.
Versions are equal exactly when their canonical texts are the same, so a text
that is changed in ways that do not matter names an equal version. -/
theorem beq_iff_canonicalText_eq (v w : Version) :
    (∃ rs, MaximalRuns v.text rs ∧
        v.canonicalText = ['.'].intercalate (rs.map canonicalRun)) ∧
      (∃ c, ofText? v.canonicalText = some c ∧ (c == v) = true ∧
        c.segments = v.segments) ∧
      ((v == w) = true ↔ v.canonicalText = w.canonicalText) ∧
      ∀ t, Relation.EqvGen Varied v.text t →
        ∃ u, ofText? t = some u ∧ (u == v) = true := by
  refine ⟨⟨runs v.text, maximalRuns_runs (forall_isAllowed v), canonicalText_eq v⟩,
    ?_, ?_, ?_⟩
  · obtain ⟨c, hc, hsegments⟩ := exists_of_segmentsOf_eq
      (maximalRuns_canonicalText v).allowed (segmentsOf_canonicalText v)
    exact ⟨c, hc, beq_iff_segments_eq.mpr hsegments, hsegments⟩
  · rw [beq_iff_segments_eq]
    constructor
    · intro h
      rw [canonicalText, canonicalText, h]
    · intro h
      rw [← segmentsOf_canonicalText, h, segmentsOf_canonicalText]
  · intro t h
    obtain ⟨hallowed, hsegments⟩ := segmentsOf_eq_of_eqvGen h
    have hv := forall_isAllowed v
    obtain ⟨u, hu, heq⟩ := exists_of_segmentsOf_eq (hallowed.mp hv) (hsegments hv)
    exact ⟨u, hu, beq_iff_segments_eq.mpr heq⟩

/-- Two texts of one version, and a third with one more zero and a separator at the
end. -/
theorem beq_iff_canonicalText_eq_three_texts :
    ∃ v w u : Version, v.text = "1_02-RC.Main".toList ∧
      w.text = "-01.2rc__main".toList ∧
      v.canonicalText = "1.2.rc.main".toList ∧ (v == w) = true ∧
      ofText? "1_002-RC.Main." = some u ∧ (u == v) = true := by
  let v : Version := ⟨"1_02-RC.Main", by decide, by decide⟩
  let w : Version := ⟨"-01.2rc__main", by decide, by decide⟩
  have hv : v.canonicalText = "1.2.rc.main".toList := by decide +kernel
  have hw : w.canonicalText = "1.2.rc.main".toList := by decide +kernel
  have hlast : ∀ c ∈ "1_".toList.getLast?, c.isDigit = false := by
    rintro _ ⟨⟩
    rfl
  have hzero : Varied v.text "1_002-RC.Main" := .padded "1_" "2-RC.Main" 1 hlast rfl
  have hdot : Varied "1_002-RC.Main" "1_002-RC.Main." :=
    .trailing "1_002-RC.Main" rfl
  obtain ⟨-, -, hequal, hvaried⟩ := beq_iff_canonicalText_eq v w
  obtain ⟨u, hu, heq⟩ := hvaried "1_002-RC.Main."
    ((Relation.EqvGen.rel _ _ hzero).trans _ _ _ (.rel _ _ hdot))
  exact ⟨v, w, u, rfl, rfl, hv, hequal.mpr (hv.trans hw.symm), hu, heq⟩

end Version

end DevSpecs
