import DevSpecs.Version.Basic
import DevSpecs.Proofs.Text.Words
import Mathlib.Data.List.SplitBy

/-!
# Runs of a version

A version is read run by run: each run consists of digits only or of letters
only, and it ends where its kind of character ends.  This file says what the
runs of a text are, without saying how they are found, and shows that every
text of a version has exactly one such list of runs, which is the one that is
read.
-/

namespace DevSpecs

namespace Version

inductive RunKind where
  | digits
  | letters
  deriving DecidableEq

def RunKind.holds : RunKind → Char → Bool
  | digits => Char.isDigit
  | letters => Char.isAlpha

/-- A nonempty text of one kind. -/
def IsRun (run : Text) : Prop :=
  run ≠ [] ∧ ∃ kind : RunKind, ∀ c ∈ run, kind.holds c = true

/-- The maximal runs of a text, from the left.  What follows a run does not start
with a character of its kind, and separators belong to no run. -/
inductive MaximalRuns : Text → List Text → Prop
  | nil : MaximalRuns [] []
  | separator {c : Char} {t : Text} {runs : List Text}
      (hc : isSeparator c = true) (hrest : MaximalRuns t runs) :
      MaximalRuns (c :: t) runs
  | run {run rest : Text} {runs : List Text} (kind : RunKind)
      (hne : run ≠ []) (hrun : ∀ c ∈ run, kind.holds c = true)
      (hend : ∀ c ∈ rest.head?, kind.holds c = false)
      (hrest : MaximalRuns rest runs) :
      MaximalRuns (run ++ rest) (run :: runs)

/-! ## Characters -/

/-- The characters that a version may have. -/
def isAllowed (c : Char) : Bool :=
  Text.isAlphanumeric c || isSeparator c

theorem isAlpha_of_isDigit {c : Char} (h : c.isDigit = true) :
    c.isAlpha = false := by
  have hdigit : 48 ≤ c.toNat ∧ c.toNat ≤ 57 := by
    simpa [Char.isDigit, UInt32.le_iff_toNat_le] using h
  rw [← Bool.not_eq_true]
  intro halpha
  have hletter : 65 ≤ c.toNat := by
    change (decide (65 ≤ c.val ∧ c.val ≤ 90) ||
      decide (97 ≤ c.val) && decide (c.val ≤ 122)) = true at halpha
    simp only [Bool.or_eq_true, Bool.and_eq_true, decide_eq_true_eq,
      UInt32.le_iff_toNat_le] at halpha
    change (65 ≤ c.toNat ∧ _) ∨ (97 ≤ c.toNat ∧ _) at halpha
    omega
  omega

theorem RunKind.isAlphanumeric_of_holds {kind : RunKind} {c : Char}
    (h : kind.holds c = true) : Text.isAlphanumeric c = true := by
  rw [Text.isAlphanumeric, Bool.or_eq_true]
  cases kind with
  | digits => exact Or.inr h
  | letters => exact Or.inl h

theorem RunKind.isAllowed_of_holds {kind : RunKind} {c : Char}
    (h : kind.holds c = true) : isAllowed c = true := by
  rw [isAllowed, isAlphanumeric_of_holds h, Bool.true_or]

theorem isAllowed_of_isSeparator {c : Char} (h : isSeparator c = true) :
    isAllowed c = true := by
  rw [isAllowed, h, Bool.or_true]

theorem isAlphanumeric_of_isSeparator {c : Char} (h : isSeparator c = true) :
    Text.isAlphanumeric c = false := by
  have hchars : c = '.' ∨ c = '-' ∨ c = '_' := by simpa [isSeparator] using h
  rcases hchars with rfl | rfl | rfl <;> rfl

theorem RunKind.isSeparator_of_holds {kind : RunKind} {c : Char}
    (h : kind.holds c = true) : isSeparator c = false := by
  rw [← Bool.not_eq_true]
  intro hc
  have halphanumeric := isAlphanumeric_of_holds h
  rw [isAlphanumeric_of_isSeparator hc] at halphanumeric
  contradiction

/-- An allowed character separates runs or belongs to one of the kinds. -/
theorem exists_holds_of_isAllowed {c : Char} (h : isAllowed c = true)
    (hc : isSeparator c = false) : ∃ kind : RunKind, kind.holds c = true := by
  rw [isAllowed, hc, Bool.or_false, Text.isAlphanumeric, Bool.or_eq_true] at h
  rcases h with halpha | hdigit
  · exact ⟨.letters, halpha⟩
  · exact ⟨.digits, hdigit⟩

theorem RunKind.isDigit_of_holds {kind : RunKind} {c : Char}
    (h : kind.holds c = true) : c.isDigit = decide (kind = .digits) := by
  cases kind with
  | digits => exact h
  | letters =>
      have halpha : c.isAlpha = true := h
      change c.isDigit = false
      rw [← Bool.not_eq_true]
      intro hdigit
      rw [isAlpha_of_isDigit hdigit] at halpha
      contradiction

/-- Whether it is a digit tells apart a character of a run from one that ends
it. -/
theorem RunKind.isDigit_ne {kind : RunKind} {c d : Char}
    (hc : kind.holds c = true) (hd : kind.holds d = false)
    (hallowed : isAllowed d = true) (hsep : isSeparator d = false) :
    (c.isDigit == d.isDigit) = false := by
  obtain ⟨other, hother⟩ := exists_holds_of_isAllowed hallowed hsep
  have hne : other ≠ kind := by
    rintro rfl
    rw [hd] at hother
    contradiction
  rw [isDigit_of_holds hc, isDigit_of_holds hother]
  cases kind <;> cases other <;> simp at hne ⊢

/-! ## The runs that are read -/

def runs (t : Text) : List Text :=
  (t.splitOnP isSeparator).flatMap runsOf

theorem segmentsOf_eq (t : Text) : segmentsOf t = (runs t).map Segment.ofRun :=
  rfl

theorem runs_nil : runs [] = [] :=
  rfl

/-- The parts on both sides of a separator are read on their own. -/
theorem runs_append_separator {c : Char} (s : Text) (hc : isSeparator c = true)
    (t : Text) : runs (s ++ c :: t) = runs s ++ runs t := by
  rw [runs, List.splitOnP_append_cons s t hc, List.flatMap_append]
  rfl

theorem segmentsOf_append_separator {c : Char} (s : Text)
    (hc : isSeparator c = true) (t : Text) :
    segmentsOf (s ++ c :: t) = segmentsOf s ++ segmentsOf t := by
  simp only [segmentsOf_eq, runs_append_separator s hc t, List.map_append]

theorem runs_cons_separator {c : Char} (hc : isSeparator c = true) (t : Text) :
    runs (c :: t) = runs t :=
  runs_append_separator [] hc t

/-- A part without separators is read on its own if a separator ends it. -/
theorem runs_field_append {field rest : Text}
    (hfield : ∀ c ∈ field, isSeparator c = false)
    (hrest : ∀ c ∈ rest.head?, isSeparator c = true) :
    runs (field ++ rest) = runsOf field ++ runs rest := by
  cases rest with
  | nil =>
      rw [List.append_nil, runs_nil, List.append_nil, runs,
        List.splitOnP_eq_singleton hfield]
      exact List.flatMap_singleton _ _
  | cons c rest =>
      have hc : isSeparator c = true := hrest c rfl
      rw [runs_append_separator field hc rest, runs_cons_separator hc, runs,
        List.splitOnP_eq_singleton hfield, List.flatMap_singleton]

/-- A run with a different character after it is the first that is read. -/
theorem runs_run_append {run rest : Text} {kind : RunKind} (hne : run ≠ [])
    (hrun : ∀ c ∈ run, kind.holds c = true)
    (hend : ∀ c ∈ rest.head?, kind.holds c = false)
    (hallowed : ∀ c ∈ rest.head?, isAllowed c = true) :
    runs (run ++ rest) = run :: runs rest := by
  let field := rest.takeWhile (!isSeparator ·)
  let after := rest.dropWhile (!isSeparator ·)
  have hsplit : field ++ after = rest := List.takeWhile_append_dropWhile
  have hfield : ∀ c ∈ field, isSeparator c = false := by
    intro c hc
    simpa using List.all_eq_true.mp List.all_takeWhile c hc
  have hafter : ∀ c ∈ after.head?, isSeparator c = true := by
    intro c hc
    simpa using Text.head?_dropWhile c hc
  have hwhole : ∀ c ∈ run ++ field, isSeparator c = false := by
    intro c hc
    rcases List.mem_append.mp hc with hc | hc
    · exact RunKind.isSeparator_of_holds (hrun c hc)
    · exact hfield c hc
  have halone : runsOf run = [run] := by
    refine List.splitBy_of_isChain hne (List.Pairwise.isChain ?_)
    refine List.pairwise_of_forall_mem_list fun c hc d hd => ?_
    rw [RunKind.isDigit_of_holds (hrun c hc), RunKind.isDigit_of_holds (hrun d hd)]
    exact beq_self_eq_true _
  have hjoin : runsOf (run ++ field) = run :: runsOf field := by
    rw [runsOf, List.splitBy_append, ← runsOf, ← runsOf, halone]
    · rfl
    · intro c hc d hd
      have hhead : d ∈ rest.head? := by
        rw [← hsplit, List.head?_append, Option.mem_def.mp hd]
        rfl
      exact RunKind.isDigit_ne (hrun c (List.mem_of_getLast? hc)) (hend d hhead)
        (hallowed d hhead) (hfield d (List.mem_of_mem_head? hd))
  rw [← hsplit, ← List.append_assoc, runs_field_append hwhole hafter, hjoin,
    runs_field_append hfield hafter]
  rfl

/-! ## Existence and uniqueness -/

theorem MaximalRuns.allowed {t : Text} {rs : List Text} (h : MaximalRuns t rs) :
    ∀ c ∈ t, isAllowed c = true := by
  induction h with
  | nil => simp
  | separator hc _ ih =>
      intro d hd
      rcases List.mem_cons.mp hd with rfl | hd
      · exact isAllowed_of_isSeparator hc
      · exact ih d hd
  | run kind _ hrun _ _ ih =>
      intro d hd
      rcases List.mem_append.mp hd with hd | hd
      · exact RunKind.isAllowed_of_holds (hrun d hd)
      · exact ih d hd

theorem MaximalRuns.eq_runs {t : Text} {rs : List Text} (h : MaximalRuns t rs) :
    rs = runs t := by
  induction h with
  | nil => rfl
  | separator hc _ ih => rw [runs_cons_separator hc, ih]
  | run kind hne hrun hend hrest ih =>
      have hallowed := fun c hc => hrest.allowed c (List.mem_of_mem_head? hc)
      rw [runs_run_append hne hrun hend hallowed, ih]

/-- The runs that are read in a text of allowed characters are its maximal
runs. -/
theorem maximalRuns_runs {t : Text} (h : ∀ c ∈ t, isAllowed c = true) :
    MaximalRuns t (runs t) := by
  -- A whole run is taken from the text at once, so the induction is on the length.
  induction hlength : t.length using Nat.strong_induction_on generalizing t with
  | _ n ih =>
      subst hlength
      cases t with
      | nil => exact .nil
      | cons c t =>
          cases hc : isSeparator c with
          | true =>
              rw [runs_cons_separator hc]
              refine .separator hc (ih t.length (by simp) ?_ rfl)
              exact fun d hd => h d (List.mem_cons_of_mem c hd)
          | false =>
              obtain ⟨kind, hkind⟩ :=
                exists_holds_of_isAllowed (h c List.mem_cons_self) hc
              let run := (c :: t).takeWhile kind.holds
              let rest := (c :: t).dropWhile kind.holds
              have hsplit : run ++ rest = c :: t :=
                List.takeWhile_append_dropWhile
              have hne : run ≠ [] := by
                simp [run, hkind]
              have hrun : ∀ d ∈ run, kind.holds d = true :=
                List.all_eq_true.mp List.all_takeWhile
              have hend : ∀ d ∈ rest.head?, kind.holds d = false :=
                Text.head?_dropWhile
              have hrest : ∀ d ∈ rest, isAllowed d = true :=
                fun d hd => h d ((List.dropWhile_sublist _).subset hd)
              have hshorter : rest.length < (c :: t).length := by
                rw [← hsplit, List.length_append]
                have := List.length_pos_iff.mpr hne
                omega
              rw [← hsplit, runs_run_append hne hrun hend
                fun d hd => hrest d (List.mem_of_mem_head? hd)]
              exact .run kind hne hrun hend (ih rest.length hshorter hrest rfl)

/-- A text of allowed characters has exactly one list of maximal runs. -/
theorem maximalRuns_iff {t : Text} (h : ∀ c ∈ t, isAllowed c = true)
    (rs : List Text) : MaximalRuns t rs ↔ rs = runs t := by
  constructor
  · exact MaximalRuns.eq_runs
  · rintro rfl
    exact maximalRuns_runs h

theorem MaximalRuns.isRun {t run : Text} {rs : List Text}
    (h : MaximalRuns t rs) (hrun : run ∈ rs) : IsRun run := by
  induction h with
  | nil => simp at hrun
  | separator _ _ ih => exact ih hrun
  | run kind hne hall _ _ ih =>
      rcases List.mem_cons.mp hrun with rfl | hrun
      · exact ⟨hne, kind, hall⟩
      · exact ih hrun

/-! ## Texts that name versions -/

theorem forall_isAllowed (v : Version) : ∀ c ∈ v.text, isAllowed c = true :=
  List.all_eq_true.mp v.allowed

theorem ofText?_text (v : Version) : ofText? v.text = some v := by
  rw [ofText?, dif_pos v.allowed, dif_pos v.nonempty]

/-- A text names a version when it has allowed characters only and one of them
is a letter or a digit. -/
theorem exists_text_eq {t : Text} (hallowed : ∀ c ∈ t, isAllowed c = true)
    (hnonempty : ∃ c ∈ t, Text.isAlphanumeric c = true) :
    ∃ v : Version, v.text = t :=
  ⟨⟨t, List.all_eq_true.mpr hallowed, List.any_eq_true.mpr hnonempty⟩, rfl⟩

/-- The runs take up the letters and digits of a text. -/
theorem MaximalRuns.ne_nil_iff {t : Text} {rs : List Text}
    (h : MaximalRuns t rs) :
    rs ≠ [] ↔ ∃ c ∈ t, Text.isAlphanumeric c = true := by
  induction h with
  | nil => simp
  | separator hc _ ih => simp [ih, isAlphanumeric_of_isSeparator hc]
  | @run run rest rs kind hne hrun _ _ _ =>
      obtain ⟨c, hc⟩ := List.exists_mem_of_ne_nil run hne
      refine iff_of_true (List.cons_ne_nil run rs) ⟨c, ?_, ?_⟩
      · exact List.mem_append_left rest hc
      · exact RunKind.isAlphanumeric_of_holds (hrun c hc)

theorem segments_ne_nil (v : Version) : v.segments ≠ [] := by
  have hruns : runs v.text ≠ [] :=
    (maximalRuns_runs (forall_isAllowed v)).ne_nil_iff.mpr
      (List.any_eq_true.mp v.nonempty)
  rw [segments, segmentsOf_eq]
  exact fun h => hruns (List.map_eq_nil_iff.mp h)

end Version

end DevSpecs
