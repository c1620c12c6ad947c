import DevSpecs.Proofs.Version.Numerals
import DevSpecs.Proofs.Version.Runs

/-!
# The order of versions, read off the text

Runs have an order of their own: numerals are compared as natural numbers, other
runs of letters without regard to case and below every numeral, and the names of
branches are above every numeral.  Lists of runs are compared at the first place
where they differ, a proper prefix being smaller.  The main statement says that
this is how versions are compared, and that two numerals are compared without
arithmetic.
-/

namespace DevSpecs

namespace Version

/-! ## The order of runs -/

def IsLetters (run : Text) : Prop :=
  run ≠ [] ∧ ∀ c ∈ run, c.isAlpha = true

/-- A run without regard to the case of its letters. -/
def lowered (run : Text) : Text :=
  run.map Char.toLower

/-- The names above every number, from the highest to the lowest. -/
def highNames : List Text :=
  ["develop", "main", "master", "head", "trunk", "stable"]

def IsHighName (run : Text) : Prop :=
  IsLetters run ∧ lowered run ∈ highNames

def IsLowWord (run : Text) : Prop :=
  IsLetters run ∧ lowered run ∉ highNames

inductive RunBelow : Text → Text → Prop
  | words {x y : Text} (hx : IsLowWord x) (hy : IsLowWord y)
      (h : lowered x < lowered y) : RunBelow x y
  | word_numeral {x y : Text} (hx : IsLowWord x) (hy : IsNumeral y) :
      RunBelow x y
  | word_name {x y : Text} (hx : IsLowWord x) (hy : IsHighName y) :
      RunBelow x y
  | numerals {x y : Text} (hx : IsNumeral x) (hy : IsNumeral y)
      (h : numeralValue x < numeralValue y) : RunBelow x y
  | numeral_name {x y : Text} (hx : IsNumeral x) (hy : IsHighName y) :
      RunBelow x y
  | names {x y : Text} (hx : IsHighName x) (hy : IsHighName y)
      (h : highNames.idxOf (lowered y) < highNames.idxOf (lowered x)) :
      RunBelow x y

/-- Two runs count as the same. -/
inductive RunAlike : Text → Text → Prop
  | numerals {x y : Text} (hx : IsNumeral x) (hy : IsNumeral y)
      (h : numeralValue x = numeralValue y) : RunAlike x y
  | letters {x y : Text} (hx : IsLetters x) (hy : IsLetters y)
      (h : lowered x = lowered y) : RunAlike x y

/-- One list of runs comes before another: it ends where the other goes on, or
it has the lower run at the first place where they differ. -/
inductive RunsBelow : List Text → List Text → Prop
  | ends (y : Text) (ys : List Text) : RunsBelow [] (y :: ys)
  | first {x y : Text} (xs ys : List Text) (h : RunBelow x y) :
      RunsBelow (x :: xs) (y :: ys)
  | later {x y : Text} {xs ys : List Text} (h : RunAlike x y)
      (hrest : RunsBelow xs ys) : RunsBelow (x :: xs) (y :: ys)

theorem runsBelow_cons_iff {x y : Text} {xs ys : List Text} :
    RunsBelow (x :: xs) (y :: ys) ↔
      RunBelow x y ∨ RunAlike x y ∧ RunsBelow xs ys := by
  constructor
  · intro h
    cases h with
    | first _ _ hbelow => exact .inl hbelow
    | later halike hrest => exact .inr ⟨halike, hrest⟩
  · rintro (hbelow | ⟨halike, hrest⟩)
    · exact .first xs ys hbelow
    · exact .later halike hrest

/-! ## How runs are read -/

theorem ofRun_of_isLetters {run : Text} (h : IsLetters run) :
    Segment.ofRun run =
      match Branch.ofName? (lowered run) with
      | some b => .branch b
      | none => .word (lowered run) := by
  obtain ⟨c, hc⟩ := List.exists_mem_of_ne_nil run h.1
  have hnot : ¬run.all Char.isDigit = true := by
    intro hall
    have hdigit := isAlpha_of_isDigit (List.all_eq_true.mp hall c hc)
    rw [h.2 c hc] at hdigit
    contradiction
  rw [Segment.ofRun, if_neg hnot]
  rfl

theorem ofName?_name (b : Branch) : Branch.ofName? b.name = some b := by
  cases b <;> decide

theorem mem_highNames_iff {t : Text} : t ∈ highNames ↔ ∃ b : Branch, b.name = t := by
  constructor
  · intro h
    have hall : ∀ t ∈ highNames, ∃ b ∈ Branch.all, b.name = t := by decide
    obtain ⟨b, -, hb⟩ := hall t h
    exact ⟨b, hb⟩
  · rintro ⟨b, rfl⟩
    cases b <;> decide

theorem ofRun_of_isHighName {run : Text} (h : IsHighName run) :
    ∃ b : Branch, b.name = lowered run ∧ Segment.ofRun run = .branch b := by
  obtain ⟨b, hb⟩ := mem_highNames_iff.mp h.2
  refine ⟨b, hb, ?_⟩
  rw [ofRun_of_isLetters h.1, ← hb, ofName?_name]

theorem ofRun_of_isLowWord {run : Text} (h : IsLowWord run) :
    Segment.ofRun run = .word (lowered run) := by
  have hnone : Branch.ofName? (lowered run) = none := by
    rw [Branch.ofName?, List.find?_eq_none]
    intro b _ hb
    exact h.2 (mem_highNames_iff.mpr ⟨b, of_decide_eq_true hb⟩)
  rw [ofRun_of_isLetters h.1, hnone]

/-! ## Comparing runs -/

theorem compare_word (s t : Text) :
    compare (Segment.word s) (.word t) = compare s t :=
  Ordering.then_eq

/-- The order of branches is the one in which their names are listed. -/
theorem compare_branch_eq_lt_iff (a b : Branch) :
    compare (Segment.branch a) (.branch b) = .lt ↔
      highNames.idxOf b.name < highNames.idxOf a.name := by
  cases a <;> cases b <;> decide

variable {x y : Text}

theorem compare_of_runBelow (h : RunBelow x y) :
    compare (Segment.ofRun x) (Segment.ofRun y) = .lt := by
  cases h with
  | words hx hy h =>
      rw [ofRun_of_isLowWord hx, ofRun_of_isLowWord hy, compare_word]
      exact Text.compare_eq_lt_iff.mpr h
  | word_numeral hx hy =>
      rw [ofRun_of_isLowWord hx, ofRun_of_isNumeral hy]
      rfl
  | word_name hx hy =>
      obtain ⟨b, -, hb⟩ := ofRun_of_isHighName hy
      rw [ofRun_of_isLowWord hx, hb]
      rfl
  | numerals hx hy h =>
      rw [ofRun_of_isNumeral hx, ofRun_of_isNumeral hy, compare_number]
      exact Nat.compare_eq_lt.mpr h
  | numeral_name hx hy =>
      obtain ⟨b, -, hb⟩ := ofRun_of_isHighName hy
      rw [ofRun_of_isNumeral hx, hb]
      rfl
  | names hx hy h =>
      obtain ⟨a, haname, ha⟩ := ofRun_of_isHighName hx
      obtain ⟨b, hbname, hb⟩ := ofRun_of_isHighName hy
      rw [ha, hb, compare_branch_eq_lt_iff, haname, hbname]
      exact h

theorem ofRun_eq_of_runAlike (h : RunAlike x y) :
    Segment.ofRun x = Segment.ofRun y := by
  cases h with
  | numerals hx hy h => rw [ofRun_of_isNumeral hx, ofRun_of_isNumeral hy, h]
  | letters hx hy h => rw [ofRun_of_isLetters hx, ofRun_of_isLetters hy, h]

theorem run_cases {run : Text} (h : IsRun run) :
    IsLowWord run ∨ IsNumeral run ∨ IsHighName run := by
  obtain ⟨hne, kind, hrun⟩ := h
  cases kind with
  | digits => exact .inr (.inl ⟨hne, hrun⟩)
  | letters =>
      by_cases hname : lowered run ∈ highNames
      · exact .inr (.inr ⟨⟨hne, hrun⟩, hname⟩)
      · exact .inl ⟨⟨hne, hrun⟩, hname⟩

theorem words_trichotomy (hx : IsLowWord x) (hy : IsLowWord y) :
    RunBelow x y ∨ RunAlike x y ∨ RunBelow y x := by
  cases h : compare (lowered x) (lowered y) with
  | lt => exact .inl (.words hx hy (Text.compare_eq_lt_iff.mp h))
  | eq =>
      have heq : lowered x = lowered y := Std.LawfulEqOrd.eq_of_compare h
      exact .inr (.inl (.letters hx.1 hy.1 heq))
  | gt =>
      have hlt : compare (lowered y) (lowered x) = .lt :=
        Std.OrientedCmp.lt_of_gt h
      exact .inr (.inr (.words hy hx (Text.compare_eq_lt_iff.mp hlt)))

theorem numerals_trichotomy (hx : IsNumeral x) (hy : IsNumeral y) :
    RunBelow x y ∨ RunAlike x y ∨ RunBelow y x := by
  rcases Nat.lt_trichotomy (numeralValue x) (numeralValue y) with h | h | h
  · exact .inl (.numerals hx hy h)
  · exact .inr (.inl (.numerals hx hy h))
  · exact .inr (.inr (.numerals hy hx h))

theorem names_trichotomy (hx : IsHighName x) (hy : IsHighName y) :
    RunBelow x y ∨ RunAlike x y ∨ RunBelow y x := by
  rcases Nat.lt_trichotomy (highNames.idxOf (lowered x))
    (highNames.idxOf (lowered y)) with h | h | h
  · exact .inr (.inr (.names hy hx h))
  · have heq : lowered x = lowered y := (List.idxOf_inj hx.2).mp h
    exact .inr (.inl (.letters hx.1 hy.1 heq))
  · exact .inl (.names hx hy h)

/-- Of two runs, one is below the other or they count as the same. -/
theorem run_trichotomy (hx : IsRun x) (hy : IsRun y) :
    RunBelow x y ∨ RunAlike x y ∨ RunBelow y x := by
  rcases run_cases hx with hx | hx | hx <;> rcases run_cases hy with hy | hy | hy
  · exact words_trichotomy hx hy
  · exact .inl (.word_numeral hx hy)
  · exact .inl (.word_name hx hy)
  · exact .inr (.inr (.word_numeral hy hx))
  · exact numerals_trichotomy hx hy
  · exact .inl (.numeral_name hx hy)
  · exact .inr (.inr (.word_name hy hx))
  · exact .inr (.inr (.numeral_name hy hx))
  · exact names_trichotomy hx hy

/-- How two runs compare is decided by where they stand in the order. -/
theorem compare_ofRun_iff (hx : IsRun x) (hy : IsRun y) :
    (compare (Segment.ofRun x) (Segment.ofRun y) = .lt ↔ RunBelow x y) ∧
      (compare (Segment.ofRun x) (Segment.ofRun y) = .eq ↔ RunAlike x y) := by
  have halike : RunAlike x y →
      compare (Segment.ofRun x) (Segment.ofRun y) = .eq := by
    intro h
    rw [ofRun_eq_of_runAlike h]
    exact Std.ReflCmp.compare_self
  have habove : RunBelow y x →
      compare (Segment.ofRun x) (Segment.ofRun y) = .gt :=
    fun h => Std.OrientedCmp.gt_of_lt (compare_of_runBelow h)
  constructor
  · refine ⟨fun hlt => ?_, compare_of_runBelow⟩
    rcases run_trichotomy hx hy with h | h | h
    · exact h
    · simp [halike h] at hlt
    · simp [habove h] at hlt
  · refine ⟨fun heq => ?_, halike⟩
    rcases run_trichotomy hx hy with h | h | h
    · simp [compare_of_runBelow h] at heq
    · exact h
    · simp [habove h] at heq

/-! ## Comparing lists of runs -/

section Lists

variable {xs ys : List Text}

theorem compare_map_ofRun_eq_lt_iff (hxs : ∀ x ∈ xs, IsRun x)
    (hys : ∀ y ∈ ys, IsRun y) :
    compare (xs.map Segment.ofRun) (ys.map Segment.ofRun) = .lt ↔
      RunsBelow xs ys := by
  induction xs generalizing ys with
  | nil =>
      cases ys with
      | nil => exact iff_of_false (by simp) nofun
      | cons y ys => exact iff_of_true rfl (.ends y ys)
  | cons x xs ih =>
      cases ys with
      | nil => exact iff_of_false (by simp) nofun
      | cons y ys =>
          obtain ⟨hx, hxs⟩ := List.forall_mem_cons.mp hxs
          obtain ⟨hy, hys⟩ := List.forall_mem_cons.mp hys
          obtain ⟨hbelow, halike⟩ := compare_ofRun_iff hx hy
          rw [List.map_cons, List.map_cons, List.compare_cons_cons,
            Ordering.then_eq_lt, hbelow, halike, ih hxs hys,
            runsBelow_cons_iff]

theorem compare_map_ofRun_eq_iff (hxs : ∀ x ∈ xs, IsRun x)
    (hys : ∀ y ∈ ys, IsRun y) :
    compare (xs.map Segment.ofRun) (ys.map Segment.ofRun) = .eq ↔
      List.Forall₂ RunAlike xs ys := by
  induction xs generalizing ys with
  | nil =>
      cases ys with
      | nil => exact iff_of_true rfl .nil
      | cons y ys => exact iff_of_false (by simp) nofun
  | cons x xs ih =>
      cases ys with
      | nil => exact iff_of_false (by simp) nofun
      | cons y ys =>
          obtain ⟨hx, hxs⟩ := List.forall_mem_cons.mp hxs
          obtain ⟨hy, hys⟩ := List.forall_mem_cons.mp hys
          rw [List.map_cons, List.map_cons, List.compare_cons_cons,
            Ordering.then_eq_eq, (compare_ofRun_iff hx hy).2, ih hxs hys,
            List.forall₂_cons]

end Lists

theorem text_of_ofText? {t : Text} {v : Version} (h : ofText? t = some v) :
    v.text = t := by
  rw [ofText?] at h
  split at h
  next =>
    split at h
    next => exact congrArg text (Option.some.inj h).symm
    next => contradiction
  next => contradiction

/-- The maximal runs of a text of a version are determined, and versions are
compared by the order of these runs.  Numerals of any length are compared by length
and then as texts, without the zeros in front. -/
theorem compare_follows_runs {a b : Text} {v w : Version}
    (ha : ofText? a = some v) (hb : ofText? b = some w) :
    ∃ xs ys,
      (∀ rs, MaximalRuns a rs ↔ rs = xs) ∧ (∀ rs, MaximalRuns b rs ↔ rs = ys) ∧
        (compare v w = .lt ↔ RunsBelow xs ys) ∧
        (compare v w = .eq ↔ List.Forall₂ RunAlike xs ys) ∧
        (compare v w = .gt ↔ RunsBelow ys xs) ∧
        ∀ x ∈ xs, ∀ y ∈ ys, IsNumeral x → IsNumeral y →
          compare (Segment.ofRun x) (Segment.ofRun y) =
            (compare (reduced x).length (reduced y).length).then
              (compare (reduced x) (reduced y)) := by
  obtain rfl := text_of_ofText? ha
  obtain rfl := text_of_ofText? hb
  have hv := maximalRuns_runs (forall_isAllowed v)
  have hw := maximalRuns_runs (forall_isAllowed w)
  have hxs : ∀ x ∈ runs v.text, IsRun x := fun x hx => hv.isRun hx
  have hys : ∀ y ∈ runs w.text, IsRun y := fun y hy => hw.isRun hy
  refine ⟨runs v.text, runs w.text, maximalRuns_iff (forall_isAllowed v),
    maximalRuns_iff (forall_isAllowed w), ?_, ?_, ?_,
    fun x _ y _ => compare_ofRun_of_isNumeral⟩
  · exact compare_map_ofRun_eq_lt_iff hxs hys
  · exact compare_map_ofRun_eq_iff hxs hys
  · rw [Std.OrientedCmp.gt_iff_lt]
    exact compare_map_ofRun_eq_lt_iff hys hxs

/-- Separators, zeros in front and letter case do not matter, and a long numeral
is still below the name of a branch. -/
theorem compare_follows_runs_long_numeral :
    ∃ (a b : Text) (v w : Version) (xs ys : List Text),
      a = "1_02RC20240101120000000001".toList ∧ b = "01.2.rc-Main".toList ∧
      ofText? a = some v ∧ ofText? b = some w ∧
      xs = ["1", "02", "RC", "20240101120000000001"].map String.toList ∧
      ys = ["01", "2", "rc", "Main"].map String.toList ∧
      MaximalRuns a xs ∧ MaximalRuns b ys ∧ RunsBelow xs ys := by
  let v : Version := ⟨"1_02RC20240101120000000001", by decide, by decide⟩
  let w : Version := ⟨"01.2.rc-Main", by decide, by decide⟩
  have hv : ofText? v.text = some v := rfl
  have hw : ofText? w.text = some w := rfl
  obtain ⟨xs, ys, hxs, hys, hbelow, -, -, -⟩ := compare_follows_runs hv hw
  have hruns : xs = ["1", "02", "RC", "20240101120000000001"].map String.toList := by
    rw [← (hxs _).mp (maximalRuns_runs (forall_isAllowed v))]
    decide +kernel
  have hruns' : ys = ["01", "2", "rc", "Main"].map String.toList := by
    rw [← (hys _).mp (maximalRuns_runs (forall_isAllowed w))]
    decide +kernel
  have hlt : compare v w = .lt := by decide +kernel
  exact ⟨v.text, w.text, v, w, xs, ys, rfl, rfl, hv, hw, hruns, hruns',
    (hxs xs).mpr rfl, (hys ys).mpr rfl, hbelow.mp hlt⟩

end Version

end DevSpecs
