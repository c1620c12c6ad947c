import DevSpecs.Proofs.Version.Walk
import DevSpecs.Proofs.Dependency.Declared
import DevSpecs.Proofs.Dependency.Asking

/-!
# Supported answers

A dependency hands out its minimum, the newest version and the newest external.
Externals are always supported.  The other two need not be, because a declared
range may have its bounds the wrong way round.  The main statement says exactly
when every version that is handed out, at any point of any run of questions, is
one that the dependency supports.
-/

namespace DevSpecs

namespace VersionRange

/-- The walk up to `limit` ends below it on an inverted range, and no range
contains the upper bound of that range. -/
def EndsOutside (limit : Version) (ranges : List VersionRange) : Prop :=
  (∀ r ∈ visited limit ranges, r.reaches limit = false) ∧
    ∃ last ∈ (visited limit ranges).getLast?, last.Inverted ∧
      ∀ bound ∈ last.upper, ∀ r ∈ ranges, r.contains bound = false

instance (limit : Version) (ranges : List VersionRange) :
    Decidable (EndsOutside limit ranges) :=
  inferInstanceAs (Decidable (_ ∧ ∃ last ∈ (visited limit ranges).getLast?,
    last.Inverted ∧ ∀ bound ∈ last.upper, ∀ r ∈ ranges, _))

/-- What the walk answers lies in a range unless the walk ends outside. -/
theorem exists_contains_iff_of_newestUpTo?
    {limit v : Version} {ranges : List VersionRange}
    (h : newestUpTo? limit ranges = some v) :
    (∃ r ∈ ranges, r.contains v = true) ↔ ¬EndsOutside limit ranges := by
  rcases newestUpTo?_cases limit ranges with
    ⟨r, hr, hreach, hnewest⟩ | ⟨_, hnewest⟩ |
      ⟨last, bound, hlast, hupper, _, hnone, hnewest⟩
  · obtain ⟨hmem, hstart⟩ := mem_visited hr
    obtain rfl : limit = v := Option.some.inj (hnewest.symm.trans h)
    refine iff_of_true ⟨r, hmem, contains_iff.mpr ⟨hstart, hreach⟩⟩ ?_
    rintro ⟨hall, _⟩
    simp [hall r hr] at hreach
  · simp [hnewest] at h
  · obtain rfl : bound = v := Option.some.inj (hnewest.symm.trans h)
    have hmem := (mem_visited (List.mem_of_getLast? hlast)).1
    constructor
    · rintro ⟨r, hr, hcontains⟩ ⟨_, other, hother, _, houtside⟩
      obtain rfl : last = other :=
        Option.some.inj (hlast.symm.trans hother)
      simp [houtside bound hupper r hr] at hcontains
    · intro hends
      by_cases hinverted : last.Inverted
      · refine Classical.byContradiction fun hno => hends ?_
        refine ⟨hnone, last, hlast, hinverted, ?_⟩
        intro b hb r hr
        obtain rfl : bound = b := Option.some.inj (hupper.symm.trans hb)
        exact Bool.eq_false_iff.mpr fun hc => hno ⟨r, hr, hc⟩
      · exact ⟨last, hmem, (contains_upper_iff hupper).mpr hinverted⟩

/-- A walk that ends outside does give an answer. -/
theorem EndsOutside.exists_newestUpTo?
    {limit : Version} {ranges : List VersionRange}
    (h : EndsOutside limit ranges) :
    ∃ v, newestUpTo? limit ranges = some v := by
  obtain ⟨hall, last, hlast, _⟩ := h
  rcases newestUpTo?_cases limit ranges with
    ⟨r, hr, hreach, _⟩ | ⟨hnil, _⟩ | ⟨_, bound, _, _, _, _, hnewest⟩
  · simp [hall r hr] at hreach
  · simp [hnil] at hlast
  · exact ⟨bound, hnewest⟩

theorem not_endsOutside_of_proper
    {limit : Version} {ranges : List VersionRange}
    (h : ∀ r ∈ ranges, ¬r.Inverted) : ¬EndsOutside limit ranges := by
  rintro ⟨_, last, hlast, hinverted, _⟩
  have hmem := (mem_visited (List.mem_of_getLast? hlast)).1
  exact h last hmem hinverted

theorem contains_of_newestInAll?
    {v : Version} {ranges : List VersionRange} {versions : List Version}
    (h : newestInAll? ranges versions = some v) :
    ∀ r ∈ ranges, r.contains v = true := by
  have hmem := mem_of_maxLast? h
  rw [List.mem_filter, List.all_eq_true] at hmem
  exact hmem.2

end VersionRange

open VersionRange

namespace Dependency

variable {d : Dependency} {index : Index}

/-! ## What is learnt -/

/-- What has been learnt was answered by the index at some point. -/
structure Sound (d : Dependency) (index : Index) (learnt : Learnt) : Prop where
  latest : ∀ v ∈ learnt.latest, ∃ history newest,
    index.latest history d.package = .ok newest ∧
      newestUpTo? newest d.ranges = some v
  external : ∀ answer ∈ learnt.external, ∃ history versions,
    index.externals history d.package = .ok versions ∧
      answer = newestInAll? d.ranges versions

theorem sound_empty : Sound d index {} :=
  ⟨by simp, by simp⟩

theorem sound_newestVersion {s : Knowledge} (hs : Sound d index s.1) :
    Sound d index ((d.newestVersion index).run s).2.1 := by
  have hends := newestVersion_ends d index s
  generalize (d.newestVersion index).run s = r at hends
  cases hends with
  | unconstrained _ => exact hs
  | repeated _ _ _ => exact hs
  | failed _ _ _ _ => exact hs
  | empty _ _ _ _ _ => exact hs
  | found newest v _ _ hquery hwalk =>
      refine ⟨?_, hs.external⟩
      rintro _ ⟨⟩
      exact ⟨s.2, newest, hquery, hwalk⟩

theorem sound_newestExternal {s : Knowledge} (hs : Sound d index s.1) :
    Sound d index ((d.newestExternal index).run s).2.1 := by
  have hends := newestExternal_ends d index s
  generalize (d.newestExternal index).run s = r at hends
  cases hends with
  | repeated _ _ => exact hs
  | failed _ _ _ => exact hs
  | found versions _ hquery =>
      refine ⟨hs.latest, ?_⟩
      rintro _ ⟨⟩
      exact ⟨s.2, versions, hquery, rfl⟩

/-- Whatever is learnt in a run of questions was answered by the index. -/
theorem sound_afterAll (history : History) (questions : List Question) :
    Sound d index (afterAll d index ({}, history) questions).1 :=
  afterAll_preserves (P := fun s => Sound d index s.1)
    (fun _ => sound_newestVersion) (fun _ => sound_newestExternal)
    sound_empty questions

/-- A newest version is what the walk answers for a version of the index. -/
theorem exists_walk_of_newestVersion {s t : Knowledge} {v : Version}
    (hs : Sound d index s.1)
    (h : (d.newestVersion index).run s = (.ok (some v), t)) :
    ∃ history newest, index.latest history d.package = .ok newest ∧
      newestUpTo? newest d.ranges = some v := by
  have hends := newestVersion_ends d index s
  rw [h] at hends
  cases hends with
  | repeated _ _ hlearnt => exact hs.latest v hlearnt
  | found newest _ _ _ hquery hwalk => exact ⟨s.2, newest, hquery, hwalk⟩

/-- A newest external is the newest of some versions of the index. -/
theorem exists_versions_of_newestExternal {s t : Knowledge}
    {answer : Option Version} (hs : Sound d index s.1)
    (h : (d.newestExternal index).run s = (.ok answer, t)) :
    ∃ history versions, index.externals history d.package = .ok versions ∧
      answer = newestInAll? d.ranges versions := by
  have hends := newestExternal_ends d index s
  rw [h] at hends
  cases hends with
  | repeated _ hlearnt => exact hs.external answer hlearnt
  | found versions _ hquery => exact ⟨s.2, versions, hquery, rfl⟩

/-! ## What is handed out -/

/-- Every version that a dependency hands out is one that it supports, after any
run of questions to the index. -/
structure HandsOutSupported (d : Dependency) (index : Index) : Prop where
  minimum : ∀ v ∈ d.minimum?, d.supports v = true
  latest : ∀ history questions v t,
    (d.newestVersion index).run (afterAll d index ({}, history) questions) =
      (.ok (some v), t) → d.supports v = true
  external : ∀ history questions v t,
    (d.newestExternal index).run (afterAll d index ({}, history) questions) =
      (.ok (some v), t) → d.supports v = true

/-- Some range that starts at the minimum is not inverted. -/
def MinimumInside (d : Dependency) : Prop :=
  ∃ minimum ∈ d.minimum?, ∃ r ∈ d.ranges, ¬r.Inverted ∧
    ∃ lower ∈ r.lower, (lower == minimum) = true

instance (d : Dependency) : Decidable (MinimumInside d) :=
  inferInstanceAs (Decidable (∃ minimum ∈ d.minimum?, ∃ r ∈ d.ranges,
    ¬r.Inverted ∧ ∃ lower ∈ r.lower, _))

/-- A supported external lies in every range, so in some range. -/
theorem supports_newestExternal (hranges : d.ranges ≠ [])
    {history : History} {questions : List Question} {v : Version} {t : Knowledge}
    (h : (d.newestExternal index).run
      (afterAll d index ({}, history) questions) = (.ok (some v), t)) :
    d.supports v = true := by
  obtain ⟨_, versions, _, hv⟩ :=
    exists_versions_of_newestExternal (sound_afterAll history questions) h
  obtain ⟨first, hfirst⟩ := List.exists_mem_of_ne_nil d.ranges hranges
  rw [supports_iff hranges]
  exact ⟨first, hfirst, contains_of_newestInAll? hv.symm first hfirst⟩

/-- The minimum is supported exactly when some range that starts at it is not
inverted. -/
theorem supports_minimum_iff {spec : Text} {when : Option Text}
    (h : Dependency.parse spec when = .ok d) (hranges : d.ranges ≠ []) :
    (∀ v ∈ d.minimum?, d.supports v = true) ↔ MinimumInside d := by
  obtain ⟨minimum, hminimum, _, hall⟩ := exists_minimum h hranges
  constructor
  · intro hsupports
    obtain ⟨r, hr, hcontains⟩ :=
      (supports_iff hranges minimum).mp (hsupports minimum hminimum)
    obtain ⟨lower, hlower, hle⟩ := hall r hr
    obtain ⟨hstart, hreach⟩ := contains_iff.mp hcontains
    have hge : lower ≤ minimum := startsBy_iff.mp hstart lower hlower
    refine ⟨minimum, hminimum, r, hr, ?_, lower, hlower,
      Std.beq_iff_le_and_ge.mpr ⟨hge, hle⟩⟩
    rintro ⟨_, hlower', upper, hupper, hlt⟩
    obtain rfl := Option.some.inj (hlower.symm.trans hlower')
    exact Std.not_le.mpr hlt
      (Std.le_trans hge (reaches_iff.mp hreach upper hupper))
  · rintro ⟨start, hstart, r, hr, hproper, lower, hlower, heq⟩ v hv
    obtain rfl : start = v := Option.some.inj (hstart.symm.trans hv)
    have hcontains : r.contains start = true :=
      contains_of_beq heq ((contains_lower_iff hlower).mpr hproper)
    exact (supports_iff hranges start).mpr ⟨r, hr, hcontains⟩

/-- The newest version is supported whatever the index answers exactly when no
answer makes the walk end outside. -/
theorem supports_newestVersion_iff (hranges : d.ranges ≠ []) :
    (∀ history questions v t,
      (d.newestVersion index).run (afterAll d index ({}, history) questions) =
        (.ok (some v), t) → d.supports v = true) ↔
      ∀ history newest, index.latest history d.package = .ok newest →
        ¬EndsOutside newest d.ranges := by
  constructor
  · intro hsupports history newest hquery hends
    obtain ⟨v, hwalk⟩ := hends.exists_newestUpTo?
    have hrun := newestVersion_of_query (s := ({}, history)) hranges rfl
      hquery hwalk
    have hv := hsupports history [] v _ hrun
    rw [supports_iff hranges] at hv
    exact (exists_contains_iff_of_newestUpTo? hwalk).mp hv hends
  · intro hinside history questions v t hrun
    obtain ⟨earlier, newest, hquery, hwalk⟩ :=
      exists_walk_of_newestVersion (sound_afterAll history questions) hrun
    rw [supports_iff hranges]
    exact (exists_contains_iff_of_newestUpTo? hwalk).mpr
      (hinside earlier newest hquery)

/-- Without inverted ranges everything that is handed out is supported. -/
theorem handsOutSupported_of_proper {spec : Text} {when : Option Text}
    (h : Dependency.parse spec when = .ok d) (hranges : d.ranges ≠ [])
    (hproper : ∀ r ∈ d.ranges, ¬r.Inverted) : HandsOutSupported d index := by
  obtain ⟨minimum, hminimum, ⟨r, hr, hlower⟩, _⟩ := exists_minimum h hranges
  have hinside : MinimumInside d :=
    ⟨minimum, hminimum, r, hr, hproper r hr, minimum, hlower,
      Std.beq_iff_le_and_ge.mpr ⟨Std.le_refl _, Std.le_refl _⟩⟩
  exact ⟨(supports_minimum_iff h hranges).mpr hinside,
    (supports_newestVersion_iff hranges).mpr
      fun _ _ _ => not_endsOutside_of_proper hproper,
    fun _ _ _ _ => supports_newestExternal hranges⟩

/-- Everything that is handed out is supported exactly when some range that
starts at the minimum is not inverted and no version that the index answers
makes the walk end outside. -/
theorem handsOutSupported_iff {spec : Text} {when : Option Text}
    (h : Dependency.parse spec when = .ok d) (hranges : d.ranges ≠ [])
    (index : Index) :
    HandsOutSupported d index ↔
      MinimumInside d ∧
        ∀ history newest, index.latest history d.package = .ok newest →
          ¬EndsOutside newest d.ranges := by
  rw [← supports_minimum_iff h hranges, ← supports_newestVersion_iff hranges]
  constructor
  · intro hall
    exact ⟨hall.minimum, hall.latest⟩
  · rintro ⟨hminimum, hlatest⟩
    exact ⟨hminimum, hlatest, fun _ _ _ _ => supports_newestExternal hranges⟩

/-- An inverted range is harmless where another range contains its end. -/
theorem handsOutSupported_beside_inverted :
    ∃ d index, Dependency.parse "foo@1:3,5:2" none = .ok d ∧ d.ranges ≠ [] ∧
      (∃ r ∈ d.ranges, r.Inverted) ∧ HandsOutSupported d index := by
  let newest : Version := ⟨"6", by decide, by decide⟩
  obtain ⟨d, hparse, hcheck⟩ :=
    exists_ok_of_any (Dependency.parse "foo@1:3,5:2" none)
      (fun d => decide (d.ranges ≠ [] ∧ (∃ r ∈ d.ranges, r.Inverted) ∧
        MinimumInside d ∧ ¬EndsOutside newest d.ranges))
      (by decide +kernel)
  obtain ⟨hranges, hinverted, hminimum, hnewest⟩ := of_decide_eq_true hcheck
  let index : Index := ⟨fun _ _ => .ok newest, fun _ _ => .ok []⟩
  refine ⟨d, index, hparse, hranges, hinverted, ?_⟩
  refine (handsOutSupported_iff hparse hranges index).mpr ⟨hminimum, ?_⟩
  rintro _ _ ⟨⟩
  exact hnewest

/-- A single inverted range makes the minimum unsupported. -/
theorem not_handsOutSupported_of_single_inverted :
    ∃ d, Dependency.parse "foo@2:1" none = .ok d ∧ d.ranges ≠ [] ∧
      ∀ index, ¬HandsOutSupported d index := by
  obtain ⟨d, hparse, hcheck⟩ :=
    exists_ok_of_any (Dependency.parse "foo@2:1" none)
      (fun d => decide (d.ranges ≠ [] ∧
        ∃ v ∈ d.minimum?, d.supports v = false))
      (by decide +kernel)
  obtain ⟨hranges, v, hv, hsupports⟩ := of_decide_eq_true hcheck
  refine ⟨d, hparse, hranges, fun index h => ?_⟩
  rw [h.minimum v hv] at hsupports
  contradiction

end Dependency

end DevSpecs
