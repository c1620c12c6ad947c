import DevSpecs.Proofs.Dependency.Declared
import DevSpecs.Proofs.Dependency.Asking

/-!
# The newest external

An external is handed out only if it lies within every declared range, whereas a
version is supported if it lies within some range.  The answer is the greatest of
the externals that lie within all of them.  With at most one range this is the
greatest supported external; with several ranges it need not be, and the main
statement says when it is.
-/

namespace DevSpecs

/-! ## The greatest version that passes a test -/

/-- The answer is a version of the list that passes the test, and no version of
the list that passes it is above the answer.  There is no answer if none passes. -/
def IsNewestOf (p : Version → Bool) (versions : List Version) :
    Option Version → Prop
  | some v => v ∈ versions ∧ p v = true ∧ ∀ x ∈ versions, p x = true → x ≤ v
  | none => ∀ x ∈ versions, p x = false

section Newest

variable {p q : Version → Bool} {versions : List Version} {answer : Option Version}

theorem isNewestOf_maxLast?_filter (p : Version → Bool) (versions : List Version) :
    IsNewestOf p versions (maxLast? (versions.filter p)) := by
  cases h : maxLast? (versions.filter p) with
  | none =>
      rw [maxLast?_eq_none_iff, List.filter_eq_nil_iff] at h
      intro x hx
      exact Bool.eq_false_iff.mpr (h x hx)
  | some v =>
      obtain ⟨hmem, hpass⟩ := List.mem_filter.mp (mem_of_maxLast? h)
      refine ⟨hmem, hpass, ?_⟩
      intro x hx hpx
      exact isLE_of_maxLast? h (List.mem_filter.mpr ⟨hx, hpx⟩)

/-- What is newest by a stronger test is newest by a weaker one exactly when the
weaker test lets through nothing above all that passes the stronger one. -/
theorem IsNewestOf.iff_of_weaker (h : IsNewestOf p versions answer)
    (hpq : ∀ v, p v = true → q v = true) :
    IsNewestOf q versions answer ↔
      ((∃ v ∈ versions, q v = true) →
        ∃ v ∈ versions, p v = true ∧ ∀ x ∈ versions, q x = true → x ≤ v) := by
  cases answer with
  | none =>
      constructor
      · rintro hnone ⟨v, hv, hqv⟩
        exact absurd hqv (Bool.eq_false_iff.mp (hnone v hv))
      · intro hexists x hx
        rw [← Bool.not_eq_true]
        intro hqx
        obtain ⟨v, hv, hpv, _⟩ := hexists ⟨x, hx, hqx⟩
        exact absurd hpv (Bool.eq_false_iff.mp (h v hv))
  | some v =>
      obtain ⟨hv, hpv, hmax⟩ := h
      constructor
      · rintro ⟨_, _, hall⟩ _
        exact ⟨v, hv, hpv, hall⟩
      · intro hexists
        obtain ⟨w, hw, hpw, hall⟩ := hexists ⟨v, hv, hpq v hpv⟩
        have hwv : w ≤ v := hmax w hw hpw
        exact ⟨hv, hpq v hpv, fun x hx hqx => Std.le_trans (hall x hx hqx) hwv⟩

end Newest

/-! ## Answers of a dependency -/

namespace Dependency

variable {d : Dependency} {v : Version}

/-- Whether a version lies within every range. -/
def liesInAll (d : Dependency) (v : Version) : Bool :=
  d.ranges.all (·.contains v)

theorem supports_of_liesInAll (h : d.liesInAll v = true) : d.supports v = true := by
  by_cases hranges : d.ranges = []
  · simp [supports, hranges]
  · obtain ⟨r, hr⟩ := List.exists_mem_of_ne_nil d.ranges hranges
    exact (supports_iff hranges v).mpr ⟨r, hr, List.all_eq_true.mp h r hr⟩

theorem liesInAll_eq_supports (hone : d.ranges.length ≤ 1) :
    d.liesInAll = d.supports := by
  funext v
  rcases hranges : d.ranges with _ | ⟨r, rest⟩
  · simp [liesInAll, supports, hranges]
  · have hrest : rest = [] := by
      rw [hranges, List.length_cons] at hone
      apply List.eq_nil_of_length_eq_zero
      omega
    simp [liesInAll, supports, hranges, hrest]

/-- A dependency that has not yet learnt of externals answers with the greatest
one that lies within every range.  The answer is supported.  It is the greatest
supported external exactly when no supported external is above all that lie
within every range, so always with at most one range. -/
theorem newestExternal_isNewest_in_all (d : Dependency) (index : Index)
    (s : Knowledge) (versions : List Version) (hlearnt : s.1.external = none)
    (hquery : index.externals s.2 d.package = .ok versions) :
    ∃ answer,
      (d.newestExternal index).run s =
          (.ok answer, { s.1 with external := some answer },
            s.2 ++ [.externals d.package]) ∧
        IsNewestOf d.liesInAll versions answer ∧
        (∀ v ∈ answer, d.supports v = true) ∧
        (IsNewestOf d.supports versions answer ↔
          ((∃ v ∈ versions, d.supports v = true) →
            ∃ v ∈ versions, d.liesInAll v = true ∧
              ∀ x ∈ versions, d.supports x = true → x ≤ v)) ∧
        (d.ranges.length ≤ 1 → IsNewestOf d.supports versions answer) := by
  have hnewest : IsNewestOf d.liesInAll versions
      (VersionRange.newestInAll? d.ranges versions) :=
    isNewestOf_maxLast?_filter d.liesInAll versions
  have hends := newestExternal_ends d index s
  generalize (d.newestExternal index).run s = r at hends
  cases hends with
  | repeated answer hsome => simp [hlearnt] at hsome
  | failed cause _ hfailed => simp [hquery] at hfailed
  | found versions' _ hfound =>
      obtain rfl : versions = versions' := Except.ok.inj (hquery.symm.trans hfound)
      refine ⟨_, rfl, hnewest, ?_, ?_, ?_⟩
      · intro v hv
        rw [Option.mem_def] at hv
        rw [hv] at hnewest
        exact supports_of_liesInAll hnewest.2.1
      · exact hnewest.iff_of_weaker fun _ => supports_of_liesInAll
      · intro hone
        exact liesInAll_eq_supports hone ▸ hnewest

/-- Two ranges that overlap, and externals within one of them and within both. -/
theorem newestExternal_isNewest_in_all_overlapping :
    ∃ d low high index, Dependency.parse "foo@1:4,2:6" none = .ok d ∧
      index.externals [] d.package = .ok [high, low] ∧
      ∃ answer, ((d.newestExternal index).run ({}, [])).1 = .ok answer ∧
        IsNewestOf d.liesInAll [high, low] answer ∧
        IsNewestOf d.supports [high, low] answer ∧ answer = some high := by
  let low : Version := ⟨"1.5", by decide, by decide⟩
  let high : Version := ⟨"3", by decide, by decide⟩
  obtain ⟨d, hparse, hcheck⟩ :=
    exists_ok_of_any (Dependency.parse "foo@1:4,2:6" none)
      (fun d => decide (d.liesInAll high = true ∧ d.liesInAll low = false ∧
        low ≤ high))
      (by decide +kernel)
  obtain ⟨hhigh, hlow, hle⟩ := of_decide_eq_true hcheck
  let index : Index := ⟨fun _ _ => .ok high, fun _ _ => .ok [high, low]⟩
  obtain ⟨answer, hrun, hall, _, hsupported, _⟩ :=
    newestExternal_isNewest_in_all d index ({}, []) [high, low] rfl rfl
  refine ⟨d, low, high, index, hparse, rfl, answer, by rw [hrun], hall, ?_, ?_⟩
  · refine hsupported.mpr fun _ => ⟨high, by simp, hhigh, ?_⟩
    simp [Std.le_refl, hle]
  · cases answer with
    | none => simpa [hhigh] using hall high
    | some v =>
        obtain ⟨hv, hpass, _⟩ := hall
        rcases List.mem_pair.mp hv with heq | heq
        · rw [heq]
        · rw [heq, hlow] at hpass
          contradiction

/-- Between two ranges that do not overlap no external is found, though one of
them contains it. -/
theorem newestExternal_none_of_supported :
    ∃ d v index, Dependency.parse "foo@1:2,5:6" none = .ok d ∧
      index.externals [] d.package = .ok [v] ∧ d.supports v = true ∧
      ((d.newestExternal index).run ({}, [])).1 = .ok none ∧
      ¬IsNewestOf d.supports [v] none := by
  let v : Version := ⟨"5.5", by decide, by decide⟩
  let index : Index := ⟨fun _ _ => .ok v, fun _ _ => .ok [v]⟩
  obtain ⟨d, hparse, hcheck⟩ :=
    exists_ok_of_any (Dependency.parse "foo@1:2,5:6" none)
      (fun d => decide (d.supports v = true ∧ d.liesInAll v = false))
      (by decide +kernel)
  obtain ⟨hsupports, houtside⟩ := of_decide_eq_true hcheck
  have hnone : VersionRange.newestInAll? d.ranges [v] = none := by
    rw [VersionRange.newestInAll?, maxLast?_eq_none_iff]
    simpa [liesInAll] using houtside
  refine ⟨d, v, index, hparse, rfl, hsupports, congrArg Except.ok hnone, ?_⟩
  intro h
  exact absurd hsupports (Bool.eq_false_iff.mp (h v List.mem_cons_self))

end Dependency

end DevSpecs
