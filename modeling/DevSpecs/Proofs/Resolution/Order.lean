import DevSpecs.Proofs.Dependency.Respelling
import DevSpecs.Proofs.Resolution.Groups

/-!
# The order of declaration

Resolution keeps the first of several equal dependencies.  With a fixed index,
all others of the kind would have been answered alike if they remember no answers
of another index.  Then the order in which dependencies are declared decides
neither whether resolution succeeds nor which groups there are.  It can decide
how the versions in a group are spelled, and that only if equal dependencies are
spelled differently.
-/

namespace DevSpecs

/-- The same groups, with specs that are related. -/
structure SpecGroups.Alike (R : Text → Text → Prop)
    (groups groups' : SpecGroups) : Prop where
  keys_eq : groups.map SpecGroup.when = groups'.map SpecGroup.when
  specs : ∀ g ∈ groups, ∀ g' ∈ groups', g.when = g'.when →
    Matched R g.specs g'.specs

section Comparison

open TrackedDependency

variable {R : Text → Text → Prop} {ds ds' : List TrackedDependency}
  {mode : Mode} {unresolve : List Text} {index : Index}
  {groups groups' : SpecGroups}

/-- Two dependencies contribute related specs to the same group, or none. -/
structure TrackedDependency.ContributesLike (R : Text → Text → Prop) (mode : Mode)
    (unresolve : List Text) (index : Index) (t u : TrackedDependency) : Prop where
  when_eq : t.dependency.when = u.dependency.when
  answers : EndsAlike (Matched R) (t.answer mode unresolve index)
    (u.answer mode unresolve index)

theorem TrackedDependency.ContributesLike.flip {t u : TrackedDependency}
    (h : ContributesLike R mode unresolve index t u) :
    ContributesLike (fun y x => R x y) mode unresolve index u t where
  when_eq := h.when_eq.symm
  answers := h.answers.flip.imp fun _ _ hspecs => hspecs.flip

/-- What is resolved in either list contributes like something in the other. -/
structure ContributeAlike (R : Text → Text → Prop) (mode : Mode)
    (unresolve : List Text) (index : Index) (ds ds' : List TrackedDependency) :
    Prop where
  right : ∀ t, FirstIn ds t →
    ∃ u, FirstIn ds' u ∧ ContributesLike R mode unresolve index t u
  left : ∀ u, FirstIn ds' u →
    ∃ t, FirstIn ds t ∧ ContributesLike R mode unresolve index t u

theorem ContributeAlike.flip
    (h : ContributeAlike R mode unresolve index ds ds') :
    ContributeAlike (fun y x => R x y) mode unresolve index ds' ds where
  right u hu := by
    obtain ⟨t, ht, hlike⟩ := h.left u hu
    exact ⟨t, ht, hlike.flip⟩
  left t ht := by
    obtain ⟨u, hu, hlike⟩ := h.right t ht
    exact ⟨u, hu, hlike.flip⟩

/-- Success carries over. -/
theorem ContributeAlike.answered
    (h : ContributeAlike R mode unresolve index ds ds')
    (hanswered : ∀ t, FirstIn ds t →
      ∃ specs, t.answer mode unresolve index = .ok specs)
    {u : TrackedDependency} (hu : FirstIn ds' u) :
    ∃ specs, u.answer mode unresolve index = .ok specs := by
  obtain ⟨t, ht, hlike⟩ := h.left u hu
  obtain ⟨specs, hspecs⟩ := hanswered t ht
  obtain ⟨specs', hspecs', -⟩ := hlike.answers.exists_of_ok hspecs
  exact ⟨specs', hspecs'⟩

section Groups

variable (hcontribute : ContributeAlike R mode unresolve index ds ds')
  (h : Collects ds mode unresolve index groups)
  (h' : Collects ds' mode unresolve index groups')

include hcontribute h h'

theorem Collects.mem_keys_of_mem_keys {key : Option Text}
    (hkey : key ∈ groups.map SpecGroup.when) :
    key ∈ groups'.map SpecGroup.when := by
  obtain ⟨t, ht, rfl⟩ := (h.mem_keys key).mp hkey
  obtain ⟨first, hfirst, hidentity⟩ := exists_firstIn ht
  obtain ⟨u, hu, hlike⟩ := hcontribute.right first hfirst
  have hwhen := Dependency.when_eq_of_identity_eq hidentity
  exact (h'.mem_keys _).mpr ⟨u, hu.mem, hlike.when_eq.symm.trans hwhen⟩

theorem Collects.exists_related {g g' : SpecGroup} (hg : g ∈ groups)
    (hg' : g' ∈ groups') (hwhen : g.when = g'.when) :
    ∀ spec ∈ g.specs, ∃ spec' ∈ g'.specs, R spec spec' := by
  intro spec hspec
  obtain ⟨t, ht, htwhen, specs, hanswer, hmem⟩ :=
    (h.mem_specs g hg spec).mp hspec
  obtain ⟨u, hu, hlike⟩ := hcontribute.right t ht
  obtain ⟨specs', hanswer', hspecs⟩ := hlike.answers.exists_of_ok hanswer
  obtain ⟨spec', hmem', hrelated⟩ := hspecs.right spec hmem
  have huwhen : u.dependency.when = g'.when :=
    hlike.when_eq.symm.trans (htwhen.trans hwhen)
  exact ⟨spec', (h'.mem_specs g' hg' spec').mpr
    ⟨u, hu, huwhen, specs', hanswer', hmem'⟩, hrelated⟩

end Groups

theorem Collects.alike (hcontribute : ContributeAlike R mode unresolve index ds ds')
    (h : Collects ds mode unresolve index groups)
    (h' : Collects ds' mode unresolve index groups') :
    SpecGroups.Alike R groups groups' where
  keys_eq := by
    refine eq_of_ascending
      (h.keys_ascend.imp Text.compare_option_eq_lt_iff.mpr)
      (h'.keys_ascend.imp Text.compare_option_eq_lt_iff.mpr) fun key => ?_
    exact ⟨h.mem_keys_of_mem_keys hcontribute h',
      h'.mem_keys_of_mem_keys hcontribute.flip h⟩
  specs g hg g' hg' hwhen :=
    ⟨h.exists_related hcontribute h' hg hg' hwhen,
      h'.exists_related hcontribute.flip h hg' hg hwhen.symm⟩

/-- If all dependencies that are resolved contribute alike, so do the lists. -/
theorem resolveAll_endsAlike (hfixed : index.Fixed)
    (hcontribute : ContributeAlike R mode unresolve index ds ds')
    (history history' : History) :
    EndsAlike (SpecGroups.Alike R)
      ((resolveAll ds mode unresolve index).run history).1
      ((resolveAll ds' mode unresolve index).run history').1 := by
  refine .of_forall (fun groups hgroups => ?_) fun groups' hgroups' => ?_
  · have hcollects := collects_of_resolveAll hfixed hgroups
    obtain ⟨groups', hgroups'⟩ := exists_groups_of_answered hfixed history'
      fun _ hu => hcontribute.answered hcollects.answered hu
    exact ⟨groups', hgroups',
      hcollects.alike hcontribute (collects_of_resolveAll hfixed hgroups')⟩
  · have hcollects := collects_of_resolveAll hfixed hgroups'
    exact exists_groups_of_answered hfixed history
      fun _ ht => hcontribute.flip.answered hcollects.answered ht

/-- Groups that are collected are equal if their specs are. -/
theorem Collects.eq_of_alike (h : Collects ds mode unresolve index groups)
    (h' : Collects ds' mode unresolve index groups')
    (halike : SpecGroups.Alike Eq groups groups') : groups = groups' := by
  refine h.eq_of_mem_iff h' (fun key => by rw [halike.keys_eq]) ?_
  intro g hg g' hg' hwhen
  exact matched_eq_iff.mp (halike.specs g hg g' hg' hwhen)

theorem resolveAll_endsAlike_eq (hfixed : index.Fixed)
    (hcontribute : ContributeAlike Eq mode unresolve index ds ds')
    (history history' : History) :
    EndsAlike Eq ((resolveAll ds mode unresolve index).run history).1
      ((resolveAll ds' mode unresolve index).run history').1 := by
  have hends := resolveAll_endsAlike hfixed hcontribute history history'
  generalize hrun : ((resolveAll ds mode unresolve index).run history).1 = x
    at hends
  generalize hrun' : ((resolveAll ds' mode unresolve index).run history').1 = y
    at hends
  cases hends with
  | failed e e' => exact .failed e e'
  | succeeded groups groups' halike =>
      exact .succeeded groups groups'
        ((collects_of_resolveAll hfixed hrun).eq_of_alike
          (collects_of_resolveAll hfixed hrun') halike)

/-! ## Faithful memories -/

/-- Nothing is remembered but answers of this index. -/
def TrackedDependency.Faithful (index : Index) (t : TrackedDependency) : Prop :=
  t.dependency.Faithful index t.learnt

theorem TrackedDependency.Faithful.answer (hfixed : index.Fixed)
    {t : TrackedDependency} (h : t.Faithful index) :
    t.answer mode unresolve index =
      t.dependency.plainSpecs mode unresolve index :=
  Dependency.Faithful.specs (s := (t.learnt, [])) hfixed h mode unresolve

/-- If resolution succeeds, dependencies that are not resolved because an earlier
one is equal would have been answered as well. -/
theorem Collects.exists_answer (hfixed : index.Fixed)
    (hfaithful : ∀ t ∈ ds, t.Faithful index)
    (h : Collects ds mode unresolve index groups) {t : TrackedDependency}
    (ht : t ∈ ds) : ∃ specs, t.answer mode unresolve index = .ok specs := by
  obtain ⟨u, hu, hidentity⟩ := exists_firstIn ht
  obtain ⟨specs, hspecs⟩ := h.answered u hu
  rw [(hfaithful u hu.mem).answer hfixed] at hspecs
  rw [(hfaithful t ht).answer hfixed]
  obtain ⟨specs', hspecs', -⟩ :=
    Dependency.plainSpecs_respelled hidentity hspecs
  exact ⟨specs', hspecs'⟩

/-- Lists of the same dependencies contribute alike. -/
theorem contributeAlike_of_dependencies (hfixed : index.Fixed)
    (hsame : ds.map dependency = ds'.map dependency)
    (hfaithful : ∀ t ∈ ds, t.Faithful index)
    (hfaithful' : ∀ u ∈ ds', u.Faithful index) :
    ContributeAlike Eq mode unresolve index ds ds' := by
  have hlike : ∀ t ∈ ds, ∀ u ∈ ds', u.dependency = t.dependency →
      ContributesLike Eq mode unresolve index t u := by
    intro t ht u hu heq
    refine ⟨by rw [heq], ?_⟩
    rw [(hfaithful t ht).answer hfixed, (hfaithful' u hu).answer hfixed, heq]
    exact endsAlike_refl (matched_refl fun _ => rfl) _
  constructor
  · intro t ht
    obtain ⟨u, hu, heq⟩ := ht.of_map_dependency_eq hsame
    exact ⟨u, hu, hlike t ht.mem u hu.mem heq⟩
  · intro u hu
    obtain ⟨t, ht, heq⟩ := hu.of_map_dependency_eq hsame.symm
    exact ⟨t, ht, hlike t ht.mem u hu.mem heq.symm⟩

/-! ## Permuted lists -/

/-- What one order resolves has a counterpart in the other that is equal, and is
answered alike if all equal ones are. -/
theorem contributeAlike_of_perm (hperm : ds.Perm ds')
    (h : ∀ t ∈ ds, ∀ u ∈ ds, t.dependency.identity = u.dependency.identity →
      EndsAlike (Matched R) (t.answer mode unresolve index)
        (u.answer mode unresolve index)) :
    ContributeAlike R mode unresolve index ds ds' := by
  constructor
  · intro t ht
    obtain ⟨u, hu, hidentity⟩ := exists_firstIn (hperm.subset ht.mem)
    have hmem := hperm.symm.subset hu.mem
    exact ⟨u, hu, Dependency.when_eq_of_identity_eq hidentity.symm,
      h t ht.mem u hmem hidentity.symm⟩
  · intro u hu
    have hmem := hperm.symm.subset hu.mem
    obtain ⟨t, ht, hidentity⟩ := exists_firstIn hmem
    exact ⟨t, ht, Dependency.when_eq_of_identity_eq hidentity,
      h t ht.mem u hmem hidentity⟩

/-- Equal dependencies of a list have the same spelling. -/
def SpelledAlike (ds : List TrackedDependency) : Prop :=
  ∀ t ∈ ds, ∀ u ∈ ds, t.dependency.identity = u.dependency.identity →
    t.dependency = u.dependency

/-- Equal dependencies of a list have the same answer. -/
def AnsweredAlike (ds : List TrackedDependency) (mode : Mode)
    (unresolve : List Text) (index : Index) : Prop :=
  ∀ t ∈ ds, ∀ u ∈ ds, t.dependency.identity = u.dependency.identity →
    t.answer mode unresolve index = u.answer mode unresolve index

theorem SpelledAlike.answeredAlike (hfixed : index.Fixed)
    (hfaithful : ∀ t ∈ ds, t.Faithful index) (h : SpelledAlike ds) :
    AnsweredAlike ds mode unresolve index := by
  intro t ht u hu hidentity
  rw [(hfaithful t ht).answer hfixed, (hfaithful u hu).answer hfixed,
    h t ht u hu hidentity]

theorem resolveAll_eq_of_perm (hperm : ds.Perm ds') (hfixed : index.Fixed)
    (h : AnsweredAlike ds mode unresolve index) (history history' : History) :
    EndsAlike Eq ((resolveAll ds mode unresolve index).run history).1
      ((resolveAll ds' mode unresolve index).run history').1 := by
  have hcontribute : ContributeAlike Eq mode unresolve index ds ds' := by
    refine contributeAlike_of_perm hperm fun t ht u hu hidentity => ?_
    rw [h t ht u hu hidentity]
    exact endsAlike_refl (matched_refl fun _ => rfl) _
  exact resolveAll_endsAlike_eq hfixed hcontribute history history'

theorem resolveAll_respelled_of_perm (hperm : ds.Perm ds')
    (hfixed : index.Fixed) (hfaithful : ∀ t ∈ ds, t.Faithful index)
    (history history' : History) :
    EndsAlike (SpecGroups.Alike Respelled)
      ((resolveAll ds mode unresolve index).run history).1
      ((resolveAll ds' mode unresolve index).run history').1 := by
  have hcontribute : ContributeAlike Respelled mode unresolve index ds ds' := by
    refine contributeAlike_of_perm hperm fun t ht u hu hidentity => ?_
    rw [(hfaithful t ht).answer hfixed, (hfaithful u hu).answer hfixed]
    exact Dependency.plainSpecs_endsAlike hidentity mode unresolve index
  exact resolveAll_endsAlike hfixed hcontribute history history'

/-- With a fixed index, declaring dependencies in another order leads to success
or failure as before, and to the same groups with the same specs up to spelling.
If equal dependencies are spelled alike, or are answered alike whatever their
spelling, the groups are the same. -/
theorem order_matters_for_spelling_only (hperm : ds.Perm ds') (mode : Mode)
    (unresolve : List Text) (hfixed : index.Fixed)
    (history history' : History) :
    ((∀ t ∈ ds, t.Faithful index) →
      EndsAlike (SpecGroups.Alike Respelled)
        ((resolveAll ds mode unresolve index).run history).1
        ((resolveAll ds' mode unresolve index).run history').1) ∧
    ((∀ t ∈ ds, t.Faithful index) ∧ SpelledAlike ds ∨
        AnsweredAlike ds mode unresolve index →
      EndsAlike Eq ((resolveAll ds mode unresolve index).run history).1
        ((resolveAll ds' mode unresolve index).run history').1) := by
  constructor
  · intro hfaithful
    exact resolveAll_respelled_of_perm hperm hfixed hfaithful history history'
  · rintro (⟨hfaithful, hspelled⟩ | hanswered)
    · exact resolveAll_eq_of_perm hperm hfixed
        (hspelled.answeredAlike hfixed hfaithful) history history'
    · exact resolveAll_eq_of_perm hperm hfixed hanswered history history'

/-- Two spellings of one dependency around another, and a repeated one. -/
theorem order_matters_for_spelling_only_two_spellings :
    ∃ (index : Index) (foo foo' bar : TrackedDependency),
      index.Fixed ∧ foo.dependency.text = "foo @1.0:".toList ∧
      foo'.dependency.text = "foo @1-0:".toList ∧
      foo.dependency.identity = foo'.dependency.identity ∧
      bar.dependency.text = "bar @2:".toList ∧
      [foo, bar, foo'].Perm [bar, foo', foo] ∧
      [foo, bar, foo].Perm [bar, foo, foo] ∧
      EndsAlike (SpecGroups.Alike Respelled)
        ((resolveAll [foo, bar, foo'] .latest [] index).run []).1
        ((resolveAll [bar, foo', foo] .latest [] index).run []).1 ∧
      EndsAlike Eq ((resolveAll [foo, bar, foo] .latest [] index).run []).1
        ((resolveAll [bar, foo, foo] .latest [] index).run []).1 := by
  let newest : Version := ⟨"3", by decide, by decide⟩
  let index : Index := ⟨fun _ _ => .ok newest, fun _ _ => .ok []⟩
  have hfixed : index.Fixed := ⟨fun _ _ => rfl, fun _ _ => rfl⟩
  let from1 : VersionRange := ⟨some ⟨"1.0", by decide, by decide⟩, none⟩
  let from1' : VersionRange := ⟨some ⟨"1-0", by decide, by decide⟩, none⟩
  let from2 : VersionRange := ⟨some ⟨"2", by decide, by decide⟩, none⟩
  let foo : TrackedDependency := .fresh ⟨"foo", "foo", [from1], none⟩
  let foo' : TrackedDependency := .fresh ⟨"foo", "foo", [from1'], none⟩
  let bar : TrackedDependency := .fresh ⟨"bar", "bar", [from2], none⟩
  have hperm : ([foo] ++ [bar, foo']).Perm ([bar, foo'] ++ [foo]) :=
    List.perm_append_comm
  have hperm' : [foo, bar, foo].Perm [bar, foo, foo] := .swap bar foo [foo]
  have hfresh : ∀ d, (TrackedDependency.fresh d).Faithful index :=
    fun d => Dependency.faithful_nothing d index
  have hspelled : SpelledAlike [foo, bar, foo] := by
    have hne : foo.dependency.identity ≠ bar.dependency.identity := by decide
    have hmem : ∀ t ∈ [foo, bar, foo], t = foo ∨ t = bar := by simp
    intro t ht u hu hidentity
    rcases hmem t ht with rfl | rfl <;> rcases hmem u hu with rfl | rfl
    · rfl
    · exact absurd hidentity hne
    · exact absurd hidentity.symm hne
    · rfl
  refine ⟨index, foo, foo', bar, hfixed, rfl, rfl, by decide +kernel, rfl, hperm,
    hperm', ?_, ?_⟩
  · refine (order_matters_for_spelling_only hperm .latest [] hfixed [] []).1 ?_
    simp [foo, foo', bar, hfresh]
  · refine (order_matters_for_spelling_only hperm' .latest [] hfixed [] []).2
      (.inl ⟨?_, hspelled⟩)
    simp [foo, bar, hfresh]

/-- Of two spellings of one dependency, the one that is declared first is handed
out.  So is the answer of another index, if it is remembered by the first of two
equal dependencies. -/
theorem first_of_equals_is_kept :
    ∃ (d e : Dependency) (index : Index) (older : Version),
      Dependency.parse "foo@1.0:" none = .ok d ∧
      Dependency.parse "foo@1-0:" none = .ok e ∧ index.Fixed ∧
      [fresh d, fresh e].Perm [fresh e, fresh d] ∧
      ((resolveAll [fresh d, fresh e] .any [] index).run []).1 =
        .ok [⟨none, ["foo @1.0:".toList]⟩] ∧
      ((resolveAll [fresh e, fresh d] .any [] index).run []).1 =
        .ok [⟨none, ["foo @1-0:".toList]⟩] ∧
      ((resolveAll [fresh d, ⟨d, { latest := some older }⟩] .latest []
        index).run []).1 =
          .ok [⟨none, ["foo @1.0:".toList, "foo @3:".toList]⟩] ∧
      ((resolveAll [⟨d, { latest := some older }⟩, fresh d] .latest []
        index).run []).1 =
          .ok [⟨none, ["foo @1.0:".toList, "foo @2:".toList]⟩] := by
  let newest : Version := ⟨"3", by decide, by decide⟩
  let older : Version := ⟨"2", by decide, by decide⟩
  let index : Index := ⟨fun _ _ => .ok newest, fun _ _ => .ok []⟩
  have hfixed : index.Fixed := ⟨fun _ _ => rfl, fun _ _ => rfl⟩
  let resolves (ds : List TrackedDependency) (mode : Mode)
      (specs : List Text) : Bool :=
    ((resolveAll ds mode [] index).run []).1.toOption.any (· == [⟨none, specs⟩])
  have hresolves : ∀ {ds mode specs}, resolves ds mode specs = true →
      ((resolveAll ds mode [] index).run []).1 = .ok [⟨none, specs⟩] := by
    intro ds mode specs h
    obtain ⟨groups, hrun, hgroups⟩ := exists_ok_of_any _ _ h
    rw [hrun, eq_of_beq hgroups]
  obtain ⟨d, hd, hcheck⟩ :=
    exists_ok_of_any (Dependency.parse "foo@1.0:" none)
      (fun d => (Dependency.parse "foo@1-0:" none).toOption.any fun e =>
        (resolves [fresh d, fresh e] .any ["foo @1.0:"] &&
          resolves [fresh e, fresh d] .any ["foo @1-0:"]) &&
        (resolves [fresh d, ⟨d, { latest := some older }⟩] .latest
            ["foo @1.0:", "foo @3:"] &&
          resolves [⟨d, { latest := some older }⟩, fresh d] .latest
            ["foo @1.0:", "foo @2:"]))
      (by decide +kernel)
  obtain ⟨e, he, hcheck⟩ := exists_ok_of_any _ _ hcheck
  simp only [Bool.and_eq_true] at hcheck
  obtain ⟨⟨hfirst, hsecond⟩, hfresh, holder⟩ := hcheck
  exact ⟨d, e, index, older, hd, he, hfixed, .swap _ _ [], hresolves hfirst,
    hresolves hsecond, hresolves hfresh, hresolves holder⟩

end Comparison

end DevSpecs
