import DevSpecs.Proofs.Dependency.Fixed
import DevSpecs.Proofs.Resolution.Distinct
import DevSpecs.Proofs.Outcomes

/-!
# Groups of resolved specs

With a fixed index, every dependency is answered as if it were the only one, so
resolution succeeds exactly when every distinct dependency is answered.  The
groups then hold these answers and nothing else: there is a group for each
predicate that occurs, and its specs are those of the distinct dependencies
with this predicate.  Since predicates and specs ascend, this determines the
result.
-/

namespace DevSpecs

/-! ## Uniting specs by predicate -/

namespace SpecGroups

variable {pairs : List (Option Text × List Text)}

theorem map_when_ofList :
    (ofList pairs).map SpecGroup.when =
      sortedDistinct (pairs.map Prod.fst) := by
  rw [ofList, List.map_map]
  exact List.map_id _

theorem exists_pair_of_mem_ofList {g : SpecGroup} (hg : g ∈ ofList pairs) :
    ∃ specs, (g.when, specs) ∈ pairs := by
  have hkey : g.when ∈ (ofList pairs).map SpecGroup.when :=
    List.mem_map_of_mem hg
  rw [map_when_ofList, mem_sortedDistinct] at hkey
  obtain ⟨⟨_, specs⟩, hmem, rfl⟩ := List.mem_map.mp hkey
  exact ⟨specs, hmem⟩

theorem specs_of_mem_ofList {g : SpecGroup} (hg : g ∈ ofList pairs) :
    g.specs =
      sortedDistinct ((pairs.filter (·.1 = g.when)).flatMap Prod.snd) := by
  obtain ⟨key, -, rfl⟩ := List.mem_map.mp hg
  rfl

theorem mem_specs_of_mem_ofList {g : SpecGroup} (hg : g ∈ ofList pairs)
    {spec : Text} :
    spec ∈ g.specs ↔ ∃ specs, (g.when, specs) ∈ pairs ∧ spec ∈ specs := by
  rw [specs_of_mem_ofList hg, mem_sortedDistinct]
  simp only [List.mem_flatMap, List.mem_filter, decide_eq_true_eq]
  constructor
  · rintro ⟨⟨key, specs⟩, ⟨hmem, rfl⟩, hspec⟩
    exact ⟨specs, hmem, hspec⟩
  · rintro ⟨specs, hmem, hspec⟩
    exact ⟨(g.when, specs), ⟨hmem, rfl⟩, hspec⟩

end SpecGroups

/-! ## The answer of one dependency -/

namespace TrackedDependency

/-- The specs that a dependency contributes when no query has been sent. -/
def answer (d : TrackedDependency) (mode : Mode) (unresolve : List Text)
    (index : Index) : Except ResolveError (List Text) :=
  ((d.dependency.specs mode unresolve index).run (d.learnt, [])).1

variable {d : TrackedDependency} {mode : Mode} {unresolve : List Text}
  {index : Index}

theorem ne_nil_of_answer {specs : List Text}
    (h : d.answer mode unresolve index = .ok specs) : specs ≠ [] :=
  Dependency.specs_ne_nil (Prod.ext h rfl)

/-- An answer with the predicate under which it is collected. -/
def answerForWhen (d : TrackedDependency) (mode : Mode) (unresolve : List Text)
    (index : Index) : Except ResolveError (Option Text × List Text) :=
  (d.answer mode unresolve index).map (d.dependency.when, ·)

theorem answerForWhen_eq_ok_iff {key : Option Text} {specs : List Text} :
    d.answerForWhen mode unresolve index = .ok (key, specs) ↔
      d.dependency.when = key ∧ d.answer mode unresolve index = .ok specs := by
  rw [answerForWhen]
  cases d.answer mode unresolve index <;> simp [Except.map]

end TrackedDependency

/-! ## The answers of all dependencies -/

section Resolution

open TrackedDependency

variable {ds : List TrackedDependency} {mode : Mode} {unresolve : List Text}
  {index : Index} {groups groups' : SpecGroups}

/-- A fixed index lets every distinct dependency answer on its own. -/
theorem resolveAll_run_fst (hfixed : index.Fixed) (history : History) :
    ((resolveAll ds mode unresolve index).run history).1 =
      ((inGroupOrder ds).mapM (answerForWhen · mode unresolve index)).map
        SpecGroups.ofList := by
  rw [resolveAll_eq, run_bind_pure_fst]
  refine congrArg (Except.map SpecGroups.ofList)
    (run_mapM_fst (fun d h => ?_) (inGroupOrder ds) history)
  have hrun :=
    d.dependency.specs_ignoresHistory mode unresolve hfixed d.learnt h
  rw [contribution, run_bind, ask, answerForWhen, answer]
  simp only [ExceptT.run_mk, hrun, Dependency.sentAfter]
  cases ((d.dependency.specs mode unresolve index).run (d.learnt, [])).1 <;>
    rfl

/-- The groups hold the answers of the distinct dependencies and nothing
else. -/
structure Collects (ds : List TrackedDependency) (mode : Mode)
    (unresolve : List Text) (index : Index) (groups : SpecGroups) : Prop where
  /-- Nothing comes before every predicate, predicates come by their text. -/
  keys_ascend : (groups.map SpecGroup.when).Pairwise (· < ·)
  mem_keys : ∀ key, key ∈ groups.map SpecGroup.when ↔
    ∃ d ∈ ds, d.dependency.when = key
  answered : ∀ d, FirstIn ds d →
    ∃ specs, d.answer mode unresolve index = .ok specs
  specs_ne_nil : ∀ g ∈ groups, g.specs ≠ []
  specs_ascend : ∀ g ∈ groups, g.specs.Pairwise (· < ·)
  mem_specs : ∀ g ∈ groups, ∀ spec, spec ∈ g.specs ↔
    ∃ d, FirstIn ds d ∧ d.dependency.when = g.when ∧
      ∃ specs, d.answer mode unresolve index = .ok specs ∧ spec ∈ specs

section Pairs

variable {pairs : List (Option Text × List Text)}
  (h : (inGroupOrder ds).mapM (answerForWhen · mode unresolve index) = .ok pairs)

include h

theorem mem_pairs_iff {key : Option Text} {specs : List Text} :
    (key, specs) ∈ pairs ↔
      ∃ d, FirstIn ds d ∧ d.dependency.when = key ∧
        d.answer mode unresolve index = .ok specs := by
  simp only [mem_iff_of_mapM_eq_ok h, mem_inGroupOrder_iff,
    answerForWhen_eq_ok_iff]

theorem exists_answer_of_firstIn {d : TrackedDependency} (hd : FirstIn ds d) :
    ∃ specs, d.answer mode unresolve index = .ok specs := by
  obtain ⟨⟨_, specs⟩, -, hanswer⟩ :=
    exists_mem_of_mapM_eq_ok h (mem_inGroupOrder_iff.mpr hd)
  exact ⟨specs, (answerForWhen_eq_ok_iff.mp hanswer).2⟩

theorem mem_map_when_ofList_iff {key : Option Text} :
    key ∈ (SpecGroups.ofList pairs).map SpecGroup.when ↔
      ∃ d ∈ ds, d.dependency.when = key := by
  rw [SpecGroups.map_when_ofList, mem_sortedDistinct, List.mem_map]
  constructor
  · rintro ⟨⟨_, specs⟩, hmem, rfl⟩
    obtain ⟨d, hd, hwhen, -⟩ := (mem_pairs_iff h).mp hmem
    exact ⟨d, hd.mem, hwhen⟩
  · rintro ⟨d, hd, rfl⟩
    -- The group may owe its place to an equal dependency that comes earlier.
    obtain ⟨e, he, hidentity⟩ := exists_firstIn hd
    obtain ⟨specs, hspecs⟩ := exists_answer_of_firstIn h he
    have hwhen := Dependency.when_eq_of_identity_eq hidentity
    exact ⟨_, (mem_pairs_iff h).mpr ⟨e, he, hwhen, hspecs⟩, rfl⟩

theorem collects_ofList :
    Collects ds mode unresolve index (SpecGroups.ofList pairs) where
  keys_ascend := by
    rw [SpecGroups.map_when_ofList]
    exact (ascending_sortedDistinct _).imp Text.compare_option_eq_lt_iff.mp
  mem_keys _ := mem_map_when_ofList_iff h
  answered _ hd := exists_answer_of_firstIn h hd
  specs_ne_nil g hg := by
    obtain ⟨specs, hpair⟩ := SpecGroups.exists_pair_of_mem_ofList hg
    obtain ⟨d, -, -, hanswer⟩ := (mem_pairs_iff h).mp hpair
    obtain ⟨spec, hspec⟩ :=
      List.exists_mem_of_ne_nil specs (ne_nil_of_answer hanswer)
    exact List.ne_nil_of_mem
      ((SpecGroups.mem_specs_of_mem_ofList hg).mpr ⟨specs, hpair, hspec⟩)
  specs_ascend g hg := by
    rw [SpecGroups.specs_of_mem_ofList hg]
    exact (ascending_sortedDistinct _).imp Text.compare_eq_lt_iff.mp
  mem_specs g hg spec := by
    simp only [SpecGroups.mem_specs_of_mem_ofList hg, mem_pairs_iff h]
    constructor
    · rintro ⟨specs, ⟨d, hfirst, hwhen, hanswer⟩, hspec⟩
      exact ⟨d, hfirst, hwhen, specs, hanswer, hspec⟩
    · rintro ⟨d, hfirst, hwhen, specs, hanswer, hspec⟩
      exact ⟨specs, ⟨d, hfirst, hwhen, hanswer⟩, hspec⟩

end Pairs

/-- Collected groups are determined by their keys and the members of their
specs. -/
theorem Collects.mem_of_mem {ds' : List TrackedDependency}
    (h : Collects ds mode unresolve index groups)
    (h' : Collects ds' mode unresolve index groups')
    (hkeys : ∀ key, key ∈ groups.map SpecGroup.when ↔
      key ∈ groups'.map SpecGroup.when)
    (hspecs : ∀ g ∈ groups, ∀ g' ∈ groups', g.when = g'.when →
      ∀ spec, spec ∈ g.specs ↔ spec ∈ g'.specs)
    {g : SpecGroup} (hg : g ∈ groups) : g ∈ groups' := by
  have hkey : g.when ∈ groups'.map SpecGroup.when :=
    (hkeys g.when).mp (List.mem_map_of_mem hg)
  obtain ⟨g', hg', hwhen⟩ := List.mem_map.mp hkey
  have heq : g'.specs = g.specs :=
    eq_of_ascending
      ((h'.specs_ascend g' hg').imp Text.compare_eq_lt_iff.mpr)
      ((h.specs_ascend g hg).imp Text.compare_eq_lt_iff.mpr)
      fun spec => (hspecs g hg g' hg' hwhen.symm spec).symm
  obtain rfl : g' = g := by
    cases g'
    cases g
    exact congrArg₂ SpecGroup.mk hwhen heq
  exact hg'

theorem Collects.eq_of_mem_iff {ds' : List TrackedDependency}
    (h : Collects ds mode unresolve index groups)
    (h' : Collects ds' mode unresolve index groups')
    (hkeys : ∀ key, key ∈ groups.map SpecGroup.when ↔
      key ∈ groups'.map SpecGroup.when)
    (hspecs : ∀ g ∈ groups, ∀ g' ∈ groups', g.when = g'.when →
      ∀ spec, spec ∈ g.specs ↔ spec ∈ g'.specs) : groups = groups' := by
  refine eq_of_ascending_map SpecGroup.when
    (h.keys_ascend.imp Text.compare_option_eq_lt_iff.mpr)
    (h'.keys_ascend.imp Text.compare_option_eq_lt_iff.mpr) fun g => ?_
  constructor
  · exact h.mem_of_mem h' hkeys hspecs
  · exact h'.mem_of_mem h (fun key => (hkeys key).symm)
      fun g' hg' g hg hwhen spec => (hspecs g hg g' hg' hwhen.symm spec).symm

/-- There is one way to collect the answers. -/
theorem Collects.unique (h : Collects ds mode unresolve index groups)
    (h' : Collects ds mode unresolve index groups') : groups = groups' := by
  refine h.eq_of_mem_iff h' (fun key => ?_) fun g hg g' hg' hwhen spec => ?_
  · rw [h.mem_keys, h'.mem_keys]
  · rw [h.mem_specs g hg, h'.mem_specs g' hg', hwhen]

/-- What resolution returns collects the answers. -/
theorem collects_of_resolveAll (hfixed : index.Fixed) {history : History}
    (h : ((resolveAll ds mode unresolve index).run history).1 = .ok groups) :
    Collects ds mode unresolve index groups := by
  rw [resolveAll_run_fst hfixed] at h
  cases hpairs : (inGroupOrder ds).mapM (answerForWhen · mode unresolve index) with
  | error e => simp [hpairs, Except.map] at h
  | ok pairs =>
      rw [hpairs] at h
      exact Except.ok.inj h ▸ collects_ofList hpairs

/-- Resolution succeeds when every distinct dependency is answered. -/
theorem exists_groups_of_answered (hfixed : index.Fixed) (history : History)
    (h : ∀ d, FirstIn ds d →
      ∃ specs, d.answer mode unresolve index = .ok specs) :
    ∃ groups,
      ((resolveAll ds mode unresolve index).run history).1 = .ok groups := by
  have hanswers : ∀ d ∈ inGroupOrder ds,
      ∃ pair, d.answerForWhen mode unresolve index = .ok pair := by
    intro d hd
    obtain ⟨specs, hspecs⟩ := h d (mem_inGroupOrder_iff.mp hd)
    exact ⟨_, answerForWhen_eq_ok_iff.mpr ⟨rfl, hspecs⟩⟩
  obtain ⟨pairs, hpairs⟩ := exists_mapM_eq_ok hanswers
  rw [resolveAll_run_fst hfixed, hpairs]
  exact ⟨_, rfl⟩

/-- With a fixed index, resolution succeeds with exactly the groups that hold
the answers of the distinct dependencies. -/
theorem resolveAll_eq_ok_iff_collects (ds : List TrackedDependency)
    (mode : Mode) (unresolve : List Text) {index : Index}
    (hfixed : index.Fixed) (history : History) (groups : SpecGroups) :
    ((resolveAll ds mode unresolve index).run history).1 = .ok groups ↔
      Collects ds mode unresolve index groups := by
  constructor
  · exact collects_of_resolveAll hfixed
  · intro h
    obtain ⟨groups', hrun⟩ :=
      exists_groups_of_answered hfixed history h.answered
    rw [hrun, h.unique (collects_of_resolveAll hfixed hrun)]

/-- Two spellings of one dependency are resolved once, and the group without
predicate comes first. -/
theorem resolveAll_eq_ok_iff_collects_spelled_twice :
    ∃ (index : Index) (ds : List TrackedDependency),
      index.Fixed ∧
      ds.map (fun d => (d.dependency.text, d.dependency.when)) =
        [("bar @2:".toList, some "+x".toList), ("foo @1.0:".toList, none),
          ("foo @1-0:".toList, none)] ∧
      Collects ds .latest [] index
        [⟨none, ["foo @1.0:".toList, "foo @3:".toList]⟩,
          ⟨some "+x".toList, ["bar @2:".toList, "bar @3:".toList]⟩] := by
  let newest : Version := ⟨"3", by decide, by decide⟩
  let index : Index := ⟨fun _ _ => .ok newest, fun _ _ => .ok []⟩
  have hfixed : index.Fixed := ⟨fun _ _ => rfl, fun _ _ => rfl⟩
  let from1 : VersionRange := ⟨some ⟨"1.0", by decide, by decide⟩, none⟩
  let from1' : VersionRange := ⟨some ⟨"1-0", by decide, by decide⟩, none⟩
  let from2 : VersionRange := ⟨some ⟨"2", by decide, by decide⟩, none⟩
  let ds : List TrackedDependency :=
    [⟨⟨"bar", "bar", [from2], some "+x"⟩, {}⟩,
      ⟨⟨"foo", "foo", [from1], none⟩, {}⟩,
      ⟨⟨"foo", "foo", [from1'], none⟩, {}⟩]
  obtain ⟨groups, hrun, hgroups⟩ :=
    exists_ok_of_any ((resolveAll ds .latest [] index).run []).1
      (· == [⟨none, ["foo @1.0:".toList, "foo @3:".toList]⟩,
        ⟨some "+x".toList, ["bar @2:".toList, "bar @3:".toList]⟩])
      (by decide +kernel)
  rw [eq_of_beq hgroups] at hrun
  exact ⟨index, ds, hfixed, by decide +kernel,
    (resolveAll_eq_ok_iff_collects ds .latest [] hfixed [] _).mp hrun⟩

end Resolution

end DevSpecs
