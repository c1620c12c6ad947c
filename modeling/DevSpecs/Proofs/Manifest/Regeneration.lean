import DevSpecs.Proofs.Manifest.Settings

/-!
# Manifests built from manifests

The section of a manifest may serve as the template of the next one.  Each of the
adjustments finds its own work there and leaves it: the view is chosen, the
concretizer unifies, the specs refer to the resolved ones, and the clauses of the
earlier resolution are the ones that give way.  So nothing of the earlier
resolution is left, and keys keep the places that they got first.
-/

namespace DevSpecs

namespace Manifest

open Yaml (Entries)

/-! ## Each adjustment absorbs itself -/

/-- A concretizer of a manifest is a mapping in which `unify` has been put, or a
mapping under a tag. -/
theorem unified_cases (old : Option Yaml) :
    (∃ entries : Entries,
      unified old = .map (entries.put (.str "unify") (.bool true))) ∨
    ∃ tag value, value.asEntries?.isSome = true ∧ unified old = .tagged tag value := by
  unfold unified
  split
  next entries => exact .inl ⟨entries, rfl⟩
  next tag value =>
    by_cases hentries : value.asEntries?.isSome = true
    · exact .inr ⟨tag, value, hentries, if_pos hentries⟩
    · exact .inl ⟨[], if_neg hentries⟩
  next => exact .inl ⟨[], rfl⟩

theorem unified_unified (old : Option Yaml) :
    unified (some (unified old)) = unified old := by
  obtain ⟨entries, h⟩ | ⟨tag, value, hentries, h⟩ := unified_cases old
  · rw [h, unified, Entries.put_put_self]
  · rw [h, unified, if_pos hentries]

/-- The specs of a manifest are a sequence with a reference, or a sequence under a
tag. -/
theorem referring_cases (old : Option Yaml) :
    (∃ items, items.any (·.asText? == some ownReference) = true ∧
      referring old = .seq items) ∨
    ∃ tag value, value.asItems?.isSome = true ∧ referring old = .tagged tag value := by
  have happended : ∀ items : List Yaml,
      (items ++ [Yaml.str ownReference]).any (·.asText? == some ownReference) = true := by
    intro items
    rw [List.any_append]
    exact Bool.or_true _
  unfold referring
  split
  next items =>
    by_cases hany : items.any (·.asText? == some ownReference) = true
    · exact .inl ⟨items, hany, if_pos hany⟩
    · exact .inl ⟨_, happended items, if_neg hany⟩
  next tag value =>
    by_cases hitems : value.asItems?.isSome = true
    · exact .inr ⟨tag, value, hitems, if_pos hitems⟩
    · exact .inl ⟨_, happended [], if_neg hitems⟩
  next => exact .inl ⟨_, happended [], rfl⟩

theorem referring_referring (old : Option Yaml) :
    referring (some (referring old)) = referring old := by
  obtain ⟨items, hany, h⟩ | ⟨tag, value, hitems, h⟩ := referring_cases old
  · rw [h, referring, if_pos hany]
  · rw [h, referring, if_pos hitems]

theorem isOwnClause_of_mem_clauses {groups : SpecGroups} {clause : Yaml}
    (h : clause ∈ groups.map clauseOf) : isOwnClause clause = true := by
  obtain ⟨group, -, rfl⟩ := List.mem_map.mp h
  rfl

theorem isOwnClause_of_mem_keptClauses {old : Option Yaml} {clause : Yaml}
    (h : clause ∈ keptClauses old) : isOwnClause clause = false := by
  unfold keptClauses at h
  split at h
  next => simpa using (List.mem_filter.mp h).2
  next => cases h

/-- Of the definitions of a manifest those are kept that were kept before. -/
theorem keptClauses_append_clauses (old : Option Yaml) (groups : SpecGroups) :
    keptClauses (some (.seq (keptClauses old ++ groups.map clauseOf))) =
      keptClauses old := by
  have hkept : (keptClauses old).filter (!isOwnClause ·) = keptClauses old := by
    rw [List.filter_eq_self]
    intro clause hclause
    rw [isOwnClause_of_mem_keptClauses hclause]
    rfl
  have hown : (groups.map clauseOf).filter (!isOwnClause ·) = [] := by
    rw [List.filter_eq_nil_iff]
    intro clause hclause
    rw [isOwnClause_of_mem_clauses hclause]
    decide
  rw [keptClauses, List.filter_append, hkept, hown, List.append_nil]

/-! ## The section of a manifest as a template -/

theorem adjust_of_get? {key : Text} {change : Option Yaml → Yaml}
    {section_ : Entries} {value : Yaml}
    (hvalue : section_.get? (.str key) = some value)
    (hchange : change (some value) = value) :
    adjust key change section_ = section_ := by
  rw [adjust, hvalue, hchange]
  exact Entries.put_of_get? hvalue

section Section

variable (groups : SpecGroups) (template : Entries)

/-- What a section is before the resolution enters it. -/
def prepared : Entries :=
  adjust "concretizer" unified (withView template)

theorem get?_prepared_of_ne {other : Text} (hview : "view".toList ≠ other)
    (hconcretizer : "concretizer".toList ≠ other) :
    (prepared template).get? (.str other) = template.get? (.str other) := by
  rw [prepared, get?_adjust_of_ne _ hconcretizer, get?_withView_of_ne _ hview]

/-- The definitions and the specs are put into a section last, one after the
other. -/
theorem sectionOf_eq_put :
    sectionOf groups template =
      ((prepared template).put (.str "definitions")
        (.seq (keptClauses (template.get? (.str "definitions")) ++
          groups.map clauseOf))).put (.str "specs")
        (referring (template.get? (.str "specs"))) := by
  rw [sectionOf, ← prepared, adjust, get?_adjust_of_ne _ (by decide), adjust,
    get?_prepared_of_ne _ (by decide) (by decide),
    get?_prepared_of_ne _ (by decide) (by decide)]

theorem hasKey_view_withView : (withView template).hasKey (.str "view") = true := by
  rw [withView]
  split
  next hview => exact hview
  next => exact Entries.hasKey_put_self _ _ _

theorem hasKey_view_sectionOf :
    (sectionOf groups template).hasKey (.str "view") = true := by
  rw [sectionOf_eq_put]
  exact Entries.hasKey_put _ _ (Entries.hasKey_put _ _
    (Entries.hasKey_put _ _ (hasKey_view_withView template)))

theorem prepared_sectionOf :
    prepared (sectionOf groups template) = sectionOf groups template := by
  rw [prepared, withView, if_pos (hasKey_view_sectionOf groups template)]
  exact adjust_of_get? (get?_sectionOf_concretizer groups template)
    (unified_unified _)

/-- The section for a resolution is the same whether it is made from a template or
from the section for an earlier resolution. -/
theorem sectionOf_sectionOf (earlier : SpecGroups) :
    sectionOf groups (sectionOf earlier template) = sectionOf groups template := by
  rw [sectionOf_eq_put groups (sectionOf earlier template), prepared_sectionOf,
    get?_sectionOf_definitions, keptClauses_append_clauses,
    get?_sectionOf_specs, referring_referring, sectionOf_eq_put earlier,
    sectionOf_eq_put groups]
  -- Both keys have their places already, and the last value of each remains.
  rw [Entries.put_put_put (by decide), Entries.put_put_put (by decide)]

/-- However often a section has been made anew, the next one is the same as the
one made from the template. -/
theorem sectionOf_foldl (history : List SpecGroups) :
    sectionOf groups (history.foldl (fun t earlier => sectionOf earlier t) template) =
      sectionOf groups template := by
  induction history generalizing template with
  | nil => rfl
  | cons earlier history ih => rw [List.foldl_cons, ih, sectionOf_sectionOf]

end Section

/-- A manifest forgets its predecessors: built from the section of an earlier
manifest, whatever that was built for, it is the manifest that the template, or
none, gives. -/
theorem build_forgets_earlier (earlier : SpecGroups) (template : Option Entries) :
    ∃ section_ : Entries,
      (build earlier (template.getD [])).get? (.str "spack") =
        some (.map section_) ∧
      ∀ groups, build groups section_ = build groups (template.getD []) := by
  refine ⟨sectionOf earlier (template.getD []), get?_build_spack _ _, ?_⟩
  intro groups
  rw [build, build, sectionOf_sectionOf]

end Manifest

end DevSpecs
