import DevSpecs.Manifest
import DevSpecs.Proofs.Yaml.Entries

/-!
# Settings of a manifest

A manifest should always have a concretizer that unifies, and specs that refer
to the resolved ones.  Whether the template has a mapping or a sequence there is
asked of what is under its tags, but only an untagged mapping or sequence is
changed.  So a tagged one is neither replaced nor completed, and the settings
are there exactly when the template's tagged values have them already.
-/

namespace DevSpecs

namespace Manifest

open Yaml (Entries)

/-! ## The section of a manifest -/

section Section

variable {key other : Text} {change : Option Yaml → Yaml}

theorem get?_adjust_self (section_ : Entries) :
    (adjust key change section_).get? (.str key) =
      some (change (section_.get? (.str key))) :=
  Entries.get?_put_self section_ key _

theorem get?_adjust_of_ne (section_ : Entries) (hne : key ≠ other) :
    (adjust key change section_).get? (.str other) =
      section_.get? (.str other) :=
  Entries.get?_put_of_ne section_ hne _

theorem get?_withView_of_ne (section_ : Entries) (hne : "view".toList ≠ other) :
    (withView section_).get? (.str other) = section_.get? (.str other) := by
  rw [withView]
  split
  · rfl
  · exact Entries.get?_put_of_ne section_ hne _

variable (groups : SpecGroups) (template : Entries)

theorem get?_sectionOf_concretizer :
    (sectionOf groups template).get? (.str "concretizer") =
      some (unified (template.get? (.str "concretizer"))) := by
  rw [sectionOf, get?_adjust_of_ne _ (by decide),
    get?_adjust_of_ne _ (by decide), get?_adjust_self,
    get?_withView_of_ne _ (by decide)]

theorem get?_sectionOf_definitions :
    (sectionOf groups template).get? (.str "definitions") =
      some (.seq (keptClauses (template.get? (.str "definitions")) ++
        groups.map clauseOf)) := by
  rw [sectionOf, get?_adjust_of_ne _ (by decide), get?_adjust_self,
    get?_adjust_of_ne _ (by decide), get?_withView_of_ne _ (by decide)]

theorem get?_sectionOf_specs :
    (sectionOf groups template).get? (.str "specs") =
      some (referring (template.get? (.str "specs"))) := by
  rw [sectionOf, get?_adjust_self, get?_adjust_of_ne _ (by decide),
    get?_adjust_of_ne _ (by decide), get?_withView_of_ne _ (by decide)]

theorem get?_build_spack :
    (build groups template).get? (.str "spack") =
      some (.map (sectionOf groups template)) :=
  Entries.get?_str_cons_self []

end Section

/-! ## Concretizers that unify -/

/-- The value is a mapping, under any tags, in which `unify` is `true`. -/
def Unifies (concretizer : Yaml) : Prop :=
  concretizer.get? "unify" = some (.bool true)

theorem unifies_put_unify (entries : Entries) :
    Unifies (.map (entries.put (.str "unify") (.bool true))) :=
  Entries.get?_put_self entries "unify" (.bool true)

theorem unifies_fresh : Unifies (.map [(.str "unify", .bool true)]) :=
  unifies_put_unify []

/-- The concretizer of a manifest unifies unless the template has a tagged
mapping there that does not. -/
theorem unifies_unified_iff (old : Option Yaml) :
    Unifies (unified old) ↔
      ∀ tag value, old = some (.tagged tag value) →
        value.asEntries?.isSome = true → Unifies (.tagged tag value) := by
  unfold unified
  split
  next entries =>
    refine iff_of_true (unifies_put_unify entries) ?_
    rintro tag value ⟨⟩
  next tag value =>
    by_cases hentries : value.asEntries?.isSome = true
    · rw [if_pos hentries]
      constructor
      · rintro hunifies _ _ ⟨⟩ _
        exact hunifies
      · intro h
        exact h tag value rfl hentries
    · rw [if_neg hentries]
      refine iff_of_true unifies_fresh ?_
      rintro _ _ ⟨⟩ h
      exact absurd h hentries
  next htagged =>
    refine iff_of_true unifies_fresh ?_
    intro tag value heq
    exact absurd heq (htagged tag value)

/-! ## Specs that refer to the resolved ones -/

/-- The value is a sequence, under any tags, and one of its items is the
reference to the definition of the resolved specs, again under any tags. -/
def Refers (specs : Yaml) : Prop :=
  ∃ items, specs.asItems? = some items ∧
    ∃ item ∈ items, item.asText? = some ownReference

theorem refers_append_ownReference (items : List Yaml) :
    Refers (.seq (items ++ [.str ownReference])) := by
  refine ⟨_, rfl, .str ownReference, ?_, rfl⟩
  exact List.mem_append_right items List.mem_cons_self

theorem refers_fresh : Refers (.seq [.str ownReference]) :=
  refers_append_ownReference []

theorem refers_of_any {items : List Yaml}
    (h : items.any (·.asText? == some ownReference) = true) :
    Refers (.seq items) := by
  obtain ⟨item, hitem, htext⟩ := List.any_eq_true.mp h
  exact ⟨items, rfl, item, hitem, eq_of_beq htext⟩

/-- The specs of a manifest refer to the resolved ones unless the template has
a tagged sequence there that does not. -/
theorem refers_referring_iff (old : Option Yaml) :
    Refers (referring old) ↔
      ∀ tag value, old = some (.tagged tag value) →
        value.asItems?.isSome = true → Refers (.tagged tag value) := by
  unfold referring
  split
  next items =>
    refine iff_of_true ?_ ?_
    · split
      next hany => exact refers_of_any hany
      next => exact refers_append_ownReference items
    · rintro tag value ⟨⟩
  next tag value =>
    by_cases hitems : value.asItems?.isSome = true
    · rw [if_pos hitems]
      constructor
      · rintro hrefers _ _ ⟨⟩ _
        exact hrefers
      · intro h
        exact h tag value rfl hitems
    · rw [if_neg hitems]
      refine iff_of_true refers_fresh ?_
      rintro _ _ ⟨⟩ h
      exact absurd h hitems
  next htagged =>
    refine iff_of_true refers_fresh ?_
    intro tag value heq
    exact absurd heq (htagged tag value)

/-! ## Manifests that carry both -/

/-- A section with a concretizer that unifies and specs that refer to the
resolved ones. -/
structure Settled (section_ : Entries) : Prop where
  concretizer : ∃ value ∈ section_.get? (.str "concretizer"), Unifies value
  specs : ∃ value ∈ section_.get? (.str "specs"), Refers value

def CarriesSettings (manifest : Entries) : Prop :=
  ∃ section_ : Entries,
    manifest.get? (.str "spack") = some (.map section_) ∧ Settled section_

/-- Where a template has a mapping under a tag as its concretizer, it unifies. -/
def TaggedUnifies (template : Entries) : Prop :=
  ∀ tag value, template.get? (.str "concretizer") = some (.tagged tag value) →
    value.asEntries?.isSome = true → Unifies (.tagged tag value)

/-- Where a template has a sequence under a tag as its specs, they refer to the
resolved ones. -/
def TaggedRefers (template : Entries) : Prop :=
  ∀ tag value, template.get? (.str "specs") = some (.tagged tag value) →
    value.asItems?.isSome = true → Refers (.tagged tag value)

section Build

variable {groups : SpecGroups} {template : Entries}

theorem settled_sectionOf_iff :
    Settled (sectionOf groups template) ↔
      TaggedUnifies template ∧ TaggedRefers template := by
  have hconcretizer := get?_sectionOf_concretizer groups template
  have hspecs := get?_sectionOf_specs groups template
  rw [TaggedUnifies, TaggedRefers, ← unifies_unified_iff, ← refers_referring_iff]
  constructor
  · rintro ⟨⟨value, hvalue, hunifies⟩, value', hvalue', hrefers⟩
    obtain rfl := Option.some.inj (hconcretizer.symm.trans hvalue)
    obtain rfl := Option.some.inj (hspecs.symm.trans hvalue')
    exact ⟨hunifies, hrefers⟩
  · rintro ⟨hunifies, hrefers⟩
    exact ⟨⟨_, hconcretizer, hunifies⟩, _, hspecs, hrefers⟩

theorem carriesSettings_build :
    CarriesSettings (build groups template) ↔
      Settled (sectionOf groups template) := by
  have hspack := get?_build_spack groups template
  constructor
  · rintro ⟨section_, hsection, hsettled⟩
    obtain rfl : sectionOf groups template = section_ :=
      Yaml.map.inj (Option.some.inj (hspack.symm.trans hsection))
    exact hsettled
  · intro hsettled
    exact ⟨_, hspack, hsettled⟩

end Build

/-- Whatever the resolution, a manifest carries both settings exactly when the
tagged values of the template have them already. -/
theorem carriesSettings_build_iff (groups : SpecGroups) (template : Entries) :
    CarriesSettings (build groups template) ↔
      TaggedUnifies template ∧ TaggedRefers template :=
  carriesSettings_build.trans settled_sectionOf_iff

/-- An empty sequence under a tag stays without the reference, and an empty
mapping under a tag stays a concretizer that does not unify. -/
theorem tagged_values_stay_unsettled :
    ¬CarriesSettings (build [] [(.str "specs", .tagged "x" (.seq []))]) ∧
      ¬CarriesSettings
        (build [] [(.str "concretizer", .tagged "x" (.map []))]) := by
  constructor
  · intro h
    have hsettled := settled_sectionOf_iff.mp (carriesSettings_build.mp h)
    obtain ⟨items, hitems, item, hitem, -⟩ := hsettled.2 "x" (.seq []) rfl rfl
    obtain rfl : [] = items := Option.some.inj hitems
    exact List.not_mem_nil hitem
  · intro h
    have hsettled := settled_sectionOf_iff.mp (carriesSettings_build.mp h)
    have hunifies := hsettled.1 "x" (.map []) rfl rfl
    cases hunifies

end Manifest

end DevSpecs
