import DevSpecs.Proofs.Manifest.Regeneration

/-!
# What a manifest says

A manifest says everything about the resolution that it was built for: the groups
of specs can be read back from the definitions of `_dev`, in order.  And it says
of the template what the template said, apart from what has to be adjusted: the
other definitions come first, other specs stay, and all other settings keep their
values and their places.
-/

namespace DevSpecs

namespace Manifest

open Yaml (Entries)

/-! ## Clauses that hold specs -/

/-- The clause defines `_dev`: it is a mapping, under any tags, with that key. -/
inductive DefinesOwn : Yaml → Prop
  | map {entries : Entries} (h : .str ownDefinition ∈ entries.map Prod.fst) :
      DefinesOwn (.map entries)
  | tagged (tag : Text) {clause : Yaml} (h : DefinesOwn clause) :
      DefinesOwn (.tagged tag clause)

theorem definesOwn_map_iff {entries : Entries} :
    DefinesOwn (.map entries) ↔ .str ownDefinition ∈ entries.map Prod.fst :=
  ⟨fun | .map h => h, .map⟩

theorem definesOwn_tagged_iff {tag : Text} {clause : Yaml} :
    DefinesOwn (.tagged tag clause) ↔ DefinesOwn clause :=
  ⟨fun | .tagged _ h => h, .tagged tag⟩

theorem isOwnClause_iff {clause : Yaml} :
    isOwnClause clause = true ↔ DefinesOwn clause := by
  induction clause using Yaml.untagged.induct with
  | case1 tag clause ih => exact ih.trans definesOwn_tagged_iff.symm
  | case2 clause huntagged =>
      cases clause with
      | map entries => exact Entries.hasKey_str_iff.trans definesOwn_map_iff.symm
      | tagged tag clause => exact absurd rfl (huntagged tag clause)
      | _ => exact iff_of_false Bool.false_ne_true nofun

instance : DecidablePred DefinesOwn :=
  fun _ => decidable_of_iff _ isOwnClause_iff

/-! ## Reading groups back -/

/-- The group that a clause defines: its specs are under `_dev`, and its predicate
is under `when`, if it has one. -/
def groupOf? (clause : Yaml) : Option SpecGroup := do
  let entries ← clause.asEntries?
  let definition ← entries.get? (.str ownDefinition)
  let specs ← (← definition.asItems?).mapM Yaml.asText?
  let when ← (entries.get? (.str "when")).mapM Yaml.asText?
  return ⟨when, specs⟩

/-- The groups that the definitions of `_dev` in a section define. -/
def recordedGroups? (section_ : Entries) : Option SpecGroups := do
  let definitions ← section_.get? (.str "definitions")
  let clauses ← definitions.asItems?
  (clauses.filter (DefinesOwn ·)).mapM groupOf?

theorem mapM_map_of_forall {α β : Type} {encode : α → β} {decode : β → Option α}
    (h : ∀ a, decode (encode a) = some a) (xs : List α) :
    (xs.map encode).mapM decode = some xs := by
  induction xs with
  | nil => rfl
  | cons x xs ih => rw [List.map_cons, List.mapM_cons, h, ih]; rfl

theorem get?_when_clauseOf (group : SpecGroup) (specs : Yaml) :
    Entries.get? ((.str ownDefinition, specs) ::
        group.when.toList.map fun predicate => (.str "when", .str predicate))
      (.str "when") = group.when.map .str := by
  have hne : ¬(Yaml.str ownDefinition == .str "when") = true := by decide
  rw [Entries.get?_cons, if_neg hne]
  cases group.when with
  | none => rfl
  | some predicate => exact Entries.get?_str_cons_self []

theorem groupOf?_clauseOf (group : SpecGroup) :
    groupOf? (clauseOf group) = some group := by
  have hspecs : (group.specs.map Yaml.str).mapM Yaml.asText? = some group.specs :=
    mapM_map_of_forall Yaml.asText?_str group.specs
  have hwhen : (group.when.map Yaml.str).mapM Yaml.asText? = some group.when := by
    cases group.when with
    | none => rfl
    | some predicate => rfl
  rw [clauseOf, groupOf?, Yaml.asEntries?_map]
  dsimp only [Option.bind_eq_bind, Option.bind_some]
  rw [Entries.get?_str_cons_self, get?_when_clauseOf, hwhen, Option.bind_some,
    Yaml.asItems?_seq, Option.bind_some, hspecs]
  rfl

theorem keptClauses_seq (old : List Yaml) :
    keptClauses (some (.seq old)) = old.filter (¬DefinesOwn ·) := by
  apply List.filter_congr
  intro clause _
  rw [Bool.eq_iff_iff, decide_eq_true_iff, Bool.not_eq_true', ← Bool.not_eq_true,
    isOwnClause_iff]

theorem definesOwn_of_mem_clauses {groups : SpecGroups} {clause : Yaml}
    (h : clause ∈ groups.map clauseOf) : DefinesOwn clause :=
  isOwnClause_iff.mp (isOwnClause_of_mem_clauses h)

theorem filter_definesOwn_definitions (old : Option Yaml) (groups : SpecGroups) :
    (keptClauses old ++ groups.map clauseOf).filter (DefinesOwn ·) =
      groups.map clauseOf := by
  have hkept : (keptClauses old).filter (DefinesOwn ·) = [] := by
    rw [List.filter_eq_nil_iff]
    intro clause hclause
    rw [decide_eq_true_iff, ← isOwnClause_iff, isOwnClause_of_mem_keptClauses hclause]
    exact Bool.false_ne_true
  have hown : (groups.map clauseOf).filter (DefinesOwn ·) = groups.map clauseOf := by
    rw [List.filter_eq_self]
    intro clause hclause
    exact decide_eq_true (definesOwn_of_mem_clauses hclause)
  rw [List.filter_append, hkept, hown, List.nil_append]

theorem recordedGroups?_sectionOf (groups : SpecGroups) (template : Entries) :
    recordedGroups? (sectionOf groups template) = some groups := by
  rw [recordedGroups?, get?_sectionOf_definitions]
  dsimp only [Option.bind_eq_bind, Option.bind_some]
  rw [Yaml.asItems?_seq, Option.bind_some, filter_definesOwn_definitions]
  exact mapM_map_of_forall groupOf?_clauseOf groups

/-! ## What is left of the template -/

theorem changesOnly_withView (template : Entries) :
    Entries.ChangesOnly [] ["view"] template (withView template) := by
  rw [withView]
  split
  next hview =>
    refine ⟨?_, fun _ _ hentry _ => hentry⟩
    rw [Entries.lacking, List.filter_cons, hview]
    exact (List.append_nil _).symm
  next hview =>
    refine ⟨(Entries.changesOnly_put template "view" _).keys, ?_⟩
    intro i entry hentry _
    refine Entries.getElem?_put_of_ne hentry ?_ _
    intro heq
    apply hview
    rw [Entries.hasKey_str_iff, ← heq]
    exact List.mem_map_of_mem (List.mem_of_getElem? hentry)

theorem changesOnly_adjust (key : Text) (change : Option Yaml → Yaml)
    (section_ : Entries) :
    Entries.ChangesOnly [key] [key] section_ (adjust key change section_) :=
  Entries.changesOnly_put section_ key _

theorem changesOnly_sectionOf (groups : SpecGroups) (template : Entries) :
    Entries.ChangesOnly ["concretizer", "definitions", "specs"]
      ["view", "concretizer", "definitions", "specs"]
      template (sectionOf groups template) := by
  have hview := changesOnly_withView template
  have hconcretizer := hview.trans
    (changesOnly_adjust "concretizer" unified _) (by decide)
  have hdefinitions := hconcretizer.trans
    (changesOnly_adjust "definitions"
      (fun old => .seq (keptClauses old ++ groups.map clauseOf)) _) (by decide)
  exact hdefinitions.trans (changesOnly_adjust "specs" referring _) (by decide)

/-- The section of a manifest for some groups, beside the template it was built
from. -/
structure Encodes (groups : SpecGroups) (template section_ : Entries) : Prop where
  recorded : recordedGroups? section_ = some groups
  /-- The template's other definitions come first, in their order. -/
  definitions : ∀ old, template.get? (.str "definitions") = some (.seq old) →
    ∃ own, section_.get? (.str "definitions") =
        some (.seq (old.filter (¬DefinesOwn ·) ++ own)) ∧
      ∀ clause ∈ own, DefinesOwn clause
  /-- A reference is added at the end if the template's specs have none. -/
  specs : ∀ old, template.get? (.str "specs") = some (.seq old) →
    ∃ added, section_.get? (.str "specs") = some (.seq (old ++ added)) ∧
      (Refers (.seq old) → added = []) ∧
      (¬Refers (.seq old) → added = [.str ownReference])
  concretizer : ∀ old, template.get? (.str "concretizer") = some (.map old) →
    ∃ new, section_.get? (.str "concretizer") = some (.map new) ∧
      Entries.ChangesOnly ["unify"] ["unify"] old new
  /-- All other settings keep their values, and all keys their places. -/
  others : Entries.ChangesOnly ["concretizer", "definitions", "specs"]
    ["view", "concretizer", "definitions", "specs"] template section_

theorem refers_seq_iff (items : List Yaml) :
    Refers (.seq items) ↔ items.any (·.asText? == some ownReference) = true := by
  constructor
  · rintro ⟨items', hitems, item, hitem, htext⟩
    obtain rfl : items = items' := Option.some.inj hitems
    exact List.any_eq_true.mpr ⟨item, hitem, beq_iff_eq.mpr htext⟩
  · exact refers_of_any

theorem encodes_sectionOf (groups : SpecGroups) (template : Entries) :
    Encodes groups template (sectionOf groups template) where
  recorded := recordedGroups?_sectionOf groups template
  definitions old hold := by
    refine ⟨groups.map clauseOf, ?_, fun clause => definesOwn_of_mem_clauses⟩
    rw [get?_sectionOf_definitions, hold, keptClauses_seq]
  specs old hold := by
    rw [get?_sectionOf_specs, hold, referring, refers_seq_iff]
    by_cases hany : old.any (·.asText? == some ownReference) = true
    · refine ⟨[], ?_, fun _ => rfl, absurd hany⟩
      rw [if_pos hany, List.append_nil]
    · refine ⟨[.str ownReference], ?_, fun h => absurd h hany, fun _ => rfl⟩
      rw [if_neg hany]
  concretizer old hold := by
    refine ⟨Entries.put old (.str "unify") (.bool true), ?_,
      Entries.changesOnly_put old "unify" _⟩
    rw [get?_sectionOf_concretizer, hold, unified]
  others := changesOnly_sectionOf groups template

/-- For every resolution and every template, the manifest records the groups of the
resolution and says the rest of what the template said. -/
theorem build_encodes (groups : SpecGroups) (template : Entries) :
    ∃ section_ : Entries,
      build groups template = [(.str "spack", .map section_)] ∧
        Encodes groups template section_ :=
  ⟨sectionOf groups template, rfl, encodes_sectionOf groups template⟩

end Manifest

end DevSpecs
