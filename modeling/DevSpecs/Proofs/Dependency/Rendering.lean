import DevSpecs.Proofs.Spec.Layout
import DevSpecs.Proofs.Dependency.Declared
import DevSpecs.Proofs.Dependency.Asking

/-!
# Reading specs back

The specs that a dependency hands out are texts, and Spack reads them again.
They are read as the package, the base and the ranges that were meant, provided
that the base has no version token of its own.  The text of the dependency itself
is read as the same dependency.
-/

namespace DevSpecs
namespace Dependency

open Spec

variable {d : Dependency} {index : Index}

/-! ## What is handed out, as items of a token -/

theorem text_eq_withVersion (hranges : d.ranges ≠ []) :
    d.text =
      withVersion d.base
        ('@' :: Item.listText (d.ranges.map Item.ofRange)) := by
  have hempty : d.ranges.isEmpty = false := by simpa using hranges
  simp only [text, versionToken, hempty, Bool.false_eq_true, if_false,
    Item.listText, List.map_map]
  rfl

theorem minimumSpec_eq_withVersion {v : Version} (hv : d.minimum? = some v) :
    d.minimumSpec =
      withVersion d.base ('@' :: Item.listText [Item.ofVersion v]) := by
  simp [minimumSpec, hv, Item.listText, Item.ofVersion, List.intercalate]

/-- The items that ask for an external or anything from the latest version. -/
def pinnedItems (external : Option Version) (latest : Version) : List Item :=
  external.toList.map Item.ofVersion ++ [Item.ofRange ⟨some latest, none⟩]

theorem pinnedToken_eq (external : Option Version) (latest : Version) :
    pinnedToken external latest =
      '@' :: Item.listText (pinnedItems external latest) := by
  cases external <;>
    simp [pinnedToken, pinnedItems, Item.listText, Item.ofVersion, Item.ofRange,
      VersionRange.text]

/-! ## Reading back -/

/-- The lists of ranges that the specs for a mode stand for, when `s` is what is
known before the question. -/
inductive Meant (d : Dependency) (mode : Mode) (unresolve : List Text)
    (index : Index) (s : Knowledge) : List VersionRange → Prop
  | declared (hmode : d.effectiveMode mode unresolve ≠ .minimum) :
      Meant d mode unresolve index s d.ranges
  | minimum (v : Version)
      (hmode : d.effectiveMode mode unresolve = .minimum)
      (hv : d.minimum? = some v) :
      Meant d mode unresolve index s [.exactly v]
  | pinned (external : Option Version) (latest : Version) (t u : Knowledge)
      (hmode : d.effectiveMode mode unresolve = .latest)
      (hexternal : (d.newestExternal index).run s = (.ok external, t))
      (hlatest : (d.newestVersion index).run t = (.ok (some latest), u)) :
      Meant d mode unresolve index s
        (external.toList.map .exactly ++ [⟨some latest, none⟩])

/-- With any token, the base is read as the package, the base and the ranges of
that token. -/
def TakesTokens (d : Dependency) : Prop :=
  ∀ items : List Item, items ≠ [] →
    Spec.parse (withVersion d.base ('@' :: Item.listText items)) =
      .ok ⟨d.package, d.base, items.map Item.range⟩

section ReadBack

variable {spec : Text} {when : Option Text} {p : Spec}

/-- A base that declares no ranges takes tokens. -/
theorem takesTokens_of_plain (h : Dependency.parse spec when = .ok d)
    (hbase : Spec.parse d.base = .ok p) (hplain : p.ranges = []) :
    d.TakesTokens := by
  intro items hitems
  obtain ⟨parsed, hparsed, _, rfl⟩ := parse_eq_ok_iff.mp h
  obtain ⟨hne, l, hl, hname⟩ := Layout.exists_of_parse hparsed
  simp only at hbase ⊢
  rw [hl] at hbase ⊢
  have hlayout : l.Plain := Layout.plain_of_parse hbase hplain
  rw [Layout.withVersion_text,
    hlayout.parse_attach (hname.symm ▸ hne) hitems, hname]

theorem TakesTokens.parse_text (h : d.TakesTokens) (hranges : d.ranges ≠ []) :
    Spec.parse d.text = .ok ⟨d.package, d.base, d.ranges⟩ := by
  have hitems : d.ranges.map Item.ofRange ≠ [] := by simpa using hranges
  have hread : (d.ranges.map Item.ofRange).map Item.range = d.ranges := by
    rw [List.map_map]
    exact List.map_id _
  rw [text_eq_withVersion hranges, h _ hitems, hread]

theorem TakesTokens.parse_minimumSpec (h : d.TakesTokens) {v : Version}
    (hv : d.minimum? = some v) :
    Spec.parse d.minimumSpec = .ok ⟨d.package, d.base, [.exactly v]⟩ := by
  rw [minimumSpec_eq_withVersion hv, h _ (List.cons_ne_nil _ [])]
  rfl

theorem TakesTokens.parse_pinned (h : d.TakesTokens)
    (external : Option Version) (latest : Version) :
    Spec.parse (withVersion d.base (pinnedToken external latest)) =
      .ok ⟨d.package, d.base,
        external.toList.map .exactly ++ [⟨some latest, none⟩]⟩ := by
  have hitems : pinnedItems external latest ≠ [] := by simp [pinnedItems]
  rw [pinnedToken_eq, h _ hitems]
  cases external <;> rfl

/-- The text of a dependency declares the same dependency. -/
theorem parse_text_eq_self (h : Dependency.parse spec when = .ok d)
    (htokens : d.TakesTokens) (hranges : d.ranges ≠ []) :
    Dependency.parse d.text when = .ok d := by
  rw [parse_eq_ok_iff]
  refine ⟨_, htokens.parse_text hranges, ?_⟩
  obtain ⟨parsed, _, hdeclared, rfl⟩ := parse_eq_ok_iff.mp h
  exact ⟨hdeclared, rfl⟩

/-- Every spec for a mode is read as ranges that were meant. -/
theorem exists_meant_of_mem_specs (h : Dependency.parse spec when = .ok d)
    (htokens : d.TakesTokens) (hranges : d.ranges ≠ []) {mode : Mode}
    {unresolve : List Text} {s t : Knowledge} {strings : List Text}
    (hrun : (d.specs mode unresolve index).run s = (.ok strings, t)) :
    ∀ string ∈ strings, ∃ ranges, Meant d mode unresolve index s ranges ∧
      Spec.parse string = .ok ⟨d.package, d.base, ranges⟩ := by
  have htext := htokens.parse_text hranges
  have hends := specs_ends d mode unresolve index s
  rw [hrun] at hends
  intro string hstring
  cases hends with
  | unconstrained hnone => exact absurd hnone hranges
  | any _ hmode =>
      obtain rfl := List.mem_singleton.mp hstring
      exact ⟨d.ranges, .declared (by simp [hmode]), htext⟩
  | minimum _ hmode =>
      obtain ⟨v, hv, _⟩ := exists_minimum h hranges
      obtain rfl := List.mem_singleton.mp hstring
      exact ⟨_, .minimum v hmode hv, htokens.parse_minimumSpec hv⟩
  | latest external latest u _ _ hmode hexternal hlatest =>
      rw [mem_sortedDistinct, List.mem_cons, List.mem_singleton] at hstring
      rcases hstring with rfl | rfl
      · exact ⟨d.ranges, .declared (by simp [hmode]), htext⟩
      · exact ⟨_, .pinned external latest u t hmode hexternal hlatest,
          htokens.parse_pinned external latest⟩

/-- Every list of ranges that was meant is read from a spec for the mode. -/
theorem exists_spec_of_meant (htokens : d.TakesTokens) (hranges : d.ranges ≠ [])
    {mode : Mode} {unresolve : List Text} {s t : Knowledge}
    {strings : List Text}
    (hrun : (d.specs mode unresolve index).run s = (.ok strings, t))
    {ranges : List VersionRange}
    (hmeant : Meant d mode unresolve index s ranges) :
    ∃ string ∈ strings,
      Spec.parse string = .ok ⟨d.package, d.base, ranges⟩ := by
  have htext := htokens.parse_text hranges
  have hends := specs_ends d mode unresolve index s
  rw [hrun] at hends
  cases hends with
  | unconstrained hnone => exact absurd hnone hranges
  | any _ hmode =>
      refine ⟨d.text, List.mem_singleton.mpr rfl, ?_⟩
      cases hmeant with
      | declared _ => exact htext
      | minimum _ hmode' _ => simp [hmode] at hmode'
      | pinned _ _ _ _ hmode' _ _ => simp [hmode] at hmode'
  | minimum _ hmode =>
      refine ⟨d.minimumSpec, List.mem_singleton.mpr rfl, ?_⟩
      cases hmeant with
      | declared hmode' => exact absurd hmode hmode'
      | minimum v _ hv => exact htokens.parse_minimumSpec hv
      | pinned _ _ _ _ hmode' _ _ => simp [hmode] at hmode'
  | latest external latest u _ _ hmode hexternal hlatest =>
      cases hmeant with
      | declared _ =>
          exact ⟨d.text, mem_sortedDistinct.mpr (by simp), htext⟩
      | minimum _ hmode' _ => simp [hmode] at hmode'
      | pinned external' latest' u' _ _ hexternal' hlatest' =>
          obtain ⟨rfl, rfl⟩ : external = external' ∧ u = u' := by
            cases hexternal.symm.trans hexternal'
            exact ⟨rfl, rfl⟩
          obtain rfl : latest = latest' := by
            cases hlatest.symm.trans hlatest'
            rfl
          exact ⟨_, mem_sortedDistinct.mpr (by simp),
            htokens.parse_pinned external latest⟩

/-- The specs for a mode are read as the same package and base, with the lists of
ranges that were meant and no others, and the text of a dependency as the same
dependency, if the base declares no ranges. -/
theorem specs_readBack (h : Dependency.parse spec when = .ok d)
    (hranges : d.ranges ≠ []) (hbase : Spec.parse d.base = .ok p)
    (hplain : p.ranges = []) :
    (∀ mode unresolve index s strings t,
      (d.specs mode unresolve index).run s = (.ok strings, t) →
        (∀ string ∈ strings, ∃ ranges,
          Meant d mode unresolve index s ranges ∧
            Spec.parse string = .ok ⟨d.package, d.base, ranges⟩) ∧
        (∀ ranges, Meant d mode unresolve index s ranges →
          ∃ string ∈ strings,
            Spec.parse string = .ok ⟨d.package, d.base, ranges⟩)) ∧
      Dependency.parse d.text when = .ok d := by
  have htokens : d.TakesTokens := takesTokens_of_plain h hbase hplain
  refine ⟨?_, parse_text_eq_self h htokens hranges⟩
  intro mode unresolve index s strings t hrun
  constructor
  · exact exists_meant_of_mem_specs h htokens hranges hrun
  · intro ranges hmeant
    exact exists_spec_of_meant htokens hranges hrun hmeant

/-- An external and a latest version beside two ranges, with nodes that have
tokens of their own. -/
theorem specs_readBack_with_nodes :
    ∃ d p index strings t,
      Dependency.parse "foo+mpi @1.2:,2:3%gcc @12 ^bar@3:" none = .ok d ∧
        d.ranges ≠ [] ∧ Spec.parse d.base = .ok p ∧ p.ranges = [] ∧
        (d.specs .latest [] index).run ({}, []) = (.ok strings, t) ∧
        strings =
          ["foo+mpi @1.2:,2:3 %gcc @12 ^bar@3:".toList,
            "foo+mpi @2.1,2.5: %gcc @12 ^bar@3:".toList] ∧
        (∀ string ∈ strings, ∃ ranges,
          Meant d .latest [] index ({}, []) ranges ∧
            Spec.parse string = .ok ⟨d.package, d.base, ranges⟩) ∧
        Dependency.parse d.text none = .ok d := by
  let newest : Version := ⟨"2.5", by decide, by decide⟩
  let external : Version := ⟨"2.1", by decide, by decide⟩
  let index : Index := ⟨fun _ _ => .ok newest, fun _ _ => .ok [external]⟩
  obtain ⟨d, hparse, hcheck⟩ :=
    exists_ok_of_any
      (Dependency.parse "foo+mpi @1.2:,2:3%gcc @12 ^bar@3:" none)
      (fun d => !d.ranges.isEmpty &&
        (Spec.parse d.base).toOption.any (·.ranges.isEmpty) &&
        ((d.specs .latest [] index).run ({}, [])).1.toOption.any (· ==
          ["foo+mpi @1.2:,2:3 %gcc @12 ^bar@3:".toList,
            "foo+mpi @2.1,2.5: %gcc @12 ^bar@3:".toList]))
      (by decide +kernel)
  rw [Bool.and_eq_true, Bool.and_eq_true] at hcheck
  obtain ⟨⟨hranges, hbase⟩, hstrings⟩ := hcheck
  have hranges : d.ranges ≠ [] := by simpa using hranges
  obtain ⟨p, hbase, hplain⟩ := exists_ok_of_any _ _ hbase
  have hplain : p.ranges = [] := List.isEmpty_iff.mp hplain
  obtain ⟨strings, hrun, hstrings⟩ := exists_ok_of_any _ _ hstrings
  obtain ⟨hspecs, htext⟩ := specs_readBack hparse hranges hbase hplain
  have hrun : (d.specs .latest [] index).run ({}, []) =
      (.ok strings, ((d.specs .latest [] index).run ({}, [])).2) := by
    rw [← hrun]
    rfl
  exact ⟨d, p, index, strings, _, hparse, hranges, hbase, hplain, hrun,
    eq_of_beq hstrings, (hspecs .latest [] index _ strings _ hrun).1, htext⟩

end ReadBack

end Dependency

end DevSpecs
