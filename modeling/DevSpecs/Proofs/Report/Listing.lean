import DevSpecs.Proofs.Report.Styles
import DevSpecs.Report.Text

/-!
# Listings with styles and without

A resolution is reported with styles or without.  If no text in the resolution has an
escape character, the report with styles shows the report without: each heading, each
spec line and the summary show their plain forms, and so do the listings made of them.
-/

namespace DevSpecs

/-! ## Texts without escape characters -/

/-- No text in the resolution has an escape character. -/
structure Resolution.EscapeFree (r : Resolution) : Prop where
  unresolve : ∀ package ∈ r.unresolve, '\x1b' ∉ package
  predicates : ∀ g ∈ r.groups, ∀ predicate ∈ g.when, '\x1b' ∉ predicate
  specs : ∀ g ∈ r.groups, ∀ spec ∈ g.specs, '\x1b' ∉ spec

theorem escape_notMem_ofNat (n : Nat) : '\x1b' ∉ Text.ofNat n := by
  intro hmem
  have hdigit := Nat.isDigit_of_mem_toDigits (by decide) (by decide) hmem
  exact absurd hdigit (by decide)

theorem escape_notMem_counted (n : Nat) {noun : Text} (h : '\x1b' ∉ noun) :
    '\x1b' ∉ counted n noun := by
  have hnoun : '\x1b' ∉ ' ' :: noun := List.not_mem_cons_of_ne_of_not_mem (by decide) h
  refine List.not_mem_append (List.not_mem_append (escape_notMem_ofNat n) hnoun) ?_
  split <;> decide

theorem Mode.escape_notMem_name (mode : Mode) : '\x1b' ∉ mode.name := by
  cases mode <;> decide

theorem Resolution.escape_notMem_summary (r : Resolution) : '\x1b' ∉ r.summary := by
  have hspecs : '\x1b' ∉ counted r.groups.countSpecs "spec" :=
    escape_notMem_counted _ (by decide)
  have hgroups : '\x1b' ∉ counted r.groups.length "group" :=
    escape_notMem_counted _ (by decide)
  rw [summary]
  simp only [List.mem_append, not_or]
  exact ⟨⟨⟨⟨⟨hspecs, by decide⟩, hgroups⟩, by decide⟩, r.mode.escape_notMem_name⟩, by decide⟩

theorem Shows.lineOf {t u : Text} (h : Shows t u) : Shows (lineOf t) (lineOf u) :=
  h.append (.of_notMem (by decide))

namespace Formatter

/-- The formatter that writes the reports with styles. -/
def styled (f : Formatter) : Formatter :=
  { f with color := true }

/-- The formatter that writes the reports without styles. -/
def plain (f : Formatter) : Formatter :=
  { f with color := false }

variable {f : Formatter} {r : Resolution}

/-! ## Lines -/

theorem shows_heading (hpaint : Wraps f.paint) {when : Option Text}
    (h : ∀ predicate ∈ when, '\x1b' ∉ predicate) :
    Shows (f.styled.heading when) (f.plain.heading when) := by
  have hcolon : Shows ":" ":" := .of_notMem (by decide)
  cases when with
  | none =>
      have hword : Shows (f.paint .bold "Dependencies") "Dependencies" :=
        .of_paint hpaint .bold (by decide)
      exact hword.append hcolon
  | some predicate =>
      have hword : Shows (f.paint .bold "When") "When" := .of_paint hpaint .bold (by decide)
      have hblank : Shows " " " " := .of_notMem (by decide)
      have hpredicate : Shows (f.paint .cyan predicate) predicate :=
        .of_paint hpaint .cyan (h predicate rfl)
      exact (hword.append (hblank.append hpredicate)).append hcolon

theorem shows_specLine (hpaint : Wraps f.paint) {spec : Text} (h : '\x1b' ∉ spec) :
    Shows (f.styled.specLine spec) (f.plain.specLine spec) := by
  have hindent : Shows "  " "  " := .of_notMem (by decide)
  exact hindent.append (.of_paint hpaint .green h)

/-! ## Listings -/

theorem shows_listing (hpaint : Wraps f.paint) (h : r.EscapeFree) :
    Shows (f.styled.listing r.groups) (f.plain.listing r.groups) := by
  refine .flatMap fun g hg => .append ?_ (.flatMap fun spec hspec => ?_)
  · exact (shows_heading hpaint (h.predicates g hg)).lineOf
  · exact (shows_specLine hpaint (h.specs g hg spec hspec)).lineOf

theorem shows_quietListing (h : r.EscapeFree) :
    Shows (quietListing r.groups) (quietListing r.groups) := by
  refine .flatMap fun g hg => .flatMap fun spec hspec => ?_
  have hspec : Shows spec spec := .of_notMem (h.specs g hg spec hspec)
  cases hwhen : g.when with
  | none => exact hspec.lineOf
  | some predicate =>
      have hopening : Shows " (when " " (when " := .of_notMem (by decide)
      have hpredicate : Shows predicate predicate :=
        .of_notMem (h.predicates g hg predicate hwhen)
      have hclosing : Shows ")" ")" := .of_notMem (by decide)
      exact (((hspec.append hopening).append hpredicate).append hclosing).lineOf

theorem shows_unresolved (h : r.EscapeFree) :
    Shows (f.unresolved r.unresolve) (f.unresolved r.unresolve) := by
  have hlabel : Shows "Unresolved: " "Unresolved: " := .of_notMem (by decide)
  have hcomma : Shows ", " ", " := .of_notMem (by decide)
  have hpackages := hcomma.intercalate fun package hmem =>
    Shows.of_notMem (h.unresolve package hmem)
  rw [unresolved]
  split
  · exact (hlabel.append hpackages).lineOf
  · exact .nil

/-! ## Reports -/

/-- The report on a resolution with styles is the report without them once its style
sequences are removed, whatever sequences put a text in a style. -/
theorem unstyled_styled_resolution (hpaint : Wraps f.paint) (h : r.EscapeFree) :
    unstyled (f.styled.resolution r) = f.plain.resolution r := by
  apply Shows.unstyled_eq
  by_cases hquiet : f.verbosity = .quiet
  · have hstyled : f.styled.resolution r = quietListing r.groups := if_pos hquiet
    have hplain : f.plain.resolution r = quietListing r.groups := if_pos hquiet
    rw [hstyled, hplain]
    exact shows_quietListing h
  by_cases hempty : r.groups.isEmpty = true
  · have hstyled : f.styled.resolution r = lineOf "No dependencies configured" :=
      (if_neg hquiet).trans (if_pos hempty)
    have hplain : f.plain.resolution r = lineOf "No dependencies configured" :=
      (if_neg hquiet).trans (if_pos hempty)
    rw [hstyled, hplain]
    exact .of_notMem (by decide)
  · have hstyled : f.styled.resolution r =
        f.styled.listing r.groups ++ lineOf [] ++ f.unresolved r.unresolve ++
          lineOf (f.paint .dimmed r.summary) :=
      (if_neg hquiet).trans (if_neg hempty)
    have hplain : f.plain.resolution r =
        f.plain.listing r.groups ++ lineOf [] ++ f.unresolved r.unresolve ++
          lineOf r.summary :=
      (if_neg hquiet).trans (if_neg hempty)
    have hbreak : Shows (lineOf []) (lineOf []) := Shows.nil.lineOf
    have hsummary : Shows (f.paint .dimmed r.summary) r.summary :=
      .of_paint hpaint .dimmed r.escape_notMem_summary
    rw [hstyled, hplain]
    exact (((shows_listing hpaint h).append hbreak).append (shows_unresolved h)).append
      hsummary.lineOf

/-- Two groups, and a package whose ranges were left open. -/
theorem unstyled_styled_resolution_two_groups :
    let f : Formatter := { verbosity := .verbose, color := true }
    let r : Resolution :=
      { mode := .latest, unresolve := ["cmake"]
        groups := [⟨none, ["zlib @1.2:"]⟩, ⟨some "+mpi", ["mpich"]⟩] }
    let listing : Text :=
      List.flatten [
        "\x1b[1mDependencies\x1b[0m:\n  \x1b[32mzlib @1.2:\x1b[0m\n",
        "\x1b[1mWhen\x1b[0m \x1b[36m+mpi\x1b[0m:\n  \x1b[32mmpich\x1b[0m\n\n",
        "Unresolved: cmake\n\x1b[2m2 specs in 2 groups (latest)\x1b[0m\n"]
    Wraps f.paint ∧ r.EscapeFree ∧ f.styled.resolution r = listing ∧
      unstyled listing = List.flatten [
        "Dependencies:\n  zlib @1.2:\nWhen +mpi:\n  mpich\n\n",
        "Unresolved: cmake\n2 specs in 2 groups (latest)\n"] := by
  intro f r listing
  have hfree : r.EscapeFree := ⟨by decide, by decide, by decide⟩
  have hlisting : f.styled.resolution r = listing := by decide +kernel
  refine ⟨Style.wraps_paint, hfree, hlisting, ?_⟩
  rw [← hlisting, unstyled_styled_resolution Style.wraps_paint hfree]
  decide +kernel

end Formatter

end DevSpecs
