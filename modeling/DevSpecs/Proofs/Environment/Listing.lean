import DevSpecs.Proofs.Environment.Calling
import DevSpecs.Proofs.Spack.Compilers

/-!
# The compiler of an environment

A listing of installed packages is remembered by name, and of several packages of one
name only the last is remembered.  So the compiler an environment recommends is the
preferred one of these last packages.  Among all listed packages it is preferred
exactly if no compiler of a forgotten package ranks above all the others.
-/

namespace DevSpecs

namespace InstalledPackage

/-! ## Packages of one name -/

/-- The package is listed, and no later one has its name. -/
def IsLastOfName (p : InstalledPackage) (packages : List InstalledPackage) : Prop :=
  ∃ before after, packages = before ++ p :: after ∧ ∀ q ∈ after, q.name ≠ p.name

theorem IsLastOfName.mem {p : InstalledPackage} {packages : List InstalledPackage}
    (h : IsLastOfName p packages) : p ∈ packages := by
  obtain ⟨before, after, rfl, _⟩ := h
  exact List.mem_append_right before List.mem_cons_self

theorem find?_reverse_eq_some_iff {p : InstalledPackage} {packages : List InstalledPackage}
    {name : Text} :
    packages.reverse.find? (·.name == name) = some p ↔
      p.name = name ∧ IsLastOfName p packages := by
  rw [List.find?_eq_some_iff_append, beq_iff_eq]
  refine and_congr_right fun hname => ?_
  subst hname
  constructor
  · rintro ⟨after, before, hsplit, hafter⟩
    refine ⟨before.reverse, after.reverse, ?_, fun q hq => ?_⟩
    · rw [List.reverse_eq_append_iff.mp hsplit, List.reverse_cons, List.append_assoc,
        List.singleton_append]
    · simpa using hafter q (List.mem_reverse.mp hq)
  · rintro ⟨before, after, rfl, hafter⟩
    refine ⟨after.reverse, before.reverse, ?_, fun q hq => ?_⟩
    · rw [List.reverse_append, List.reverse_cons, List.append_assoc, List.singleton_append]
    · simpa using hafter q (List.mem_reverse.mp hq)

/-- What is remembered of a listing. -/
theorem mem_byName {p : InstalledPackage} {packages : List InstalledPackage} :
    p ∈ byName packages ↔ IsLastOfName p packages := by
  rw [byName, List.mem_filterMap]
  constructor
  · rintro ⟨name, _, hfound⟩
    exact (find?_reverse_eq_some_iff.mp hfound).2
  · intro hlast
    refine ⟨p.name, ?_, find?_reverse_eq_some_iff.mpr ⟨rfl, hlast⟩⟩
    exact mem_sortedDistinct.mpr (List.mem_map_of_mem hlast.mem)

/-- Nothing is forgotten of a listing without repeated names. -/
theorem isLastOfName_of_nodup {p : InstalledPackage} {packages : List InstalledPackage}
    (hnames : (packages.map (·.name)).Nodup) (hp : p ∈ packages) :
    IsLastOfName p packages := by
  obtain ⟨before, after, rfl⟩ := List.append_of_mem hp
  refine ⟨before, after, rfl, fun q hq heq => ?_⟩
  rw [List.map_append, List.map_cons, List.nodup_append, List.nodup_cons] at hnames
  exact hnames.2.1.1 (heq ▸ List.mem_map_of_mem hq)

/-! ## Compilers of packages -/

/-- A listed package is built with the compiler. -/
def Uses (packages : List InstalledPackage) (c : Compiler) : Prop :=
  ∃ p ∈ packages, p.compiler = some c

/-- The last listed package of some name is built with the compiler. -/
def UsesLast (packages : List InstalledPackage) (c : Compiler) : Prop :=
  ∃ p, IsLastOfName p packages ∧ p.compiler = some c

theorem UsesLast.uses {packages : List InstalledPackage} {c : Compiler}
    (h : UsesLast packages c) : Uses packages c := by
  obtain ⟨p, hlast, hc⟩ := h
  exact ⟨p, hlast.mem, hc⟩

theorem uses_byName_iff {packages : List InstalledPackage} {c : Compiler} :
    Uses (byName packages) c ↔ UsesLast packages c :=
  exists_congr fun _ => and_congr_left fun _ => mem_byName

theorem mem_filterMap_compiler {packages : List InstalledPackage} {c : Compiler} :
    c ∈ packages.filterMap (·.compiler) ↔ Uses packages c :=
  List.mem_filterMap

/-- No compiler ranks above those of the last packages. -/
def LastsSuffice (packages : List InstalledPackage) : Prop :=
  ∀ c, Uses packages c → ∃ d, UsesLast packages d ∧ ¬Compiler.RanksAbove c d

instance (packages : List InstalledPackage) : Decidable (LastsSuffice packages) :=
  decidable_of_iff
    (∀ c ∈ packages.filterMap InstalledPackage.compiler,
      ∃ d ∈ (byName packages).filterMap InstalledPackage.compiler, ¬c.RanksAbove d) <| by
    simp only [mem_filterMap_compiler, uses_byName_iff]
    rfl

/-- Without repeated names the last packages are all. -/
theorem lastsSuffice_of_nodup {packages : List InstalledPackage}
    (hnames : (packages.map (·.name)).Nodup) : LastsSuffice packages := by
  rintro c ⟨p, hp, hc⟩
  exact ⟨c, ⟨p, isLastOfName_of_nodup hnames hp, hc⟩, Compiler.not_ranksAbove_self c⟩

end InstalledPackage

namespace Environment

open InstalledPackage

/-! ## What a session knows -/

/-- The session remembers the listing, or will be told of it when it asks. -/
def KnowsListing (env : Environment) (s : Session) (packages : List InstalledPackage) :
    Prop :=
  s.packages = some (byName packages) ∨
    s.packages = none ∧
      ∃ output, (env.runner.reply s.files s.calls (.find env.root none)).result = .ok output ∧
        listed? output = some packages

/-- Asking for the packages answers with those remembered, and from then on the session
remembers them. -/
theorem packages_run_of_knowsListing {env : Environment} {s : Session}
    {packages : List InstalledPackage} (h : env.KnowsListing s packages) :
    ∃ t : Session, env.packages.run s = (.ok (byName packages), t) ∧ t.files = s.files ∧
      t.packages = some (byName packages) := by
  obtain hremembered | ⟨hnone, output, hreply, hlisted⟩ := h
  · exact ⟨s, packages_run_of_remembered hremembered, rfl, hremembered⟩
  · refine ⟨{ s with
        calls := s.calls ++ [.find env.root none]
        packages := some (byName packages)
        shown := s.shown.append (env.runner.reply s.files s.calls (.find env.root none)).shown },
      ?_, rfl, rfl⟩
    rw [packages_run_of_none hnone]
    dsimp only
    rw [hreply]
    dsimp only
    rw [hlisted]

/-! ## The recommended compiler -/

theorem newestCompiler_run_of_knowsListing {env : Environment} {s : Session}
    {packages : List InstalledPackage} (hinstalled : env.isInstalled s.files = true)
    (hknows : env.KnowsListing s packages) :
    ∃ t : Session, env.newestCompiler.run s =
        (.ok (Compiler.preferred? ((byName packages).filterMap (·.compiler))), t) ∧
      t.files = s.files ∧ t.packages = some (byName packages) := by
  obtain ⟨t, hrun, hkept⟩ := packages_run_of_knowsListing hknows
  exact ⟨t, by rw [newestCompiler_run hinstalled, hrun], hkept⟩

/-- The recommended compiler of an installed environment is preferred among the last
listed packages of each name.  Among all listed packages it is preferred exactly if the
last ones suffice.  Asked again, the environment recommends the same and runs nothing. -/
theorem newestCompiler_isPreferred_iff {env : Environment} {s : Session}
    {packages : List InstalledPackage} (hinstalled : env.isInstalled s.files = true)
    (hknows : env.KnowsListing s packages) :
    ∃ answer t, env.newestCompiler.run s = (.ok answer, t) ∧
      Compiler.IsPreferredAmong (UsesLast packages) answer ∧
      (Compiler.IsPreferredAmong (Uses packages) answer ↔ LastsSuffice packages) ∧
      env.newestCompiler.run t = (.ok answer, t) := by
  obtain ⟨t, hrun, hfiles, hremembered⟩ :=
    newestCompiler_run_of_knowsListing hinstalled hknows
  have hlast : Compiler.IsPreferredAmong (UsesLast packages)
      (Compiler.preferred? ((byName packages).filterMap (·.compiler))) :=
    (Compiler.isPreferredAmong_preferred? _).congr fun _ =>
      mem_filterMap_compiler.trans uses_byName_iff
  refine ⟨_, t, hrun, hlast, hlast.iff_of_imp fun c hc => hc.uses, ?_⟩
  rw [newestCompiler_run (hfiles ▸ hinstalled), packages_run_of_remembered hremembered]

/-- The newer build of the package is listed last, so nothing is lost. -/
theorem newestCompiler_after_rebuild :
    let files : FileTree :=
      { entries := [(["dev"], .directory), (["spack.yaml", "dev"], .file (some "") false),
          (["spack.lock", "dev"], .file (some "") false)] }
    let listing : Text :=
      List.flatten [
        "[[\"zlib\", \"1.2\", \"a\", null, [\"gcc\", \"11.4.0\"]],",
        " [\"cmake\", \"3.27\", \"b\"],",
        " [\"zlib\", \"1.3\", \"c\", null, [\"gcc\", \"12.2.0\"]]]"]
    let env : Environment := ⟨"/dev", ⟨fun _ _ _ => { result := .ok listing }⟩⟩
    ∃ packages, listed? listing = some packages ∧ LastsSuffice packages ∧
      (env.newestCompiler.run { files }).1 = .ok (some ⟨"gcc", "12.2.0"⟩) ∧
      Compiler.IsPreferredAmong (Uses packages) (some ⟨"gcc", "12.2.0"⟩) := by
  intro files listing env
  let packages : List InstalledPackage :=
    [⟨"zlib", "1.2", "a", none, some ⟨"gcc", "11.4.0"⟩⟩, ⟨"cmake", "3.27", "b", none, none⟩,
      ⟨"zlib", "1.3", "c", none, some ⟨"gcc", "12.2.0"⟩⟩]
  have hlisted : listed? listing = some packages := by decide +kernel
  have hsuffice : LastsSuffice packages := by decide +kernel
  have hinstalled : env.isInstalled files = true := by decide +kernel
  have hknows : env.KnowsListing { files } packages := .inr ⟨rfl, listing, rfl, hlisted⟩
  obtain ⟨t, hrun, _⟩ := newestCompiler_run_of_knowsListing (s := { files }) hinstalled hknows
  have hnewest : Compiler.preferred? ((byName packages).filterMap (·.compiler)) =
      some ⟨"gcc", "12.2.0"⟩ := by
    decide +kernel
  rw [hnewest] at hrun
  obtain ⟨answer, _, hanswer, _, hall, _⟩ :=
    newestCompiler_isPreferred_iff (s := { files }) hinstalled hknows
  rw [hrun] at hanswer
  obtain ⟨⟨⟩, _⟩ := hanswer
  exact ⟨packages, hlisted, hsuffice, by rw [hrun], hall.mpr hsuffice⟩

/-- The newer build of the package is listed first and forgotten, so an older compiler
is recommended. -/
theorem newestCompiler_forgets_earlier_build :
    let files : FileTree :=
      { entries := [(["dev"], .directory), (["spack.yaml", "dev"], .file (some "") false),
          (["spack.lock", "dev"], .file (some "") false)] }
    let listing : Text :=
      List.flatten [
        "[\x7b\"name\": \"zlib\", \"version\": \"1.3\",",
        " \"hash\": \"a\", \"compiler\":",
        " \x7b\"name\": \"gcc\", \"version\": \"12.2.0\"\x7d\x7d,",
        " \x7b\"name\": \"zlib\", \"version\": \"1.2\",",
        " \"hash\": \"b\", \"compiler\":",
        " \x7b\"name\": \"gcc\", \"version\": \"11.4.0\"\x7d\x7d]"]
    let env : Environment := ⟨"/dev", ⟨fun _ _ _ => { result := .ok listing }⟩⟩
    ∃ packages, env.isInstalled files = true ∧ listed? listing = some packages ∧
      (env.newestCompiler.run { files }).1 = .ok (some ⟨"gcc", "11.4.0"⟩) ∧
      ¬Compiler.IsPreferredAmong (Uses packages) (some ⟨"gcc", "11.4.0"⟩) := by
  intro files listing env
  let packages : List InstalledPackage :=
    [⟨"zlib", "1.3", "a", none, some ⟨"gcc", "12.2.0"⟩⟩,
      ⟨"zlib", "1.2", "b", none, some ⟨"gcc", "11.4.0"⟩⟩]
  have hlisted : listed? listing = some packages := by decide +kernel
  have hinstalled : env.isInstalled files = true := by decide +kernel
  have hknows : env.KnowsListing { files } packages := .inr ⟨rfl, listing, rfl, hlisted⟩
  obtain ⟨t, hrun, _⟩ := newestCompiler_run_of_knowsListing (s := { files }) hinstalled hknows
  have hnewest : Compiler.preferred? ((byName packages).filterMap (·.compiler)) =
      some ⟨"gcc", "11.4.0"⟩ := by
    decide +kernel
  rw [hnewest] at hrun
  refine ⟨packages, hinstalled, hlisted, by rw [hrun], ?_⟩
  rintro ⟨_, hall⟩
  exact hall ⟨"gcc", "12.2.0"⟩ ⟨_, List.mem_cons_self, rfl⟩ (by decide +kernel)

end Environment

end DevSpecs
