import DevSpecs.Project
import DevSpecs.Proofs.Files.Places
import DevSpecs.Proofs.Outcomes

/-!
# The roots of environments

The name of an environment is joined to the environments directory.  A name without
slashes leads to a place of its own right below it, except for the two names that
lead elsewhere, the single dot and the two dots: they are let through by the check of
names, and open the environments directory itself and the directory above it.
-/

namespace DevSpecs

open FileTree

/-- The names that are let through are those without slashes that do not start with
an underscore. -/
theorem Environment.checkName_eq_ok_iff {name : Text} :
    checkName name = .ok () ↔ Path.IsName name ∧ name.head? ≠ some '_' := by
  rw [checkName, Path.IsName]
  by_cases hempty : name = []
  · simp [hempty]
  · by_cases hslash : '/' ∈ name
    · simp [hempty, hslash]
    · by_cases hreserved : name.head? = some '_'
      · simp [hempty, hslash, hreserved]
      · simp [hempty, hslash, hreserved]

/-- The others are called invalid. -/
theorem Environment.checkName_eq_error {name : Text} {cause : EnvironmentError}
    (h : checkName name = .error cause) : ∃ reason, cause = .invalidName name reason := by
  rw [checkName] at h
  split at h
  · exact ⟨_, (Except.error.inj h).symm⟩
  · split at h
    · exact ⟨_, (Except.error.inj h).symm⟩
    · split at h
      · exact ⟨_, (Except.error.inj h).symm⟩
      · cases h

namespace Project

variable {p : Project} {name name' : Text} {files : FileTree}

/-! ## Opening -/

/-- The root of the environment with a name. -/
def rootPath (p : Project) (files : FileTree) (name : Text) : Path :=
  Path.absolute files.currentPath (p.config.rootOf name)

/-- The environment with a name, or why it cannot be opened. -/
def opened (p : Project) (files : FileTree) (name : Text) :
    Except ProjectError Environment :=
  match Environment.checkName name with
  | .error cause => .error (.environment cause)
  | .ok () =>
    let root := p.rootPath files name
    if files.hasEntry root && !files.isDirectory root then
      .error (.environment (.conflict root))
    else .ok ⟨root, p.runner⟩

theorem openAt_rootOf (p : Project) (files : FileTree) (h : Path.IsName name) :
    Environment.openAt files (p.config.rootOf name) p.runner =
      let root := p.rootPath files name
      if files.hasEntry root && !files.isDirectory root then .error (.conflict root)
      else .ok ⟨root, p.runner⟩ := by
  obtain ⟨first, hfirst⟩ := List.exists_mem_of_ne_nil name h.1
  have hslash : first ≠ '/' := fun hslash => h.2 (hslash ▸ hfirst)
  have hroot : (p.config.rootOf name).isEmpty = false := by
    rw [List.isEmpty_eq_false_iff, Config.rootOf]
    apply List.ne_nil_of_mem
    exact (Path.mem_join hslash _ (Path.isAbsolute_of_isName h)).mpr (.inr hfirst)
  rw [Environment.openAt, hroot, if_neg Bool.false_ne_true]
  rfl

/-- Opening an environment leaves everything as it is. -/
theorem environment_run (p : Project) (name : Text) (s : Session) :
    (p.environment name).run s = (p.opened s.files name, s) := by
  rw [environment, run_bind, opened]
  cases hname : Environment.checkName name with
  | error cause => rfl
  | ok checked =>
      have hisName := (Environment.checkName_eq_ok_iff.mp hname).1
      change ((get >>= _ : Acting Environment).run s) = _
      rw [run_bind, run_get]
      dsimp only
      rw [openAt_rootOf p s.files hisName]
      dsimp only
      split <;> rfl

/-! ## Places of roots -/

/-- The place of the environments directory. -/
def environmentsPlace (p : Project) (files : FileTree) : Location :=
  files.place (Path.absolute files.currentPath (p.config.locate p.config.environments))

theorem place_rootPath (p : Project) (files : FileTree) (h : Path.IsName name) :
    files.place (p.rootPath files name) = descend (p.environmentsPlace files) name :=
  place_absolute_join_name files _ h

/-- The paths of the roots tell the names apart. -/
theorem rootPath_inj (h : Path.IsName name) (h' : Path.IsName name')
    (heq : p.rootPath files name = p.rootPath files name') : name = name' := by
  have hnames := congrArg Path.names heq
  rw [rootPath, rootPath, Path.names_absolute, Path.names_absolute, Config.rootOf,
    Config.rootOf, Path.isAbsolute_join_name _ h, Path.isAbsolute_join_name _ h',
    Path.names_join _ (Path.isAbsolute_of_isName h),
    Path.names_join _ (Path.isAbsolute_of_isName h')] at hnames
  have hnames : Path.names name = Path.names name' :=
    List.append_cancel_left (List.append_cancel_left hnames)
  by_cases hdot : name = ['.']
  · subst hdot
    by_contra hother
    rw [Path.names_of_isName h' (Ne.symm hother)] at hnames
    cases hnames
  · rw [Path.names_of_isName h hdot] at hnames
    by_cases hdot' : name' = ['.']
    · subst hdot'
      cases hnames
    · rw [Path.names_of_isName h' hdot'] at hnames
      exact List.singleton_inj.mp hnames

/-- An environment with a name that is let through is opened unless something other
than a directory is at its root.  The root lies right below the environments directory
exactly if the name is neither a single dot nor two dots.  Different names open
different paths, and these lead to different places, except that both special names
lead to the root of all files if it is the environments directory. -/
theorem environment_root_below_iff (p : Project) (s : Session) {name : Text}
    (hname : Environment.checkName name = .ok ()) :
    let root := p.rootPath s.files name
    (p.environment name).run s =
      (if s.files.hasEntry root && !s.files.isDirectory root then
        .error (.environment (.conflict root))
      else .ok ⟨root, p.runner⟩, s) ∧
    ((∃ child, s.files.place root = child :: p.environmentsPlace s.files) ↔
      ¬IsSpecialName name) ∧
    ∀ name', Environment.checkName name' = .ok () → name' ≠ name →
      p.rootPath s.files name' ≠ root ∧
        (s.files.place (p.rootPath s.files name') = s.files.place root ↔
          p.environmentsPlace s.files = [] ∧
            IsSpecialName name' ∧ IsSpecialName name) := by
  have hisName := (Environment.checkName_eq_ok_iff.mp hname).1
  refine ⟨?_, ?_, ?_⟩
  · rw [environment_run, opened, hname]
  · rw [place_rootPath p s.files hisName]
    exact exists_descend_eq_cons_iff
  · intro name' hname' hne
    have hisName' := (Environment.checkName_eq_ok_iff.mp hname').1
    rw [place_rootPath p s.files hisName, place_rootPath p s.files hisName']
    refine ⟨fun heq => hne (rootPath_inj hisName' hisName heq), ?_⟩
    exact descend_eq_descend_iff hne

/-- Two environments are opened for ordinary names. -/
theorem environment_root_below_iff_two_names :
    let p : Project :=
      { config := { environments := "sub/../envs" }
        index := fun _ => ⟨fun _ _ => .error (.noVersions "foo" "none"), fun _ _ => .ok []⟩
        runner := ⟨fun _ _ _ => { result := .ok [] }⟩ }
    let s : Session :=
      { files := { entries := [(["project"], .directory)], current := ["project"] } }
    (p.environment "test").run s = (.ok ⟨"/project/sub/../envs/test", p.runner⟩, s) ∧
      (∃ child, s.files.place "/project/sub/../envs/test" =
        child :: p.environmentsPlace s.files) ∧
      s.files.place "/project/sub/../envs/dev" ≠
        s.files.place "/project/sub/../envs/test" := by
  intro p s
  have htest : p.rootPath s.files "test" = "/project/sub/../envs/test" := by
    decide +kernel
  have hdev : p.rootPath s.files "dev" = "/project/sub/../envs/dev" := by decide +kernel
  have hfree : s.files.hasEntry "/project/sub/../envs/test" = false := by decide +kernel
  have hordinary : ¬IsSpecialName "test" := by
    rw [IsSpecialName]
    decide
  obtain ⟨hrun, hbelow, hother⟩ :=
    environment_root_below_iff p s (show Environment.checkName "test" = .ok () by decide)
  rw [htest] at hrun hbelow hother
  refine ⟨?_, hbelow.mpr hordinary, ?_⟩
  · simpa only [hfree, Bool.false_and, Bool.false_eq_true, if_false] using hrun
  · intro heq
    have hsame := (hother "dev" (by decide) (by decide)).2
    rw [hdev] at hsame
    exact hordinary (hsame.mp heq).2.2

/-- The name of two dots is let through, and opens the directory that holds the
environments directory. -/
theorem two_dots_open_parent :
    let p : Project :=
      { config := {}
        index := fun _ => ⟨fun _ _ => .error (.noVersions "foo" "none"), fun _ _ => .ok []⟩
        runner := ⟨fun _ _ _ => { result := .ok [] }⟩ }
    let s : Session :=
      { files := { entries := [(["project"], .directory)], current := ["project"] } }
    Environment.checkName ".." = .ok () ∧
      (p.environment "..").run s = (.ok ⟨"/project/dev-envs/..", p.runner⟩, s) ∧
      p.environmentsPlace s.files = (["dev-envs", "project"] : Location) ∧
      s.files.place "/project/dev-envs/.." = (["project"] : Location) ∧
      ¬∃ child, s.files.place "/project/dev-envs/.." =
        child :: p.environmentsPlace s.files := by
  intro p s
  have hname : Environment.checkName ".." = .ok () := by decide
  have hroot : p.rootPath s.files ".." = "/project/dev-envs/.." := by decide +kernel
  have hfree : s.files.hasEntry "/project/dev-envs/.." = false := by decide +kernel
  have habove : s.files.place "/project/dev-envs/.." = (["project"] : Location) := by decide +kernel
  have hdirectory : p.environmentsPlace s.files = (["dev-envs", "project"] : Location) := by
    decide +kernel
  refine ⟨hname, ?_, hdirectory, habove, ?_⟩
  · rw [environment_run, opened, hname, hroot]
    simp only [hfree, Bool.false_and, Bool.false_eq_true, if_false]
  · rw [habove, hdirectory]
    rintro ⟨child, heq⟩
    cases heq

end Project

end DevSpecs
