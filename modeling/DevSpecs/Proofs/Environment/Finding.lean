import DevSpecs.Dependency
import DevSpecs.Proofs.Environment.Calling
import DevSpecs.Proofs.Files.Searching

/-!
# Finding a command

A command is found in stages: the package that matches a spec is listed, the script that
loads it is read for its search list, the list is searched, and the program found may have
to respond.  The main statement says when all stages succeed, and that otherwise the first
one that fails decides the error and is the last one that runs a command.
-/

namespace DevSpecs

open FileTree

namespace Environment

variable {env : Environment} {s : Session}

/-! ## Sessions after commands -/

/-- The answer to a command that is run in the session. -/
def answer (env : Environment) (s : Session) (c : Call) : Except CommandError Text :=
  (env.runner.reply s.files s.calls c).result

/-- The session after a command. -/
def afterCall (env : Environment) (s : Session) (c : Call) : Session :=
  { s with
    calls := s.calls ++ [c]
    shown := s.shown.append (env.runner.reply s.files s.calls c).shown }

/-- The session after several commands. -/
def afterCalls (env : Environment) (s : Session) (calls : List Call) : Session :=
  calls.foldl env.afterCall s

theorem afterCall_files (env : Environment) (s : Session) (c : Call) :
    (env.afterCall s c).files = s.files :=
  rfl

theorem call_run_eq (env : Environment) (c : Call) (s : Session) :
    (env.call c).run s = (.ok (env.answer s c), env.afterCall s c) :=
  rfl

/-- Commands change nothing but what has been run and shown. -/
theorem afterCalls_keeps (env : Environment) (s : Session) (calls : List Call) :
    (env.afterCalls s calls).files = s.files ∧ (env.afterCalls s calls).packages = s.packages ∧
      (env.afterCalls s calls).calls = s.calls ++ calls := by
  induction calls generalizing s with
  | nil => exact ⟨rfl, rfl, (List.append_nil s.calls).symm⟩
  | cons c calls ih =>
      obtain ⟨hfiles, hpackages, hcalls⟩ := ih (env.afterCall s c)
      exact ⟨hfiles, hpackages, hcalls.trans (List.append_assoc s.calls [c] calls)⟩

/-! ## Stages -/

/-- The command that lists the packages matching a spec. -/
def findCall (env : Environment) (spec : Text) : Call :=
  .find env.root (some spec)

/-- The command that prints the script which loads a package. -/
def loadCall (env : Environment) (package : InstalledPackage) : Call :=
  .load env.root ('/' :: package.hash)

/-- The packages that match the spec are listed as one. -/
def FindsOne (env : Environment) (s : Session) (spec : Text) (package : InstalledPackage) :
    Prop :=
  ∃ output, env.answer s (env.findCall spec) = .ok output ∧
    InstalledPackage.listed? output = some [package]

/-- The script that loads the package exports the search list. -/
def LoadsList (env : Environment) (s : Session) (package : InstalledPackage) (list : Text) :
    Prop :=
  ∃ script, env.answer s (env.loadCall package) = .ok script ∧
    Spack.exportedVariable? script "PATH" = some list

/-- The program responds to the argument. -/
def Responds (env : Environment) (s : Session) (program : Path) (argument : Text) : Prop :=
  ∃ output, env.answer s (.check program argument) = .ok output

/-- The command was run, and it was not successful. -/
def IsExit (cause : CommandError) : Prop :=
  ∃ command code stderr, cause = .failed command code stderr

/-- How the first stage fails. -/
inductive FindFails (env : Environment) (s : Session) (spec : Text) : EnvironmentError → Prop
  | exited (cause : CommandError) (h : env.answer s (env.findCall spec) = .error cause)
      (hexit : IsExit cause) : FindFails env s spec (.packageNotFound spec)
  | notRun (cause : CommandError) (h : env.answer s (env.findCall spec) = .error cause)
      (hexit : ¬IsExit cause) : FindFails env s spec (.command cause)
  | unreadable (output : Text) (h : env.answer s (env.findCall spec) = .ok output)
      (hlisted : InstalledPackage.listed? output = none) :
      FindFails env s spec
        (.command (.invalidOutput "spack find --json" "not a list of packages"))
  | none (output : Text) (h : env.answer s (env.findCall spec) = .ok output)
      (hlisted : InstalledPackage.listed? output = some []) :
      FindFails env s spec (.packageNotFound spec)
  | several (output : Text) (packages : List InstalledPackage)
      (h : env.answer s (env.findCall spec) = .ok output)
      (hlisted : InstalledPackage.listed? output = some packages)
      (hseveral : 2 ≤ packages.length) :
      FindFails env s spec (.ambiguousPackage spec packages.length)

/-- How the second stage fails. -/
inductive LoadFails (env : Environment) (s : Session) (package : InstalledPackage) :
    EnvironmentError → Prop
  | notLoaded (cause : CommandError) (h : env.answer s (env.loadCall package) = .error cause) :
      LoadFails env s package (.command cause)
  | noList (script : Text) (h : env.answer s (env.loadCall package) = .ok script)
      (hnone : Spack.exportedVariable? script "PATH" = none) :
      LoadFails env s package
        (.command (.invalidOutput "spack load --sh" "no PATH exported"))

/-- How the last stage fails. -/
inductive CheckFails (env : Environment) (s : Session) (program : Path) (argument : Text) :
    EnvironmentError → Prop
  | exited (command : Text) (code : Option Int) (stderr : Text)
      (h : env.answer s (.check program argument) = .error (.failed command code stderr)) :
      CheckFails env s program argument (.checkFailed program argument code)
  | notRun (cause : CommandError) (h : env.answer s (.check program argument) = .error cause)
      (hexit : ¬IsExit cause) : CheckFails env s program argument (.command cause)

/-! ## The stages in order -/

/-- All stages succeed and lead to the path. -/
structure Finds (env : Environment) (s : Session) (command spec : Text)
    (argument : Option Text) (package : InstalledPackage) (list : Text) (path : Path) :
    Prop where
  find : env.FindsOne s spec package
  load : env.LoadsList (env.afterCalls s [env.findCall spec]) package list
  search : s.files.IsFirstExecutable command list path
  check : ∀ a ∈ argument,
    env.Responds (env.afterCalls s [env.findCall spec, env.loadCall package]) path a

/-- How finding a command can end, and which commands it runs. -/
inductive FindingEnds (env : Environment) (s : Session) (command spec : Text)
    (argument : Option Text) : Except EnvironmentError Path → List Call → Prop
  | atFind (cause : EnvironmentError) (h : env.FindFails s spec cause) :
      FindingEnds env s command spec argument (.error cause) [env.findCall spec]
  | atLoad (package : InstalledPackage) (cause : EnvironmentError)
      (hfind : env.FindsOne s spec package)
      (h : env.LoadFails (env.afterCalls s [env.findCall spec]) package cause) :
      FindingEnds env s command spec argument (.error cause)
        [env.findCall spec, env.loadCall package]
  | atSearch (package : InstalledPackage) (list : Text) (hfind : env.FindsOne s spec package)
      (hload : env.LoadsList (env.afterCalls s [env.findCall spec]) package list)
      (h : ∀ dir ∈ directories list, s.files.isExecutable (dir.join command) = false) :
      FindingEnds env s command spec argument (.error (.commandNotFound command list))
        [env.findCall spec, env.loadCall package]
  | atCheck (package : InstalledPackage) (list : Text) (path : Path) (a : Text)
      (cause : EnvironmentError) (hfind : env.FindsOne s spec package)
      (hload : env.LoadsList (env.afterCalls s [env.findCall spec]) package list)
      (hsearch : s.files.IsFirstExecutable command list path) (hargument : argument = some a)
      (h : env.CheckFails (env.afterCalls s [env.findCall spec, env.loadCall package]) path a
        cause) :
      FindingEnds env s command spec argument (.error cause)
        [env.findCall spec, env.loadCall package, .check path a]
  | found (package : InstalledPackage) (list : Text) (path : Path)
      (h : env.Finds s command spec argument package list path) :
      FindingEnds env s command spec argument (.ok path)
        (env.findCall spec :: env.loadCall package :: argument.toList.map (.check path))

/-! ## Running the stages -/

theorem package_ends (env : Environment) (spec : Text) (s : Session) :
    (∃ package, (env.package spec).run s = (.ok package, env.afterCall s (env.findCall spec)) ∧
      env.FindsOne s spec package) ∨
    ∃ cause, (env.package spec).run s = (.error cause, env.afterCall s (env.findCall spec)) ∧
      env.FindFails s spec cause := by
  rw [package, run_bind, call_run_eq]
  dsimp only
  cases hanswer : env.answer s (.find env.root (some spec)) with
  | error cause =>
      refine .inr ?_
      cases cause with
      | failed command code stderr => exact ⟨_, rfl, .exited _ hanswer ⟨_, _, _, rfl⟩⟩
      | spawn command cause => exact ⟨_, rfl, .notRun _ hanswer nofun⟩
      | invalidOutput command message => exact ⟨_, rfl, .notRun _ hanswer nofun⟩
  | ok output =>
      dsimp only
      rw [run_bind, listed_run]
      match hlisted : InstalledPackage.listed? output with
      | none => exact .inr ⟨_, rfl, .unreadable output hanswer hlisted⟩
      | some [] => exact .inr ⟨_, rfl, .none output hanswer hlisted⟩
      | some [package] => exact .inl ⟨package, rfl, output, hanswer, hlisted⟩
      | some (p :: q :: rest) =>
          refine .inr ⟨_, rfl, .several output (p :: q :: rest) hanswer hlisted ?_⟩
          exact Nat.le_add_left 2 rest.length

theorem check_ends (env : Environment) (program : Path) (argument : Text) (s : Session) :
    ((env.check program argument).run s = (.ok (), env.afterCall s (.check program argument)) ∧
      env.Responds s program argument) ∨
    ∃ cause, (env.check program argument).run s =
        (.error cause, env.afterCall s (.check program argument)) ∧
      env.CheckFails s program argument cause := by
  rw [check, run_bind, call_run_eq]
  dsimp only
  cases hanswer : env.answer s (.check program argument) with
  | ok output => exact .inl ⟨rfl, output, hanswer⟩
  | error cause =>
      refine .inr ?_
      cases cause with
      | failed command code stderr => exact ⟨_, rfl, .exited command code stderr hanswer⟩
      | spawn command cause => exact ⟨_, rfl, .notRun _ hanswer nofun⟩
      | invalidOutput command message => exact ⟨_, rfl, .notRun _ hanswer nofun⟩

theorem which_ends (env : Environment) (command spec : Text) (argument : Option Text)
    (s : Session) :
    ∃ result calls,
      (env.which command spec argument).run s = (result, env.afterCalls s calls) ∧
        FindingEnds env s command spec argument result calls := by
  rw [which, run_bind]
  obtain ⟨package, hrun, hfind⟩ | ⟨cause, hrun, hfails⟩ := package_ends env spec s
  · rw [hrun]
    dsimp only
    rw [run_bind, call_run_eq]
    dsimp only
    cases hload : env.answer (env.afterCall s (env.findCall spec))
        (.load env.root ('/' :: package.hash)) with
    | error cause => exact ⟨_, _, rfl, .atLoad package _ hfind (.notLoaded cause hload)⟩
    | ok script =>
        dsimp only
        rw [run_bind, run_pure]
        dsimp only
        cases hlist : Spack.exportedVariable? script "PATH" with
        | none => exact ⟨_, _, rfl, .atLoad package _ hfind (.noList script hload hlist)⟩
        | some list =>
            have hloads : env.LoadsList (env.afterCalls s [env.findCall spec]) package list :=
              ⟨script, hload, hlist⟩
            dsimp only
            rw [run_bind, run_pure]
            dsimp only
            rw [run_bind, run_get]
            dsimp only
            rw [afterCall_files, afterCall_files]
            cases hsearch : s.files.search command list with
            | none =>
                refine ⟨_, _, rfl, .atSearch package list hfind hloads ?_⟩
                exact search_eq_none_iff.mp hsearch
            | some path =>
                have hfirst := search_eq_some_iff.mp hsearch
                dsimp only
                rw [run_bind, run_pure]
                dsimp only
                cases argument with
                | none =>
                    exact ⟨_, _, rfl, .found package list path ⟨hfind, hloads, hfirst, nofun⟩⟩
                | some a =>
                    dsimp only
                    rw [run_bind]
                    obtain ⟨hcheck, hresponds⟩ | ⟨cause, hcheck, hfails⟩ :=
                      check_ends env path a (env.afterCall (env.afterCall s
                        (env.findCall spec)) (.load env.root ('/' :: package.hash)))
                    · rw [hcheck]
                      refine ⟨_, _, rfl, .found package list path
                        ⟨hfind, hloads, hfirst, ?_⟩⟩
                      rintro _ ⟨⟩
                      exact hresponds
                    · rw [hcheck]
                      exact ⟨_, _, rfl, .atCheck package list path a cause hfind hloads hfirst
                        rfl hfails⟩
  · rw [hrun]
    exact ⟨_, _, rfl, .atFind cause hfails⟩

/-! ## Success -/

theorem FindsOne.not_fails {spec : Text} {package : InstalledPackage}
    {cause : EnvironmentError} (h : env.FindsOne s spec package) :
    ¬env.FindFails s spec cause := by
  obtain ⟨output, hanswer, hlisted⟩ := h
  intro hfails
  cases hfails with
  | exited cause hfailed => cases hanswer.symm.trans hfailed
  | notRun cause hfailed => cases hanswer.symm.trans hfailed
  | unreadable output' hanswer' hlisted' =>
      cases hanswer.symm.trans hanswer'
      cases hlisted.symm.trans hlisted'
  | none output' hanswer' hlisted' =>
      cases hanswer.symm.trans hanswer'
      cases hlisted.symm.trans hlisted'
  | several output' packages hanswer' hlisted' hseveral =>
      cases hanswer.symm.trans hanswer'
      cases hlisted.symm.trans hlisted'
      exact absurd hseveral (by simp)

theorem FindsOne.unique {spec : Text} {package package' : InstalledPackage}
    (h : env.FindsOne s spec package) (h' : env.FindsOne s spec package') :
    package = package' := by
  obtain ⟨output, hanswer, hlisted⟩ := h
  obtain ⟨output', hanswer', hlisted'⟩ := h'
  cases hanswer.symm.trans hanswer'
  cases hlisted.symm.trans hlisted'
  rfl

theorem LoadsList.not_fails {package : InstalledPackage} {list : Text}
    {cause : EnvironmentError} (h : env.LoadsList s package list) :
    ¬env.LoadFails s package cause := by
  obtain ⟨script, hanswer, hlist⟩ := h
  intro hfails
  cases hfails with
  | notLoaded cause hfailed => cases hanswer.symm.trans hfailed
  | noList script' hanswer' hnone =>
      cases hanswer.symm.trans hanswer'
      cases hlist.symm.trans hnone

theorem LoadsList.unique {package : InstalledPackage} {list list' : Text}
    (h : env.LoadsList s package list) (h' : env.LoadsList s package list') :
    list = list' := by
  obtain ⟨script, hanswer, hlist⟩ := h
  obtain ⟨script', hanswer', hlist'⟩ := h'
  cases hanswer.symm.trans hanswer'
  exact Option.some.inj (hlist.symm.trans hlist')

theorem Responds.not_fails {program : Path} {argument : Text} {cause : EnvironmentError}
    (h : env.Responds s program argument) : ¬env.CheckFails s program argument cause := by
  obtain ⟨output, hanswer⟩ := h
  intro hfails
  cases hfails with
  | exited command code stderr hfailed => cases hanswer.symm.trans hfailed
  | notRun cause hfailed => cases hanswer.symm.trans hfailed

/-- When all stages succeed, nothing else can be the result. -/
theorem Finds.result_eq {command spec : Text} {argument : Option Text}
    {package : InstalledPackage} {list : Text} {path : Path}
    {result : Except EnvironmentError Path} {calls : List Call}
    (h : env.Finds s command spec argument package list path)
    (hends : env.FindingEnds s command spec argument result calls) : result = .ok path := by
  obtain ⟨hfind, hload, hsearch, hcheck⟩ := h
  cases hends with
  | atFind cause hfails => exact absurd hfails hfind.not_fails
  | atLoad package' cause hfind' hfails =>
      obtain rfl := hfind.unique hfind'
      exact absurd hfails hload.not_fails
  | atSearch package' list' hfind' hload' hnone =>
      obtain rfl := hfind.unique hfind'
      obtain rfl := hload.unique hload'
      rw [← search_eq_none_iff, search_eq_some_iff.mpr hsearch] at hnone
      cases hnone
  | atCheck package' list' path' a cause hfind' hload' hsearch' hargument hfails =>
      obtain rfl := hfind.unique hfind'
      obtain rfl := hload.unique hload'
      obtain rfl := hsearch.unique hsearch'
      exact absurd hfails (hcheck a hargument).not_fails
  | found package' list' path' h' =>
      obtain rfl := hfind.unique h'.find
      obtain rfl := hload.unique h'.load
      rw [hsearch.unique h'.search]

/-- A command is found at a path exactly if its dependency is listed as one package, the
script of that package exports a search list, the path is the first in it that leads to an
executable file, and the program responds if it has to.  Otherwise the first of these
stages to fail decides the error, and no later one runs a command.  In no case is a file
changed or a listing remembered. -/
theorem which_stops_at_first_failure (env : Environment) (command : Text) (d : Dependency)
    (argument : Option Text) (s : Session) :
    (∀ path, ((env.which command d.text argument).run s).1 = .ok path ↔
      ∃ package list, env.Finds s command d.text argument package list path) ∧
    ∃ result calls t, (env.which command d.text argument).run s = (result, t) ∧
      t.files = s.files ∧ t.packages = s.packages ∧ t.calls = s.calls ++ calls ∧
      env.FindingEnds s command d.text argument result calls := by
  obtain ⟨result, calls, hrun, hends⟩ := which_ends env command d.text argument s
  rw [hrun]
  refine ⟨fun path => ⟨?_, ?_⟩, ?_⟩
  · rintro rfl
    cases hends with
    | found package list path h => exact ⟨package, list, h⟩
  · rintro ⟨package, list, h⟩
    exact h.result_eq hends
  · obtain ⟨hfiles, hpackages, hcalls⟩ := afterCalls_keeps env s calls
    exact ⟨result, calls, _, rfl, hfiles, hpackages, hcalls, hends⟩

end Environment

end DevSpecs
