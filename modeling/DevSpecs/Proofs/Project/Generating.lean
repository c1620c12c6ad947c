import DevSpecs.Proofs.Environment.Calling
import DevSpecs.Proofs.Environment.Generating
import DevSpecs.Proofs.Project.Roots
import DevSpecs.Proofs.Resolution.Reach

/-!
# What generating does in which order

Everything that generating an environment reads is read before anything is written:
the name and the root are checked, the dependencies are resolved and the template is
loaded.  Files are written then, and only when that has not failed is anything run,
the installation.

Whatever a command writes is shown, and how the call ends depends on the answer.  So
that no command is run is said by letting someone else answer: if nothing is asked,
it makes no difference who would.
-/

namespace DevSpecs

/-- The failures that come before anything is done: over the name or the root, over
the index, over the declared dependencies or the template. -/
inductive ProjectError.IsEarly : ProjectError → Prop
  | name (name reason : Text) : IsEarly (.environment (.invalidName name reason))
  | root (path : Path) : IsEarly (.environment (.conflict path))
  | resolve (cause : ResolveError) : IsEarly (.resolve cause)
  | config (cause : ConfigError) : IsEarly (.config cause)

namespace Project

variable {p : Project} {name : Text} {mode : Option Mode} {unresolve : List Text}
  {install : Bool} {s : Session}

/-! ## The stages of a call -/

/-- The second half of a call: what has been resolved is written, and installed if that
is wanted. -/
def finish (env : Environment) (name : Text) (install : Bool) (resolution : Resolution)
    (template : Option Yaml.Entries) : Acting GeneratedEnvironment := do
  let files ← onEnvironment (env.generate resolution.groups template)
  if install then
    onEnvironment env.install
  return { name, resolution, files, installed := install }

theorem orFail_run {ε α : Type} (error : ε → ProjectError) (result : Except ε α)
    (s : Session) : (orFail error result).run s = (result.mapError error, s) :=
  rfl

theorem onEnvironment_run {α : Type} (action : Environment.Acting α) (s : Session) :
    (onEnvironment action).run s =
      let outcome := action.run { files := s.files }
      (outcome.1.mapError .environment,
        { s with
          files := outcome.2.files
          shown := s.shown.append outcome.2.shown }) :=
  rfl

/-- The first half of a call opens the environment, resolves and loads the template. -/
theorem generate_run (p : Project) (name : Text) (mode : Option Mode)
    (unresolve : List Text) (install : Bool) (s : Session) :
    (p.generate name mode unresolve install).run s =
      match p.opened s.files name with
      | .error e => (.error e, s)
      | .ok env =>
        match (p.resolve mode unresolve).run s with
        | (.error e, t) => (.error e, t)
        | (.ok resolution, t) =>
          match p.config.template t.files with
          | .error e => (.error (.config e), t)
          | .ok template => (finish env name install resolution template).run t := by
  rw [generate, run_bind, environment_run]
  cases p.opened s.files name with
  | error e => rfl
  | ok env =>
      dsimp only
      rw [run_bind]
      rcases (p.resolve mode unresolve).run s with ⟨e | resolution, t⟩
      · rfl
      · dsimp only
        rw [run_bind, run_get]
        dsimp only
        rw [run_bind, orFail_run]
        cases p.config.template t.files <;> rfl

/-! ## The first half -/

theorem eq_of_opened {files : FileTree} {env : Environment}
    (h : p.opened files name = .ok env) : env = ⟨p.rootPath files name, p.runner⟩ := by
  rw [opened] at h
  split at h
  next => cases h
  next =>
    dsimp only at h
    split at h
    next => cases h
    next => exact (Except.ok.inj h).symm

theorem isEarly_of_opened {files : FileTree} {e : ProjectError}
    (h : p.opened files name = .error e) : e.IsEarly := by
  rw [opened] at h
  split at h
  next cause hname =>
    obtain rfl := Except.error.inj h
    obtain ⟨reason, rfl⟩ := Environment.checkName_eq_error hname
    exact .name name reason
  next =>
    dsimp only at h
    split at h
    next =>
      obtain rfl := Except.error.inj h
      exact .root _
    next => cases h

theorem resolve_keeps (p : Project) (mode : Option Mode) (unresolve : List Text)
    (s : Session) :
    ((p.resolve mode unresolve).run s).2.files = s.files ∧
      ((p.resolve mode unresolve).run s).2.shown = s.shown ∧
      ∀ e, ((p.resolve mode unresolve).run s).1 = .error e → e.IsEarly := by
  rw [resolve_run]
  cases p.config.dependencies with
  | error cause =>
      refine ⟨rfl, rfl, fun e he => ?_⟩
      obtain rfl := Except.error.inj he
      exact .config cause
  | ok ds =>
      dsimp only
      split
      next cause history _ =>
        refine ⟨rfl, rfl, fun e he => ?_⟩
        obtain rfl := Except.error.inj he
        exact .resolve cause
      next => exact ⟨rfl, rfl, nofun⟩

theorem opened_of_runner (p : Project) (runner : Runner) (files : FileTree)
    (name : Text) :
    { p with runner }.opened files name =
      (p.opened files name).map fun env => { env with runner } := by
  rw [opened, opened]
  cases Environment.checkName name with
  | error cause => rfl
  | ok checked =>
      dsimp only [rootPath]
      split <;> rfl

theorem resolve_of_runner (p : Project) (runner : Runner) (mode : Option Mode)
    (unresolve : List Text) :
    { p with runner }.resolve mode unresolve = p.resolve mode unresolve :=
  rfl

/-- The environment can be opened, the dependencies can be resolved, and the template can
be loaded. -/
def Prepares (p : Project) (name : Text) (mode : Option Mode) (unresolve : List Text)
    (s : Session) : Prop :=
  (∃ env, ((p.environment name).run s).1 = .ok env) ∧
    (∃ resolution, ((p.resolve mode unresolve).run s).1 = .ok resolution) ∧
    ∃ template, p.config.template s.files = .ok template

/-- Whoever runs the commands, a call fails early and leaves everything but the history
of queries as it is, or it comes to its second half with the files as they are. -/
inductive GenerateGoes (p : Project) (name : Text) (mode : Option Mode)
    (unresolve : List Text) (install : Bool) (s : Session) : Prop
  | fails (e : ProjectError) (t : Session) (he : e.IsEarly)
      (hunprepared : ¬p.Prepares name mode unresolve s)
      (hfiles : t.files = s.files) (hshown : t.shown = s.shown)
      (hrun : ∀ runner,
        ({ p with runner }.generate name mode unresolve install).run s = (.error e, t))
  | finishes (root : Path) (resolution : Resolution) (template : Option Yaml.Entries)
      (t : Session)
      (hopens : ((p.environment name).run s).1 = .ok ⟨root, p.runner⟩)
      (hresolves : ((p.resolve mode unresolve).run s).1 = .ok resolution)
      (htemplate : p.config.template s.files = .ok template)
      (hfiles : t.files = s.files)
      (hrun : ∀ runner,
        ({ p with runner }.generate name mode unresolve install).run s =
          (finish ⟨root, runner⟩ name install resolution template).run t)

theorem generate_goes (p : Project) (name : Text) (mode : Option Mode)
    (unresolve : List Text) (install : Bool) (s : Session) :
    GenerateGoes p name mode unresolve install s := by
  have hrun := fun runner => generate_run { p with runner } name mode unresolve install s
  simp only [opened_of_runner, resolve_of_runner] at hrun
  cases hopened : p.opened s.files name with
  | error e =>
      rw [hopened] at hrun
      refine .fails e s (isEarly_of_opened hopened) ?_ rfl rfl hrun
      rintro ⟨⟨env, hopens⟩, _⟩
      rw [environment_run, hopened] at hopens
      cases hopens
  | ok env =>
      obtain rfl := eq_of_opened hopened
      have hopens : ((p.environment name).run s).1 =
          .ok ⟨p.rootPath s.files name, p.runner⟩ := by
        rw [environment_run, hopened]
      simp only [hopened, Except.map] at hrun
      obtain ⟨hfiles, hshown, hearly⟩ := resolve_keeps p mode unresolve s
      rcases hresolved : (p.resolve mode unresolve).run s with ⟨e | resolution, t⟩
      · rw [hresolved] at hfiles hshown hearly hrun
        refine .fails e t (hearly e rfl) ?_ hfiles hshown hrun
        rintro ⟨_, ⟨resolution, hresolves⟩, _⟩
        rw [hresolved] at hresolves
        cases hresolves
      · rw [hresolved] at hfiles hshown hrun
        dsimp only at hfiles hshown hrun
        rw [hfiles] at hrun
        cases htemplate : p.config.template s.files with
        | error cause =>
            rw [htemplate] at hrun
            refine .fails _ t (.config cause) ?_ hfiles hshown hrun
            rintro ⟨_, _, template, hloads⟩
            cases htemplate.symm.trans hloads
        | ok template =>
            rw [htemplate] at hrun
            exact .finishes _ resolution template t hopens (congrArg Prod.fst hresolved)
              htemplate hfiles hrun

/-! ## The second half -/

variable {root : Path} {resolution : Resolution} {template : Option Yaml.Entries}
  {runner runner' : Runner}

/-- Who runs the commands makes a difference only if something is to be installed, and
by the answer to that alone. -/
theorem finish_congr
    (h : install = true → ∀ generated files,
      (Environment.generate ⟨root, runner⟩ resolution.groups template).run
          { files := s.files } = (.ok generated, { files }) →
        runner.reply files [] (.install root) = runner'.reply files [] (.install root)) :
    (finish ⟨root, runner⟩ name install resolution template).run s =
      (finish ⟨root, runner'⟩ name install resolution template).run s := by
  have hgenerate : Environment.generate ⟨root, runner'⟩ resolution.groups template =
      Environment.generate ⟨root, runner⟩ resolution.groups template :=
    rfl
  rw [finish, finish, hgenerate, run_bind, run_bind, onEnvironment_run]
  rcases hrun : (Environment.generate ⟨root, runner⟩ resolution.groups template).run
    { files := s.files } with ⟨cause | generated, t⟩
  · rfl
  · obtain ⟨ht, _⟩ := Environment.readyToInstall_of_generate hrun
    cases install with
    | false => rfl
    | true =>
        rw [ht] at hrun
        have hreply := h rfl generated t.files hrun
        dsimp only [Except.mapError]
        rw [if_pos rfl, if_pos rfl, run_bind, run_bind, onEnvironment_run,
          onEnvironment_run, Environment.install_run, Environment.install_run, hreply]

theorem not_isEarly_of_finish {e : ProjectError}
    (h : ((finish ⟨root, runner⟩ name install resolution template).run s).1 = .error e) :
    ¬e.IsEarly := by
  rw [finish, run_bind, onEnvironment_run] at h
  rcases hrun : (Environment.generate ⟨root, runner⟩ resolution.groups template).run
    { files := s.files } with ⟨cause | generated, t⟩
  · rw [hrun] at h
    obtain rfl : .environment cause = e := Except.error.inj h
    obtain ⟨_, ⟨path, failure, rfl⟩ | ⟨path, message, rfl⟩⟩ :=
      Environment.generate_fails_over_files hrun
    · nofun
    · nofun
  · rw [hrun] at h
    cases install with
    | false => cases h
    | true =>
        dsimp only [Except.mapError] at h
        rw [if_pos rfl, run_bind_pure_fst, onEnvironment_run] at h
        obtain ⟨cause, hcause, rfl⟩ := mapError_eq_error_iff.mp (map_eq_error_iff.mp h)
        obtain ⟨code, rfl⟩ | ⟨reason, rfl⟩ := Environment.install_fails hcause
        · nofun
        · nofun

/-! ## The whole call -/

/-- The only request for which a command may be run: all that comes before has been
done, and nothing has been run yet. -/
def InstallsAt (p : Project) (name : Text) (mode : Option Mode) (unresolve : List Text)
    (s : Session) (files : FileTree) (calls : List Call) (call : Call) : Prop :=
  ∃ env resolution template generated,
    ((p.environment name).run s).1 = .ok env ∧
    ((p.resolve mode unresolve).run s).1 = .ok resolution ∧
    p.config.template s.files = .ok template ∧
    (env.generate resolution.groups template).run { files := s.files } =
      (.ok generated, { files }) ∧
    env.ReadyToInstall resolution.groups template s.files files ∧
    calls = [] ∧ call = .install env.root

/-- Without links on its way, the root is the place where there is no lock. -/
theorem InstallsAt.get?_lock {files : FileTree} {calls : List Call} {call : Call}
    (h : p.InstallsAt name mode unresolve s files calls call)
    (hlinks : ∀ l, ¬s.files.HoldsLink l) :
    files.get? (Environment.lockFile :: s.files.place (p.rootPath s.files name)) = none := by
  obtain ⟨env, resolution, template, generated, hopens, _, _, _, hready, _⟩ := h
  rw [environment_run] at hopens
  obtain rfl := eq_of_opened hopens
  obtain ⟨made, text, written, complete, root, removed, hcomplete, _, _, hroot, _, hlock, _⟩ :=
    hready
  have hplace : root = s.files.place (p.rootPath s.files name) :=
    (FileTree.AddsNoLink.of_keepsWays hcomplete.adds.keepsWays).eq_place
      (fun _ _ => hlinks _) hroot
  rwa [← hplace]

/-- Where the installation may be run it is run if that is wanted, and its answer is all
that is shown. -/
theorem InstallsAt.generate_run {files : FileTree} {calls : List Call} {call : Call}
    (h : p.InstallsAt name mode unresolve s files calls call) :
    ((p.generate name mode unresolve true).run s).2.files = files ∧
      ((p.generate name mode unresolve true).run s).2.shown =
        s.shown.append (p.runner.reply files calls call).shown := by
  obtain ⟨env, resolution, template, generated, hopens, hresolved, htemplate, hgenerated,
    _, rfl, rfl⟩ := h
  obtain ⟨hfiles, hshown, _⟩ := resolve_keeps p mode unresolve s
  rw [environment_run] at hopens
  dsimp only at hopens
  obtain rfl := eq_of_opened hopens
  rcases hrun : (p.resolve mode unresolve).run s with ⟨answer, t⟩
  rw [hrun] at hresolved hfiles hshown
  dsimp only at hresolved hfiles hshown
  rw [Project.generate_run, hopens, hrun, hresolved]
  dsimp only
  rw [hfiles, htemplate]
  dsimp only
  rw [finish, run_bind, onEnvironment_run, hfiles, hgenerated]
  dsimp only [Except.mapError]
  rw [if_pos rfl, run_bind_pure_snd, onEnvironment_run, Environment.install_run, hshown]
  exact ⟨rfl, by simp [Shown.append]⟩

/-- A call fails early exactly if its environment cannot be opened, its dependencies
cannot be resolved or its template cannot be loaded.  Then it changes no file and shows
nothing, and who runs the commands makes no difference to it: it runs none.  For any call
it makes a difference only by the answer to the installation, after the manifest and the
ignore file of the call are written and the lock is gone; and this answer is shown. -/
theorem generate_acts_after_preparing (p : Project) (name : Text) (mode : Option Mode)
    (unresolve : List Text) (install : Bool) (s : Session) :
    ((∃ e, ((p.generate name mode unresolve install).run s).1 = .error e ∧ e.IsEarly) ↔
      ¬p.Prepares name mode unresolve s) ∧
    (∀ e, ((p.generate name mode unresolve install).run s).1 = .error e → e.IsEarly →
      ((p.generate name mode unresolve install).run s).2.files = s.files ∧
      ((p.generate name mode unresolve install).run s).2.shown = s.shown ∧
      ∀ runner, ({ p with runner }.generate name mode unresolve install).run s =
        (p.generate name mode unresolve install).run s) ∧
    (∀ runner,
      (install = true → ∀ files calls call,
        p.InstallsAt name mode unresolve s files calls call →
          runner.reply files calls call = p.runner.reply files calls call) →
      ({ p with runner }.generate name mode unresolve install).run s =
        (p.generate name mode unresolve install).run s) ∧
    ∀ files calls call, p.InstallsAt name mode unresolve s files calls call →
      install = true →
        ((p.generate name mode unresolve install).run s).2.files = files ∧
        ((p.generate name mode unresolve install).run s).2.shown =
          s.shown.append (p.runner.reply files calls call).shown := by
  have hinstalls : ∀ files calls call,
      p.InstallsAt name mode unresolve s files calls call → install = true →
        ((p.generate name mode unresolve install).run s).2.files = files ∧
        ((p.generate name mode unresolve install).run s).2.shown =
          s.shown.append (p.runner.reply files calls call).shown := by
    rintro files calls call h rfl
    exact h.generate_run
  cases generate_goes p name mode unresolve install s with
  | fails e t he hunprepared hfiles hshown hrun =>
      have hself : (p.generate name mode unresolve install).run s = (.error e, t) :=
        hrun p.runner
      rw [hself] at hinstalls ⊢
      exact ⟨iff_of_true ⟨e, rfl, he⟩ hunprepared, fun _ _ _ => ⟨hfiles, hshown, hrun⟩,
        fun runner _ => hrun runner, hinstalls⟩
  | finishes root resolution template t hopens hresolves htemplate hfiles hrun =>
      have hself : (p.generate name mode unresolve install).run s =
          (finish ⟨root, p.runner⟩ name install resolution template).run t :=
        hrun p.runner
      rw [hself] at hinstalls ⊢
      refine ⟨?_, ?_, ?_, hinstalls⟩
      · apply iff_of_false
        · rintro ⟨e, he, hearly⟩
          exact not_isEarly_of_finish he hearly
        · exact not_not_intro ⟨⟨_, hopens⟩, ⟨_, hresolves⟩, _, htemplate⟩
      · intro e he hearly
        exact absurd hearly (not_isEarly_of_finish he)
      · intro runner hagree
        rw [hrun]
        symm
        apply finish_congr
        intro hinstall generated files hgenerated
        rw [hfiles] at hgenerated
        obtain ⟨_, hready⟩ := Environment.readyToInstall_of_generate hgenerated
        symm
        apply hagree hinstall
        exact ⟨_, resolution, template, generated, hopens, hresolves, htemplate,
          hgenerated, hready, rfl, rfl⟩

/-- Beside an old lock, a declaration that cannot be read stops a call early.  Without
it, a runner that refuses to install beside a lock installs as well as one that accepts
everything. -/
theorem generate_acts_after_preparing_beside_old_lock :
    let index : FileTree → Index :=
      fun _ => ⟨fun _ _ => .error (.noVersions "foo" "none"), fun _ _ => .ok []⟩
    let willing : Runner := ⟨fun _ _ _ => { result := .ok [] }⟩
    let lock : Location := ["spack.lock", "dev", "dev-envs"]
    let cautious : Runner :=
      ⟨fun files _ _ =>
        { result :=
            if files.get? lock = none then .ok []
            else .error (.failed "spack install" (some 1) []) }⟩
    let p : Project := { config := {}, index, runner := willing }
    let unreadable : Project :=
      { config := { declarations := [⟨"foo@:3", none⟩] }, index, runner := willing }
    let s : Session :=
      { files :=
          { entries := [(["dev-envs"], .directory), (["dev", "dev-envs"], .directory),
              (lock, .file (some "{}") false)] } }
    (∃ e, ((unreadable.generate "dev" none [] true).run s).1 = .error e ∧ e.IsEarly) ∧
      ((unreadable.generate "dev" none [] true).run s).2.files = s.files ∧
      ((unreadable.generate "dev" none [] true).run s).2.shown = s.shown ∧
      ({ unreadable with runner := cautious }.generate "dev" none [] true).run s =
        (unreadable.generate "dev" none [] true).run s ∧
      (cautious.reply s.files [] (.install "/dev-envs/dev")).result ≠
        (willing.reply s.files [] (.install "/dev-envs/dev")).result ∧
      ((p.generate "dev" none [] true).run s).1.toOption.isSome = true ∧
      ({ p with runner := cautious }.generate "dev" none [] true).run s =
        (p.generate "dev" none [] true).run s := by
  intro index willing lock cautious p unreadable s
  obtain ⟨hfails, hfailed, _⟩ := generate_acts_after_preparing unreadable "dev" none [] true s
  obtain ⟨_, _, hinstalled, _⟩ := generate_acts_after_preparing p "dev" none [] true s
  have hunprepared : ¬unreadable.Prepares "dev" none [] s := by
    have hnone : unreadable.config.dependencies.toOption.isNone = true := by decide +kernel
    rintro ⟨_, ⟨resolution, hresolves⟩, _⟩
    rw [resolve_run] at hresolves
    cases hdependencies : unreadable.config.dependencies with
    | error cause =>
        rw [hdependencies] at hresolves
        cases hresolves
    | ok ds =>
        rw [hdependencies] at hnone
        cases hnone
  obtain ⟨e, herror, hearly⟩ := hfails.mpr hunprepared
  obtain ⟨hfiles, hshown, hrunner⟩ := hfailed e herror hearly
  have hplace : Environment.lockFile :: s.files.place (p.rootPath s.files "dev") = lock := by
    decide +kernel
  refine ⟨⟨e, herror, hearly⟩, hfiles, hshown, hrunner cautious, ?_, ?_, ?_⟩
  · have hrefuses : (cautious.reply s.files [] (.install "/dev-envs/dev")).result =
        .error (.failed "spack install" (some 1) []) :=
      rfl
    rw [hrefuses]
    nofun
  · decide +kernel
  · apply hinstalled
    intro _ files calls call hinstalls
    have hlock := hinstalls.get?_lock (FileTree.not_holdsLink_of_entries (by decide +kernel))
    rw [hplace] at hlock
    have haccepts : cautious.reply files calls call =
        { result := if files.get? lock = none then .ok []
          else .error (.failed "spack install" (some 1) []) } :=
      rfl
    rw [haccepts, if_pos hlock]

end Project

end DevSpecs
