import DevSpecs.Environment
import DevSpecs.Proofs.Outcomes

/-!
# What a command leaves behind

Every operation that runs a command is described once by its outcome: the answer of the
runner, whatever it has seen so far, decides the result, and the session has one more
call.  The listing of installed packages is asked for only if none is remembered.
-/

namespace DevSpecs

namespace Environment

theorem call_run (env : Environment) (c : Call) (t : Session) :
    (env.call c).run t =
      let reply := env.runner.reply t.files t.calls c
      (.ok reply.result,
        { t with
          calls := t.calls ++ [c]
          shown := t.shown.append reply.shown }) :=
  rfl

/-! ## Installing -/

theorem install_run (env : Environment) (t : Session) :
    env.install.run t =
      let reply := env.runner.reply t.files t.calls (.install env.root)
      (match reply.result with
        | .ok _ => .ok ()
        | .error (.failed _ code _) => .error (.installFailed code)
        | .error cause => .error (.command cause),
        { t with
          calls := t.calls ++ [.install env.root]
          shown := t.shown.append reply.shown }) := by
  rw [install, run_bind, call_run]
  dsimp only
  cases (env.runner.reply t.files t.calls (.install env.root)).result with
  | ok output => rfl
  | error cause => cases cause <;> rfl

/-- Installing fails only over the command. -/
theorem install_fails {env : Environment} {t : Session}
    {cause : EnvironmentError} (h : (env.install.run t).1 = .error cause) :
    (∃ code, cause = .installFailed code) ∨ ∃ reason, cause = .command reason := by
  rw [install_run] at h
  dsimp only at h
  split at h
  next => cases h
  next => exact .inl ⟨_, (Except.error.inj h).symm⟩
  next => exact .inr ⟨_, (Except.error.inj h).symm⟩

/-! ## Listing -/

theorem listed_run (output : Text) (s : Session) :
    (listed output).run s =
      (match InstalledPackage.listed? output with
        | some packages => .ok packages
        | none => .error (.command
          (.invalidOutput "spack find --json" "not a list of packages")), s) := by
  rw [listed]
  cases InstalledPackage.listed? output <;> rfl

theorem packages_run_of_remembered {env : Environment} {s : Session}
    {packages : List InstalledPackage} (h : s.packages = some packages) :
    env.packages.run s = (.ok packages, s) := by
  rw [Environment.packages, run_bind, run_get]
  dsimp only
  rw [h]
  rfl

/-- A listing that can be read is remembered, and nothing else is. -/
theorem packages_run_of_none {env : Environment} {s : Session} (h : s.packages = none) :
    env.packages.run s =
      let reply := env.runner.reply s.files s.calls (.find env.root none)
      let t := { s with
        calls := s.calls ++ [.find env.root none]
        shown := s.shown.append reply.shown }
      match reply.result with
      | .error cause => (.error (.command cause), t)
      | .ok output =>
        match InstalledPackage.listed? output with
        | none =>
          (.error (.command (.invalidOutput "spack find --json" "not a list of packages")), t)
        | some packages =>
          (.ok (InstalledPackage.byName packages),
            { t with packages := some (InstalledPackage.byName packages) }) := by
  obtain ⟨files, calls, packages, shown⟩ := s
  obtain rfl : packages = none := h
  rw [Environment.packages, run_bind, run_get]
  dsimp only
  rw [run_bind, call_run]
  dsimp only
  cases (env.runner.reply files calls (.find env.root none)).result with
  | error cause => rfl
  | ok output =>
      dsimp only
      rw [run_bind, listed_run]
      cases InstalledPackage.listed? output <;> rfl

theorem newestCompiler_run_of_not_isInstalled {env : Environment} {s : Session}
    (h : env.isInstalled s.files = false) : env.newestCompiler.run s = (.ok none, s) := by
  rw [newestCompiler, run_bind, run_get]
  dsimp only
  rw [h, Bool.not_false, if_pos rfl]
  rfl

theorem newestCompiler_run {env : Environment} {s : Session}
    (h : env.isInstalled s.files = true) :
    env.newestCompiler.run s =
      match env.packages.run s with
      | (.ok packages, t) => (.ok (Compiler.preferred? (packages.filterMap (·.compiler))), t)
      | (.error cause, t) => (.error cause, t) := by
  rw [newestCompiler, run_bind, run_get]
  dsimp only
  rw [h, Bool.not_true, if_neg Bool.false_ne_true, run_bind]
  rcases env.packages.run s with ⟨cause | packages, t⟩ <;> rfl

end Environment

end DevSpecs
