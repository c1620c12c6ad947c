import DevSpecs.Proofs.Environment.Finding
import DevSpecs.Proofs.Environment.Generating

/-!
# What is remembered of the installed packages

An environment is used in a sequence of operations, and files may be changed by others
between them.  All packages are listed for two of the operations.  The main statement
says for every operation of such a sequence which earlier ones it depends on: the first
listing that can be read is the only one that is remembered, and the last one that is
asked for.
-/

namespace DevSpecs

namespace Environment

variable {env : Environment} {s : Session}

/-! ## Operations -/

/-- What is done with an environment, or to the files it is among. -/
inductive Operation where
  | packages
  | newestCompiler
  | package (spec : Text)
  | which (command spec : Text) (argument : Option Text)
  | isInstalled
  | generate (groups : SpecGroups) (template : Option Yaml.Entries)
  | install
  /-- Others leave these files. -/
  | changeFiles (files : FileTree)

/-- What an operation answers. -/
inductive Answer where
  | packages (result : Except EnvironmentError (List InstalledPackage))
  | compiler (result : Except EnvironmentError (Option Compiler))
  | package (result : Except EnvironmentError InstalledPackage)
  | path (result : Except EnvironmentError Path)
  | installed (answer : Bool)
  | generated (result : Except EnvironmentError Generated)
  | done (result : Except EnvironmentError Unit)

/-- The answer of an operation and the session after it. -/
def Operation.run (env : Environment) : Operation → Session → Answer × Session
  | packages, s => Prod.map .packages id (env.packages.run s)
  | newestCompiler, s => Prod.map .compiler id (env.newestCompiler.run s)
  | package spec, s => Prod.map .package id ((env.package spec).run s)
  | which command spec argument, s =>
    Prod.map .path id ((env.which command spec argument).run s)
  | isInstalled, s => (.installed (env.isInstalled s.files), s)
  | generate groups template, s =>
    Prod.map .generated id ((env.generate groups template).run s)
  | install, s => Prod.map .done id (env.install.run s)
  | changeFiles files, s => (.done (.ok ()), { s with files := files })

/-- An operation between two sessions. -/
structure Step where
  before : Session
  operation : Operation
  answer : Answer
  after : Session

def step (env : Environment) (s : Session) (operation : Operation) : Step :=
  ⟨s, operation, (operation.run env s).1, (operation.run env s).2⟩

/-- Operations one after another. -/
def steps (env : Environment) : Session → List Operation → List Step
  | _, [] => []
  | s, operation :: operations =>
    env.step s operation :: env.steps (env.step s operation).after operations

/-- The session after all operations. -/
def afterAll (env : Environment) (s : Session) (operations : List Operation) : Session :=
  operations.foldl (fun s operation => (env.step s operation).after) s

namespace Step

/-- The commands run in the operation. -/
def calls (x : Step) : List Call :=
  x.after.calls.drop x.before.calls.length

theorem calls_eq {x : Step} {calls : List Call}
    (h : x.after.calls = x.before.calls ++ calls) : x.calls = calls := by
  rw [Step.calls, h, List.drop_left]

end Step

/-! ## Listings -/

/-- The command that lists all packages. -/
def listAll (env : Environment) : Call :=
  .find env.root none

/-- All packages, as they are listed in the session. -/
def listing (env : Environment) (s : Session) :
    Except EnvironmentError (List InstalledPackage) :=
  match env.answer s env.listAll with
  | .error cause => .error (.command cause)
  | .ok output =>
    match InstalledPackage.listed? output with
    | none =>
      .error (.command (.invalidOutput "spack find --json" "not a list of packages"))
    | some packages => .ok (InstalledPackage.byName packages)

/-- The listing that could be read in the operation, if there is one. -/
def Step.learned? (env : Environment) (x : Step) : Option (List InstalledPackage) :=
  if env.listAll ∈ x.calls then (env.listing x.before).toOption else none

/-- The compiler that is chosen among those of packages. -/
def compilerAmong (packages : List InstalledPackage) : Option Compiler :=
  Compiler.preferred? (packages.filterMap (·.compiler))

/-- What is remembered is what could be read in an earlier operation. -/
structure Remembers (env : Environment) (earlier : List Step)
    (memory : Option (List InstalledPackage)) : Prop where
  known : ∀ y ∈ earlier, ∀ packages, y.learned? env = some packages → memory = some packages
  unknown : (∀ y ∈ earlier, y.learned? env = none) → memory = none

/-- How an operation depends on those before it. -/
structure FollowsUp (env : Environment) (earlier : List Step) (x : Step) : Prop where
  calls : x.after.calls = x.before.calls ++ x.calls
  remembers : env.Remembers earlier x.before.packages
  /-- All packages are listed at most once, and only if no listing could be read before. -/
  asks : env.listAll ∈ x.calls →
    x.calls = [env.listAll] ∧ ∀ y ∈ earlier, y.learned? env = none
  /-- The listing that could be read is repeated. -/
  repeats : ∀ y ∈ earlier, ∀ packages, y.learned? env = some packages →
    x.operation = .packages → x.answer = .packages (.ok packages) ∧ x.calls = []
  /-- Without one the packages are listed, even if that has failed before. -/
  lists : (∀ y ∈ earlier, y.learned? env = none) → x.operation = .packages →
    x.answer = .packages (env.listing x.before) ∧ x.calls = [env.listAll]
  /-- There is no compiler without a manifest and a lock. -/
  noCompiler : x.operation = .newestCompiler →
    (x.before.files.isDirectory env.root = false ∨
      x.before.files.isFile env.manifestPath = false ∨
      x.before.files.isFile env.lockPath = false) →
    x.answer = .compiler (.ok none) ∧ x.calls = []
  /-- Else the compiler is chosen among the packages that would be answered. -/
  compiler : x.operation = .newestCompiler → env.isInstalled x.before.files = true →
    ∃ result, (env.step x.before .packages).answer = .packages result ∧
      x.answer = .compiler (result.map compilerAmong) ∧
      x.calls = (env.step x.before .packages).calls

/-! ## One operation -/

/-- What an operation does to the memory. -/
inductive Treats (env : Environment) (x : Step) : Prop
  | leaves (hpackages : x.after.packages = x.before.packages) (calls : List Call)
      (hcalls : x.after.calls = x.before.calls ++ calls) (hlist : env.listAll ∉ calls)
  | asks (hnone : x.before.packages = none)
      (hpackages : x.after.packages = (env.listing x.before).toOption)
      (hcalls : x.after.calls = x.before.calls ++ [env.listAll])

theorem Treats.of_same {x : Step} (hpackages : x.after.packages = x.before.packages)
    (hcalls : x.after.calls = x.before.calls) : Treats env x :=
  .leaves hpackages [] (hcalls.trans (List.append_nil _).symm) List.not_mem_nil

theorem Treats.of_call {x : Step} {c : Call} (hafter : x.after = env.afterCall x.before c)
    (hne : env.listAll ≠ c) : Treats env x := by
  refine .leaves ?_ [c] ?_ (mt List.mem_singleton.mp hne)
  · rw [hafter]
    rfl
  · rw [hafter]
    rfl

theorem Treats.of_after_eq {x y : Step} (h : Treats env x) (hafter : x.after = y.after)
    (hbefore : x.before = y.before) : Treats env y := by
  cases h with
  | leaves hpackages calls hcalls hlist =>
      rw [hafter, hbefore] at hpackages hcalls
      exact .leaves hpackages calls hcalls hlist
  | asks hnone hpackages hcalls =>
      rw [hafter, hbefore] at hpackages hcalls
      exact .asks (hbefore ▸ hnone) hpackages hcalls

theorem Treats.calls_eq {x : Step} (h : Treats env x) :
    x.after.calls = x.before.calls ++ x.calls := by
  cases h with
  | leaves hpackages calls hcalls hlist => rw [x.calls_eq hcalls, hcalls]
  | asks hnone hpackages hcalls => rw [x.calls_eq hcalls, hcalls]

theorem Treats.of_listAll_mem {x : Step} (h : Treats env x) (hlist : env.listAll ∈ x.calls) :
    x.before.packages = none ∧ x.calls = [env.listAll] := by
  cases h with
  | leaves hpackages calls hcalls hnot => exact absurd (x.calls_eq hcalls ▸ hlist) hnot
  | asks hnone hpackages hcalls => exact ⟨hnone, x.calls_eq hcalls⟩

/-- Without a memory, all packages are listed. -/
theorem packages_run_eq_listing (env : Environment) (h : s.packages = none) :
    ∃ t, env.packages.run s = (env.listing s, t) ∧
      t.packages = (env.listing s).toOption ∧ t.calls = s.calls ++ [env.listAll] := by
  rw [packages_run_of_none h, listing]
  unfold answer listAll
  dsimp only
  cases (env.runner.reply s.files s.calls (.find env.root none)).result with
  | error cause => exact ⟨_, rfl, h, rfl⟩
  | ok output =>
      dsimp only
      cases InstalledPackage.listed? output with
      | none => exact ⟨_, rfl, h, rfl⟩
      | some packages => exact ⟨_, rfl, rfl, rfl⟩

/-- A command is found without listing all packages. -/
theorem FindingEnds.listAll_notMem {command spec : Text} {argument : Option Text}
    {result : Except EnvironmentError Path} {calls : List Call}
    (h : env.FindingEnds s command spec argument result calls) : env.listAll ∉ calls := by
  cases h <;> simp [listAll, findCall, loadCall]

theorem step_of_packages_run {t : Session}
    {result : Except EnvironmentError (List InstalledPackage)}
    (h : env.packages.run s = (result, t)) :
    env.step s .packages = ⟨s, .packages, .packages result, t⟩ := by
  rw [step, Operation.run, h]
  rfl

theorem step_of_newestCompiler_run {t : Session}
    {result : Except EnvironmentError (Option Compiler)}
    (h : env.newestCompiler.run s = (result, t)) :
    env.step s .newestCompiler = ⟨s, .newestCompiler, .compiler result, t⟩ := by
  rw [step, Operation.run, h]
  rfl

/-- In an installed environment the newest compiler is looked for in all packages. -/
theorem step_newestCompiler_of_isInstalled (h : env.isInstalled s.files = true) :
    ∃ result, (env.step s .packages).answer = .packages result ∧
      (env.step s .newestCompiler).answer = .compiler (result.map compilerAmong) ∧
      (env.step s .newestCompiler).after = (env.step s .packages).after := by
  refine ⟨(env.packages.run s).1, rfl, ?_⟩
  simp only [step, Operation.run, newestCompiler_run h]
  rcases env.packages.run s with ⟨cause | packages, t⟩ <;> exact ⟨rfl, rfl⟩

theorem step_packages_treats (env : Environment) (s : Session) :
    Treats env (env.step s .packages) := by
  cases hmemory : s.packages with
  | some packages =>
      rw [step_of_packages_run (packages_run_of_remembered hmemory)]
      exact .of_same rfl rfl
  | none =>
      obtain ⟨t, hrun, hpackages, hcalls⟩ := packages_run_eq_listing env hmemory
      rw [step_of_packages_run hrun]
      exact .asks hmemory hpackages hcalls

/-- An operation either keeps the memory and lists no packages without a spec, or it finds
the memory empty, lists them all and remembers what it could read. -/
theorem step_treats (env : Environment) (s : Session) (operation : Operation) :
    Treats env (env.step s operation) := by
  cases operation with
  | packages => exact step_packages_treats env s
  | newestCompiler =>
      cases hinstalled : env.isInstalled s.files with
      | false =>
          rw [step_of_newestCompiler_run (newestCompiler_run_of_not_isInstalled hinstalled)]
          exact .of_same rfl rfl
      | true =>
          obtain ⟨-, -, -, hafter⟩ := step_newestCompiler_of_isInstalled hinstalled
          exact (step_packages_treats env s).of_after_eq hafter.symm rfl
  | package spec =>
      have hafter : (env.step s (.package spec)).after = env.afterCall s (env.findCall spec) := by
        obtain ⟨package, hrun, -⟩ | ⟨cause, hrun, -⟩ := package_ends env spec s
        · exact congrArg Prod.snd hrun
        · exact congrArg Prod.snd hrun
      exact .of_call hafter (by simp [listAll, findCall])
  | which command spec argument =>
      obtain ⟨result, calls, hrun, hends⟩ := which_ends env command spec argument s
      have hafter : (env.step s (.which command spec argument)).after = env.afterCalls s calls :=
        congrArg Prod.snd hrun
      obtain ⟨-, hpackages, hcalls⟩ := afterCalls_keeps env s calls
      exact .leaves (hafter ▸ hpackages) calls (hafter ▸ hcalls) hends.listAll_notMem
  | isInstalled => exact .of_same rfl rfl
  | generate groups template =>
      obtain ⟨hpackages, hcalls⟩ := generate_keeps env groups template s
      exact .of_same hpackages hcalls
  | install =>
      have hafter : (env.step s .install).after = env.afterCall s (.install env.root) :=
        congrArg Prod.snd (install_run env s)
      exact .of_call hafter (by simp [listAll])
  | changeFiles files => exact .of_same rfl rfl

/-! ## Following up -/

variable {earlier : List Step}

/-- As long as nothing is remembered, no listing could be read. -/
theorem Remembers.learned?_eq_none {memory : Option (List InstalledPackage)}
    (h : env.Remembers earlier memory) (hnone : memory = none) :
    ∀ y ∈ earlier, y.learned? env = none := by
  intro y hy
  cases hlearned : y.learned? env with
  | none => rfl
  | some packages => cases hnone.symm.trans (h.known y hy packages hlearned)

/-- An operation remembers what it learns, and nothing else. -/
theorem Remembers.concat {x : Step} (h : env.Remembers earlier x.before.packages)
    (htreats : Treats env x) : env.Remembers (earlier ++ [x]) x.after.packages := by
  cases htreats with
  | leaves hpackages calls hcalls hlist =>
      have hlearned : x.learned? env = none := by
        rw [Step.learned?, x.calls_eq hcalls, if_neg hlist]
      rw [hpackages]
      constructor
      · intro y hy packages hy'
        rcases List.mem_append.mp hy with hy | hy
        · exact h.known y hy packages hy'
        · obtain rfl := List.mem_singleton.mp hy
          cases hlearned.symm.trans hy'
      · intro hnone
        exact h.unknown fun y hy => hnone y (List.mem_append_left [x] hy)
  | asks hempty hpackages hcalls =>
      have hlearned : x.learned? env = x.after.packages := by
        rw [Step.learned?, x.calls_eq hcalls, if_pos List.mem_cons_self, hpackages]
      constructor
      · intro y hy packages hy'
        rcases List.mem_append.mp hy with hy | hy
        · cases (h.learned?_eq_none hempty y hy).symm.trans hy'
        · obtain rfl := List.mem_singleton.mp hy
          exact hlearned.symm.trans hy'
      · intro hnone
        exact hlearned.symm.trans (hnone x (List.mem_append_right earlier List.mem_cons_self))

theorem isInstalled_eq_false {files : FileTree}
    (h : files.isDirectory env.root = false ∨ files.isFile env.manifestPath = false ∨
      files.isFile env.lockPath = false) : env.isInstalled files = false := by
  rw [isInstalled]
  rcases h with h | h | h <;> simp [h]

theorem step_followsUp (operation : Operation) (h : env.Remembers earlier s.packages) :
    env.FollowsUp earlier (env.step s operation) where
  calls := (step_treats env s operation).calls_eq
  remembers := h
  asks hlist := by
    obtain ⟨hnone, hcalls⟩ := (step_treats env s operation).of_listAll_mem hlist
    exact ⟨hcalls, h.learned?_eq_none hnone⟩
  repeats := by
    rintro y hy packages hlearned rfl
    rw [step_of_packages_run (packages_run_of_remembered (h.known y hy packages hlearned))]
    exact ⟨rfl, Step.calls_eq (List.append_nil s.calls).symm⟩
  lists := by
    rintro hnone rfl
    obtain ⟨t, hrun, -, hcalls⟩ := packages_run_eq_listing env (h.unknown hnone)
    rw [step_of_packages_run hrun]
    exact ⟨rfl, Step.calls_eq hcalls⟩
  noCompiler := by
    rintro rfl hmissing
    have hinstalled : env.isInstalled s.files = false := isInstalled_eq_false hmissing
    rw [step_of_newestCompiler_run (newestCompiler_run_of_not_isInstalled hinstalled)]
    exact ⟨rfl, Step.calls_eq (List.append_nil s.calls).symm⟩
  compiler := by
    rintro rfl hinstalled
    obtain ⟨result, hpackages, hanswer, hafter⟩ :=
      step_newestCompiler_of_isInstalled hinstalled
    exact ⟨result, hpackages, hanswer, congrArg (fun t => t.calls.drop s.calls.length) hafter⟩

/-! ## All operations -/

theorem steps_followUp (operations : List Operation) (h : env.Remembers earlier s.packages) :
    (∀ before x later, env.steps s operations = before ++ x :: later →
      env.FollowsUp (earlier ++ before) x) ∧
    env.Remembers (earlier ++ env.steps s operations)
      (env.afterAll s operations).packages := by
  induction operations generalizing s earlier with
  | nil =>
      refine ⟨fun before x later hsplit => ?_, ?_⟩
      · cases (List.append_eq_nil_iff.mp hsplit.symm).2
      · rw [steps, List.append_nil]
        exact h
  | cons operation operations ih =>
      have hnext := h.concat (step_treats env s operation)
      obtain ⟨hrest, hlast⟩ := ih hnext
      refine ⟨fun before x later hsplit => ?_, ?_⟩
      · cases before with
        | nil =>
            obtain ⟨rfl, -⟩ := List.cons.inj hsplit
            rw [List.append_nil]
            exact step_followsUp operation h
        | cons y before =>
            obtain ⟨rfl, hlater⟩ := List.cons.inj hsplit
            rw [List.append_cons]
            exact hrest before x later hlater
      · rw [steps, List.append_cons]
        exact hlast

theorem remembers_nil (env : Environment) : env.Remembers [] none where
  known _ hy := absurd hy List.not_mem_nil
  unknown _ := rfl

/-- In any sequence of operations on a new environment, whatever the runner answers and
however files are changed in between, all packages are listed until a listing can be read,
and never after that: its packages are answered from then on.  A listing that fails or
cannot be read leaves nothing behind, and where the manifest or the lock is missing no
compiler is found, without a command. -/
theorem lists_until_first_reading (env : Environment) (files : FileTree) (calls : List Call)
    (operations : List Operation) :
    (∀ earlier x later,
      env.steps { files := files, calls := calls } operations = earlier ++ x :: later →
        env.FollowsUp earlier x) ∧
    env.Remembers (env.steps { files := files, calls := calls } operations)
      (env.afterAll { files := files, calls := calls } operations).packages :=
  steps_followUp (s := { files := files, calls := calls }) operations (remembers_nil env)

/-- The first listing fails, and the second cannot be read. -/
example :
    let env : Environment :=
      ⟨"/env", ⟨fun _ calls _ =>
        match calls with
        | [] => ⟨.error (.failed "spack find --json" none []), {}⟩
        | [_] => ⟨.ok "?", {}⟩
        | _ => ⟨.ok "[]", {}⟩⟩⟩
    (env.steps { files := {} } [.packages, .packages, .packages, .packages]).map Step.calls =
      [[env.listAll], [env.listAll], [env.listAll], []] := by
  decide +kernel

end Environment

end DevSpecs
