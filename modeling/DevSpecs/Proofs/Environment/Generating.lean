import DevSpecs.Environment
import DevSpecs.Proofs.Files.Changes

/-!
# What generating leaves behind

An environment is generated in four steps: its root is made, the manifest and then
the ignore file are written, and the lock is removed.  Each step can fail, and what
the steps before it have done stays done.  A lock that is older than the manifest is
left when a directory is in the way of the ignore file, for this is found out only
after the manifest has been written.
-/

namespace DevSpecs

open FileTree

namespace Environment

variable {env : Environment} {groups : SpecGroups} {template : Option Yaml.Entries}
  {t made written complete : FileTree} {text : Text}

/-! ## Places -/

/-- Where the manifest is. -/
def manifestPlace (env : Environment) (t : FileTree) : Location :=
  manifestFile :: t.place env.root

/-- Where the lock is. -/
def lockPlace (env : Environment) (t : FileTree) : Location :=
  lockFile :: t.place env.root

/-- Where the ignore file is. -/
def ignorePlace (env : Environment) (t : FileTree) : Location :=
  ignoreFile :: t.place env.root

theorem isEntryName_manifestFile : IsEntryName manifestFile := by decide

theorem isEntryName_lockFile : IsEntryName lockFile := by decide

theorem isEntryName_ignoreFile : IsEntryName ignoreFile := by decide

theorem lock_ne_manifest (d : Location) : lockFile :: d ≠ manifestFile :: d := by
  intro h
  exact absurd (List.cons.inj h).1 (by decide)

theorem lock_ne_ignore (d : Location) : lockFile :: d ≠ ignoreFile :: d := by
  intro h
  exact absurd (List.cons.inj h).1 (by decide)

theorem manifest_ne_ignore (d : Location) : manifestFile :: d ≠ ignoreFile :: d := by
  intro h
  exact absurd (List.cons.inj h).1 (by decide)

/-! ## The steps -/

/-- The root has been made and the manifest has been written. -/
structure ManifestWritten (env : Environment) (groups : SpecGroups)
    (template : Option Yaml.Entries) (t made : FileTree) (text : Text)
    (written : FileTree) : Prop where
  root : t.makePath env.root = (made, .ok ())
  print : (Manifest.build groups (template.getD [])).print? = some text
  write : made.write env.manifestPath text = .ok written

/-- The ignore file has been written as well. -/
structure IgnoreWritten (env : Environment) (groups : SpecGroups)
    (template : Option Yaml.Entries) (t made : FileTree) (text : Text)
    (written complete : FileTree) : Prop
    extends ManifestWritten env groups template t made text written where
  ignore : written.write env.ignorePath ignoreText = .ok complete

/-- How generating can end. -/
inductive GenerateEnds (env : Environment) (groups : SpecGroups)
    (template : Option Yaml.Entries) (s : Session) :
    Except EnvironmentError Generated × Session → Prop
  | rootNotMade (made : FileTree) (cause : Failure)
      (h : s.files.makePath env.root = (made, .error cause)) :
      GenerateEnds env groups template s
        (.error (.io env.root cause), { s with files := made })
  | notPrinted (made : FileTree) (h : s.files.makePath env.root = (made, .ok ()))
      (hprint : (Manifest.build groups (template.getD [])).print? = none) :
      GenerateEnds env groups template s
        (.error (.manifest env.manifestPath unwritable), { s with files := made })
  | manifestNotWritten (made : FileTree) (text : Text) (cause : Failure)
      (h : s.files.makePath env.root = (made, .ok ()))
      (hprint : (Manifest.build groups (template.getD [])).print? = some text)
      (hwrite : made.write env.manifestPath text = .error cause) :
      GenerateEnds env groups template s
        (.error (.io env.manifestPath cause), { s with files := made })
  | ignoreNotWritten (made : FileTree) (text : Text) (written : FileTree)
      (cause : Failure)
      (h : ManifestWritten env groups template s.files made text written)
      (hignore : written.write env.ignorePath ignoreText = .error cause) :
      GenerateEnds env groups template s
        (.error (.io env.ignorePath cause), { s with files := written })
  | lockNotRemoved (made : FileTree) (text : Text) (written complete : FileTree)
      (cause : Failure)
      (h : IgnoreWritten env groups template s.files made text written complete)
      (hremove : complete.remove env.lockPath = .error cause)
      (hcause : cause ≠ .notFound) :
      GenerateEnds env groups template s
        (.error (.io env.lockPath cause), { s with files := complete })
  | lockRemoved (made : FileTree) (text : Text) (written complete final : FileTree)
      (h : IgnoreWritten env groups template s.files made text written complete)
      (hremove : complete.remove env.lockPath = .ok final) :
      GenerateEnds env groups template s
        (.ok ⟨env.root, env.manifestPath, groups.length, groups.countSpecs, true⟩,
          { s with files := final })
  | noLock (made : FileTree) (text : Text) (written complete : FileTree)
      (h : IgnoreWritten env groups template s.files made text written complete)
      (hremove : complete.remove env.lockPath = .error .notFound) :
      GenerateEnds env groups template s
        (.ok ⟨env.root, env.manifestPath, groups.length, groups.countSpecs, false⟩,
          { s with files := complete })

theorem onFiles_run (path : Path)
    (operation : FileTree → FileTree × Except Failure Unit) (s : Session) :
    (onFiles path operation).run s =
      match operation s.files with
      | (files, .ok ()) => (.ok (), { s with files })
      | (files, .error cause) => (.error (.io path cause), { s with files }) := by
  rw [onFiles, run_bind, run_get]
  dsimp only
  rcases operation s.files with ⟨files, cause | ⟨⟩⟩ <;> rfl

theorem orNothing_run (path : Path) (operation : FileTree → Except Failure FileTree)
    (s : Session) :
    (onFiles path (orNothing operation)).run s =
      match operation s.files with
      | .ok files => (.ok (), { s with files })
      | .error cause => (.error (.io path cause), s) := by
  rw [onFiles_run, orNothing]
  cases operation s.files <;> rfl

theorem removeLock_run (env : Environment) (s : Session) :
    env.removeLock.run s =
      match s.files.remove env.lockPath with
      | .ok files => (.ok true, { s with files })
      | .error cause =>
        if cause = .notFound then (.ok false, s)
        else (.error (.io env.lockPath cause), s) := by
  rw [removeLock, run_bind, run_get]
  dsimp only
  cases s.files.remove env.lockPath with
  | ok files => rfl
  | error cause =>
      dsimp only
      split <;> rfl

theorem generate_ends (env : Environment) (groups : SpecGroups)
    (template : Option Yaml.Entries) (s : Session) :
    GenerateEnds env groups template s ((env.generate groups template).run s) := by
  rw [generate, run_bind, onFiles_run]
  rcases hmake : s.files.makePath env.root with ⟨made, cause | ⟨⟩⟩
  · exact .rootNotMade made cause hmake
  · dsimp only
    cases hprint : (Manifest.build groups (template.getD [])).print? with
    | none => exact .notPrinted made hmake hprint
    | some text =>
        dsimp only
        rw [run_bind, orNothing_run]
        cases hwrite : made.write env.manifestPath text with
        | error cause => exact .manifestNotWritten made text cause hmake hprint hwrite
        | ok written =>
            have hmanifest : ManifestWritten env groups template s.files made text written :=
              ⟨hmake, hprint, hwrite⟩
            dsimp only
            rw [run_bind, orNothing_run]
            cases hignore : written.write env.ignorePath ignoreText with
            | error cause => exact .ignoreNotWritten made text written cause hmanifest hignore
            | ok complete =>
                have hcomplete :
                    IgnoreWritten env groups template s.files made text written complete :=
                  ⟨hmanifest, hignore⟩
                dsimp only
                rw [run_bind, removeLock_run]
                cases hremove : complete.remove env.lockPath with
                | ok final =>
                    exact .lockRemoved made text written complete final hcomplete hremove
                | error cause =>
                    dsimp only
                    by_cases hcause : cause = .notFound
                    · subst hcause
                      exact .noLock made text written complete hcomplete hremove
                    · rw [if_neg hcause]
                      exact .lockNotRemoved made text written complete cause hcomplete
                        hremove hcause

/-- Generating runs no command and forgets nothing. -/
theorem generate_keeps (env : Environment) (groups : SpecGroups)
    (template : Option Yaml.Entries) (s : Session) :
    ((env.generate groups template).run s).2.packages = s.packages ∧
      ((env.generate groups template).run s).2.calls = s.calls := by
  have hends := generate_ends env groups template s
  generalize (env.generate groups template).run s = r at hends
  cases hends <;> exact ⟨rfl, rfl⟩

/-! ## What the steps leave -/

/-- In the directory, the manifest and the ignore file are no links and are at no other
location as well. -/
structure OwnsFiles (t : FileTree) (d : Location) : Prop where
  manifest : t.IsOwn (manifestFile :: d)
  ignore : t.IsOwn (ignoreFile :: d)

variable {d : Location}

theorem OwnsFiles.of_keepsWays {t' : FileTree} (h : OwnsFiles t d) (hkept : KeepsWays t t')
    (hshared : t'.shared = t.shared) : OwnsFiles t' d :=
  ⟨h.manifest.of_keepsWays hkept hshared, h.ignore.of_keepsWays hkept hshared⟩

namespace ManifestWritten

variable (h : ManifestWritten env groups template t made text written)
include h

theorem adds : AddsDirectories t made := by
  have hadds := addsDirectories_makePath t env.root
  rwa [h.root] at hadds

theorem exists_opens : ∃ d, made.Opens env.root d :=
  exists_opens_of_write isEntryName_manifestFile h.write

theorem keepsWays : KeepsWays made written :=
  keepsWays_of_write h.write

theorem shared_eq : written.shared = t.shared := by
  obtain ⟨location, _, _, rfl⟩ := write_eq_ok_iff.mp h.write
  rw [withText_shared, h.adds.shared]

theorem keepsWays_before : KeepsWays t written :=
  h.adds.keepsWays.trans h.keepsWays

theorem isOwn_manifest (hown : OwnsFiles t d) : made.IsOwn (manifestFile :: d) :=
  (hown.of_keepsWays h.adds.keepsWays h.adds.shared).manifest

theorem isOwn_ignore (hown : OwnsFiles t d) : written.IsOwn (ignoreFile :: d) :=
  (hown.of_keepsWays h.keepsWays_before h.shared_eq).ignore

variable (hopens : made.Opens env.root d) (hown : OwnsFiles t d)
include hopens hown

theorem steps : made.get? (manifestFile :: d) ≠ some .directory ∧
    written = made.withText (manifestFile :: d) text :=
  (hopens.write_join_name_eq_ok_iff isEntryName_manifestFile
    (h.isOwn_manifest hown).noLink).mp h.write

theorem isWritable : made.IsWritable (manifestFile :: d) :=
  isWritable_iff.mpr ⟨(h.steps hopens hown).1, (h.isOwn_manifest hown).noLink⟩

theorem get?_of_ne {location : Location} (hne : location ≠ manifestFile :: d) :
    written.get? location = made.get? location := by
  rw [(h.steps hopens hown).2]
  exact (h.isOwn_manifest hown).get?_withText_of_ne hne text

theorem holdsText : written.HoldsText (manifestFile :: d) text := by
  rw [(h.steps hopens hown).2]
  exact (h.isWritable hopens hown).holdsText_withText text

/-- The manifest is as it was exactly if it had the text before. -/
theorem get?_eq_iff :
    written.get? (manifestFile :: d) = t.get? (manifestFile :: d) ↔
      t.HoldsText (manifestFile :: d) text := by
  have hmade := h.adds.get?_eq (h.steps hopens hown).1
  rw [(h.steps hopens hown).2, ← hmade, (h.isWritable hopens hown).get?_withText_eq_iff,
    HoldsText, HoldsText, hmade]

/-- Then the ignore file is written unless a directory is in its place. -/
theorem write_ignore_eq_ok_iff :
    written.write env.ignorePath ignoreText = .ok complete ↔
      made.get? (ignoreFile :: d) ≠ some .directory ∧
        complete = written.withText (ignoreFile :: d) ignoreText := by
  have hplace := (manifest_ne_ignore d).symm
  rw [← h.get?_of_ne hopens hown hplace]
  exact (hopens.of_keepsWays h.keepsWays).write_join_name_eq_ok_iff isEntryName_ignoreFile
    (h.isOwn_ignore hown).noLink

theorem directory_of_write_ignore_eq_error {cause : Failure}
    (hignore : written.write env.ignorePath ignoreText = .error cause) :
    made.get? (ignoreFile :: d) = some .directory := by
  by_contra hfree
  rw [(h.write_ignore_eq_ok_iff hopens hown).mpr ⟨hfree, rfl⟩] at hignore
  cases hignore

end ManifestWritten

/-- The lock is removed if it is there, be it a file or a link; nothing else is changed. -/
inductive LockRemoved (t : FileTree) (lock : Location) : Bool → FileTree → Prop
  | removed (hlock : t.IsRemovable lock) : LockRemoved t lock true (t.erase lock)
  | absent (hlock : t.get? lock = none) : LockRemoved t lock false t

namespace IgnoreWritten

variable (h : IgnoreWritten env groups template t made text written complete)
include h

theorem keepsWays : KeepsWays made complete :=
  h.toManifestWritten.keepsWays.trans (keepsWays_of_write h.ignore)

variable (hopens : made.Opens env.root d)
include hopens

theorem lockRemoved_of_remove_eq_ok {after : FileTree}
    (hremove : complete.remove env.lockPath = .ok after) :
    LockRemoved complete (lockFile :: d) true after := by
  obtain ⟨hlock, rfl⟩ := ((hopens.of_keepsWays h.keepsWays).remove_join_name_eq_ok_iff
    isEntryName_lockFile).mp hremove
  exact .removed hlock

theorem lockRemoved_of_remove_eq_notFound
    (hremove : complete.remove env.lockPath = .error .notFound) :
    LockRemoved complete (lockFile :: d) false complete :=
  .absent (((hopens.of_keepsWays h.keepsWays).remove_join_name_eq_notFound_iff
    isEntryName_lockFile).mp hremove)

theorem not_isRemovable_lock {cause : Failure}
    (hremove : complete.remove env.lockPath = .error cause) :
    ¬complete.IsRemovable (lockFile :: d) :=
  (hopens.of_keepsWays h.keepsWays).not_isRemovable_of_remove_eq_error isEntryName_lockFile
    hremove

variable (hown : OwnsFiles t d)
include hown

theorem steps : made.get? (ignoreFile :: d) ≠ some .directory ∧
    complete = written.withText (ignoreFile :: d) ignoreText :=
  (h.write_ignore_eq_ok_iff hopens hown).mp h.ignore

theorem get?_of_ne_ignore {location : Location} (hne : location ≠ ignoreFile :: d) :
    complete.get? location = written.get? location := by
  rw [(h.steps hopens hown).2]
  exact (h.isOwn_ignore hown).get?_withText_of_ne hne ignoreText

theorem holdsIgnore : complete.HoldsText (ignoreFile :: d) ignoreText := by
  have hplace := (manifest_ne_ignore d).symm
  have hlink := (h.isOwn_ignore hown).noLink
  have hfree := (h.steps hopens hown).1
  rw [← h.get?_of_ne hopens hown hplace] at hfree
  rw [(h.steps hopens hown).2]
  exact (isWritable_iff.mpr ⟨hfree, hlink⟩).holdsText_withText ignoreText

theorem holdsManifest : complete.HoldsText (manifestFile :: d) text := by
  rw [HoldsText, h.get?_of_ne_ignore hopens hown (manifest_ne_ignore d)]
  exact h.holdsText hopens hown

end IgnoreWritten

namespace LockRemoved

variable {after : FileTree} {lock : Location} {removed : Bool}

theorem get?_lock (h : LockRemoved t lock removed after) (hne : lock ≠ []) :
    after.get? lock = none := by
  cases h with
  | removed => exact get?_erase_self hne
  | absent hlock => exact hlock

theorem get?_of_ne (h : LockRemoved t lock removed after) {location : Location}
    (hne : location ≠ lock) : after.get? location = t.get? location := by
  cases h with
  | removed => exact get?_erase_of_ne hne
  | absent => rfl

end LockRemoved

/-! ## What a call ends with -/

/-- The manifest of a call and the ignore file have been written, and the lock has been
removed then.  The texts are where they have been written, and still there at the end if
these files are nowhere else. -/
def ReadyToInstall (env : Environment) (groups : SpecGroups)
    (template : Option Yaml.Entries) (before after : FileTree) : Prop :=
  ∃ made text written complete root removed,
    IgnoreWritten env groups template before made text written complete ∧
      written.read env.manifestPath = .ok text ∧
      complete.read env.ignorePath = .ok ignoreText ∧
      made.Opens env.root root ∧
      LockRemoved complete (lockFile :: root) removed after ∧
      after.get? (lockFile :: root) = none ∧
      (OwnsFiles before root →
        after.HoldsText (manifestFile :: root) text ∧
          after.HoldsText (ignoreFile :: root) ignoreText)

theorem IgnoreWritten.readyToInstall {after : FileTree} {removed : Bool}
    (h : IgnoreWritten env groups template t made text written complete)
    (hopens : made.Opens env.root d)
    (hremoved : LockRemoved complete (lockFile :: d) removed after) :
    ReadyToInstall env groups template t after := by
  have hlock := hremoved.get?_lock (List.cons_ne_nil lockFile d)
  refine ⟨made, text, written, complete, d, removed, h, read_of_write h.write,
    read_of_write h.ignore, hopens, hremoved, hlock, fun hown => ⟨?_, ?_⟩⟩
  · rw [HoldsText, hremoved.get?_of_ne (lock_ne_manifest d).symm]
    exact h.holdsManifest hopens hown
  · rw [HoldsText, hremoved.get?_of_ne (lock_ne_ignore d).symm]
    exact h.holdsIgnore hopens hown

/-- Generating runs nothing, and is ready to install when it has not failed. -/
theorem readyToInstall_of_generate {s s' : Session} {generated : Generated}
    (h : (env.generate groups template).run s = (.ok generated, s')) :
    s' = { s with files := s'.files } ∧
      ReadyToInstall env groups template s.files s'.files := by
  have hends := generate_ends env groups template s
  rw [h] at hends
  cases hends with
  | lockRemoved made text written complete final hcomplete hremove =>
      obtain ⟨d, hopens⟩ := hcomplete.exists_opens
      exact ⟨rfl, hcomplete.readyToInstall hopens
        (hcomplete.lockRemoved_of_remove_eq_ok hopens hremove)⟩
  | noLock made text written complete hcomplete hremove =>
      obtain ⟨d, hopens⟩ := hcomplete.exists_opens
      exact ⟨rfl, hcomplete.readyToInstall hopens
        (hcomplete.lockRemoved_of_remove_eq_notFound hopens hremove)⟩

/-- It fails only over a file operation or a manifest without a text. -/
theorem generate_fails_over_files {s s' : Session} {cause : EnvironmentError}
    (h : (env.generate groups template).run s = (.error cause, s')) :
    s' = { s with files := s'.files } ∧
      ((∃ path failure, cause = .io path failure) ∨
        ∃ path message, cause = .manifest path message) := by
  have hends := generate_ends env groups template s
  rw [h] at hends
  cases hends with
  | notPrinted => exact ⟨rfl, .inr ⟨_, _, rfl⟩⟩
  | rootNotMade => exact ⟨rfl, .inl ⟨_, _, rfl⟩⟩
  | manifestNotWritten => exact ⟨rfl, .inl ⟨_, _, rfl⟩⟩
  | ignoreNotWritten => exact ⟨rfl, .inl ⟨_, _, rfl⟩⟩
  | lockNotRemoved => exact ⟨rfl, .inl ⟨_, _, rfl⟩⟩

/-! ## Locks that are left -/

/-- No link is on the way to the root, and there the manifest and the ignore file are no
links and are at no other location as well. -/
structure IsPlain (env : Environment) (t : FileTree) : Prop where
  way : t.IsStraight (t.startOf env.root) env.root.names
  owns : OwnsFiles t (t.place env.root)

theorem isPlain_of_entries (h : ∀ entry ∈ t.entries, ¬t.HoldsLink entry.1)
    (hshared : t.shared = []) : env.IsPlain t where
  way := fun _ _ => not_holdsLink_of_entries h _
  owns := ⟨isOwn_of_shared hshared (not_holdsLink_of_entries h _),
    isOwn_of_shared hshared (not_holdsLink_of_entries h _)⟩

/-- The manifest is as it was, or there is no lock, be it a file or a link. -/
def NoStaleLock (env : Environment) (before after : FileTree) : Prop :=
  after.get? (env.manifestPlace before) = before.get? (env.manifestPlace before) ∨
    ¬after.IsRemovable (env.lockPlace before)

/-- The manifest gets another text, and a directory is in the way of the ignore
file. -/
def StopsAtIgnoreFile (env : Environment) (groups : SpecGroups)
    (template : Option Yaml.Entries) (t : FileTree) : Prop :=
  ∃ made text written, ManifestWritten env groups template t made text written ∧
    ¬t.HoldsText (env.manifestPlace t) text ∧
      made.get? (env.ignorePlace t) = some .directory

/-- Making the root puts a directory in the place of the manifest, since the root
path leads through it and back. -/
def RootThroughManifest (env : Environment) (t : FileTree) : Prop :=
  (t.makePath env.root).1.get? (env.manifestPlace t) ≠ t.get? (env.manifestPlace t)

theorem ManifestWritten.opens_place
    (h : ManifestWritten env groups template t made text written) (hplain : env.IsPlain t) :
    made.Opens env.root (t.place env.root) := by
  obtain ⟨d, hopens⟩ := h.exists_opens
  have hd : d = t.place env.root :=
    (AddsNoLink.of_keepsWays h.adds.keepsWays).eq_place hplain.way hopens
  rwa [← hd]

theorem ManifestWritten.stopsAtIgnoreFile_iff
    (h : ManifestWritten env groups template t made text written) :
    StopsAtIgnoreFile env groups template t ↔
      ¬t.HoldsText (env.manifestPlace t) text ∧
        made.get? (env.ignorePlace t) = some .directory := by
  constructor
  · rintro ⟨made', text', written', h', hother, hdirectory⟩
    obtain rfl : made' = made := congrArg Prod.fst (h'.root.symm.trans h.root)
    obtain rfl : text' = text := Option.some.inj (h'.print.symm.trans h.print)
    exact ⟨hother, hdirectory⟩
  · rintro ⟨hother, hdirectory⟩
    exact ⟨made, text, written, h, hother, hdirectory⟩

theorem ManifestWritten.not_rootThroughManifest
    (h : ManifestWritten env groups template t made text written) (hplain : env.IsPlain t) :
    ¬RootThroughManifest env t := by
  rw [RootThroughManifest, h.root]
  exact not_not_intro (h.adds.get?_eq (h.steps (h.opens_place hplain) hplain.owns).1)

/-- Making the root alone changes neither a manifest nor a lock that is there. -/
theorem noStaleLock_makePath_iff (env : Environment) (t : FileTree) :
    NoStaleLock env t (t.makePath env.root).1 ↔
      ¬t.IsRemovable (env.lockPlace t) ∨ ¬RootThroughManifest env t := by
  rw [NoStaleLock, (addsDirectories_makePath t env.root).isRemovable_iff,
    RootThroughManifest, not_not]
  exact or_comm

/-- Where there is no lock at the end, nothing was stale. -/
theorem IgnoreWritten.noStaleLock_iff {after : FileTree}
    (h : IgnoreWritten env groups template t made text written complete)
    (hplain : env.IsPlain t) (hlock : ¬after.IsRemovable (env.lockPlace t)) :
    NoStaleLock env t after ↔
      ¬t.IsRemovable (env.lockPlace t) ∨
        ¬StopsAtIgnoreFile env groups template t ∧ ¬RootThroughManifest env t := by
  refine iff_of_true (.inr hlock) (.inr ⟨?_, h.not_rootThroughManifest hplain⟩)
  rw [h.stopsAtIgnoreFile_iff]
  rintro ⟨_, hdirectory⟩
  exact (h.steps (h.opens_place hplain) hplain.owns).1 hdirectory

/-- Where no link leads elsewhere, generating keeps the manifest or leaves no lock,
exactly if there was no lock before, or neither a directory is in the way of the ignore
file when the manifest has got another text, nor the root path leads through the
manifest.  What occupies the paths is all that this is about: that an operation is not
permitted, or that a special file is in the way, is left out. -/
theorem noStaleLock_generate_iff (env : Environment) (groups : SpecGroups)
    (template : Option Yaml.Entries) (s : Session) (hplain : env.IsPlain s.files) :
    NoStaleLock env s.files ((env.generate groups template).run s).2.files ↔
      ¬s.files.IsRemovable (env.lockPlace s.files) ∨
        ¬StopsAtIgnoreFile env groups template s.files ∧
          ¬RootThroughManifest env s.files := by
  -- Without a manifest written nothing is changed but the directories of the root.
  have hunwritten : (∀ made text written,
        ¬ManifestWritten env groups template s.files made text written) →
      (NoStaleLock env s.files (s.files.makePath env.root).1 ↔
        ¬s.files.IsRemovable (env.lockPlace s.files) ∨
          ¬StopsAtIgnoreFile env groups template s.files ∧
            ¬RootThroughManifest env s.files) := by
    intro hno
    have hstops : ¬StopsAtIgnoreFile env groups template s.files := by
      rintro ⟨made, text, written, h, _⟩
      exact hno made text written h
    rw [noStaleLock_makePath_iff, and_iff_right hstops]
  have hends := generate_ends env groups template s
  generalize (env.generate groups template).run s = r at hends
  cases hends with
  | rootNotMade made cause hmake =>
      rw [hmake] at hunwritten
      apply hunwritten
      intro made' text written h
      cases hmake.symm.trans h.root
  | notPrinted made hmake hprint =>
      rw [hmake] at hunwritten
      apply hunwritten
      intro made' text written h
      cases hprint.symm.trans h.print
  | manifestNotWritten made text cause hmake hprint hwrite =>
      rw [hmake] at hunwritten
      apply hunwritten
      intro made' text' written h
      obtain rfl : made' = made := congrArg Prod.fst (h.root.symm.trans hmake)
      obtain rfl : text' = text := Option.some.inj (h.print.symm.trans hprint)
      cases hwrite.symm.trans h.write
  | ignoreNotWritten made text written cause h hignore =>
      have hopens := h.opens_place hplain
      have hdirectory := h.directory_of_write_ignore_eq_error hopens hplain.owns hignore
      have hkept := h.get?_eq_iff hopens hplain.owns
      have hlock := h.get?_of_ne hopens hplain.owns (lock_ne_manifest _)
      have hthere : written.IsRemovable (env.lockPlace s.files) ↔
          s.files.IsRemovable (env.lockPlace s.files) :=
        (isRemovable_congr hlock).trans h.adds.isRemovable_iff
      rw [NoStaleLock, manifestPlace, hkept, hthere, h.stopsAtIgnoreFile_iff,
        ignorePlace, and_iff_left hdirectory, and_iff_left (h.not_rootThroughManifest hplain),
        not_not]
      exact or_comm
  | lockNotRemoved made text written complete cause h hremove _ =>
      exact h.noStaleLock_iff hplain
        (h.not_isRemovable_lock (h.opens_place hplain) hremove)
  | lockRemoved made text written complete final h hremove =>
      have hremoved := h.lockRemoved_of_remove_eq_ok (h.opens_place hplain) hremove
      have hnone := hremoved.get?_lock (List.cons_ne_nil lockFile _)
      exact h.noStaleLock_iff hplain (not_isRemovable_of_none hnone)
  | noLock made text written complete h hremove =>
      exact h.noStaleLock_iff hplain
        (h.not_isRemovable_lock (h.opens_place hplain) hremove)

/-- Beside an old manifest and an old lock nothing is in the way. -/
theorem noStaleLock_generate_beside_old_lock :
    let files : FileTree :=
      { entries := [(["dev"], .directory), (["spack.yaml", "dev"], .file (some "old") false),
          (["spack.lock", "dev"], .file (some "{}") false)] }
    let env : Environment := ⟨"/dev", ⟨fun _ _ _ => { result := .ok [] }⟩⟩
    env.IsPlain files ∧
      NoStaleLock env files ((env.generate [] none).run { files }).2.files := by
  intro files env
  have hplain : env.IsPlain files := isPlain_of_entries (by decide +kernel) rfl
  refine ⟨hplain, (noStaleLock_generate_iff env [] none { files } hplain).mpr (.inr ⟨?_, ?_⟩)⟩
  · rintro ⟨made, text, written, h, _, hdirectory⟩
    have hmade : (files.makePath env.root).1.get? (env.ignorePlace files) = none := by
      decide +kernel
    rw [h.root] at hmade
    cases hmade.symm.trans hdirectory
  · rw [RootThroughManifest, not_not]
    decide +kernel

/-- A directory in the way of the ignore file makes generating fail between a new
manifest and an old lock, and the environment passes for an installed one. -/
theorem lock_outlives_manifest_beside_blocked_ignoreFile :
    let files : FileTree :=
      { entries := [(["dev"], .directory), ([".gitignore", "dev"], .directory),
          (["spack.lock", "dev"], .file (some "{}") false)] }
    let env : Environment := ⟨"/dev", ⟨fun _ _ _ => { result := .ok [] }⟩⟩
    let outcome := (env.generate [] none).run { files }
    outcome.1 = .error (.io "/dev/.gitignore" .isDirectory) ∧
      ¬NoStaleLock env files outcome.2.files ∧
      env.isInstalled files = false ∧ env.isInstalled outcome.2.files = true := by
  intro files env outcome
  have hbefore : files.get? (env.manifestPlace files) = none := rfl
  have hafter : (outcome.2.files.get? (env.manifestPlace files)).isSome = true := by
    decide +kernel
  have hlock : outcome.2.files.get? (env.lockPlace files) =
      some (.file (some "{}") false) := by
    decide +kernel
  refine ⟨by decide +kernel, ?_, by decide +kernel, by decide +kernel⟩
  rintro (hkept | hgone)
  · rw [hkept, hbefore] at hafter
    cases hafter
  · exact hgone (.inl ⟨_, _, hlock⟩)

end Environment

end DevSpecs
