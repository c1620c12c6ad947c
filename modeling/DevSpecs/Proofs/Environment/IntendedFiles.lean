import DevSpecs.Proofs.Environment.Generating
import Mathlib.Algebra.GroupWithZero.Nat

/-!
# The files of a generated environment

Generating that succeeds leaves the root as a directory with the manifest and the
ignore file in it and without a lock.  What it has done is read off the files before
and after: nothing is changed beside those three but for directories that were missing
on the way to the root.  As no lock comes back by itself, the environment passes for
one that is not installed until a lock is written, and generating it again changes
nothing.

A link to a file elsewhere is followed when it is in place of the manifest or of the
ignore file, and a file that is at other locations as well is changed at all of them.
Hence it is said first where the two files are.  They are read back, and are the same
when generating is repeated, as long as the lock that is removed is apart from them.
-/

namespace DevSpecs

open FileTree

namespace Environment

variable {env : Environment} {groups : SpecGroups} {template : Option Yaml.Entries}
  {t made written complete after : FileTree} {text : Text} {removed : Bool} {d m i : Location}

/-! ## After the last step -/

namespace LockRemoved

variable {lock : Location} (h : LockRemoved complete lock removed after)
include h

theorem current_eq : after.current = complete.current := by
  cases h <;> rfl

theorem removed_iff : removed = true ↔ complete.IsRemovable lock := by
  cases h with
  | removed hlock => exact iff_of_true rfl hlock
  | absent hlock => exact iff_of_false Bool.false_ne_true (not_isRemovable_of_none hlock)

theorem sameFile_eq {location other : Location} (hlocation : location ≠ lock)
    (hother : other ≠ lock) : after.sameFile location other = complete.sameFile location other := by
  cases h with
  | removed => exact sameFile_erase hlocation hother
  | absent => rfl

theorem addsNoLink : AddsNoLink complete after := by
  cases h with
  | removed => exact .of_erase complete lock
  | absent => exact .refl complete

end LockRemoved

/-! ## Where the files are -/

/-- The paths of the environment lead to its directory `d`, to the manifest at `m` and to the
ignore file at `i`. -/
structure Reaches (env : Environment) (t : FileTree) (d m i : Location) : Prop where
  root : t.Opens env.root d
  manifest : t.locate env.manifestPath = .ok m
  ignore : t.locate env.ignorePath = .ok i

namespace Reaches

theorem unique (h : Reaches env t d m i) {d' m' i' : Location} (h' : Reaches env t d' m' i') :
    d = d' ∧ m = m' ∧ i = i' :=
  ⟨h.root.unique h'.root, Except.ok.inj (h.manifest.symm.trans h'.manifest),
    Except.ok.inj (h.ignore.symm.trans h'.ignore)⟩

theorem of_keepsWays (h : Reaches env t d m i) {t' : FileTree} (hkept : KeepsWays t t') :
    Reaches env t' d m i :=
  ⟨h.root.of_keepsWays hkept, hkept.locate h.manifest, hkept.locate h.ignore⟩

end Reaches

theorem OwnsFiles.reaches (h : OwnsFiles t d) (hopens : t.Opens env.root d) :
    Reaches env t d (manifestFile :: d) (ignoreFile :: d) :=
  ⟨hopens, hopens.locate_join_name isEntryName_manifestFile h.manifest.noLink,
    hopens.locate_join_name isEntryName_ignoreFile h.ignore.noLink⟩

/-- The manifest at `m` and the ignore file at `i` are there with their texts, at all of
their locations; what is both is the ignore file. -/
structure HoldsTexts (t : FileTree) (text : Text) (m i : Location) : Prop where
  manifest : t.HoldsFile m
  ignore : t.HoldsFile i
  manifestTexts : ∀ l, t.sameFile m l = true → t.sameFile i l = false → t.HoldsFile l →
    t.HoldsText l text
  ignoreTexts : ∀ l, t.sameFile i l = true → t.HoldsFile l → t.HoldsText l ignoreText

/-- The manifest and then the ignore file have been written in the tree in which the root
has been made. -/
structure WrittenAt (env : Environment) (t : FileTree) (text : Text) (d m i : Location)
    (complete : FileTree) : Prop extends Reaches env t d m i where
  writableManifest : t.IsWritable m
  writableIgnore : (t.withText m text).IsWritable i
  complete : complete = (t.withText m text).withText i ignoreText

theorem IgnoreWritten.exists_writtenAt
    (h : IgnoreWritten env groups template t made text written complete) :
    ∃ d m i, WrittenAt env made text d m i complete := by
  obtain ⟨d, hopens⟩ := h.exists_opens
  obtain ⟨m, hm, hmanifest, rfl⟩ := write_eq_ok_iff.mp h.write
  obtain ⟨i, hi, hignore, hcomplete⟩ := write_eq_ok_iff.mp h.ignore
  have hi := (hmanifest.keepsWays_of_withText text).locate hi
  exact ⟨d, m, i, ⟨hopens, hm, hi⟩, hmanifest, hignore, hcomplete⟩

namespace WrittenAt

variable (h : WrittenAt env made text d m i complete)
include h

theorem sameFile_eq (location other : Location) :
    complete.sameFile location other = made.sameFile location other := by
  rw [sameFile, sameFile, h.complete, withText_shared, withText_shared]

theorem get?_of_not_ignore {location : Location} (hother : made.sameFile i location = false) :
    complete.get? location = (made.withText m text).get? location := by
  rw [h.complete]
  apply get?_withText_of_not_sameFile
  rwa [sameFile, withText_shared]

theorem get?_of_other {location : Location} (hmanifest : made.sameFile m location = false)
    (hignore : made.sameFile i location = false) :
    complete.get? location = made.get? location := by
  rw [h.get?_of_not_ignore hignore]
  exact get?_withText_of_not_sameFile hmanifest text

theorem holdsFile_iff {location : Location} :
    complete.HoldsFile location ↔
      made.HoldsFile location ∨ location = m ∨ location = i := by
  rw [h.complete, h.writableIgnore.holdsFile_withText_iff,
    h.writableManifest.holdsFile_withText_iff, or_assoc]

theorem isRemovable_iff {location : Location} :
    complete.IsRemovable location ↔
      made.IsRemovable location ∨ location = m ∨ location = i := by
  rw [h.complete, h.writableIgnore.isRemovable_withText_iff,
    h.writableManifest.isRemovable_withText_iff, or_assoc]

theorem holdsTexts : HoldsTexts complete text m i := by
  constructor
  case manifest => exact h.holdsFile_iff.mpr (.inr (.inl rfl))
  case ignore => exact h.holdsFile_iff.mpr (.inr (.inr rfl))
  case manifestTexts =>
    intro l hmanifest hignore hfile
    rw [h.sameFile_eq] at hmanifest hignore
    rw [HoldsFile, h.get?_of_not_ignore hignore] at hfile
    rw [HoldsText, h.get?_of_not_ignore hignore]
    exact holdsText_of_holdsFile_withText hmanifest hfile
  case ignoreTexts =>
    intro l hignore hfile
    rw [h.sameFile_eq] at hignore
    rw [h.complete] at hfile ⊢
    apply holdsText_of_holdsFile_withText ?_ hfile
    rwa [sameFile, withText_shared]

end WrittenAt

/-! ## The files that are left -/

/-- Generating that succeeds takes all four steps. -/
theorem generate_succeeds {s s' : Session} {generated : Generated}
    (h : (env.generate groups template).run s = (.ok generated, s')) :
    ∃ made text written complete d m i,
      IgnoreWritten env groups template s.files made text written complete ∧
        WrittenAt env made text d m i complete ∧
        LockRemoved complete (lockFile :: d) generated.removedLock s'.files ∧
        s' = { s with files := s'.files } ∧
        generated = ⟨env.root, env.manifestPath, groups.length, groups.countSpecs,
          generated.removedLock⟩ := by
  have hends := generate_ends env groups template s
  rw [h] at hends
  cases hends with
  | lockRemoved made text written complete final hcomplete hremove =>
      obtain ⟨d, m, i, hat⟩ := hcomplete.exists_writtenAt
      exact ⟨made, text, written, complete, d, m, i, hcomplete, hat,
        hcomplete.lockRemoved_of_remove_eq_ok hat.root hremove, rfl, rfl⟩
  | noLock made text written complete hcomplete hremove =>
      obtain ⟨d, m, i, hat⟩ := hcomplete.exists_writtenAt
      exact ⟨made, text, written, complete, d, m, i, hcomplete, hat,
        hcomplete.lockRemoved_of_remove_eq_notFound hat.root hremove, rfl, rfl⟩

/-- The location is as before, or a directory on the way to the root has been made there. -/
def Kept (env : Environment) (before after : FileTree) (l : Location) : Prop :=
  after.get? l = before.get? l ∨
    (before.makePath env.root).1.LeadsThrough env.root l ∧ before.get? l = none ∧
      after.get? l = some .directory

/-- What generating in the directory `d` leaves if the manifest is at the location `m` and
the ignore file at `i`: these files have their texts at all of their locations, but if they
are one file it has the text of the ignore file.  There is no lock, and all else is kept. -/
structure Leaves (env : Environment) (groups : SpecGroups) (template : Option Yaml.Entries)
    (d m i : Location) (before after : FileTree) : Prop where
  directory : after.get? d = some .directory
  manifest : ∃ text, (Manifest.build groups (template.getD [])).print? = some text ∧
    ∀ l ≠ lockFile :: d, before.sameFile m l = true → before.sameFile i l = false →
      l = m ∨ before.HoldsFile l → after.HoldsText l text
  ignore : ∀ l ≠ lockFile :: d, before.sameFile i l = true →
    l = i ∨ before.HoldsFile l → after.HoldsText l ignoreText
  lock : after.get? (lockFile :: d) = none
  current : after.current = before.current
  others : ∀ l, before.sameFile m l = false → before.sameFile i l = false →
    l ≠ lockFile :: d → Kept env before after l
  shared : ∀ l ≠ lockFile :: d, ∀ other ≠ lockFile :: d,
    after.sameFile l other = before.sameFile l other

section LockRemoved

variable (h : IgnoreWritten env groups template t made text written complete)
  (hat : WrittenAt env made text d m i complete)
  (hremoved : LockRemoved complete (lockFile :: d) removed after)

include h

theorem IgnoreWritten.keepsWays_before : KeepsWays t complete :=
  h.adds.keepsWays.trans h.keepsWays

theorem IgnoreWritten.sameFile_made (location other : Location) :
    made.sameFile location other = t.sameFile location other := by
  rw [sameFile, sameFile, h.adds.shared]

include hat hremoved

/-- Without links on its way the root leads to the same directory after any changes. -/
theorem eq_of_isStraight (hstraight : t.IsStraight (t.startOf env.root) env.root.names)
    {changes : List Change} {other : Location}
    (hother : (changes.foldl Change.apply after).Opens env.root other) : other = d := by
  have hmade : AddsNoLink t made := .of_keepsWays h.adds.keepsWays
  have hafter : AddsNoLink t after :=
    (AddsNoLink.of_keepsWays h.keepsWays_before).trans hremoved.addsNoLink
  have hchanged := hafter.trans (Change.foldl_apply_addsNoLink after changes)
  exact (hchanged.eq_place hstraight hother).trans (hmade.eq_place hstraight hat.root).symm

theorem removed_iff_before :
    removed = true ↔
      t.IsRemovable (lockFile :: d) ∨ lockFile :: d = m ∨ lockFile :: d = i := by
  rw [hremoved.removed_iff, hat.isRemovable_iff, h.adds.isRemovable_iff]

theorem leaves_of_lockRemoved : Leaves env groups template d m i t after := by
  have hmade : (t.makePath env.root).1 = made := congrArg Prod.fst h.root
  have htexts := hat.holdsTexts
  have hsame : ∀ l other, complete.sameFile l other = t.sameFile l other :=
    fun l other => (hat.sameFile_eq l other).trans (h.sameFile_made l other)
  constructor
  case directory =>
    rw [hremoved.get?_of_ne (List.cons_ne_self lockFile d).symm]
    exact h.keepsWays.directory d hat.root.directory
  case manifest =>
    refine ⟨text, h.print, fun l hlock hmanifest hignore hfile => ?_⟩
    rw [HoldsText, hremoved.get?_of_ne hlock]
    apply htexts.manifestTexts l ((hsame m l).trans hmanifest) ((hsame i l).trans hignore)
    exact hat.holdsFile_iff.mpr (hfile.symm.imp h.adds.holdsFile .inl)
  case ignore =>
    intro l hlock hignore hfile
    rw [HoldsText, hremoved.get?_of_ne hlock]
    apply htexts.ignoreTexts l ((hsame i l).trans hignore)
    exact hat.holdsFile_iff.mpr (hfile.symm.imp h.adds.holdsFile .inr)
  case lock => exact hremoved.get?_lock (List.cons_ne_nil lockFile d)
  case current => exact hremoved.current_eq.trans h.keepsWays_before.current
  case others =>
    intro l hmanifest hignore hlock
    have hafter : after.get? l = made.get? l := by
      rw [hremoved.get?_of_ne hlock]
      exact hat.get?_of_other ((h.sameFile_made m l).trans hmanifest)
        ((h.sameFile_made i l).trans hignore)
    rw [Kept, hafter, ← hmade]
    by_cases hkept : (t.makePath env.root).1.get? l = t.get? l
    · exact .inl hkept
    · have hadded := ((addsDirectories_makePath t env.root).entries l).resolve_left hkept
      exact .inr ⟨leadsThrough_makePath hkept, hadded⟩
  case shared =>
    intro l hl other hother
    rw [hremoved.sameFile_eq hl hother, hsame]

end LockRemoved

/-! ## A lock apart from the other files -/

/-- The manifest at `m` and the ignore file at `i` are not the lock, and if the lock is a
link, no path of the environment leads through it. -/
structure LockApart (env : Environment) (t : FileTree) (d m i : Location) : Prop where
  manifest : m ≠ lockFile :: d
  ignore : i ≠ lockFile :: d
  ways : t.HoldsLink (lockFile :: d) → Reaches env (t.erase (lockFile :: d)) d m i

/-- The paths of the environment still lead to its directory and to both files, whose texts
are read under them; only of one file that is both the second text is left.  There is no
lock. -/
structure LeavesIntended (env : Environment) (groups : SpecGroups)
    (template : Option Yaml.Entries) (d m i : Location) (before after : FileTree) : Prop
    extends Reaches env after d m i where
  readsManifest : ∃ text, (Manifest.build groups (template.getD [])).print? = some text ∧
    (before.sameFile i m = false → after.read env.manifestPath = .ok text)
  readsIgnore : after.read env.ignorePath = .ok ignoreText
  noLock : after.lookup env.lockPath = .error .notFound

theorem Leaves.leavesIntended (h : Leaves env groups template d m i t after)
    (hreaches : Reaches env after d m i) (hmanifest : m ≠ lockFile :: d)
    (hignore : i ≠ lockFile :: d) : LeavesIntended env groups template d m i t after where
  toReaches := hreaches
  readsManifest := by
    obtain ⟨text, hprint, hholds⟩ := h.manifest
    refine ⟨text, hprint, fun hother => read_of_holdsText hreaches.manifest ?_⟩
    exact hholds m hmanifest (sameFile_self t m) hother (.inl rfl)
  readsIgnore := read_of_holdsText hreaches.ignore
    (h.ignore i hignore (sameFile_self t i) (.inl rfl))
  noLock := by
    have hnone := h.lock
    have hlink : ¬after.HoldsLink (lockFile :: d) := by simp [HoldsLink, hnone]
    rw [lockPath, hreaches.root.lookup_join_name isEntryName_lockFile hlink, hnone]

namespace LockRemoved

variable (h : LockRemoved complete (lockFile :: d) removed after)
include h

theorem holdsTexts (htexts : HoldsTexts complete text m i) (hmanifest : m ≠ lockFile :: d)
    (hignore : i ≠ lockFile :: d) : HoldsTexts after text m i := by
  have hkept : ∀ l, after.HoldsFile l → l ≠ lockFile :: d ∧ complete.HoldsFile l := by
    rintro l ⟨old, executable, hfile⟩
    have hl : l ≠ lockFile :: d := by
      rintro rfl
      cases (h.get?_lock (List.cons_ne_nil lockFile d)).symm.trans hfile
    exact ⟨hl, old, executable, (h.get?_of_ne hl).symm.trans hfile⟩
  constructor
  case manifest =>
    rw [HoldsFile, h.get?_of_ne hmanifest]
    exact htexts.manifest
  case ignore =>
    rw [HoldsFile, h.get?_of_ne hignore]
    exact htexts.ignore
  case manifestTexts =>
    intro l hsame hother hfile
    obtain ⟨hl, hfile⟩ := hkept l hfile
    rw [h.sameFile_eq hmanifest hl] at hsame
    rw [h.sameFile_eq hignore hl] at hother
    rw [HoldsText, h.get?_of_ne hl]
    exact htexts.manifestTexts l hsame hother hfile
  case ignoreTexts =>
    intro l hsame hfile
    obtain ⟨hl, hfile⟩ := hkept l hfile
    rw [h.sameFile_eq hignore hl] at hsame
    rw [HoldsText, h.get?_of_ne hl]
    exact htexts.ignoreTexts l hsame hfile

/-- No path of the environment leads through the lock, so all are kept. -/
theorem reaches (hreaches : Reaches env made d m i) (hkept : KeepsWays made complete)
    (hapart : LockApart env made d m i) : Reaches env after d m i := by
  cases h with
  | removed hlock =>
      rcases hlock with hfile | hlink
      · exact hreaches.of_keepsWays (hkept.trans hfile.keepsWays_erase)
      · have hways := hapart.ways (hkept.holdsLink_iff.mp hlink)
        exact hways.of_keepsWays (hkept.erase (List.cons_ne_nil lockFile d))
  | absent => exact hreaches.of_keepsWays hkept

end LockRemoved

/-- In files of their own a lock is apart unless it is a link that the root path leads
through. -/
theorem OwnsFiles.lockApart (h : OwnsFiles t d)
    (hway : t.HoldsLink (lockFile :: d) → (t.erase (lockFile :: d)).Opens env.root d) :
    LockApart env t d (manifestFile :: d) (ignoreFile :: d) where
  manifest := (lock_ne_manifest d).symm
  ignore := (lock_ne_ignore d).symm
  ways hlink :=
    have herased : OwnsFiles (t.erase (lockFile :: d)) d := ⟨h.manifest.erase _, h.ignore.erase _⟩
    herased.reaches (hway hlink)

theorem Leaves.kept_of_ownsFiles
    (h : Leaves env groups template d (manifestFile :: d) (ignoreFile :: d) t after)
    (hown : OwnsFiles t d) {l : Location}
    (hl : l ∉ [manifestFile :: d, ignoreFile :: d, lockFile :: d]) : Kept env t after l := by
  simp only [List.mem_cons, List.not_mem_nil, or_false, not_or] at hl
  obtain ⟨hm, hi, hlock⟩ := hl
  exact h.others l (hown.manifest.sameFile_eq_false hm) (hown.ignore.sameFile_eq_false hi) hlock

/-! ## Once more -/

/-- The same is at every location, and relative paths start from the same one. -/
structure SameFiles (t t' : FileTree) : Prop where
  current : t'.current = t.current
  shared : t'.shared = t.shared
  entries : ∀ l, t'.get? l = t.get? l

theorem map_withText_get? {location : Location}
    (h : t.HoldsFile location → t.HoldsText location text) :
    (t.get? location).map (Entry.withText text) = t.get? location := by
  rcases entry_cases t location with hentry | hentry | hfile | ⟨target, hentry⟩
  · rw [hentry]
    rfl
  · rw [hentry]
    rfl
  · obtain ⟨executable, hentry⟩ := h hfile
    rw [hentry]
    rfl
  · rw [hentry]
    rfl

/-- Writing the texts that are there changes nothing. -/
theorem HoldsTexts.sameFiles (h : HoldsTexts t text m i) :
    SameFiles t ((t.withText m text).withText i ignoreText) := by
  have hfile : (t.withText m text).HoldsFile i :=
    (IsWritable.holdsFile_withText_iff (.inr h.manifest)).mpr (.inl h.ignore)
  have hshared : ∀ l, (t.withText m text).sameFile i l = t.sameFile i l :=
    fun l => by rw [sameFile, sameFile, withText_shared]
  refine ⟨?_, ?_, fun l => ?_⟩
  · rw [withText_current, withText_current]
  · rw [withText_shared, withText_shared]
  · rw [hfile.get?_withText, hshared, h.manifest.get?_withText]
    cases hignore : t.sameFile i l with
    | true =>
        have hkept := map_withText_get? (h.ignoreTexts l hignore)
        cases hmanifest : t.sameFile m l with
        | true =>
            rw [if_pos rfl, if_pos rfl, Option.map_map]
            simpa only [Function.comp_def, Entry.withText_withText] using hkept
        | false => simpa using hkept
    | false =>
        cases hmanifest : t.sameFile m l with
        | true => simpa using map_withText_get? (h.manifestTexts l hmanifest hignore)
        | false => rfl

theorem generate_run_of_notFound {s : Session}
    (h : IgnoreWritten env groups template s.files made text written complete)
    (hremove : complete.remove env.lockPath = .error .notFound) :
    (env.generate groups template).run s =
      (.ok ⟨env.root, env.manifestPath, groups.length, groups.countSpecs, false⟩,
        { s with files := complete }) := by
  rw [generate, run_bind, onFiles_run, h.root]
  dsimp only
  rw [h.print]
  dsimp only
  rw [run_bind, orNothing_run, h.write]
  dsimp only
  rw [run_bind, orNothing_run, h.ignore]
  dsimp only
  rw [run_bind, removeLock_run, hremove]
  rfl

/-- Generating changes nothing where its files are there already. -/
theorem exists_generate_run_again {s : Session} (hreaches : Reaches env s.files d m i)
    (hprint : (Manifest.build groups (template.getD [])).print? = some text)
    (htexts : HoldsTexts s.files text m i) (hlock : s.files.get? (lockFile :: d) = none) :
    ∃ files, (env.generate groups template).run s =
        (.ok ⟨env.root, env.manifestPath, groups.length, groups.countSpecs, false⟩,
          { s with files }) ∧ SameFiles s.files files := by
  let written := s.files.withText m text
  let complete := written.withText i ignoreText
  have hmanifest : s.files.IsWritable m := .inr htexts.manifest
  have hwritten : ManifestWritten env groups template s.files s.files text written :=
    ⟨makePath_of_opens hreaches.root, hprint,
      write_eq_ok_iff.mpr ⟨m, hreaches.manifest, hmanifest, rfl⟩⟩
  have hignore : written.IsWritable i :=
    .inr (hmanifest.holdsFile_withText_iff.mpr (.inl htexts.ignore))
  have hcomplete : IgnoreWritten env groups template s.files s.files text written complete :=
    ⟨hwritten, write_eq_ok_iff.mpr
      ⟨i, hwritten.keepsWays.locate hreaches.ignore, hignore, rfl⟩⟩
  have hsame : SameFiles s.files complete := htexts.sameFiles
  have hnone : complete.get? (lockFile :: d) = none := (hsame.entries _).trans hlock
  have hopens := hreaches.root.of_keepsWays hcomplete.keepsWays
  have hremove := (hopens.remove_join_name_eq_notFound_iff isEntryName_lockFile).mpr hnone
  exact ⟨complete, generate_run_of_notFound hcomplete hremove, hsame⟩

/-! ## The outcome -/

/-- What is said about the generated environment: its paths, how many groups and specs the
manifest defines, and whether a lock has been removed, which was there before or has just
been written in place of another file. -/
structure Reports (env : Environment) (groups : SpecGroups) (d m i : Location)
    (before : FileTree) (generated : Generated) : Prop where
  root : generated.root = env.root
  manifest : generated.manifest = env.manifestPath
  groupCount : generated.groups = groups.length
  specCount : generated.specs = (groups.map (·.specs.length)).sum
  removedLock : generated.removedLock = true ↔
    before.IsRemovable (lockFile :: d) ∨ lockFile :: d = m ∨ lockFile :: d = i

theorem countSpecs_eq_sum (groups : SpecGroups) :
    groups.countSpecs = (groups.map (·.specs.length)).sum :=
  List.length_flatMap

/-- Without a lock the environment is not installed, and only a write to the location of
the lock changes that, as long as the root leads nowhere else. -/
theorem isInstalled_foldl_apply {changes : List Change}
    (hlock : t.get? (lockFile :: d) = none)
    (havoid : Change.Avoid (lockFile :: d) t changes)
    (hroot : ∀ other, (changes.foldl Change.apply t).Opens env.root other → other = d) :
    env.isInstalled (changes.foldl Change.apply t) = false := by
  have hfree := Change.foldl_apply_keeps_free (not_isRemovable_of_none hlock) havoid
  rw [Bool.eq_false_iff]
  intro hinstalled
  rw [isInstalled, Bool.and_eq_true] at hinstalled
  obtain ⟨other, hopens, hthere⟩ := exists_opens_of_isFile isEntryName_lockFile hinstalled.2
  obtain rfl := hroot other hopens
  exact hfree hthere

/-- Generating that succeeds has made a directory of the root, and changes nothing but the
files that the manifest and the ignore file lead to, and the lock.  It says how much the
manifest defines and whether there was a lock, and leaves an environment that is not
installed until a lock is written in the directory; only a root path with links on it can
lead elsewhere then.  If the lock is apart from the other files, both texts are read back,
and generating once more leaves the same files and finds no lock.

If the manifest and the ignore file are no links and are at no other location as well, they
are the files that are changed, and the lock is apart from them unless it is a link that the
root path leads through.

What occupies the locations is all that this is about: special files and permissions are
left out. -/
theorem generate_leaves_intended_files {s s' : Session} {generated : Generated}
    (h : (env.generate groups template).run s = (.ok generated, s')) :
    ∃ d m i, Reaches env (s.files.makePath env.root).1 d m i ∧
      Leaves env groups template d m i s.files s'.files ∧
      s' = { s with files := s'.files } ∧
      Reports env groups d m i s.files generated ∧
      (∀ changes : List Change, Change.Avoid (lockFile :: d) s'.files changes →
        (s.files.IsStraight (s.files.startOf env.root) env.root.names ∨
          ∀ other, (changes.foldl Change.apply s'.files).Opens env.root other → other = d) →
        env.isInstalled (changes.foldl Change.apply s'.files) = false) ∧
      (LockApart env (s.files.makePath env.root).1 d m i →
        LeavesIntended env groups template d m i s.files s'.files ∧
          ∃ files, (env.generate groups template).run s' =
              (.ok { generated with removedLock := false }, { s' with files }) ∧
            SameFiles s'.files files) ∧
      (OwnsFiles s.files d →
        m = manifestFile :: d ∧ i = ignoreFile :: d ∧
          (∀ l ∉ [m, i, lockFile :: d], Kept env s.files s'.files l) ∧
          ((s.files.HoldsLink (lockFile :: d) →
              ((s.files.makePath env.root).1.erase (lockFile :: d)).Opens env.root d) →
            LockApart env (s.files.makePath env.root).1 d m i)) := by
  obtain ⟨made, text, written, complete, d, m, i, hcomplete, hat, hremoved, hsession,
    hgenerated⟩ := generate_succeeds h
  have hleaves := leaves_of_lockRemoved hcomplete hat hremoved
  rw [hcomplete.root]
  refine ⟨d, m, i, hat.toReaches, hleaves, hsession, ?_,
    fun changes havoid hroot => isInstalled_foldl_apply hleaves.lock havoid ?_,
    fun hapart => ?_, fun hown => ?_⟩
  · rw [hgenerated]
    exact ⟨rfl, rfl, rfl, countSpecs_eq_sum groups, removed_iff_before hcomplete hat hremoved⟩
  · rcases hroot with hstraight | hroot
    · exact fun other hother => eq_of_isStraight hcomplete hat hremoved hstraight hother
    · exact hroot
  · have hreaches := hremoved.reaches hat.toReaches hcomplete.keepsWays hapart
    have htexts := hremoved.holdsTexts hat.holdsTexts hapart.manifest hapart.ignore
    obtain ⟨files, hrun, hsame⟩ :=
      exists_generate_run_again hreaches hcomplete.print htexts hleaves.lock
    refine ⟨hleaves.leavesIntended hreaches hapart.manifest hapart.ignore, files, ?_, hsame⟩
    rw [hrun, hgenerated]
  · have hkept := hcomplete.adds.keepsWays
    have hmade : OwnsFiles made d := hown.of_keepsWays hkept hcomplete.adds.shared
    obtain ⟨_, rfl, rfl⟩ := hat.toReaches.unique (hmade.reaches hat.root)
    refine ⟨rfl, rfl, fun l => hleaves.kept_of_ownsFiles hown, fun hway => ?_⟩
    apply hmade.lockApart
    exact fun hlink => hway (hkept.holdsLink_iff.mp hlink)

/-- The root path leads through a link, and through a directory that has to be made and
back.  The old manifest is replaced, the ignore file is made where a link leads, and the old
lock is removed although it is a link. -/
theorem generate_leaves_intended_files_through_link :
    let files : FileTree :=
      { entries := [(["home"], .link "data"), (["data"], .directory), (["dev", "data"], .directory),
          (["spack.yaml", "dev", "data"], .file (some "old") true),
          ([".gitignore", "dev", "data"], .link "/ignored"),
          (["spack.lock", "dev", "data"], .link "/notes"), (["notes"], .file none false)] }
    let env : Environment := ⟨"/home/new/../dev", ⟨fun _ _ _ => { result := .ok [] }⟩⟩
    let groups : SpecGroups :=
      [⟨none, ["foo", "hdf5 @1.10:"]⟩, ⟨some "+mpi", ["openmpi"]⟩]
    let outcome := (env.generate groups none).run { files }
    outcome.1 = .ok ⟨"/home/new/../dev", "/home/new/../dev/spack.yaml", 2, 3, true⟩ ∧
      LeavesIntended env groups none ["dev", "data"] ["spack.yaml", "dev", "data"] ["ignored"]
        files outcome.2.files ∧
      outcome.2.files.get? ["new", "data"] = some .directory ∧
      outcome.2.files.get? ["notes"] = some (.file none false) ∧
      env.isInstalled outcome.2.files = false := by
  intro files env groups outcome
  have hresult : outcome.1 =
      .ok ⟨"/home/new/../dev", "/home/new/../dev/spack.yaml", 2, 3, true⟩ := by
    decide +kernel
  have hrun : outcome = (outcome.1, outcome.2) := (Prod.eta outcome).symm
  rw [hresult] at hrun
  obtain ⟨d, m, i, hreaches, _, _, _, hinstalled, hintended, _⟩ :=
    generate_leaves_intended_files hrun
  have hthere : Reaches env (files.makePath env.root).1 ["dev", "data"]
      ["spack.yaml", "dev", "data"] ["ignored"] :=
    ⟨⟨by decide, ⟨39, by decide +kernel⟩, by decide +kernel⟩, by decide +kernel,
      by decide +kernel⟩
  obtain ⟨rfl, rfl, rfl⟩ := hreaches.unique hthere
  obtain ⟨hleaves, _⟩ := hintended ⟨by decide, by decide, fun _ =>
    ⟨⟨by decide, ⟨39, by decide +kernel⟩, by decide +kernel⟩, by decide +kernel,
      by decide +kernel⟩⟩
  refine ⟨hresult, hleaves, by decide +kernel, by decide +kernel, ?_⟩
  exact hinstalled [] trivial (.inr fun other hother => hother.unique hleaves.root)

/-- What is beside the intended files can be changed: a directory that the root path leads
through and back is made, a file that the ignore file links to is written, and so is one
that is the ignore file under another name.  A link that leads nowhere is taken for a lock
and removed. -/
theorem generate_reaches_beyond_intended_files :
    let runner : Runner := ⟨fun _ _ _ => { result := .ok [] }⟩
    let old : Entry := .file (some "old") false
    let bare : FileTree := { entries := [(["dev"], .directory)] }
    let linked : FileTree :=
      { entries := [(["dev"], .directory), ([".gitignore", "dev"], .link "/notes"),
          (["notes"], old)] }
    let doubled : FileTree :=
      { entries := [(["dev"], .directory), ([".gitignore", "dev"], old), (["notes"], old)]
        shared := [[[".gitignore", "dev"], ["notes"]]] }
    let dangling : FileTree :=
      { entries := [(["dev"], .directory), (["spack.lock", "dev"], .link "/gone")] }
    let outcome := fun root files => (generate ⟨root, runner⟩ [] none).run { files }
    ((outcome "/new/../dev" bare).1.toOption.isSome = true ∧
        (outcome "/new/../dev" bare).2.files.get? ["new"] = some .directory) ∧
      ((outcome "/dev" linked).1.toOption.isSome = true ∧
        (outcome "/dev" linked).2.files.read "/notes" = .ok ignoreText) ∧
      ((outcome "/dev" doubled).1.toOption.isSome = true ∧
        (outcome "/dev" doubled).2.files.read "/notes" = .ok ignoreText) ∧
      (outcome "/dev" dangling).1 = .ok ⟨"/dev", "/dev/spack.yaml", 0, 0, true⟩ ∧
      dangling.isFile "/dev/spack.lock" = false := by
  decide +kernel

end Environment

end DevSpecs
