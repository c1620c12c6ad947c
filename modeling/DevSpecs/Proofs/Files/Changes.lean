import DevSpecs.Proofs.Files.Walks

/-!
# Changes to a tree of files

Writing changes one file, which may be at several locations, and removing takes away what
is at one location; nothing else is changed.  Making a directory adds directories where
nothing was, also when it fails, and changes nothing else either.  None of this changes
where a path to a directory leads, unless a link on the way is removed.
-/

namespace DevSpecs

theorem Entry.withText_withText (old text : Text) (entry : Entry) :
    (entry.withText old).withText text = entry.withText text := by
  cases entry <;> rfl

namespace FileTree

variable {t t' u : FileTree} {location other : Location} {entry : Entry}

/-! ## Single entries -/

theorem lookup_filter_ne (entries : List (Location × Entry)) (h : other ≠ location) :
    (entries.filter (·.1 != location)).lookup other = entries.lookup other := by
  induction entries with
  | nil => rfl
  | cons e rest ih =>
      by_cases hkey : e.1 = location
      · rw [List.filter_cons_of_neg (by simpa using hkey), ih, List.lookup_cons,
          hkey, beq_eq_false_iff_ne.mpr h]
      · rw [List.filter_cons_of_pos (by simpa using hkey), List.lookup_cons,
          List.lookup_cons, ih]

theorem lookup_filter_self (entries : List (Location × Entry)) :
    (entries.filter (·.1 != location)).lookup location = none := by
  rw [List.lookup_eq_none_iff]
  intro e he
  have hne : e.1 ≠ location := by simpa using (List.mem_filter.mp he).2
  exact bne_iff_ne.mpr hne.symm

theorem get?_of_ne_nil (h : location ≠ []) :
    t.get? location = t.entries.lookup location := by
  cases location with
  | nil => exact absurd rfl h
  | cons name rest => rfl

@[simp] theorem get?_set_self (h : location ≠ []) :
    (t.set location entry).get? location = some entry := by
  rw [get?_of_ne_nil h, set, List.lookup_cons_self]

theorem get?_set_of_ne (h : other ≠ location) :
    (t.set location entry).get? other = t.get? other := by
  cases other with
  | nil => rfl
  | cons name rest =>
      change ((location, entry) :: t.entries.filter (·.1 != location)).lookup _ = _
      rw [List.lookup_cons, beq_eq_false_iff_ne.mpr h]
      exact lookup_filter_ne t.entries h

theorem get?_erase_self (h : location ≠ []) : (t.erase location).get? location = none := by
  rw [get?_of_ne_nil h, erase]
  exact lookup_filter_self t.entries

theorem get?_erase_of_ne (h : other ≠ location) :
    (t.erase location).get? other = t.get? other := by
  cases other with
  | nil => rfl
  | cons name rest => exact lookup_filter_ne t.entries h

/-! ## Files -/

/-- There is a file. -/
def HoldsFile (t : FileTree) (location : Location) : Prop :=
  ∃ text executable, t.get? location = some (.file text executable)

/-- There is a file with a text. -/
def HoldsText (t : FileTree) (location : Location) (text : Text) : Prop :=
  ∃ executable, t.get? location = some (.file (some text) executable)

theorem entry_cases (t : FileTree) (location : Location) :
    t.get? location = none ∨ t.get? location = some .directory ∨
      t.HoldsFile location ∨ t.HoldsLink location := by
  cases h : t.get? location with
  | none => exact .inl rfl
  | some entry =>
      cases entry with
      | directory => exact .inr (.inl rfl)
      | file text executable => exact .inr (.inr (.inl ⟨text, executable, h⟩))
      | link target => exact .inr (.inr (.inr ⟨target, h⟩))

/-- There is nothing yet, or a file. -/
def IsWritable (t : FileTree) (location : Location) : Prop :=
  t.get? location = none ∨ t.HoldsFile location

theorem isWritable_iff :
    t.IsWritable location ↔ t.get? location ≠ some .directory ∧ ¬t.HoldsLink location := by
  rw [IsWritable]
  rcases entry_cases t location with hnone | hdirectory | ⟨text, executable, hfile⟩ |
    ⟨target, hlink⟩
  · simp [hnone, HoldsLink]
  · simp [hdirectory, HoldsFile]
  · simp [hfile, HoldsFile, HoldsLink]
  · simp [hlink, HoldsFile, HoldsLink]

/-- There is a file, or a link. -/
def IsRemovable (t : FileTree) (location : Location) : Prop :=
  t.HoldsFile location ∨ t.HoldsLink location

theorem not_isRemovable_of_none (h : t.get? location = none) : ¬t.IsRemovable location := by
  simp [IsRemovable, HoldsFile, HoldsLink, h]

theorem isRemovable_congr (h : t'.get? location = t.get? location) :
    t'.IsRemovable location ↔ t.IsRemovable location := by
  rw [IsRemovable, IsRemovable, HoldsFile, HoldsFile, HoldsLink, HoldsLink, h]

/-! ## Texts -/

theorem sameFile_self (t : FileTree) (location : Location) :
    t.sameFile location location = true := by
  rw [sameFile, beq_self_eq_true, Bool.true_or]

theorem lookup_map_entries (change : Location → Entry → Entry)
    (entries : List (Location × Entry)) (location : Location) :
    (entries.map fun e => (e.1, change e.1 e.2)).lookup location =
      (entries.lookup location).map (change location) := by
  induction entries with
  | nil => rfl
  | cons e rest ih =>
      rw [List.map_cons, List.lookup_cons, List.lookup_cons, ih]
      cases hkey : location == e.1 with
      | true =>
          obtain rfl := beq_iff_eq.mp hkey
          rfl
      | false => rfl

theorem touch_of_some (h : t.get? location = some entry) : t.touch location = t := by
  rw [touch, h]
  rfl

theorem get?_touch_of_ne (h : other ≠ location) :
    (t.touch location).get? other = t.get? other := by
  rw [touch]
  split
  next => rfl
  next => exact get?_set_of_ne h

theorem touch_shared (t : FileTree) (location : Location) :
    (t.touch location).shared = t.shared := by
  rw [touch]
  split <;> rfl

/-- A file that is there, or is made, gets the text at each of its locations. -/
theorem get?_withText (t : FileTree) (location : Location) (text : Text)
    (other : Location) :
    (t.withText location text).get? other =
      if t.sameFile location other then
        ((t.touch location).get? other).map (Entry.withText text)
      else (t.touch location).get? other := by
  have hshared : ∀ l, (t.touch location).sameFile location l = t.sameFile location l :=
    fun l => by rw [sameFile, sameFile, touch_shared]
  cases other with
  | nil => exact (ite_self (some Entry.directory)).symm
  | cons name rest =>
      let change := fun l (e : Entry) =>
        if (t.touch location).sameFile location l then e.withText text else e
      refine (lookup_map_entries change (t.touch location).entries (name :: rest)).trans ?_
      by_cases hsame : t.sameFile location (name :: rest) = true
      · simp [change, hshared, hsame, get?_of_ne_nil]
      · simp [change, hshared, hsame, get?_of_ne_nil]

theorem HoldsFile.get?_withText (h : t.HoldsFile location) (text : Text)
    (other : Location) :
    (t.withText location text).get? other =
      if t.sameFile location other then (t.get? other).map (Entry.withText text)
      else t.get? other := by
  obtain ⟨_, _, hfile⟩ := h
  rw [FileTree.get?_withText, touch_of_some hfile]

variable {text : Text}

theorem IsWritable.ne_nil (h : t.IsWritable location) : location ≠ [] := by
  rintro rfl
  exact (isWritable_iff.mp h).1 rfl

theorem IsWritable.holdsFile_touch (h : t.IsWritable location) :
    (t.touch location).HoldsFile location := by
  rcases h with hnone | ⟨text, executable, hfile⟩
  · have hne : location ≠ [] := IsWritable.ne_nil (.inl hnone)
    refine ⟨some [], false, ?_⟩
    rw [touch, hnone]
    exact get?_set_self hne
  · rw [touch_of_some hfile]
    exact ⟨text, executable, hfile⟩

theorem IsWritable.holdsText_withText (h : t.IsWritable location) (text : Text) :
    (t.withText location text).HoldsText location text := by
  obtain ⟨old, executable, hfile⟩ := h.holdsFile_touch
  refine ⟨executable, ?_⟩
  rw [get?_withText, sameFile_self, if_pos rfl, hfile]
  rfl

theorem get?_withText_of_not_sameFile (hother : t.sameFile location other = false)
    (text : Text) : (t.withText location text).get? other = t.get? other := by
  have hne : other ≠ location := by
    rintro rfl
    cases hother.symm.trans (sameFile_self t other)
  rw [get?_withText, hother, if_neg Bool.false_ne_true, get?_touch_of_ne hne]

/-- A file has the text that has been written to it at another of its locations. -/
theorem holdsText_of_holdsFile_withText (hsame : t.sameFile location other = true)
    (h : (t.withText location text).HoldsFile other) :
    (t.withText location text).HoldsText other text := by
  obtain ⟨old, executable, hfile⟩ := h
  have hget := get?_withText t location text other
  rw [hsame, if_pos rfl, hfile] at hget
  obtain ⟨entry, _, hentry⟩ := Option.map_eq_some_iff.mp hget.symm
  cases entry with
  | file _ _ =>
      refine ⟨executable, ?_⟩
      rw [hfile, ← hentry]
      cases hentry
      rfl
  | directory => cases hentry
  | link _ => cases hentry

/-- Writing makes files and changes the texts of files. -/
theorem IsWritable.get?_withText_cases (h : t.IsWritable location) (text : Text)
    (other : Location) :
    (t.withText location text).get? other = t.get? other ∨
      (t.withText location text).HoldsText other text ∧ t.IsWritable other ∧
        (t.HoldsFile other ∨ other = location) := by
  by_cases hself : other = location
  · rw [hself]
    exact .inr ⟨h.holdsText_withText text, h, .inr rfl⟩
  · cases hsame : t.sameFile location other with
    | false => exact .inl (get?_withText_of_not_sameFile hsame text)
    | true =>
        have hget := get?_withText t location text other
        rw [hsame, if_pos rfl, get?_touch_of_ne hself] at hget
        rcases entry_cases t other with hentry | hentry | ⟨old, executable, hentry⟩ |
          ⟨target, hentry⟩
        · exact .inl (by rw [hget, hentry]; rfl)
        · exact .inl (by rw [hget, hentry]; rfl)
        · rw [hentry] at hget
          exact .inr ⟨⟨executable, hget⟩, .inr ⟨_, _, hentry⟩, .inl ⟨_, _, hentry⟩⟩
        · exact .inl (by rw [hget, hentry]; rfl)

theorem withText_current (t : FileTree) (location : Location) (text : Text) :
    (t.withText location text).current = t.current := by
  change (t.touch location).current = t.current
  rw [touch]
  split <;> rfl

theorem withText_shared (t : FileTree) (location : Location) (text : Text) :
    (t.withText location text).shared = t.shared :=
  touch_shared t location

theorem IsWritable.keepsWays_withText (h : t.IsWritable location) (text : Text) :
    KeepsWays t (t.withText location text) := by
  refine ⟨withText_current t location text, fun l hl => ?_, fun l target => ?_⟩
  · rcases h.get?_withText_cases text l with heq | ⟨_, hwritable, _⟩
    · rw [heq, hl]
    · exact absurd hl (isWritable_iff.mp hwritable).1
  · rcases h.get?_withText_cases text l with heq | ⟨⟨_, hentry⟩, hwritable, _⟩
    · rw [heq]
    · refine iff_of_false ?_ fun hl => (isWritable_iff.mp hwritable).2 ⟨target, hl⟩
      rw [hentry]
      nofun

/-- Writing makes no directory either. -/
theorem IsWritable.keepsWays_of_withText (h : t.IsWritable location) (text : Text) :
    KeepsWays (t.withText location text) t := by
  refine ⟨(withText_current t location text).symm, fun l hl => ?_, fun l target => ?_⟩
  · rcases h.get?_withText_cases text l with heq | ⟨⟨_, hentry⟩, _, _⟩
    · rw [← heq, hl]
    · cases hl.symm.trans hentry
  · exact ((h.keepsWays_withText text).link l target).symm

theorem HoldsText.holdsFile (h : t.HoldsText location text) : t.HoldsFile location := by
  obtain ⟨executable, hentry⟩ := h
  exact ⟨_, _, hentry⟩

theorem IsWritable.holdsFile_withText_iff (h : t.IsWritable location) :
    (t.withText location text).HoldsFile other ↔ t.HoldsFile other ∨ other = location := by
  constructor
  · rintro ⟨old, executable, hentry⟩
    rcases h.get?_withText_cases text other with heq | ⟨_, _, hfile⟩
    · exact .inl ⟨old, executable, heq ▸ hentry⟩
    · exact hfile
  · rintro (⟨old, executable, hentry⟩ | rfl)
    · rcases h.get?_withText_cases text other with heq | ⟨htext, _, _⟩
      · exact ⟨old, executable, heq.trans hentry⟩
      · exact htext.holdsFile
    · exact (h.holdsText_withText text).holdsFile

theorem IsWritable.isRemovable_withText_iff (h : t.IsWritable location) :
    (t.withText location text).IsRemovable other ↔
      t.IsRemovable other ∨ other = location := by
  rw [IsRemovable, h.holdsFile_withText_iff, (h.keepsWays_withText text).holdsLink_iff,
    or_right_comm]
  exact Iff.rfl

/-- A text is kept as it is exactly if it is the one that is written. -/
theorem IsWritable.get?_withText_eq_iff (h : t.IsWritable location) :
    (t.withText location text).get? location = t.get? location ↔
      t.HoldsText location text := by
  constructor
  · intro heq
    obtain ⟨executable, hentry⟩ := h.holdsText_withText text
    exact ⟨executable, heq ▸ hentry⟩
  · rintro ⟨executable, hentry⟩
    rw [get?_withText, sameFile_self, if_pos rfl, touch_of_some hentry, hentry]
    rfl

/-- The location is no link, and what is there is nowhere else. -/
structure IsOwn (t : FileTree) (location : Location) : Prop where
  noLink : ¬t.HoldsLink location
  alone : ∀ other, t.sameFile location other = true → other = location

theorem isOwn_of_shared (h : t.shared = []) (hlink : ¬t.HoldsLink location) :
    t.IsOwn location := by
  refine ⟨hlink, fun other hother => ?_⟩
  rw [sameFile, h, List.any_nil, Bool.or_false] at hother
  exact beq_iff_eq.mp hother

theorem IsOwn.sameFile_eq_false (h : t.IsOwn location) (hne : other ≠ location) :
    t.sameFile location other = false :=
  Bool.eq_false_iff.mpr fun hsame => hne (h.alone other hsame)

/-- Then nothing else is changed by writing there. -/
theorem IsOwn.get?_withText_of_ne (h : t.IsOwn location) (hne : other ≠ location)
    (text : Text) : (t.withText location text).get? other = t.get? other :=
  get?_withText_of_not_sameFile (h.sameFile_eq_false hne) text

theorem IsOwn.of_keepsWays (h : t.IsOwn location) (hkept : KeepsWays t t')
    (hshared : t'.shared = t.shared) : t'.IsOwn location := by
  refine ⟨hkept.holdsLink_iff.not.mpr h.noLink, fun other hother => h.alone other ?_⟩
  rwa [sameFile, ← hshared]

/-! ## Writing and removing -/

variable {path root : Path} {name : Text} {d : Location}

theorem write_eq_ok_iff :
    t.write path text = .ok t' ↔
      ∃ location, t.locate path = .ok location ∧
        t.IsWritable location ∧ t' = t.withText location text := by
  rw [write, bind_eq_ok_iff]
  refine exists_congr fun location => and_congr_right fun _ => ?_
  rw [isWritable_iff]
  rcases entry_cases t location with hentry | hentry | ⟨old, executable, hentry⟩ |
    ⟨target, hentry⟩
  · simp [hentry, HoldsLink, pure, Except.pure, eq_comm]
  · simp [hentry, throw, throwThe, MonadExceptOf.throw]
  · simp [hentry, HoldsLink, pure, Except.pure, eq_comm]
  · simp [hentry, HoldsLink, throw, throwThe, MonadExceptOf.throw]

theorem read_of_holdsText (hlocate : t.locate path = .ok location)
    (h : t.HoldsText location text) : t.read path = .ok text := by
  obtain ⟨executable, hentry⟩ := h
  rw [read, lookup_eq_ok_iff.mpr ⟨location, hlocate, hentry⟩]
  rfl

/-- What has been written is read along the same path, wherever that leads. -/
theorem read_of_write (h : t.write path text = .ok t') : t'.read path = .ok text := by
  obtain ⟨location, hlocate, hwritable, rfl⟩ := write_eq_ok_iff.mp h
  exact read_of_holdsText ((hwritable.keepsWays_withText text).locate hlocate)
    (hwritable.holdsText_withText text)

theorem keepsWays_of_write (h : t.write path text = .ok t') : KeepsWays t t' := by
  obtain ⟨location, _, hwritable, rfl⟩ := write_eq_ok_iff.mp h
  exact hwritable.keepsWays_withText text

theorem exists_opens_of_write (hname : IsEntryName name)
    (h : t.write (root.join name) text = .ok t') : ∃ d, t.Opens root d := by
  obtain ⟨location, hlocate, _⟩ := write_eq_ok_iff.mp h
  obtain ⟨d, hopens, _⟩ := exists_opens_of_locate_join_name hname hlocate
  exact ⟨d, hopens⟩

/-- Removing takes away what is at one location. -/
theorem eq_erase_of_remove (h : t.remove path = .ok t') :
    ∃ location, t' = t.erase location := by
  obtain ⟨location, _, h⟩ := bind_eq_ok_iff.mp h
  split at h
  · cases h
  · exact ⟨location, (Except.ok.inj h).symm⟩
  · cases h

theorem get?_erase_cases (t : FileTree) (location other : Location) :
    (t.erase location).get? other = none ∨
      (t.erase location).get? other = t.get? other := by
  by_cases h : other = location
  · subst h
    cases other with
    | nil => exact .inr rfl
    | cons name rest => exact .inl (get?_erase_self (List.cons_ne_nil name rest))
  · exact .inr (get?_erase_of_ne h)

theorem HoldsLink.of_erase (h : (t.erase location).HoldsLink other) : t.HoldsLink other := by
  obtain ⟨target, hlink⟩ := h
  rcases get?_erase_cases t location other with hgone | hkept
  · cases hgone.symm.trans hlink
  · exact ⟨target, hkept ▸ hlink⟩

/-- The other locations of a file that is removed stay locations of one file. -/
theorem sameFile_erase (hlocation : location ≠ d) (hother : other ≠ d) :
    (t.erase d).sameFile location other = t.sameFile location other := by
  have hkept : ∀ (places : List Location) (l : Location), l ≠ d →
      (places.filter (· != d)).contains l = places.contains l := by
    intro places l hl
    rw [Bool.eq_iff_iff]
    simp [hl]
  rw [sameFile, sameFile, erase, List.any_map]
  simp only [Function.comp_def, hkept _ _ hlocation, hkept _ _ hother]

theorem sameFile_of_sameFile_erase (h : (t.erase d).sameFile location other = true) :
    t.sameFile location other = true := by
  rw [sameFile, erase, List.any_map, Bool.or_eq_true, List.any_eq_true] at h
  rw [sameFile, Bool.or_eq_true, List.any_eq_true]
  refine h.imp_right ?_
  rintro ⟨places, hplaces, hboth⟩
  simp only [Function.comp_apply, Bool.and_eq_true, List.contains_iff_mem, List.mem_filter] at hboth
  exact ⟨places, hplaces, by simp [hboth]⟩

theorem IsOwn.erase (h : t.IsOwn location) (d : Location) : (t.erase d).IsOwn location :=
  ⟨fun hlink => h.noLink hlink.of_erase,
    fun other hother => h.alone other (sameFile_of_sameFile_erase hother)⟩

theorem get?_erase_eq_some_iff (hne : location ≠ []) :
    (t.erase location).get? other = some entry ↔
      other ≠ location ∧ t.get? other = some entry := by
  by_cases hother : other = location
  · subst hother
    simp [get?_erase_self hne]
  · simp [get?_erase_of_ne hother, hother]

theorem KeepsWays.erase (h : KeepsWays t t') (hne : location ≠ []) :
    KeepsWays (t.erase location) (t'.erase location) := by
  refine ⟨h.current, fun l hl => ?_, fun l target => ?_⟩
  · rw [get?_erase_eq_some_iff hne] at hl ⊢
    exact ⟨hl.1, h.directory l hl.2⟩
  · rw [get?_erase_eq_some_iff hne, get?_erase_eq_some_iff hne, h.link]

/-- No way leads through a file. -/
theorem HoldsFile.keepsWays_erase (h : t.HoldsFile location) :
    KeepsWays t (t.erase location) := by
  have hne : location ≠ [] := IsWritable.ne_nil (.inr h)
  obtain ⟨text, executable, hfile⟩ := h
  refine ⟨rfl, fun l hl => ?_, fun l target => ?_⟩
  · refine (get?_erase_eq_some_iff hne).mpr ⟨?_, hl⟩
    rintro rfl
    cases hfile.symm.trans hl
  · rw [get?_erase_eq_some_iff hne, and_iff_right_iff_imp]
    rintro hl rfl
    cases hfile.symm.trans hl

theorem AddsNoLink.of_erase (t : FileTree) (location : Location) :
    AddsNoLink t (t.erase location) :=
  ⟨rfl, fun _ => HoldsLink.of_erase⟩

namespace Opens

variable (h : t.Opens root d) (hname : IsEntryName name)
include h hname

/-- A file is written right below a directory, unless a directory or a link is there. -/
theorem write_join_name_eq_ok_iff (hlink : ¬t.HoldsLink (name :: d)) :
    t.write (root.join name) text = .ok t' ↔
      t.get? (name :: d) ≠ some .directory ∧ t' = t.withText (name :: d) text := by
  rw [write_eq_ok_iff, h.locate_join_name hname hlink]
  simp only [Except.ok.injEq, exists_eq_left', isWritable_iff, hlink, not_false_eq_true, and_true]

/-- A path below a directory finds what is right below it, but for links. -/
theorem lookup_join_name (hlink : ¬t.HoldsLink (name :: d)) :
    t.lookup (root.join name) =
      match t.get? (name :: d) with
      | some entry => .ok entry
      | none => .error .notFound := by
  rw [lookup, h.locate_join_name hname hlink]
  rfl

/-- What is removed is right below the directory, links as well as files. -/
theorem remove_join_name :
    t.remove (root.join name) =
      match t.get? (name :: d) with
      | some .directory => .error .isDirectory
      | some _ => .ok (t.erase (name :: d))
      | none => .error .notFound := by
  rw [remove, (locateLast_join_name_eq_ok_iff hname).mpr ⟨d, h, rfl⟩]
  rfl

theorem remove_join_name_eq_ok_iff :
    t.remove (root.join name) = .ok t' ↔
      t.IsRemovable (name :: d) ∧ t' = t.erase (name :: d) := by
  rw [h.remove_join_name hname, IsRemovable]
  rcases entry_cases t (name :: d) with hentry | hentry | ⟨old, executable, hentry⟩ |
    ⟨target, hentry⟩
  · simp [hentry, HoldsFile, HoldsLink]
  · simp [hentry, HoldsFile, HoldsLink]
  · simp [hentry, HoldsFile, eq_comm]
  · simp [hentry, HoldsLink, eq_comm]

theorem remove_join_name_eq_notFound_iff :
    t.remove (root.join name) = .error .notFound ↔ t.get? (name :: d) = none := by
  rw [h.remove_join_name hname]
  rcases entry_cases t (name :: d) with hentry | hentry | ⟨old, executable, hentry⟩ |
    ⟨target, hentry⟩
  · simp [hentry]
  · have hcause : Failure.isDirectory ≠ .notFound := by decide
    simp [hentry, hcause]
  · simp [hentry]
  · simp [hentry]

/-- What cannot be removed is a directory or not there. -/
theorem not_isRemovable_of_remove_eq_error {cause : Failure}
    (hremove : t.remove (root.join name) = .error cause) : ¬t.IsRemovable (name :: d) := by
  intro hthere
  rw [(h.remove_join_name_eq_ok_iff hname).mpr ⟨hthere, rfl⟩] at hremove
  cases hremove

end Opens

/-- What is seen as a file below a directory is one, or a link. -/
theorem exists_opens_of_isFile (hname : IsEntryName name)
    (hfile : t.isFile (root.join name) = true) :
    ∃ d, t.Opens root d ∧ t.IsRemovable (name :: d) := by
  rw [isFile] at hfile
  split at hfile
  next text executable hlookup =>
    obtain ⟨location, hlocate, hentry⟩ := lookup_eq_ok_iff.mp hlookup
    obtain ⟨d, hopens, hlink | rfl⟩ := exists_opens_of_locate_join_name hname hlocate
    · exact ⟨d, hopens, .inr hlink⟩
    · exact ⟨d, hopens, .inl ⟨text, executable, hentry⟩⟩
  next => cases hfile

/-! ## Directories -/

/-- The second tree has the entries of the first one, and perhaps some more
directories. -/
structure AddsDirectories (t t' : FileTree) : Prop where
  current : t'.current = t.current
  shared : t'.shared = t.shared
  entries : ∀ l, t'.get? l = t.get? l ∨ t.get? l = none ∧ t'.get? l = some .directory

namespace AddsDirectories

theorem refl (t : FileTree) : AddsDirectories t t :=
  ⟨rfl, rfl, fun _ => .inl rfl⟩

theorem trans (h : AddsDirectories t t') (h' : AddsDirectories t' u) :
    AddsDirectories t u := by
  refine ⟨h'.current.trans h.current, h'.shared.trans h.shared, fun l => ?_⟩
  rcases h.entries l with heq | ⟨hnone, hdirectory⟩
  · rw [← heq]
    exact h'.entries l
  · rcases h'.entries l with heq' | ⟨hnone', _⟩
    · exact .inr ⟨hnone, heq'.trans hdirectory⟩
    · cases hdirectory.symm.trans hnone'

variable (h : AddsDirectories t t')
include h

theorem keepsWays : KeepsWays t t' := by
  refine ⟨h.current, fun l hl => ?_, fun l target => ?_⟩
  · rcases h.entries l with heq | ⟨_, hdirectory⟩
    · rw [heq, hl]
    · exact hdirectory
  · rcases h.entries l with heq | ⟨hnone, hdirectory⟩
    · rw [heq]
    · simp [hnone, hdirectory]

theorem holdsFile (hfile : t.HoldsFile location) : t'.HoldsFile location := by
  obtain ⟨text, executable, hentry⟩ := hfile
  rcases h.entries location with heq | ⟨hnone, _⟩
  · exact ⟨text, executable, heq.trans hentry⟩
  · cases hnone.symm.trans hentry

theorem isRemovable_iff : t'.IsRemovable location ↔ t.IsRemovable location := by
  rcases h.entries location with heq | ⟨hnone, hdirectory⟩
  · exact isRemovable_congr heq
  · simp [IsRemovable, HoldsFile, HoldsLink, hnone, hdirectory]

/-- A place that holds no directory afterwards is as it was. -/
theorem get?_eq (hfree : t'.get? location ≠ some .directory) :
    t'.get? location = t.get? location := by
  rcases h.entries location with heq | ⟨_, hdirectory⟩
  · exact heq
  · exact absurd hdirectory hfree

end AddsDirectories

/-- Names lead through a location; the last name comes first. -/
def LeadThrough (t : FileTree) (start : Location) (names : List Text)
    (location : Location) : Prop :=
  ∃ before, before <:+ names ∧
    ∃ left, t.walk maxLinks start before.reverse = .ok (location, left)

/-- The directories that the second tree has beyond the first one are on the way of the
names. -/
structure AddsDirectoriesAlong (start : Location) (names : List Text) (t t' : FileTree) :
    Prop extends AddsDirectories t t' where
  along : ∀ l, t'.get? l ≠ t.get? l → t'.LeadThrough start names l

section AddsDirectoriesAlong

variable {start here : Location} {before names : List Text} {left : Nat}

theorem LeadThrough.of_keepsWays (h : t.LeadThrough start names location)
    (hkept : KeepsWays t t') : t'.LeadThrough start names location := by
  obtain ⟨before, hbefore, left, hwalk⟩ := h
  exact ⟨before, hbefore, left, walk_eq_ok_iff.mpr (hkept.leads (walk_eq_ok_iff.mp hwalk))⟩

theorem AddsDirectoriesAlong.refl (t : FileTree) : AddsDirectoriesAlong start names t t :=
  ⟨.refl t, fun _ hne => absurd rfl hne⟩

theorem AddsDirectoriesAlong.of_suffix (h : AddsDirectoriesAlong start before t t')
    (hsuffix : before <:+ names) : AddsDirectoriesAlong start names t t' := by
  refine ⟨h.toAddsDirectories, fun l hne => ?_⟩
  obtain ⟨front, hfront, hwalk⟩ := h.along l hne
  exact ⟨front, hfront.trans hsuffix, hwalk⟩

theorem AddsDirectoriesAlong.trans (h : AddsDirectoriesAlong start names t t')
    (h' : AddsDirectoriesAlong start names t' u) : AddsDirectoriesAlong start names t u := by
  refine ⟨h.toAddsDirectories.trans h'.toAddsDirectories, fun l hne => ?_⟩
  by_cases hlater : u.get? l = t'.get? l
  · exact (h.along l (hlater ▸ hne)).of_keepsWays h'.keepsWays
  · exact h'.along l hlater

theorem addsDirectories_set (h : t.get? location = none) :
    AddsDirectories t (t.set location .directory) := by
  refine ⟨rfl, rfl, fun l => ?_⟩
  by_cases hl : l = location
  · subst hl
    have hne : l ≠ [] := by
      rintro rfl
      cases h
    exact .inr ⟨h, get?_set_self hne⟩
  · exact .inl (get?_set_of_ne hl)

theorem walkToLast_cons_eq_ok_iff {name : Text} :
    t.walkToLast start (name :: before) = .ok location ↔
      ∃ here left, t.Leads maxLinks start before.reverse here left ∧
        t.enter here name = .ok location := by
  simp only [← walk_eq_ok_iff]
  rw [walkToLast, bind_eq_ok_iff, Prod.exists]

/-- Where the names lead before the last link is followed, something is there already if
they lead to a directory. -/
theorem makeDirectory_eq_fileExists {name : Text}
    (h : t.Leads maxLinks start (before.reverse ++ [name]) location left)
    (hend : t.get? location = some .directory) :
    t.makeDirectory start (name :: before) = .error .fileExists := by
  obtain ⟨here, between, hleads, hlast⟩ := leads_append_iff.mp h
  obtain ⟨there, henter, hsome⟩ :
      ∃ there, t.enter here name = .ok there ∧ (t.get? there).isSome = true := by
    cases hlast with
    | on henter _ hdone =>
        cases hdone
        exact ⟨_, henter, by rw [hend]; rfl⟩
    | link henter hlink _ => exact ⟨_, henter, by rw [hlink]; rfl⟩
  rw [makeDirectory, walkToLast_cons_eq_ok_iff.mpr ⟨here, between, hleads, henter⟩]
  simp [bind, Except.bind, hsome, throw, throwThe, MonadExceptOf.throw]

/-- The directory that is made is at the end of the way. -/
theorem addsDirectoriesAlong_of_makeDirectory
    (h : t.makeDirectory start names = .ok t') : AddsDirectoriesAlong start names t t' := by
  obtain ⟨location, hlast, h⟩ := bind_eq_ok_iff.mp h
  split at h
  · cases h
  next hfree =>
    rw [Option.not_isSome_iff_eq_none] at hfree
    obtain rfl := Except.ok.inj h
    have hadds := addsDirectories_set hfree
    refine ⟨hadds, fun l hne => ?_⟩
    obtain rfl : l = location := by
      by_contra hother
      exact hne (get?_set_of_ne hother)
    have hmade : (t.set l .directory).get? l = some .directory :=
      ((hadds.entries l).resolve_left hne).2
    refine ⟨names, List.suffix_rfl, ?_⟩
    simp only [walk_eq_ok_iff]
    cases names with
    | nil =>
        obtain rfl := Except.ok.inj hlast
        exact ⟨maxLinks, .done⟩
    | cons name before =>
        obtain ⟨here, left, hleads, henter⟩ := walkToLast_cons_eq_ok_iff.mp hlast
        refine ⟨left, ?_⟩
        rw [List.reverse_cons]
        apply (hadds.keepsWays.leads hleads).append
        exact .on (hadds.keepsWays.enter henter) (not_holdsLink_of_directory hmade) .done

theorem addsDirectoriesAlong_makeDirectories (t : FileTree) (start : Location)
    (names : List Text) :
    AddsDirectoriesAlong start names t (t.makeDirectories start names).1 := by
  induction names generalizing t with
  | nil => exact .refl t
  | cons name before ih =>
      rw [makeDirectories]
      split
      next made hmade => exact addsDirectoriesAlong_of_makeDirectory hmade
      next =>
        split
        · have hparents := (ih t).of_suffix (List.suffix_cons name before)
          split
          next made _ hmade => rwa [hmade] at hparents
          next made hmade =>
            rw [hmade] at hparents
            split
            next whole hwhole =>
              exact hparents.trans (addsDirectoriesAlong_of_makeDirectory hwhole)
            -- Whether the directory is there already decides the outcome only.
            next => beta_reduce; split <;> exact hparents
        · beta_reduce
          split <;> exact .refl t

end AddsDirectoriesAlong

/-- The path leads through a location, which may be its end. -/
def LeadsThrough (t : FileTree) (path : Path) (location : Location) : Prop :=
  ∃ front, front <+: path.names ∧
    ∃ left, t.walk maxLinks (t.startOf path) front = .ok (location, left)

theorem addsDirectories_makePath (t : FileTree) (path : Path) :
    AddsDirectories t (t.makePath path).1 := by
  rw [makePath]
  split
  · exact .refl t
  · exact (addsDirectoriesAlong_makeDirectories t _ _).toAddsDirectories

/-- Making a path changes nothing but on its way. -/
theorem leadsThrough_makePath (h : (t.makePath path).1.get? location ≠ t.get? location) :
    (t.makePath path).1.LeadsThrough path location := by
  have hstart := (addsDirectories_makePath t path).keepsWays.startOf_eq path
  rw [LeadsThrough, hstart]
  rw [makePath] at h ⊢
  split at h
  · exact absurd rfl h
  next hzero =>
    rw [if_neg hzero]
    obtain ⟨before, hbefore, hwalk⟩ :=
      (addsDirectoriesAlong_makeDirectories t _ _).along location h
    exact ⟨before.reverse, List.reverse_suffix.mp (by rwa [List.reverse_reverse]), hwalk⟩

/-- A path that leads to a directory needs none made. -/
theorem makePath_of_opens (h : t.Opens root d) : t.makePath root = (t, .ok ()) := by
  have hzero : root.contains '\x00' = false := by simpa using h.noZero
  obtain ⟨left, hwalk⟩ := h.walk
  rw [makePath, hzero, if_neg Bool.false_ne_true]
  cases hnames : root.names.reverse with
  | nil => rfl
  | cons name before =>
      have hwalk : t.walk maxLinks (t.startOf root) (before.reverse ++ [name]) =
          .ok (d, left) := by
        rw [← List.reverse_cons, ← hnames, List.reverse_reverse]
        exact hwalk
      have hthere := makeDirectory_eq_fileExists (walk_eq_ok_iff.mp hwalk) h.directory
      have hcause : Failure.fileExists ≠ .notFound := by decide
      rw [makeDirectories, hthere]
      simp [hcause, hwalk, h.directory]

/-! ## Sequences of changes -/

/-- A change by one operation. -/
inductive Change where
  | write (path : Path) (text : Text)
  | remove (path : Path)
  | makePath (path : Path)

namespace Change

/-- The tree after a change; an operation that fails may have made directories. -/
def apply : FileTree → Change → FileTree
  | t, .write path text => (t.write path text).toOption.getD t
  | t, .remove path => (t.remove path).toOption.getD t
  | t, .makePath path => (t.makePath path).1

/-- None of the changes writes to the location when its turn comes. -/
def Avoid (location : Location) : FileTree → List Change → Prop
  | _, [] => True
  | t, change :: changes =>
    (∀ path text, change = .write path text → t.locate path ≠ .ok location) ∧
      Avoid location (apply t change) changes

theorem apply_addsNoLink (t : FileTree) (change : Change) : AddsNoLink t (apply t change) := by
  cases change with
  | write path text =>
      rw [apply]
      cases h : t.write path text with
      | error cause => exact .refl t
      | ok t' => exact .of_keepsWays (keepsWays_of_write h)
  | remove path =>
      rw [apply]
      cases h : t.remove path with
      | error cause => exact .refl t
      | ok t' =>
          obtain ⟨location, rfl⟩ := eq_erase_of_remove h
          exact .of_erase t location
  | makePath path => exact .of_keepsWays (addsDirectories_makePath t path).keepsWays

theorem foldl_apply_addsNoLink (t : FileTree) (changes : List Change) :
    AddsNoLink t (changes.foldl apply t) := by
  induction changes generalizing t with
  | nil => exact .refl t
  | cons change changes ih => exact (apply_addsNoLink t change).trans (ih _)

/-- Only a write to a location puts a file there, and no change makes a link. -/
theorem apply_keeps_free {change : Change}
    (hfree : ¬t.IsRemovable location)
    (hother : ∀ path text, change = .write path text → t.locate path ≠ .ok location) :
    ¬(apply t change).IsRemovable location := by
  cases change with
  | write path text =>
      rw [apply]
      cases h : t.write path text with
      | error cause => exact hfree
      | ok t' =>
          obtain ⟨there, hlocate, hwritable, rfl⟩ := write_eq_ok_iff.mp h
          intro hthere
          rcases hwritable.isRemovable_withText_iff.mp hthere with hold | rfl
          · exact hfree hold
          · exact hother path text rfl hlocate
  | remove path =>
      rw [apply]
      cases h : t.remove path with
      | error cause => exact hfree
      | ok t' =>
          obtain ⟨there, rfl⟩ := eq_erase_of_remove h
          rcases get?_erase_cases t there location with hgone | hkept
          · exact not_isRemovable_of_none hgone
          · exact (isRemovable_congr hkept).not.mpr hfree
  | makePath path => exact (addsDirectories_makePath t path).isRemovable_iff.not.mpr hfree

/-- Where there is no file and no link, there is none after any changes without a write to
this location. -/
theorem foldl_apply_keeps_free {changes : List Change}
    (hfree : ¬t.IsRemovable location) (havoid : Avoid location t changes) :
    ¬(changes.foldl apply t).IsRemovable location := by
  induction changes generalizing t with
  | nil => exact hfree
  | cons change changes ih => exact ih (apply_keeps_free hfree havoid.1) havoid.2

end Change

end FileTree
end DevSpecs
