import DevSpecs.Proofs.Files.Places
import DevSpecs.Proofs.Outcomes

/-!
# Ways through a tree

A path is followed name by name, each in the directory that the names before it lead
to, and at a symbolic link the way goes on along the link's target.  A way stays open
while the directories and the links of the tree stay what they are.  Without links on
it, it leads to the place of its path.

A name joined to a path is looked up in the directory that the path leads to.
-/

namespace DevSpecs
namespace FileTree

variable {t t' u : FileTree} {here there location : Location} {name : Text}
  {names more : List Text} {links left : Nat}

/-! ## Single names -/

/-- There is a symbolic link at the location. -/
def HoldsLink (t : FileTree) (location : Location) : Prop :=
  ∃ target, t.get? location = some (.link target)

instance (t : FileTree) (location : Location) : Decidable (t.HoldsLink location) :=
  match h : t.get? location with
  | some (.link target) => isTrue ⟨target, h⟩
  | some (.file _ _) | some .directory | none =>
    isFalse fun ⟨_, hlink⟩ => nomatch h.symm.trans hlink

theorem not_holdsLink_of_directory (h : t.get? location = some .directory) :
    ¬t.HoldsLink location := by
  rintro ⟨target, hlink⟩
  cases h.symm.trans hlink

/-- A name is entered exactly in a directory, and if it is not too long. -/
theorem enter_eq_ok_iff :
    t.enter here name = .ok there ↔
      t.get? here = some .directory ∧
        (name ≠ ['.'] → name ≠ ['.', '.'] → Utf8.byteCount name ≤ maxName) ∧
        there = descend here name := by
  rw [enter]
  split
  next h => simp [h]
  next h => simp [h]
  next h => simp [h]
  next h =>
    by_cases hdot : name = ['.']
    · simp [h, hdot, descend, @eq_comm _ here]
    · by_cases hdots : name = ['.', '.']
      · simp [h, hdots, descend, @eq_comm _ here.tail]
      · rw [descend_of_ne hdot hdots]
        by_cases hlong : maxName < Utf8.byteCount name
        · simp [h, hdot, hdots, hlong, Nat.not_le.mpr hlong]
        · simp [h, hdot, hdots, hlong, Nat.not_lt.mp hlong, @eq_comm _ (name :: here)]

/-! ## Following names -/

/-- The names lead from one location to another; of the links that may be followed, some
are left at the end. -/
inductive Leads (t : FileTree) : Nat → Location → List Text → Location → Nat → Prop
  | done {links : Nat} {here : Location} : Leads t links here [] here links
  | on {links left : Nat} {here there location : Location} {name : Text} {names : List Text}
      (henter : t.enter here name = .ok there) (hlink : ¬t.HoldsLink there)
      (h : Leads t links there names location left) :
      Leads t links here (name :: names) location left
  | link {links left : Nat} {here there location : Location} {name : Text} {names : List Text}
      {target : Path} (henter : t.enter here name = .ok there)
      (hlink : t.get? there = some (.link target))
      (h : Leads t links (startIn here target) (steps target ++ names) location left) :
      Leads t (links + 1) here (name :: names) location left

theorem walkWith_eq_ok_iff
    {onward : Location → List Text → Except Failure (Location × Nat)}
    (honward : ∀ {here names}, onward here names = .ok (location, left) ↔
      ∃ fewer, links = fewer + 1 ∧ t.Leads fewer here names location left) :
    t.walkWith links onward here names = .ok (location, left) ↔
      t.Leads links here names location left := by
  induction names generalizing here with
  | nil =>
      constructor
      · rintro ⟨⟩
        exact .done
      · rintro ⟨⟩
        rfl
  | cons name names ih =>
      rw [walkWith, bind_eq_ok_iff]
      constructor
      · rintro ⟨there, henter, h⟩
        split at h
        next target hlink =>
          obtain ⟨fewer, rfl, hleads⟩ := honward.mp h
          exact .link henter hlink hleads
        next hother =>
          exact .on henter (fun ⟨target, hlink⟩ => hother target hlink) (ih.mp h)
      · intro h
        cases h with
        | on henter hlink h =>
            refine ⟨_, henter, ?_⟩
            split
            next target hentry => exact absurd ⟨target, hentry⟩ hlink
            next => exact ih.mpr h
        | link henter hlink h =>
            refine ⟨_, henter, ?_⟩
            rw [hlink]
            exact honward.mpr ⟨_, rfl, h⟩

/-- Walking along names is following them. -/
theorem walk_eq_ok_iff :
    t.walk links here names = .ok (location, left) ↔
      t.Leads links here names location left := by
  induction links generalizing here names with
  | zero => exact walkWith_eq_ok_iff (by simp)
  | succ links ih =>
      apply walkWith_eq_ok_iff
      intro here names
      rw [ih]
      simp

/-! ## Ways in parts -/

theorem Leads.append {left' : Nat} (h : t.Leads links here names there left)
    (hmore : t.Leads left there more location left') :
    t.Leads links here (names ++ more) location left' := by
  induction h with
  | done => exact hmore
  | on henter hlink _ ih => exact .on henter hlink (ih hmore)
  | link henter hlink _ ih =>
      have hmore := ih hmore
      rw [List.append_assoc] at hmore
      exact .link henter hlink hmore

theorem leads_append_iff :
    t.Leads links here (names ++ more) location left ↔
      ∃ there between, t.Leads links here names there between ∧
        t.Leads between there more location left := by
  constructor
  · intro h
    generalize hall : names ++ more = all at h
    induction h generalizing names with
    | done =>
        obtain ⟨rfl, rfl⟩ := List.append_eq_nil_iff.mp hall
        exact ⟨_, _, .done, .done⟩
    | on henter hlink h ih =>
        rcases List.append_eq_cons_iff.mp hall with ⟨rfl, rfl⟩ | ⟨names, rfl, rfl⟩
        · exact ⟨_, _, .done, .on henter hlink h⟩
        · obtain ⟨there, between, hfirst, hmore⟩ := ih rfl
          exact ⟨there, between, .on henter hlink hfirst, hmore⟩
    | link henter hlink h ih =>
        rcases List.append_eq_cons_iff.mp hall with ⟨rfl, rfl⟩ | ⟨names, rfl, rfl⟩
        · exact ⟨_, _, .done, .link henter hlink h⟩
        · obtain ⟨there, between, hfirst, hmore⟩ := ih (List.append_assoc _ _ _)
          exact ⟨there, between, .link henter hlink hfirst, hmore⟩
  · rintro ⟨there, between, hfirst, hmore⟩
    exact hfirst.append hmore

theorem leads_cons_iff :
    t.Leads links here (name :: names) location left ↔
      ∃ there between, t.Leads links here [name] there between ∧
        t.Leads between there names location left :=
  show t.Leads links here ([name] ++ names) location left ↔ _ from leads_append_iff

theorem Leads.exists_enter (h : t.Leads links here (name :: names) location left) :
    ∃ there, t.enter here name = .ok there := by
  cases h with
  | on henter _ _ => exact ⟨_, henter⟩
  | link henter _ _ => exact ⟨_, henter⟩

theorem Leads.directory_of_cons (h : t.Leads links here (name :: names) location left) :
    t.get? here = some .directory := by
  obtain ⟨there, henter⟩ := h.exists_enter
  exact (enter_eq_ok_iff.mp henter).1

/-- A way to a directory starts from one. -/
theorem Leads.directory_start (h : t.Leads links here names location left)
    (hend : t.get? location = some .directory) : t.get? here = some .directory := by
  cases names with
  | nil =>
      cases h
      exact hend
  | cons name names => exact h.directory_of_cons

/-! ## Single dots -/

theorem enter_dot (h : t.enter here ['.'] = .ok there) :
    there = here ∧ t.get? here = some .directory := by
  obtain ⟨hdirectory, _, rfl⟩ := enter_eq_ok_iff.mp h
  exact ⟨rfl, hdirectory⟩

theorem Leads.of_dot (h : t.Leads links here (['.'] :: names) location left) :
    t.Leads links here names location left := by
  cases h with
  | on henter _ h =>
      obtain ⟨rfl, _⟩ := enter_dot henter
      exact h
  | link henter hlink _ =>
      obtain ⟨rfl, hdirectory⟩ := enter_dot henter
      exact absurd ⟨_, hlink⟩ (not_holdsLink_of_directory hdirectory)

theorem Leads.dot (h : t.Leads links here names location left)
    (hdirectory : t.get? here = some .directory) :
    t.Leads links here (['.'] :: names) location left :=
  .on (enter_eq_ok_iff.mpr ⟨hdirectory, fun hne => absurd rfl hne, rfl⟩)
    (not_holdsLink_of_directory hdirectory) h

/-- On a way to a directory single dots make no difference. -/
theorem leads_filter_iff (hend : t.get? location = some .directory) :
    t.Leads links here (names.filter (· != ['.'])) location left ↔
      t.Leads links here names location left := by
  induction names generalizing links here with
  | nil => rfl
  | cons name names ih =>
      by_cases hdot : name = ['.']
      · subst hdot
        rw [List.filter_cons_of_neg (by decide), ih]
        exact ⟨fun h => h.dot (h.directory_start hend), Leads.of_dot⟩
      · rw [List.filter_cons_of_pos (by simpa using hdot)]
        calc t.Leads links here (name :: names.filter (· != ['.'])) location left
          _ ↔ ∃ there between, t.Leads links here [name] there between ∧
                t.Leads between there (names.filter (· != ['.'])) location left :=
              leads_cons_iff
          _ ↔ ∃ there between, t.Leads links here [name] there between ∧
                t.Leads between there names location left := by
              simp only [ih]
          _ ↔ t.Leads links here (name :: names) location left := leads_cons_iff.symm

/-! ## Ways without links -/

/-- There is no link at any place that the names lead through. -/
def IsStraight (t : FileTree) (start : Location) (names : List Text) : Prop :=
  ∀ front, front <+: names → ¬t.HoldsLink (front.foldl descend start)

theorem IsStraight.tail (h : t.IsStraight here (name :: names)) :
    t.IsStraight (descend here name) names :=
  fun front hfront => h (name :: front) (List.cons_prefix_cons.mpr ⟨rfl, hfront⟩)

/-- A way without links leads to the place that the names mean. -/
theorem Leads.foldl_descend_eq (h : t.Leads links here names location left)
    (hstraight : t.IsStraight here names) : names.foldl descend here = location := by
  induction h with
  | done => rfl
  | on henter _ _ ih =>
      obtain ⟨_, _, rfl⟩ := enter_eq_ok_iff.mp henter
      exact ih hstraight.tail
  | link henter hlink _ _ =>
      obtain ⟨_, _, rfl⟩ := enter_eq_ok_iff.mp henter
      exact absurd ⟨_, hlink⟩ (hstraight [_] (List.cons_prefix_cons.mpr ⟨rfl, List.nil_prefix⟩))

theorem not_holdsLink_of_entries (h : ∀ entry ∈ t.entries, ¬t.HoldsLink entry.1)
    (location : Location) : ¬t.HoldsLink location := by
  rintro ⟨target, hlink⟩
  cases location with
  | nil => cases hlink
  | cons name location =>
      obtain ⟨before, after, hentries, _⟩ := List.lookup_eq_some_iff.mp hlink
      exact h (name :: location, .link target) (by rw [hentries]; simp) ⟨target, hlink⟩

/-! ## Ways that stay open -/

/-- The directories of the first tree are directories of the second one, and both have the
same links. -/
structure KeepsWays (t t' : FileTree) : Prop where
  current : t'.current = t.current
  directory : ∀ l, t.get? l = some .directory → t'.get? l = some .directory
  link : ∀ l target, t'.get? l = some (.link target) ↔ t.get? l = some (.link target)

namespace KeepsWays

theorem trans (h : KeepsWays t t') (h' : KeepsWays t' u) : KeepsWays t u :=
  ⟨h'.current.trans h.current, fun l hl => h'.directory l (h.directory l hl),
    fun l target => (h'.link l target).trans (h.link l target)⟩

variable (h : KeepsWays t t')
include h

theorem holdsLink_iff : t'.HoldsLink location ↔ t.HoldsLink location :=
  exists_congr fun target => h.link location target

theorem startOf_eq (path : Path) : t'.startOf path = t.startOf path := by
  rw [startOf, startOf, h.current]

theorem enter (henter : t.enter here name = .ok there) : t'.enter here name = .ok there := by
  obtain ⟨hdirectory, hshort, rfl⟩ := enter_eq_ok_iff.mp henter
  exact enter_eq_ok_iff.mpr ⟨h.directory here hdirectory, hshort, rfl⟩

theorem leads (hleads : t.Leads links here names location left) :
    t'.Leads links here names location left := by
  induction hleads with
  | done => exact .done
  | on henter hlink _ ih => exact .on (h.enter henter) (h.holdsLink_iff.not.mpr hlink) ih
  | link henter hlink _ ih => exact .link (h.enter henter) ((h.link _ _).mpr hlink) ih

end KeepsWays

/-- The second tree has no links but those of the first one. -/
structure AddsNoLink (t t' : FileTree) : Prop where
  current : t'.current = t.current
  link : ∀ l, t'.HoldsLink l → t.HoldsLink l

namespace AddsNoLink

theorem refl (t : FileTree) : AddsNoLink t t :=
  ⟨rfl, fun _ => id⟩

theorem trans (h : AddsNoLink t t') (h' : AddsNoLink t' u) : AddsNoLink t u :=
  ⟨h'.current.trans h.current, fun l hl => h.link l (h'.link l hl)⟩

theorem of_keepsWays (h : KeepsWays t t') : AddsNoLink t t' :=
  ⟨h.current, fun _ => h.holdsLink_iff.mp⟩

theorem isStraight (h : AddsNoLink t t') (hstraight : t.IsStraight here names) :
    t'.IsStraight here names :=
  fun front hfront hlink => hstraight front hfront (h.link _ hlink)

end AddsNoLink

/-! ## Paths -/

theorem checkPath_eq_ok_iff {path : Path} :
    checkPath path = .ok () ↔ path ≠ [] ∧ '\x00' ∉ path := by
  rw [checkPath]
  by_cases hnil : path = []
  · simp [hnil]
  · by_cases hzero : '\x00' ∈ path
    · simp [hnil, hzero]
    · simp [hnil, hzero]

theorem locate_eq_ok_iff {path : Path} :
    t.locate path = .ok location ↔
      checkPath path = .ok () ∧
        ∃ left, t.Leads maxLinks (t.startOf path) (steps path) location left := by
  have hwalk : (t.walk maxLinks (t.startOf path) (steps path) >>= fun r => pure r.1) =
      .ok location ↔ ∃ left, t.Leads maxLinks (t.startOf path) (steps path) location left := by
    simp only [← walk_eq_ok_iff]
    cases t.walk maxLinks (t.startOf path) (steps path) with
    | error cause => simp [bind, Except.bind]
    | ok r => simp [bind, Except.bind, pure, Except.pure, Prod.ext_iff]
  rw [← hwalk]
  exact check_bind_eq_ok_iff

theorem locateLast_eq_ok_iff {path : Path} {before : List Text}
    (hsteps : steps path = before ++ [name]) :
    t.locateLast path = .ok location ↔
      checkPath path = .ok () ∧
        ∃ there left, t.Leads maxLinks (t.startOf path) before there left ∧
          t.enter there name = .ok location := by
  have hlast : t.walkToLast (t.startOf path) (steps path).reverse = .ok location ↔
      ∃ there left, t.Leads maxLinks (t.startOf path) before there left ∧
        t.enter there name = .ok location := by
    simp only [← walk_eq_ok_iff]
    rw [hsteps, List.reverse_append, List.reverse_singleton, List.singleton_append,
      walkToLast, List.reverse_reverse, bind_eq_ok_iff, Prod.exists]
  rw [← hlast]
  exact check_bind_eq_ok_iff

theorem lookup_eq_ok_iff {path : Path} {entry : Entry} :
    t.lookup path = .ok entry ↔
      ∃ location, t.locate path = .ok location ∧ t.get? location = some entry := by
  rw [lookup, bind_eq_ok_iff]
  refine exists_congr fun location => and_congr_right fun _ => ?_
  cases t.get? location with
  | none => exact iff_of_false nofun nofun
  | some found => exact Except.ok.injEq found entry ▸ Option.some_inj.symm

theorem KeepsWays.locate {path : Path} (h : KeepsWays t t')
    (hlocate : t.locate path = .ok location) : t'.locate path = .ok location := by
  obtain ⟨hpath, left, hleads⟩ := locate_eq_ok_iff.mp hlocate
  refine locate_eq_ok_iff.mpr ⟨hpath, left, ?_⟩
  rw [h.startOf_eq]
  exact h.leads hleads

/-! ## Names in a directory -/

/-- The path leads to the directory; the empty path leads to the current one. -/
structure Opens (t : FileTree) (path : Path) (directory : Location) : Prop where
  noZero : '\x00' ∉ path
  walk : ∃ left, t.walk maxLinks (t.startOf path) path.names = .ok (directory, left)
  directory : t.get? directory = some .directory

namespace Opens

variable {path root : Path} {d d' : Location}

theorem unique (h : t.Opens path d) (h' : t.Opens path d') : d = d' := by
  obtain ⟨left, hwalk⟩ := h.walk
  obtain ⟨left', hwalk'⟩ := h'.walk
  rw [hwalk] at hwalk'
  exact congrArg Prod.fst (Except.ok.inj hwalk')

theorem of_keepsWays (h : t.Opens path d) (hkept : KeepsWays t t') : t'.Opens path d := by
  obtain ⟨left, hwalk⟩ := h.walk
  refine ⟨h.noZero, ⟨left, ?_⟩, hkept.directory d h.directory⟩
  rw [hkept.startOf_eq]
  exact walk_eq_ok_iff.mpr (hkept.leads (walk_eq_ok_iff.mp hwalk))

/-- A path without links on it leads to its place. -/
theorem eq_place (h : t.Opens path d) (hstraight : t.IsStraight (t.startOf path) path.names) :
    d = t.place path := by
  obtain ⟨left, hwalk⟩ := h.walk
  exact ((walk_eq_ok_iff.mp hwalk).foldl_descend_eq hstraight).symm

end Opens

/-- Where no link has been on a path, there is none, and the path leads to its place. -/
theorem AddsNoLink.eq_place {path : Path} {d : Location} (h : AddsNoLink t t')
    (hstraight : t.IsStraight (t.startOf path) path.names) (hopens : t'.Opens path d) :
    d = t.place path := by
  have hstart : t'.startOf path = t.startOf path := by rw [startOf, startOf, h.current]
  have hplace : t'.place path = t.place path := by rw [place, place, hstart]
  rw [← hplace]
  apply hopens.eq_place
  rw [hstart]
  exact h.isStraight hstraight

variable {root : Path}

/-- The directory of a name that is joined to a path is the one that the path leads to. -/
theorem leads_pieces_iff (hend : t.get? location = some .directory) :
    t.Leads links here (root.pieces.filter (!·.isEmpty)) location left ↔
      t.walk links here root.names = .ok (location, left) := by
  rw [walk_eq_ok_iff, Path.names_eq_filter_pieces, leads_filter_iff hend]

theorem checkPath_join_name_iff (h : IsEntryName name) :
    checkPath (root.join name) = .ok () ↔ '\x00' ∉ root := by
  have habsolute := Path.isAbsolute_of_isName h.isName
  have hne : root.join name ≠ [] := by
    obtain ⟨c, hc⟩ := List.exists_mem_of_ne_nil name h.isName.1
    have hslash : c ≠ '/' := fun hslash => h.isName.2 (hslash ▸ hc)
    exact List.ne_nil_of_mem ((Path.mem_join hslash root habsolute).mpr (.inr hc))
  rw [checkPath_eq_ok_iff, and_iff_right hne, Path.mem_join (by decide) root habsolute,
    or_iff_left h.noZero]

theorem enter_eq_ok_iff_of_isEntryName (h : IsEntryName name) :
    t.enter here name = .ok there ↔
      t.get? here = some .directory ∧ there = name :: here := by
  rw [enter_eq_ok_iff, descend_of_ne h.noDot h.noDots]
  simp [h.short]

/-- A name joined to a path names what is right below the directory that the path leads
to. -/
theorem locateLast_join_name_eq_ok_iff (h : IsEntryName name) :
    t.locateLast (root.join name) = .ok location ↔
      ∃ d, t.Opens root d ∧ location = name :: d := by
  rw [locateLast_eq_ok_iff (steps_join_name root h.isName), checkPath_join_name_iff h,
    startOf_join_name t root h.isName]
  simp only [enter_eq_ok_iff_of_isEntryName h]
  constructor
  · rintro ⟨hzero, d, left, hleads, hdirectory, rfl⟩
    exact ⟨d, ⟨hzero, ⟨left, (leads_pieces_iff hdirectory).mp hleads⟩, hdirectory⟩, rfl⟩
  · rintro ⟨d, ⟨hzero, ⟨left, hwalk⟩, hdirectory⟩, rfl⟩
    exact ⟨hzero, d, left, (leads_pieces_iff hdirectory).mpr hwalk, hdirectory, rfl⟩

/-- It leads there too, unless there is a link. -/
theorem locate_join_name_eq_ok_iff (h : IsEntryName name) :
    t.locate (root.join name) = .ok location ↔
      '\x00' ∉ root ∧ ∃ d left, t.walk maxLinks (t.startOf root) root.names = .ok (d, left) ∧
        t.get? d = some .directory ∧ ∃ fewer, t.Leads left d [name] location fewer := by
  rw [locate_eq_ok_iff, checkPath_join_name_iff h, steps_join_name root h.isName,
    startOf_join_name t root h.isName]
  refine and_congr_right fun _ => ?_
  constructor
  · rintro ⟨fewer, hleads⟩
    obtain ⟨d, left, hleads, hname⟩ := leads_append_iff.mp hleads
    have hdirectory := hname.directory_of_cons
    exact ⟨d, left, (leads_pieces_iff hdirectory).mp hleads, hdirectory, fewer, hname⟩
  · rintro ⟨d, left, hwalk, hdirectory, fewer, hname⟩
    exact ⟨fewer, ((leads_pieces_iff hdirectory).mpr hwalk).append hname⟩

theorem exists_opens_of_locate_join_name (h : IsEntryName name)
    (hlocate : t.locate (root.join name) = .ok location) :
    ∃ d, t.Opens root d ∧ (t.HoldsLink (name :: d) ∨ location = name :: d) := by
  obtain ⟨hzero, d, left, hwalk, hdirectory, fewer, hname⟩ :=
    (locate_join_name_eq_ok_iff h).mp hlocate
  refine ⟨d, ⟨hzero, ⟨left, hwalk⟩, hdirectory⟩, ?_⟩
  cases hname with
  | on henter hlink hdone =>
      obtain ⟨_, rfl⟩ := (enter_eq_ok_iff_of_isEntryName h).mp henter
      cases hdone
      exact .inr rfl
  | link henter hlink _ =>
      obtain ⟨_, rfl⟩ := (enter_eq_ok_iff_of_isEntryName h).mp henter
      exact .inl ⟨_, hlink⟩

theorem Opens.locate_join_name {d : Location} (hopens : t.Opens root d) (h : IsEntryName name)
    (hlink : ¬t.HoldsLink (name :: d)) : t.locate (root.join name) = .ok (name :: d) := by
  obtain ⟨left, hwalk⟩ := hopens.walk
  have henter := (enter_eq_ok_iff_of_isEntryName h).mpr ⟨hopens.directory, rfl⟩
  exact (locate_join_name_eq_ok_iff h).mpr
    ⟨hopens.noZero, d, left, hwalk, hopens.directory, left, .on henter hlink .done⟩

end FileTree
end DevSpecs
