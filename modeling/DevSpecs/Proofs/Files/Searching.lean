import DevSpecs.Proofs.Files.Walks

/-!
# Searching a list of directories

A search joins a command to each directory of a list and takes the first path that leads
to an executable file.  If the command is a plain name, this file lies in the first
directory that has an executable file of that name.  A command with a slash may lead
anywhere else, and an absolute one does so whatever the list is.  The main statement says
when the file that is found lies in a directory of the list.
-/

namespace DevSpecs
namespace FileTree

variable {t : FileTree} {command list name : Text} {path dir : Path} {location : Location}

/-! ## Proper trees -/

/-- Every entry has a proper name and lies in a directory. -/
structure IsTree (t : FileTree) : Prop where
  named : ∀ {name location}, t.get? (name :: location) ≠ none → IsEntryName name
  rooted : ∀ {name location}, t.get? (name :: location) ≠ none →
    t.get? location = some .directory

theorem isTree_of_entries
    (h : ∀ entry ∈ t.entries, (∀ name ∈ entry.1.head?, IsEntryName name) ∧
      t.get? entry.1.tail = some .directory) : t.IsTree := by
  have hentry : ∀ {name location}, t.get? (name :: location) ≠ none →
      IsEntryName name ∧ t.get? location = some .directory := by
    intro name location hsome
    obtain ⟨entry, hlookup⟩ := Option.ne_none_iff_exists'.mp hsome
    obtain ⟨before, after, hentries, _⟩ := List.lookup_eq_some_iff.mp hlookup
    obtain ⟨hname, hparent⟩ := h (name :: location, entry) (by rw [hentries]; simp)
    exact ⟨hname name rfl, hparent⟩
  exact ⟨fun hsome => (hentry hsome).1, fun hsome => (hentry hsome).2⟩

theorem IsTree.directory_tail (ht : t.IsTree) (h : t.get? location = some .directory) :
    t.get? location.tail = some .directory := by
  cases location with
  | nil => rfl
  | cons name location => exact ht.rooted (Option.ne_none_iff_exists'.mpr ⟨_, h⟩)

/-- A name that is no entry name leads from a directory to a directory. -/
theorem IsTree.directory_descend (ht : t.IsTree) (h : t.get? location = some .directory)
    (hspecial : IsSpecialName name) : t.get? (descend location name) = some .directory := by
  rcases hspecial with rfl | rfl
  · exact h
  · exact ht.directory_tail h

/-! ## Executable files -/

/-- There is an executable file at the location. -/
def HoldsExecutable (t : FileTree) (location : Location) : Prop :=
  ∃ text, t.get? location = some (.file text true)

theorem isExecutable_iff :
    t.isExecutable path = true ↔
      ∃ location, t.locate path = .ok location ∧ t.HoldsExecutable location := by
  have hlookup : t.isExecutable path = true ↔ ∃ text, t.lookup path = .ok (.file text true) := by
    rw [isExecutable]
    split
    next text executable h => simp [h]
    next h =>
      refine iff_of_false Bool.false_ne_true ?_
      rintro ⟨text, hfile⟩
      exact h text true hfile
  rw [hlookup]
  simp only [lookup_eq_ok_iff, HoldsExecutable]
  constructor
  · rintro ⟨text, location, hlocate, hfile⟩
    exact ⟨location, hlocate, text, hfile⟩
  · rintro ⟨location, hlocate, text, hfile⟩
    exact ⟨text, location, hlocate, hfile⟩

theorem HoldsExecutable.not_directory (h : t.HoldsExecutable location) :
    t.get? location ≠ some .directory := by
  obtain ⟨text, hfile⟩ := h
  rw [hfile]
  exact nofun

/-! ## The first directory -/

/-- The directories of a search list. -/
def directories (list : Text) : List Path :=
  list.splitOn ':'

/-- The path joins the command to the first directory of the list from which the command
leads to an executable file. -/
def IsFirstExecutable (t : FileTree) (command list : Text) (path : Path) : Prop :=
  ∃ before dir after, directories list = before ++ dir :: after ∧
    path = dir.join command ∧ t.isExecutable path = true ∧
    ∀ d ∈ before, t.isExecutable (d.join command) = false

theorem search_eq_some_iff :
    t.search command list = some path ↔ t.IsFirstExecutable command list path := by
  rw [search, List.find?_map, Option.map_eq_some_iff]
  simp only [List.find?_eq_some_iff_append, Function.comp_apply, Bool.not_eq_true']
  constructor
  · rintro ⟨dir, ⟨hfound, before, after, hsplit, hbefore⟩, rfl⟩
    exact ⟨before, dir, after, hsplit, rfl, hfound, hbefore⟩
  · rintro ⟨before, dir, after, hsplit, rfl, hfound, hbefore⟩
    exact ⟨dir, ⟨hfound, before, after, hsplit, hbefore⟩, rfl⟩

theorem search_eq_none_iff :
    t.search command list = none ↔
      ∀ dir ∈ directories list, t.isExecutable (dir.join command) = false := by
  rw [search, List.find?_map, Option.map_eq_none_iff, List.find?_eq_none]
  simp only [Function.comp_apply, Bool.not_eq_true]
  rfl

theorem IsFirstExecutable.unique {path' : Path} (h : t.IsFirstExecutable command list path)
    (h' : t.IsFirstExecutable command list path') : path = path' :=
  Option.some.inj ((search_eq_some_iff.mpr h).symm.trans (search_eq_some_iff.mpr h'))

/-! ## Plain names -/

/-- The directory has an entry of the name, which is an executable file or a link to one. -/
def Offers (t : FileTree) (dir : Path) (name : Text) : Prop :=
  ∃ d, t.Opens dir d ∧ t.get? (name :: d) ≠ none ∧ t.isExecutable (dir.join name) = true

theorem isExecutable_join_iff (h : IsEntryName name) :
    t.isExecutable (dir.join name) = true ↔ t.Offers dir name := by
  constructor
  · intro hexecutable
    obtain ⟨location, hlocate, text, hfile⟩ := isExecutable_iff.mp hexecutable
    obtain ⟨d, hopens, ⟨target, hlink⟩ | rfl⟩ := exists_opens_of_locate_join_name h hlocate
    · exact ⟨d, hopens, Option.ne_none_iff_exists'.mpr ⟨_, hlink⟩, hexecutable⟩
    · exact ⟨d, hopens, Option.ne_none_iff_exists'.mpr ⟨_, hfile⟩, hexecutable⟩
  · rintro ⟨d, _, _, hexecutable⟩
    exact hexecutable

theorem steps_append_slash (front : Path) :
    steps (front ++ ['/']) = front.pieces.filter (!·.isEmpty) ++ [['.']] := by
  have hpieces : Path.pieces (front ++ ['/']) = front.pieces ++ [[]] :=
    Path.pieces_append_slash front []
  rw [steps, hpieces, List.getLast?_concat]
  simp

theorem locate_nil : t.locate [] = .error .notFound :=
  rfl

theorem join_nil_cases (dir : Path) :
    dir.join [] = [] ∨ ∃ front, dir.join [] = front ++ ['/'] := by
  rw [Path.join, if_neg (by decide)]
  split
  next hopen =>
    rw [List.append_nil]
    rcases Bool.or_eq_true_iff.mp hopen with hnil | hlast
    · exact .inl (List.isEmpty_iff.mp hnil)
    · exact .inr (List.getLast?_eq_some_iff.mp (beq_iff_eq.mp hlast))
  next => exact .inr ⟨dir, rfl⟩

/-- A special name at the end leads to a directory. -/
theorem IsTree.directory_of_locate (ht : t.IsTree) {before : List Text}
    (hsteps : steps path = before ++ [name]) (hspecial : IsSpecialName name)
    (h : t.locate path = .ok location) : t.get? location = some .directory := by
  obtain ⟨_, left, hleads⟩ := locate_eq_ok_iff.mp h
  rw [hsteps] at hleads
  obtain ⟨there, between, _, hlast⟩ := leads_append_iff.mp hleads
  cases hlast with
  | on henter _ hdone =>
      cases hdone
      obtain ⟨hdirectory, _, rfl⟩ := enter_eq_ok_iff.mp henter
      exact ht.directory_descend hdirectory hspecial
  | link henter hlink _ =>
      obtain ⟨hdirectory, _, rfl⟩ := enter_eq_ok_iff.mp henter
      have hend := ht.directory_descend hdirectory hspecial
      exact absurd ⟨_, hlink⟩ (not_holdsLink_of_directory hend)

/-- A command without a slash that leads to an executable file is the name of one. -/
theorem IsTree.isEntryName_of_isExecutable (ht : t.IsTree) (hslash : '/' ∉ command)
    (h : t.isExecutable (dir.join command) = true) : IsEntryName command := by
  obtain ⟨location, hlocate, hexecutable⟩ := isExecutable_iff.mp h
  by_cases hnil : command = []
  · -- Such a path ends with a slash, so it leads to a directory or nowhere.
    subst hnil
    rcases join_nil_cases dir with hjoin | ⟨front, hjoin⟩
    · rw [hjoin, locate_nil] at hlocate
      cases hlocate
    · have hsteps := steps_append_slash front
      rw [← hjoin] at hsteps
      exact absurd (ht.directory_of_locate hsteps (.inl rfl) hlocate) hexecutable.not_directory
  · have hname : Path.IsName command := ⟨hnil, hslash⟩
    have hsteps := steps_join_name dir hname
    have hplain : ¬IsSpecialName command := fun hspecial =>
      hexecutable.not_directory (ht.directory_of_locate hsteps hspecial hlocate)
    obtain ⟨hdot, hdots⟩ := not_or.mp hplain
    obtain ⟨hpath, left, hleads⟩ := locate_eq_ok_iff.mp hlocate
    have hzero := (checkPath_eq_ok_iff.mp hpath).2
    rw [hsteps] at hleads
    obtain ⟨there, between, _, hlast⟩ := leads_append_iff.mp hleads
    obtain ⟨_, henter⟩ := hlast.exists_enter
    refine ⟨hname, fun hmem => hzero ?_, hdot, hdots,
      (enter_eq_ok_iff.mp henter).2.1 hdot hdots⟩
    exact (Path.mem_join (by decide) dir (Path.isAbsolute_of_isName hname)).mpr (.inr hmem)

/-! ## Lying in a directory of the list -/

/-- The path names what is right below the directory, be it a link or not. -/
def LiesIn (t : FileTree) (path dir : Path) : Prop :=
  ∃ d name, t.Opens dir d ∧ t.locateLast path = .ok (name :: d)

/-- The path names what is right below a directory of the list, and no directory before
that one has an executable file of the command's name. -/
def IsProvided (t : FileTree) (command list : Text) (path : Path) : Prop :=
  ∃ before dir after, directories list = before ++ dir :: after ∧ t.LiesIn path dir ∧
    ∀ d ∈ before, ¬t.Offers d command

theorem IsTree.not_offers_of_slash (ht : t.IsTree) (hslash : '/' ∈ command) (dir : Path) :
    ¬t.Offers dir command := by
  rintro ⟨d, _, hsome, _⟩
  exact (ht.named hsome).isName.2 hslash

/-- A plain name that is found is found in the first directory that offers it. -/
theorem IsTree.isProvided_of_name (ht : t.IsTree) (hslash : '/' ∉ command)
    (h : t.search command list = some path) : t.IsProvided command list path := by
  obtain ⟨before, dir, after, hsplit, rfl, hfound, hbefore⟩ := search_eq_some_iff.mp h
  have hname : IsEntryName command := ht.isEntryName_of_isExecutable hslash hfound
  obtain ⟨d, hopens, _⟩ := (isExecutable_join_iff hname).mp hfound
  refine ⟨before, dir, after, hsplit, ⟨d, command, hopens, ?_⟩, fun other hother hoffers => ?_⟩
  · exact (locateLast_join_name_eq_ok_iff hname).mpr ⟨d, hopens, rfl⟩
  · obtain ⟨_, _, _, hexecutable⟩ := hoffers
    exact Bool.eq_false_iff.mp (hbefore other hother) hexecutable

/-- The list makes no difference to an absolute command. -/
theorem search_of_isAbsolute (h : Path.isAbsolute command = true) (list : Text) :
    t.search command list = if t.isExecutable command = true then some command else none := by
  have hjoin : ∀ dir : Path, dir.join command = command := fun dir => if_pos h
  split
  next hexecutable =>
    obtain ⟨dir, after, hsplit⟩ :=
      List.exists_cons_of_ne_nil (List.splitOnP_ne_nil (· == ':') list)
    exact search_eq_some_iff.mpr ⟨[], dir, after, hsplit, (hjoin dir).symm, hexecutable, nofun⟩
  next hother =>
    rw [search_eq_none_iff]
    intro dir _
    rw [hjoin]
    exact Bool.eq_false_iff.mpr hother

/-- What is found for a command lies in the first directory of the list that offers the
command, exactly if the command has no slash or happens to lead right below some directory
of the list.  An absolute command is found whatever the list is. -/
theorem search_isProvided_iff (ht : t.IsTree) (command list : Text) :
    ((∀ path, t.search command list = some path → t.IsProvided command list path) ↔
      ('/' ∈ command → ∀ path, t.search command list = some path →
        ∃ dir ∈ directories list, t.LiesIn path dir)) ∧
    (Path.isAbsolute command = true →
      t.search command list = if t.isExecutable command = true then some command else none) := by
  refine ⟨⟨?_, ?_⟩, fun habsolute => search_of_isAbsolute habsolute list⟩
  · intro h _ path hfound
    obtain ⟨before, dir, after, hsplit, hlies, _⟩ := h path hfound
    exact ⟨dir, by rw [hsplit]; simp, hlies⟩
  · intro h path hfound
    by_cases hslash : '/' ∈ command
    · obtain ⟨dir, hdir, hlies⟩ := h hslash path hfound
      obtain ⟨before, after, hsplit⟩ := List.append_of_mem hdir
      exact ⟨before, dir, after, hsplit, hlies, fun d _ => ht.not_offers_of_slash hslash d⟩
    · exact ht.isProvided_of_name hslash hfound

/-- A file of the same name that cannot be executed is passed over. -/
theorem search_isProvided_beside_data :
    let t : FileTree :=
      { entries := [(["data"], .directory), (["tool", "data"], .file (some "") false),
          (["bin"], .directory), (["tool", "bin"], .file (some "") true)] }
    t.IsTree ∧ t.search "tool" "/data:/bin" = some "/bin/tool".toList ∧
      t.IsProvided "tool" "/data:/bin" "/bin/tool" := by
  intro t
  have ht : t.IsTree := isTree_of_entries (by decide +kernel)
  have hfound : t.search "tool" "/data:/bin" = some "/bin/tool".toList := by decide +kernel
  obtain ⟨hprovided, _⟩ := search_isProvided_iff ht "tool" "/data:/bin"
  refine ⟨ht, hfound, hprovided.mpr (fun hslash => ?_) _ hfound⟩
  exact absurd hslash (by decide)

/-- An absolute command is found although no directory of the list has it. -/
theorem absolute_command_is_found_beside_list :
    let t : FileTree :=
      { entries := [(["bin"], .directory), (["other"], .directory),
          (["tool", "other"], .file (some "") true)] }
    t.IsTree ∧ t.search "/other/tool" "/bin" = some "/other/tool".toList ∧
      ¬t.IsProvided "/other/tool" "/bin" "/other/tool" := by
  intro t
  refine ⟨isTree_of_entries (by decide +kernel), by decide +kernel, ?_⟩
  rintro ⟨before, dir, after, hsplit, ⟨d, name, hopens, hlast⟩, _⟩
  have hdir : dir = "/bin".toList := by
    have hmem : dir ∈ directories "/bin" := by rw [hsplit]; simp
    rwa [show directories "/bin" = ["/bin".toList] by decide, List.mem_singleton] at hmem
  have hbin : t.Opens "/bin" ["bin".toList] :=
    ⟨by decide, ⟨maxLinks, by decide +kernel⟩, by decide +kernel⟩
  rw [hdir] at hopens
  obtain rfl := hopens.unique hbin
  have hother : t.locateLast "/other/tool" = .ok ["tool".toList, "other".toList] := by
    decide +kernel
  have hlocation := Except.ok.inj (hother.symm.trans hlast)
  exact absurd (List.cons.inj hlocation).2 (by decide)

end FileTree
end DevSpecs
