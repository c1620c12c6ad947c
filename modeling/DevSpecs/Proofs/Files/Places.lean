import DevSpecs.Files.Tree
import DevSpecs.Proofs.Files.Paths

/-!
# The places that paths mean

A path means a place, where it leads once its dots are resolved.  What is in the tree
of files makes no difference to the place; a way along the path can fail, or be led
elsewhere by a symbolic link.
-/

namespace DevSpecs
namespace FileTree

/-! ## Places -/

/-- Where a name leads from a location, whatever is there. -/
def descend (here : Location) (name : Text) : Location :=
  if name = ['.'] then here
  else if name = ['.', '.'] then here.tail
  else name :: here

/-- Where a path leads once its dots are resolved, whatever is there. -/
def place (t : FileTree) (path : Path) : Location :=
  path.names.foldl descend (t.startOf path)

/-- The names that do not lead right below. -/
def IsSpecialName (name : Text) : Prop :=
  name = ['.'] ∨ name = ['.', '.']

theorem descend_of_ne {name : Text} (hdot : name ≠ ['.']) (hdots : name ≠ ['.', '.'])
    (here : Location) : descend here name = name :: here := by
  rw [descend, if_neg hdot, if_neg hdots]

theorem length_descend_le_iff {name : Text} {here : Location} :
    (descend here name).length ≤ here.length ↔ IsSpecialName name := by
  rw [descend, IsSpecialName]
  split
  next hdot => simp [hdot]
  next hdot =>
    split
    next hdots => simp [hdots]
    next hdots => simp [hdot, hdots]

/-- A name leads right below exactly if it is not a special one. -/
theorem exists_descend_eq_cons_iff {name : Text} {here : Location} :
    (∃ child, descend here name = child :: here) ↔ ¬IsSpecialName name := by
  constructor
  · rintro ⟨child, heq⟩ hspecial
    have hlength : (descend here name).length ≤ here.length :=
      length_descend_le_iff.mpr hspecial
    rw [heq, List.length_cons] at hlength
    omega
  · intro h
    obtain ⟨hdot, hdots⟩ := not_or.mp h
    exact ⟨name, descend_of_ne hdot hdots here⟩

/-- Different names lead to different places, except that both special ones lead from
the root to the root. -/
theorem descend_eq_descend_iff {name name' : Text} {here : Location}
    (hne : name ≠ name') :
    descend here name = descend here name' ↔
      here = [] ∧ IsSpecialName name ∧ IsSpecialName name' := by
  constructor
  · intro heq
    have hspecial : IsSpecialName name ↔ IsSpecialName name' := by
      rw [← length_descend_le_iff, ← length_descend_le_iff, heq]
    have htail : here = here.tail → here = [] := by
      cases here <;> simp
    by_cases hname : IsSpecialName name
    · have hname' := hspecial.mp hname
      refine ⟨?_, hname, hname'⟩
      rcases hname with rfl | rfl <;> rcases hname' with rfl | rfl
      · exact absurd rfl hne
      · exact htail heq
      · exact htail heq.symm
      · exact absurd rfl hne
    · obtain ⟨hdot, hdots⟩ := not_or.mp hname
      obtain ⟨hdot', hdots'⟩ := not_or.mp fun h => hname (hspecial.mpr h)
      rw [descend_of_ne hdot hdots, descend_of_ne hdot' hdots'] at heq
      exact absurd (List.cons.inj heq).1 hne
  · rintro ⟨rfl, hname, hname'⟩
    rcases hname with rfl | rfl <;> rcases hname' with rfl | rfl <;> rfl

/-! ## Names in a directory -/

/-- A name under which every directory can have an entry. -/
structure IsEntryName (name : Text) : Prop where
  isName : Path.IsName name
  noZero : '\x00' ∉ name
  noDot : name ≠ ['.']
  noDots : name ≠ ['.', '.']
  short : Utf8.byteCount name ≤ maxName

theorem isEntryName_iff {name : Text} :
    IsEntryName name ↔
      Path.IsName name ∧ '\x00' ∉ name ∧ name ≠ ['.'] ∧ name ≠ ['.', '.'] ∧
        Utf8.byteCount name ≤ maxName :=
  ⟨fun h => ⟨h.1, h.2, h.3, h.4, h.5⟩, fun ⟨h₁, h₂, h₃, h₄, h₅⟩ => ⟨h₁, h₂, h₃, h₄, h₅⟩⟩

instance (name : Text) : Decidable (IsEntryName name) :=
  decidable_of_iff' _ isEntryName_iff

theorem steps_join_name (root : Path) {name : Text} (h : Path.IsName name) :
    steps (root.join name) = root.pieces.filter (!·.isEmpty) ++ [name] := by
  have habsolute := Path.isAbsolute_of_isName h
  obtain ⟨front, hjoin, _⟩ := Path.exists_pieces_join root habsolute
  have hlast : (root.join name).pieces.getLast? = some name := by
    rw [hjoin, Path.pieces_of_isName h, List.getLast?_concat]
  have hname : name.isEmpty = false := by simpa using h.1
  rw [steps, hlast, Path.filter_pieces_join rfl root habsolute, Path.pieces_of_isName h]
  simp [hname]

theorem startOf_join_name (t : FileTree) (root : Path) {name : Text}
    (h : Path.IsName name) : t.startOf (root.join name) = t.startOf root := by
  rw [startOf, startOf, startIn, startIn, Path.isAbsolute_join_name root h]

theorem foldl_descend_join_name (root : Path) {name : Text} (h : Path.IsName name)
    (start : Location) :
    (root.join name).names.foldl descend start =
      descend (root.names.foldl descend start) name := by
  rw [Path.names_join root (Path.isAbsolute_of_isName h), List.foldl_append]
  by_cases hdot : name = ['.']
  · subst hdot
    rfl
  · rw [Path.names_of_isName h hdot]
    rfl

/-- An absolute path leads where the path does from the root, or from the place of the
current directory if the path is relative. -/
theorem place_absolute (t : FileTree) (path : Path) :
    t.place (Path.absolute t.currentPath path) =
      path.names.foldl descend
        (if Path.isAbsolute path then [] else t.place t.currentPath) := by
  have hcurrent : Path.isAbsolute t.currentPath = true :=
    Path.isAbsolute_foldl_join rfl _
  have hstart : ∀ p, Path.isAbsolute p = true → t.startOf p = [] :=
    fun p hp => if_pos hp
  rw [place, hstart _ (Path.isAbsolute_absolute hcurrent path), Path.names_absolute,
    List.foldl_append, place, hstart _ hcurrent]
  cases Path.isAbsolute path <;> rfl

/-- A name joined to a path leads on from the place of the path. -/
theorem place_absolute_join_name (t : FileTree) (path : Path) {name : Text}
    (h : Path.IsName name) :
    t.place (Path.absolute t.currentPath (path.join name)) =
      descend (t.place (Path.absolute t.currentPath path)) name := by
  rw [place_absolute, place_absolute, Path.isAbsolute_join_name path h,
    foldl_descend_join_name path h]

end FileTree
end DevSpecs
