import DevSpecs.Files.Path
import DevSpecs.Proofs.Text.Words

/-!
# The names on a path

Joining a path to another puts its names after those of the other.  A path is made
absolute by putting the names of the current directory in front, unless it starts
at the root already.
-/

namespace DevSpecs
namespace Path

/-- A text that can stand between two slashes. -/
def IsName (name : Text) : Prop :=
  name ≠ [] ∧ '/' ∉ name

instance (name : Text) : Decidable (IsName name) :=
  inferInstanceAs (Decidable (_ ∧ _))

/-! ## Pieces -/

theorem pieces_append_slash (a b : Path) :
    pieces (a ++ '/' :: b) = pieces a ++ pieces b :=
  List.splitOnP_append_cons a b (beq_self_eq_true '/')

theorem pieces_of_isName {name : Text} (h : IsName name) : pieces name = [name] := by
  apply List.splitOnP_eq_singleton
  intro c hc
  rw [beq_eq_false_iff_ne]
  rintro rfl
  exact h.2 hc

theorem slash_not_mem_of_mem_pieces {path : Path} {piece : Text}
    (h : piece ∈ pieces path) : '/' ∉ piece := by
  intro hslash
  have hother := (Text.mem_splitOnP h '/' hslash).1
  exact absurd hother (by decide)

/-- A joined path ends with the pieces of the second path; those of the first stand
before them, without an empty one at their end. -/
theorem exists_pieces_join (base : Path) {path : Path}
    (h : isAbsolute path = false) :
    ∃ front, pieces (join base path) = front ++ pieces path ∧
      (pieces base = front ∨ pieces base = front ++ [[]]) := by
  rw [join, h, if_neg Bool.false_ne_true]
  split
  next hopen =>
    rcases Bool.or_eq_true_iff.mp hopen with hnil | hlast
    · rw [List.isEmpty_iff.mp hnil]
      exact ⟨[], rfl, .inr rfl⟩
    · obtain ⟨front, rfl⟩ := List.getLast?_eq_some_iff.mp (beq_iff_eq.mp hlast)
      refine ⟨pieces front, ?_, .inr (pieces_append_slash front [])⟩
      rw [List.append_assoc, List.singleton_append, pieces_append_slash]
  next => exact ⟨pieces base, pieces_append_slash base path, .inl rfl⟩

/-- A joined path has the pieces of both paths, empty ones apart. -/
theorem filter_pieces_join {p : Text → Bool} (hp : p [] = false) (base : Path)
    {path : Path} (h : isAbsolute path = false) :
    (pieces (join base path)).filter p =
      (pieces base).filter p ++ (pieces path).filter p := by
  obtain ⟨front, hjoin, hbase⟩ := exists_pieces_join base h
  have hfront : (pieces base).filter p = front.filter p := by
    rcases hbase with hbase | hbase
    · rw [hbase]
    · rw [hbase, List.filter_append, List.filter_singleton, hp]
      exact List.append_nil _
  rw [hjoin, List.filter_append, hfront]

theorem mem_join {c : Char} (hc : c ≠ '/') (base : Path) {path : Path}
    (h : isAbsolute path = false) : c ∈ join base path ↔ c ∈ base ∨ c ∈ path := by
  rw [join, h, if_neg Bool.false_ne_true]
  split
  · exact List.mem_append
  · simp [hc]

/-! ## Names -/

/-- The names on a path are the pieces that are neither empty nor a single dot. -/
theorem names_eq_filter_pieces (path : Path) :
    names path = ((pieces path).filter (!·.isEmpty)).filter (· != ['.']) := by
  rw [List.filter_filter, names]
  congr 1
  funext piece
  cases piece <;> simp [isVacuous, bne]

theorem isName_of_mem_names {path : Path} {name : Text} (h : name ∈ names path) :
    IsName name ∧ name ≠ ['.'] := by
  obtain ⟨hpiece, hkept⟩ := List.mem_filter.mp h
  have hkept : name ≠ [] ∧ name ≠ ['.'] := by simpa [isVacuous] using hkept
  exact ⟨⟨hkept.1, slash_not_mem_of_mem_pieces hpiece⟩, hkept.2⟩

theorem names_of_isName {name : Text} (h : IsName name) (hdot : name ≠ ['.']) :
    names name = [name] := by
  rw [names, pieces_of_isName h]
  simp [isVacuous, h.1, hdot]

theorem names_join (base : Path) {path : Path} (h : isAbsolute path = false) :
    names (join base path) = names base ++ names path :=
  filter_pieces_join rfl base h

theorem isAbsolute_of_isName {name : Text} (h : IsName name) :
    isAbsolute name = false := by
  obtain ⟨c, rest, rfl⟩ := List.exists_cons_of_ne_nil h.1
  have hc : '/' ≠ c := fun hc => h.2 (hc ▸ List.mem_cons_self)
  simp [isAbsolute, hc.symm]

theorem isAbsolute_join_name (base : Path) {name : Text} (h : IsName name) :
    isAbsolute (join base name) = isAbsolute base := by
  have hname := isAbsolute_of_isName h
  rw [join, hname, if_neg Bool.false_ne_true]
  cases base with
  | nil => exact hname
  | cons c rest => split <;> rfl

theorem names_join_name (base : Path) {name : Text} (h : IsName name)
    (hdot : name ≠ ['.']) : names (join base name) = names base ++ [name] := by
  rw [names_join base (isAbsolute_of_isName h), names_of_isName h hdot]

theorem names_foldl_join {added : List Text}
    (h : ∀ name ∈ added, IsName name ∧ name ≠ ['.']) (start : Path) :
    names (added.foldl join start) = names start ++ added := by
  induction added generalizing start with
  | nil => rw [List.foldl_nil, List.append_nil]
  | cons name added ih =>
      obtain ⟨⟨hname, hdot⟩, hrest⟩ := List.forall_mem_cons.mp h
      rw [List.foldl_cons, ih hrest, names_join_name start hname hdot,
        List.append_assoc, List.singleton_append]

/-! ## Absolute paths -/

theorem isAbsolute_join {base : Path} (h : isAbsolute base = true) (path : Path) :
    isAbsolute (join base path) = true := by
  rw [join]
  split
  next habsolute => exact habsolute
  next =>
    obtain ⟨c, rest, rfl⟩ : ∃ c rest, base = c :: rest := by
      apply List.exists_cons_of_ne_nil
      rintro rfl
      cases h
    split <;> exact h

theorem isAbsolute_foldl_join {start : Path} (h : isAbsolute start = true)
    (added : List Text) : isAbsolute (added.foldl join start) = true := by
  induction added generalizing start with
  | nil => exact h
  | cons name added ih => exact ih (isAbsolute_join h name)

/-- A path is made absolute by joining its names to the current directory, or to the
root if it starts there. -/
theorem exists_start_absolute (current path : Path) :
    ∃ start, names start = (if isAbsolute path then [] else names current) ∧
      (isAbsolute current = true → isAbsolute start = true) ∧
      ∃ full, full = path.names.foldl join start ∧
        (absolute current path = full ∨ absolute current path = join full []) := by
  have hfull : ∀ full : Path,
      (if path.getLast? == some '/' then join full [] else full) = full ∨
        (if path.getLast? == some '/' then join full [] else full) = join full [] := by
    intro full
    split
    · exact .inr rfl
    · exact .inl rfl
  cases h : isAbsolute path with
  | false =>
      refine ⟨current, rfl, id, _, rfl, ?_⟩
      rw [absolute, h]
      exact hfull (path.names.foldl join current)
  | true =>
      let start : Path :=
        if path.take 2 == ['/', '/'] && path[2]? != some '/' then ['/', '/'] else ['/']
      have hstart : start = ['/', '/'] ∨ start = ['/'] := by
        simp only [start]
        split
        · exact .inl rfl
        · exact .inr rfl
      refine ⟨start, ?_, ?_, _, rfl, ?_⟩
      · rcases hstart with hstart | hstart <;> rw [hstart] <;> rfl
      · intro _
        rcases hstart with hstart | hstart <;> rw [hstart] <;> rfl
      · rw [absolute, h]
        exact hfull (path.names.foldl join start)

theorem isAbsolute_absolute {current : Path} (h : isAbsolute current = true)
    (path : Path) : isAbsolute (absolute current path) = true := by
  obtain ⟨start, _, hstart, full, rfl, heq | heq⟩ := exists_start_absolute current path
  · rw [heq]
    exact isAbsolute_foldl_join (hstart h) _
  · rw [heq]
    exact isAbsolute_join (isAbsolute_foldl_join (hstart h) _) []

/-- An absolute path has the names of the path, after those of the current directory
if the path is relative. -/
theorem names_absolute (current path : Path) :
    names (absolute current path) =
      (if isAbsolute path then [] else names current) ++ names path := by
  obtain ⟨start, hstart, _, full, rfl, heq | heq⟩ := exists_start_absolute current path
  · rw [heq, names_foldl_join fun _ => isName_of_mem_names, hstart]
  · rw [heq, names_join _ rfl, names_foldl_join fun _ => isName_of_mem_names, hstart]
    exact List.append_nil _

end Path
end DevSpecs
