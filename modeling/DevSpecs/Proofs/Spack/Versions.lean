import DevSpecs.Proofs.Outcomes
import DevSpecs.Proofs.Text.Cutting
import DevSpecs.Proofs.Version.Order
import DevSpecs.Spack.Program

/-!
# The newest version in a listing

Spack prints the versions it knows on any number of lines, in columns, among words that
are no versions and status lines.  The newest version that the index answers with is the
greatest of those printed.  It depends on nothing else: a listing that prints the same
versions in another layout gives an equal one.
-/

namespace DevSpecs

namespace Spack

open Text

/-! ## Listed words -/

/-- What a status line starts with. -/
def statusMark : Text := "==>"

theorem isWord_statusMark : IsWord statusMark := by decide

/-- The word stands in the output, on a line that is no status line. -/
def Lists (output w : Text) : Prop :=
  ∃ line ∈ output.splitOn '\n', ¬statusMark <+: trim line ∧ w ∈ words line

/-- The output lists the version in some spelling. -/
def ListsVersion (output : Text) (v : Version) : Prop :=
  ∃ w, Lists output w ∧ Version.ofText? w = some v

theorem isSome_dropStart?_iff {mark t : Text} :
    (dropStart? mark t).isSome = true ↔ mark <+: t := by
  rw [Option.isSome_iff_exists]
  exact exists_congr fun rest => dropStart?_eq_some_iff.trans eq_comm

/-- The words on a line, none if it is a status line. -/
def wordsOnLine (line : Text) : List Text :=
  if statusMark <+: trim line then [] else words line

theorem listedWords_eq (output : Text) :
    listedWords output = (output.splitOn '\n').flatMap wordsOnLine := by
  rw [listedWords, List.flatMap_map]
  congr 1
  funext line
  rw [wordsOnLine, words_trim]
  exact if_congr isSome_dropStart?_iff rfl rfl

theorem mem_listedWords {output w : Text} : w ∈ listedWords output ↔ Lists output w := by
  rw [listedWords_eq, List.mem_flatMap]
  refine exists_congr fun line => and_congr_right fun _ => ?_
  rw [wordsOnLine]
  split
  next h => simp [h]
  next h => simp [h]

theorem mem_listedVersions {output : Text} {v : Version} :
    v ∈ listedVersions output ↔ ListsVersion output v := by
  rw [listedVersions, List.mem_filterMap]
  exact exists_congr fun w => and_congr_left fun _ => mem_listedWords

/-! ## The newest one -/

/-- The answer is a listed version that no listed one is above, or a failure that says
that no version is listed. -/
inductive IsNewestListed (package output : Text) : Except IndexError Version → Prop
  | newest (v : Version) (listed : ListsVersion output v)
      (greatest : ∀ u, ListsVersion output u → u ≤ v) : IsNewestListed package output (.ok v)
  | noVersions (unlisted : ∀ v, ¬ListsVersion output v) :
      IsNewestListed package output (.error (.noVersions package indexName))

theorem isNewestListed_newestListed (package output : Text) :
    IsNewestListed package output (newestListed package output) := by
  rw [newestListed]
  split
  next v hmax =>
    refine .newest v (mem_listedVersions.mp (mem_of_maxLast? hmax)) fun u hu => ?_
    exact isLE_of_maxLast? hmax (mem_listedVersions.mpr hu)
  next hnone =>
    refine .noVersions fun v hv => ?_
    rw [← mem_listedVersions, maxLast?_eq_none_iff.mp hnone] at hv
    exact List.not_mem_nil hv

/-- Outputs that list the same versions have answers that are equal up to spelling. -/
theorem IsNewestListed.endsAlike {package output output' : Text}
    {answer answer' : Except IndexError Version} (h : IsNewestListed package output answer)
    (h' : IsNewestListed package output' answer')
    (hsame : ∀ v, ListsVersion output v ↔ ListsVersion output' v) :
    EndsAlike (fun v w => (v == w) = true) answer answer' := by
  cases h with
  | noVersions hnone =>
      cases h' with
      | noVersions => exact .failed _ _
      | newest w hw => exact absurd ((hsame w).mpr hw) (hnone w)
  | newest v hv hgreatest =>
      cases h' with
      | noVersions hnone => exact absurd ((hsame v).mp hv) (hnone v)
      | newest w hw hgreatest' =>
          have hvw : v ≤ w := hgreatest' v ((hsame v).mp hv)
          have hwv : w ≤ v := hgreatest w ((hsame w).mpr hw)
          exact .succeeded v w (Std.beq_iff_le_and_ge.mpr ⟨hvw, hwv⟩)

/-! ## Layouts -/

/-- The blanks that do not end a line. -/
def isGap (c : Char) : Bool :=
  isBlank c && c != '\n'

theorem of_all_isGap {gap : Text} (h : gap.all isGap = true) :
    (∀ c ∈ gap, isBlank c = true) ∧ '\n' ∉ gap := by
  have hgap : ∀ c ∈ gap, isBlank c = true ∧ c ≠ '\n' := by
    simpa [isGap] using List.all_eq_true.mp h
  exact ⟨fun c hc => (hgap c hc).1, fun hmem => (hgap '\n' hmem).2 rfl⟩

/-- A word in a column, with the blanks before it. -/
structure Cell where
  gap : Text
  word : Text
  gap_isGap : gap.all isGap = true
  word_isWord : IsWord word

/-- A line of a listing: a status line, or words in columns.  A word that starts a line
is not the mark of a status line. -/
inductive Line where
  | status (indent rest : Text) (indent_isGap : indent.all isGap = true)
      (rest_inLine : '\n' ∉ rest)
  | row (cells : List Cell) (after : Text)
      (apart : ∀ cell ∈ cells.tail, cell.gap ≠ [])
      (unmarked : ∀ cell ∈ cells.head?, ¬statusMark <+: cell.word)
      (after_isGap : after.all isGap = true)

namespace Cell

def text (cell : Cell) : Text :=
  cell.gap ++ cell.word

end Cell

namespace Line

def text : Line → Text
  | .status indent rest .. => indent ++ statusMark ++ rest
  | .row cells after .. => cells.flatMap Cell.text ++ after

/-- The words in the columns of a line. -/
def words : Line → List Text
  | .status .. => []
  | .row cells .. => cells.map Cell.word

end Line

/-- The lines as they are printed. -/
def layoutText (lines : List Line) : Text :=
  ['\n'].intercalate (lines.map Line.text)

/-- The words that the lines list. -/
def layoutWords (lines : List Line) : List Text :=
  lines.flatMap Line.words

/-! ### Reading a layout -/

theorem Cell.newline_not_mem_text (cell : Cell) : '\n' ∉ cell.text := by
  rw [Cell.text, List.mem_append, not_or]
  refine ⟨(of_all_isGap cell.gap_isGap).2, fun hmem => ?_⟩
  exact absurd (cell.word_isWord.2 '\n' hmem) (by decide)

theorem Line.newline_not_mem_text (line : Line) : '\n' ∉ line.text := by
  cases line with
  | status indent rest hindent hrest =>
      simp [Line.text, (of_all_isGap hindent).2, hrest, statusMark]
  | row cells after _ _ hafter =>
      rw [Line.text, List.mem_append, not_or, List.mem_flatMap]
      refine ⟨?_, (of_all_isGap hafter).2⟩
      rintro ⟨cell, _, hmem⟩
      exact cell.newline_not_mem_text hmem

/-- Columns end at blanks, so their words are read back. -/
theorem words_cells {cells : List Cell} {after : Text}
    (hapart : ∀ cell ∈ cells.tail, cell.gap ≠ []) (hafter : after.all isGap = true) :
    Text.words (cells.flatMap Cell.text ++ after) = cells.map Cell.word := by
  induction cells with
  | nil =>
      have hblank := (of_all_isGap hafter).1
      rw [List.flatMap_nil, List.nil_append, ← List.append_nil after,
        words_blanks_append hblank]
      rfl
  | cons cell cells ih =>
      have hnext : ∀ c ∈ (cells.flatMap Cell.text ++ after).head?, isBlank c = true := by
        intro c hc
        cases cells with
        | nil => exact (of_all_isGap hafter).1 c (List.mem_of_mem_head? hc)
        | cons next cells =>
            obtain ⟨d, gap, hgap⟩ := List.exists_cons_of_ne_nil (hapart next List.mem_cons_self)
            have hd : isBlank d = true :=
              (of_all_isGap next.gap_isGap).1 d (by rw [hgap]; exact List.mem_cons_self)
            simp [Cell.text, hgap] at hc
            exact hc ▸ hd
      rw [List.flatMap_cons, Cell.text, List.append_assoc, List.append_assoc,
        words_blanks_append (of_all_isGap cell.gap_isGap).1,
        words_append_word cell.word_isWord hnext,
        ih fun c hc => hapart c (List.mem_of_mem_tail hc), List.map_cons]

theorem wordsOnLine_text (line : Line) : wordsOnLine line.text = line.words := by
  cases line with
  | status indent rest hindent _ =>
      exact if_pos (isPrefix_trim_append isWord_statusMark (of_all_isGap hindent).1 rest)
  | row cells after hapart hunmarked hafter =>
      have hwords := words_cells hapart hafter
      rw [wordsOnLine, if_neg, Line.text, hwords]
      · rfl
      · rw [isPrefix_trim_iff isWord_statusMark, Line.text, hwords, List.head?_map]
        rintro ⟨w, hw, hmark⟩
        obtain ⟨cell, hcell, rfl⟩ := Option.map_eq_some_iff.mp hw
        exact hunmarked cell hcell hmark

/-- The words of a layout are read back, in the order in which they are printed. -/
theorem listedWords_layoutText (lines : List Line) :
    listedWords (layoutText lines) = layoutWords lines := by
  rw [listedWords_eq, layoutWords]
  by_cases hlines : lines = []
  · rw [hlines]
    rfl
  · have hsplit : (layoutText lines).splitOn '\n' = lines.map Line.text := by
      apply List.splitOn_intercalate
      · intro t ht
        obtain ⟨line, _, rfl⟩ := List.mem_map.mp ht
        exact line.newline_not_mem_text
      · simpa using hlines
    rw [hsplit, List.flatMap_map]
    congr 1
    funext line
    exact wordsOnLine_text line

theorem lists_layoutText_iff {lines : List Line} {w : Text} :
    Lists (layoutText lines) w ↔ w ∈ layoutWords lines := by
  rw [← mem_listedWords, listedWords_layoutText]

/-! ## The index -/

/-- Asked for the versions of a package, the program prints the output. -/
def Program.Prints (p : Program) (files : FileTree) (package output : Text) : Prop :=
  p.ask files ["versions", "--safe", package] package = .ok output

theorem Program.Prints.latest_eq {p : Program} {files : FileTree} {package output : Text}
    (h : p.Prints files package output) (history : History) :
    (p.index files).latest history package = newestListed package output := by
  change p.ask files ["versions", "--safe", package] package >>= newestListed package = _
  rw [h]
  rfl

/-- Whatever the program prints, the version that the index answers with is listed and no
listed one is above it; it has no answer exactly if no version is listed.  A listing that
prints the same versions, however often and in which order and layout, gives an equal
answer. -/
theorem latest_isNewestListed (package output : Text) :
    (∀ (p : Program) (files : FileTree) (history : History), p.Prints files package output →
      (p.index files).latest history package = newestListed package output) ∧
    IsNewestListed package output (newestListed package output) ∧
    ∀ lines : List Line,
      (∀ w, (Version.ofText? w).isSome = true → (w ∈ layoutWords lines ↔ Lists output w)) →
      EndsAlike (fun v w => (v == w) = true) (newestListed package output)
        (newestListed package (layoutText lines)) := by
  have hnewest := isNewestListed_newestListed package output
  refine ⟨fun p files history hprints => hprints.latest_eq history, hnewest, ?_⟩
  intro lines hwords
  refine hnewest.endsAlike (isNewestListed_newestListed package (layoutText lines)) fun v => ?_
  refine exists_congr fun w => and_congr_left fun hw => ?_
  rw [lists_layoutText_iff, hwords w (Option.isSome_of_mem hw)]

/-- The same versions in two columns, and on two lines with a status line between them
and a word that is no version. -/
theorem latest_isNewestListed_two_layouts :
    let printing (script : Text) : FileTree :=
      { entries := [(["spack"], .file (some script) true)] }
    let first := printing "#!/bin/sh\nprintf '==> Safe versions\\n  1.2  main\\n'\n"
    let second := printing "#!/bin/sh\nprintf 'main\\n ==> Remote\\n\\told! 1.2'\n"
    let p : Program := ⟨"/spack", []⟩
    ∃ output lines, p.Prints first "zlib" output ∧
      p.Prints second "zlib" (layoutText lines) ∧
      (∀ w, (Version.ofText? w).isSome = true → (w ∈ layoutWords lines ↔ Lists output w)) ∧
      IsNewestListed "zlib" output ((p.index first).latest [] "zlib") ∧
      EndsAlike (fun v w => (v == w) = true) ((p.index first).latest [] "zlib")
        ((p.index second).latest [] "zlib") := by
  intro printing first second p
  let output : Text := "==> Safe versions\n  1.2  main\n"
  let lines : List Line :=
    [.row [⟨[], "main", by decide, by decide⟩] [] (by decide) (by decide)
        (by decide),
      .status " " " Remote" (by decide) (by decide),
      .row [⟨"\t", "old!", by decide, by decide⟩,
        ⟨" ", "1.2", by decide, by decide⟩] [] (by decide) (by decide)
        (by decide)]
  have hfirst : p.Prints first "zlib" output := by
    obtain ⟨printed, hask, hprinted⟩ := exists_ok_of_any _ (· == output)
      (by decide +kernel : (p.ask first ["versions", "--safe", "zlib"] "zlib").toOption.any
        (· == output) = true)
    exact hask.trans (congrArg Except.ok (beq_iff_eq.mp hprinted))
  have hsecond : p.Prints second "zlib" (layoutText lines) := by
    obtain ⟨printed, hask, hprinted⟩ := exists_ok_of_any _ (· == layoutText lines)
      (by decide +kernel : (p.ask second ["versions", "--safe", "zlib"] "zlib").toOption.any
        (· == layoutText lines) = true)
    exact hask.trans (congrArg Except.ok (beq_iff_eq.mp hprinted))
  have hwords : ∀ w, (Version.ofText? w).isSome = true →
      (w ∈ layoutWords lines ↔ Lists output w) := by
    have hlisted : listedWords output = ["1.2".toList, "main".toList] := by decide +kernel
    have hlaidOut : layoutWords lines = ["main".toList, "old!".toList, "1.2".toList] := rfl
    have hold : (Version.ofText? "old!").isSome = false := rfl
    intro w hw
    have hne : w ≠ "old!".toList := by
      rintro rfl
      exact Bool.false_ne_true (hold.symm.trans hw)
    rw [← mem_listedWords, hlisted, hlaidOut]
    simp only [List.mem_cons, List.not_mem_nil, hne, false_or, or_comm]
  obtain ⟨hlatest, hnewest, halike⟩ := latest_isNewestListed "zlib" output
  obtain ⟨hlatest', _, _⟩ := latest_isNewestListed "zlib" (layoutText lines)
  refine ⟨output, lines, hfirst, hsecond, hwords, ?_, ?_⟩
  · rw [hlatest p first [] hfirst]
    exact hnewest
  · rw [hlatest p first [] hfirst, hlatest' p second [] hsecond]
    exact halike lines hwords

end Spack

end DevSpecs
