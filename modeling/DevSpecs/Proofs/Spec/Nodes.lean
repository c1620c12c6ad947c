import DevSpecs.Proofs.Spec.Grammar

/-!
# Nodes stay apart from the root

Compiler and dependency nodes may have tokens of their own.  The main statement
says that a root with nodes behind it is read as the root alone, with the words
of the nodes added to the base, and that a token attached to that base stands
between the root and the nodes.
-/

namespace DevSpecs
namespace Spec

open Text Piece

/-! ## Blanks behind a root -/

theorem piecesAfterName_of_no_at {t : Text} (h : '@' ∉ t) :
    piecesAfterName t = t.map .kept := by
  fun_induction piecesAfterName t with
  | case1 => rfl
  | case2 c => rfl
  | case3 c d t hat ih =>
      rw [Bool.and_eq_true, beq_iff_eq] at hat
      exact absurd (by simp [hat.2]) h
  | case4 c d t hat ih =>
      rw [ih (List.not_mem_of_not_mem_cons h)]
      rfl

section Blanks

variable {blanks : Text} (hblanks : ∀ c ∈ blanks, isBlank c = true)

include hblanks

theorem at_not_mem_blanks : '@' ∉ blanks := fun h =>
  absurd (hblanks '@' h) (by decide)

theorem isBlank_of_mem_head?_blanks : ∀ c ∈ blanks.head?, isBlank c = true :=
  fun c hc => hblanks c (List.mem_of_head? hc)

/-- Blanks behind a token may be stepped over, and do not change its text. -/
theorem exists_tokenTail_append_blanks (t : Text) :
    ∃ rest : Text, (∀ c ∈ rest, isBlank c = true) ∧
      tokenTail (t ++ blanks) = ((tokenTail t).1, (tokenTail t).2 ++ rest) := by
  have hstop : ∀ c ∈ blanks.head?, isTokenChar c = false := fun c hc =>
    isTokenChar_of_isBlank (isBlank_of_mem_head?_blanks hblanks c hc)
  have hall : blanks.dropWhile isBlank = [] :=
    List.dropWhile_eq_nil_iff.mpr hblanks
  by_cases hempty : t.dropWhile isBlank = []
  -- If nothing but blanks follows the `@`, the new blanks are stepped over too.
  · refine ⟨[], by simp, ?_⟩
    simp [tokenTail, Text.trimStart, List.dropWhile_append, hempty, hall]
  · have hskip : Text.trimStart (t ++ blanks) = Text.trimStart t ++ blanks := by
      simp [Text.trimStart, List.dropWhile_append, hempty]
    refine ⟨blanks, hblanks, ?_⟩
    simp only [tokenTail, hskip, takeWhile_append_of_head hstop,
      dropWhile_append_of_head hstop]

/-- Blanks behind a root are not part of any token. -/
theorem exists_piecesAfterName_append_blanks (t : Text) :
    ∃ rest : Text, (∀ c ∈ rest, isBlank c = true) ∧
      piecesAfterName (t ++ blanks) = piecesAfterName t ++ rest.map .kept := by
  fun_induction piecesAfterName t generalizing blanks with
  | case1 =>
      exact ⟨blanks, hblanks, piecesAfterName_of_no_at (at_not_mem_blanks hblanks)⟩
  | case2 c =>
      refine ⟨blanks, hblanks, ?_⟩
      have hno := at_not_mem_blanks hblanks
      rw [piecesAfterName_append (piecesAfterName_singleton c),
        piecesAfterName_of_no_at hno]
      · rfl
      · intro c hc heq
        exact hno (heq ▸ List.mem_of_head? hc)
  | case3 c d t hat ih =>
      obtain ⟨left, hleft, htail⟩ := exists_tokenTail_append_blanks hblanks t
      obtain ⟨rest, hrest, heq⟩ := ih hleft
      refine ⟨rest, hrest, ?_⟩
      rw [List.cons_append, List.cons_append, piecesAfterName_token hat, htail, heq]
      rfl
  | case4 c d t hat ih =>
      obtain ⟨rest, hrest, heq⟩ := ih hblanks
      refine ⟨rest, hrest, ?_⟩
      rw [List.cons_append, List.cons_append,
        piecesAfterName_cons (Bool.not_eq_true _ ▸ hat), ← List.cons_append, heq]
      rfl

theorem exists_pieces_append_blanks (root : Text) :
    ∃ rest : Text, (∀ c ∈ rest, isBlank c = true) ∧
      pieces (root ++ blanks) = pieces root ++ rest.map .kept := by
  by_cases h : Attached root
  · obtain ⟨name, t, hne, hname, rfl⟩ := h
    obtain ⟨left, hleft, htail⟩ := exists_tokenTail_append_blanks hblanks t
    obtain ⟨rest, hrest, heq⟩ :=
      exists_piecesAfterName_append_blanks hleft (tokenTail t).2
    refine ⟨rest, hrest, ?_⟩
    rw [List.append_assoc, List.cons_append, pieces_attached hne hname, htail,
      heq, pieces_attached hne hname]
    simp
  · have hnot : ¬Attached (root ++ blanks) := by
      rwa [attached_append_iff (isBlank_of_mem_head?_blanks hblanks)]
    rw [pieces_of_not_attached hnot, pieces_of_not_attached h]
    exact exists_piecesAfterName_append_blanks hblanks root

end Blanks

/-! ## A root with nodes behind it -/

/-- What has to hold for a text to be read as a spec, said of its root and its
nodes. -/
theorem parse_eq_ok_iff_of_split {t root nodes : Text} {s : Spec}
    (hsplit : rootAndNodes (Text.trim t) = (root, nodes)) :
    Spec.parse t = .ok s ↔
      s.package = root.takeWhile isNameChar ∧ s.package ≠ [] ∧
        s.base = unwords (words (keptText (pieces root)) ++ words nodes) ∧
        ∃ parts, List.Forall₂ ListMeans (tokens (pieces root)) parts ∧
          s.ranges = parts.flatten := by
  have hname : root.takeWhile isNameChar = (Text.trim t).takeWhile isNameChar := by
    rw [← takeWhile_rootAndNodes (Text.trim t), hsplit]
  have hbase : withoutVersion (Text.trim t) =
      unwords (words (keptText (pieces root)) ++ words nodes) := by
    rw [withoutVersion, trim_trim, hsplit]
  simp only [parse_eq_ok_iff, hname, hbase, hsplit,
    mapM_rangesOf_tokens_eq_ok_iff]

theorem rootAndNodes_append {r n : Text} (hr : ∀ c ∈ r, startsNode c = false)
    (hn : ∀ c ∈ n.head?, startsNode c = true) :
    rootAndNodes (r ++ n) = (r, n) := by
  have hall : ∀ c ∈ r, (!startsNode c) = true := by
    intro c hc
    simp [hr c hc]
  have hstop : ∀ c ∈ n.head?, (!startsNode c) = false := by
    intro c hc
    simp [hn c hc]
  rw [rootAndNodes, List.span_eq_takeWhile_dropWhile,
    takeWhile_append_of_all hall hstop, dropWhile_append_of_all hall hstop]

theorem rootAndNodes_trim_root {r : Text} (hr : ∀ c ∈ r, startsNode c = false) :
    rootAndNodes (Text.trim r) = (Text.trim r, []) := by
  have hfree : ∀ c ∈ Text.trim r, startsNode c = false := by
    intro c hc
    have hmem : c ∈ Text.trimStart r := (List.rdropWhile_prefix _ _).subset hc
    exact hr c ((List.dropWhile_sublist _).subset hmem)
  simpa using rootAndNodes_append (n := []) hfree (by simp)

/-- A root is read alike with and without the blanks behind it. -/
theorem pieces_trimStart (r : Text) :
    tokens (pieces (Text.trimStart r)) = tokens (pieces (Text.trim r)) ∧
      words (keptText (pieces (Text.trimStart r))) =
        words (keptText (pieces (Text.trim r))) ∧
      (Text.trimStart r).takeWhile isNameChar =
        (Text.trim r).takeWhile isNameChar := by
  obtain ⟨blanks, hblanks, heq⟩ := exists_trimEnd_append (Text.trimStart r)
  have hstop : ∀ c ∈ blanks.head?, isNameChar c = false := fun c hc =>
    isNameChar_of_isBlank (isBlank_of_mem_head?_blanks hblanks c hc)
  obtain ⟨rest, hrest, hpieces⟩ :=
    exists_pieces_append_blanks hblanks (Text.trim r)
  rw [heq, ← Text.trim, hpieces, tokens_append, tokens_map_kept,
    keptText_append, keptText_map_kept, List.append_nil,
    words_append_blanks _ hrest, takeWhile_append_of_head hstop]
  exact ⟨rfl, rfl, rfl⟩

section Nodes

variable {n : Text} (hn : ∃ c ∈ n.head?, startsNode c = true)

include hn

theorem words_nodes_ne_nil : words n ≠ [] := by
  obtain ⟨c, hhead, hc⟩ := hn
  obtain ⟨rest, rfl⟩ := List.head?_eq_some_iff.mp hhead
  rw [words_cons_of_not_isBlank (isBlank_of_startsNode hc)]
  exact List.cons_ne_nil _ _

theorem startsNode_of_mem_head? : ∀ c ∈ n.head?, startsNode c = true := by
  obtain ⟨d, hhead, hd⟩ := hn
  intro c hc
  obtain rfl : d = c := Option.some.inj (hhead.symm.trans hc)
  exact hd

/-- The layout with the words of `n` for its nodes. -/
def Layout.withNodes (l : Layout) : Layout where
  root := l.root
  nodes := words n
  root_ne_nil := l.root_ne_nil
  root_words := l.root_words
  nodes_words _ := isWord_of_mem_words
  root_free := l.root_free
  nodes_start w hw c hc := by
    have hstart := startsNode_of_mem_head? hn
    rw [head?_of_mem_head?_words
      (fun d hd => isBlank_of_startsNode (hstart d hd)) hw] at hc
    exact hstart c hc

theorem Layout.text_withNodes {l : Layout} (hl : l.nodes = []) :
    (l.withNodes hn).text = l.text ++ ' ' :: unwords (words n) := by
  have htext : l.text = unwords l.root := by
    rw [text, hl, List.append_nil]
  rw [htext]
  exact unwords_append l.root_ne_nil (words_nodes_ne_nil hn)

theorem Layout.withVersion_text_withNodes {l : Layout} (hl : l.nodes = [])
    (token : Text) :
    withVersion (l.withNodes hn).text token =
      l.text ++ ' ' :: token ++ ' ' :: unwords (words n) := by
  have hspace : (l.withNodes hn).space = [' '] := by
    simp [space, withNodes, words_nodes_ne_nil hn]
  rw [withVersion_text_eq, hspace, text, hl, List.append_nil]
  simp [withNodes]

variable {r : Text} (hr : ∀ c ∈ r, startsNode c = false)

include hr

theorem rootAndNodes_trim_append :
    rootAndNodes (Text.trim (r ++ n)) = (Text.trimStart r, Text.trimEnd n) := by
  have hnodes := startsNode_of_mem_head? hn
  obtain ⟨c, hhead, hc⟩ := hn
  obtain ⟨rest, rfl⟩ := List.head?_eq_some_iff.mp hhead
  have hblank : isBlank c = false := isBlank_of_startsNode hc
  rw [trim_append_cons r hblank]
  refine rootAndNodes_append ?_ ?_
  · exact fun d hd => hr d ((List.dropWhile_sublist _).subset hd)
  · rw [head?_trimEnd_cons hblank]
    exact hnodes

/-- A root with nodes behind it is read as the root alone is, apart from the
words of the nodes at the end of the base. -/
theorem parse_append_eq_ok_iff {s : Spec} :
    Spec.parse (r ++ n) = .ok s ↔
      ∃ alone, Spec.parse r = .ok alone ∧
        s = ⟨alone.package, alone.base ++ ' ' :: unwords (words n),
          alone.ranges⟩ := by
  obtain ⟨htokens, hwords, hname⟩ := pieces_trimStart r
  have hbase : (Text.trim r).takeWhile isNameChar ≠ [] →
      unwords (words (keptText (pieces (Text.trim r))) ++ words n) =
        unwords (words (keptText (pieces (Text.trim r)))) ++
          ' ' :: unwords (words n) := fun h =>
    unwords_append (Layout.words_keptText_ne_nil h) (words_nodes_ne_nil hn)
  simp only [parse_eq_ok_iff_of_split (rootAndNodes_trim_append hn hr),
    parse_eq_ok_iff_of_split (rootAndNodes_trim_root hr), htokens, hwords, hname,
    words_trimEnd, words_nil, List.append_nil]
  constructor
  · rintro ⟨hpackage, hne, heq, hranges⟩
    refine ⟨⟨s.package, unwords (words (keptText (pieces (Text.trim r)))),
      s.ranges⟩, ⟨hpackage, hne, rfl, hranges⟩, ?_⟩
    rw [← hbase (hpackage ▸ hne), ← heq]
  · rintro ⟨alone, ⟨hpackage, hne, heq, hranges⟩, rfl⟩
    refine ⟨hpackage, hne, ?_, hranges⟩
    rw [hbase (hpackage ▸ hne), ← heq]

/-- A root with nodes behind it is read exactly when the root alone is, as the
same package and ranges.  The words of the nodes follow the base of the root, and
a token that is attached comes between the two. -/
theorem parse_append_nodes :
    ((∃ s, Spec.parse (r ++ n) = .ok s) ↔ ∃ s, Spec.parse r = .ok s) ∧
      ∀ s, Spec.parse r = .ok s →
        Spec.parse (r ++ n) =
            .ok ⟨s.package, s.base ++ ' ' :: unwords (words n), s.ranges⟩ ∧
          ∀ token, withVersion (s.base ++ ' ' :: unwords (words n)) token =
            s.base ++ ' ' :: token ++ ' ' :: unwords (words n) := by
  simp only [parse_append_eq_ok_iff hn hr]
  refine ⟨⟨?_, ?_⟩, fun s hs => ⟨⟨s, hs, rfl⟩, fun token => ?_⟩⟩
  · rintro ⟨_, alone, halone, _⟩
    exact ⟨alone, halone⟩
  · rintro ⟨alone, halone⟩
    exact ⟨_, alone, halone, rfl⟩
  · obtain ⟨_, l, _, hnodes, hbase, _⟩ := Layout.exists_layout_of_parse hs
    rw [rootAndNodes_trim_root hr] at hnodes
    rw [hbase, ← Layout.text_withNodes hn hnodes,
      Layout.withVersion_text_withNodes hn hnodes]

end Nodes

/-- Nodes with tokens of their own behind a root with one. -/
theorem parse_append_nodes_with_tokens :
    ∃ s, Spec.parse "foo@2:  +mpi " = .ok s ∧ s.base = "foo +mpi" ∧
      (∃ c ∈ "%gcc @12  ^bar@3: @4 ".toList.head?, startsNode c = true) ∧
      (∀ c ∈ "foo@2:  +mpi ".toList, startsNode c = false) ∧
      Spec.parse ("foo@2:  +mpi ".toList ++ "%gcc @12  ^bar@3: @4 ".toList) =
        .ok ⟨s.package, "foo +mpi %gcc @12 ^bar@3: @4", s.ranges⟩ ∧
      withVersion "foo +mpi %gcc @12 ^bar@3: @4" "@5" =
        "foo +mpi @5 %gcc @12 ^bar@3: @4" := by
  obtain ⟨s, hparse, hbase⟩ :=
    exists_ok_of_any (Spec.parse "foo@2:  +mpi ")
      (fun s => decide (s.base = "foo +mpi")) (by decide +kernel)
  have hbase := of_decide_eq_true hbase
  have hn : ∃ c ∈ "%gcc @12  ^bar@3: @4 ".toList.head?, startsNode c = true :=
    ⟨'%', rfl, rfl⟩
  have hr : ∀ c ∈ "foo@2:  +mpi ".toList, startsNode c = false := by
    simpa using (by decide +kernel :
      ("foo@2:  +mpi ".toList.all (!startsNode ·)) = true)
  have hwords : "foo +mpi".toList ++
      ' ' :: unwords (words "%gcc @12  ^bar@3: @4 ".toList) =
        "foo +mpi %gcc @12 ^bar@3: @4".toList := by decide +kernel
  obtain ⟨happend, hattach⟩ := (parse_append_nodes hn hr).2 s hparse
  rw [hbase, hwords] at happend
  have htoken := hattach "@5"
  rw [hbase, hwords] at htoken
  refine ⟨s, hparse, hbase, hn, hr, happend, htoken.trans ?_⟩
  decide +kernel

end Spec
end DevSpecs
