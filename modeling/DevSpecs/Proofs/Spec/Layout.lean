import DevSpecs.Proofs.Spec.Items
import Mathlib.Data.List.TakeDrop

/-!
# Layouts of specs

The base of every spec consists of the words of its root and then the words of
its nodes, all joined by single spaces.  Attaching a version token to such a
text adds one word to the root.  If the root has no tokens of its own, the text
with the token is read as the package, the text without it, and the ranges of
the token.
-/

namespace DevSpecs
namespace Spec

open Text

/-- What has to hold for a text to be read as a spec. -/
theorem parse_eq_ok_iff {t : Text} {s : Spec} :
    Spec.parse t = .ok s ↔
      s.package = (Text.trim t).takeWhile isNameChar ∧ s.package ≠ [] ∧
        s.base = withoutVersion (Text.trim t) ∧
        ∃ lists, (Piece.tokens (pieces (rootAndNodes (Text.trim t)).1)).mapM
            (rangesOf (Text.trim t)) = .ok lists ∧
          s.ranges = lists.flatten := by
  obtain ⟨package, base, ranges⟩ := s
  cases hname : (Text.trim t).takeWhile isNameChar with
  | nil =>
      have herror : packageOf (Text.trim t) =
          .error (.missingPackage (Text.trim t)) := by
        rw [packageOf, hname]
      simp only [Spec.parse, herror, bind, Except.bind]
      constructor
      · intro h
        contradiction
      · rintro ⟨h, h', _⟩
        exact absurd h h'
  | cons c name =>
      have hok : packageOf (Text.trim t) = .ok (c :: name) := by
        rw [packageOf, hname]
      cases hlists :
          (Piece.tokens (pieces (rootAndNodes (Text.trim t)).1)).mapM
            (rangesOf (Text.trim t)) with
      | error e => simp [Spec.parse, hok, hlists, bind, Except.bind]
      | ok lists =>
          simp only [Spec.parse, hok, hlists, bind, Except.bind, pure,
            Except.pure, Except.ok.injEq, Spec.mk.injEq]
          constructor
          · rintro ⟨rfl, rfl, rfl⟩
            exact ⟨rfl, by simp, rfl, lists, rfl, rfl⟩
          · rintro ⟨rfl, _, rfl, _, rfl, rfl⟩
            exact ⟨rfl, rfl, rfl⟩

theorem takeWhile_rootAndNodes (t : Text) :
    (rootAndNodes t).1.takeWhile isNameChar = t.takeWhile isNameChar := by
  rw [rootAndNodes, List.span_eq_takeWhile_dropWhile]
  refine takeWhile_takeWhile_of_imp (fun c hc => ?_) _
  simp [startsNode_of_isTokenChar (isTokenChar_of_isNameChar hc)]

theorem startsNode_of_mem_rootAndNodes {t : Text} :
    ∀ c ∈ (rootAndNodes t).1, startsNode c = false := by
  rw [rootAndNodes, List.span_eq_takeWhile_dropWhile]
  intro c hc
  simpa using List.all_eq_true.mp List.all_takeWhile c hc

theorem head?_rootAndNodes {t : Text} :
    ∀ c ∈ (rootAndNodes t).2.head?, startsNode c = true := by
  rw [rootAndNodes, List.span_eq_takeWhile_dropWhile]
  intro c hc
  simpa using head?_dropWhile c hc

/-- The words of a spec: those of its root, then those of its nodes. -/
structure Layout where
  root : List Text
  nodes : List Text
  root_ne_nil : root ≠ []
  root_words : ∀ w ∈ root, IsWord w
  nodes_words : ∀ w ∈ nodes, IsWord w
  root_free : ∀ w ∈ root, ∀ c ∈ w, startsNode c = false
  nodes_start : ∀ w ∈ nodes.head?, ∀ c ∈ w.head?, startsNode c = true

namespace Layout

/-- The words joined by single spaces. -/
def text (l : Layout) : Text :=
  unwords (l.root ++ l.nodes)

/-- What stands between the root and the nodes. -/
def space (l : Layout) : Text :=
  if l.nodes.isEmpty then [] else [' ']

theorem isWord {l : Layout} : ∀ w ∈ l.root ++ l.nodes, IsWord w := by
  intro w hw
  rcases List.mem_append.mp hw with hw | hw
  · exact l.root_words w hw
  · exact l.nodes_words w hw

theorem trim_text (l : Layout) : Text.trim l.text = l.text :=
  trim_unwords isWord

theorem space_cases (l : Layout) :
    l.nodes = [] ∧ l.space = [] ∨ l.nodes ≠ [] ∧ l.space = [' '] := by
  by_cases hnodes : l.nodes = []
  · exact Or.inl ⟨hnodes, by simp [space, hnodes]⟩
  · exact Or.inr ⟨hnodes, by simp [space, hnodes]⟩

theorem text_eq (l : Layout) :
    l.text = (unwords l.root ++ l.space) ++ unwords l.nodes := by
  rcases l.space_cases with ⟨hnodes, hspace⟩ | ⟨hnodes, hspace⟩
  · simp [text, hnodes, hspace]
  · simp [text, unwords_append l.root_ne_nil hnodes, hspace]

theorem startsNode_of_mem_root {l : Layout} {c : Char}
    (h : c ∈ unwords l.root ++ l.space) : startsNode c = false := by
  have hspace : startsNode ' ' = false := by decide
  rw [List.mem_append] at h
  rcases h with h | h
  · rcases mem_unwords h with rfl | ⟨w, hw, hc⟩
    · exact hspace
    · exact l.root_free w hw c hc
  · rcases l.space_cases with ⟨_, heq⟩ | ⟨_, heq⟩
    · simp [heq] at h
    · obtain rfl : c = ' ' := by simpa [heq] using h
      exact hspace

theorem head?_unwords_nodes {l : Layout} :
    ∀ c ∈ (unwords l.nodes).head?, startsNode c = true := by
  intro c hc
  cases hnodes : l.nodes with
  | nil => simp [hnodes] at hc
  | cons w ws =>
      have hw : IsWord w := l.nodes_words w (by simp [hnodes])
      refine l.nodes_start w (by simp [hnodes]) c ?_
      obtain ⟨d, rest, rfl⟩ := List.exists_cons_of_ne_nil hw.1
      by_cases hws : ws = []
      · simpa [hnodes, hws] using hc
      · simpa [hnodes, unwords_cons hws] using hc

theorem rootAndNodes_text (l : Layout) :
    rootAndNodes l.text = (unwords l.root ++ l.space, unwords l.nodes) := by
  have hroot : ∀ c ∈ unwords l.root ++ l.space, (!startsNode c) = true := by
    intro c hc
    simp [startsNode_of_mem_root hc]
  have hnodes : ∀ c ∈ (unwords l.nodes).head?, (!startsNode c) = false := by
    intro c hc
    simp [head?_unwords_nodes c hc]
  rw [rootAndNodes, List.span_eq_takeWhile_dropWhile, text_eq,
    takeWhile_append_of_all hroot hnodes, dropWhile_append_of_all hroot hnodes]

theorem words_nodes (l : Layout) : words (unwords l.nodes) = l.nodes :=
  words_unwords l.nodes_words

theorem takeWhile_text (l : Layout) :
    l.text.takeWhile isNameChar = (unwords l.root).takeWhile isNameChar :=
  takeWhile_unwords_append (by decide) l.root_ne_nil _

/-! ## The layout of a base -/

theorem isBlank_of_mem_head? {t : Text} (h : t.takeWhile isNameChar ≠ []) :
    ∀ c ∈ t.head?, isBlank c = false := by
  intro c hc
  obtain ⟨rest, rfl⟩ := List.head?_eq_some_iff.mp hc
  rw [← Bool.not_eq_true]
  intro hblank
  simp [isNameChar_of_isBlank hblank] at h

/-- The leading name stays, so some word does. -/
theorem words_keptText_ne_nil {root : Text}
    (h : root.takeWhile isNameChar ≠ []) :
    words (Piece.keptText (pieces root)) ≠ [] := by
  rw [← takeWhile_keptText_pieces] at h
  cases hkept : Piece.keptText (pieces root) with
  | nil => simp [hkept] at h
  | cons c rest =>
      have hc := isBlank_of_mem_head? h c (by rw [hkept]; rfl)
      rw [words_cons_of_not_isBlank hc]
      exact List.cons_ne_nil _ _

/-- The layout of a root without its tokens and of the nodes after it. -/
def ofParts (root nodes : Text) (hroot : root.takeWhile isNameChar ≠ [])
    (hfree : ∀ c ∈ root, startsNode c = false)
    (hnodes : ∀ c ∈ nodes.head?, startsNode c = true) : Layout where
  root := words (Piece.keptText (pieces root))
  nodes := words nodes
  root_ne_nil := words_keptText_ne_nil hroot
  root_words _ := isWord_of_mem_words
  nodes_words _ := isWord_of_mem_words
  root_free w hw c hc :=
    hfree c ((keptText_pieces_sublist root).subset (mem_of_mem_words hw hc))
  nodes_start w hw c hc := by
    have hhead : ∀ c ∈ nodes.head?, isBlank c = false := fun c hc =>
      isBlank_of_startsNode (hnodes c hc)
    rw [head?_of_mem_head?_words hhead hw] at hc
    exact hnodes c hc

theorem takeWhile_text_ofParts (root nodes : Text)
    (hroot : root.takeWhile isNameChar ≠ [])
    (hfree : ∀ c ∈ root, startsNode c = false)
    (hnodes : ∀ c ∈ nodes.head?, startsNode c = true) :
    (ofParts root nodes hroot hfree hnodes).text.takeWhile isNameChar =
      root.takeWhile isNameChar := by
  rw [takeWhile_text, ← takeWhile_keptText_pieces root]
  refine takeWhile_unwords_words ?_ ?_
  · intro c hc
    exact isBlank_of_isTokenChar (isTokenChar_of_isNameChar hc)
  · apply isBlank_of_mem_head?
    rw [takeWhile_keptText_pieces]
    exact hroot

/-- Every base has a layout: the words of the root without its tokens and those
of the nodes.  It starts with the package name. -/
theorem exists_layout_of_parse {t : Text} {s : Spec}
    (h : Spec.parse t = .ok s) :
    s.package ≠ [] ∧ ∃ l : Layout,
      l.root = words (Piece.keptText (pieces (rootAndNodes (Text.trim t)).1)) ∧
        l.nodes = words (rootAndNodes (Text.trim t)).2 ∧ s.base = l.text ∧
        l.text.takeWhile isNameChar = s.package := by
  obtain ⟨hpackage, hne, hbase, _⟩ := parse_eq_ok_iff.mp h
  have hroot : (rootAndNodes (Text.trim t)).1.takeWhile isNameChar =
      s.package := by
    rw [takeWhile_rootAndNodes, hpackage]
  refine ⟨hne, ofParts _ _ (hroot ▸ hne) startsNode_of_mem_rootAndNodes
    head?_rootAndNodes, rfl, rfl, ?_, ?_⟩
  · rw [hbase, withoutVersion, trim_trim]
    rfl
  · exact (takeWhile_text_ofParts _ _ _ _ _).trans hroot

theorem exists_of_parse {t : Text} {s : Spec} (h : Spec.parse t = .ok s) :
    s.package ≠ [] ∧ ∃ l : Layout, s.base = l.text ∧
      l.text.takeWhile isNameChar = s.package := by
  obtain ⟨hne, l, _, _, hbase, hname⟩ := exists_layout_of_parse h
  exact ⟨hne, l, hbase, hname⟩

/-! ## Attaching a token -/

/-- The layout with the token of some items as the last word of the root. -/
def attach (l : Layout) (items : List Item) : Layout where
  root := l.root ++ ['@' :: Item.listText items]
  nodes := l.nodes
  root_ne_nil := by simp
  root_words := by
    intro w hw
    rcases List.mem_append.mp hw with hw | hw
    · exact l.root_words w hw
    · obtain rfl := List.mem_singleton.mp hw
      exact ⟨by simp, fun c hc => (Item.of_mem_token hc).1⟩
  nodes_words := l.nodes_words
  root_free := by
    intro w hw c hc
    rcases List.mem_append.mp hw with hw | hw
    · exact l.root_free w hw c hc
    · obtain rfl := List.mem_singleton.mp hw
      exact (Item.of_mem_token hc).2
  nodes_start := l.nodes_start

theorem unwords_root_attach (l : Layout) (items : List Item) :
    unwords (l.attach items).root =
      unwords l.root ++ ' ' :: '@' :: Item.listText items := by
  rw [attach, unwords_append l.root_ne_nil (by simp), unwords_singleton]

theorem space_attach (l : Layout) (items : List Item) :
    (l.attach items).space = l.space :=
  rfl

theorem trimEnd_root (l : Layout) :
    trimEnd (unwords l.root ++ l.space) = unwords l.root := by
  rcases l.space_cases with ⟨_, hspace⟩ | ⟨_, hspace⟩
  · rw [hspace, List.append_nil, trimEnd_unwords l.root_words]
  · rw [hspace, trimEnd_append_blank (by decide), trimEnd_unwords l.root_words]

/-- Anything attached to a text comes after the whole root and before all
nodes. -/
theorem withVersion_text_eq (l : Layout) (token : Text) :
    withVersion l.text token =
      unwords l.root ++ ' ' :: token ++ l.space ++ unwords l.nodes := by
  rw [withVersion, rootAndNodes_text]
  simp only [trimEnd_root]
  rcases l.space_cases with ⟨hnodes, hspace⟩ | ⟨hnodes, hspace⟩
  · simp [hnodes, hspace]
  · have hne : (unwords l.nodes).isEmpty = false := by
      simpa using unwords_ne_nil hnodes l.nodes_words
    simp [hne, hspace]

/-- Attaching a token to a text adds a word to the root. -/
theorem withVersion_text (l : Layout) (items : List Item) :
    withVersion l.text ('@' :: Item.listText items) = (l.attach items).text := by
  rw [withVersion_text_eq, text_eq, unwords_root_attach, space_attach]
  rfl

/-! ## Reading a text with a token -/

/-- The root has no tokens of its own. -/
def Plain (l : Layout) : Prop :=
  Spec.Plain (unwords l.root)

theorem plain_of_parse {l : Layout} {s : Spec} (h : Spec.parse l.text = .ok s)
    (hranges : s.ranges = []) : l.Plain := by
  obtain ⟨_, _, _, lists, hlists, hflat⟩ := parse_eq_ok_iff.mp h
  rw [trim_text, rootAndNodes_text, mapM_eq_ok_iff] at hlists
  have hnone : lists = [] := by
    cases lists with
    | nil => rfl
    | cons ranges rest =>
        obtain ⟨list, _, _, hlist, _⟩ := List.map_eq_cons_iff.mp hlists
        rw [hranges] at hflat
        have hempty := List.flatten_eq_nil_iff.mp hflat.symm ranges (by simp)
        exact absurd hempty (rangesOf_ne_nil hlist)
  rw [hnone, List.map_nil, List.map_eq_nil_iff, ← plain_iff_tokens] at hlists
  exact hlists.of_append

theorem Plain.pieces_attach {l : Layout} (hl : l.Plain) {items : List Item}
    (hitems : items ≠ []) :
    pieces (unwords (l.attach items).root ++ l.space) =
      (unwords l.root).map .kept ++
        .kept ' ' :: .token (Item.listText items) :: l.space.map .kept := by
  have hspace : piecesAfterName l.space = l.space.map .kept := by
    rcases l.space_cases with ⟨_, h⟩ | ⟨_, h⟩
    · simp [h]
    · simp [h]
  have hstop : ∀ c ∈ l.space.head?, isTokenChar c = false := by
    have hblank : isTokenChar ' ' = false := isTokenChar_of_isBlank (by decide)
    rcases l.space_cases with ⟨_, h⟩ | ⟨_, h⟩
    · simp [h]
    · simp [h, hblank]
  rw [unwords_root_attach, List.append_assoc, List.cons_append, List.cons_append,
    Spec.Plain.pieces_append_token hl (Item.listText_ne_nil hitems)
      (fun c => Item.isTokenChar_of_mem_listText) hstop, hspace]

theorem Plain.withoutVersion_attach {l : Layout} (hl : l.Plain)
    {items : List Item} (hitems : items ≠ []) :
    withoutVersion (l.attach items).text = l.text := by
  have hkept : Piece.keptText
      (pieces (unwords (l.attach items).root ++ l.space)) =
        unwords l.root ++ ' ' :: l.space := by
    rw [hl.pieces_attach hitems]
    simp [Piece.keptText]
  have hspace : words l.space = [] := by
    rcases l.space_cases with ⟨_, h⟩ | ⟨_, h⟩
    · rw [h]
      rfl
    · rw [h]
      exact words_cons_blank [] (by decide)
  rw [withoutVersion, trim_text, rootAndNodes_text, space_attach]
  simp only [words_nodes]
  rw [hkept, words_append_cons _ _ (by decide), words_unwords l.root_words,
    hspace, List.append_nil]
  rfl

/-- A text with a token is read as the text without it and the ranges of the
token, if there is no other token. -/
theorem Plain.parse_attach {l : Layout} (hl : l.Plain)
    (hname : l.text.takeWhile isNameChar ≠ []) {items : List Item}
    (hitems : items ≠ []) :
    Spec.parse (l.attach items).text =
      .ok ⟨l.text.takeWhile isNameChar, l.text, items.map Item.range⟩ := by
  have hpackage : (l.attach items).text.takeWhile isNameChar =
      l.text.takeWhile isNameChar := by
    rw [takeWhile_text, takeWhile_text, unwords_root_attach]
    refine takeWhile_append_of_head ?_
    rintro _ ⟨⟩
    decide
  have htokens : Piece.tokens
      (pieces (unwords (l.attach items).root ++ l.space)) =
        [Item.listText items] := by
    rw [hl.pieces_attach hitems]
    simp [Piece.tokens]
  rw [parse_eq_ok_iff, trim_text, rootAndNodes_text, space_attach]
  refine ⟨hpackage.symm, hname, (hl.withoutVersion_attach hitems).symm,
    [items.map Item.range], ?_, by simp⟩
  rw [htokens, mapM_eq_ok_iff, List.map_singleton,
    Item.rangesOf_listText _ hitems]
  rfl

end Layout

end Spec
end DevSpecs
