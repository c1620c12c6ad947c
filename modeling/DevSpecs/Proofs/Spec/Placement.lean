import DevSpecs.Proofs.Spec.Nodes
import DevSpecs.Proofs.Dependency.Declared

/-!
# Where version tokens stand

The version tokens of a root may stand directly behind the package name or
anywhere among the words behind it, with blanks behind their `@`, and the items
may be spread over several tokens.  The main statement says that none of this, nor
the blanks around the words, changes what is read.
-/

namespace DevSpecs

namespace Spec

open Text Piece

/-! ## Writings of a spec -/

/-- The characters of words that belong to no token and no node. -/
def isWordChar (c : Char) : Bool :=
  !isBlank c && c != '@' && !startsNode c

/-- A root version token as it is written. -/
structure Token where
  /-- The blanks behind the `@`. -/
  gap : Text
  items : List Item
  gap_blank : gap.all isBlank = true
  items_ne_nil : items ≠ []

namespace Token

def list (t : Token) : Text :=
  Item.listText t.items

def text (t : Token) : Text :=
  '@' :: (t.gap ++ t.list)

end Token

/-- A word of a root, or a token that stands as a word. -/
inductive Entry where
  | word (w : Text) (ne_nil : w ≠ []) (chars : w.all isWordChar = true)
  | token (t : Token)

namespace Entry

def text : Entry → Text
  | .word w .. => w
  | .token t => t.text

def word? : Entry → Option Text
  | .word w .. => some w
  | .token _ => none

def token? : Entry → Option Token
  | .word .. => none
  | .token t => some t

/-- How the reader takes an entry behind blanks. -/
def pieces : Entry → List Piece
  | .word w .. => w.map .kept
  | .token t => [.token t.list]

end Entry

/-- An entry with the blanks before it. -/
structure Part where
  blanks : Text
  entry : Entry
  blanks_ne_nil : blanks ≠ []
  all_blank : blanks.all isBlank = true

namespace Part

def text (part : Part) : Text :=
  part.blanks ++ part.entry.text

def pieces (part : Part) : List Piece :=
  part.blanks.map .kept ++ part.entry.pieces

/-- What stays of a part when tokens are taken out. -/
def kept (part : Part) : Text :=
  part.blanks ++ part.entry.word?.getD []

end Part

/-- A way to write a spec: a package name, possibly with a token directly behind
it, then words and tokens, then nodes. -/
structure Writing where
  before : Text
  name : Text
  attached : Option Token
  parts : List Part
  after : Text
  /-- The compiler and dependency nodes, if any. -/
  nodes : Text
  before_blank : before.all isBlank = true
  name_ne_nil : name ≠ []
  name_chars : name.all isNameChar = true
  after_blank : after.all isBlank = true
  nodes_start : nodes.head?.all startsNode = true

/-- What a spec says: its package name, the other words of its root, its items,
and the words of its nodes, each in the order written. -/
structure Content where
  name : Text
  words : List Text
  items : List Item
  nodes : List Text

/-- The words joined by single spaces, with the ranges of the items. -/
def Content.spec (content : Content) : Spec where
  package := content.name
  base := unwords (content.name :: content.words ++ content.nodes)
  ranges := content.items.map Item.range

namespace Writing

/-- What is written behind the name and any token at it, up to the nodes. -/
def rest (w : Writing) : Text :=
  w.parts.flatMap Part.text ++ w.after

/-- What is written up to the nodes, without the blanks at the start. -/
def root (w : Writing) : Text :=
  w.name ++ (w.attached.map Token.text).getD [] ++ w.rest

def text (w : Writing) : Text :=
  w.before ++ w.root ++ w.nodes

/-- The tokens in the order written. -/
def tokens (w : Writing) : List Token :=
  w.attached.toList ++ w.parts.filterMap (·.entry.token?)

def content (w : Writing) : Content where
  name := w.name
  words := w.parts.filterMap (·.entry.word?)
  items := w.tokens.flatMap Token.items
  nodes := words w.nodes

end Writing

/-! ## Reading the entries -/

theorem of_isWordChar {c : Char} (h : isWordChar c = true) :
    isBlank c = false ∧ c ≠ '@' ∧ startsNode c = false := by
  simpa [isWordChar, and_assoc] using h

theorem isWord_of_all {w : Text} (hne : w ≠ []) (h : w.all isWordChar = true) :
    IsWord w :=
  ⟨hne, fun c hc => (of_isWordChar (List.all_eq_true.mp h c hc)).1⟩

theorem at_not_mem_of_all {w : Text} (h : w.all isWordChar = true) : '@' ∉ w :=
  fun hat => (of_isWordChar (List.all_eq_true.mp h '@' hat)).2.1 rfl

theorem Part.isBlank_of_mem_blanks (part : Part) :
    ∀ c ∈ part.blanks, isBlank c = true :=
  List.all_eq_true.mp part.all_blank

/-- A token ends at the end of the text or at the next blank. -/
theorem Token.tokenTail_append (token : Token) {t : Text}
    (ht : ∀ c ∈ t.head?, isBlank c = true) :
    tokenTail (token.gap ++ token.list ++ t) = (token.list, t) := by
  have hne : token.list ≠ [] := Item.listText_ne_nil token.items_ne_nil
  have hlist : ∀ c ∈ token.list, isTokenChar c = true := fun _ =>
    Item.isTokenChar_of_mem_listText
  have hstop : ∀ c ∈ t.head?, isTokenChar c = false := fun c hc =>
    isTokenChar_of_isBlank (ht c hc)
  have hskip : trimStart (token.gap ++ token.list ++ t) =
      trimStart (token.list ++ t) := by
    rw [trimStart, List.append_assoc,
      List.dropWhile_append_of_pos (List.all_eq_true.mp token.gap_blank)]
    rfl
  have htail := Spec.tokenTail_append hne hlist hstop
  rw [tokenTail] at htail ⊢
  rwa [hskip]

/-- A token behind blanks is read with the last of them. -/
theorem piecesAfterName_blanks_token {blanks t : Text} (hne : blanks ≠ [])
    (hblanks : ∀ c ∈ blanks, isBlank c = true) :
    piecesAfterName (blanks ++ '@' :: t) =
      blanks.map .kept ++
        .token (tokenTail t).1 :: piecesAfterName (tokenTail t).2 := by
  obtain ⟨front, c, hsplit⟩ := (List.eq_nil_or_concat blanks).resolve_left hne
  rw [List.concat_eq_append] at hsplit
  subst hsplit
  have hc : isBlank c = true := hblanks c (by simp)
  have hfront : piecesAfterName front = front.map .kept := by
    apply piecesAfterName_of_no_at
    exact at_not_mem_blanks fun d hd => hblanks d (by simp [hd])
  have hlast : ∀ d ∈ (c :: '@' :: t).head?, d ≠ '@' := by
    rintro _ ⟨⟩
    exact ne_at_of_isBlank hc
  rw [List.append_assoc, List.singleton_append,
    piecesAfterName_append hfront hlast, piecesAfterName_token (by simp [hc])]
  simp

/-- An entry behind blanks is read on its own. -/
theorem Part.piecesAfterName_append (part : Part) {t : Text}
    (ht : ∀ c ∈ t.head?, isBlank c = true) :
    piecesAfterName (part.text ++ t) = part.pieces ++ piecesAfterName t := by
  have hblanks := part.isBlank_of_mem_blanks
  rw [Part.text, Part.pieces, List.append_assoc, List.append_assoc]
  cases part.entry with
  | word w _ hw =>
      have hno : '@' ∉ part.blanks ++ w := by
        simp [at_not_mem_blanks hblanks, at_not_mem_of_all hw]
      have hstop : ∀ c ∈ t.head?, c ≠ '@' := fun c hc => ne_at_of_isBlank (ht c hc)
      have hkept := piecesAfterName_of_no_at hno
      have happend := Spec.piecesAfterName_append hkept hstop
      rwa [List.append_assoc, List.map_append, List.append_assoc] at happend
  | token token =>
      have hread := piecesAfterName_blanks_token (t := token.gap ++ token.list ++ t)
        part.blanks_ne_nil hblanks
      rw [token.tokenTail_append ht] at hread
      exact hread

/-- What starts with the blanks of parts, if with anything, starts with a blank. -/
theorem isBlank_of_mem_head?_flatMap {f : Part → Text}
    (hf : ∀ part, part.blanks <+: f part) (parts : List Part) {t : Text}
    (ht : ∀ c ∈ t.head?, isBlank c = true) :
    ∀ c ∈ (parts.flatMap f ++ t).head?, isBlank c = true := by
  cases parts with
  | nil => exact ht
  | cons part parts =>
      obtain ⟨c, blanks, hcons⟩ := List.exists_cons_of_ne_nil part.blanks_ne_nil
      obtain ⟨u, hu⟩ := hf part
      have hc : isBlank c = true := part.isBlank_of_mem_blanks c (by simp [hcons])
      simp [← hu, hcons, hc]

theorem piecesAfterName_parts (parts : List Part) {t : Text}
    (ht : ∀ c ∈ t.head?, isBlank c = true) :
    piecesAfterName (parts.flatMap Part.text ++ t) =
      parts.flatMap Part.pieces ++ piecesAfterName t := by
  induction parts with
  | nil => rfl
  | cons part parts ih =>
      have hrest : ∀ c ∈ (parts.flatMap Part.text ++ t).head?, isBlank c = true :=
        isBlank_of_mem_head?_flatMap (fun _ => List.prefix_append _ _) parts ht
      rw [List.flatMap_cons, List.flatMap_cons, List.append_assoc, List.append_assoc,
        part.piecesAfterName_append hrest, ih]

/-! ## What the entries say -/

theorem tokens_parts (parts : List Part) :
    Piece.tokens (parts.flatMap Part.pieces) =
      (parts.filterMap (·.entry.token?)).map Token.list := by
  induction parts with
  | nil => rfl
  | cons part parts ih =>
      rw [List.flatMap_cons, Part.pieces, Piece.tokens_append, Piece.tokens_append,
        Piece.tokens_map_kept, List.nil_append, ih, List.filterMap_cons]
      cases part.entry with
      | word w _ _ => simp [Entry.pieces, Entry.token?]
      | token token => rfl

theorem keptText_parts (parts : List Part) :
    keptText (parts.flatMap Part.pieces) = parts.flatMap Part.kept := by
  induction parts with
  | nil => rfl
  | cons part parts ih =>
      rw [List.flatMap_cons, Part.pieces, keptText_append, keptText_append,
        keptText_map_kept, ih, List.flatMap_cons, Part.kept]
      cases part.entry with
      | word w _ _ => simp [Entry.pieces, Entry.word?]
      | token token => rfl

theorem Part.words_kept_append (part : Part) {t : Text}
    (ht : ∀ c ∈ t.head?, isBlank c = true) :
    words (part.kept ++ t) = part.entry.word?.toList ++ words t := by
  rw [kept, List.append_assoc, words_blanks_append part.isBlank_of_mem_blanks]
  cases part.entry with
  | word w hne hw => exact words_append_word (isWord_of_all hne hw) ht
  | token token => rfl

theorem words_kept_parts (parts : List Part) {t : Text}
    (ht : ∀ c ∈ t.head?, isBlank c = true) :
    words (parts.flatMap Part.kept ++ t) =
      parts.filterMap (·.entry.word?) ++ words t := by
  induction parts with
  | nil => rfl
  | cons part parts ih =>
      have hrest : ∀ c ∈ (parts.flatMap Part.kept ++ t).head?, isBlank c = true :=
        isBlank_of_mem_head?_flatMap (fun _ => List.prefix_append _ _) parts ht
      rw [List.flatMap_cons, List.append_assoc, part.words_kept_append hrest, ih,
        List.filterMap_cons]
      cases part.entry.word? <;> rfl

/-! ## Reading a writing -/

/-- What has to hold for a root with nodes behind it, if any, to be read as a
spec. -/
theorem parse_eq_ok_iff_of_root {r n : Text} {s : Spec}
    (hr : ∀ c ∈ r, startsNode c = false) (hn : ∀ c ∈ n.head?, startsNode c = true) :
    Spec.parse (r ++ n) = .ok s ↔
      s.package = (trimStart r).takeWhile isNameChar ∧ s.package ≠ [] ∧
        s.base =
          unwords (words (keptText (pieces (trimStart r))) ++ words n) ∧
        ∃ parts, List.Forall₂ ListMeans (Piece.tokens (pieces (trimStart r))) parts ∧
          s.ranges = parts.flatten := by
  cases n with
  | nil =>
      obtain ⟨htokens, hwords, hname⟩ := pieces_trimStart r
      rw [List.append_nil, parse_eq_ok_iff_of_split (rootAndNodes_trim_root hr),
        htokens, hwords, hname]
  | cons c n =>
      have hsplit := rootAndNodes_trim_append (n := c :: n) ⟨c, rfl, hn c rfl⟩ hr
      rw [parse_eq_ok_iff_of_split hsplit, words_trimEnd]

theorem Token.free (token : Token) : ∀ c ∈ token.text, startsNode c = false := by
  intro c hc
  rw [text, List.mem_cons, List.mem_append] at hc
  rcases hc with rfl | hc | hc
  · decide
  · exact startsNode_of_isBlank (List.all_eq_true.mp token.gap_blank c hc)
  · exact startsNode_of_isTokenChar (Item.isTokenChar_of_mem_listText hc)

theorem Entry.free (entry : Entry) : ∀ c ∈ entry.text, startsNode c = false := by
  cases entry with
  | word w _ hw =>
      intro c hc
      exact (of_isWordChar (List.all_eq_true.mp hw c hc)).2.2
  | token token => exact token.free

namespace Writing

variable (w : Writing)

theorem isNameChar_of_mem_name : ∀ c ∈ w.name, isNameChar c = true :=
  List.all_eq_true.mp w.name_chars

theorem isWord_name : IsWord w.name := by
  refine ⟨w.name_ne_nil, fun c hc => isBlank_of_isTokenChar ?_⟩
  exact isTokenChar_of_isNameChar (w.isNameChar_of_mem_name c hc)

theorem isBlank_of_mem_after : ∀ c ∈ w.after, isBlank c = true :=
  List.all_eq_true.mp w.after_blank

theorem isBlank_of_mem_head?_after : ∀ c ∈ w.after.head?, isBlank c = true :=
  isBlank_of_mem_head?_blanks w.isBlank_of_mem_after

theorem isBlank_of_mem_head?_rest : ∀ c ∈ w.rest.head?, isBlank c = true :=
  isBlank_of_mem_head?_flatMap (fun _ => List.prefix_append _ _) w.parts
    w.isBlank_of_mem_head?_after

theorem root_free : ∀ c ∈ w.before ++ w.root, startsNode c = false := by
  intro c hc
  simp only [root, rest, List.mem_append, List.mem_flatMap] at hc
  rcases hc with hc | (hc | hc) | ⟨part, _, hc⟩ | hc
  · exact startsNode_of_isBlank (List.all_eq_true.mp w.before_blank c hc)
  · apply startsNode_of_isTokenChar
    exact isTokenChar_of_isNameChar (w.isNameChar_of_mem_name c hc)
  · cases hattached : w.attached with
    | none => simp [hattached] at hc
    | some token => exact token.free c (by simpa [hattached] using hc)
  · rcases List.mem_append.mp hc with hc | hc
    · exact startsNode_of_isBlank (part.isBlank_of_mem_blanks c hc)
    · exact part.entry.free c hc
  · exact startsNode_of_isBlank (w.isBlank_of_mem_after c hc)

theorem trimStart_root : trimStart (w.before ++ w.root) = w.root := by
  obtain ⟨n, name, hname⟩ := List.exists_cons_of_ne_nil w.name_ne_nil
  have hblank : isBlank n = false := w.isWord_name.2 n (by simp [hname])
  refine dropWhile_append_of_all (List.all_eq_true.mp w.before_blank) ?_
  simp [root, hname, hblank]

theorem takeWhile_root : w.root.takeWhile isNameChar = w.name := by
  rw [root, List.append_assoc]
  refine takeWhile_append_of_all w.isNameChar_of_mem_name ?_
  cases w.attached with
  | none =>
      exact fun c hc => isNameChar_of_isBlank (w.isBlank_of_mem_head?_rest c hc)
  | some token =>
      rintro _ ⟨⟩
      decide

theorem pieces_root :
    pieces w.root =
      w.name.map .kept ++ w.attached.toList.map (fun token => .token token.list) ++
        (w.parts.flatMap Part.pieces ++ w.after.map .kept) := by
  have hrest : piecesAfterName w.rest =
      w.parts.flatMap Part.pieces ++ w.after.map .kept := by
    rw [rest, piecesAfterName_parts w.parts w.isBlank_of_mem_head?_after,
      piecesAfterName_of_no_at (at_not_mem_blanks w.isBlank_of_mem_after)]
  have hno : '@' ∉ w.name := fun h => absurd (w.isNameChar_of_mem_name '@' h) (by decide)
  rw [root]
  cases w.attached with
  | none =>
      have hnot : ¬Attached (w.name ++ [] ++ w.rest) := by
        rw [List.append_nil, attached_append_iff w.isBlank_of_mem_head?_rest]
        rintro ⟨name, t, _, _, hname⟩
        exact hno (by simp [hname])
      have hstop : ∀ c ∈ w.rest.head?, c ≠ '@' := fun c hc =>
        ne_at_of_isBlank (w.isBlank_of_mem_head?_rest c hc)
      rw [Option.map_none, Option.getD_none, pieces_of_not_attached hnot,
        List.append_nil, piecesAfterName_append (piecesAfterName_of_no_at hno) hstop,
        hrest]
      simp
  | some token =>
      have htail := token.tokenTail_append w.isBlank_of_mem_head?_rest
      have hread := pieces_attached (t := token.gap ++ token.list ++ w.rest)
        w.name_ne_nil w.isNameChar_of_mem_name
      rw [htail, hrest] at hread
      simpa [Token.text] using hread

theorem tokens_root : Piece.tokens (pieces w.root) = w.tokens.map Token.list := by
  rw [pieces_root, tokens_append, tokens_append, tokens_append, tokens_map_kept,
    tokens_map_kept, tokens_parts, tokens]
  cases w.attached <;> simp [Piece.tokens]

theorem keptText_root :
    keptText (pieces w.root) = w.name ++ (w.parts.flatMap Part.kept ++ w.after) := by
  rw [pieces_root, keptText_append, keptText_append, keptText_append,
    keptText_map_kept, keptText_map_kept, keptText_parts]
  cases w.attached <;> simp [keptText]

theorem words_root :
    words (keptText (pieces w.root)) = w.name :: w.content.words := by
  have hrest : ∀ c ∈ (w.parts.flatMap Part.kept ++ w.after).head?,
      isBlank c = true :=
    isBlank_of_mem_head?_flatMap (fun _ => List.prefix_append _ _) w.parts
      w.isBlank_of_mem_head?_after
  have hblanks : words w.after = [] := words_append_blanks [] w.isBlank_of_mem_after
  rw [keptText_root, words_append_word w.isWord_name hrest,
    words_kept_parts w.parts w.isBlank_of_mem_head?_after, hblanks, List.append_nil]
  rfl

theorem listMeans_tokens :
    List.Forall₂ ListMeans (w.tokens.map Token.list)
      (w.tokens.map fun token => token.items.map Item.range) := by
  rw [List.forall₂_map_left_iff, List.forall₂_map_right_iff, List.forall₂_same]
  intro token _
  have hlist : ∀ c ∈ token.list, isTokenChar c = true := fun _ =>
    Item.isTokenChar_of_mem_listText
  apply (rangesOf_eq_ok_iff hlist).mp
  exact Item.rangesOf_listText w.text token.items_ne_nil

theorem ranges_spec :
    w.content.spec.ranges =
      (w.tokens.map fun token => token.items.map Item.range).flatten := by
  simp only [Content.spec, content, List.flatMap_def, List.map_flatten, List.map_map]
  rfl

/-- A writing is read as what it says. -/
theorem parse_text : Spec.parse w.text = .ok w.content.spec := by
  have hnodes : ∀ c ∈ w.nodes.head?, startsNode c = true := by
    simpa [Option.all_eq_true] using w.nodes_start
  have hroot := parse_eq_ok_iff_of_root w.root_free hnodes (s := w.content.spec)
  rw [trimStart_root, takeWhile_root, tokens_root, words_root] at hroot
  exact hroot.mpr ⟨rfl, w.name_ne_nil, rfl, _, w.listMeans_tokens, w.ranges_spec⟩

end Writing

/-- Two ways to write the same package name, words, items and nodes are read as
the same spec, and so declare the same dependency, if they declare one. -/
theorem placement_does_not_matter (w w' : Writing) (h : w.content = w'.content) :
    Spec.parse w.text = .ok w.content.spec ∧
      Spec.parse w'.text = .ok w.content.spec ∧
      ∀ when d, Dependency.parse w.text when = .ok d ↔
        Dependency.parse w'.text when = .ok d := by
  have hsame : Spec.parse w'.text = .ok w.content.spec := by
    rw [h]
    exact w'.parse_text
  refine ⟨w.parse_text, hsame, fun when d => ?_⟩
  rw [Dependency.parse_eq_ok_iff, Dependency.parse_eq_ok_iff, w.parse_text, hsame]

/-- One token at the name, and two tokens among the words in its place. -/
theorem placement_does_not_matter_two_tokens :
    ∃ w w' : Writing, w.content = w'.content ∧
      w.text = "foo@ 1:2,=3 +mpi ~x%gcc @9".toList ∧
      w'.text = " foo\t+mpi \n@ \t1:2  ~x @=3 %gcc @9".toList ∧
      Spec.parse w.text = .ok w.content.spec ∧
      Spec.parse w'.text = .ok w.content.spec ∧
      w.content.spec.base = "foo +mpi ~x %gcc @9".toList ∧
      (∃ d, Dependency.parse w.text none = .ok d) ∧
      ∀ d, Dependency.parse w.text none = .ok d ↔
        Dependency.parse w'.text none = .ok d := by
  let one : Version := ⟨"1", by decide, by decide⟩
  let two : Version := ⟨"2", by decide, by decide⟩
  let three : Version := ⟨"3", by decide, by decide⟩
  let first : Item := .ofRange ⟨some one, some two⟩
  let second : Item := .ofEquals three
  let mpi : Entry := .word "+mpi" (by decide) (by decide)
  let x : Entry := .word "~x" (by decide) (by decide)
  let w : Writing :=
    { before := [], name := "foo"
      attached := some ⟨" ", [first, second], by decide, by simp⟩
      parts := [⟨" ", mpi, by decide, by decide⟩, ⟨" ", x, by decide, by decide⟩]
      after := [], nodes := "%gcc @9", before_blank := by decide
      name_ne_nil := by decide, name_chars := by decide, after_blank := by decide
      nodes_start := by decide }
  let w' : Writing :=
    { before := " ", name := "foo", attached := none
      parts :=
        [⟨"\t", mpi, by decide, by decide⟩,
          ⟨" \n", .token ⟨" \t", [first], by decide, by simp⟩, by decide, by decide⟩,
          ⟨"  ", x, by decide, by decide⟩,
          ⟨" ", .token ⟨[], [second], by decide, by simp⟩, by decide, by decide⟩]
      after := " ", nodes := "%gcc @9", before_blank := by decide
      name_ne_nil := by decide, name_chars := by decide, after_blank := by decide
      nodes_start := by decide }
  have hcontent : w.content = w'.content := rfl
  obtain ⟨hread, hread', hdeclare⟩ := placement_does_not_matter w w' hcontent
  refine ⟨w, w', hcontent, by decide +kernel, by decide +kernel, hread, hread',
    by decide +kernel, ?_, hdeclare none⟩
  obtain ⟨d, hparse, _⟩ :=
    exists_ok_of_any (Dependency.parse w.text none) (fun _ => true) (by decide +kernel)
  exact ⟨d, hparse⟩

end Spec

end DevSpecs
