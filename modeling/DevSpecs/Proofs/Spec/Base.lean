import DevSpecs.Proofs.Spec.Grammar

/-!
# Reading a base again

The base of a spec is what is left when the root version tokens are taken out.
The text before a token and the text after it are then joined, which can bring
an `@` behind the leading name or a blank.  The main statement says that this
happens exactly when an `@` directly follows the text of a token, and that the
base is read as itself, without ranges, in all other cases.
-/

namespace DevSpecs
namespace Spec

open Text Piece

/-! ## An `@` after a blank -/

/-- Some `@` directly follows a blank. -/
def atAfterBlank : Text → Bool
  | [] => false
  | c :: t => (isBlank c && t.head? == some '@') || atAfterBlank t

theorem atAfterBlank_append {s : Text} (hs : ∀ c ∈ s, isBlank c = false)
    (t : Text) : atAfterBlank (s ++ t) = atAfterBlank t := by
  induction s with
  | nil => rfl
  | cons c s ih =>
      rw [List.cons_append, atAfterBlank, hs c (by simp),
        ih fun d hd => hs d (by simp [hd])]
      rfl

theorem atAfterBlank_dropWhile (t : Text) :
    atAfterBlank (t.dropWhile (!isBlank ·)) = atAfterBlank t := by
  have hword : ∀ c ∈ t.takeWhile (!isBlank ·), isBlank c = false := by
    intro c hc
    simpa using List.all_eq_true.mp List.all_takeWhile c hc
  rw [← atAfterBlank_append hword, List.takeWhile_append_dropWhile]

/-- In what follows a blank, an `@` follows a blank when it starts a word. -/
theorem atAfterBlank_cons {b : Char} (hb : isBlank b = true) (t : Text) :
    atAfterBlank (b :: t) = (words t).any fun w => w.head? == some '@' := by
  cases t with
  | nil => simp [atAfterBlank, words]
  | cons c t =>
      rw [atAfterBlank, hb, Bool.true_and]
      by_cases hc : isBlank c = true
      · have hat : c ≠ '@' := by
          rintro rfl
          exact absurd hc (by decide)
        rw [atAfterBlank_cons hc t, words_cons_blank t hc]
        simp [hat]
      · rw [Bool.not_eq_true] at hc
        -- The rest of the word is skipped; what follows it starts with a blank.
        rw [← atAfterBlank_dropWhile, words_cons_of_not_isBlank hc,
          List.any_cons, List.takeWhile_cons_of_pos (by simp [hc])]
        cases hdrop : (c :: t).dropWhile (!isBlank ·) with
        | nil => rfl
        | cons d rest =>
            have hd : isBlank d = true :=
              head?_dropWhile_not_isBlank d (by rw [hdrop]; rfl)
            have hshorter : rest.length + 1 ≤ t.length + 1 := by
              have hle := (List.dropWhile_sublist (!isBlank ·)
                (l := c :: t)).length_le
              rwa [hdrop] at hle
            rw [atAfterBlank_cons hd rest, words_cons_blank rest hd]
            rfl
termination_by t.length
decreasing_by
  all_goals
    simp only [List.length_cons]
    omega

theorem piecesAfterName_eq_map_kept_iff {t : Text} :
    piecesAfterName t = t.map .kept ↔ atAfterBlank t = false := by
  fun_induction piecesAfterName t with
  | case1 => simp [atAfterBlank]
  | case2 c => simp [atAfterBlank]
  | case3 c d t hat ih =>
      have htrue : atAfterBlank (c :: d :: t) = true := by
        rw [atAfterBlank, List.head?_cons, Bool.or_eq_true]
        exact Or.inl (by simpa using hat)
      simp [htrue]
  | case4 c d t hat ih =>
      have hskip : atAfterBlank (c :: d :: t) = atAfterBlank (d :: t) := by
        have hno : (isBlank c && some d == some '@') = false := by
          simpa using hat
        rw [atAfterBlank, List.head?_cons, hno, Bool.false_or]
      rw [hskip, ← ih]
      simp

theorem plain_iff_atAfterBlank {root : Text} :
    Plain root ↔ ¬Attached root ∧ atAfterBlank root = false := by
  rw [plain_iff, piecesAfterName_eq_map_kept_iff]

/-- A root whose first word is `w` has no tokens when `w` is not attached to an
`@` and no later word starts with one. -/
theorem plain_append_iff {w t : Text} (hw : IsWord w)
    (ht : ∀ c ∈ t.head?, isBlank c = true) :
    Plain (w ++ t) ↔
      ¬Attached w ∧ ((words t).any fun v => v.head? == some '@') = false := by
  rw [plain_iff_atAfterBlank, attached_append_iff ht, atAfterBlank_append hw.2]
  cases t with
  | nil => simp [atAfterBlank]
  | cons b t =>
      have hb : isBlank b = true := ht b rfl
      rw [atAfterBlank_cons hb, words_cons_blank t hb]

/-- Whether a root has tokens depends on its words only. -/
theorem plain_unwords_words {root : Text}
    (hroot : ∀ c ∈ root.head?, isBlank c = false) :
    Plain (unwords (words root)) ↔ Plain root := by
  cases root with
  | nil => rfl
  | cons c t =>
      have hc : isBlank c = false := hroot c rfl
      have hword := isWord_takeWhile (t := t) hc
      have hrest := head?_dropWhile_not_isBlank (t := c :: t)
      obtain ⟨rest, hunwords, hblank, hwords⟩ :=
        exists_unwords_cons ((c :: t).takeWhile (!isBlank ·))
          (words ((c :: t).dropWhile (!isBlank ·)))
          fun v => isWord_of_mem_words
      have hsplit : Plain (c :: t) ↔ Plain ((c :: t).takeWhile (!isBlank ·) ++
          (c :: t).dropWhile (!isBlank ·)) := by
        rw [List.takeWhile_append_dropWhile]
      rw [hsplit, words_cons_of_not_isBlank hc, hunwords,
        plain_append_iff hword hblank, plain_append_iff hword hrest, hwords]

/-! ## What is left without the tokens -/

theorem head?_keptText_piecesAfterName (t : Text) :
    (keptText (piecesAfterName t)).head? = t.head? := by
  fun_cases piecesAfterName t <;> rfl

theorem atAfterBlank_keptText_piecesAfterName (t : Text) :
    atAfterBlank (keptText (piecesAfterName t)) =
      (tokensWithNext (piecesAfterName t)).any fun x => x.2 == some '@' := by
  fun_induction piecesAfterName t with
  | case1 => rfl
  | case2 c => simp [keptText, tokensWithNext, atAfterBlank]
  | case3 c d t hat ih =>
      have hc : isBlank c = true := (Bool.and_eq_true _ _ ▸ hat).1
      rw [keptText, keptText, atAfterBlank, head?_keptText_piecesAfterName, hc,
        Bool.true_and, ih, tokensWithNext, tokensWithNext, List.any_cons,
        next?_piecesAfterName]
  | case4 c d t hat ih =>
      have hno : (isBlank c && some d == some '@') = false := by
        simpa using hat
      rw [keptText, atAfterBlank, head?_keptText_piecesAfterName, List.head?_cons,
        hno, Bool.false_or, ih]
      rfl

/-- The leading name of what stays is followed by what followed it before. -/
theorem head?_dropWhile_keptText_piecesAfterName (t : Text) :
    ((keptText (piecesAfterName t)).dropWhile isNameChar).head? =
      (t.dropWhile isNameChar).head? := by
  fun_induction piecesAfterName t with
  | case1 => rfl
  | case2 c => rfl
  | case3 c d t hat ih =>
      have hc : isNameChar c = false :=
        isNameChar_of_isBlank (Bool.and_eq_true _ _ ▸ hat).1
      simp [keptText, hc]
  | case4 c d t hat ih =>
      rw [keptText]
      cases hc : isNameChar c with
      | true => simpa [hc] using ih
      | false => simp [hc]

theorem attached_iff {root : Text} :
    Attached root ↔ root.takeWhile isNameChar ≠ [] ∧
      (root.dropWhile isNameChar).head? = some '@' := by
  constructor
  · rintro ⟨name, t, hne, hname, rfl⟩
    have hat : ∀ c ∈ ('@' :: t).head?, isNameChar c = false := by
      rintro _ ⟨⟩
      decide
    rw [takeWhile_append_of_all hname hat, dropWhile_append_of_all hname hat]
    exact ⟨hne, rfl⟩
  · rintro ⟨hne, hhead⟩
    obtain ⟨t, ht⟩ := List.head?_eq_some_iff.mp hhead
    refine ⟨root.takeWhile isNameChar, t, hne,
      List.all_eq_true.mp List.all_takeWhile, ?_⟩
    rw [← ht, List.takeWhile_append_dropWhile]

/-- What is left of a root has a token exactly when an `@` directly follows one
that is taken out. -/
theorem plain_keptText_pieces_iff {root : Text} :
    Plain (keptText (pieces root)) ↔
      ((tokensWithNext (pieces root)).any fun x => x.2 == some '@') = false := by
  rw [plain_iff_atAfterBlank]
  by_cases h : Attached root
  · obtain ⟨name, t, hne, hname, rfl⟩ := h
    have hblank : ∀ c ∈ name, isBlank c = false := fun c hc =>
      isBlank_of_isTokenChar (isTokenChar_of_isNameChar (hname c hc))
    have hstop : ∀ c ∈ (keptText (piecesAfterName (tokenTail t).2)).head?,
        isNameChar c = false := by
      intro c hc
      rw [head?_keptText_piecesAfterName] at hc
      exact isNameChar_of_isTokenChar_eq_false (head?_tokenTail c hc)
    rw [pieces_attached hne hname, keptText_append, keptText_map_kept, keptText,
      attached_iff, takeWhile_append_of_all hname hstop,
      dropWhile_append_of_all hname hstop, atAfterBlank_append hblank,
      atAfterBlank_keptText_piecesAfterName, head?_keptText_piecesAfterName,
      tokensWithNext_map_kept_append, tokensWithNext, List.any_cons,
      next?_piecesAfterName]
    simp [hne]
  · have hleft : ¬Attached (keptText (piecesAfterName root)) := by
      rw [attached_iff, takeWhile_keptText_piecesAfterName,
        head?_dropWhile_keptText_piecesAfterName, ← attached_iff]
      exact h
    rw [pieces_of_not_attached h, atAfterBlank_keptText_piecesAfterName]
    exact and_iff_right hleft

theorem count_tokenTail (t : Text) :
    (tokenTail t).2.count '@' = t.count '@' := by
  conv_rhs => rw [← steppedOver_append t]
  rw [List.count_append, List.count_eq_zero.mpr (at_not_mem_steppedOver t),
    Nat.zero_add]

theorem count_piecesAfterName (t : Text) :
    (keptText (piecesAfterName t)).count '@' +
      (tokens (piecesAfterName t)).length = t.count '@' := by
  fun_induction piecesAfterName t with
  | case1 => rfl
  | case2 c => simp [keptText, tokens]
  | case3 c d t hat ih =>
      rw [Bool.and_eq_true, beq_iff_eq] at hat
      obtain ⟨hblank, rfl⟩ := hat
      have hc : c ≠ '@' := by
        rintro rfl
        exact absurd hblank (by decide)
      rw [count_tokenTail] at ih
      simp only [keptText, tokens, List.count_cons_of_ne hc,
        List.count_cons_self, List.length_cons]
      omega
  | case4 c d t hat ih =>
      rw [keptText, tokens, List.count_cons, List.count_cons (a := '@') (b := c)]
      omega

/-- Every `@` of a root stays or starts a token. -/
theorem count_pieces (root : Text) :
    (keptText (pieces root)).count '@' + (tokens (pieces root)).length =
      root.count '@' := by
  by_cases h : Attached root
  · obtain ⟨name, t, hne, hname, rfl⟩ := h
    have hrest := count_piecesAfterName (tokenTail t).2
    rw [count_tokenTail] at hrest
    rw [pieces_attached hne hname]
    simp only [keptText_append, keptText_map_kept, tokens_append,
      tokens_map_kept, keptText, tokens, List.count_append,
      List.count_cons_self, List.nil_append, List.length_cons]
    omega
  · rw [pieces_of_not_attached h]
    exact count_piecesAfterName root

theorem count_words (t : Text) : (words t).flatten.count '@' = t.count '@' := by
  rw [flatten_words, List.count_filter (by decide)]

/-- A root whose words stay has no tokens. -/
theorem plain_of_words_keptText {root : Text}
    (h : words (keptText (pieces root)) = words root) : Plain root := by
  have hcount := count_pieces root
  rw [← count_words, h, count_words] at hcount
  rw [plain_iff_tokens, ← List.length_eq_zero_iff]
  omega

/-! ## The base as a layout -/

namespace Layout

theorem words_root_space (l : Layout) :
    words (unwords l.root ++ l.space) = l.root := by
  rcases l.space_cases with ⟨_, hspace⟩ | ⟨_, hspace⟩
  · rw [hspace, List.append_nil, words_unwords l.root_words]
  · rw [hspace, words_append_cons _ _ (by decide), words_unwords l.root_words,
      words_nil, List.append_nil]

theorem Plain.root_space {l : Layout} (hl : l.Plain) :
    Spec.Plain (unwords l.root ++ l.space) := by
  obtain ⟨hnot, hkept⟩ := plain_iff.mp hl
  rcases l.space_cases with ⟨_, hspace⟩ | ⟨_, hspace⟩
  · rw [hspace, List.append_nil]
    exact hl
  · have hat : ∀ c ∈ [' '].head?, c ≠ '@' := by
      rintro _ ⟨⟩
      decide
    rw [hspace, plain_iff]
    constructor
    · rwa [attached_append_iff]
      rintro _ ⟨⟩
      decide
    · rw [piecesAfterName_append hkept hat, List.map_append]
      simp

theorem withoutVersion_text (l : Layout) :
    withoutVersion l.text =
      unwords (words (keptText (pieces (unwords l.root ++ l.space))) ++
        l.nodes) := by
  rw [withoutVersion, trim_text, rootAndNodes_text]
  simp only [words_nodes]

/-- Taking the tokens out of a text changes nothing exactly when it has none. -/
theorem withoutVersion_text_iff (l : Layout) :
    withoutVersion l.text = l.text ↔ l.Plain := by
  constructor
  · intro h
    have hleft : ∀ w ∈ words (keptText (pieces (unwords l.root ++ l.space))) ++
        l.nodes, IsWord w := by
      intro w hw
      rcases List.mem_append.mp hw with hw | hw
      · exact isWord_of_mem_words hw
      · exact l.nodes_words w hw
    have hwords := congrArg words h
    rw [withoutVersion_text, words_unwords hleft, text, words_unwords isWord,
      List.append_cancel_right_eq] at hwords
    have hplain : Spec.Plain (unwords l.root ++ l.space) :=
      plain_of_words_keptText (hwords.trans l.words_root_space.symm)
    exact hplain.of_append
  · intro hl
    rw [withoutVersion_text, hl.root_space, keptText_map_kept, words_root_space]
    rfl

/-- A text whose root has no tokens is read as itself, without ranges. -/
theorem Plain.parse_text {l : Layout} (hl : l.Plain)
    (hname : l.text.takeWhile isNameChar ≠ []) :
    Spec.parse l.text = .ok ⟨l.text.takeWhile isNameChar, l.text, []⟩ := by
  have hbase : withoutVersion l.text = l.text := l.withoutVersion_text_iff.mpr hl
  rw [parse_eq_ok_iff, trim_text, rootAndNodes_text, hbase]
  refine ⟨rfl, hname, rfl, [], ?_, rfl⟩
  rw [hl.root_space, tokens_map_kept]
  rfl

end Layout

/-! ## Crowded tokens -/

/-- An `@` directly follows the text of a root version token. -/
def Crowded (t : Text) : Prop :=
  ∃ before rest, rootText t = before ++ '@' :: rest ∧ OpensToken before ∧
    ((Text.trimStart rest).dropWhile isTokenChar).head? = some '@'

variable {t : Text} {s : Spec}

/-- When a text is accepted, the reader sees the `@` behind its tokens as they
are written. -/
theorem any_tokensWithNext_iff_crowded (h : Spec.parse t = .ok s) :
    ((tokensWithNext (pieces (rootText t))).any fun x => x.2 == some '@') =
      true ↔ Crowded t := by
  obtain ⟨_, _, _, parts, hparts, _⟩ := parse_eq_ok_iff.mp h
  rw [rootAndNodes_fst, mapM_rangesOf_tokens_eq_ok_iff, forall₂_tokens_iff]
    at hparts
  have hagree : tokensWithNext (pieces (rootText t)) =
      (openings [] (rootText t)).map tokenBefore := by
    rcases agree_pieces (rootText t) with heq | ⟨_, hempty⟩
    · exact heq
    · rw [List.map_map] at hempty
      exact absurd hparts (not_forall₂_of_nil_mem hempty)
  rw [hagree, List.any_map, List.any_eq_true]
  constructor
  · rintro ⟨rest, hrest, hnext⟩
    obtain ⟨before, hsplit, hopens⟩ := mem_openings.mp hrest
    exact ⟨before, rest, hsplit, hopens, eq_of_beq hnext⟩
  · rintro ⟨before, rest, hsplit, hopens, hnext⟩
    exact ⟨rest, mem_openings.mpr ⟨before, hsplit, hopens⟩,
      beq_iff_eq.mpr hnext⟩

/-- Every base has a layout; its root has no tokens unless the spec is
crowded. -/
theorem exists_layout_plain_iff (h : Spec.parse t = .ok s) :
    ∃ l : Layout, s.base = l.text ∧ l.text.takeWhile isNameChar ≠ [] ∧
      (l.Plain ↔ ¬Crowded t) := by
  obtain ⟨hne, l, hroot, _, hbase, hname⟩ := Layout.exists_layout_of_parse h
  rw [rootAndNodes_fst] at hroot
  refine ⟨l, hbase, hname ▸ hne, ?_⟩
  have hstart : ∀ c ∈ (keptText (pieces (rootText t))).head?,
      isBlank c = false := by
    apply Layout.isBlank_of_mem_head?
    rw [takeWhile_keptText_pieces, ← rootAndNodes_fst, takeWhile_rootAndNodes]
    obtain ⟨hpackage, _⟩ := parse_eq_ok_iff.mp h
    exact hpackage ▸ hne
  rw [Layout.Plain, hroot, plain_unwords_words hstart,
    plain_keptText_pieces_iff, ← any_tokensWithNext_iff_crowded h,
    Bool.not_eq_true]

/-- The base of a spec is read as itself, without ranges, exactly when no `@`
directly follows the text of a root version token, and taking out the tokens
again changes nothing in the same cases. -/
theorem base_readAsItself_iff (h : Spec.parse t = .ok s) :
    ((∃ p, Spec.parse s.base = .ok p ∧ p.ranges = [] ∧ p.base = s.base) ↔
        ¬Crowded t) ∧
      (withoutVersion s.base = s.base ↔ ¬Crowded t) := by
  obtain ⟨l, hbase, hname, hplain⟩ := exists_layout_plain_iff h
  rw [hbase, ← hplain, l.withoutVersion_text_iff]
  refine ⟨⟨?_, fun hl => ?_⟩, Iff.rfl⟩
  · rintro ⟨p, hp, hranges, _⟩
    exact Layout.plain_of_parse hp hranges
  · exact ⟨_, hl.parse_text hname, rfl, rfl⟩

/-- An `@` behind a variant's value, and others behind a blank and on nodes, do not
crowd any token. -/
theorem base_readAsItself_with_variant :
    ∃ s p, Spec.parse "foo@1:2+bar@3 @ 4 %gcc@5 ^baz @6" = .ok s ∧
      s.base = "foo+bar@3 %gcc@5 ^baz @6" ∧ Spec.parse s.base = .ok p ∧
      p.ranges = [] ∧ p.base = s.base ∧
      ¬Crowded "foo@1:2+bar@3 @ 4 %gcc@5 ^baz @6" := by
  obtain ⟨s, hparse, hbase⟩ :=
    exists_ok_of_any (Spec.parse "foo@1:2+bar@3 @ 4 %gcc@5 ^baz @6")
      (fun s => decide (s.base = "foo+bar@3 %gcc@5 ^baz @6"))
      (by decide +kernel)
  obtain ⟨p, hp, hcheck⟩ :=
    exists_ok_of_any (Spec.parse "foo+bar@3 %gcc@5 ^baz @6")
      (fun p => decide (p.ranges.isEmpty ∧ p.base = "foo+bar@3 %gcc@5 ^baz @6"))
      (by decide +kernel)
  have hbase := of_decide_eq_true hbase
  obtain ⟨hranges, hpbase⟩ := of_decide_eq_true hcheck
  rw [← hbase] at hp hpbase
  have hranges : p.ranges = [] := List.isEmpty_iff.mp hranges
  exact ⟨s, p, hparse, hbase, hp, hranges, hpbase,
    (base_readAsItself_iff hparse).1.mp ⟨p, hp, hranges, hpbase⟩⟩

/-- The base of a spec with two tokens run together declares a range. -/
theorem base_keeps_second_token :
    ∃ s p, Spec.parse "foo@1@2" = .ok s ∧ s.base = "foo@2" ∧
      Spec.parse s.base = .ok p ∧ p.ranges ≠ [] ∧ p.base ≠ s.base := by
  obtain ⟨s, hparse, hbase⟩ :=
    exists_ok_of_any (Spec.parse "foo@1@2")
      (fun s => decide (s.base = "foo@2")) (by decide +kernel)
  obtain ⟨p, hp, hcheck⟩ :=
    exists_ok_of_any (Spec.parse "foo@2")
      (fun p => decide (p.ranges ≠ [] ∧ p.base ≠ "foo@2")) (by decide +kernel)
  have hbase := of_decide_eq_true hbase
  obtain ⟨hranges, hpbase⟩ := of_decide_eq_true hcheck
  exact ⟨s, p, hparse, hbase, hbase ▸ hp, hranges, hbase ▸ hpbase⟩

end Spec
end DevSpecs
