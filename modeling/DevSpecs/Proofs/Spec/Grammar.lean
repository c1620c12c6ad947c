import DevSpecs.Proofs.Spec.Layout
import Mathlib.Data.List.Forall2

/-!
# The grammar of specs

A text is a spec when it starts with a package name and the text of each of its
root version tokens is a list of items joined by commas.  What an item stands
for and where a token starts are said here without the reader.  The reader
finds tokens by one pass that steps over the text of each, so it can miss an `@`
only behind a token whose text is empty, and such a text is refused either way.
The main statement is that the reader accepts exactly the texts of the grammar
and declares the ranges of all their tokens in the order written.
-/

namespace DevSpecs

theorem Version.parse_eq_ok_iff {t : Text} {v : Version} :
    Version.parse t = .ok v ↔ v.text = t := by
  constructor
  · intro h
    rw [Version.parse, Version.ofText?] at h
    split at h
    · next hsome =>
      split_ifs at hsome
      cases h
      cases hsome
      rfl
    · contradiction
  · rintro rfl
    exact Version.parse_text v

namespace Spec

open Text Piece

/-! ## Items -/

/-- The range that an item stands for: `v` and `=v` stand for exactly `v`, and
`lower:upper`, either bound optional, for what lies between. -/
inductive ItemMeans : Text → VersionRange → Prop
  | version (v : Version) : ItemMeans v.text ⟨some v, some v⟩
  | equals (v : Version) : ItemMeans ('=' :: v.text) ⟨some v, some v⟩
  | bounds (r : VersionRange) : ItemMeans r.text r

/-- The ranges that the text of a token stands for: its items, joined by commas,
stand for one range each. -/
def ListMeans (list : Text) (ranges : List VersionRange) : Prop :=
  ∃ items, items ≠ [] ∧ list = [','].intercalate items ∧
    List.Forall₂ ItemMeans items ranges

theorem rangeOf_equals (spec : Text) (v : Version) :
    rangeOf spec ('=' :: v.text) = .ok (.exactly v) := by
  have hcolon : ':' ∉ '=' :: v.text := by
    simp [Version.not_mem_text (v := v) (c := ':') (by simp)]
  rw [rangeOf_single (by simp) hcolon]
  simp [Text.dropStart?, Version.parse_text]
  rfl

namespace Item

/-- A version after an equals sign. -/
def ofEquals (v : Version) : Item where
  text := '=' :: v.text
  range := .exactly v
  isTokenChar c h := by
    rcases List.mem_cons.mp h with rfl | h
    · decide
    · exact Version.isTokenChar_of_mem_text h
  no_comma := by
    simp [Version.not_mem_text (v := v) (c := ',') (by simp)]
  reads spec := rangeOf_equals spec v

end Item

theorem ItemMeans.exists_item {text : Text} {r : VersionRange}
    (h : ItemMeans text r) : ∃ item : Item, item.text = text ∧ item.range = r := by
  cases h with
  | version v => exact ⟨.ofVersion v, rfl, rfl⟩
  | equals v => exact ⟨.ofEquals v, rfl, rfl⟩
  | bounds r => exact ⟨.ofRange r, rfl, rfl⟩

theorem getD_dropStart?_equals (item : Text) :
    item = (Text.dropStart? ['='] item).getD item ∨
      item = '=' :: (Text.dropStart? ['='] item).getD item := by
  cases item with
  | nil => exact Or.inl rfl
  | cons c rest =>
      by_cases hc : '=' = c
      · subst hc
        exact Or.inr (by simp [Text.dropStart?])
      · exact Or.inl (by simp [Text.dropStart?, hc])

/-- A bound that can be read is a version, or absent. -/
theorem eq_of_boundOf {t : Text} {bound : Option Version}
    (ht : ∀ c ∈ t, isTokenChar c = true) (h : boundOf t = .ok bound) :
    t = (bound.map Version.text).getD [] := by
  by_cases hne : t = []
  · subst hne
    cases h
    rfl
  · have htrim : Text.trim t = t := trim_of_isTokenChar ht
    rw [boundOf_of_ne_nil (htrim.symm ▸ hne), htrim] at h
    cases hv : Version.parse t with
    | error e => simp [hv, Except.map] at h
    | ok v =>
        simp only [hv, Except.map, Except.ok.injEq] at h
        rw [← h]
        exact (Version.parse_eq_ok_iff.mp hv).symm

/-- An item that can be read has one of the three forms. -/
theorem itemMeans_of_rangeOf {spec item : Text} {r : VersionRange}
    (hitem : ∀ c ∈ item, isTokenChar c = true)
    (h : rangeOf spec item = .ok r) : ItemMeans item r := by
  have hne : item ≠ [] := by
    rintro rfl
    simp [rangeOf] at h
  cases hcut : Text.cutAt ':' item with
  | none =>
      rw [rangeOf_single hne (cutAt_eq_none_iff.mp hcut)] at h
      cases hv : Version.parse ((Text.dropStart? ['='] item).getD item) with
      | error e => simp [hv, Except.map] at h
      | ok v =>
          simp only [hv, Except.map, Except.ok.injEq] at h
          have htext := Version.parse_eq_ok_iff.mp hv
          rw [← h]
          rcases getD_dropStart?_equals item with heq | heq
          · rw [heq, ← htext]
            exact .version v
          · rw [heq, ← htext]
            exact .equals v
  | some parts =>
      obtain ⟨lower, upper⟩ := parts
      have heq := (cutAt_eq_some_iff.mp hcut).1
      have hlower : ∀ c ∈ lower, isTokenChar c = true := fun c hc =>
        hitem c (by simp [heq, hc])
      have hupper : ∀ c ∈ upper, isTokenChar c = true := fun c hc =>
        hitem c (by simp [heq, hc])
      have hempty : item.isEmpty = false := by simpa using hne
      rw [rangeOf, hempty, if_neg Bool.false_ne_true, hcut] at h
      simp only at h
      split at h
      · contradiction
      · cases ha : boundOf lower with
        | error e => simp [ha, bind, Except.bind] at h
        | ok a =>
            cases hb : boundOf upper with
            | error e => simp [ha, hb, bind, Except.bind] at h
            | ok b =>
                simp only [ha, hb, bind, Except.bind, pure, Except.pure,
                  Except.ok.injEq] at h
                rw [← h, heq, eq_of_boundOf hlower ha, eq_of_boundOf hupper hb]
                exact .bounds ⟨a, b⟩

/-- An item of token characters is read as the range that it stands for. -/
theorem rangeOf_eq_ok_iff {spec item : Text} {r : VersionRange}
    (hitem : ∀ c ∈ item, isTokenChar c = true) :
    rangeOf spec item = .ok r ↔ ItemMeans item r := by
  constructor
  · exact itemMeans_of_rangeOf hitem
  · intro h
    obtain ⟨i, rfl, rfl⟩ := h.exists_item
    exact i.reads spec

/-! ## Lists of items -/

/-- Relations that agree on the elements of a list relate the same lists to it. -/
theorem forall₂_congr_of_mem {α β : Type} {R S : α → β → Prop} {xs : List α}
    {ys : List β} (h : ∀ x ∈ xs, ∀ y, R x y ↔ S x y) :
    List.Forall₂ R xs ys ↔ List.Forall₂ S xs ys := by
  have himp : ∀ {P Q : α → β → Prop}, (∀ x ∈ xs, ∀ y, P x y → Q x y) →
      List.Forall₂ P xs ys → List.Forall₂ Q xs ys := by
    intro P Q hPQ hP
    refine ((List.forall₂_and_left _ _).mpr ⟨hPQ, hP⟩).imp ?_
    exact fun x y hxy => hxy.1 y hxy.2
  exact ⟨himp fun x hx y => (h x hx y).mp, himp fun x hx y => (h x hx y).mpr⟩

theorem ListMeans.exists_items {list : Text} {ranges : List VersionRange}
    (h : ListMeans list ranges) :
    ∃ items : List Item, items ≠ [] ∧ list = Item.listText items ∧
      ranges = items.map Item.range := by
  obtain ⟨texts, hne, rfl, hall⟩ := h
  have hitems : ∃ items : List Item, items.map Item.text = texts ∧
      items.map Item.range = ranges := by
    clear hne
    induction hall with
    | nil => exact ⟨[], rfl, rfl⟩
    | cons hmeans _ ih =>
        obtain ⟨item, rfl, rfl⟩ := hmeans.exists_item
        obtain ⟨items, rfl, rfl⟩ := ih
        exact ⟨item :: items, rfl, rfl⟩
  obtain ⟨items, rfl, rfl⟩ := hitems
  exact ⟨items, by simpa using hne, rfl, rfl⟩

/-- The text of a token is read as the ranges that it stands for. -/
theorem rangesOf_eq_ok_iff {spec list : Text} {ranges : List VersionRange}
    (hlist : ∀ c ∈ list, isTokenChar c = true) :
    rangesOf spec list = .ok ranges ↔ ListMeans list ranges := by
  constructor
  · intro h
    rw [rangesOf, mapM_eq_ok_iff_forall₂] at h
    refine ⟨list.splitOn ',', List.splitOn_ne_nil ',' list,
      (List.intercalate_splitOn ',').symm, (forall₂_congr_of_mem ?_).mp h⟩
    intro item hitem r
    rw [List.splitOn_eq_splitOnP] at hitem
    have htoken : ∀ c ∈ item, isTokenChar c = true := fun c hc =>
      hlist c (mem_splitOnP hitem c hc).2
    rw [trim_of_isTokenChar htoken]
    exact rangeOf_eq_ok_iff htoken
  · intro h
    obtain ⟨items, hne, rfl, rfl⟩ := h.exists_items
    exact Item.rangesOf_listText spec hne

/-! ## Tokens -/

/-- The root of a spec: its text up to the first node, without blanks before. -/
def rootText (t : Text) : Text :=
  (Text.trim t).takeWhile (!startsNode ·)

/-- After this text an `@` starts a root version token: the text is the leading
name, or it ends with a blank. -/
def OpensToken (before : Text) : Prop :=
  (before ≠ [] ∧ ∀ c ∈ before, isNameChar c = true) ∨
    ∃ c ∈ before.getLast?, isBlank c = true

instance (before : Text) : Decidable (OpensToken before) :=
  decidable_of_iff
    ((!before.isEmpty && before.all isNameChar ||
      before.getLast?.any isBlank) = true)
    (by simp [OpensToken, Option.any_eq_true])

/-- What follows each `@` that starts a token, in the order written, in a text
that stands after `before`. -/
def openings (before : Text) : Text → List Text
  | [] => []
  | c :: rest =>
    if c = '@' ∧ OpensToken before then rest :: openings (before ++ [c]) rest
    else openings (before ++ [c]) rest

/-- The text of the token whose `@` stands before `rest`, and the character
after it. -/
def tokenBefore (rest : Text) : Text × Option Char :=
  ((tokenTail rest).1, (tokenTail rest).2.head?)

/-- The texts of the root version tokens, in the order written. -/
def tokenTexts (t : Text) : List Text :=
  (openings [] (rootText t)).map fun rest =>
    (Text.trimStart rest).takeWhile isTokenChar

theorem openings_cons (before : Text) (c : Char) (rest : Text) :
    openings before (c :: rest) =
      if c = '@' ∧ OpensToken before then rest :: openings (before ++ [c]) rest
      else openings (before ++ [c]) rest :=
  rfl

theorem openings_of_opens {before rest : Text} (h : OpensToken before) :
    openings before ('@' :: rest) = rest :: openings (before ++ ['@']) rest := by
  rw [openings_cons, if_pos ⟨rfl, h⟩]

theorem openings_of_not {before rest : Text} {c : Char}
    (h : c = '@' → ¬OpensToken before) :
    openings before (c :: rest) = openings (before ++ [c]) rest := by
  rw [openings_cons, if_neg (not_and.mpr h)]

/-- Nothing opens a token in a text without `@`. -/
theorem openings_append {before s t : Text} (hs : '@' ∉ s) :
    openings before (s ++ t) = openings (before ++ s) t := by
  induction s generalizing before with
  | nil => simp
  | cons c s ih =>
      obtain ⟨hc, hs⟩ := List.ne_and_not_mem_of_not_mem_cons hs
      rw [List.cons_append, openings_of_not fun h => absurd h.symm hc, ih hs]
      simp

/-- The tokens are the `@` that directly follow the leading name or a blank. -/
theorem mem_openings {before t rest : Text} :
    rest ∈ openings before t ↔
      ∃ s, t = s ++ '@' :: rest ∧ OpensToken (before ++ s) := by
  induction t generalizing before with
  | nil => simp [openings]
  | cons c t ih =>
      have hsplit : (∃ s, c :: t = s ++ '@' :: rest ∧ OpensToken (before ++ s)) ↔
          (c = '@' ∧ t = rest ∧ OpensToken before) ∨
            ∃ s, t = s ++ '@' :: rest ∧ OpensToken (before ++ [c] ++ s) := by
        constructor
        · rintro ⟨s, heq, hopens⟩
          cases s with
          | nil =>
              obtain ⟨rfl, rfl⟩ := List.cons.inj heq
              exact Or.inl ⟨rfl, rfl, by simpa using hopens⟩
          | cons d s =>
              obtain ⟨rfl, rfl⟩ := List.cons.inj heq
              exact Or.inr ⟨s, rfl, by simpa using hopens⟩
        · rintro (⟨rfl, rfl, hopens⟩ | ⟨s, rfl, hopens⟩)
          · exact ⟨[], rfl, by simpa using hopens⟩
          · exact ⟨c :: s, rfl, by simpa using hopens⟩
      rw [hsplit, ← ih]
      by_cases hopens : c = '@' ∧ OpensToken before
      · rw [openings_cons, if_pos hopens, List.mem_cons]
        simp [hopens, eq_comm]
      · rw [openings_cons, if_neg hopens]
        exact (or_iff_right fun h => hopens ⟨h.1, h.2.2⟩).symm

/-! ## The reader's pass -/

/-- The character that stays at the start of some pieces, if they start with
one. -/
def Piece.next? : List Piece → Option Char
  | kept c :: _ => some c
  | _ => none

/-- The texts of the tokens among pieces, and the character that stays after
each. -/
def Piece.tokensWithNext : List Piece → List (Text × Option Char)
  | [] => []
  | kept _ :: ps => tokensWithNext ps
  | token list :: ps => (list, next? ps) :: tokensWithNext ps

namespace Piece

theorem map_fst_tokensWithNext (ps : List Piece) :
    (tokensWithNext ps).map Prod.fst = tokens ps := by
  induction ps with
  | nil => rfl
  | cons p ps ih => cases p <;> simp [tokensWithNext, tokens, ih]

@[simp] theorem tokensWithNext_map_kept_append (t : Text) (ps : List Piece) :
    tokensWithNext (t.map kept ++ ps) = tokensWithNext ps := by
  induction t with
  | nil => rfl
  | cons c t ih => exact ih

end Piece

theorem next?_piecesAfterName (t : Text) :
    next? (piecesAfterName t) = t.head? := by
  fun_cases piecesAfterName t <;> rfl

/-- Two lists of tokens are the same, or both have a token with an empty text. -/
def Agree (xs ys : List (Text × Option Char)) : Prop :=
  xs = ys ∨ [] ∈ xs.map Prod.fst ∧ [] ∈ ys.map Prod.fst

theorem Agree.cons {xs ys : List (Text × Option Char)} (h : Agree xs ys)
    (x : Text × Option Char) : Agree (x :: xs) (x :: ys) := by
  rcases h with rfl | ⟨hx, hy⟩
  · exact Or.inl rfl
  · exact Or.inr ⟨List.mem_cons_of_mem _ hx, List.mem_cons_of_mem _ hy⟩

theorem agree_of_empty {x : Text × Option Char} (hx : x.1 = [])
    (xs ys : List (Text × Option Char)) : Agree (x :: xs) (x :: ys) :=
  Or.inr ⟨by simp [hx], by simp [hx]⟩

/-- What the reader steps over behind the `@` of a token. -/
def steppedOver (rest : Text) : Text :=
  rest.takeWhile isBlank ++ (tokenTail rest).1

theorem steppedOver_append (rest : Text) :
    steppedOver rest ++ (tokenTail rest).2 = rest := by
  simp only [steppedOver, tokenTail, Text.trimStart, List.append_assoc,
    List.takeWhile_append_dropWhile]

theorem at_not_mem_steppedOver (rest : Text) : '@' ∉ steppedOver rest := by
  rw [steppedOver, List.mem_append, not_or]
  constructor
  · intro h
    exact absurd (List.all_eq_true.mp List.all_takeWhile _ h) (by decide)
  · intro h
    exact absurd (List.all_eq_true.mp List.all_takeWhile _ h) (by decide)

/-- The reader is at a place from which it finds tokens as they are written: no
`@` here opens one, and none further on directly follows the leading name. -/
structure Between (before t : Text) : Prop where
  start : t.head? = some '@' → ¬OpensToken before
  named : ∀ s rest, t = s ++ '@' :: rest → s ≠ [] →
    ∃ c ∈ before ++ s, isNameChar c = false

theorem Between.not_opens {before t : Text} {c : Char}
    (h : Between before (c :: t)) : c = '@' → ¬OpensToken before :=
  fun hc => h.start (congrArg some hc)

/-- The reader moves on by a character that is no blank before an `@`. -/
theorem Between.tail {before t : Text} {c d : Char}
    (h : Between before (c :: d :: t))
    (hat : (isBlank c && d == '@') = false) :
    Between (before ++ [c]) (d :: t) := by
  constructor
  · intro hd
    obtain rfl : d = '@' := Option.some.inj hd
    rintro (⟨_, hall⟩ | ⟨b, hb, hblank⟩)
    · obtain ⟨x, hx, hname⟩ := h.named [c] t rfl (by simp)
      simp [hall x hx] at hname
    · obtain rfl : c = b := by simpa using hb
      simp [hblank] at hat
  · intro s rest hsplit _
    obtain ⟨x, hx, hname⟩ :=
      h.named (c :: s) rest (by rw [hsplit]; rfl) (by simp)
    exact ⟨x, by simpa using hx, hname⟩

/-- The reader moves on behind a token whose text is not empty. -/
theorem Between.afterToken {before rest : Text}
    (hne : (tokenTail rest).1 ≠ []) :
    Between (before ++ ['@'] ++ steppedOver rest) (tokenTail rest).2 := by
  have hat : '@' ∈ before ++ ['@'] ++ steppedOver rest := by simp
  constructor
  · rintro - (⟨_, hall⟩ | ⟨b, hb, hblank⟩)
    · exact absurd (hall '@' hat) (by decide)
    · have hlast : b ∈ (tokenTail rest).1.getLast? := by
        rwa [steppedOver, ← List.append_assoc,
          List.getLast?_append_of_ne_nil _ hne] at hb
      have htoken := List.all_eq_true.mp List.all_takeWhile b
        (List.mem_of_getLast? hlast)
      simp [isBlank_of_isTokenChar htoken] at hblank
  · intro s _ _ _
    exact ⟨'@', List.mem_append_left s hat, by decide⟩

/-- One token of the pass agrees with how it is written if the pass agrees
behind it. -/
theorem agree_token {before rest : Text} (hopens : OpensToken before)
    (htail : (tokenTail rest).1 ≠ [] →
      Agree (tokensWithNext (piecesAfterName (tokenTail rest).2))
        ((openings (before ++ ['@'] ++ steppedOver rest)
          (tokenTail rest).2).map tokenBefore)) :
    Agree
      (tokensWithNext
        (.token (tokenTail rest).1 :: piecesAfterName (tokenTail rest).2))
      ((openings before ('@' :: rest)).map tokenBefore) := by
  rw [openings_of_opens hopens, List.map_cons, tokensWithNext,
    next?_piecesAfterName]
  by_cases hempty : (tokenTail rest).1 = []
  -- Behind an empty token the pass may miss an `@`, but nothing is read then.
  · exact agree_of_empty hempty _ _
  · have hover : openings (before ++ ['@']) rest =
        openings (before ++ ['@'] ++ steppedOver rest) (tokenTail rest).2 := by
      rw [← openings_append (at_not_mem_steppedOver rest), steppedOver_append]
    rw [hover]
    exact (htail hempty).cons _

theorem agree_piecesAfterName {before t : Text} (h : Between before t) :
    Agree (tokensWithNext (piecesAfterName t))
      ((openings before t).map tokenBefore) := by
  fun_induction piecesAfterName t generalizing before with
  | case1 => exact Or.inl rfl
  | case2 c =>
      rw [openings_of_not h.not_opens]
      exact Or.inl rfl
  | case3 c d t hat ih =>
      rw [Bool.and_eq_true, beq_iff_eq] at hat
      obtain ⟨hblank, rfl⟩ := hat
      rw [openings_of_not h.not_opens]
      refine agree_token (Or.inr ⟨c, by simp, hblank⟩) fun hne => ?_
      exact ih (.afterToken hne)
  | case4 c d t hat ih =>
      rw [openings_of_not h.not_opens]
      exact ih (h.tail (Bool.not_eq_true _ ▸ hat))

/-- The reader finds the tokens of a root as they are written, or both find one
whose text is empty. -/
theorem agree_pieces (root : Text) :
    Agree (tokensWithNext (pieces root)) ((openings [] root).map tokenBefore) := by
  by_cases h : Attached root
  · obtain ⟨name, t, hne, hname, rfl⟩ := h
    have hat : '@' ∉ name := fun hmem => absurd (hname '@' hmem) (by decide)
    rw [pieces_attached hne hname, tokensWithNext_map_kept_append,
      openings_append hat, List.nil_append]
    exact agree_token (Or.inl ⟨hne, hname⟩) fun hlist =>
      agree_piecesAfterName (.afterToken hlist)
  · rw [pieces_of_not_attached h]
    refine agree_piecesAfterName ⟨?_, ?_⟩
    · rintro - (⟨hne, _⟩ | ⟨_, hc, _⟩)
      · exact hne rfl
      · simp at hc
    · intro s rest hsplit hne
      refine Classical.byContradiction fun hno => h ⟨s, rest, hne, ?_, hsplit⟩
      intro c hc
      rw [← Bool.not_eq_false]
      exact fun hname => hno ⟨c, by simpa using hc, hname⟩

/-! ## Acceptance -/

theorem rootAndNodes_fst (t : Text) :
    (rootAndNodes (Text.trim t)).1 = rootText t := by
  rw [rootAndNodes, List.span_eq_takeWhile_dropWhile]
  rfl

theorem isTokenChar_of_mem_piecesAfterName {t list : Text}
    (h : list ∈ tokens (piecesAfterName t)) :
    ∀ c ∈ list, isTokenChar c = true := by
  fun_induction piecesAfterName t with
  | case1 => simp [tokens] at h
  | case2 c => simp [tokens] at h
  | case3 c d t hat ih =>
      rw [tokens, tokens, List.mem_cons] at h
      rcases h with rfl | h
      · exact List.all_eq_true.mp List.all_takeWhile
      · exact ih h
  | case4 c d t hat ih => exact ih h

theorem isTokenChar_of_mem_tokens {root list : Text}
    (h : list ∈ tokens (pieces root)) : ∀ c ∈ list, isTokenChar c = true := by
  by_cases hroot : Attached root
  · obtain ⟨name, t, hne, hname, rfl⟩ := hroot
    rw [pieces_attached hne hname, tokens_append, tokens_map_kept,
      List.nil_append, tokens, List.mem_cons] at h
    rcases h with rfl | h
    · exact List.all_eq_true.mp List.all_takeWhile
    · exact isTokenChar_of_mem_piecesAfterName h
  · rw [pieces_of_not_attached hroot] at h
    exact isTokenChar_of_mem_piecesAfterName h

theorem not_listMeans_nil {ranges : List VersionRange} : ¬ListMeans [] ranges := by
  intro h
  obtain ⟨items, hne, hnil, _⟩ := h.exists_items
  exact Item.listText_ne_nil hne hnil.symm

theorem not_forall₂_of_nil_mem {lists : List Text}
    {parts : List (List VersionRange)} (h : [] ∈ lists) :
    ¬List.Forall₂ ListMeans lists parts := by
  intro hall
  induction hall with
  | nil => simp at h
  | cons hmeans _ ih =>
      rcases List.mem_cons.mp h with rfl | h
      · exact not_listMeans_nil hmeans
      · exact ih h

/-- The tokens of a root are read as what their texts stand for, whatever spec
the errors would quote. -/
theorem mapM_rangesOf_tokens_eq_ok_iff {spec root : Text}
    {parts : List (List VersionRange)} :
    (tokens (pieces root)).mapM (rangesOf spec) = .ok parts ↔
      List.Forall₂ ListMeans (tokens (pieces root)) parts := by
  rw [mapM_eq_ok_iff_forall₂]
  refine forall₂_congr_of_mem fun list hlist ranges => ?_
  exact rangesOf_eq_ok_iff (isTokenChar_of_mem_tokens hlist)

/-- The tokens found by the reader stand for ranges exactly when those written
do. -/
theorem forall₂_tokens_iff {t : Text} {parts : List (List VersionRange)} :
    List.Forall₂ ListMeans (tokens (pieces (rootText t))) parts ↔
      List.Forall₂ ListMeans (tokenTexts t) parts := by
  have htexts : ((openings [] (rootText t)).map tokenBefore).map Prod.fst =
      tokenTexts t := by
    rw [List.map_map]
    rfl
  rw [← map_fst_tokensWithNext, ← htexts]
  rcases agree_pieces (rootText t) with heq | ⟨hpieces, hwritten⟩
  · rw [heq]
  · exact iff_of_false (not_forall₂_of_nil_mem hpieces)
      (not_forall₂_of_nil_mem hwritten)

theorem takeWhile_ne_nil_iff {p : Char → Bool} {t : Text} :
    t.takeWhile p ≠ [] ↔ ∃ c ∈ t.head?, p c = true := by
  cases t with
  | nil => simp
  | cons c t => cases h : p c <;> simp [h]

theorem exists_forall₂_iff {lists : List Text} :
    (∃ parts, List.Forall₂ ListMeans lists parts) ↔
      ∀ list ∈ lists, ∃ ranges, ListMeans list ranges := by
  induction lists with
  | nil => simp
  | cons list lists ih =>
      simp [List.forall₂_cons_left_iff, ← ih]

/-- A text is read as a spec exactly when it starts with a name and the text of
each root version token is a list of items; the spec then declares the ranges of
all tokens in the order written. -/
theorem parse_follows_grammar (t : Text) :
    ((∃ s, Spec.parse t = .ok s) ↔
        (∃ c ∈ (Text.trim t).head?, isNameChar c = true) ∧
          ∀ list ∈ tokenTexts t, ∃ ranges, ListMeans list ranges) ∧
      ∀ s, Spec.parse t = .ok s →
        ∃ parts, List.Forall₂ ListMeans (tokenTexts t) parts ∧
          s.ranges = parts.flatten := by
  simp only [parse_eq_ok_iff, rootAndNodes_fst, mapM_rangesOf_tokens_eq_ok_iff,
    forall₂_tokens_iff]
  constructor
  · rw [← takeWhile_ne_nil_iff, ← exists_forall₂_iff]
    constructor
    · rintro ⟨s, hpackage, hne, _, parts, hparts, _⟩
      exact ⟨hpackage ▸ hne, parts, hparts⟩
    · rintro ⟨hne, parts, hparts⟩
      let s : Spec := Spec.mk ((Text.trim t).takeWhile isNameChar)
        (withoutVersion (Text.trim t)) parts.flatten
      refine ⟨s, ?_, ?_, ?_, parts, hparts, ?_⟩
      · dsimp only [s]
      · exact hne
      · dsimp only [s]
      · dsimp only [s]
  · rintro s ⟨_, _, _, parts, hparts, hranges⟩
    exact ⟨parts, hparts, hranges⟩

/-- Two tokens beside an `@` of a variant and one of a node. -/
theorem parse_follows_grammar_two_tokens :
    ∃ s parts, Spec.parse "foo@1:2,=3 +mpi@4 @ 5: %gcc @6" = .ok s ∧
      tokenTexts "foo@1:2,=3 +mpi@4 @ 5: %gcc @6" =
        ["1:2,=3".toList, "5:".toList] ∧
      List.Forall₂ ListMeans ["1:2,=3".toList, "5:".toList] parts ∧
      s.ranges = parts.flatten := by
  have htexts : tokenTexts "foo@1:2,=3 +mpi@4 @ 5: %gcc @6" =
      ["1:2,=3".toList, "5:".toList] := by decide +kernel
  let one : Version := ⟨"1", by decide, by decide⟩
  let two : Version := ⟨"2", by decide, by decide⟩
  let three : Version := ⟨"3", by decide, by decide⟩
  let five : Version := ⟨"5", by decide, by decide⟩
  have hfirst : ListMeans "1:2,=3" [⟨some one, some two⟩, ⟨some three, some three⟩] :=
    ⟨["1:2", "=3"], by simp, by decide,
      .cons (.bounds ⟨some one, some two⟩) (.cons (.equals three) .nil)⟩
  have hsecond : ListMeans "5:" [⟨some five, none⟩] :=
    ⟨["5:"], by simp, by decide, .cons (.bounds ⟨some five, none⟩) .nil⟩
  obtain ⟨haccept, hranges⟩ :=
    parse_follows_grammar "foo@1:2,=3 +mpi@4 @ 5: %gcc @6"
  obtain ⟨s, hparse⟩ := haccept.mpr ⟨⟨'f', by decide +kernel, by decide⟩, by
    rw [htexts]
    simp only [List.mem_cons, List.not_mem_nil, or_false]
    rintro list (rfl | rfl)
    · exact ⟨_, hfirst⟩
    · exact ⟨_, hsecond⟩⟩
  obtain ⟨parts, hparts, hflat⟩ := hranges s hparse
  rw [htexts] at hparts
  exact ⟨s, parts, hparse, htexts, hparts, hflat⟩

end Spec
end DevSpecs
