import DevSpecs.Spec.Root
import DevSpecs.Proofs.Text.Words

/-!
# Pieces of a root

What stays of a root when its tokens are taken out keeps the leading package
name and adds no characters.  A root without tokens keeps everything, and a
token that is written after it, with a space between, is the only one.
-/

namespace DevSpecs
namespace Spec

open Text

/-! ## Characters -/

theorem toNat_of_isAlphanumeric {c : Char} (h : Text.isAlphanumeric c = true) :
    48 ≤ c.toNat ∧ c.toNat ≤ 122 := by
  change (decide (65 ≤ c.val ∧ c.val ≤ 90) ||
    decide (97 ≤ c.val) && decide (c.val ≤ 122) ||
    decide (48 ≤ c.val) && decide (c.val ≤ 57)) = true at h
  simp only [Bool.or_eq_true, Bool.and_eq_true, decide_eq_true_eq,
    UInt32.le_iff_toNat_le] at h
  change (65 ≤ c.toNat ∧ c.toNat ≤ 90 ∨ 97 ≤ c.toNat ∧ c.toNat ≤ 122) ∨
    48 ≤ c.toNat ∧ c.toNat ≤ 57 at h
  omega

theorem isBlank_of_isAlphanumeric {c : Char}
    (h : Text.isAlphanumeric c = true) : isBlank c = false := by
  have hrange := toNat_of_isAlphanumeric h
  simp [isBlank]
  omega

theorem isBlank_of_isTokenChar {c : Char} (h : isTokenChar c = true) :
    isBlank c = false := by
  have hpunctuation : ∀ c ∈ "_.:,=-".toList, isBlank c = false := by
    simp [isBlank]
  rw [isTokenChar, Bool.or_eq_true, List.contains_iff_mem] at h
  rcases h with h | h
  · exact isBlank_of_isAlphanumeric h
  · exact hpunctuation c h

theorem startsNode_of_isTokenChar {c : Char} (h : isTokenChar c = true) :
    startsNode c = false := by
  rw [← Bool.not_eq_true]
  intro hnode
  rw [startsNode, Bool.or_eq_true, beq_iff_eq, beq_iff_eq] at hnode
  rcases hnode with rfl | rfl
  · exact absurd h (by decide)
  · exact absurd h (by decide)

theorem isBlank_of_startsNode {c : Char} (h : startsNode c = true) :
    isBlank c = false := by
  rw [startsNode, Bool.or_eq_true, beq_iff_eq, beq_iff_eq] at h
  rcases h with rfl | rfl <;> decide

theorem startsNode_of_isBlank {c : Char} (h : isBlank c = true) :
    startsNode c = false := by
  rw [← Bool.not_eq_true]
  intro hnode
  simp [isBlank_of_startsNode hnode] at h

theorem ne_at_of_isBlank {c : Char} (h : isBlank c = true) : c ≠ '@' := by
  rintro rfl
  exact absurd h (by decide)

theorem isTokenChar_of_isNameChar {c : Char} (h : isNameChar c = true) :
    isTokenChar c = true := by
  simp only [isNameChar, Bool.or_eq_true, beq_iff_eq] at h
  rcases h with (h | rfl) | rfl
  · simp [isTokenChar, h]
  · decide
  · decide

theorem isNameChar_of_isTokenChar_eq_false {c : Char}
    (h : isTokenChar c = false) : isNameChar c = false := by
  rw [← Bool.not_eq_true] at h ⊢
  exact mt isTokenChar_of_isNameChar h

theorem isTokenChar_of_isBlank {c : Char} (h : isBlank c = true) :
    isTokenChar c = false := by
  rw [← Bool.not_eq_true]
  intro htoken
  simp [isBlank_of_isTokenChar htoken] at h

theorem isNameChar_of_isBlank {c : Char} (h : isBlank c = true) :
    isNameChar c = false :=
  isNameChar_of_isTokenChar_eq_false (isTokenChar_of_isBlank h)

/-! ## What stays -/

namespace Piece

@[simp] theorem tokens_append (ps qs : List Piece) :
    tokens (ps ++ qs) = tokens ps ++ tokens qs := by
  induction ps with
  | nil => rfl
  | cons p ps ih => cases p <;> simp [tokens, ih]

@[simp] theorem keptText_append (ps qs : List Piece) :
    keptText (ps ++ qs) = keptText ps ++ keptText qs := by
  induction ps with
  | nil => rfl
  | cons p ps ih => cases p <;> simp [keptText, ih]

@[simp] theorem tokens_map_kept (t : Text) : tokens (t.map kept) = [] := by
  induction t with
  | nil => rfl
  | cons c t ih => exact ih

@[simp] theorem keptText_map_kept (t : Text) : keptText (t.map kept) = t := by
  induction t with
  | nil => rfl
  | cons c t ih => simp [keptText, ih]

end Piece

open Piece

/-- A list of token characters is read up to the first other character. -/
theorem tokenTail_append {list tail : Text} (hne : list ≠ [])
    (hlist : ∀ c ∈ list, isTokenChar c = true)
    (htail : ∀ c ∈ tail.head?, isTokenChar c = false) :
    tokenTail (list ++ tail) = (list, tail) := by
  obtain ⟨c, rest, rfl⟩ := List.exists_cons_of_ne_nil hne
  have hc : isBlank c = false := isBlank_of_isTokenChar (hlist c (by simp))
  have htrim : trimStart (c :: rest ++ tail) = c :: rest ++ tail :=
    trimStart_cons hc _
  simp only [tokenTail, htrim, takeWhile_append_of_all hlist htail,
    dropWhile_append_of_all hlist htail]

theorem tokenTail_sublist (t : Text) : (tokenTail t).2.Sublist t :=
  (List.dropWhile_sublist _).trans (List.dropWhile_sublist _)

theorem head?_tokenTail {t : Text} :
    ∀ c ∈ (tokenTail t).2.head?, isTokenChar c = false :=
  head?_dropWhile

@[simp] theorem piecesAfterName_nil : piecesAfterName [] = [] := by
  rw [piecesAfterName.eq_def]

@[simp] theorem piecesAfterName_singleton (c : Char) :
    piecesAfterName [c] = [.kept c] := by
  rw [piecesAfterName.eq_def]

theorem piecesAfterName_cons {c d : Char} {t : Text}
    (h : (isBlank c && d == '@') = false) :
    piecesAfterName (c :: d :: t) = .kept c :: piecesAfterName (d :: t) := by
  rw [piecesAfterName.eq_def]
  simp only [h, Bool.false_eq_true, if_false]

theorem piecesAfterName_token {c d : Char} {t : Text}
    (h : (isBlank c && d == '@') = true) :
    piecesAfterName (c :: d :: t) =
      .kept c :: .token (tokenTail t).1 :: piecesAfterName (tokenTail t).2 := by
  rw [piecesAfterName.eq_def]
  simp only [h, if_true]

theorem keptText_piecesAfterName_sublist (t : Text) :
    (keptText (piecesAfterName t)).Sublist t := by
  fun_induction piecesAfterName t with
  | case1 => exact .slnil
  | case2 c => exact .refl _
  | case3 c d t h ih =>
      exact ((ih.trans (tokenTail_sublist t)).cons d).cons_cons c
  | case4 c d t h ih => exact ih.cons_cons c

/-- Name characters are never taken out, nor is the blank before a token. -/
theorem takeWhile_keptText_piecesAfterName (t : Text) :
    (keptText (piecesAfterName t)).takeWhile isNameChar =
      t.takeWhile isNameChar := by
  fun_induction piecesAfterName t with
  | case1 => rfl
  | case2 c => rfl
  | case3 c d t h ih =>
      have hc : isNameChar c = false :=
        isNameChar_of_isBlank (Bool.and_eq_true _ _ ▸ h).1
      simp [keptText, hc]
  | case4 c d t h ih =>
      rw [keptText, List.takeWhile_cons, List.takeWhile_cons, ih]

/-! ## A token at the leading name -/

/-- An `@` directly follows the leading package name. -/
def Attached (root : Text) : Prop :=
  ∃ name t, name ≠ [] ∧ (∀ c ∈ name, isNameChar c = true) ∧
    root = name ++ '@' :: t

theorem pieces_attached {name t : Text} (hne : name ≠ [])
    (hname : ∀ c ∈ name, isNameChar c = true) :
    pieces (name ++ '@' :: t) =
      name.map .kept ++
        .token (tokenTail t).1 :: piecesAfterName (tokenTail t).2 := by
  have hat : ∀ c ∈ ('@' :: t).head?, isNameChar c = false := by
    rintro _ ⟨⟩
    decide
  have htake := takeWhile_append_of_all hname hat
  have hdrop := dropWhile_append_of_all hname hat
  obtain ⟨n, name, rfl⟩ := List.exists_cons_of_ne_nil hne
  simp only [pieces, htake, hdrop]

theorem pieces_of_not_attached {root : Text} (h : ¬Attached root) :
    pieces root = piecesAfterName root := by
  rw [pieces]
  split
  · next n name t hname hdrop =>
    refine absurd ⟨n :: name, t, by simp, ?_, ?_⟩ h
    · rw [← hname]
      exact List.all_eq_true.mp List.all_takeWhile
    · rw [← hname, ← hdrop, List.takeWhile_append_dropWhile]
  · rfl

theorem Attached.append {s : Text} (h : Attached s) (t : Text) :
    Attached (s ++ t) := by
  obtain ⟨name, rest, hne, hname, rfl⟩ := h
  exact ⟨name, rest ++ t, hne, hname, by simp⟩

theorem Attached.of_append {s t : Text} (h : Attached (s ++ t))
    (ht : ∀ c ∈ t.head?, isNameChar c = false ∧ c ≠ '@') : Attached s := by
  obtain ⟨name, rest, hne, hname, heq⟩ := h
  rcases List.append_eq_append_iff.mp heq with
    ⟨u, rfl, rfl⟩ | ⟨u, rfl, hrest⟩
  · cases u with
    | nil => exact absurd rfl (ht '@' rfl).2
    | cons c u =>
        have hc := (ht c rfl).1
        simp [hname c (by simp)] at hc
  · cases u with
    | nil =>
        obtain rfl : t = '@' :: rest := hrest.symm
        exact absurd rfl (ht '@' rfl).2
    | cons c u =>
        obtain ⟨rfl, _⟩ := List.cons.inj hrest
        exact ⟨name, u, hne, hname, rfl⟩

/-- An `@` that directly follows the leading name stands in the first word. -/
theorem attached_append_iff {w t : Text}
    (ht : ∀ c ∈ t.head?, isBlank c = true) :
    Attached (w ++ t) ↔ Attached w := by
  constructor
  · intro h
    refine h.of_append fun c hc => ⟨isNameChar_of_isBlank (ht c hc), ?_⟩
    rintro rfl
    exact absurd (ht '@' hc) (by decide)
  · exact fun h => h.append t

theorem keptText_pieces_sublist (root : Text) :
    (keptText (pieces root)).Sublist root := by
  by_cases h : Attached root
  · obtain ⟨name, t, hne, hname, rfl⟩ := h
    have hrest : (keptText (piecesAfterName (tokenTail t).2)).Sublist t :=
      (keptText_piecesAfterName_sublist _).trans (tokenTail_sublist t)
    rw [pieces_attached hne hname, keptText_append, keptText_map_kept]
    exact (hrest.cons '@').append_left name
  · rw [pieces_of_not_attached h]
    exact keptText_piecesAfterName_sublist root

/-- The leading package name stays, and nothing joins it. -/
theorem takeWhile_keptText_pieces (root : Text) :
    (keptText (pieces root)).takeWhile isNameChar =
      root.takeWhile isNameChar := by
  by_cases h : Attached root
  · obtain ⟨name, t, hne, hname, rfl⟩ := h
    have hat : ∀ c ∈ ('@' :: t).head?, isNameChar c = false := by
      rintro _ ⟨⟩
      decide
    have hstop : (tokenTail t).2.takeWhile isNameChar = [] := by
      cases htail : (tokenTail t).2 with
      | nil => rfl
      | cons c rest =>
          have hc := head?_tokenTail (t := t) c (by rw [htail]; rfl)
          exact List.takeWhile_cons_of_neg
            (by simp [isNameChar_of_isTokenChar_eq_false hc])
    rw [pieces_attached hne hname, keptText_append, keptText_map_kept, keptText,
      List.takeWhile_append_of_pos hname, takeWhile_keptText_piecesAfterName,
      hstop, List.append_nil, takeWhile_append_of_all hname hat]
  · rw [pieces_of_not_attached h]
    exact takeWhile_keptText_piecesAfterName root

/-! ## Roots without tokens -/

/-- A root without tokens: all of its characters stay. -/
def Plain (root : Text) : Prop :=
  pieces root = root.map .kept

theorem piecesAfterName_of_tokens {t : Text}
    (h : tokens (piecesAfterName t) = []) :
    piecesAfterName t = t.map .kept := by
  fun_induction piecesAfterName t with
  | case1 => rfl
  | case2 c => rfl
  | case3 c d t hat ih => simp [tokens] at h
  | case4 c d t hat ih => rw [ih h]; rfl

theorem not_attached_of_tokens {root : Text}
    (h : tokens (pieces root) = []) : ¬Attached root := by
  rintro ⟨name, t, hne, hname, rfl⟩
  simp [pieces_attached hne hname, tokens] at h

theorem plain_iff_tokens {root : Text} :
    Plain root ↔ tokens (pieces root) = [] := by
  constructor
  · intro h
    rw [h, tokens_map_kept]
  · intro h
    have hnot := pieces_of_not_attached (not_attached_of_tokens h)
    rw [hnot] at h
    rw [Plain, hnot]
    exact piecesAfterName_of_tokens h

theorem plain_iff {root : Text} :
    Plain root ↔
      ¬Attached root ∧ piecesAfterName root = root.map .kept := by
  constructor
  · intro h
    have hnot := not_attached_of_tokens (plain_iff_tokens.mp h)
    exact ⟨hnot, pieces_of_not_attached hnot ▸ h⟩
  · rintro ⟨hnot, h⟩
    rw [Plain, pieces_of_not_attached hnot, h]

/-- Text after a stretch without tokens is read on its own, unless it starts
with `@`. -/
theorem piecesAfterName_append {s t : Text}
    (hs : piecesAfterName s = s.map .kept) (ht : ∀ c ∈ t.head?, c ≠ '@') :
    piecesAfterName (s ++ t) = s.map .kept ++ piecesAfterName t := by
  fun_induction piecesAfterName s with
  | case1 => rfl
  | case2 c =>
      cases t with
      | nil => simp
      | cons d t => exact piecesAfterName_cons (by simp [ht d rfl])
  | case3 c d s h ih => simp at hs
  | case4 c d s h ih =>
      have hrest := ih (List.cons.inj hs).2
      rw [List.cons_append] at hrest
      rw [List.cons_append, List.cons_append,
        piecesAfterName_cons (Bool.not_eq_true _ ▸ h), hrest]
      rfl

theorem piecesAfterName_of_append {s t : Text}
    (h : piecesAfterName (s ++ t) = (s ++ t).map .kept) :
    piecesAfterName s = s.map .kept := by
  fun_induction piecesAfterName s with
  | case1 => rfl
  | case2 c => rfl
  | case3 c d s hat ih =>
      rw [List.cons_append, List.cons_append, piecesAfterName_token hat] at h
      simp at h
  | case4 c d s hat ih =>
      have hcons := piecesAfterName_cons (t := s ++ t) (Bool.not_eq_true _ ▸ hat)
      simp only [List.cons_append, hcons, List.map_cons] at h
      rw [ih (List.cons.inj h).2]
      rfl

/-- The start of a root without tokens has none. -/
theorem Plain.of_append {s t : Text} (h : Plain (s ++ t)) : Plain s := by
  rw [plain_iff] at h ⊢
  exact ⟨fun hs => h.1 (hs.append t), piecesAfterName_of_append h.2⟩

/-- A token that is written after a root without tokens is its only one. -/
theorem Plain.pieces_append_token {root list tail : Text} (hroot : Plain root)
    (hne : list ≠ []) (hlist : ∀ c ∈ list, isTokenChar c = true)
    (htail : ∀ c ∈ tail.head?, isTokenChar c = false) :
    pieces (root ++ ' ' :: '@' :: (list ++ tail)) =
      root.map .kept ++
        .kept ' ' :: .token list :: piecesAfterName tail := by
  obtain ⟨hnot, hkept⟩ := plain_iff.mp hroot
  have hnot' : ¬Attached (root ++ ' ' :: '@' :: (list ++ tail)) := by
    intro h
    refine hnot (h.of_append ?_)
    rintro _ ⟨⟩
    decide
  rw [pieces_of_not_attached hnot', piecesAfterName_append hkept]
  · rw [piecesAfterName_token (by decide), tokenTail_append hne hlist htail]
  · rintro _ ⟨⟩
    decide

end Spec
end DevSpecs
