import DevSpecs.Text.Basic
import Mathlib.Data.List.DropRight
import Mathlib.Data.List.TakeWhile

/-!
# Words

The words of a text are its maximal runs of characters that are not blank.
Words joined by single spaces are read back unchanged, and such a text has no
blanks around it.
-/

namespace DevSpecs
namespace Text

/-- A nonempty text without blanks. -/
def IsWord (w : Text) : Prop :=
  w ≠ [] ∧ ∀ c ∈ w, isBlank c = false

instance (w : Text) : Decidable (IsWord w) :=
  decidable_of_iff (w ≠ [] ∧ w.all (!isBlank ·) = true) (by simp [IsWord])

/-! ## Cutting at the first character of a class -/

theorem takeWhile_append_of_head {p : Char → Bool} {s t : Text}
    (ht : ∀ c ∈ t.head?, p c = false) :
    (s ++ t).takeWhile p = s.takeWhile p := by
  induction s with
  | nil =>
      cases t with
      | nil => rfl
      | cons c t => exact List.takeWhile_cons_of_neg (by simp [ht c rfl])
  | cons c s ih => simp only [List.cons_append, List.takeWhile_cons, ih]

theorem takeWhile_append_of_all {p : Char → Bool} {s t : Text}
    (hs : ∀ c ∈ s, p c = true) (ht : ∀ c ∈ t.head?, p c = false) :
    (s ++ t).takeWhile p = s := by
  rw [takeWhile_append_of_head ht, ← List.append_nil s,
    List.takeWhile_append_of_pos hs]
  rfl

theorem dropWhile_append_of_head {p : Char → Bool} {s t : Text}
    (ht : ∀ c ∈ t.head?, p c = false) :
    (s ++ t).dropWhile p = s.dropWhile p ++ t := by
  have hstop : t.dropWhile p = t := by
    cases t with
    | nil => rfl
    | cons c t => exact List.dropWhile_cons_of_neg (by simp [ht c rfl])
  rw [List.dropWhile_append, hstop]
  split
  · next hempty => rw [List.isEmpty_iff.mp hempty, List.nil_append]
  · rfl

theorem dropWhile_append_of_all {p : Char → Bool} {s t : Text}
    (hs : ∀ c ∈ s, p c = true) (ht : ∀ c ∈ t.head?, p c = false) :
    (s ++ t).dropWhile p = t := by
  rw [dropWhile_append_of_head ht, List.dropWhile_eq_nil_iff.mpr hs,
    List.nil_append]

theorem head?_dropWhile {p : Char → Bool} {t : Text} :
    ∀ c ∈ (t.dropWhile p).head?, p c = false := by
  intro c hc
  have := List.head?_dropWhile_not p t
  rw [Option.mem_def.mp hc] at this
  simpa using this

theorem takeWhile_takeWhile_of_imp {p q : Char → Bool}
    (h : ∀ c, p c = true → q c = true) (t : Text) :
    (t.takeWhile q).takeWhile p = t.takeWhile p := by
  rw [List.takeWhile_takeWhile]
  congr 1
  funext c
  have := h c
  cases hp : p c <;> simp_all

/-! ## Splitting into words -/

@[simp] theorem words_nil : words [] = [] :=
  rfl

theorem words_append_cons (s t : Text) {c : Char} (hc : isBlank c = true) :
    words (s ++ c :: t) = words s ++ words t := by
  rw [words, List.splitOnP_append_cons s t hc, List.filter_append]
  rfl

theorem words_cons_blank (t : Text) {c : Char} (hc : isBlank c = true) :
    words (c :: t) = words t :=
  words_append_cons [] t hc

theorem words_blanks_append {blanks : Text} (h : ∀ c ∈ blanks, isBlank c = true)
    (t : Text) : words (blanks ++ t) = words t := by
  induction blanks with
  | nil => rfl
  | cons c blanks ih =>
      rw [List.cons_append, words_cons_blank _ (h c (by simp))]
      exact ih fun d hd => h d (List.mem_cons_of_mem c hd)

theorem words_of_isWord {w : Text} (hw : IsWord w) : words w = [w] := by
  rw [words, List.splitOnP_eq_singleton hw.2]
  simp [hw.1]

/-- The pieces between separators contain no separator and lie in the text. -/
theorem mem_splitOnP {p : Char → Bool} {t piece : Text}
    (h : piece ∈ t.splitOnP p) : ∀ c ∈ piece, p c = false ∧ c ∈ t := by
  induction t generalizing piece with
  | nil => simp_all
  | cons d t ih =>
      rw [List.splitOnP_cons_eq_if_modifyHead] at h
      split at h
      · rcases List.mem_cons.mp h with rfl | h
        · simp
        · intro c hc
          exact ⟨(ih h c hc).1, List.mem_cons_of_mem d (ih h c hc).2⟩
      · next hd =>
        obtain ⟨first, rest, hsplit⟩ :=
          List.exists_cons_of_ne_nil (List.splitOnP_ne_nil p t)
        rw [hsplit, List.modifyHead_cons] at h
        rcases List.mem_cons.mp h with rfl | h
        · intro c hc
          rcases List.mem_cons.mp hc with rfl | hc
          · exact ⟨by simpa using hd, List.mem_cons_self⟩
          · have hfirst := ih (hsplit ▸ List.mem_cons_self) c hc
            exact ⟨hfirst.1, List.mem_cons_of_mem d hfirst.2⟩
        · intro c hc
          have hrest := ih (hsplit ▸ List.mem_cons_of_mem first h) c hc
          exact ⟨hrest.1, List.mem_cons_of_mem d hrest.2⟩

theorem isWord_of_mem_words {t w : Text} (h : w ∈ words t) : IsWord w := by
  rw [words, List.mem_filter] at h
  exact ⟨by simpa using h.2, fun c hc => (mem_splitOnP h.1 c hc).1⟩

theorem mem_of_mem_words {t w : Text} (h : w ∈ words t) {c : Char}
    (hc : c ∈ w) : c ∈ t :=
  (mem_splitOnP (List.mem_filter.mp h).1 c hc).2

/-- A word that ends the text or stands before a blank is the first one. -/
theorem words_append_word {w t : Text} (hw : IsWord w)
    (ht : ∀ c ∈ t.head?, isBlank c = true) : words (w ++ t) = w :: words t := by
  cases t with
  | nil =>
      rw [List.append_nil, words_of_isWord hw, words_nil]
  | cons c t =>
      have hc : isBlank c = true := ht c rfl
      rw [words_append_cons w t hc, words_of_isWord hw, words_cons_blank t hc]
      rfl

theorem isWord_takeWhile {c : Char} {t : Text} (hc : isBlank c = false) :
    IsWord ((c :: t).takeWhile (!isBlank ·)) := by
  constructor
  · simp [hc]
  · intro d hd
    simpa using List.all_eq_true.mp List.all_takeWhile d hd

/-- After its first word a text ends or goes on with a blank. -/
theorem head?_dropWhile_not_isBlank {t : Text} :
    ∀ c ∈ (t.dropWhile (!isBlank ·)).head?, isBlank c = true := by
  intro c hc
  simpa using head?_dropWhile (p := (!isBlank ·)) c hc

/-- A text that does not start with a blank starts with its first word. -/
theorem words_cons_of_not_isBlank {c : Char} {t : Text}
    (hc : isBlank c = false) :
    words (c :: t) =
      (c :: t).takeWhile (!isBlank ·) ::
        words ((c :: t).dropWhile (!isBlank ·)) := by
  rw [← words_append_word (isWord_takeWhile hc) head?_dropWhile_not_isBlank,
    List.takeWhile_append_dropWhile]

theorem exists_words_eq_cons {c : Char} {t : Text} (hc : isBlank c = false) :
    ∃ rest, words (c :: t) = (c :: t).takeWhile (!isBlank ·) :: rest ∧
      IsWord ((c :: t).takeWhile (!isBlank ·)) :=
  ⟨_, words_cons_of_not_isBlank hc, isWord_takeWhile hc⟩

/-- The words hold the characters that are not blank. -/
theorem flatten_words (t : Text) : (words t).flatten = t.filter (!isBlank ·) := by
  rw [words, List.flatten_filter_not_isEmpty]
  induction t with
  | nil => rfl
  | cons c t ih =>
      rw [List.splitOnP_cons_eq_if_modifyHead]
      split
      · next hc => simp [hc, ih]
      · next hc =>
        obtain ⟨first, rest, hsplit⟩ :=
          List.exists_cons_of_ne_nil (List.splitOnP_ne_nil isBlank t)
        rw [hsplit] at ih
        simp [hsplit, hc, ← ih]

/-- The first word of a text that does not start with a blank starts as the
text does. -/
theorem head?_of_mem_head?_words {t w : Text}
    (ht : ∀ c ∈ t.head?, isBlank c = false) (hw : w ∈ (words t).head?) :
    w.head? = t.head? := by
  cases t with
  | nil => simp [words] at hw
  | cons c t =>
      have hc : isBlank c = false := ht c rfl
      obtain ⟨rest, hwords, _⟩ := exists_words_eq_cons (t := t) hc
      rw [hwords, List.head?_cons, Option.mem_some_iff] at hw
      rw [← hw, List.takeWhile_cons_of_pos (by simp [hc])]
      rfl

/-! ## Joining words -/

@[simp] theorem unwords_nil : unwords [] = [] :=
  rfl

@[simp] theorem unwords_singleton (w : Text) : unwords [w] = w := by
  simp [unwords, List.intercalate]

theorem unwords_cons {w : Text} {ws : List Text} (hws : ws ≠ []) :
    unwords (w :: ws) = w ++ ' ' :: unwords ws := by
  simp [unwords, List.intercalate_cons_of_ne_nil hws]

theorem unwords_append {us vs : List Text} (hus : us ≠ []) (hvs : vs ≠ []) :
    unwords (us ++ vs) = unwords us ++ ' ' :: unwords vs := by
  induction us with
  | nil => contradiction
  | cons u us ih =>
      cases us with
      | nil => simp [unwords_cons hvs]
      | cons v us =>
          rw [List.cons_append, unwords_cons (by simp), ih (by simp),
            unwords_cons (w := u) (List.cons_ne_nil v us), List.append_assoc]
          rfl

theorem unwords_ne_nil {ws : List Text} (hws : ws ≠ [])
    (h : ∀ w ∈ ws, IsWord w) : unwords ws ≠ [] := by
  obtain ⟨w, rest, rfl⟩ := List.exists_cons_of_ne_nil hws
  have hw : IsWord w := h w (by simp)
  by_cases hrest : rest = []
  · simpa [hrest] using hw.1
  · simp [unwords_cons hrest]

theorem mem_unwords {ws : List Text} {c : Char} (h : c ∈ unwords ws) :
    c = ' ' ∨ ∃ w ∈ ws, c ∈ w := by
  induction ws with
  | nil => simp at h
  | cons w ws ih =>
      by_cases hws : ws = []
      · subst hws
        exact Or.inr ⟨w, by simp, by simpa using h⟩
      · rw [unwords_cons hws, List.mem_append, List.mem_cons] at h
        rcases h with h | h | h
        · exact Or.inr ⟨w, by simp, h⟩
        · exact Or.inl h
        · rcases ih h with h | ⟨v, hv, h⟩
          · exact Or.inl h
          · exact Or.inr ⟨v, by simp [hv], h⟩

/-- Words joined by single spaces are read back. -/
theorem words_unwords {ws : List Text} (h : ∀ w ∈ ws, IsWord w) :
    words (unwords ws) = ws := by
  induction ws with
  | nil => rfl
  | cons w ws ih =>
      have hw : words w = [w] := words_of_isWord (h w (by simp))
      have hrest := ih fun v hv => h v (by simp [hv])
      by_cases hws : ws = []
      · simp [hws, hw]
      · rw [unwords_cons hws, words_append_cons _ _ (by decide), hw, hrest]
        rfl

/-- The first of some words is joined to a text with the words after it. -/
theorem exists_unwords_cons (w : Text) (ws : List Text)
    (h : ∀ v ∈ ws, IsWord v) :
    ∃ t, unwords (w :: ws) = w ++ t ∧ (∀ c ∈ t.head?, isBlank c = true) ∧
      words t = ws := by
  by_cases hws : ws = []
  · exact ⟨[], by simp [hws], by simp, by simp [hws]⟩
  · refine ⟨' ' :: unwords ws, unwords_cons hws, ?_, ?_⟩
    · rintro _ ⟨⟩
      decide
    · rw [words_cons_blank _ (by decide), words_unwords h]

theorem takeWhile_unwords_append {p : Char → Bool} (hp : p ' ' = false)
    {us : List Text} (hus : us ≠ []) (vs : List Text) :
    (unwords (us ++ vs)).takeWhile p = (unwords us).takeWhile p := by
  by_cases hvs : vs = []
  · rw [hvs, List.append_nil]
  · rw [unwords_append hus hvs]
    refine takeWhile_append_of_head ?_
    rintro _ ⟨⟩
    exact hp

/-- Joining the words of a text changes nothing before its first blank. -/
theorem takeWhile_unwords_words {p : Char → Bool}
    (hp : ∀ c, p c = true → isBlank c = false) {t : Text}
    (ht : ∀ c ∈ t.head?, isBlank c = false) :
    (unwords (words t)).takeWhile p = t.takeWhile p := by
  have hspace : p ' ' = false := by
    rw [← Bool.not_eq_true]
    intro h
    exact absurd (hp ' ' h) (by decide)
  cases t with
  | nil => rfl
  | cons c t =>
      have hc : isBlank c = false := ht c rfl
      obtain ⟨rest, hwords, _⟩ := exists_words_eq_cons (t := t) hc
      rw [hwords, ← List.singleton_append,
        takeWhile_unwords_append hspace (List.cons_ne_nil _ []),
        unwords_singleton]
      exact takeWhile_takeWhile_of_imp (fun d hd => by simp [hp d hd]) _

/-! ## Trimming -/

theorem trimStart_cons {c : Char} (hc : isBlank c = false) (t : Text) :
    trimStart (c :: t) = c :: t :=
  List.dropWhile_cons_of_neg (by simp [hc])

theorem trimEnd_append_singleton {c : Char} (hc : isBlank c = false)
    (t : Text) : trimEnd (t ++ [c]) = t ++ [c] := by
  simp [trimEnd, hc]

theorem trimEnd_append_blank {c : Char} (hc : isBlank c = true) (t : Text) :
    trimEnd (t ++ [c]) = trimEnd t := by
  simp [trimEnd, hc]

theorem trimEnd_append_word (t : Text) {w : Text} (hw : IsWord w) :
    trimEnd (t ++ w) = t ++ w := by
  have hlast : isBlank (w.getLast hw.1) = false :=
    hw.2 _ (List.getLast_mem hw.1)
  have hsplit : t ++ w.dropLast ++ [w.getLast hw.1] = t ++ w := by
    rw [List.append_assoc, List.dropLast_concat_getLast]
  rw [← hsplit]
  exact trimEnd_append_singleton hlast _

theorem trimEnd_unwords {ws : List Text} (h : ∀ w ∈ ws, IsWord w) :
    trimEnd (unwords ws) = unwords ws := by
  rcases List.eq_nil_or_concat ws with rfl | ⟨us, w, rfl⟩
  · rfl
  · rw [List.concat_eq_append] at h ⊢
    have hw : IsWord w := h w (by simp)
    by_cases hus : us = []
    · rw [hus, List.nil_append, unwords_singleton]
      exact trimEnd_append_word [] hw
    · rw [unwords_append hus (List.cons_ne_nil w []), unwords_singleton,
        List.append_cons]
      exact trimEnd_append_word _ hw

theorem trimStart_unwords {ws : List Text} (h : ∀ w ∈ ws, IsWord w) :
    trimStart (unwords ws) = unwords ws := by
  cases ws with
  | nil => rfl
  | cons w ws =>
      obtain ⟨hne, hblank⟩ := h w (by simp)
      obtain ⟨c, w, rfl⟩ := List.exists_cons_of_ne_nil hne
      have hc : isBlank c = false := hblank c (by simp)
      by_cases hws : ws = []
      · rw [hws, unwords_singleton]
        exact trimStart_cons hc w
      · rw [unwords_cons hws]
        exact trimStart_cons hc _

/-- Only blanks are taken off the end. -/
theorem exists_trimEnd_append (t : Text) :
    ∃ blanks, (∀ c ∈ blanks, isBlank c = true) ∧ t = trimEnd t ++ blanks := by
  refine ⟨t.rtakeWhile isBlank, ?_, ?_⟩
  · intro c hc
    exact List.mem_rtakeWhile_imp hc
  · exact List.rdropWhile_append_rtakeWhile.symm

theorem words_append_blanks (t : Text) {blanks : Text}
    (h : ∀ c ∈ blanks, isBlank c = true) : words (t ++ blanks) = words t := by
  induction blanks generalizing t with
  | nil => rw [List.append_nil]
  | cons c blanks ih =>
      rw [words_append_cons _ _ (h c (by simp)), ← List.nil_append blanks,
        ih [] fun d hd => h d (by simp [hd]), words_nil, List.append_nil]

theorem words_trimEnd (t : Text) : words (trimEnd t) = words t := by
  obtain ⟨blanks, hblanks, heq⟩ := exists_trimEnd_append t
  conv_rhs => rw [heq, words_append_blanks _ hblanks]

theorem trimEnd_append_cons (s : Text) {c : Char} (hc : isBlank c = false)
    (t : Text) : trimEnd (s ++ c :: t) = s ++ trimEnd (c :: t) := by
  have hne : ((c :: t).reverse.dropWhile isBlank).isEmpty = false := by
    rw [List.isEmpty_eq_false_iff, Ne, List.dropWhile_eq_nil_iff]
    intro hall
    simp [hall c (by simp)] at hc
  rw [trimEnd, trimEnd, List.reverse_append, List.dropWhile_append, hne,
    if_neg Bool.false_ne_true, List.reverse_append, List.reverse_reverse]

/-- Trimming a text on both sides of a character that is not blank. -/
theorem trim_append_cons (s : Text) {c : Char} (hc : isBlank c = false)
    (t : Text) : trim (s ++ c :: t) = trimStart s ++ trimEnd (c :: t) := by
  have hstart : trimStart (s ++ c :: t) = trimStart s ++ c :: t := by
    refine dropWhile_append_of_head ?_
    rintro _ ⟨⟩
    exact hc
  rw [trim, hstart, trimEnd_append_cons _ hc]

theorem head?_trimEnd_cons {c : Char} (hc : isBlank c = false) (t : Text) :
    (trimEnd (c :: t)).head? = some c := by
  obtain ⟨blanks, hblanks, heq⟩ := exists_trimEnd_append (c :: t)
  cases htrim : trimEnd (c :: t) with
  | nil =>
      rw [htrim, List.nil_append] at heq
      simp [hblanks c (by simp [← heq])] at hc
  | cons d rest =>
      rw [htrim] at heq
      rw [(List.cons.inj heq).1]
      rfl

theorem head?_trimStart (t : Text) :
    ∀ c ∈ (trimStart t).head?, isBlank c = false :=
  head?_dropWhile

theorem mem_of_mem_trim {t : Text} {c : Char} (h : c ∈ trim t) : c ∈ t := by
  have hend : c ∈ trimStart t := (List.rdropWhile_prefix isBlank (trimStart t)).mem h
  exact (List.dropWhile_suffix isBlank).mem hend

theorem head?_trim (t : Text) : ∀ c ∈ (trim t).head?, isBlank c = false := by
  have hprefix : trim t <+: trimStart t := List.rdropWhile_prefix _ _
  intro c hc
  obtain ⟨rest, hrest⟩ := List.head?_eq_some_iff.mp hc
  rw [hrest] at hprefix
  obtain ⟨u, hu⟩ := hprefix
  exact head?_trimStart t c (by rw [← hu]; rfl)

/-- What is trimmed twice is trimmed. -/
theorem trim_trim (t : Text) : trim (trim t) = trim t := by
  have hstart : trimStart (trim t) = trim t := by
    cases htrim : trim t with
    | nil => rfl
    | cons c rest => exact trimStart_cons (head?_trim t c (by rw [htrim]; rfl)) rest
  rw [trim, hstart]
  exact List.rdropWhile_idempotent _ _

theorem words_trimStart (t : Text) : words (trimStart t) = words t := by
  have hblanks : ∀ c ∈ t.takeWhile isBlank, isBlank c = true :=
    List.all_eq_true.mp List.all_takeWhile
  rw [trimStart, ← words_blanks_append hblanks, List.takeWhile_append_dropWhile]

theorem words_trim (t : Text) : words (trim t) = words t := by
  rw [trim, words_trimEnd, words_trimStart]

/-- A trimmed text starts with a word exactly if its first word does. -/
theorem isPrefix_trim_iff {mark : Text} (hmark : IsWord mark) (t : Text) :
    mark <+: trim t ↔ ∃ w ∈ (words t).head?, mark <+: w := by
  rw [← words_trim]
  cases htrim : trim t with
  | nil => simpa using hmark.1
  | cons c rest =>
      have hc : isBlank c = false := head?_trim t c (by rw [htrim]; rfl)
      rw [words_cons_of_not_isBlank hc, List.head?_cons]
      simp only [Option.mem_some_iff, exists_eq_left']
      constructor
      · rintro ⟨u, hu⟩
        rw [← hu, List.takeWhile_append_of_pos fun d hd => by simp [hmark.2 d hd]]
        exact List.prefix_append _ _
      · intro h
        exact h.trans (List.takeWhile_prefix _)

theorem isPrefix_trim_append {mark indent : Text} (hmark : IsWord mark)
    (hindent : ∀ c ∈ indent, isBlank c = true) (rest : Text) :
    mark <+: trim (indent ++ mark ++ rest) := by
  rw [isPrefix_trim_iff hmark, List.append_assoc, words_blanks_append hindent]
  obtain ⟨c, mark, rfl⟩ := List.exists_cons_of_ne_nil hmark.1
  rw [List.cons_append, words_cons_of_not_isBlank (hmark.2 c List.mem_cons_self),
    List.head?_cons]
  refine ⟨_, rfl, ?_⟩
  rw [← List.cons_append, List.takeWhile_append_of_pos fun d hd => by simp [hmark.2 d hd]]
  exact List.prefix_append _ _

theorem trim_unwords {ws : List Text} (h : ∀ w ∈ ws, IsWord w) :
    trim (unwords ws) = unwords ws := by
  rw [trim, trimStart_unwords h, trimEnd_unwords h]

theorem trim_of_isWord {w : Text} (hw : IsWord w) : trim w = w := by
  have htrim : trim (unwords [w]) = unwords [w] :=
    trim_unwords (by simpa using hw)
  rwa [unwords_singleton] at htrim

end Text
end DevSpecs
