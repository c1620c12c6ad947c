import DevSpecs.Proofs.Text.Cutting
import DevSpecs.Report.Style

/-!
# Removing styles

A style sequence is an escape character and a bracket, codes, and the letter `m`.  To
remove the styles of a text is to leave out every such sequence.  What a painted text
shows when its styles are removed is the text that has been painted, whatever stands
behind it, so the text shown by a concatenation is that shown by its parts.
-/

namespace DevSpecs

open Text

/-! ## Style sequences -/

/-- The characters of the codes in a style sequence. -/
def isCode (c : Char) : Bool :=
  c.isDigit || c == ';'

/-- A style sequence. -/
def IsSequence (q : Text) : Prop :=
  ∃ codes : Text, codes.all isCode = true ∧ q = "\x1b[" ++ codes ++ "m"

/-- Texts without escape characters are painted by putting style sequences around
them. -/
def Wraps (paint : Style → Text → Text) : Prop :=
  ∀ (style : Style) (t : Text), '\x1b' ∉ t →
    ∃ before after : List Text, (∀ q ∈ before, IsSequence q) ∧
      (∀ q ∈ after, IsSequence q) ∧ paint style t = before.flatten ++ t ++ after.flatten

theorem IsSequence.exists_cons {q : Text} (h : IsSequence q) : ∃ t, q = '\x1b' :: t := by
  obtain ⟨codes, _, rfl⟩ := h
  exact ⟨_, rfl⟩

theorem Style.isSequence_start (style : Style) : IsSequence style.start :=
  ⟨style.code, by cases style <;> rfl, rfl⟩

theorem Style.isSequence_reset : IsSequence reset :=
  ⟨"0", rfl, rfl⟩

theorem Style.resuming_of_notMem (style : Style) {t : Text} (h : '\x1b' ∉ t) :
    style.resuming t = t := by
  fun_induction resuming style t with
  | case1 t ih => exact absurd List.mem_cons_self h
  | case2 c t hreset ih => rw [ih (List.not_mem_of_not_mem_cons h)]
  | case3 => rfl

theorem Style.wraps_paint : Wraps paint := by
  intro style t ht
  refine ⟨[style.start], [reset], ?_, ?_, ?_⟩
  · exact List.forall_mem_singleton.mpr style.isSequence_start
  · exact List.forall_mem_singleton.mpr isSequence_reset
  · rw [paint, style.resuming_of_notMem ht, List.flatten_singleton, List.flatten_singleton]

/-! ## Removal -/

/-- What follows the style sequence at the start of a text. -/
def afterSequence? (t : Text) : Option Text :=
  (dropStart? "\x1b[" t).bind fun codes => dropStart? "m" (codes.dropWhile isCode)

theorem afterSequence?_eq_some_iff {t rest : Text} :
    afterSequence? t = some rest ↔ ∃ q, IsSequence q ∧ t = q ++ rest := by
  rw [afterSequence?, Option.bind_eq_some_iff]
  constructor
  · rintro ⟨codes, hcodes, hrest⟩
    rw [dropStart?_eq_some_iff] at hcodes hrest
    refine ⟨_, ⟨codes.takeWhile isCode, List.all_takeWhile, rfl⟩, ?_⟩
    rw [hcodes, List.append_assoc, List.append_assoc, ← hrest, List.takeWhile_append_dropWhile]
  · rintro ⟨_, ⟨codes, hcodes, rfl⟩, rfl⟩
    have hend : ∀ c ∈ ('m' :: rest).head?, isCode c = false := by
      rintro _ ⟨⟩
      rfl
    refine ⟨codes ++ 'm' :: rest, ?_, ?_⟩
    · rw [dropStart?_eq_some_iff, List.append_assoc, List.append_assoc]
      rfl
    · rw [dropWhile_append_of_all (List.all_eq_true.mp hcodes) hend, dropStart?_eq_some_iff]
      rfl

theorem length_lt_of_afterSequence? {t rest : Text} (h : afterSequence? t = some rest) :
    rest.length < t.length := by
  obtain ⟨q, hq, rfl⟩ := afterSequence?_eq_some_iff.mp h
  obtain ⟨u, rfl⟩ := hq.exists_cons
  rw [List.length_append, List.length_cons]
  omega

/-- The text without its style sequences. -/
def unstyled : Text → Text
  | [] => []
  | c :: t =>
    match _ : afterSequence? (c :: t) with
    | some rest => unstyled rest
    | none => c :: unstyled t
termination_by t => t.length
decreasing_by
  · exact length_lt_of_afterSequence? ‹_›
  · exact Nat.lt_succ_self _

theorem unstyled_sequence_append {q : Text} (h : IsSequence q) (t : Text) :
    unstyled (q ++ t) = unstyled t := by
  have hafter : afterSequence? (q ++ t) = some t := afterSequence?_eq_some_iff.mpr ⟨q, h, rfl⟩
  obtain ⟨u, rfl⟩ := h.exists_cons
  rw [List.cons_append] at hafter ⊢
  rw [unstyled]
  split
  next rest hrest =>
    rw [hafter] at hrest
    rw [Option.some.inj hrest]
  next hnone =>
    rw [hafter] at hnone
    contradiction

theorem unstyled_cons_of_ne {c : Char} (h : c ≠ '\x1b') (t : Text) :
    unstyled (c :: t) = c :: unstyled t := by
  rw [unstyled]
  split
  next rest hrest =>
    obtain ⟨q, hq, hcons⟩ := afterSequence?_eq_some_iff.mp hrest
    obtain ⟨u, rfl⟩ := hq.exists_cons
    exact absurd (List.cons.inj hcons).1 h
  next => rfl

/-! ## What a text shows -/

/-- Without styles the text is `u`, whatever follows it. -/
def Shows (t u : Text) : Prop :=
  ∀ rest, unstyled (t ++ rest) = u ++ unstyled rest

namespace Shows

variable {t t' u u' : Text}

theorem unstyled_eq (h : Shows t u) : unstyled t = u := by
  have := h []
  rwa [List.append_nil, unstyled, List.append_nil] at this

theorem append (h : Shows t u) (h' : Shows t' u') : Shows (t ++ t') (u ++ u') := by
  intro rest
  rw [List.append_assoc, h, h', List.append_assoc]

theorem nil : Shows [] [] :=
  fun _ => rfl

theorem flatMap {α : Type} {xs : List α} {f g : α → Text} (h : ∀ x ∈ xs, Shows (f x) (g x)) :
    Shows (xs.flatMap f) (xs.flatMap g) := by
  induction xs with
  | nil => exact nil
  | cons x xs ih =>
      obtain ⟨hx, hxs⟩ := List.forall_mem_cons.mp h
      rw [List.flatMap_cons, List.flatMap_cons]
      exact hx.append (ih hxs)

theorem intercalate {sep : Text} {ts : List Text} (hsep : Shows sep sep)
    (h : ∀ t ∈ ts, Shows t t) : Shows (sep.intercalate ts) (sep.intercalate ts) := by
  induction ts with
  | nil => exact nil
  | cons t ts ih =>
      obtain ⟨ht, hts⟩ := List.forall_mem_cons.mp h
      cases ts with
      | nil => rwa [List.intercalate_singleton]
      | cons u us =>
          rw [List.intercalate_cons_cons]
          exact (ht.append hsep).append (ih hts)

/-- A text without escape characters shows itself. -/
theorem of_notMem (h : '\x1b' ∉ t) : Shows t t := by
  intro rest
  induction t with
  | nil => rfl
  | cons c t ih =>
      have hc : c ≠ '\x1b' := (List.ne_of_not_mem_cons h).symm
      rw [List.cons_append, unstyled_cons_of_ne hc, ih (List.not_mem_of_not_mem_cons h),
        List.cons_append]

/-- Style sequences show nothing. -/
theorem of_sequences {qs : List Text} (h : ∀ q ∈ qs, IsSequence q) : Shows qs.flatten [] := by
  intro rest
  induction qs with
  | nil => rfl
  | cons q qs ih =>
      obtain ⟨hq, hqs⟩ := List.forall_mem_cons.mp h
      rw [List.flatten_cons, List.append_assoc, unstyled_sequence_append hq, ih hqs]

theorem of_paint {paint : Style → Text → Text} (hpaint : Wraps paint) (style : Style)
    (h : '\x1b' ∉ t) : Shows (paint style t) t := by
  obtain ⟨before, after, hbefore, hafter, heq⟩ := hpaint style t h
  have hshows := ((of_sequences hbefore).append (of_notMem h)).append (of_sequences hafter)
  rwa [List.nil_append, List.append_nil, ← heq] at hshows

end Shows

end DevSpecs
