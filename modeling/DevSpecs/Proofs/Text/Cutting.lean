import DevSpecs.Proofs.Text.Words

/-!
# Cutting texts

What a cut at the first separator or at all of them gives, and what it means to take
a text off the start or off the end of another one.
-/

namespace DevSpecs
namespace Text

/-! ## At the first separator -/

theorem cutAt_append {s t : Text} {c : Char} (h : c ∉ s) :
    cutAt c (s ++ c :: t) = some (s, t) := by
  have hs : ∀ d ∈ s, (d != c) = true := by
    intro d hd
    rw [bne_iff_ne]
    rintro rfl
    exact h hd
  have hstop : ∀ d ∈ (c :: t).head?, (d != c) = false := by simp
  rw [cutAt, dropWhile_append_of_all hs hstop, takeWhile_append_of_all hs hstop]

theorem cutAt_eq_none_iff {t : Text} {c : Char} : cutAt c t = none ↔ c ∉ t := by
  constructor
  · intro h hmem
    obtain ⟨s, rest, rfl, hs⟩ := List.eq_append_cons_of_mem hmem
    rw [cutAt_append hs] at h
    contradiction
  · intro h
    have ht : ∀ d ∈ t, (d != c) = true := by
      intro d hd
      rw [bne_iff_ne]
      rintro rfl
      exact h hd
    have hdrop := dropWhile_append_of_all (t := []) ht (by simp)
    rw [List.append_nil] at hdrop
    rw [cutAt, hdrop]

theorem cutAt_eq_some_iff {t s rest : Text} {c : Char} :
    cutAt c t = some (s, rest) ↔ t = s ++ c :: rest ∧ c ∉ s := by
  constructor
  · intro h
    by_cases hmem : c ∈ t
    · obtain ⟨s', rest', rfl, hs'⟩ := List.eq_append_cons_of_mem hmem
      rw [cutAt_append hs'] at h
      obtain ⟨rfl, rfl⟩ := Prod.mk.inj (Option.some.inj h)
      exact ⟨rfl, hs'⟩
    · rw [cutAt_eq_none_iff.mpr hmem] at h
      contradiction
  · rintro ⟨rfl, hs⟩
    exact cutAt_append hs

/-! ## Between separators -/

/-- A text without separators is part of the piece behind it. -/
theorem splitOnP_append_of_all {p : Char → Bool} {s : Text} (t : Text)
    (h : ∀ c ∈ s, p c = false) :
    (s ++ t).splitOnP p = (t.splitOnP p).modifyHead (s ++ ·) := by
  induction s with
  | nil => exact (congrFun List.modifyHead_id (t.splitOnP p)).symm
  | cons c s ih =>
      rw [List.cons_append, List.splitOnP_cons_eq_if_modifyHead, h c List.mem_cons_self,
        if_neg Bool.false_ne_true, ih fun d hd => h d (List.mem_cons_of_mem c hd),
        List.modifyHead_modifyHead]
      rfl

/-! ## Off the start and off the end -/

theorem dropStart?_eq_some_iff {start t rest : Text} :
    dropStart? start t = some rest ↔ t = start ++ rest := by
  induction start generalizing t with
  | nil => exact Option.some_inj
  | cons c start ih =>
      cases t with
      | nil => exact iff_of_false nofun nofun
      | cons d t =>
          rw [dropStart?, List.cons_append, List.cons_eq_cons, eq_comm (a := d)]
          split_ifs with hc
          · rw [ih]
            exact (and_iff_right hc).symm
          · exact iff_of_false nofun fun h => hc h.1

theorem dropEnd?_eq_some_iff {ending t rest : Text} :
    dropEnd? ending t = some rest ↔ t = rest ++ ending := by
  rw [dropEnd?, Option.map_eq_some_iff]
  constructor
  · rintro ⟨back, hback, rfl⟩
    rw [dropStart?_eq_some_iff, List.reverse_eq_append_iff] at hback
    rw [hback, List.reverse_reverse]
  · rintro rfl
    refine ⟨rest.reverse, dropStart?_eq_some_iff.mpr ?_, List.reverse_reverse rest⟩
    exact List.reverse_append

end Text
end DevSpecs
