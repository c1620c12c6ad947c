import DevSpecs.Proofs.Outcomes
import DevSpecs.Yaml.Reader

/-!
# Distinct keys

Every value is the same as itself, so a mapping that has a key finds it again.
In a well-keyed value no mapping has a key twice, down to every depth that merging
can reach.  What is read from a text is well-keyed.
-/

namespace DevSpecs

theorem Binary64.same_self (x : Binary64) : x.same x = true := by
  unfold same
  split
  · rfl
  · exact decide_eq_true rfl

namespace Yaml

/-! ## Sameness of a value with itself -/

theorem allIn_iff {entries others : List (Yaml × Yaml)} :
    allIn entries others = true ↔
      ∀ entry ∈ entries, ∃ other ∈ others, sameEntry entry other = true := by
  induction entries with
  | nil => exact iff_of_true rfl nofun
  | cons entry rest ih =>
      rw [allIn, Bool.and_eq_true, ih, List.any_eq_true, List.forall_mem_cons]

theorem isIn_iff {entries : List (Yaml × Yaml)} {other : Yaml × Yaml} :
    isIn entries other = true ↔ ∃ entry ∈ entries, sameEntry entry other = true := by
  induction entries with
  | nil => simp [isIn]
  | cons entry rest ih => simp only [isIn, Bool.or_eq_true, ih, List.exists_mem_cons_iff]

mutual

theorem same_self : ∀ v : Yaml, same v v = true
  | null => rfl
  | bool b => beq_self_eq_true b
  | int i => beq_self_eq_true i
  | float x => x.same_self
  | str t => beq_self_eq_true t
  | seq items => sameItems_self items
  | map entries => by
      rw [same, Bool.and_eq_true, List.all_eq_true]
      have hself : ∀ entry ∈ entries, ∃ other ∈ entries, sameEntry entry other = true :=
        fun entry hentry => ⟨entry, hentry, sameEntry_self entries entry hentry⟩
      refine ⟨allIn_iff.mpr hself, fun entry hentry => ?_⟩
      exact isIn_iff.mpr ⟨entry, hentry, sameEntry_self entries entry hentry⟩
  | tagged tag v => by rw [same, same_self v, Bool.and_true]; exact beq_self_eq_true tag

theorem sameItems_self : ∀ items : List Yaml, sameItems items items = true
  | [] => rfl
  | item :: rest => by rw [sameItems, same_self item, sameItems_self rest]; rfl

theorem sameEntry_self :
    ∀ (entries : List (Yaml × Yaml)), ∀ entry ∈ entries, sameEntry entry entry = true
  | (key, value) :: rest, entry, hmem => by
      rcases List.mem_cons.mp hmem with rfl | hrest
      · rw [sameEntry, same_self key, same_self value]
        rfl
      · exact sameEntry_self rest entry hrest

end

theorem beq_self (v : Yaml) : (v == v) = true :=
  same_self v

/-! ## Well-keyed values -/

/-- A mapping with distinct keys and well-keyed values, or any other value. -/
inductive WellKeyed : Yaml → Prop
  | map {entries : Entries}
    (distinct : entries.Pairwise fun earlier later => ¬(earlier.1 == later.1) = true)
    (values : ∀ entry ∈ entries, WellKeyed entry.2) : WellKeyed (.map entries)
  | other {v : Yaml} (h : ∀ entries, v ≠ .map entries) : WellKeyed v

theorem WellKeyed.distinct {entries : Entries} (h : WellKeyed (.map entries)) :
    entries.Pairwise fun earlier later => ¬(earlier.1 == later.1) = true := by
  cases h with
  | map distinct _ => exact distinct
  | other h => exact absurd rfl (h entries)

theorem WellKeyed.values {entries : Entries} (h : WellKeyed (.map entries)) :
    ∀ entry ∈ entries, WellKeyed entry.2 := by
  cases h with
  | map _ values => exact values
  | other h => exact absurd rfl (h entries)

/-! ## Values that are read -/

/-- Whatever a computation results in has the property. -/
def Yields {α : Type} (P : α → Prop) (x : Following α) : Prop :=
  ∀ left a left', x left = .ok (a, left') → P a

section Yields

variable {α β : Type} {P : α → Prop} {Q : β → Prop}

theorem yields_true (x : Following α) : Yields (fun _ => True) x :=
  fun _ _ _ _ => trivial

theorem yields_throw (e : ReadError) : Yields P (throw e : Following α) := by
  intro left a left' h
  cases h

theorem yields_pure {a : α} (h : P a) : Yields P (pure a : Following α) := by
  rintro left _ _ ⟨⟩
  exact h

theorem Yields.bind {x : Following α} {f : α → Following β} (hx : Yields P x)
    (hf : ∀ a, P a → Yields Q (f a)) : Yields Q (x >>= f) := by
  intro left b left' h
  obtain ⟨⟨a, s⟩, ha, hb⟩ := bind_eq_ok_iff.mp h
  exact hf a (hx left a s ha) s b left' hb

theorem Yields.mapM {f : α → Following β} {xs : List α}
    (h : ∀ x ∈ xs, Yields Q (f x)) :
    Yields (fun ys => ∀ y ∈ ys, Q y) (xs.mapM f) := by
  induction xs with
  | nil => exact yields_pure fun y hy => absurd hy List.not_mem_nil
  | cons x xs ih =>
      obtain ⟨hx, hrest⟩ := List.forall_mem_cons.mp h
      rw [List.mapM_cons]
      refine hx.bind fun y hy => (ih hrest).bind fun ys hys => ?_
      exact yields_pure (List.forall_mem_cons.mpr ⟨hy, hys⟩)

theorem yields_liftExcept {r : Except ReadError α} (h : ∀ a, r = .ok a → P a) :
    Yields P (valueOf.liftExcept r) := by
  intro left a left' hresult
  cases r with
  | error e => cases hresult
  | ok b =>
      obtain ⟨rfl, -⟩ := Prod.mk.inj (Except.ok.inj hresult)
      exact h b rfl

end Yields

theorem wellKeyed_withTag_seq (tag : Option Text) (items : List Yaml) :
    WellKeyed (withTag tag (.seq items)) := by
  unfold withTag
  split
  · exact .other fun _ => nofun
  · exact .other fun _ => nofun

theorem wellKeyed_withTag_map {tag : Option Text} {entries : Entries}
    (h : WellKeyed (.map entries)) : WellKeyed (withTag tag (.map entries)) := by
  unfold withTag
  split
  · exact .other fun _ => nofun
  · exact h

theorem ofPlain?_ne_map (t : Text) (entries : Entries) :
    ofPlain? t ≠ some (.map entries) := by
  unfold ofPlain?
  cases floatOf? t with
  | none => grind
  | some x => grind

theorem untaggedScalar_ne_map (plain : Bool) (t : Text) (entries : Entries) :
    untaggedScalar plain t ≠ .ok (.map entries) := by
  have hplain := ofPlain?_ne_map t entries
  unfold untaggedScalar
  grind

theorem kindScalar_ne_map (kind t : Text) (entries : Entries) :
    kindScalar kind t ≠ .ok (.map entries) := by
  unfold kindScalar
  rcases boolOf? t with _ | b
  all_goals rcases integerOf? t with _ | i
  all_goals rcases floatOf? t with _ | x
  all_goals grind

theorem wellKeyed_scalarValue {tag : Option Text} {plain : Bool} {t : Text} {v : Yaml}
    (h : scalarValue tag plain t = .ok v) : WellKeyed v := by
  refine .other ?_
  rintro entries rfl
  have huntagged := untaggedScalar_ne_map plain t entries
  unfold scalarValue at h
  split at h
  · cases hvalue : untaggedScalar plain t <;> rw [hvalue] at h <;> cases h
  · split at h
    · exact huntagged h
    · split at h
      · exact kindScalar_ne_map _ t entries h
      · cases h

theorem wellKeyed_distinctEntries {mapping entries result : Entries}
    (h : distinctEntries mapping entries = .ok result)
    (hmapping : WellKeyed (.map mapping))
    (hentries : ∀ entry ∈ entries, WellKeyed entry.2) :
    WellKeyed (.map result) := by
  induction entries generalizing mapping with
  | nil =>
      obtain rfl : mapping = result := Except.ok.inj h
      exact hmapping
  | cons entry rest ih =>
      obtain ⟨hentry, hrest⟩ := List.forall_mem_cons.mp hentries
      rw [distinctEntries] at h
      split at h
      next => cases h
      next hnew =>
        refine ih h (.map ?_ ?_) hrest
        · rw [List.pairwise_append]
          refine ⟨hmapping.distinct, List.pairwise_singleton _ _, ?_⟩
          intro earlier hearlier later hlater hsame
          obtain rfl := List.mem_singleton.mp hlater
          exact hnew (List.any_eq_true.mpr ⟨earlier, hearlier, hsame⟩)
        · intro e he
          rcases List.mem_append.mp he with he | he
          · exact hmapping.values e he
          · obtain rfl := List.mem_singleton.mp he
            exact hentry

theorem yields_wellKeyed_valueOf (d : Document) (depth : Nat) (node : Node) :
    Yields WellKeyed (valueOf d depth node) := by
  induction depth generalizing node with
  | zero =>
      rw [valueOf]
      refine (yields_true _).bind fun n _ => ?_
      rcases n with anchor | ⟨tag, plain, t⟩ | ⟨tag, items⟩ | ⟨tag, entries⟩
      · exact yields_throw _
      · exact yields_liftExcept fun _ => wellKeyed_scalarValue
      · exact yields_throw _
      · exact yields_throw _
  | succ depth ih =>
      rw [valueOf]
      refine (yields_true _).bind fun n _ => ?_
      rcases n with anchor | ⟨tag, plain, t⟩ | ⟨tag, items⟩ | ⟨tag, entries⟩
      · exact yields_throw _
      · exact yields_liftExcept fun _ => wellKeyed_scalarValue
      · refine (yields_true _).bind fun values _ => ?_
        exact yields_pure (wellKeyed_withTag_seq tag values)
      · have hentry : ∀ entry ∈ entries, Yields (fun e : Yaml × Yaml => WellKeyed e.2)
            (do return (← valueOf d depth entry.1, ← valueOf d depth entry.2)) := by
          intro entry _
          refine (yields_true _).bind fun key _ => ?_
          exact (ih entry.2).bind fun value hvalue => yields_pure hvalue
        refine (Yields.mapM hentry).bind fun values hvalues => ?_
        refine (yields_liftExcept fun result hresult => ?_).bind
          fun result hresult => yields_pure (wellKeyed_withTag_map hresult)
        exact wellKeyed_distinctEntries hresult (.map .nil nofun) hvalues

/-- What is read from a text is well-keyed. -/
theorem wellKeyed_of_parse {t : Text} {v : Yaml} (h : parse t = .ok v) :
    WellKeyed v := by
  obtain ⟨tokens, -, h⟩ := bind_eq_ok_iff.mp h
  obtain ⟨d, -, h⟩ := bind_eq_ok_iff.mp h
  obtain ⟨⟨value, left⟩, hvalue, h⟩ := bind_eq_ok_iff.mp h
  obtain rfl : value = v := Except.ok.inj h
  exact yields_wellKeyed_valueOf d maxDepth d.root _ value left hvalue

end Yaml

end DevSpecs
