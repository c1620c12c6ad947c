import DevSpecs.Proofs.Yaml.Keys

/-!
# Sameness is an equivalence

Values are the same in either order, and values that are both the same as a third
one are the same.  So it makes no difference to a mapping under which of several
same keys it is asked.
-/

namespace DevSpecs

namespace Binary64

variable {x y z : Binary64}

/-- Either of the two zeros. -/
def IsZero : Binary64 → Prop
  | finite _ 0 _ => True
  | _ => False

theorem same_iff : x.same y = true ↔ x = y ∨ x.IsZero ∧ y.IsZero := by
  unfold same
  split
  next => exact iff_of_true rfl (.inr ⟨trivial, trivial⟩)
  next hzeros =>
    rw [decide_eq_true_iff, or_iff_left]
    rintro ⟨hx, hy⟩
    unfold IsZero at hx hy
    split at hx <;> split at hy
    · exact hzeros _ _ _ _ rfl rfl
    all_goals contradiction

theorem same_symm (h : x.same y = true) : y.same x = true := by
  rw [same_iff] at h ⊢
  exact h.imp Eq.symm And.symm

theorem same_trans (h : x.same y = true) (h' : y.same z = true) :
    x.same z = true := by
  rw [same_iff] at h h' ⊢
  rcases h with rfl | ⟨hx, _⟩
  · exact h'
  · rcases h' with rfl | ⟨_, hz⟩
    · exact .inr ⟨hx, ‹_›⟩
    · exact .inr ⟨hx, hz⟩

end Binary64

namespace Yaml

/-- What holds of a value if it holds of the values right below it holds of all
values. -/
theorem induction_below {P : Yaml → Prop} (null : P .null) (bool : ∀ b, P (.bool b))
    (int : ∀ i, P (.int i)) (float : ∀ x, P (.float x)) (str : ∀ t, P (.str t))
    (seq : ∀ items, (∀ item ∈ items, P item) → P (.seq items))
    (map : ∀ entries, (∀ entry ∈ entries, P entry.1 ∧ P entry.2) → P (.map entries))
    (tagged : ∀ tag v, P v → P (.tagged tag v)) (v : Yaml) : P v := by
  cases v with
  | null => exact null
  | bool b => exact bool b
  | int i => exact int i
  | float x => exact float x
  | str t => exact str t
  | seq items =>
      refine seq items fun item hitem => ?_
      have hsize := List.sizeOf_lt_of_mem hitem
      exact induction_below null bool int float str seq map tagged item
  | map entries =>
      refine map entries fun entry hentry => ?_
      have hsize := List.sizeOf_lt_of_mem hentry
      have hparts : sizeOf entry = 1 + sizeOf entry.1 + sizeOf entry.2 :=
        Prod.mk.sizeOf_spec entry.1 entry.2
      constructor
      · exact induction_below null bool int float str seq map tagged entry.1
      · exact induction_below null bool int float str seq map tagged entry.2
  | tagged tag v =>
      exact tagged tag v
        (induction_below null bool int float str seq map tagged v)
termination_by sizeOf v

/-! ## What is the same as a given value -/

variable {u v w : Yaml}

theorem same_null_iff : same null w = true ↔ w = null := by
  cases w <;> simp [same]

theorem same_bool_iff {b : Bool} : same (bool b) w = true ↔ bool b = w := by
  cases w <;> simp [same]

theorem same_int_iff {i : Int} : same (int i) w = true ↔ int i = w := by
  cases w <;> simp [same]

theorem same_float_iff {x : Binary64} :
    same (float x) w = true ↔ ∃ y, w = float y ∧ x.same y = true := by
  cases w <;> simp [same]

theorem same_str_iff {t : Text} : same (str t) w = true ↔ str t = w := by
  cases w <;> simp [same]

theorem same_seq_iff {items : List Yaml} :
    same (seq items) w = true ↔
      ∃ others, w = seq others ∧ sameItems items others = true := by
  cases w <;> simp [same]

theorem sameItems_cons_iff {item : Yaml} {rest others : List Yaml} :
    sameItems (item :: rest) others = true ↔
      ∃ other others', others = other :: others' ∧
        same item other = true ∧ sameItems rest others' = true := by
  cases others <;> simp [sameItems]

theorem sameEntry_iff {entry other : Yaml × Yaml} :
    sameEntry entry other = true ↔
      same entry.1 other.1 = true ∧ same entry.2 other.2 = true := by
  rcases entry with ⟨key, value⟩
  exact Bool.and_eq_true_iff

theorem same_map_iff {entries : Entries} :
    same (map entries) w = true ↔
      ∃ others, w = map others ∧
        (∀ entry ∈ entries, ∃ other ∈ others, sameEntry entry other = true) ∧
        ∀ other ∈ others, ∃ entry ∈ entries, sameEntry entry other = true := by
  cases w <;> simp [same, allIn_iff, isIn_iff]

theorem same_tagged_iff {tag : Text} :
    same (tagged tag v) w = true ↔ ∃ v', w = tagged tag v' ∧ same v v' = true := by
  cases w with
  | tagged tag' v' =>
      rw [same, Bool.and_eq_true, beq_iff_eq]
      constructor
      · rintro ⟨rfl, h⟩
        exact ⟨v', rfl, h⟩
      · rintro ⟨_, ⟨rfl, rfl⟩, h⟩
        exact ⟨rfl, h⟩
  | _ => simp [same]

/-! ## Equivalence -/

theorem sameItems_symm {items others : List Yaml}
    (hitems : ∀ item ∈ items, ∀ {w}, same item w = true → same w item = true)
    (h : sameItems items others = true) : sameItems others items = true := by
  induction items generalizing others with
  | nil => cases others <;> simp_all [sameItems]
  | cons item rest ih =>
      obtain ⟨hitem, hrest⟩ := List.forall_mem_cons.mp hitems
      obtain ⟨other, others, rfl, hfirst, hlater⟩ := sameItems_cons_iff.mp h
      exact sameItems_cons_iff.mpr ⟨item, rest, rfl, hitem hfirst, ih hrest hlater⟩

theorem same_symm (h : same v w = true) : same w v = true := by
  induction v using induction_below generalizing w with
  | null => obtain rfl := same_null_iff.mp h; exact h
  | bool b => obtain rfl := same_bool_iff.mp h; exact h
  | int i => obtain rfl := same_int_iff.mp h; exact h
  | float x =>
      obtain ⟨y, rfl, h⟩ := same_float_iff.mp h
      exact Binary64.same_symm h
  | str t => obtain rfl := same_str_iff.mp h; exact h
  | seq items ih =>
      obtain ⟨others, rfl, h⟩ := same_seq_iff.mp h
      exact same_seq_iff.mpr ⟨items, rfl, sameItems_symm ih h⟩
  | map entries ih =>
      obtain ⟨others, rfl, hright, hleft⟩ := same_map_iff.mp h
      have hentry : ∀ entry ∈ entries, ∀ other,
          sameEntry entry other = true → sameEntry other entry = true := by
        intro entry hmem other hsame
        obtain ⟨hkey, hvalue⟩ := sameEntry_iff.mp hsame
        exact sameEntry_iff.mpr ⟨(ih entry hmem).1 hkey, (ih entry hmem).2 hvalue⟩
      refine same_map_iff.mpr ⟨entries, rfl, ?_, ?_⟩
      · intro other hother
        obtain ⟨entry, hmem, hsame⟩ := hleft other hother
        exact ⟨entry, hmem, hentry entry hmem other hsame⟩
      · intro entry hmem
        obtain ⟨other, hother, hsame⟩ := hright entry hmem
        exact ⟨other, hother, hentry entry hmem other hsame⟩
  | tagged tag v ih =>
      obtain ⟨v', rfl, hvalue⟩ := same_tagged_iff.mp h
      exact same_tagged_iff.mpr ⟨v, rfl, ih hvalue⟩

theorem sameItems_trans {items items' items'' : List Yaml}
    (hitems : ∀ item ∈ items, ∀ {v w},
      same item v = true → same v w = true → same item w = true)
    (h : sameItems items items' = true) (h' : sameItems items' items'' = true) :
    sameItems items items'' = true := by
  induction items generalizing items' items'' with
  | nil => cases items' <;> simp_all [sameItems]
  | cons item rest ih =>
      obtain ⟨hitem, hrest⟩ := List.forall_mem_cons.mp hitems
      obtain ⟨item', rest', rfl, hfirst, hlater⟩ := sameItems_cons_iff.mp h
      obtain ⟨item'', rest'', rfl, hfirst', hlater'⟩ := sameItems_cons_iff.mp h'
      exact sameItems_cons_iff.mpr
        ⟨item'', rest'', rfl, hitem hfirst hfirst', ih hrest hlater hlater'⟩

theorem same_trans (h : same u v = true) (h' : same v w = true) :
    same u w = true := by
  induction u using induction_below generalizing v w with
  | null => obtain rfl := same_null_iff.mp h; exact h'
  | bool b => obtain rfl := same_bool_iff.mp h; exact h'
  | int i => obtain rfl := same_int_iff.mp h; exact h'
  | float x =>
      obtain ⟨y, rfl, h⟩ := same_float_iff.mp h
      obtain ⟨z, rfl, h'⟩ := same_float_iff.mp h'
      exact Binary64.same_trans h h'
  | str t => obtain rfl := same_str_iff.mp h; exact h'
  | seq items ih =>
      obtain ⟨items', rfl, h⟩ := same_seq_iff.mp h
      obtain ⟨items'', rfl, h'⟩ := same_seq_iff.mp h'
      exact same_seq_iff.mpr ⟨items'', rfl, sameItems_trans ih h h'⟩
  | map entries ih =>
      obtain ⟨entries', rfl, hright, hleft⟩ := same_map_iff.mp h
      obtain ⟨entries'', rfl, hright', hleft'⟩ := same_map_iff.mp h'
      have hentry : ∀ entry ∈ entries, ∀ {entry' entry''},
          sameEntry entry entry' = true → sameEntry entry' entry'' = true →
            sameEntry entry entry'' = true := by
        intro entry hmem entry' entry'' hsame hsame'
        obtain ⟨hkey, hvalue⟩ := sameEntry_iff.mp hsame
        obtain ⟨hkey', hvalue'⟩ := sameEntry_iff.mp hsame'
        exact sameEntry_iff.mpr
          ⟨(ih entry hmem).1 hkey hkey', (ih entry hmem).2 hvalue hvalue'⟩
      refine same_map_iff.mpr ⟨entries'', rfl, ?_, ?_⟩
      · intro entry hmem
        obtain ⟨entry', hmem', hsame⟩ := hright entry hmem
        obtain ⟨entry'', hmem'', hsame'⟩ := hright' entry' hmem'
        exact ⟨entry'', hmem'', hentry entry hmem hsame hsame'⟩
      · intro entry'' hmem''
        obtain ⟨entry', hmem', hsame'⟩ := hleft' entry'' hmem''
        obtain ⟨entry, hmem, hsame⟩ := hleft entry' hmem'
        exact ⟨entry, hmem, hentry entry hmem hsame hsame'⟩
  | tagged tag u ih =>
      obtain ⟨v', rfl, hvalue⟩ := same_tagged_iff.mp h
      obtain ⟨w', rfl, hvalue'⟩ := same_tagged_iff.mp h'
      exact same_tagged_iff.mpr ⟨w', rfl, ih hvalue hvalue'⟩

instance : EquivBEq Yaml where
  rfl := beq_self _
  symm := same_symm
  trans := same_trans

end Yaml

end DevSpecs
