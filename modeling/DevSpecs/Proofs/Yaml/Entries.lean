import DevSpecs.Yaml.Value

/-!
# Entries under names

Most keys of the mappings that are read and written here are names, that is,
untagged texts.  Such a key is the same as itself only, so putting a value under
a name is seen under this name and leaves all other names as they are.
-/

namespace DevSpecs

namespace Yaml

variable {name other : Text}

theorem beq_str_iff {key : Yaml} : (key == .str name) = true ↔ key = .str name := by
  change same key (.str name) = true ↔ _
  cases key
  case str t => simp [same]
  all_goals simp [same]

@[simp] theorem asEntries?_map (entries : Entries) :
    (map entries).asEntries? = some entries :=
  rfl

@[simp] theorem asItems?_seq (items : List Yaml) :
    (seq items).asItems? = some items :=
  rfl

@[simp] theorem asText?_str (t : Text) : (str t).asText? = some t :=
  rfl

namespace Entries

variable {entries : Entries} {key value : Yaml}

theorem get?_nil : get? [] key = none :=
  rfl

theorem get?_cons (entry : Yaml × Yaml) (rest : Entries) :
    get? (entry :: rest) key =
      if entry.1 == key then some entry.2 else get? rest key := by
  rw [get?, List.find?_cons]
  cases entry.1 == key
  · rfl
  · rfl

theorem get?_str_cons_self (rest : Entries) :
    get? ((.str name, value) :: rest) (.str name) = some value := by
  rw [get?_cons, if_pos (beq_str_iff.mpr rfl)]

@[simp] theorem get?_put_self (entries : Entries) (name : Text) (value : Yaml) :
    (entries.put (.str name) value).get? (.str name) = some value := by
  induction entries with
  | nil => exact get?_str_cons_self []
  | cons entry rest ih =>
      rw [put]
      by_cases hentry : (entry.1 == .str name) = true
      · rw [if_pos hentry, get?_cons, if_pos hentry]
      · rw [if_neg hentry, get?_cons, if_neg hentry, ih]

theorem get?_put_of_ne (entries : Entries) (hne : name ≠ other) (value : Yaml) :
    (entries.put (.str name) value).get? (.str other) =
      entries.get? (.str other) := by
  have hdiffer : ∀ {key : Yaml}, (key == .str name) = true →
      ¬(key == .str other) = true := by
    intro key hname hother
    rw [beq_str_iff] at hname hother
    exact hne (Yaml.str.inj (hname.symm.trans hother))
  induction entries with
  | nil =>
      rw [put, get?_cons, if_neg (hdiffer (beq_str_iff.mpr rfl))]
  | cons entry rest ih =>
      rw [put]
      by_cases hentry : (entry.1 == .str name) = true
      · rw [if_pos hentry, get?_cons, get?_cons, if_neg (hdiffer hentry),
          if_neg (hdiffer hentry)]
      · rw [if_neg hentry, get?_cons, get?_cons, ih]

/-! ## Keys in their places -/

theorem hasKey_str_iff :
    entries.hasKey (.str name) = true ↔ .str name ∈ entries.map Prod.fst := by
  rw [hasKey, List.any_eq_true, List.mem_map]
  constructor
  · rintro ⟨entry, hmem, hentry⟩
    exact ⟨entry, hmem, beq_str_iff.mp hentry⟩
  · rintro ⟨entry, hmem, hentry⟩
    exact ⟨entry, hmem, beq_str_iff.mpr hentry⟩

theorem hasKey_of_get? (h : entries.get? (.str name) = some value) :
    entries.hasKey (.str name) = true := by
  obtain ⟨entry, hfind, -⟩ := Option.map_eq_some_iff.mp h
  have hentry := List.find?_some hfind
  exact List.any_eq_true.mpr ⟨entry, List.mem_of_find?_eq_some hfind, hentry⟩

theorem map_fst_put (entries : Entries) (name : Text) (value : Yaml) :
    (entries.put (.str name) value).map Prod.fst =
      entries.map Prod.fst ++
        if entries.hasKey (.str name) then [] else [.str name] := by
  induction entries with
  | nil => rfl
  | cons entry rest ih =>
      rw [put, hasKey, List.any_cons]
      by_cases hentry : (entry.1 == .str name) = true
      · rw [if_pos hentry, hentry, Bool.true_or, if_pos rfl, List.append_nil]
        rfl
      · rw [if_neg hentry, Bool.eq_false_iff.mpr hentry, Bool.false_or,
          List.map_cons, List.map_cons, ih, List.cons_append, hasKey]

theorem hasKey_put (name : Text) (value : Yaml)
    (h : entries.hasKey (.str other) = true) :
    (entries.put (.str name) value).hasKey (.str other) = true := by
  rw [hasKey_str_iff] at h ⊢
  rw [map_fst_put]
  exact List.mem_append_left _ h

theorem getElem?_put_of_ne {i : Nat} {entry : Yaml × Yaml}
    (hentry : entries[i]? = some entry) (hne : entry.1 ≠ .str name)
    (value : Yaml) :
    (entries.put (.str name) value)[i]? = some entry := by
  induction entries generalizing i with
  | nil => simp at hentry
  | cons first rest ih =>
      rw [put]
      cases i with
      | zero =>
          obtain rfl : first = entry := Option.some.inj hentry
          rw [if_neg (hne ∘ beq_str_iff.mp)]
          rfl
      | succ i =>
          split
          · exact hentry
          · exact ih hentry

/-! ## Putting values under names again -/

theorem put_of_get? (h : entries.get? (.str name) = some value) :
    entries.put (.str name) value = entries := by
  induction entries with
  | nil => cases h
  | cons entry rest ih =>
      rw [get?_cons] at h
      rw [put]
      by_cases hentry : (entry.1 == .str name) = true
      · rw [if_pos hentry] at h ⊢
        rw [← Option.some.inj h]
      · rw [if_neg hentry] at h ⊢
        rw [ih h]

theorem put_put_self (entries : Entries) (name : Text) (value value' : Yaml) :
    (entries.put (.str name) value).put (.str name) value' =
      entries.put (.str name) value' := by
  induction entries with
  | nil => exact if_pos (beq_str_iff.mpr rfl)
  | cons entry rest ih =>
      rw [put, put]
      by_cases hentry : (entry.1 == .str name) = true
      · rw [if_pos hentry, if_pos hentry, put, if_pos hentry]
      · rw [if_neg hentry, if_neg hentry, put, if_neg hentry, ih]

/-- A name that is there keeps its place, whatever is put under another name
before or after. -/
theorem put_comm (hname : entries.hasKey (.str name) = true) (hne : name ≠ other)
    (value value' : Yaml) :
    (entries.put (.str name) value).put (.str other) value' =
      (entries.put (.str other) value').put (.str name) value := by
  induction entries with
  | nil => cases hname
  | cons entry rest ih =>
      rw [put, put]
      by_cases hentry : (entry.1 == .str name) = true
      · have hother : ¬(entry.1 == .str other) = true := by
          rw [beq_str_iff, beq_str_iff.mp hentry, str.injEq]
          exact hne
        rw [if_pos hentry, if_neg hother, put, if_neg hother, put, if_pos hentry]
      · by_cases hother : (entry.1 == .str other) = true
        · rw [if_neg hentry, if_pos hother, put, if_pos hother, put,
            if_neg hentry]
        · rw [hasKey, List.any_cons, Bool.eq_false_iff.mpr hentry,
            Bool.false_or] at hname
          rw [if_neg hentry, if_neg hother, put, if_neg hother, put,
            if_neg hentry, ih hname]

theorem hasKey_put_self (entries : Entries) (name : Text) (value : Yaml) :
    (entries.put (.str name) value).hasKey (.str name) = true :=
  hasKey_of_get? (get?_put_self entries name value)

theorem put_put_put (hne : name ≠ other) (entries : Entries)
    (value value' value'' : Yaml) :
    ((entries.put (.str name) value).put (.str other) value').put (.str name) value'' =
      (entries.put (.str name) value'').put (.str other) value' := by
  rw [← put_comm (hasKey_put_self entries name value) hne, put_put_self]

/-! ## Changes under some names -/

/-- Those of the names that a mapping lacks. -/
def lacking (entries : Entries) (names : List Text) : List Text :=
  names.filter fun name => !entries.hasKey (.str name)

/-- The mapping `new` is `old` with other values under the names `changed`; of the
names `added`, those that it lacks stand behind its own keys. -/
structure ChangesOnly (changed added : List Text) (old new : Entries) : Prop where
  keys : new.map Prod.fst =
    old.map Prod.fst ++ (old.lacking added).map .str
  others : ∀ (i : Nat) (entry : Yaml × Yaml), old[i]? = some entry →
    entry.1 ∉ changed.map .str → new[i]? = some entry

section ChangesOnly

variable {changed added changed' added' : List Text} {old mid new : Entries}

theorem changesOnly_put (entries : Entries) (name : Text) (value : Yaml) :
    ChangesOnly [name] [name] entries (entries.put (.str name) value) where
  keys := by
    rw [map_fst_put, lacking, List.filter_cons, List.filter_nil]
    cases entries.hasKey (.str name)
    · rfl
    · rfl
  others i entry hentry hother := by
    refine getElem?_put_of_ne hentry ?_ value
    intro heq
    exact hother (List.mem_singleton.mpr heq)

theorem ChangesOnly.hasKey_of_not_mem (h : ChangesOnly changed added old new)
    (hname : name ∉ added) :
    new.hasKey (.str name) = old.hasKey (.str name) := by
  rw [Bool.eq_iff_iff, hasKey_str_iff, hasKey_str_iff, h.keys, List.mem_append,
    or_iff_left_iff_imp]
  intro hmem
  obtain ⟨other, hother, heq⟩ := List.mem_map.mp hmem
  obtain rfl : other = name := str.inj heq
  exact absurd (List.mem_filter.mp hother).1 hname

theorem ChangesOnly.trans (h : ChangesOnly changed added old mid)
    (h' : ChangesOnly changed' added' mid new)
    (hdisjoint : ∀ name ∈ added', name ∉ added) :
    ChangesOnly (changed ++ changed') (added ++ added') old new where
  keys := by
    have hlacks : mid.lacking added' = old.lacking added' := by
      apply List.filter_congr
      intro name hname
      rw [h.hasKey_of_not_mem (hdisjoint name hname)]
    rw [h'.keys, h.keys, hlacks, lacking, lacking, lacking, List.filter_append,
      List.map_append, List.append_assoc]
  others i entry hentry hother := by
    rw [List.map_append, List.mem_append, not_or] at hother
    exact h'.others i entry (h.others i entry hentry hother.1) hother.2

end ChangesOnly

end Entries

end Yaml

end DevSpecs
