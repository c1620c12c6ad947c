import DevSpecs.Proofs.Yaml.Layers
import DevSpecs.Proofs.Yaml.Sameness

/-!
# Overriding at every depth

Merging a mapping into another one is described key by key: the keys of the old
mapping stay in their places, those that only the new one has follow, and the value
of a key that both have is the new one, unless both values are mappings and are
merged in turn.  Along a path of keys this goes on as long as both mappings have
mappings there.  What is found beyond the last such place comes from one of the two
alone.
-/

namespace DevSpecs

namespace Yaml

open Entries (merge)

variable {old new : Entries} {key key' : Yaml}

/-! ## Looking up keys -/

namespace Entries

variable {entries : Entries}

theorem get?_congr (h : (key == key') = true) (entries : Entries) :
    entries.get? key = entries.get? key' := by
  have hasked : ∀ entry : Yaml × Yaml, (entry.1 == key) = (entry.1 == key') :=
    fun entry => BEq.congr_right h
  simp only [get?, hasked]

theorem hasKey_congr (h : (key == key') = true) (entries : Entries) :
    entries.hasKey key = entries.hasKey key' := by
  have hasked : ∀ entry : Yaml × Yaml, (entry.1 == key) = (entry.1 == key') :=
    fun entry => BEq.congr_right h
  simp only [hasKey, hasked]

theorem get?_eq_none_iff : entries.get? key = none ↔ entries.hasKey key = false := by
  rw [get?, Option.map_eq_none_iff, List.find?_eq_none, hasKey, List.any_eq_false]

theorem get?_append (entries more : Entries) :
    (entries ++ more).get? key = (entries.get? key).or (more.get? key) := by
  rw [get?, List.find?_append, Option.map_or]
  rfl

/-- Entries that are left out for their keys are not missed where the key that is
asked for would be kept. -/
theorem get?_filter (kept : Yaml → Bool) (entries : Entries)
    (h : ∀ other, (other == key) = true → kept other = true) :
    get? (entries.filter fun entry => kept entry.1) key = entries.get? key := by
  rw [get?, get?, List.find?_filter]
  congr 2
  funext entry
  by_cases hentry : (entry.1 == key) = true
  · simp [h entry.1 hentry]
  · simp [hentry]

theorem get?_map_values (f : Yaml × Yaml → Yaml) (entries : Entries) :
    get? (entries.map fun entry => (entry.1, f entry)) key =
      (entries.find? (·.1 == key)).map f := by
  rw [get?, List.find?_map, Option.map_map]
  rfl

theorem exists_mem_of_get? {value : Yaml} (h : entries.get? key = some value) :
    ∃ entry ∈ entries, entry.2 = value := by
  obtain ⟨entry, hfind, hvalue⟩ := Option.map_eq_some_iff.mp h
  exact ⟨entry, List.mem_of_find?_eq_some hfind, hvalue⟩

theorem hasKey_of_mem {entry : Yaml × Yaml} (h : entry ∈ entries) :
    entries.hasKey entry.1 = true :=
  List.any_eq_true.mpr ⟨entry, h, beq_self entry.1⟩

end Entries

theorem get?_apartFrom (h : ¬(key == key') = true) (entries : Entries) :
    (apartFrom key entries).get? key' = entries.get? key' := by
  refine Entries.get?_filter (fun other => !(key == other)) entries fun other hother => ?_
  rw [BEq.congr_right hother, Bool.eq_false_iff.mpr h]
  rfl

/-! ## One level -/

/-- No two keys of a mapping are the same. -/
def DistinctKeys (entries : Entries) : Prop :=
  entries.Pairwise fun earlier later => ¬(earlier.1 == later.1) = true

/-- What is made of an old value when there may be a new one. -/
def overlaid (value : Yaml) : Option Yaml → Yaml
  | none => value
  | some value' => overlay value' (some value)

theorem overlay_of_not_maps {value value' : Yaml}
    (h : ∀ entries entries', value = map entries → value' ≠ map entries') :
    overlay value' (some value) = value' := by
  cases value' with
  | map entries' =>
      cases value with
      | map entries => exact absurd rfl (h entries entries' rfl)
      | _ => rfl
  | _ => rfl

theorem overlayAll_valuesFor (hnew : DistinctKeys new) (key value : Yaml) :
    overlayAll (valuesFor key new) value = overlaid value (new.get? key) := by
  induction new with
  | nil => rfl
  | cons entry rest ih =>
      obtain ⟨hentry, hrest⟩ := List.pairwise_cons.mp hnew
      rw [valuesFor, List.filter_cons, Entries.get?_cons, BEq.comm]
      by_cases hkey : (entry.1 == key) = true
      · have hlater : rest.filter (fun later => key == later.1) = [] := by
          rw [List.filter_eq_nil_iff]
          intro later hlater
          rw [← BEq.congr_left hkey]
          exact hentry later hlater
        rw [if_pos hkey, if_pos hkey, hlater]
        rfl
      · rw [if_neg hkey, if_neg hkey]
        exact ih hrest

/-- The entries of the old mapping with values laid over them, and the entries for
new keys. -/
theorem merge_eq_append (hold : DistinctKeys old) (hnew : WellKeyed (map new)) :
    merge old new =
      (old.map fun entry => (entry.1, overlaid entry.2 (new.get? entry.1))) ++
        new.filter fun entry => !old.hasKey entry.1 := by
  rw [merge]
  induction old generalizing new with
  | nil =>
      rw [mergeAll_empty hnew, List.map_nil, List.nil_append]
      exact (List.filter_eq_self.mpr fun _ _ => rfl).symm
  | cons first rest ih =>
      obtain ⟨hfirst, hrest⟩ := List.pairwise_cons.mp hold
      have hapart : WellKeyed (map (apartFrom first.1 new)) :=
        .map (hnew.distinct.filter _) (forall_apartFrom hnew.values first.1)
      have hvalues : ∀ entry ∈ rest,
          (apartFrom first.1 new).get? entry.1 = new.get? entry.1 :=
        fun entry hentry => get?_apartFrom (hfirst entry hentry) new
      have hadded : (apartFrom first.1 new).filter (fun entry => !Entries.hasKey rest entry.1) =
          new.filter fun entry => !Entries.hasKey (first :: rest) entry.1 := by
        rw [apartFrom, List.filter_filter]
        congr 1
        funext entry
        rw [Entries.hasKey, Entries.hasKey, List.any_cons, Bool.not_or, Bool.and_comm]
      rw [mergeAll_cons_right, overlayAll_valuesFor hnew.distinct, ih hrest hapart, hadded,
        List.map_cons, List.cons_append]
      congr 2
      exact List.map_congr_left fun entry hentry => by rw [hvalues entry hentry]

theorem map_fst_merge (hold : DistinctKeys old) (hnew : WellKeyed (map new)) :
    (merge old new).map Prod.fst =
      old.map Prod.fst ++ (new.map Prod.fst).filter fun key => !old.hasKey key := by
  rw [merge_eq_append hold hnew, List.map_append, List.map_map, List.filter_map]
  rfl

theorem get?_merge (hold : DistinctKeys old) (hnew : WellKeyed (map new)) (key : Yaml) :
    (merge old new).get? key =
      match old.get? key with
      | none => new.get? key
      | some value => some (overlaid value (new.get? key)) := by
  have hkept : Entries.get?
      (old.map fun entry => (entry.1, overlaid entry.2 (new.get? entry.1))) key =
      (old.get? key).map fun value => overlaid value (new.get? key) := by
    have hfound : old.get? key = (old.find? (·.1 == key)).map Prod.snd := rfl
    rw [Entries.get?_map_values, hfound, Option.map_map]
    refine Option.map_congr fun entry hentry => ?_
    have hkey := List.find?_some hentry
    rw [Entries.get?_congr hkey]
    rfl
  rw [merge_eq_append hold hnew, Entries.get?_append, hkept]
  cases hvalue : old.get? key with
  | none =>
      refine Entries.get?_filter (fun other => !old.hasKey other) new fun other hother => ?_
      rw [Entries.hasKey_congr hother, Entries.get?_eq_none_iff.mp hvalue]
      rfl
  | some value => rfl

/-- Merging keeps keys distinct. -/
theorem distinctKeys_merge (hold : DistinctKeys old) (hnew : WellKeyed (map new)) :
    DistinctKeys (merge old new) := by
  rw [merge_eq_append hold hnew, DistinctKeys, List.pairwise_append, List.pairwise_map]
  refine ⟨hold, hnew.distinct.filter _, ?_⟩
  intro kept hkept added hadded hsame
  obtain ⟨entry, hentry, rfl⟩ := List.mem_map.mp hkept
  have hno : old.hasKey added.1 = false := by simpa using (List.mem_filter.mp hadded).2
  have hyes := Entries.hasKey_of_mem hentry
  rw [Entries.hasKey_congr hsame, hno] at hyes
  cases hyes

/-- Both mappings have mappings under a key. -/
def BothMaps (old new : Entries) (key : Yaml) : Prop :=
  ∃ old' new', old.get? key = some (map old') ∧ new.get? key = some (map new')

/-- The mapping `result` is `old` overridden by `new` key by key. -/
structure OverridesKeywise (old new result : Entries) : Prop where
  keys : result.map Prod.fst =
    old.map Prod.fst ++ (new.map Prod.fst).filter fun key => !old.hasKey key
  distinct : DistinctKeys result
  onlyOld : ∀ key, new.get? key = none → result.get? key = old.get? key
  onlyNew : ∀ key, old.get? key = none → result.get? key = new.get? key
  merged : ∀ key old' new', old.get? key = some (map old') →
    new.get? key = some (map new') → result.get? key = some (map (merge old' new'))
  replaced : ∀ key value value', old.get? key = some value →
    new.get? key = some value' → ¬BothMaps old new key → result.get? key = some value'

theorem overridesKeywise_merge (hold : DistinctKeys old) (hnew : WellKeyed (map new)) :
    OverridesKeywise old new (merge old new) where
  keys := map_fst_merge hold hnew
  distinct := distinctKeys_merge hold hnew
  onlyOld key hnone := by
    rw [get?_merge hold hnew, hnone]
    cases old.get? key <;> rfl
  onlyNew key hnone := by rw [get?_merge hold hnew, hnone]
  merged key old' new' hvalue hvalue' := by
    rw [get?_merge hold hnew, hvalue, hvalue']
    rfl
  replaced key value value' hvalue hvalue' hmaps := by
    have hkind : ∀ old' new', value = map old' → value' ≠ map new' := by
      rintro old' new' rfl rfl
      exact hmaps ⟨old', new', hvalue, hvalue'⟩
    rw [get?_merge hold hnew, hvalue, hvalue']
    exact congrArg some (overlay_of_not_maps hkind)

/-- Where not both have mappings, the value is that of the new mapping, or of the old
one if the new one has none. -/
theorem OverridesKeywise.get?_eq_or {result : Entries}
    (h : OverridesKeywise old new result) (hmaps : ¬BothMaps old new key) :
    result.get? key = (new.get? key).or (old.get? key) := by
  cases hvalue' : new.get? key with
  | none => exact h.onlyOld key hvalue'
  | some value' =>
      cases hvalue : old.get? key with
      | none => rw [h.onlyNew key hvalue, hvalue', Option.some_or]
      | some value => rw [h.replaced key value value' hvalue hvalue' hmaps, Option.some_or]

/-! ## Along a path -/

/-- What a value has at the end of a path of keys. -/
def valueAt : List Yaml → Yaml → Option Yaml
  | [], v => some v
  | key :: path, map entries => (Entries.get? entries key).bind (valueAt path)
  | _ :: _, _ => none

theorem valueAt_append (here rest : List Yaml) (v : Yaml) :
    valueAt (here ++ rest) v = (valueAt here v).bind (valueAt rest) := by
  induction here generalizing v with
  | nil => rfl
  | cons key here ih =>
      cases v with
      | map entries =>
          rw [List.cons_append, valueAt, valueAt, Option.bind_assoc]
          exact Option.bind_congr fun value _ => ih value
      | _ => rfl

theorem exists_map_of_valueAt {here : List Yaml} {v : Yaml} {entries : Entries}
    (h : valueAt here v = some (map entries)) : ∃ entries', v = map entries' := by
  cases here with
  | nil => exact ⟨entries, Option.some.inj h⟩
  | cons key here =>
      cases v with
      | map entries' => exact ⟨entries', rfl⟩
      | _ => cases h

theorem wellKeyed_of_get? {entries : Entries} {value : Yaml}
    (h : WellKeyed (map entries)) (hvalue : entries.get? key = some value) :
    WellKeyed value := by
  obtain ⟨entry, hentry, rfl⟩ := Entries.exists_mem_of_get? hvalue
  exact h.values entry hentry

theorem wellKeyed_of_valueAt {here : List Yaml} {v v' : Yaml} (hv : WellKeyed v)
    (h : valueAt here v = some v') : WellKeyed v' := by
  induction here generalizing v with
  | nil => exact Option.some.inj h ▸ hv
  | cons key here ih =>
      cases v with
      | map entries =>
          obtain ⟨value, hvalue, hrest⟩ := Option.bind_eq_some_iff.mp h
          exact ih (wellKeyed_of_get? hv hvalue) hrest
      | _ => cases h

/-- Both mappings have mappings at the end of a path. -/
structure BothMapsAt (old new : Entries) (here : List Yaml) (old' new' : Entries) :
    Prop where
  old : valueAt here (map old) = some (map old')
  new : valueAt here (map new) = some (map new')

variable {here : List Yaml} {old' new' : Entries}

theorem bothMapsAt_cons_iff :
    BothMapsAt old new (key :: here) old' new' ↔
      ∃ below below', old.get? key = some (map below) ∧
        new.get? key = some (map below') ∧ BothMapsAt below below' here old' new' := by
  constructor
  · rintro ⟨hold, hnew⟩
    obtain ⟨value, hvalue, hold⟩ := Option.bind_eq_some_iff.mp hold
    obtain ⟨value', hvalue', hnew⟩ := Option.bind_eq_some_iff.mp hnew
    obtain ⟨below, rfl⟩ := exists_map_of_valueAt hold
    obtain ⟨below', rfl⟩ := exists_map_of_valueAt hnew
    exact ⟨below, below', hvalue, hvalue', hold, hnew⟩
  · rintro ⟨below, below', hvalue, hvalue', hold, hnew⟩
    constructor
    · rw [valueAt, hvalue]
      exact hold
    · rw [valueAt, hvalue']
      exact hnew

/-- As far as both mappings have mappings, these are merged. -/
theorem BothMapsAt.valueAt_merge (h : BothMapsAt old new here old' new')
    (hold : WellKeyed (map old)) (hnew : WellKeyed (map new)) :
    valueAt here (map (merge old new)) = some (map (merge old' new')) := by
  induction here generalizing old new with
  | nil =>
      obtain ⟨⟨⟩, ⟨⟩⟩ := h
      rfl
  | cons key here ih =>
      obtain ⟨below, below', hvalue, hvalue', hbelow⟩ := bothMapsAt_cons_iff.mp h
      have hmerged := (overridesKeywise_merge hold.distinct hnew).merged
      rw [valueAt, hmerged key below below' hvalue hvalue']
      exact ih hbelow (wellKeyed_of_get? hold hvalue) (wellKeyed_of_get? hnew hvalue')

/-- A path leads to a last place where both mappings have mappings. -/
theorem exists_last_bothMapsAt (path : List Yaml) (old new : Entries) :
    ∃ here rest old' new', path = here ++ rest ∧ BothMapsAt old new here old' new' ∧
      ∀ key ∈ rest.head?, ¬BothMaps old' new' key := by
  induction path generalizing old new with
  | nil => exact ⟨[], [], old, new, rfl, ⟨rfl, rfl⟩, nofun⟩
  | cons key path ih =>
      by_cases hmaps : BothMaps old new key
      · obtain ⟨below, below', hvalue, hvalue'⟩ := hmaps
        obtain ⟨here, rest, old', new', rfl, hbelow, hlast⟩ := ih below below'
        exact ⟨key :: here, rest, old', new', rfl,
          bothMapsAt_cons_iff.mpr ⟨below, below', hvalue, hvalue', hbelow⟩, hlast⟩
      · refine ⟨[], key :: path, old, new, rfl, ⟨rfl, rfl⟩, fun key' hkey => ?_⟩
        obtain rfl : key = key' := Option.some.inj hkey
        exact hmaps

/-- Merging overrides key by key wherever both mappings have mappings, and along every
path what is found beyond the last such place is what the new mapping has there, or the
old one if the new one has nothing under the next key. -/
theorem merge_overrides_at_every_depth (hold : WellKeyed (map old))
    (hnew : WellKeyed (map new)) :
    OverridesKeywise old new (merge old new) ∧
      (∀ here old' new', BothMapsAt old new here old' new' →
        valueAt here (map (merge old new)) = some (map (merge old' new')) ∧
          OverridesKeywise old' new' (merge old' new')) ∧
      ∀ path, ∃ here rest old' new', path = here ++ rest ∧
        BothMapsAt old new here old' new' ∧
        ∀ key beyond, rest = key :: beyond →
          ¬BothMaps old' new' key ∧
            valueAt path (map (merge old new)) =
              ((new'.get? key).or (old'.get? key)).bind (valueAt beyond) := by
  have hplace : ∀ here old' new', BothMapsAt old new here old' new' →
      valueAt here (map (merge old new)) = some (map (merge old' new')) ∧
        OverridesKeywise old' new' (merge old' new') := by
    intro here old' new' h
    have hold' := wellKeyed_of_valueAt hold h.old
    have hnew' := wellKeyed_of_valueAt hnew h.new
    exact ⟨h.valueAt_merge hold hnew, overridesKeywise_merge hold'.distinct hnew'⟩
  refine ⟨overridesKeywise_merge hold.distinct hnew, hplace, fun path => ?_⟩
  obtain ⟨here, rest, old', new', rfl, hboth, hlast⟩ := exists_last_bothMapsAt path old new
  refine ⟨here, rest, old', new', rfl, hboth, ?_⟩
  rintro key beyond rfl
  have hmaps : ¬BothMaps old' new' key := hlast key rfl
  obtain ⟨hvalue, hoverrides⟩ := hplace here old' new' hboth
  rw [valueAt_append, hvalue, ← hoverrides.get?_eq_or hmaps]
  exact ⟨hmaps, rfl⟩

/-- A mapping under a tag is replaced like any other value, so what it had below is
gone, while the mapping around it is merged under a key that is no text. -/
theorem merge_overrides_at_every_depth_with_tag :
    let old : Entries :=
      [(int 1, map [(str "x", int 1), (str "y", tagged "t" (map [(str "z", int 2)]))]),
        (null, int 0)]
    let new : Entries :=
      [(str "n", null), (int 1, map [(str "y", map [(str "w", int 3)])])]
    WellKeyed (map old) ∧ WellKeyed (map new) ∧
      OverridesKeywise old new (merge old new) ∧
      merge old new =
        [(int 1, map [(str "x", int 1), (str "y", map [(str "w", int 3)])]),
          (null, int 0), (str "n", null)] ∧
      valueAt [int 1, str "y", str "z"] (map (merge old new)) = none := by
  intro old new
  have hplain : ∀ v : Yaml, v.asEntries? = none → WellKeyed v := by
    rintro v hv
    refine .other fun entries => ?_
    rintro rfl
    cases hv
  have hbelow : WellKeyed (map [(str "y", map [(str "w", int 3)])]) := by
    refine .map (List.pairwise_singleton _ _) (List.forall_mem_singleton.mpr ?_)
    refine .map (List.pairwise_singleton _ _) (List.forall_mem_singleton.mpr ?_)
    exact hplain _ rfl
  have hinner : WellKeyed
      (map [(str "x", int 1), (str "y", tagged "t" (map [(str "z", int 2)]))]) := by
    refine .map (by decide) (List.forall_mem_cons.mpr ⟨hplain _ rfl, ?_⟩)
    exact List.forall_mem_singleton.mpr (.other fun _ => nofun)
  have hold : WellKeyed (map old) := by
    refine .map (by decide) (List.forall_mem_cons.mpr ⟨hinner, ?_⟩)
    exact List.forall_mem_singleton.mpr (hplain _ rfl)
  have hnew : WellKeyed (map new) := by
    refine .map (by decide) (List.forall_mem_cons.mpr ⟨hplain _ rfl, ?_⟩)
    exact List.forall_mem_singleton.mpr hbelow
  exact ⟨hold, hnew, (merge_overrides_at_every_depth hold hnew).1, rfl, rfl⟩

end Yaml

end DevSpecs
