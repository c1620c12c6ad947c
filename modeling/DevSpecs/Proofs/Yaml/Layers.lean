import DevSpecs.Proofs.Yaml.Entries
import DevSpecs.Proofs.Yaml.Keys
import DevSpecs.Yaml.Merge

/-!
# Layers

Mappings that are merged one after another into a mapping are its layers.  A later
layer may take away what an earlier one has put there, and merging them all once
more puts it there again, only to take it away again.  In the end nothing has
changed: a stack of layers is absorbed by what it has been merged into.

The reason is seen key by key.  The values of the layers under a key are laid over
its old value in turn.  If one of them is no mapping, then all that came before it
is without influence; if all are mappings, then they are the layers of a mapping
themselves, and one level less deep.
-/

namespace DevSpecs

namespace Yaml

open Entries (merge put)

variable {new : Entries}

/-! ## Merging entry by entry -/

theorem mergeAll_cons (entry : Yaml × Yaml) (rest old : Entries) :
    mergeAll (entry :: rest) old = mergeAll rest (mergeEntry entry old) :=
  rfl

theorem mergeAll_append (new new' old : Entries) :
    mergeAll (new ++ new') old = mergeAll new' (mergeAll new old) := by
  induction new generalizing old with
  | nil => rfl
  | cons entry rest ih => exact ih (mergeEntry entry old)

/-- Layers make one long list of entries. -/
theorem foldl_merge_eq_mergeAll (layers : List Entries) (start : Entries) :
    layers.foldl merge start = mergeAll layers.flatten start := by
  induction layers generalizing start with
  | nil => rfl
  | cons layer layers ih =>
      rw [List.foldl_cons, ih, List.flatten_cons, mergeAll_append, merge]

theorem overlay_none (new : Yaml) : overlay new none = new := by
  cases new <;> rfl

theorem overlay_of_ne_map {new : Yaml} (h : ∀ entries, new ≠ map entries)
    (old : Option Yaml) : overlay new old = new := by
  cases new with
  | map entries => exact absurd rfl (h entries)
  | _ => rfl

theorem mergeEntry_nil (entry : Yaml × Yaml) : mergeEntry entry [] = [entry] := by
  rw [mergeEntry, Entries.get?_nil, overlay_none]
  rfl

theorem mergeEntry_cons (entry first : Yaml × Yaml) (rest : Entries) :
    mergeEntry entry (first :: rest) =
      if first.1 == entry.1 then
        (first.1, overlay entry.2 (some first.2)) :: rest
      else first :: mergeEntry entry rest := by
  rw [mergeEntry, mergeEntry, Entries.get?_cons, put]
  split
  · rfl
  · rfl

/-! ## Key by key -/

/-- The values that entries have for a key, in their order. -/
def valuesFor (key : Yaml) (entries : Entries) : List Yaml :=
  (entries.filter fun entry => key == entry.1).map Prod.snd

/-- The entries for other keys. -/
def apartFrom (key : Yaml) (entries : Entries) : Entries :=
  entries.filter fun entry => !(key == entry.1)

/-- Lay values over a value, one after another. -/
def overlayAll (new : List Yaml) (old : Yaml) : Yaml :=
  new.foldl (fun old value => overlay value (some old)) old

/-- The first entry of a mapping takes the values for its key, and all others go to
the rest of the mapping. -/
theorem mergeAll_cons_right (new : Entries) (first : Yaml × Yaml) (rest : Entries) :
    mergeAll new (first :: rest) =
      (first.1, overlayAll (valuesFor first.1 new) first.2) ::
        mergeAll (apartFrom first.1 new) rest := by
  induction new generalizing first rest with
  | nil => rfl
  | cons entry new ih =>
      rw [mergeAll_cons, mergeEntry_cons, valuesFor, apartFrom, List.filter_cons,
        List.filter_cons]
      by_cases hkey : (first.1 == entry.1) = true
      · rw [if_pos hkey, ih, if_pos hkey, hkey]
        rfl
      · rw [if_neg hkey, ih, if_neg hkey, Bool.eq_false_iff.mpr hkey]
        rfl

theorem mergeAll_nil_right (entry : Yaml × Yaml) (new : Entries) :
    mergeAll (entry :: new) [] =
      (entry.1, overlayAll (valuesFor entry.1 new) entry.2) ::
        mergeAll (apartFrom entry.1 new) [] := by
  rw [mergeAll_cons, mergeEntry_nil, mergeAll_cons_right]

/-- Merging a mapping into an empty one gives that mapping. -/
theorem mergeAll_empty (h : WellKeyed (.map new)) : mergeAll new [] = new := by
  have hdistinct := h.distinct
  clear h
  induction new with
  | nil => rfl
  | cons entry rest ih =>
      obtain ⟨hentry, hrest⟩ := List.pairwise_cons.mp hdistinct
      have hvalues : valuesFor entry.1 rest = [] := by
        rw [valuesFor, List.map_eq_nil_iff, List.filter_eq_nil_iff]
        exact hentry
      have hapart : apartFrom entry.1 rest = rest := by
        rw [apartFrom, List.filter_eq_self]
        intro later hlater
        rw [Bool.eq_false_iff.mpr (hentry later hlater)]
        rfl
      rw [mergeAll_nil_right, hvalues, hapart, ih hrest]
      rfl

/-! ## Values that are laid over their own result -/

theorem overlayAll_cons (value : Yaml) (values : List Yaml) (old : Yaml) :
    overlayAll (value :: values) old = overlayAll values (overlay value (some old)) :=
  rfl

theorem overlayAll_append (values values' : List Yaml) (old : Yaml) :
    overlayAll (values ++ values') old = overlayAll values' (overlayAll values old) :=
  List.foldl_append

theorem overlayAll_map_map (maps : List Entries) (old : Entries) :
    overlayAll (maps.map map) (map old) = map (mergeAll maps.flatten old) := by
  induction maps generalizing old with
  | nil => rfl
  | cons first maps ih =>
      rw [List.map_cons, overlayAll_cons, overlay, ih, List.flatten_cons,
        mergeAll_append]

/-- A mapping is laid over any value as it is merged into some mapping. -/
theorem exists_overlay_eq_mergeAll (old : Yaml) :
    ∃ base, ∀ new, WellKeyed (.map new) →
      overlay (map new) (some old) = map (mergeAll new base) := by
  by_cases hold : ∃ entries, old = map entries
  · obtain ⟨entries, rfl⟩ := hold
    exact ⟨entries, fun new _ => rfl⟩
  · refine ⟨[], fun new hnew => ?_⟩
    rw [mergeAll_empty hnew]
    cases old with
    | map entries => exact absurd ⟨entries, rfl⟩ hold
    | _ => rfl

/-- Entries whose merging is absorbed by what they have been merged into. -/
def Absorbed (new : Entries) : Prop :=
  ∀ old, mergeAll new (mergeAll new old) = mergeAll new old

theorem overlayAll_maps_absorbed {maps : List Entries}
    (hmaps : ∀ entries ∈ maps, WellKeyed (.map entries))
    (habsorbed : Absorbed maps.flatten) (old : Yaml) :
    overlayAll (maps.map map) (overlayAll (maps.map map) old) =
      overlayAll (maps.map map) old := by
  cases maps with
  | nil => rfl
  | cons first maps =>
      obtain ⟨base, hbase⟩ := exists_overlay_eq_mergeAll old
      have hfirst := hbase first (hmaps first List.mem_cons_self)
      have honce : overlayAll ((first :: maps).map map) old =
          map (mergeAll (first :: maps).flatten base) := by
        rw [List.map_cons, overlayAll_cons, hfirst, overlayAll_map_map,
          List.flatten_cons, mergeAll_append]
      rw [honce, overlayAll_map_map, habsorbed]

/-- A value that is no mapping hides all that is below it. -/
theorem overlayAll_of_mem {values : List Yaml} {value : Yaml}
    (hmem : value ∈ values) (hvalue : ∀ entries, value ≠ map entries)
    (old old' : Yaml) : overlayAll values old = overlayAll values old' := by
  obtain ⟨below, above, rfl⟩ := List.append_of_mem hmem
  rw [overlayAll_append, overlayAll_cons, overlay_of_ne_map hvalue,
    overlayAll_append, overlayAll_cons, overlay_of_ne_map hvalue]

theorem exists_eq_map_map {values : List Yaml}
    (h : ∀ value ∈ values, ∃ entries, value = map entries) :
    ∃ maps : List Entries, values = maps.map map := by
  induction values with
  | nil => exact ⟨[], rfl⟩
  | cons value values ih =>
      obtain ⟨⟨first, rfl⟩, hrest⟩ := List.forall_mem_cons.mp h
      obtain ⟨maps, rfl⟩ := ih hrest
      exact ⟨first :: maps, rfl⟩

theorem overlayAll_absorbed {values : List Yaml}
    (hvalues : ∀ value ∈ values, WellKeyed value)
    (habsorbed : ∀ maps : List Entries, (∀ entries ∈ maps, map entries ∈ values) →
      Absorbed maps.flatten) (old : Yaml) :
    overlayAll values (overlayAll values old) = overlayAll values old := by
  by_cases hmaps : ∀ value ∈ values, ∃ entries, value = map entries
  · obtain ⟨maps, rfl⟩ := exists_eq_map_map hmaps
    have hmem : ∀ entries ∈ maps, map entries ∈ maps.map map :=
      fun _ => List.mem_map_of_mem
    refine overlayAll_maps_absorbed ?_ (habsorbed maps hmem) old
    exact fun entries hentries => hvalues _ (hmem entries hentries)
  · obtain ⟨value, hvalue⟩ := Classical.not_forall.mp hmaps
    obtain ⟨hmem, hnone⟩ := Classical.not_imp.mp hvalue
    exact overlayAll_of_mem hmem (fun entries heq => hnone ⟨entries, heq⟩) _ _

/-! ## Absorption -/

section Values

variable {P : Yaml → Prop}

theorem forall_valuesFor (hnew : ∀ entry ∈ new, P entry.2) (key : Yaml) :
    ∀ value ∈ valuesFor key new, P value := by
  intro value hvalue
  obtain ⟨entry, hentry, rfl⟩ := List.mem_map.mp hvalue
  exact hnew entry (List.mem_filter.mp hentry).1

theorem forall_apartFrom (hnew : ∀ entry ∈ new, P entry.2) (key : Yaml) :
    ∀ entry ∈ apartFrom key new, P entry.2 := by
  intro entry hentry
  exact hnew entry (List.mem_filter.mp hentry).1

theorem valuesFor_cons_self (entry : Yaml × Yaml) (new : Entries) :
    valuesFor entry.1 (entry :: new) = entry.2 :: valuesFor entry.1 new := by
  rw [valuesFor, List.filter_cons, if_pos (beq_self entry.1), List.map_cons, valuesFor]

theorem apartFrom_cons_self (entry : Yaml × Yaml) (new : Entries) :
    apartFrom entry.1 (entry :: new) = apartFrom entry.1 new := by
  rw [apartFrom, List.filter_cons, beq_self]
  rfl

variable (hvalues : ∀ values : List Yaml, (∀ value ∈ values, P value) →
  ∀ old, overlayAll values (overlayAll values old) = overlayAll values old)

include hvalues

/-- The first entry brings the key, and later ones for the same key are laid over
its value. -/
theorem mergeAll_mergeAll_nil (new : Entries) (hnew : ∀ entry ∈ new, P entry.2) :
    mergeAll new (mergeAll new []) = mergeAll new [] := by
  match new with
  | [] => rfl
  | entry :: new =>
      obtain ⟨hentry, hrest⟩ := List.forall_mem_cons.mp hnew
      have ih := mergeAll_mergeAll_nil (apartFrom entry.1 new)
        (forall_apartFrom hrest entry.1)
      have hfirst : overlayAll (entry.2 :: valuesFor entry.1 new) null =
          overlayAll (valuesFor entry.1 new) entry.2 := by
        rw [overlayAll_cons]
        cases entry.2 <;> rfl
      have hvalue := hvalues (entry.2 :: valuesFor entry.1 new)
        (List.forall_mem_cons.mpr ⟨hentry, forall_valuesFor hrest entry.1⟩) null
      rw [mergeAll_nil_right, mergeAll_cons_right]
      dsimp only
      rw [valuesFor_cons_self, apartFrom_cons_self, ih, ← hfirst, hvalue]
termination_by new.length
decreasing_by
  exact Nat.lt_succ_of_le (List.length_filter_le _ new)

/-- Entries are absorbed if their values for each key are. -/
theorem absorbed_of_values (hnew : ∀ entry ∈ new, P entry.2) : Absorbed new := by
  intro old
  induction old generalizing new with
  | nil => exact mergeAll_mergeAll_nil hvalues new hnew
  | cons first rest ih =>
      rw [mergeAll_cons_right, mergeAll_cons_right,
        hvalues _ (forall_valuesFor hnew first.1),
        ih (forall_apartFrom hnew first.1)]

end Values

theorem sizeOf_snd_lt {entries : Entries} {entry : Yaml × Yaml}
    (hentry : entry ∈ entries) : sizeOf entry.2 < sizeOf (map entries) := by
  have hmem := List.sizeOf_lt_of_mem hentry
  have hsnd : sizeOf entry = 1 + sizeOf entry.1 + sizeOf entry.2 :=
    Prod.mk.sizeOf_spec entry.1 entry.2
  rw [map.sizeOf_spec]
  omega

/-- Well-keyed values are absorbed, by induction on a bound of their sizes: the
layers of a mapping below hold smaller values. -/
theorem absorbed_of_sizeOf_lt (bound : Nat)
    (hnew : ∀ entry ∈ new, sizeOf entry.2 < bound ∧ WellKeyed entry.2) :
    Absorbed new := by
  induction bound generalizing new with
  | zero =>
      cases new with
      | nil => exact fun old => rfl
      | cons entry rest =>
          exact absurd (hnew entry List.mem_cons_self).1 (Nat.not_lt_zero _)
  | succ bound ih =>
      refine absorbed_of_values
        (P := fun value => sizeOf value < bound + 1 ∧ WellKeyed value) ?_ hnew
      intro values hvalues
      refine overlayAll_absorbed (fun value hvalue => (hvalues value hvalue).2) ?_
      intro maps hmaps
      refine ih fun entry hentry => ?_
      obtain ⟨entries, hentries, hentry⟩ := List.mem_flatten.mp hentry
      obtain ⟨hsize, hkeyed⟩ := hvalues _ (hmaps entries hentries)
      constructor
      · exact Nat.lt_of_lt_of_le (sizeOf_snd_lt hentry) (Nat.le_of_lt_succ hsize)
      · exact hkeyed.values entry hentry

/-- Entries with well-keyed values are absorbed. -/
theorem absorbed_of_wellKeyed (hnew : ∀ entry ∈ new, WellKeyed entry.2) :
    Absorbed new := by
  refine absorbed_of_sizeOf_lt (sizeOf (map new)) fun entry hentry => ?_
  exact ⟨sizeOf_snd_lt hentry, hnew entry hentry⟩

theorem foldl_merge_absorbed {layers : List Entries}
    (hlayers : ∀ layer ∈ layers, WellKeyed (.map layer)) (start : Entries) :
    layers.foldl merge (layers.foldl merge start) = layers.foldl merge start := by
  rw [foldl_merge_eq_mergeAll, foldl_merge_eq_mergeAll]
  refine absorbed_of_wellKeyed ?_ start
  intro entry hentry
  obtain ⟨layer, hlayer, hentry⟩ := List.mem_flatten.mp hentry
  exact (hlayers layer hlayer).values entry hentry

/-- What layers have been merged into absorbs them: merging them all again, in
turn, changes no value and no order of keys, at any depth.  One layer is absorbed
as well, and merging it into an empty mapping gives the layer. -/
theorem layers_absorbed (start : Entries) (layers : List Entries)
    (hlayers : ∀ layer ∈ layers, WellKeyed (.map layer)) :
    layers.foldl merge (layers.foldl merge start) = layers.foldl merge start ∧
      ∀ layer ∈ layers,
        merge (merge start layer) layer = merge start layer ∧
          merge [] layer = layer := by
  constructor
  · exact foldl_merge_absorbed hlayers start
  · intro layer hlayer
    have hkeyed := hlayers layer hlayer
    have hone := foldl_merge_absorbed (List.forall_mem_singleton.mpr hkeyed) start
    exact ⟨hone, mergeAll_empty hkeyed⟩

/-- A number hides the mappings below it, and the mapping above it starts anew, so
the three layers leave no trace of the first two. -/
theorem layers_absorbed_with_hidden_layer :
    let start : Entries := [(str "a", map [(str "y", int 1)])]
    let layers : List Entries :=
      [[(str "a", map [(str "x", int 1)])], [(str "a", int 5)],
        [(str "a", map [(str "z", int 2)])]]
    (∀ layer ∈ layers, WellKeyed (.map layer)) ∧
      layers.foldl merge start = [(str "a", map [(str "z", int 2)])] ∧
      layers.foldl merge (layers.foldl merge start) = layers.foldl merge start := by
  intro start layers
  have hone : ∀ key value, WellKeyed value → WellKeyed (map [(key, value)]) :=
    fun _ _ hvalue =>
      .map (List.pairwise_singleton _ _) (List.forall_mem_singleton.mpr hvalue)
  have hint : ∀ i, WellKeyed (int i) := fun _ => .other fun _ => nofun
  have hlayers : ∀ layer ∈ layers, WellKeyed (.map layer) := by
    rw [List.forall_mem_cons, List.forall_mem_cons, List.forall_mem_singleton]
    refine ⟨?_, ?_, ?_⟩
    · exact hone _ _ (hone _ _ (hint 1))
    · exact hone _ _ (hint 5)
    · exact hone _ _ (hone _ _ (hint 2))
  exact ⟨hlayers, rfl, (layers_absorbed start layers hlayers).1⟩

end Yaml

end DevSpecs
