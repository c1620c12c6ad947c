import DevSpecs.Proofs.Yaml.Layers
import DevSpecs.Template

/-!
# What layers contribute

A layer should contribute its whole document, but for a document whose only key is
`spack`: of this it should contribute what is below the key, if that is a mapping
or nothing at all.  When something else stands there, the layer is misplaced; it
contributes neither its section, for there is none, nor its document, and is lost
without an error.  All other layers are merged in their order, and the first one
that cannot be a layer decides the error.
-/

namespace DevSpecs

namespace Template

open Yaml (Entries)

/-! ## Documents and their contents -/

/-- A document that is a mapping, or empty. -/
def IsLayer (document : Yaml) : Prop :=
  document = .null ∨ ∃ entries, document = .map entries

/-- What a document should contribute to a template. -/
inductive Contributes : Yaml → Entries → Prop
  | empty : Contributes .null []
  | below (section_ : Entries) :
    Contributes (.map [(.str "spack", .map section_)]) section_
  | emptyBelow : Contributes (.map [(.str "spack", .null)]) []
  | whole (entries : Entries)
    (h : ∀ value, entries = [(.str "spack", value)] → ¬IsLayer value) :
    Contributes (.map entries) entries

/-- The only key of the document is `spack`, and the value is neither a mapping nor
empty. -/
def Misplaced (document : Yaml) : Prop :=
  ∃ value, document = .map [(.str "spack", value)] ∧ ¬IsLayer value

/-- What a document leaves in a template: what it should contribute, or nothing if
it is misplaced. -/
inductive Leaves (document : Yaml) : Entries → Prop
  | contribution {content : Entries} (h : ¬Misplaced document)
    (hcontent : Contributes document content) : Leaves document content
  | nothing (h : Misplaced document) : Leaves document []

/-- Every layer has a content. -/
theorem exists_contributes {document : Yaml} (h : IsLayer document) :
    ∃ content, Contributes document content := by
  rcases h with rfl | ⟨entries, rfl⟩
  · exact ⟨[], .empty⟩
  · by_cases hsole : ∃ value, entries = [(.str "spack", value)] ∧ IsLayer value
    · obtain ⟨value, rfl, rfl | ⟨section_, rfl⟩⟩ := hsole
      · exact ⟨[], .emptyBelow⟩
      · exact ⟨section_, .below section_⟩
    · refine ⟨entries, .whole entries ?_⟩
      intro value heq hvalue
      exact hsole ⟨value, heq, hvalue⟩

theorem Misplaced.not_contributes_nil {document : Yaml} (h : Misplaced document) :
    ¬Contributes document [] := by
  obtain ⟨value, rfl, hvalue⟩ := h
  intro hcontent
  cases hcontent with
  | below => exact hvalue (.inr ⟨[], rfl⟩)
  | emptyBelow => exact hvalue (.inl rfl)

/-- A document leaves what it should contribute exactly if it is not misplaced. -/
theorem Contributes.leaves_iff {document : Yaml} {content : Entries}
    (hcontent : Contributes document content) :
    Leaves document content ↔ ¬Misplaced document := by
  constructor
  · rintro (⟨hplaced, -⟩ | hmisplaced)
    · exact hplaced
    · exact absurd hcontent hmisplaced.not_contributes_nil
  · intro hplaced
    exact .contribution hplaced hcontent

theorem Contributes.unique {document : Yaml} {content content' : Entries}
    (h : Contributes document content) (h' : Contributes document content') :
    content = content' := by
  cases h with
  | empty => cases h'; rfl
  | below =>
      cases h' with
      | below => rfl
      | whole _ hvalue => exact absurd (.inr ⟨_, rfl⟩) (hvalue _ rfl)
  | emptyBelow =>
      cases h' with
      | emptyBelow => rfl
      | whole _ hvalue => exact absurd (.inl rfl) (hvalue _ rfl)
  | whole _ hvalue =>
      cases h' with
      | below => exact absurd (.inr ⟨_, rfl⟩) (hvalue _ rfl)
      | emptyBelow => exact absurd (.inl rfl) (hvalue _ rfl)
      | whole => rfl

theorem Leaves.unique {document : Yaml} {content content' : Entries}
    (h : Leaves document content) (h' : Leaves document content') :
    content = content' := by
  cases h with
  | contribution hplaced hcontent =>
      cases h' with
      | contribution _ hcontent' => exact hcontent.unique hcontent'
      | nothing hmisplaced => exact absurd hmisplaced hplaced
  | nothing hmisplaced =>
      cases h' with
      | contribution hplaced _ => exact absurd hmisplaced hplaced
      | nothing _ => rfl

theorem Leaves.isLayer {document : Yaml} {content : Entries}
    (h : Leaves document content) : IsLayer document := by
  rcases h with ⟨-, hcontent⟩ | ⟨value, rfl, -⟩
  · cases hcontent with
    | empty => exact .inl rfl
    | _ => exact .inr ⟨_, rfl⟩
  · exact .inr ⟨_, rfl⟩

/-- The keys of a content are distinct, as those of its document are. -/
theorem Leaves.wellKeyed {document : Yaml} {content : Entries}
    (h : Leaves document content) (hdocument : document.WellKeyed) :
    Yaml.WellKeyed (.map content) := by
  have hempty : Yaml.WellKeyed (.map []) := .map .nil nofun
  rcases h with ⟨-, hcontent⟩ | -
  · cases hcontent with
    | empty => exact hempty
    | below section_ => exact hdocument.values _ List.mem_cons_self
    | emptyBelow => exact hempty
    | whole => exact hdocument
  · exact hempty

/-! ## The layer that a document is -/

theorem misplaced_spack_iff {value : Yaml} :
    Misplaced (.map [(.str "spack", value)]) ↔ ¬IsLayer value := by
  constructor
  · rintro ⟨value', heq, hvalue⟩
    obtain rfl : value = value' := by simpa using heq
    exact hvalue
  · intro hvalue
    exact ⟨value, rfl, hvalue⟩

theorem content_spack (value : Yaml) :
    content [(.str "spack", value)] =
      match value with
      | .map section_ => section_
      | _ => [] := by
  unfold content
  exact if_pos (Yaml.beq_str_iff.mpr rfl)

theorem content_of_ne {entries : Entries}
    (h : ∀ value, entries ≠ [(.str "spack", value)]) : content entries = entries := by
  unfold content
  split
  next key value =>
    apply if_neg
    intro hkey
    apply h value
    rw [Yaml.beq_str_iff.mp hkey]
  next => rfl

theorem leaves_content (entries : Entries) :
    Leaves (.map entries) (content entries) := by
  by_cases hsole : ∃ value, entries = [(.str "spack", value)]
  · obtain ⟨value, rfl⟩ := hsole
    rw [content_spack]
    by_cases hvalue : IsLayer value
    · have hplaced : ¬Misplaced (.map [(.str "spack", value)]) := by
        intro hmisplaced
        exact misplaced_spack_iff.mp hmisplaced hvalue
      rcases hvalue with rfl | ⟨section_, rfl⟩
      · exact .contribution hplaced .emptyBelow
      · exact .contribution hplaced (.below section_)
    · have hmisplaced := misplaced_spack_iff.mpr hvalue
      split
      next section_ => exact absurd (.inr ⟨section_, rfl⟩) hvalue
      next => exact .nothing hmisplaced
  · have hne := not_exists.mp hsole
    rw [content_of_ne hne]
    refine .contribution ?_ (.whole entries fun value heq => absurd heq (hne value))
    rintro ⟨value, heq, -⟩
    exact hne value (Yaml.map.inj heq)

/-- Every layer leaves something definite. -/
theorem leaves_of_layerOf? {document : Yaml} {content : Entries}
    (h : layerOf? document = some content) : Leaves document content := by
  unfold layerOf? at h
  split at h
  next entries =>
    obtain rfl := Option.some.inj h
    exact leaves_content entries
  next =>
    obtain rfl := Option.some.inj h
    refine .contribution ?_ .empty
    rintro ⟨_, heq, -⟩
    cases heq
  next => cases h

theorem layerOf?_eq_none_iff {document : Yaml} :
    layerOf? document = none ↔ ¬IsLayer document := by
  unfold layerOf?
  split
  next entries => exact iff_of_false nofun (not_not_intro (.inr ⟨entries, rfl⟩))
  next => exact iff_of_false nofun (not_not_intro (.inl rfl))
  next hmap hnull =>
    refine iff_of_true rfl ?_
    rintro (rfl | ⟨entries, rfl⟩)
    · exact hnull rfl
    · exact hmap entries rfl

theorem layerOf?_eq_some_iff {document : Yaml} {content : Entries} :
    layerOf? document = some content ↔ Leaves document content := by
  constructor
  · exact leaves_of_layerOf?
  · intro hleaves
    cases hlayer : layerOf? document with
    | none => exact absurd hleaves.isLayer (layerOf?_eq_none_iff.mp hlayer)
    | some content' => rw [(leaves_of_layerOf? hlayer).unique hleaves]

theorem isLayer_iff_exists_leaves {document : Yaml} :
    IsLayer document ↔ ∃ content, Leaves document content := by
  constructor
  · intro h
    cases hlayer : layerOf? document with
    | none => exact absurd h (layerOf?_eq_none_iff.mp hlayer)
    | some content => exact ⟨content, leaves_of_layerOf? hlayer⟩
  · rintro ⟨content, h⟩
    exact h.isLayer

/-! ## Layers in files -/

/-- A file holds a document. -/
def Holds (files : FileTree) (path : Path) (document : Yaml) : Prop :=
  ∃ text, files.read path = .ok text ∧ Yaml.parse text = .ok document

/-- Why a file holds no layer. -/
inductive Refused (files : FileTree) (path : Path) : ConfigError → Prop
  | unreadable {cause : Failure} (h : files.read path = .error cause) :
    Refused files path (.read path cause)
  | unparseable {text : Text} {cause : Yaml.ReadError}
    (htext : files.read path = .ok text) (h : Yaml.parse text = .error cause) :
    Refused files path (.yaml path cause.message)
  | noLayer {document : Yaml} (hdocument : Holds files path document)
    (h : ¬IsLayer document) : Refused files path (.templateNotMapping path)

section Load

variable {files : FileTree} {path : Path}

theorem loadLayer_of_holds {document : Yaml} (h : Holds files path document) :
    loadLayer files path =
      match layerOf? document with
      | some layer => .ok layer
      | none => .error (.templateNotMapping path) := by
  obtain ⟨text, htext, hdocument⟩ := h
  rw [loadLayer, htext]
  change (Yaml.parse text).mapError _ >>= _ = _
  rw [hdocument]
  rfl

theorem loadLayer_eq_ok_iff {content : Entries} :
    loadLayer files path = .ok content ↔
      ∃ document, Holds files path document ∧ Leaves document content := by
  constructor
  · intro h
    obtain ⟨text, htext, h'⟩ := bind_eq_ok_iff.mp h
    obtain ⟨document, hdocument, -⟩ := bind_eq_ok_iff.mp h'
    have hholds : Holds files path document :=
      ⟨text, mapError_eq_ok_iff.mp htext, mapError_eq_ok_iff.mp hdocument⟩
    rw [loadLayer_of_holds hholds] at h
    refine ⟨document, hholds, ?_⟩
    rw [← layerOf?_eq_some_iff]
    cases hlayer : layerOf? document with
    | none => rw [hlayer] at h; cases h
    | some layer => rw [hlayer] at h; rw [Except.ok.inj h]
  · rintro ⟨document, hholds, hleaves⟩
    rw [loadLayer_of_holds hholds, layerOf?_eq_some_iff.mpr hleaves]

theorem loadLayer_eq_error_iff {e : ConfigError} :
    loadLayer files path = .error e ↔ Refused files path e := by
  constructor
  · intro h
    rcases bind_eq_error_iff.mp h with h' | ⟨text, htext, h'⟩
    · obtain ⟨cause, hcause, rfl⟩ := mapError_eq_error_iff.mp h'
      exact .unreadable hcause
    · have htext := mapError_eq_ok_iff.mp htext
      rcases bind_eq_error_iff.mp h' with h'' | ⟨document, hdocument, -⟩
      · obtain ⟨cause, hcause, rfl⟩ := mapError_eq_error_iff.mp h''
        exact .unparseable htext hcause
      · have hholds : Holds files path document :=
          ⟨text, htext, mapError_eq_ok_iff.mp hdocument⟩
        rw [loadLayer_of_holds hholds] at h
        cases hlayer : layerOf? document with
        | none =>
            rw [hlayer] at h
            obtain rfl := Except.error.inj h
            exact .noLayer hholds (layerOf?_eq_none_iff.mp hlayer)
        | some layer => rw [hlayer] at h; cases h
  · intro h
    cases h with
    | unreadable h => rw [loadLayer, h]; rfl
    | unparseable htext h =>
        rw [loadLayer, htext]
        change (Yaml.parse _).mapError _ >>= _ = _
        rw [h]
        rfl
    | noLayer hholds hlayer =>
        rw [loadLayer_of_holds hholds, layerOf?_eq_none_iff.mpr hlayer]

/-- Some layer is loaded exactly if the file holds one. -/
theorem exists_loadLayer_eq_ok_iff :
    (∃ content, loadLayer files path = .ok content) ↔
      ∃ document, Holds files path document ∧ IsLayer document := by
  simp only [loadLayer_eq_ok_iff, isLayer_iff_exists_leaves]
  rw [exists_comm]
  simp only [exists_and_left]

end Load

/-! ## Templates -/

/-- The contents of layers, merged in their order into an empty mapping.  There is no
template without layers. -/
def stacked : List Entries → Option Entries
  | [] => none
  | contents => some (contents.foldl Entries.merge [])

/-- Loading the layers and merging them as they come is loading all of them and
merging them in the end. -/
theorem template_eq_map (c : Config) (files : FileTree) :
    c.template files =
      (c.templates.mapM fun path => loadLayer files (c.locate path)).map stacked := by
  unfold Config.template
  cases hpaths : c.templates with
  | nil => rfl
  | cons path paths =>
      rw [List.isEmpty_cons, if_neg Bool.false_ne_true, foldlM_eq_map_mapM,
        List.mapM_cons]
      cases loadLayer files (c.locate path) with
      | error e => rfl
      | ok layer =>
          cases paths.mapM fun path => loadLayer files (c.locate path) with
          | error e => rfl
          | ok layers => rfl

/-- A template absorbs its layers: merging them into it once more changes nothing. -/
theorem exists_layers_absorbed {c : Config} {files : FileTree} {template : Entries}
    (h : c.template files = .ok (some template)) :
    ∃ layers, (c.templates.mapM fun path => loadLayer files (c.locate path)) =
        .ok layers ∧
      layers.foldl Entries.merge template = template := by
  rw [template_eq_map] at h
  obtain ⟨layers, hlayers, hstacked⟩ := map_eq_ok_iff.mp h
  refine ⟨layers, hlayers, ?_⟩
  have hkeyed : ∀ layer ∈ layers, Yaml.WellKeyed (.map layer) := by
    intro layer hlayer
    obtain ⟨path, -, hpath⟩ := (mem_iff_of_mapM_eq_ok hlayers).mp hlayer
    obtain ⟨document, ⟨text, -, hparse⟩, hleaves⟩ := loadLayer_eq_ok_iff.mp hpath
    exact hleaves.wellKeyed (Yaml.wellKeyed_of_parse hparse)
  cases layers with
  | nil => cases hstacked
  | cons layer layers =>
      obtain rfl := Option.some.inj hstacked
      exact Yaml.foldl_merge_absorbed hkeyed []

/-- The template of a project is what its layers leave, merged in their order into
an empty mapping, and the first file without a layer decides the error.  Every
layer has a content, and leaves it exactly if it is not misplaced. -/
theorem template_follows_layers (c : Config) (files : FileTree) :
    (∀ template, c.template files = .ok template ↔
      ∃ contents,
        List.Forall₂
          (fun path content =>
            ∃ document, Holds files (c.locate path) document ∧ Leaves document content)
          c.templates contents ∧
        template = stacked contents) ∧
    (∀ e, c.template files = .error e ↔
      ∃ before path after, c.templates = before ++ path :: after ∧
        (∀ earlier ∈ before,
          ∃ document, Holds files (c.locate earlier) document ∧ IsLayer document) ∧
        Refused files (c.locate path) e) ∧
    ∀ document, IsLayer document →
      ∃ content, Contributes document content ∧
        (Leaves document content ↔ ¬Misplaced document) := by
  rw [template_eq_map]
  refine ⟨?_, ?_, ?_⟩
  · intro template
    rw [map_eq_ok_iff]
    simp only [mapM_eq_ok_iff_forall₂, loadLayer_eq_ok_iff]
    exact exists_congr fun contents => and_congr_right fun _ => eq_comm
  · intro e
    rw [map_eq_error_iff, mapM_eq_error_iff]
    simp only [loadLayer_eq_error_iff, exists_loadLayer_eq_ok_iff]
  · intro document hdocument
    obtain ⟨content, hcontent⟩ := exists_contributes hdocument
    exact ⟨content, hcontent, hcontent.leaves_iff⟩

/-- A text below `spack` is read as one. -/
theorem parse_textBelow :
    Yaml.parse "spack: text\n" = .ok (.map [(.str "spack", .str "text")]) := by
  let root : Yaml.Node :=
    .map none [(.scalar none true "spack", .scalar none true "text")]
  let tokens : List Yaml.Token :=
    [.blockMapping, .key, .scalar true "spack", .value, .scalar true "text",
      .blockEnd, .streamEnd]
  have htokens : Yaml.tokensOf "spack: text\n" = .ok tokens := rfl
  have hdocument : Yaml.Document.ofTokens tokens =
      .ok { root, anchored := [], events := 4 } := rfl
  -- The depth is left open here, since the evaluation need not go through all of it.
  have hvalue : ∀ d depth left, Yaml.valueOf d (depth + 2) root left =
      .ok (.map [(.str "spack", .str "text")], left) := fun _ _ _ => rfl
  refine bind_eq_ok_iff.mpr ⟨tokens, htokens, ?_⟩
  refine bind_eq_ok_iff.mpr ⟨_, hdocument, ?_⟩
  exact bind_eq_ok_iff.mpr ⟨_, hvalue _ 126 _, rfl⟩

/-- A layer should contribute its document, since there is a text below the only key
`spack`, and yet the template is empty. -/
theorem text_below_spack_is_lost :
    let files : FileTree :=
      { entries := [(["t.yaml"], .file (some "spack: text\n") false)] }
    let c : Config := { templates := ["t.yaml"] }
    let document : Yaml := .map [(.str "spack", .str "text")]
    ∃ content, Contributes document content ∧
      Holds files (c.locate "t.yaml") document ∧
      stacked [content] = some [(.str "spack", .str "text")] ∧
      c.template files = .ok (some []) := by
  intro files c document
  have hcontent : Contributes document [(.str "spack", .str "text")] := by
    refine .whole _ ?_
    rintro _ ⟨⟩ (h | ⟨_, h⟩)
    · cases h
    · cases h
  have hread : files.read (c.locate "t.yaml") = .ok "spack: text\n" := rfl
  have hholds : Holds files (c.locate "t.yaml") document := ⟨_, hread, parse_textBelow⟩
  have hlayer : loadLayer files (c.locate "t.yaml") = .ok [] := loadLayer_of_holds hholds
  have hlayers : (c.templates.mapM fun path => loadLayer files (c.locate path)) =
      .ok [[]] := mapM_eq_ok_iff_forall₂.mpr (.cons hlayer .nil)
  refine ⟨_, hcontent, hholds, rfl, ?_⟩
  rw [template_eq_map, hlayers]
  rfl

end Template

end DevSpecs
