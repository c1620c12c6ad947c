import DevSpecs.Config
import DevSpecs.Yaml.Merge
import DevSpecs.Yaml.Reader

/-!
# Templates

The template of a project is made of layers, one per file, of which a later one
overrides the earlier ones.  A layer whose only key is `spack` contributes the
mapping below it.
-/

namespace DevSpecs

namespace Template

open Yaml (Entries)

/-- What a mapping contributes.  If its only key is `spack`, with anything but a
mapping below, it contributes nothing. -/
def content : Entries → Entries
  | [(key, value)] =>
    if key == .str "spack" then
      match value with
      | .map section_ => section_
      | _ => []
    else [(key, value)]
  | entries => entries

/-- The layer that a document is; an empty document is an empty one. -/
def layerOf? : Yaml → Option Entries
  | .map entries => some (content entries)
  | .null => some []
  | _ => none

def loadLayer (files : FileTree) (path : Path) : Except ConfigError Entries := do
  let text ← (files.read path).mapError (.read path)
  let document ← (Yaml.parse text).mapError fun e => .yaml path e.message
  match layerOf? document with
  | some layer => return layer
  | none => throw (.templateNotMapping path)

end Template

/-- Load the template of a project.  There is none when no files are configured. -/
def Config.template (c : Config) (files : FileTree) :
    Except ConfigError (Option Yaml.Entries) :=
  if c.templates.isEmpty then .ok none
  else do
    let merged ← c.templates.foldlM (fun merged path => do
      let layer ← Template.loadLayer files (c.locate path)
      return Yaml.Entries.merge merged layer) ([] : Yaml.Entries)
    return some merged

end DevSpecs
