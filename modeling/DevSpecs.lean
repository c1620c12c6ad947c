import DevSpecs.Main
import DevSpecs.Proofs.Text.Words
import DevSpecs.Proofs.Text.Cutting
import DevSpecs.Proofs.Text.Ascending
import DevSpecs.Proofs.Version.Equality
import DevSpecs.Proofs.Version.Order
import DevSpecs.Proofs.Version.Walk
import DevSpecs.Proofs.Version.Runs
import DevSpecs.Proofs.Version.Numerals
import DevSpecs.Proofs.Version.RunOrder
import DevSpecs.Proofs.Version.PointRelease
import DevSpecs.Proofs.Version.Canonical
import DevSpecs.Proofs.Version.Variation
import DevSpecs.Proofs.Spec.Pieces
import DevSpecs.Proofs.Spec.Items
import DevSpecs.Proofs.Spec.Layout
import DevSpecs.Proofs.Spec.Grammar
import DevSpecs.Proofs.Spec.Base
import DevSpecs.Proofs.Spec.Nodes
import DevSpecs.Proofs.Spec.Placement
import DevSpecs.Proofs.Dependency.Declared
import DevSpecs.Proofs.Dependency.Newest
import DevSpecs.Proofs.Dependency.Asking
import DevSpecs.Proofs.Dependency.Supported
import DevSpecs.Proofs.Dependency.External
import DevSpecs.Proofs.Dependency.Rendering
import DevSpecs.Proofs.Dependency.Fixed
import DevSpecs.Proofs.Dependency.Memory
import DevSpecs.Proofs.Dependency.Faithful
import DevSpecs.Proofs.Dependency.Respelling
import DevSpecs.Proofs.Resolution.Distinct
import DevSpecs.Proofs.Resolution.Groups
import DevSpecs.Proofs.Resolution.Ahead
import DevSpecs.Proofs.Resolution.Reach
import DevSpecs.Proofs.Resolution.Order
import DevSpecs.Proofs.Resolution.Prefetched
import DevSpecs.Proofs.Resolution.Modes
import DevSpecs.Proofs.Yaml.Entries
import DevSpecs.Proofs.Manifest.Settings
import DevSpecs.Proofs.Manifest.Regeneration
import DevSpecs.Proofs.Manifest.Encoding
import DevSpecs.Proofs.Yaml.Keys
import DevSpecs.Proofs.Yaml.Layers
import DevSpecs.Proofs.Yaml.Sameness
import DevSpecs.Proofs.Yaml.Overriding
import DevSpecs.Proofs.Template.Contents
import DevSpecs.Proofs.Dependency.Minimum
import DevSpecs.Proofs.Files.Paths
import DevSpecs.Proofs.Files.Places
import DevSpecs.Proofs.Environment.Generating
import DevSpecs.Proofs.Environment.IntendedFiles
import DevSpecs.Proofs.Environment.Calling
import DevSpecs.Proofs.Spack.Compilers
import DevSpecs.Proofs.Spack.Exports
import DevSpecs.Proofs.Environment.Listing
import DevSpecs.Proofs.Project.Roots
import DevSpecs.Proofs.Project.Generating
import DevSpecs.Proofs.Spack.Versions
import DevSpecs.Proofs.Files.Searching
import DevSpecs.Proofs.Environment.Finding
import DevSpecs.Proofs.Environment.Remembering
import DevSpecs.Proofs.Report.Styles
import DevSpecs.Proofs.Report.Listing
