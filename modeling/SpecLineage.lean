import SpecLineage.Command.Line
import SpecLineage.Command.Help
import SpecLineage.Command.Run
import SpecLineage.Consistency
import SpecLineage.Data.Layout
import SpecLineage.Data.Shape
import SpecLineage.Data.Tree
import SpecLineage.Diagnostic
import SpecLineage.Digest
import SpecLineage.Document.Basic
import SpecLineage.Document.Build
import SpecLineage.Document.Entity
import SpecLineage.Document.Metadata
import SpecLineage.Document.Section
import SpecLineage.FileTree
import SpecLineage.Format
import SpecLineage.Json.Read
import SpecLineage.Json.Skip
import SpecLineage.Json.Token
import SpecLineage.Json.Write
import SpecLineage.Lineage.Cache
import SpecLineage.Lineage.Files
import SpecLineage.Lineage.Location
import SpecLineage.Lineage.Outcome
import SpecLineage.Lineage.Resolve
import SpecLineage.Lineage.Session
import SpecLineage.Lineage.Shelf
import SpecLineage.Lineage.Store
import SpecLineage.Main
import SpecLineage.Merge.Basic
import SpecLineage.Merge.Combine
import SpecLineage.Number.Double
import SpecLineage.Options
import SpecLineage.Path
import SpecLineage.Settings
import SpecLineage.Text.Blank
import SpecLineage.Text.Hex
import SpecLineage.Toml.Node
import SpecLineage.Toml.Read
import SpecLineage.Toml.Scalar
import SpecLineage.Toml.Section
import SpecLineage.Toml.Value
import SpecLineage.Toml.Write
import SpecLineage.Yaml.Anchor
import SpecLineage.Yaml.Block
import SpecLineage.Yaml.Char
import SpecLineage.Yaml.Flow
import SpecLineage.Yaml.Node
import SpecLineage.Yaml.Read
import SpecLineage.Yaml.Scalar
import SpecLineage.Yaml.Tag
import SpecLineage.Yaml.Token
import SpecLineage.Yaml.Write
import SpecLineage.Proofs.Distinct
import SpecLineage.Proofs.Sequence
import SpecLineage.Proofs.Lineage.Fetch
import SpecLineage.Proofs.Lineage.Trail
import SpecLineage.Proofs.Lineage.Report
import SpecLineage.Proofs.Lineage.Simulation
import SpecLineage.Proofs.Lineage.Transparency
import SpecLineage.Proofs.Lineage.Findings
import SpecLineage.Proofs.Lineage.Circularity
import SpecLineage.Proofs.Lineage.Accounting
import SpecLineage.Proofs.Merge.Collection
import SpecLineage.Proofs.Merge.Document
import SpecLineage.Proofs.Lineage.Layering
import SpecLineage.Proofs.Lineage.Precedence
import SpecLineage.Proofs.Lineage.Flattening
import SpecLineage.Proofs.Lineage.Ancestry
import SpecLineage.Proofs.Lineage.Agreement
import SpecLineage.Proofs.Lineage.Moment
import SpecLineage.Proofs.Lineage.Depth
import SpecLineage.Proofs.Lineage.Allowance
import SpecLineage.Proofs.Lineage.Stacking
import SpecLineage.Proofs.Consistency
import SpecLineage.Proofs.Lineage.Duplication
import SpecLineage.Proofs.Lineage.Dependency
import SpecLineage.Proofs.Merge.Section
import SpecLineage.Proofs.Merge.Grouping
import SpecLineage.Proofs.Merge.Identity
import SpecLineage.Proofs.Lineage.Heading
import SpecLineage.Proofs.Lineage.Truncation
import SpecLineage.Proofs.Lineage.Separation
import SpecLineage.Proofs.Path
import SpecLineage.Proofs.Lineage.Location
import SpecLineage.Proofs.Lineage.Normalization
import SpecLineage.Proofs.Text.Hex
import SpecLineage.Proofs.Data.Fitting
import SpecLineage.Proofs.Json.Lexeme
import SpecLineage.Proofs.Json.Reading
import SpecLineage.Proofs.Canonical
import SpecLineage.Proofs.Lineage.Relocation
import SpecLineage.Proofs.Lineage.Locality
import SpecLineage.Proofs.Lineage.Balance
import SpecLineage.Proofs.FileTree
import SpecLineage.Proofs.Command.Reprint
import SpecLineage.Proofs.Text.Digits
import SpecLineage.Proofs.Data.Regular
import SpecLineage.Proofs.Yaml.Text
import SpecLineage.Proofs.Yaml.Scan
import SpecLineage.Proofs.Yaml.Lexeme
import SpecLineage.Proofs.Yaml.Reading
import SpecLineage.Proofs.Toml.Text
import SpecLineage.Proofs.Toml.Value
import SpecLineage.Proofs.Toml.Line
import SpecLineage.Proofs.Toml.Section
import SpecLineage.Proofs.Toml.Reading
import SpecLineage.Proofs.Lossless
import SpecLineage.Proofs.Lineage.Replay
import SpecLineage.Proofs.Json.Node
import SpecLineage.Proofs.Json.Scanning
import SpecLineage.Proofs.Json.Meaning
import SpecLineage.Proofs.Json.Acceptance
import SpecLineage.Proofs.Json.Rearrangement
