import PackedSchema.Command.Run
import PackedSchema.Main
import PackedSchema.Proofs.Containment.Graph
import PackedSchema.Proofs.Outcome
import PackedSchema.Proofs.Containment.Search
import PackedSchema.Proofs.TypeTable
import PackedSchema.Proofs.Layout.Rank
import PackedSchema.Proofs.Layout.Simulation
import PackedSchema.Proofs.Layout.Direct
import PackedSchema.Proofs.Layout.Defined
import PackedSchema.Proofs.Layout.History
import PackedSchema.Proofs.Layout.Resolved
import PackedSchema.Proofs.Kernel.Emission
import PackedSchema.Proofs.Compile
import PackedSchema.Proofs.Layout.Placement
import PackedSchema.Proofs.Layout.Leaves
import PackedSchema.Proofs.Layout.Tightness
import PackedSchema.Proofs.TypeTable.Rules
import PackedSchema.Proofs.Schema.Places
import PackedSchema.Proofs.Layout.Places
import PackedSchema.Proofs.Layout.Locality
import PackedSchema.Proofs.Layout.Answers
import PackedSchema.Proofs.Manifest.Identity
import PackedSchema.Proofs.Manifest.Packing
import PackedSchema.Proofs.Manifest.File
import PackedSchema.Proofs.Source.Grammar
import PackedSchema.Proofs.Source.Reading
import PackedSchema.Proofs.Schema.TypeTexts
import PackedSchema.Proofs.Schema.Wording
import PackedSchema.Proofs.Schema.Faults
import PackedSchema.Proofs.Decimal.Numeral
import PackedSchema.Proofs.Kernel.Scan
import PackedSchema.Proofs.Kernel.Agreement
import PackedSchema.Proofs.Kernel.Identifiers
import PackedSchema.Proofs.Kernel.TypeUses
import PackedSchema.Proofs.Manifest.Format
import PackedSchema.Proofs.Manifest.Reading
import PackedSchema.Proofs.Manifest.Summary
import PackedSchema.Proofs.Compile.Failures
import PackedSchema.Proofs.Command.Directory
import PackedSchema.Proofs.Command.Run
import PackedSchema.Proofs.Command.ManifestInfo
import PackedSchema.Proofs.Command.Writing
import PackedSchema.Proofs.Layout.Complete
import PackedSchema.Proofs.Layout.Granularity
import PackedSchema.Proofs.Layout.InlineEnums
import PackedSchema.Proofs.Layout.Nesting
import PackedSchema.Proofs.Source.Positions
import PackedSchema.Proofs.Schema.Spans
import PackedSchema.Proofs.Source.Refusals
import PackedSchema.Proofs.Compile.Excerpts
import PackedSchema.Proofs.Text.Lines
import PackedSchema.Proofs.Kernel.Warnings
import PackedSchema.Proofs.Command.ExitCodes
