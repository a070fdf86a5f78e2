import SvelteLens.Text.Lines
import SvelteLens.Edit.Render
import SvelteLens.FileKind
import SvelteLens.Markup.Scan
import SvelteLens.Service.Snapshot
import SvelteLens.Script.Parser.Module
import SvelteLens.Json.Value
import SvelteLens.Json.Relaxed
import SvelteLens.Service.Ambient
import SvelteLens.Service.SnapshotTable
import SvelteLens.Config.Scope
import SvelteLens.Config.Glob
import SvelteLens.Config.Discovery
import SvelteLens.Service.Container
import SvelteLens.Service.Registry
import SvelteLens.Proofs.Edit.Calls
import SvelteLens.Proofs.Edit.Ledger
import SvelteLens.Proofs.Edit.Blocks
import SvelteLens.Proofs.Edit.Tiles
import SvelteLens.Proofs.Edit.Sources
import SvelteLens.Proofs.Edit.Lookup
import SvelteLens.Proofs.Edit.Tiling
import SvelteLens.Proofs.Edit.Reference
import SvelteLens.Proofs.Edit.EventLoop
import SvelteLens.Proofs.Edit.RoundTrip
import SvelteLens.Proofs.Markup.Cursors
import SvelteLens.Proofs.Markup.Attributes
import SvelteLens.Proofs.Markup.Zones
import SvelteLens.Proofs.Edit.Plans
import SvelteLens.Proofs.Markup.Offsets
import SvelteLens.Proofs.Directive.Reach
import SvelteLens.Proofs.Script.Rewriting
import SvelteLens.Proofs.Projection.Trace
import SvelteLens.Proofs.Projection.Causes
import SvelteLens.Proofs.Projection.Attribution
import SvelteLens.Proofs.Projection.Retention
import SvelteLens.Proofs.Edit.Acceptance
import SvelteLens.Proofs.Edit.Advancing
import SvelteLens.Proofs.Markup.Boundaries
import SvelteLens.Proofs.Markup.Frames
import SvelteLens.Proofs.Directive.Course
import SvelteLens.Proofs.Script.Course
import SvelteLens.Proofs.Projection.Regions
import SvelteLens.Proofs.Projection.Compatibility
import SvelteLens.Proofs.Projection.Success
import SvelteLens.Proofs.Path.Spelling
import SvelteLens.Proofs.Path.Joining
import SvelteLens.Proofs.Service.Actions
import SvelteLens.Proofs.Service.Tables
import SvelteLens.Proofs.Service.Looks
import SvelteLens.Proofs.Service.Operations
import SvelteLens.Proofs.Service.Deletion
import SvelteLens.Proofs.Service.Sessions
import SvelteLens.Proofs.Service.Errors
import SvelteLens.Proofs.Service.Identity
import SvelteLens.Proofs.Service.Specifiers
import SvelteLens.Proofs.Service.Demand
import SvelteLens.Proofs.Service.Answers
import SvelteLens.Proofs.Service.Places
import SvelteLens.Proofs.Service.SingleFlight
import SvelteLens.Proofs.Edit.Reordering
import SvelteLens.Proofs.Service.Listing
import SvelteLens.Proofs.Service.Appearances
import SvelteLens.Proofs.Service.Covered
import SvelteLens.Proofs.Text.Lines
import SvelteLens.Proofs.Edit.Bounds
import SvelteLens.Proofs.Service.Origins
import SvelteLens.Proofs.Service.Reports
import SvelteLens.Proofs.Service.Notices
import SvelteLens.Proofs.Service.Disposal
import SvelteLens.Proofs.Service.Histories
import SvelteLens.Proofs.Edit.Stretches
import SvelteLens.Proofs.Markup.Contents
import SvelteLens.Proofs.Directive.Insertions
import SvelteLens.Proofs.Projection.Wrappers
import SvelteLens.Proofs.Projection.Margins
import SvelteLens.Proofs.Projection.Wrapping
import SvelteLens.Proofs.Service.Confinement
import SvelteLens.Proofs.Text.Words
import SvelteLens.Proofs.Edit.Provenance
import SvelteLens.Proofs.Directive.Naming
import SvelteLens.Proofs.Projection.Helpers
import SvelteLens.Proofs.Directive.Guards
import SvelteLens.Proofs.Projection.Ranges
import SvelteLens.Proofs.Markup.Nesting
import SvelteLens.Proofs.Directive.Scopes
import SvelteLens.Proofs.Projection.Parts
import SvelteLens.Proofs.Projection.Scopes
import SvelteLens.Proofs.Projection.Forests
import SvelteLens.Proofs.Projection.Arrangement
import SvelteLens.Proofs.Edit.Passes
import SvelteLens.Proofs.Directive.Degrading
import SvelteLens.Proofs.Directive.Outputs
import SvelteLens.Proofs.Script.Adapted
import SvelteLens.Proofs.Projection.Scripts
import SvelteLens.Proofs.Projection.Degradation
import SvelteLens.Proofs.Edit.Images
import SvelteLens.Proofs.Script.Entries
import SvelteLens.Proofs.Projection.Declarations
import SvelteLens.Proofs.Edit.Runs
import SvelteLens.Proofs.Script.Spelling
import SvelteLens.Proofs.Script.Within
import SvelteLens.Proofs.Script.Names
import SvelteLens.Proofs.Projection.Identifiers
import SvelteLens.Proofs.Edit.Characters
import SvelteLens.Proofs.Projection.Blanks
import SvelteLens.Proofs.Projection.Separation
import SvelteLens.Proofs.Text.Positions
import SvelteLens.Proofs.Edit.Forward
import SvelteLens.Proofs.Edit.Slices
import SvelteLens.Proofs.Json.Loosening
import SvelteLens.Proofs.Config.Governing
import SvelteLens.Proofs.Config.Declared
import SvelteLens.Proofs.Markup.Formation
import SvelteLens.Proofs.Projection.ClassNames
import SvelteLens.Proofs.Service.Respelling
