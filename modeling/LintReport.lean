import LintReport.Analyzer
import LintReport.Command
import LintReport.Command.Arguments
import LintReport.Command.Output
import LintReport.Companion
import LintReport.Configuration
import LintReport.Configuration.Layers
import LintReport.Diagnostic
import LintReport.Diagnostic.Map
import LintReport.Disk
import LintReport.Disk.Node
import LintReport.Document
import LintReport.Document.Cache
import LintReport.Fallback
import LintReport.Host
import LintReport.Invocation
import LintReport.Json
import LintReport.Json.Fields
import LintReport.Json.Parse
import LintReport.Json.Sorted
import LintReport.Json.Token
import LintReport.Main
import LintReport.Output.Block
import LintReport.Output.Finding
import LintReport.Output.Message
import LintReport.Path
import LintReport.Path.Map
import LintReport.Path.Normal
import LintReport.PathPolicy
import LintReport.Position
import LintReport.Position.LineIndex
import LintReport.Profile
import LintReport.Replacement
import LintReport.Replacement.Token
import LintReport.Report
import LintReport.Severity
import LintReport.Text.Blank
import LintReport.Text.Decimal
import LintReport.Text.Floating
import LintReport.Text.Lines
import LintReport.Text.Search
import LintReport.Text.Utf8
import LintReport.Toml.Document
import LintReport.Toml.Item
import LintReport.Toml.Scalar
import LintReport.Toml.Token
import LintReport.Toml.Value
import LintReport.Uri
import LintReport.Uri.Host
import LintReport.Uri.Percent
import LintReport.Workspace
import LintReport.Yaml.Document
import LintReport.Yaml.Kind
import LintReport.Yaml.Lexer
import LintReport.Yaml.Node
import LintReport.Yaml.Scalar
import LintReport.Yaml.Tag
import LintReport.Yaml.Token
import LintReport.Proofs.Analyzer.Report
import LintReport.Proofs.Analyzer.Session
import LintReport.Proofs.Command.Concluded
import LintReport.Proofs.Command.Prepared
import LintReport.Proofs.Command.Printed
import LintReport.Proofs.Command.Record
import LintReport.Proofs.Companion.Expanded
import LintReport.Proofs.Companion.Includes
import LintReport.Proofs.Configuration.Alone
import LintReport.Proofs.Configuration.Field
import LintReport.Proofs.Configuration.Layers
import LintReport.Proofs.Configuration.Setting
import LintReport.Proofs.Diagnostic.Displayed
import LintReport.Proofs.Diagnostic.Fix
import LintReport.Proofs.Diagnostic.Map
import LintReport.Proofs.Diagnostic.Steps
import LintReport.Proofs.Disk.Folded
import LintReport.Proofs.Disk.Folders
import LintReport.Proofs.Disk.Leads
import LintReport.Proofs.Disk.Listing
import LintReport.Proofs.Disk.Walk
import LintReport.Proofs.Document.Cache
import LintReport.Proofs.Document.Lookup
import LintReport.Proofs.Document.Named
import LintReport.Proofs.Fallback.Again
import LintReport.Proofs.Fallback.Associations
import LintReport.Proofs.Fallback.Course
import LintReport.Proofs.Fallback.Learned
import LintReport.Proofs.Fallback.Retry
import LintReport.Proofs.Invocation.Arguments
import LintReport.Proofs.Json.Fields
import LintReport.Proofs.Json.Line
import LintReport.Proofs.Json.Parse
import LintReport.Proofs.Json.Token
import LintReport.Proofs.MapM
import LintReport.Proofs.Output.Block
import LintReport.Proofs.Output.Delimited
import LintReport.Proofs.Output.Export
import LintReport.Proofs.Output.Finding
import LintReport.Proofs.Output.Header
import LintReport.Proofs.Output.Message
import LintReport.Proofs.Output.Returns
import LintReport.Proofs.Path.Absolute
import LintReport.Proofs.Path.Anchored
import LintReport.Proofs.Path.Descend
import LintReport.Proofs.Path.Extension
import LintReport.Proofs.Path.Front
import LintReport.Proofs.Path.Grouped
import LintReport.Proofs.Path.Map
import LintReport.Proofs.Path.Normal
import LintReport.Proofs.Path.Order
import LintReport.Proofs.Path.Policy
import LintReport.Proofs.Path.Shown
import LintReport.Proofs.Path.Walk
import LintReport.Proofs.Position.Bounds
import LintReport.Proofs.Position.Cursor
import LintReport.Proofs.Position.Edit
import LintReport.Proofs.Position.LineIndex
import LintReport.Proofs.Position.Ordered
import LintReport.Proofs.Position.Terminator
import LintReport.Proofs.Replacement.Edits
import LintReport.Proofs.Replacement.Token
import LintReport.Proofs.Report.Anew
import LintReport.Proofs.Report.Collate
import LintReport.Proofs.Report.Columns
import LintReport.Proofs.Report.Merged
import LintReport.Proofs.Report.Policy
import LintReport.Proofs.Report.Ranges
import LintReport.Proofs.Text.Break
import LintReport.Proofs.Text.Decimal
import LintReport.Proofs.Text.Lines
import LintReport.Proofs.Text.Lossy
import LintReport.Proofs.Text.Offset
import LintReport.Proofs.Text.Passes
import LintReport.Proofs.Text.Replace
import LintReport.Proofs.Text.Strict
import LintReport.Proofs.Text.Utf8
import LintReport.Proofs.Workspace.Meant
import LintReport.Proofs.Workspace.Substitute
import LintReport.Proofs.Yaml.Kind
import LintReport.Proofs.Yaml.Lexer
import LintReport.Proofs.Yaml.Node
import LintReport.Proofs.Yaml.Scalar
import LintReport.Proofs.Yaml.Stream
import LintReport.Proofs.Yaml.Written
