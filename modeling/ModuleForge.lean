import ModuleForge.Grammar.Skip
import ModuleForge.Program
import ModuleForge.Text.Visible
import ModuleForge.Token.Lexer
import ModuleForge.Grammar.Binding
import ModuleForge.Grammar.Item
import ModuleForge.Grammar.Module
import ModuleForge.CommonJs.Printer
import ModuleForge.CommonJs.Lowering
import ModuleForge.Dependency
import ModuleForge.Scan
import ModuleForge.Decimal.Double
import ModuleForge.Decimal.Shortest
import ModuleForge.Json
import ModuleForge.Json.Printer
import ModuleForge.Json.Reader
import ModuleForge.Dictionary
import ModuleForge.Json.Decode
import ModuleForge.Task
import ModuleForge.Task.Transform
import ModuleForge.Task.Wire
import ModuleForge.Worker.Pool
import ModuleForge.Worker.Schedule
import ModuleForge.Transpile
import ModuleForge.Package.Range
import ModuleForge.Package.Address
import ModuleForge.Package.Fetch
import ModuleForge.Toml
import ModuleForge.Toml.Document
import ModuleForge.Project.Config
import ModuleForge.Project.Description
import ModuleForge.Project.Build
import ModuleForge.Command.Arguments
import ModuleForge.Command.Host
import ModuleForge.Command.Outline
import ModuleForge.Command.Run
import ModuleForge.Main
import ModuleForge.Proofs.Arena
import ModuleForge.Proofs.Attempts
import ModuleForge.Proofs.Translation
import ModuleForge.Proofs.Boundary
import ModuleForge.Proofs.Punctuators
import ModuleForge.Proofs.Cursor
import ModuleForge.Proofs.Forward
import ModuleForge.Proofs.Items
import ModuleForge.Proofs.Coverage
import ModuleForge.Proofs.Tiling
import ModuleForge.Proofs.KeptSource
import ModuleForge.Proofs.Lowered
import ModuleForge.Proofs.FreshNames
import ModuleForge.Proofs.NewBindings
import ModuleForge.Proofs.Gaps
import ModuleForge.Proofs.Loops
import ModuleForge.Proofs.Nesting
import ModuleForge.Proofs.Lossless
import ModuleForge.Proofs.Rounds
import ModuleForge.Proofs.Slices
import ModuleForge.Proofs.Safety
import ModuleForge.Proofs.Lexemes
import ModuleForge.Proofs.Generated
import ModuleForge.Proofs.PlainNames
import ModuleForge.Proofs.ReadBack
import ModuleForge.Proofs.Reported
import ModuleForge.Proofs.CacheHistory
import ModuleForge.Proofs.QuickLook
import ModuleForge.Proofs.PassedOn
import ModuleForge.Proofs.Lookahead
import ModuleForge.Proofs.Relex
import ModuleForge.Proofs.Passages
import ModuleForge.Proofs.ItemShapes
import ModuleForge.Proofs.Course
import ModuleForge.Proofs.Insertions
import ModuleForge.Proofs.Excerpts
import ModuleForge.Proofs.Rereading
import ModuleForge.Proofs.Weaving
import ModuleForge.Proofs.Woven
import ModuleForge.Proofs.Steady
import ModuleForge.Proofs.SoundOutput
import ModuleForge.Proofs.Idempotence
import ModuleForge.Proofs.Addresses
import ModuleForge.Proofs.Dispatch
import ModuleForge.Proofs.Accounting
import ModuleForge.Proofs.Waking
import ModuleForge.Proofs.Delivery
import ModuleForge.Proofs.Exhaustion
import ModuleForge.Proofs.Reachability
import ModuleForge.Proofs.Redirection
import ModuleForge.Proofs.WireFormat
import ModuleForge.Proofs.Ordering
import ModuleForge.Proofs.Candidates
import ModuleForge.Proofs.Polling
import ModuleForge.Proofs.Matched
import ModuleForge.Proofs.Destructuring
import ModuleForge.Proofs.OpenBrackets
import ModuleForge.Proofs.ExportedTargets
import ModuleForge.Proofs.PatternDefaults
import ModuleForge.Proofs.LineBreaks
import ModuleForge.Proofs.Pins
import ModuleForge.Proofs.Clauses
import ModuleForge.Proofs.ExactItems
import ModuleForge.Proofs.Precedence
import ModuleForge.Proofs.Comparators
import ModuleForge.Proofs.Layouts
import ModuleForge.Proofs.Histories
import ModuleForge.Proofs.ErrorOrder
import ModuleForge.Proofs.ByteOrder
import ModuleForge.Proofs.CanonicalPaths
import ModuleForge.Proofs.Containment
import ModuleForge.Proofs.Groups
import ModuleForge.Proofs.BracketDepth
