import ModuleGraph.Path.Basic
import ModuleGraph.Path.Clean
import ModuleGraph.Path.Relative
import ModuleGraph.Path.Map
import ModuleGraph.Facts
import ModuleGraph.Json.Decimal
import ModuleGraph.Json.Document
import ModuleGraph.Json.Value
import ModuleGraph.Json.Decode
import ModuleGraph.Options
import ModuleGraph.Graph
import ModuleGraph.Error
import ModuleGraph.Glob.Pattern
import ModuleGraph.Glob.Regex
import ModuleGraph.Glob.Match
import ModuleGraph.Exclude
import ModuleGraph.Source.Letters
import ModuleGraph.Source.Character
import ModuleGraph.Source.Token
import ModuleGraph.Source.Lexer
import ModuleGraph.Source.Tree
import ModuleGraph.Source.Parser.Basic
import ModuleGraph.Source.Parser.Types
import ModuleGraph.Source.Parser.Patterns
import ModuleGraph.Source.Parser.Functions
import ModuleGraph.Source.Parser.Classes
import ModuleGraph.Source.Parser.Jsx
import ModuleGraph.Source.Parser.Expressions
import ModuleGraph.Source.Parser.Declarations
import ModuleGraph.Source.Parser.Modules
import ModuleGraph.Source.Parser.Statements
import ModuleGraph.Source.Parser.Program
import ModuleGraph.Source.Extract
import ModuleGraph.Source.Parse
import ModuleGraph.Walk.Inspect
import ModuleGraph.Walk.State
import ModuleGraph.Walk.Run
import ModuleGraph.Disk.Node
import ModuleGraph.Disk.Basic
import ModuleGraph.Lines
import ModuleGraph.Ignore.Rule
import ModuleGraph.Ignore.Layer
import ModuleGraph.Ignore.Listing
import ModuleGraph.Entries
import ModuleGraph.Aliases
import ModuleGraph.Resolve.Error
import ModuleGraph.Resolve.Specifier
import ModuleGraph.Resolve.Builtin
import ModuleGraph.Resolve.Basic
import ModuleGraph.Resolve.Alias
import ModuleGraph.Resolve.Package
import ModuleGraph.Resolve.Files
import ModuleGraph.Resolve.Exports
import ModuleGraph.Resolve.Run
import ModuleGraph.Project
import ModuleGraph.CommandLine.Arguments
import ModuleGraph.CommandLine.Run
import ModuleGraph.CommandLine.Lookups
import ModuleGraph.Main
import ModuleGraph.Proofs.Path.Order
import ModuleGraph.Proofs.Path.Components
import ModuleGraph.Proofs.Path.Clean
import ModuleGraph.Proofs.Path.Relative
import ModuleGraph.Proofs.Path.Map
import ModuleGraph.Proofs.Exclude
import ModuleGraph.Proofs.Names
import ModuleGraph.Proofs.Facts
import ModuleGraph.Proofs.Walk.Inspect
import ModuleGraph.Proofs.Walk.Search
import ModuleGraph.Proofs.Walk.Turns
import ModuleGraph.Proofs.Walk.Closure
import ModuleGraph.Proofs.Walk.Reachability
import ModuleGraph.Proofs.Walk.Merge
import ModuleGraph.Proofs.Walk.DepthFirst
import ModuleGraph.Proofs.Walk.Consistency
import ModuleGraph.Proofs.Walk.Termination
import ModuleGraph.Proofs.Walk.Pruning
import ModuleGraph.Proofs.Walk.Failure
import ModuleGraph.Proofs.Walk.Entries
import ModuleGraph.Proofs.Walk.Isolation
import ModuleGraph.Proofs.Walk.Locality
import ModuleGraph.Proofs.Walk.Narrowing
import ModuleGraph.Proofs.Walk.Libraries
import ModuleGraph.Proofs.Walk.Scripts
import ModuleGraph.Proofs.Json.Lexemes
import ModuleGraph.Proofs.Json.Grammar
import ModuleGraph.Proofs.Json.Reading
import ModuleGraph.Proofs.Json.Writing
import ModuleGraph.Proofs.Graph
import ModuleGraph.Proofs.Json.Layout
import ModuleGraph.Proofs.Aliases
import ModuleGraph.Proofs.Path.Rooted
import ModuleGraph.Proofs.Glob.Leaves
import ModuleGraph.Proofs.Glob.Nesting
import ModuleGraph.Proofs.Walk.Endless
import ModuleGraph.Proofs.Walk.ExcludedEntries
import ModuleGraph.Proofs.Glob.Reading
import ModuleGraph.Proofs.Glob.Segments
import ModuleGraph.Proofs.Anchor
import ModuleGraph.Proofs.Glob.Literal
import ModuleGraph.Proofs.BaseDirectory
import ModuleGraph.Proofs.Table
import ModuleGraph.Proofs.AliasTable
import ModuleGraph.Proofs.Disk.Locate
import ModuleGraph.Proofs.Disk.Listing
import ModuleGraph.Proofs.Entries
import ModuleGraph.Proofs.Bindings
import ModuleGraph.Proofs.Path.RoundTrip
import ModuleGraph.Proofs.Path.Ancestors
import ModuleGraph.Proofs.Erasure
import ModuleGraph.Proofs.RuntimeNames
import ModuleGraph.Proofs.Composition
import ModuleGraph.Proofs.SegmentGlobs
import ModuleGraph.Proofs.Disk.Rearranged
import ModuleGraph.Proofs.Collection
import ModuleGraph.Proofs.ImportSteps
import ModuleGraph.Proofs.Path.Entry
import ModuleGraph.Proofs.Path.Parent
import ModuleGraph.Proofs.AliasTargets
import ModuleGraph.Proofs.Json.Records
import ModuleGraph.Proofs.Json.Spacing
import ModuleGraph.Proofs.Options
