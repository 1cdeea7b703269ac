import Xref.Binding.Binder
import Xref.Binding.BoundUnit
import Xref.Binding.Builtins
import Xref.Binding.Compile
import Xref.Binding.Declarations
import Xref.Binding.Types
import Xref.Grammar.CallStack
import Xref.Grammar.Expressions
import Xref.Grammar.Modules
import Xref.Grammar.Production
import Xref.Grammar.Statements
import Xref.Grammar.Types
import Xref.Navigation.Analysis
import Xref.Navigation.Occurrences
import Xref.Navigation.Rename
import Xref.Navigation.Request
import Xref.Navigation.RequestError
import Xref.Navigation.Resolve
import Xref.Project.Documents
import Xref.Project.FilePath
import Xref.Project.Layout
import Xref.Project.Locks
import Xref.Project.ModuleGraph
import Xref.Project.Session
import Xref.Project.Uri
import Xref.Proofs.Binding.AliasChains
import Xref.Proofs.Binding.Aliases
import Xref.Proofs.Binding.Annotations
import Xref.Proofs.Binding.Arising
import Xref.Proofs.Binding.Compiled
import Xref.Proofs.Binding.Introduced
import Xref.Proofs.Binding.LexicalScoping
import Xref.Proofs.Binding.Marks
import Xref.Proofs.Binding.Matching
import Xref.Proofs.Binding.MatchingWalks
import Xref.Proofs.Binding.Mentions
import Xref.Proofs.Binding.Paths
import Xref.Proofs.Binding.Rebinding
import Xref.Proofs.Binding.Reformatting
import Xref.Proofs.Binding.Renaming
import Xref.Proofs.Binding.VisitPaths
import Xref.Proofs.Binding.Visits
import Xref.Proofs.Navigation.Answers
import Xref.Proofs.Navigation.Cursors
import Xref.Proofs.Navigation.Definitions
import Xref.Proofs.Navigation.FileEdits
import Xref.Proofs.Navigation.Finds
import Xref.Proofs.Navigation.Gathering
import Xref.Proofs.Navigation.Hovers
import Xref.Proofs.Navigation.Isolation
import Xref.Proofs.Navigation.KeptSyntax
import Xref.Proofs.Navigation.Orders
import Xref.Proofs.Navigation.Overlaps
import Xref.Proofs.Navigation.References
import Xref.Proofs.Navigation.Renames
import Xref.Proofs.Navigation.Requests
import Xref.Proofs.Navigation.RoundTrips
import Xref.Proofs.Navigation.Searches
import Xref.Proofs.Navigation.Symmetry
import Xref.Proofs.Navigation.Walks
import Xref.Proofs.Project.Addresses
import Xref.Proofs.Project.Edits
import Xref.Proofs.Project.Graphs
import Xref.Proofs.Project.Insertions
import Xref.Proofs.Project.Layouts
import Xref.Proofs.Project.Projects
import Xref.Proofs.Project.Sessions
import Xref.Proofs.Project.WorkspaceEdits
import Xref.Proofs.Syntax.Bounds
import Xref.Proofs.Syntax.Building
import Xref.Proofs.Syntax.Checkpoints
import Xref.Proofs.Syntax.Instructions
import Xref.Proofs.Syntax.Language
import Xref.Proofs.Syntax.Lexing
import Xref.Proofs.Syntax.Likeness
import Xref.Proofs.Syntax.Locating
import Xref.Proofs.Syntax.Lossless
import Xref.Proofs.Syntax.Nesting
import Xref.Proofs.Syntax.Nodes
import Xref.Proofs.Syntax.Notes
import Xref.Proofs.Syntax.OperatorTrees
import Xref.Proofs.Syntax.Parsing
import Xref.Proofs.Syntax.Placement
import Xref.Proofs.Syntax.Precedence
import Xref.Proofs.Syntax.Reformatting
import Xref.Proofs.Syntax.Replacing
import Xref.Proofs.Syntax.Respelling
import Xref.Proofs.Syntax.Rewording
import Xref.Proofs.Syntax.Scanning
import Xref.Proofs.Syntax.Spans
import Xref.Proofs.Syntax.StaleCheckpoints
import Xref.Proofs.Syntax.Traversals
import Xref.Proofs.Text.Bytes
import Xref.Proofs.Text.ChangeSets
import Xref.Proofs.Text.Columns
import Xref.Proofs.Text.Lines
import Xref.Proofs.Text.Overhangs
import Xref.Proofs.Text.Splices
import Xref.Symbol.Symbol
import Xref.Symbol.WordHash
import Xref.Syntax.Builder
import Xref.Syntax.Kind
import Xref.Syntax.Lexeme
import Xref.Syntax.Locate
import Xref.Syntax.Phrase
import Xref.Syntax.Print
import Xref.Syntax.Scan
import Xref.Syntax.Tree
import Xref.Syntax.Walk
import Xref.Text.Blank
import Xref.Text.ChangeSet
import Xref.Text.Hidden
import Xref.Text.LineIndex
import Xref.Text.Quoted
import Xref.Text.Span
import Xref.Text.Units
import Xref.Text.Utf8
import Xref.Workspace
