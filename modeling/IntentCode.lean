import IntentCode.Text.Blank
import IntentCode.Text.Distance
import IntentCode.Text.Lines
import IntentCode.Text.Visible
import IntentCode.Text.Quoted
import IntentCode.Text.Ranking
import IntentCode.Text.Split
import IntentCode.OrderedMap
import IntentCode.Json.Value
import IntentCode.Json.Numeral
import IntentCode.Json.Units
import IntentCode.Json.Reader
import IntentCode.Json.Record
import IntentCode.Json.Writer
import IntentCode.Diagnostic
import IntentCode.Diagnostic.Interchange
import IntentCode.Diagnostic.Queue
import IntentCode.Token
import IntentCode.LogicalLine
import IntentCode.Lexer.Content
import IntentCode.Lexer
import IntentCode.Lexer.Error
import IntentCode.Ast.NodeType
import IntentCode.Ast.Node
import IntentCode.Ast.Table
import IntentCode.Ast.Forest
import IntentCode.Ast.Interchange
import IntentCode.Parser.Cursor
import IntentCode.Parser.Error
import IntentCode.Parser.Finding
import IntentCode.Parser.Header
import IntentCode.Parser
import IntentCode.Format.Emitter
import IntentCode.Format
import IntentCode.Project.Dependencies
import IntentCode.Project.Layout
import IntentCode.Symbol.Path
import IntentCode.Symbol.Tree
import IntentCode.Symbol.Metadata
import IntentCode.Symbol.Declared
import IntentCode.Symbol.Interchange
import IntentCode.Symbol.Store
import IntentCode.Symbol.Visible
import IntentCode.Reference.Import
import IntentCode.Reference
import IntentCode.Constructor
import IntentCode.Check
import IntentCode.Check.Project
import IntentCode.Command.Directory
import IntentCode.Command.UnixPath
import IntentCode.Command.Options
import IntentCode.Command
import IntentCode.Main
import IntentCode.Proofs.Text.Distance
import IntentCode.Proofs.Text.Pieces
import IntentCode.Proofs.Text.Ranking
import IntentCode.Proofs.Text.Segments
import IntentCode.Proofs.Text.Trim
import IntentCode.Proofs.OrderedMap
import IntentCode.Proofs.Json.Numeral
import IntentCode.Proofs.Json.Units
import IntentCode.Proofs.Json.Written
import IntentCode.Proofs.Json.Record
import IntentCode.Proofs.Diagnostic.Queue
import IntentCode.Proofs.Diagnostic.History
import IntentCode.Proofs.Lexer.Content
import IntentCode.Proofs.Lexer.Conservation
import IntentCode.Proofs.Lexer.Folding
import IntentCode.Proofs.Lexer.Places
import IntentCode.Proofs.Lexer.Padding
import IntentCode.Proofs.Lexer.Markers
import IntentCode.Proofs.Lexer.Continuation
import IntentCode.Proofs.Lexer.Levels
import IntentCode.Proofs.Lexer.Indentation
import IntentCode.Proofs.Lexer.Positions
import IntentCode.Proofs.Lexer.Rendering
import IntentCode.Proofs.Lexer.Spelling
import IntentCode.Proofs.Lexer.Weight
import IntentCode.Proofs.Ast.Rows
import IntentCode.Proofs.Ast.Drawing
import IntentCode.Proofs.Ast.Links
import IntentCode.Proofs.Ast.Validation
import IntentCode.Proofs.Ast.Accepted
import IntentCode.Proofs.Ast.Grammar
import IntentCode.Proofs.Ast.Canonical
import IntentCode.Proofs.Ast.Same
import IntentCode.Proofs.Ast.Copy
import IntentCode.Proofs.Ast.Declarations
import IntentCode.Proofs.Ast.Interchange
import IntentCode.Proofs.Ast.Treeness
import IntentCode.Proofs.Parser.Lines
import IntentCode.Proofs.Parser.State
import IntentCode.Proofs.Parser.Header
import IntentCode.Proofs.Parser.Built
import IntentCode.Proofs.Parser.OnLine
import IntentCode.Proofs.Parser.Parentheses
import IntentCode.Proofs.Parser.Written
import IntentCode.Proofs.Parser.Legal
import IntentCode.Proofs.Parser.Tally
import IntentCode.Proofs.Parser.Notes
import IntentCode.Proofs.Parser.Account
import IntentCode.Proofs.Parser.Stream
import IntentCode.Proofs.Parser.Outcome
import IntentCode.Proofs.Parser.Rounds
import IntentCode.Proofs.Parser.Layout
import IntentCode.Proofs.Parser.Printed
import IntentCode.Proofs.Parser.Recovery
import IntentCode.Proofs.Parser.Rebuild
import IntentCode.Proofs.Parser.RoundTrip
import IntentCode.Proofs.Parser.Transfer
import IntentCode.Proofs.Parser.CanonicalBody
import IntentCode.Proofs.Parser.Canonical
import IntentCode.Proofs.Parser.Lost
import IntentCode.Proofs.Parser.Placed
import IntentCode.Proofs.Parser.Fates
import IntentCode.Proofs.Parser.Owners
import IntentCode.Proofs.Parser.Held
import IntentCode.Proofs.Parser.Language
import IntentCode.Proofs.Parser.Nesting
import IntentCode.Proofs.Parser.Redeclared
import IntentCode.Proofs.Parser.Namesakes
import IntentCode.Proofs.Parser.NoteAccount
import IntentCode.Proofs.Parser.Order
import IntentCode.Proofs.Parser.Repair
import IntentCode.Proofs.Parser.Unnumbered
import IntentCode.Proofs.Format.Source
import IntentCode.Proofs.Format.Folding
import IntentCode.Proofs.Format.Listed
import IntentCode.Proofs.Symbol.Path
import IntentCode.Proofs.Symbol.Routes
import IntentCode.Proofs.Symbol.Visible
import IntentCode.Proofs.Symbol.Contents
import IntentCode.Proofs.Symbol.Scopes
import IntentCode.Proofs.Symbol.Declared
import IntentCode.Proofs.Symbol.Ensure
import IntentCode.Proofs.Symbol.FilePath
import IntentCode.Proofs.Symbol.Interchange
import IntentCode.Proofs.Symbol.Unique
import IntentCode.Proofs.Reference.Imported
import IntentCode.Proofs.Reference.Legible
import IntentCode.Proofs.Reference.Candidates
import IntentCode.Proofs.Reference.Monotone
import IntentCode.Proofs.Reference.Suggested
import IntentCode.Proofs.Constructor
import IntentCode.Proofs.Check
import IntentCode.Proofs.Check.Limits
import IntentCode.Proofs.Check.Dependencies
import IntentCode.Proofs.Check.Project
import IntentCode.Proofs.Command.ProjectPath
