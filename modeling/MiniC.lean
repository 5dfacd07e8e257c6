import MiniC.Command.FileTree
import MiniC.Command.Flag
import MiniC.Command.Host
import MiniC.Command.Run
import MiniC.Command.Settings
import MiniC.Compilation
import MiniC.Grammar.Declarator
import MiniC.Grammar.Expression
import MiniC.Grammar.Parser
import MiniC.Grammar.Program
import MiniC.Grammar.Statement
import MiniC.Macro.Clock
import MiniC.Macro.Directive
import MiniC.Macro.Error
import MiniC.Macro.Expander
import MiniC.Macro.Expansion
import MiniC.Macro.Preprocessing
import MiniC.Macro.Table
import MiniC.Macro.Token
import MiniC.Main
import MiniC.Number.Binary64
import MiniC.Number.Numeral
import MiniC.Number.Shortest
import MiniC.Proofs.Compilation.Comment
import MiniC.Proofs.Compilation.GlobalVariables
import MiniC.Proofs.Compilation.Stages
import MiniC.Proofs.Compilation.WorkbenchHistory
import MiniC.Proofs.Grammar.CharacterConstant
import MiniC.Proofs.Grammar.Climbing
import MiniC.Proofs.Grammar.Concatenation
import MiniC.Proofs.Grammar.Contract.Definition
import MiniC.Proofs.Grammar.Contract.Expression
import MiniC.Proofs.Grammar.Contract.Rules
import MiniC.Proofs.Grammar.Declarator
import MiniC.Proofs.Grammar.DeclaratorRoundTrip
import MiniC.Proofs.Grammar.GlobalVariable
import MiniC.Proofs.Grammar.LineMarker
import MiniC.Proofs.Grammar.Lockstep.Definition
import MiniC.Proofs.Grammar.Lockstep.Expression
import MiniC.Proofs.Grammar.Lockstep.Rules
import MiniC.Proofs.Grammar.Operand
import MiniC.Proofs.Grammar.Precedence
import MiniC.Proofs.Grammar.PrintedShape
import MiniC.Proofs.Grammar.Progress
import MiniC.Proofs.Grammar.Reading
import MiniC.Proofs.Grammar.RoundTrip
import MiniC.Proofs.Grammar.Run
import MiniC.Proofs.Grammar.Scoping
import MiniC.Proofs.Grammar.TypeStart
import MiniC.Proofs.Grammar.Unprinting.Expression
import MiniC.Proofs.Grammar.Unprinting.Reader
import MiniC.Proofs.Grammar.Unprinting.Type
import MiniC.Proofs.Grammar.UnusedType
import MiniC.Proofs.Macro.AppendedComment
import MiniC.Proofs.Macro.ExpanderHistory
import MiniC.Proofs.Macro.Expansion
import MiniC.Proofs.Macro.JoinedComment
import MiniC.Proofs.Macro.Junction
import MiniC.Proofs.Macro.LineByLine
import MiniC.Proofs.Macro.Nesting
import MiniC.Proofs.Macro.OptionTable
import MiniC.Proofs.Macro.Partition
import MiniC.Proofs.Macro.Spelling
import MiniC.Proofs.Macro.Verbatim
import MiniC.Proofs.Number.Exact
import MiniC.Proofs.Number.Numeral
import MiniC.Proofs.Number.Rounding
import MiniC.Proofs.Number.Shortest
import MiniC.Proofs.Scan.BlankText
import MiniC.Proofs.Scan.CommentText
import MiniC.Proofs.Scan.Escaping
import MiniC.Proofs.Scan.Extension
import MiniC.Proofs.Scan.Local
import MiniC.Proofs.Scan.Lookahead
import MiniC.Proofs.Scan.MarkerText
import MiniC.Proofs.Scan.Placing
import MiniC.Proofs.Scan.PrintedNumber
import MiniC.Proofs.Scan.PrintedString
import MiniC.Proofs.Scan.Seam
import MiniC.Proofs.Scan.Skip
import MiniC.Proofs.Scan.StringLiteral
import MiniC.Proofs.Scan.Tracking
import MiniC.Proofs.Scan.Trailing
import MiniC.Proofs.Source.AppendedLine
import MiniC.Proofs.Source.Passes
import MiniC.Proofs.Source.Splicing
import MiniC.Proofs.Source.Trigraph
import MiniC.Proofs.Storage.Acceptance
import MiniC.Proofs.Storage.Encoding
import MiniC.Proofs.Storage.Initialization
import MiniC.Proofs.Storage.Sequential
import MiniC.Proofs.Storage.StoredValue
import MiniC.Proofs.Storage.TypeWords
import MiniC.Proofs.Syntax.BaseTypes
import MiniC.Proofs.Syntax.Formed
import MiniC.Proofs.Syntax.Grouping
import MiniC.Proofs.Syntax.Legible
import MiniC.Proofs.Syntax.OutlineReading
import MiniC.Proofs.Syntax.Relocate
import MiniC.Proofs.Syntax.Vocabulary
import MiniC.Proofs.Syntax.VocabularyHistory
import MiniC.Proofs.Syntax.WordSet
import MiniC.Proofs.Text.ByteClass
import MiniC.Proofs.Text.Gather
import MiniC.Proofs.Text.Pieces
import MiniC.Proofs.Text.Quoted
import MiniC.Proofs.Text.Unquoted
import MiniC.Proofs.Text.Utf8
import MiniC.Scan.Blank
import MiniC.Scan.Cursor
import MiniC.Scan.Lexeme
import MiniC.Scan.Scanner
import MiniC.Source.LogicalLine
import MiniC.Source.Position
import MiniC.Source.Trigraph
import MiniC.Storage.Error
import MiniC.Storage.Image
import MiniC.Storage.IntType
import MiniC.Storage.Layout
import MiniC.Storage.Listing
import MiniC.Syntax.Operator
import MiniC.Syntax.Outline
import MiniC.Syntax.Printer
import MiniC.Syntax.Tree
import MiniC.Syntax.Vocabulary
import MiniC.Text.Base64
import MiniC.Text.ByteClass
import MiniC.Text.Bytes
import MiniC.Text.Printable
import MiniC.Text.Quoted
import MiniC.Text.Utf8
import MiniC.Workbench
import MiniC.Yaml.Block
import MiniC.Yaml.Implicit
import MiniC.Yaml.Scalar
import MiniC.Yaml.Timestamp
