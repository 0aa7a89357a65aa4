import Presage.Text.Bytes
import Presage.Text.Lines
import Presage.Text.Blank
import Presage.Text.Integer
import Presage.Bindings
import Presage.Source.Position
import Presage.Source.Basic
import Presage.Source.Excerpt
import Presage.Diagnostic
import Presage.Token.Basic
import Presage.Token.Lexeme
import Presage.Token.Scan
import Presage.Node.Basic
import Presage.Node.Outline
import Presage.Node.Grammar
import Presage.Node.Cursor
import Presage.Node.Expression
import Presage.Node.Statement
import Presage.Ty
import Presage.Program.Basic
import Presage.Program.Same
import Presage.Program.Context
import Presage.Program.Analysis
import Presage.Program.Bodies
import Presage.Program.Fold
import Presage.Program.Trace
import Presage.Text.Listing
import Presage.Program.Listing
import Presage.Script.Basic
import Presage.Script.Quote
import Presage.Script.Render
import Presage.Script.Emitter
import Presage.Script.Writer
import Presage.Compile
import Presage.CommandLine
import Presage.Main
import Presage.Proofs.Outcomes
import Presage.Proofs.Values
import Presage.Proofs.Folding
import Presage.Proofs.Writing
import Presage.Proofs.Evaluation
import Presage.Proofs.Inversion
import Presage.Proofs.Walks
import Presage.Proofs.Uses
import Presage.Proofs.Scoping
import Presage.Proofs.Emission
import Presage.Proofs.FreshNames
import Presage.Proofs.Occurrences
import Presage.Proofs.Levels
import Presage.Proofs.Resolution
import Presage.Proofs.Phrases
import Presage.Proofs.Readers
import Presage.Proofs.ExpressionReading
import Presage.Proofs.StatementReading
import Presage.Proofs.Spelling
import Presage.Proofs.LineTables
import Presage.Proofs.Tiling
import Presage.Proofs.Typing
import Presage.Proofs.Identity
import Presage.Proofs.NewNames
import Presage.Proofs.ReaderFailures
import Presage.Proofs.TreeShapes
import Presage.Proofs.Diagnostics
import Presage.Proofs.Spans
import Presage.Proofs.Shifting
import Presage.Proofs.Reanalysis
import Presage.Proofs.Joining
import Presage.Proofs.Calls
import Presage.Proofs.Arguments
import Presage.Proofs.Defaults
import Presage.Proofs.Redeclaration
import Presage.Proofs.Lockstep
import Presage.Proofs.Placement
import Presage.Proofs.Rounding
import Presage.Proofs.Assignability
import Presage.Proofs.Places
import Presage.Proofs.ReadingInStep
import Presage.Proofs.Layout
import Presage.Proofs.Progress
import Presage.Proofs.FunctionBodies
import Presage.Proofs.NormalForms
import Presage.Proofs.FoldedTypes
import Presage.Proofs.Generators
import Presage.Proofs.LoopBounds
import Presage.Proofs.FoldedScripts
import Presage.Proofs.Quoting
import Presage.Proofs.StringLiterals
import Presage.Proofs.Legibility
import Presage.Proofs.UniqueReading
import Presage.Proofs.LineStructure
import Presage.Proofs.Positions
import Presage.Proofs.Excerpts
import Presage.Proofs.Respacing
import Presage.Proofs.Framing
import Presage.Proofs.Descriptions
import Presage.Proofs.Mismatches
import Presage.Proofs.Outlines
