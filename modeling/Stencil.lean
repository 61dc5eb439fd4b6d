import Stencil.Text.CharClass
import Stencil.Text.DecimalDigit
import Stencil.Text.WhiteSpace
import Stencil.Text.Bytes
import Stencil.Text.Naming
import Stencil.Source.Diagnostic
import Stencil.Token.Lexer
import Stencil.Json.Printer
import Stencil.Json.Reader
import Stencil.TypeRef.Parser
import Stencil.Expr.Printer
import Stencil.Expr.Grammar
import Stencil.Markup.Piece
import Stencil.Markup.Tree
import Stencil.Table
import Stencil.Context.Basic
import Stencil.Binding
import Stencil.Loop
import Stencil.Log
import Stencil.Resolution
import Stencil.Settings.Basic
import Stencil.Markup.Marker
import Stencil.Output.Compiled
import Stencil.Output.Edit
import Stencil.Output.Json
import Stencil.Compile.Element
import Stencil.Compile.Template
import Stencil.Context.Json
import Stencil.Settings.Json
import Stencil.File.Path
import Stencil.File.System
import Stencil.File.Tree
import Stencil.Glob.Expand
import Stencil.Project.Discovery
import Stencil.Project.OutputFile
import Stencil.Project.Run
import Stencil.Main
import Stencil.Proofs.Basic
import Stencil.Proofs.Source.Held
import Stencil.Proofs.Source.Diagnostic
import Stencil.Proofs.Output.Rewriting
import Stencil.Proofs.Markup.Layout
import Stencil.Proofs.Markup.Pieces
import Stencil.Proofs.Markup.Harvest
import Stencil.Proofs.Markup.Partition
import Stencil.Proofs.Markup.TextSpan
import Stencil.Proofs.Markup.Problem
import Stencil.Proofs.Markup.Region
import Stencil.Proofs.Markup.RoundTrip
import Stencil.Proofs.Text.LowerCase
import Stencil.Proofs.Token.Reading
import Stencil.Proofs.Token.NumberText
import Stencil.Proofs.Token.Spelling
import Stencil.Proofs.Token.Written
import Stencil.Proofs.Token.Cursor
import Stencil.Proofs.TypeRef.Derivation
import Stencil.Proofs.TypeRef.Reading
import Stencil.Proofs.TypeRef.Written
import Stencil.Proofs.TypeRef.Writable
import Stencil.Proofs.Expr.Level
import Stencil.Proofs.Expr.Part
import Stencil.Proofs.Expr.Derivation
import Stencil.Proofs.Expr.Soundness
import Stencil.Proofs.Expr.Grip
import Stencil.Proofs.Expr.Parenthesis
import Stencil.Proofs.Expr.Completeness
import Stencil.Proofs.Expr.Written
import Stencil.Proofs.Expr.Spacing
import Stencil.Proofs.Expr.Spelled
import Stencil.Proofs.Expr.RoundTrip
import Stencil.Proofs.Expr.Yield
import Stencil.Proofs.Expr.WellFormed
import Stencil.Proofs.Compile.Site
import Stencil.Proofs.Compile.Visit
import Stencil.Proofs.Compile.Walk
import Stencil.Proofs.Compile.Place
import Stencil.Proofs.Compile.Template
import Stencil.Proofs.Compile.ReturnType
import Stencil.Proofs.Compile.Environment
import Stencil.Proofs.Compile.Afterwards
import Stencil.Proofs.Compile.Record
import Stencil.Proofs.Context.PassThrough
import Stencil.Proofs.Context.Closed
import Stencil.Proofs.Compile.Argument
import Stencil.Proofs.Compile.Reread
import Stencil.Proofs.Compile.RegionStop
import Stencil.Proofs.Compile.Interpolation
import Stencil.Proofs.Compile.Optimization
import Stencil.Proofs.Text.Trim
import Stencil.Proofs.Token.Front
import Stencil.Proofs.TypeRef.RoundTrip
import Stencil.Proofs.Expr.Shift
import Stencil.Proofs.Expr.Enclosed
import Stencil.Proofs.Expr.LeadingCast
import Stencil.Proofs.Source.Slicing
import Stencil.Proofs.Markup.Scan
import Stencil.Proofs.Markup.Scanned
import Stencil.Proofs.Markup.TreeSpan
import Stencil.Proofs.Compile.Bounds
import Stencil.Proofs.Token.QuotedBody
import Stencil.Proofs.Token.Coverage
import Stencil.Proofs.Token.NumberForm
import Stencil.Proofs.Expr.Nesting
import Stencil.Proofs.Output.Outermost
import Stencil.Proofs.Loop.Division
import Stencil.Proofs.Loop.Reference
import Stencil.Proofs.Loop.Iterable
import Stencil.Proofs.Loop.TypeText
import Stencil.Proofs.Loop.Spelled
import Stencil.Proofs.Text.Split
import Stencil.Proofs.Context.Child
import Stencil.Proofs.File.Reading
import Stencil.Proofs.File.Path
import Stencil.Proofs.Project.Discovery
import Stencil.Proofs.Project.OutputFile
import Stencil.Proofs.Markup.RawBody
import Stencil.Proofs.Source.Line
import Stencil.Proofs.Source.Window
import Stencil.Proofs.Context.Qualified
import Stencil.Proofs.Context.PassedProp
import Stencil.Proofs.Compile.MissingProps
