import ScriptPress.Text.Quoted
import ScriptPress.Dialect
import ScriptPress.Locale
import ScriptPress.Layout
import ScriptPress.Token.Keyword
import ScriptPress.Diagnostic.Warning
import ScriptPress.Options
import ScriptPress.Token.Gap
import ScriptPress.Token.Literal
import ScriptPress.Token.Lexer
import ScriptPress.CommentRemoval
import ScriptPress.Render.Writer
import ScriptPress.Tree.Builder
import ScriptPress.Tree.Precedence
import ScriptPress.Grammar.State
import ScriptPress.Grammar.Expression
import ScriptPress.Grammar.Script
import ScriptPress.Render.Expression
import ScriptPress.FunctionIndex
import ScriptPress.Session
import ScriptPress.CommandLine.Run
import ScriptPress.Main
import ScriptPress.Proofs.Lexical.Lexeme
import ScriptPress.Proofs.Lexical.Feed
import ScriptPress.Proofs.Lexical.Joining
import ScriptPress.Proofs.Lexical.Next
import ScriptPress.Proofs.Lexical.Words
import ScriptPress.Proofs.Lexical.Writing
import ScriptPress.Proofs.Lexical.StringValue
import ScriptPress.Proofs.Lexical.Tiling
import ScriptPress.Proofs.Shape.Formed
import ScriptPress.Proofs.Shape.Outline
import ScriptPress.Proofs.Shape.Nodes
import ScriptPress.Proofs.Reading.Aside
import ScriptPress.Proofs.Reading.Ensures
import ScriptPress.Proofs.Reading.Passage
import ScriptPress.Proofs.Reading.Expression
import ScriptPress.Proofs.Reading.Statement
import ScriptPress.Proofs.Reading.Script
import ScriptPress.Proofs.Printing.Steps
import ScriptPress.Proofs.Printing.Signs
import ScriptPress.Proofs.Printing.Adjacency
import ScriptPress.Proofs.Printing.Flow
import ScriptPress.Proofs.Jumps.Place
import ScriptPress.Proofs.Printing.Opening
import ScriptPress.Proofs.Insertion.Script
import ScriptPress.Proofs.Printing.Whole
import ScriptPress.Proofs.Functions.Text
import ScriptPress.Proofs.Settings.Script
import ScriptPress.Proofs.Removal.Again
import ScriptPress.Proofs.Rereading.Roundtrip
import ScriptPress.Proofs.Rereading.Expression
import ScriptPress.Proofs.Lists.Edits
import ScriptPress.Proofs.Settings.History
import ScriptPress.Proofs.Dialects.Script
import ScriptPress.Proofs.Dumps.Script
import ScriptPress.Proofs.Lexical.Numbers
import ScriptPress.Proofs.Lexical.LineCount
import ScriptPress.Proofs.Lexical.Delimited
import ScriptPress.Proofs.Scopes.Places
import ScriptPress.Proofs.Scopes.Course
import ScriptPress.Proofs.Scopes.Expression
import ScriptPress.Proofs.Scopes.Statement
import ScriptPress.Proofs.Scopes.Script
import ScriptPress.Proofs.Scopes.Flags
import ScriptPress.Proofs.Locating.Lexer
import ScriptPress.Proofs.Locating.Course
import ScriptPress.Proofs.Locating.Expression
import ScriptPress.Proofs.Locating.Statement
import ScriptPress.Proofs.Locating.Script
import ScriptPress.Proofs.Progress.Lexer
import ScriptPress.Proofs.Progress.Course
import ScriptPress.Proofs.Progress.Expression
import ScriptPress.Proofs.Progress.Statement
import ScriptPress.Proofs.Progress.Script
import ScriptPress.Proofs.Indentation.Level
import ScriptPress.Proofs.Indentation.Lines
import ScriptPress.Proofs.Indentation.Course
import ScriptPress.Proofs.Indentation.Places
import ScriptPress.Proofs.Indentation.Expression
import ScriptPress.Proofs.Indentation.Statement
import ScriptPress.Proofs.Indentation.Script
import ScriptPress.Proofs.Properties.Bags
import ScriptPress.Proofs.Lexical.Shown
import ScriptPress.Proofs.Removal.Untouched
import ScriptPress.Proofs.Effects.Parts
import ScriptPress.Proofs.Effects.Course
import ScriptPress.Proofs.Effects.Expression
import ScriptPress.Proofs.Effects.Statement
import ScriptPress.Proofs.Effects.Script
import ScriptPress.Proofs.Options.Field
import ScriptPress.Proofs.Options.Lines
import ScriptPress.Proofs.Removal.Script
