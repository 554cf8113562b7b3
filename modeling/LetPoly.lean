import LetPoly.CommandLine.Flag
import LetPoly.CommandLine.Invocation
import LetPoly.CommandLine.Run
import LetPoly.Dependency
import LetPoly.Expr.Basic
import LetPoly.Expr.Dump
import LetPoly.Expr.Placement
import LetPoly.Expr.Printer
import LetPoly.Expr.Reader
import LetPoly.Failure
import LetPoly.FileFault
import LetPoly.Graph
import LetPoly.Infer.Constraints
import LetPoly.Infer.Context
import LetPoly.Infer.Supply
import LetPoly.Infer.TypeEnv
import LetPoly.Main
import LetPoly.Op
import LetPoly.Pat.Basic
import LetPoly.Pat.Reader
import LetPoly.Proofs.Assignment
import LetPoly.Proofs.CanonicalForms
import LetPoly.Proofs.Compilation
import LetPoly.Proofs.Complaints
import LetPoly.Proofs.Continuation
import LetPoly.Proofs.DependencyGraph
import LetPoly.Proofs.DepthFirst
import LetPoly.Proofs.Derivation
import LetPoly.Proofs.DisplayedTypes
import LetPoly.Proofs.EquationOrder
import LetPoly.Proofs.Evaluation
import LetPoly.Proofs.Finishing
import LetPoly.Proofs.FreeNames
import LetPoly.Proofs.FreeVariables
import LetPoly.Proofs.Freshness
import LetPoly.Proofs.Generalization
import LetPoly.Proofs.Generation
import LetPoly.Proofs.Grammar
import LetPoly.Proofs.Instantiation
import LetPoly.Proofs.Irrelevance
import LetPoly.Proofs.LetterNames
import LetPoly.Proofs.Lexing
import LetPoly.Proofs.Lines
import LetPoly.Proofs.Matching
import LetPoly.Proofs.Numbering
import LetPoly.Proofs.Parsing
import LetPoly.Proofs.PatternBinding
import LetPoly.Proofs.Permutation
import LetPoly.Proofs.Phrases
import LetPoly.Proofs.PrincipalTypes
import LetPoly.Proofs.PrintedNumbers
import LetPoly.Proofs.Printing
import LetPoly.Proofs.Pruning
import LetPoly.Proofs.QuotedTexts
import LetPoly.Proofs.ReaderProgress
import LetPoly.Proofs.Reading
import LetPoly.Proofs.References
import LetPoly.Proofs.Renaming
import LetPoly.Proofs.Reset
import LetPoly.Proofs.RoundTrip
import LetPoly.Proofs.Runes
import LetPoly.Proofs.Runs
import LetPoly.Proofs.Schemes
import LetPoly.Proofs.Scope
import LetPoly.Proofs.ScopeAgreement
import LetPoly.Proofs.ScriptGlobals
import LetPoly.Proofs.ScriptGrammar
import LetPoly.Proofs.ScriptLexing
import LetPoly.Proofs.ScriptNames
import LetPoly.Proofs.ScriptPhrases
import LetPoly.Proofs.ScriptStrings
import LetPoly.Proofs.ScriptWords
import LetPoly.Proofs.SessionNames
import LetPoly.Proofs.SessionTypes
import LetPoly.Proofs.Sessions
import LetPoly.Proofs.Shape
import LetPoly.Proofs.SignedNumbers
import LetPoly.Proofs.Soundness
import LetPoly.Proofs.Stopping
import LetPoly.Proofs.Termination
import LetPoly.Proofs.TokenSpans
import LetPoly.Proofs.TotalReaders
import LetPoly.Proofs.Traversal
import LetPoly.Proofs.Truncation
import LetPoly.Proofs.TypeSafety
import LetPoly.Proofs.TypeTexts
import LetPoly.Proofs.Typing
import LetPoly.Proofs.Unification
import LetPoly.Proofs.Validity
import LetPoly.Proofs.ValueEquality
import LetPoly.Proofs.WellFormedScripts
import LetPoly.Proofs.Wrappers
import LetPoly.Script.Compile
import LetPoly.Script.Names
import LetPoly.Script.Term
import LetPoly.Session.Basic
import LetPoly.Session.Dialogue
import LetPoly.Settings.Basic
import LetPoly.Settings.File
import LetPoly.SortedMap
import LetPoly.SyntaxError
import LetPoly.Text.Blank
import LetPoly.Text.Decimal
import LetPoly.Text.Lines
import LetPoly.Text.Path
import LetPoly.Text.Printable
import LetPoly.Text.Quoted
import LetPoly.Text.Utf8
import LetPoly.Token.Basic
import LetPoly.Token.Cursor
import LetPoly.Token.Lexer
import LetPoly.Ty.Basic
import LetPoly.Ty.Canonical
import LetPoly.Ty.Printer
import LetPoly.Ty.Reader
import LetPoly.Ty.Solution
import LetPoly.Ty.Unify
import LetPoly.TypeError
import LetPoly.Value.Basic
import LetPoly.Value.Eval
import LetPoly.Yaml.Node
import LetPoly.Yaml.Scalar
import LetPoly.Yaml.Tag
import LetPoly.Yaml.Text
import LetPoly.Yaml.Token
