import ErlangMacros.Batch
import ErlangMacros.CommandLine
import ErlangMacros.CommandLine.Arguments
import ErlangMacros.Conditional
import ErlangMacros.Directive
import ErlangMacros.Directive.Keyword
import ErlangMacros.Directive.Parser
import ErlangMacros.Error
import ErlangMacros.Event
import ErlangMacros.Finder
import ErlangMacros.Inclusion
import ErlangMacros.Lexer
import ErlangMacros.Lexer.Error
import ErlangMacros.Lexer.Scan
import ErlangMacros.Macro
import ErlangMacros.Macro.Call
import ErlangMacros.Macro.Definition
import ErlangMacros.Macro.Expansion
import ErlangMacros.Macro.Table
import ErlangMacros.Main
import ErlangMacros.Path
import ErlangMacros.Path.Pattern
import ErlangMacros.Position
import ErlangMacros.Preprocessor
import ErlangMacros.Preprocessor.Evaluation
import ErlangMacros.Preprocessor.Run
import ErlangMacros.Preprocessor.Settings
import ErlangMacros.Proofs.Batch.Completion
import ErlangMacros.Proofs.Batch.Independence
import ErlangMacros.Proofs.Conditional.Activity
import ErlangMacros.Proofs.Conditional.Nesting
import ErlangMacros.Proofs.Directive.Acceptance
import ErlangMacros.Proofs.Directive.Conditional
import ErlangMacros.Proofs.Directive.Diagnosis
import ErlangMacros.Proofs.Directive.Failure
import ErlangMacros.Proofs.Directive.Grammar
import ErlangMacros.Proofs.Directive.Language
import ErlangMacros.Proofs.Directive.Tokens
import ErlangMacros.Proofs.Finder.Memory
import ErlangMacros.Proofs.Finder.SearchOrder
import ErlangMacros.Proofs.Inclusion.Content
import ErlangMacros.Proofs.Inclusion.Label
import ErlangMacros.Proofs.Inclusion.Level
import ErlangMacros.Proofs.Lexer.Joining
import ErlangMacros.Proofs.Lexer.Layout
import ErlangMacros.Proofs.Lexer.Lines
import ErlangMacros.Proofs.Lexer.Longest
import ErlangMacros.Proofs.Lexer.Meaning
import ErlangMacros.Proofs.Lexer.Munch
import ErlangMacros.Proofs.Lexer.Progress
import ErlangMacros.Proofs.Lexer.Quoted
import ErlangMacros.Proofs.Lexer.Relexing
import ErlangMacros.Proofs.Lexer.Scan
import ErlangMacros.Proofs.Macro.ArgumentGrammar
import ErlangMacros.Proofs.Macro.Arguments
import ErlangMacros.Proofs.Macro.Definition
import ErlangMacros.Proofs.Macro.Flattening
import ErlangMacros.Proofs.Macro.History
import ErlangMacros.Proofs.Macro.Nested
import ErlangMacros.Proofs.Macro.Rewriting
import ErlangMacros.Proofs.Macro.Substitution
import ErlangMacros.Proofs.Macro.Table
import ErlangMacros.Proofs.Operations
import ErlangMacros.Proofs.Path.Pattern
import ErlangMacros.Proofs.Path.Writing
import ErlangMacros.Proofs.Preprocessor.Calls
import ErlangMacros.Proofs.Preprocessor.Completion
import ErlangMacros.Proofs.Preprocessor.Configuration
import ErlangMacros.Proofs.Preprocessor.Diagnosis
import ErlangMacros.Proofs.Preprocessor.DirectiveExtent
import ErlangMacros.Proofs.Preprocessor.Directives
import ErlangMacros.Proofs.Preprocessor.EmittedLexemes
import ErlangMacros.Proofs.Preprocessor.Extension
import ErlangMacros.Proofs.Preprocessor.Failure
import ErlangMacros.Proofs.Preprocessor.Faults
import ErlangMacros.Proofs.Preprocessor.Flattening
import ErlangMacros.Proofs.Preprocessor.Forms
import ErlangMacros.Proofs.Preprocessor.Fuel
import ErlangMacros.Proofs.Preprocessor.History
import ErlangMacros.Proofs.Preprocessor.Inclusion
import ErlangMacros.Proofs.Preprocessor.Inertness
import ErlangMacros.Proofs.Preprocessor.Interpretation
import ErlangMacros.Proofs.Preprocessor.Lexemes
import ErlangMacros.Proofs.Preprocessor.LookAhead
import ErlangMacros.Proofs.Preprocessor.Matching
import ErlangMacros.Proofs.Preprocessor.ModuleName
import ErlangMacros.Proofs.Preprocessor.Move
import ErlangMacros.Proofs.Preprocessor.Provenance
import ErlangMacros.Proofs.Preprocessor.Raising
import ErlangMacros.Proofs.Preprocessor.Reachable
import ErlangMacros.Proofs.Preprocessor.Reports
import ErlangMacros.Proofs.Preprocessor.Respelling
import ErlangMacros.Proofs.Preprocessor.Selection
import ErlangMacros.Proofs.Preprocessor.Stacks
import ErlangMacros.Proofs.Preprocessor.Step
import ErlangMacros.Proofs.Preprocessor.Suppression
import ErlangMacros.Proofs.Preprocessor.Termination
import ErlangMacros.Proofs.Preprocessor.Trace
import ErlangMacros.Proofs.Reader.Completion
import ErlangMacros.Proofs.Reader.Exchange
import ErlangMacros.Proofs.Reader.Extension
import ErlangMacros.Proofs.Reader.Flat
import ErlangMacros.Proofs.Reader.Growth
import ErlangMacros.Proofs.Reader.LookAhead
import ErlangMacros.Proofs.Reader.Matching
import ErlangMacros.Proofs.Reader.Passage
import ErlangMacros.Proofs.Reader.Straying
import ErlangMacros.Proofs.Reader.Supply
import ErlangMacros.Proofs.Token.Integer
import ErlangMacros.Proofs.Token.Lexeme
import ErlangMacros.Proofs.Token.Quoting
import ErlangMacros.Proofs.Token.Readable
import ErlangMacros.Proofs.Token.Spelling
import ErlangMacros.Proofs.Token.Value
import ErlangMacros.Reader
import ErlangMacros.Source
import ErlangMacros.Text
import ErlangMacros.Text.Alphanumeric
import ErlangMacros.Text.Blank
import ErlangMacros.Text.Case
import ErlangMacros.Text.CodeRange
import ErlangMacros.Text.Digit
import ErlangMacros.Text.Integer
import ErlangMacros.Text.Printable
import ErlangMacros.Text.Shown
import ErlangMacros.Token
import ErlangMacros.Token.Escape
import ErlangMacros.Token.Integer
import ErlangMacros.Token.Spelling
import ErlangMacros.World
