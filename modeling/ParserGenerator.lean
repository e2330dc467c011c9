import ParserGenerator.CommandLine.Desk
import ParserGenerator.LR.Digraph
import ParserGenerator.Main
import ParserGenerator.Proofs.Collection.Bits
import ParserGenerator.Proofs.Collection.OrderedMap
import ParserGenerator.Proofs.Collection.Worklist
import ParserGenerator.Proofs.LR.Digraph
import ParserGenerator.Proofs.Symbol.Table
import ParserGenerator.Proofs.Grammar.Build
import ParserGenerator.Proofs.Grammar.Lawful
import ParserGenerator.Proofs.Grammar.Growth
import ParserGenerator.Proofs.Grammar.Complaints
import ParserGenerator.Proofs.Grammar.Close
import ParserGenerator.Proofs.Grammar.Calls
import ParserGenerator.Proofs.Analysis.Nullable
import ParserGenerator.Proofs.Analysis.FirstFollow
import ParserGenerator.Proofs.LR.Closure
import ParserGenerator.Proofs.LR.Automaton
import ParserGenerator.Proofs.LR.Paths
import ParserGenerator.Proofs.LR.Canonical
import ParserGenerator.Proofs.LR.Follow
import ParserGenerator.Proofs.LR.Reads
import ParserGenerator.Proofs.LR.Relations
import ParserGenerator.Proofs.Analysis.Frame
import ParserGenerator.Proofs.LR.Lookahead
import ParserGenerator.Proofs.LR.Rows
import ParserGenerator.Proofs.LR.Tables
import ParserGenerator.Proofs.LR.Stack
import ParserGenerator.Proofs.LR.Steps
import ParserGenerator.Proofs.LR.Soundness
import ParserGenerator.Proofs.LR.Completeness
import ParserGenerator.Proofs.LR.Termination
import ParserGenerator.Proofs.LR.Refusals
import ParserGenerator.Proofs.Storage.Format
import ParserGenerator.Proofs.Storage.Record
import ParserGenerator.Proofs.Grammar.Order
import ParserGenerator.Proofs.Storage.Restore
import ParserGenerator.Proofs.Storage.Stream
import ParserGenerator.Proofs.LR.Alike
import ParserGenerator.Proofs.Storage.File
import ParserGenerator.Proofs.Json.RoundTrip
import ParserGenerator.Proofs.Description.Language
import ParserGenerator.Proofs.Description.Standing
import ParserGenerator.Proofs.Grammar.Additions
import ParserGenerator.Proofs.Description.Helpers
import ParserGenerator.Proofs.Description.Lowering
import ParserGenerator.Proofs.Description.Lowered
import ParserGenerator.Proofs.Collection.Sorted
import ParserGenerator.Proofs.LR.Cells
import ParserGenerator.Proofs.LR.Violations
import ParserGenerator.Proofs.LR.Contents
import ParserGenerator.Proofs.LR.Collection
import ParserGenerator.Proofs.LR.Comparison
import ParserGenerator.Proofs.LR.Policy
import ParserGenerator.Proofs.Regex.Language
import ParserGenerator.Proofs.Regex.Nfa
import ParserGenerator.Proofs.Regex.Accepts
import ParserGenerator.Proofs.Regex.Dfa
import ParserGenerator.Proofs.Regex.Matching
import ParserGenerator.Proofs.Lexer.Process
import ParserGenerator.Proofs.Lexer.Tokens
import ParserGenerator.Proofs.Lexer.Tokenised
import ParserGenerator.Proofs.Grammar.Plain
import ParserGenerator.Proofs.LR.Twins
import ParserGenerator.Proofs.LR.Transparency
import ParserGenerator.Proofs.LR.Lockstep
import ParserGenerator.Proofs.Analysis.Exactness
import ParserGenerator.Proofs.Grammar.Effects
import ParserGenerator.Proofs.Symbol.Calls
import ParserGenerator.Proofs.Grammar.History
import ParserGenerator.Proofs.Operators.Tree
import ParserGenerator.Proofs.Operators.Grammar
import ParserGenerator.Proofs.Operators.States
import ParserGenerator.Proofs.Operators.Parse
import ParserGenerator.Proofs.Storage.Consumption
import ParserGenerator.Proofs.Storage.Canonical
import ParserGenerator.Proofs.Storage.Faults
import ParserGenerator.Proofs.CommandLine.Cache
import ParserGenerator.Proofs.Description.Fresh
import ParserGenerator.Proofs.Description.Agreement
import ParserGenerator.Proofs.Description.Rendering
import ParserGenerator.Proofs.Description.RoundTrip
import ParserGenerator.Proofs.LR.Independence
import ParserGenerator.Proofs.LR.Acceptance
import ParserGenerator.Proofs.Analysis.Repetition
import ParserGenerator.Proofs.Regex.Composition
import ParserGenerator.Proofs.Regex.Expansion
import ParserGenerator.Proofs.LR.OnTheFly
import ParserGenerator.Proofs.Description.Tiling
import ParserGenerator.Proofs.LR.Failures
import ParserGenerator.Proofs.LR.Chains
import ParserGenerator.Proofs.Regex.Outcomes
import ParserGenerator.Proofs.Analysis.Questions
import ParserGenerator.Proofs.LR.Collected
