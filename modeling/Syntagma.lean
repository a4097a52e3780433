import Syntagma.Analysis.Cursor
import Syntagma.Analysis.Descent
import Syntagma.Analysis.Diagnosis
import Syntagma.Analysis.Frame
import Syntagma.Analysis.Outcome
import Syntagma.Analysis.Search
import Syntagma.Analysis.Strategy
import Syntagma.Analysis.WorkList
import Syntagma.Artifacts
import Syntagma.Artifacts.Bytes
import Syntagma.Automaton.Arena
import Syntagma.Automaton.Build
import Syntagma.Automaton.Discovery
import Syntagma.Automaton.Finite
import Syntagma.Automaton.Minimal
import Syntagma.Automaton.Pushdown
import Syntagma.Automaton.Synthesis
import Syntagma.CommandLine
import Syntagma.Console
import Syntagma.Description
import Syntagma.Description.Reader
import Syntagma.Diagnostic
import Syntagma.Dictionary
import Syntagma.Fault
import Syntagma.Grammar.Basic
import Syntagma.Grammar.Branching
import Syntagma.Grammar.Compile
import Syntagma.Grammar.Draft
import Syntagma.Grammar.LeftRecursion
import Syntagma.Grammar.Node
import Syntagma.Grammar.Text
import Syntagma.Host
import Syntagma.Host.FileTree
import Syntagma.Host.Store
import Syntagma.Invocation
import Syntagma.Lexer
import Syntagma.Main
import Syntagma.Markup.Character
import Syntagma.Markup.Content
import Syntagma.Markup.Name
import Syntagma.Markup.Reader
import Syntagma.Markup.Reference
import Syntagma.MessagePack.Packable
import Syntagma.MessagePack.Reader
import Syntagma.MessagePack.Value
import Syntagma.Options
import Syntagma.Session
import Syntagma.Symbol.ClassTable
import Syntagma.Symbol.Coverage
import Syntagma.Symbol.Narrowing
import Syntagma.Text.Alphabetic
import Syntagma.Text.Blank
import Syntagma.Text.Cluster
import Syntagma.Text.Cluster.Properties
import Syntagma.Text.Decimal
import Syntagma.Text.Erasure
import Syntagma.Text.Joining
import Syntagma.Text.Number
import Syntagma.Text.Printable
import Syntagma.Text.Quoted
import Syntagma.Text.Ranges
import Syntagma.Token
import Syntagma.Token.ClassMap
import Syntagma.Token.Tables
import Syntagma.Trace.Event
import Syntagma.Trace.Json
import Syntagma.Trace.Listing
import Syntagma.Trace.Ring
import Syntagma.Trace.Tracer
import Syntagma.Proofs.Analysis.Transport
import Syntagma.Proofs.Automaton.Discovery
import Syntagma.Proofs.Automaton.PushdownTable
import Syntagma.Proofs.Grammar.Shape
import Syntagma.Proofs.Fault
import Syntagma.Proofs.Distinct
import Syntagma.Proofs.Grammar.Entry
import Syntagma.Proofs.Grammar.Planting
import Syntagma.Proofs.Grammar.Stages
import Syntagma.Proofs.Grammar.Publication
import Syntagma.Proofs.Grammar.Compilation
import Syntagma.Proofs.Analysis.Standing
import Syntagma.Proofs.Automaton.StrategyAgreement
import Syntagma.Proofs.Analysis.TrieLanguage
import Syntagma.Proofs.Analysis.FurthestProgress
import Syntagma.Proofs.Grammar.Productions
import Syntagma.Proofs.Grammar.Unrolling
import Syntagma.Proofs.Grammar.Factorization
import Syntagma.Proofs.Analysis.LoopLanguage
import Syntagma.Proofs.Analysis.SpelledLanguage
import Syntagma.Proofs.Analysis.DescriptionLanguage
import Syntagma.Proofs.Analysis.Termination
import Syntagma.Proofs.Lexing.Cuts
import Syntagma.Proofs.Lexing.Coverage
import Syntagma.Proofs.Grammar.RemovedRecursion
import Syntagma.Proofs.Grammar.TokenNumbers
import Syntagma.Proofs.Grammar.KeptLoops
import Syntagma.Proofs.Analysis.KeptLanguage
import Syntagma.Proofs.MessagePack.Reading
import Syntagma.Proofs.MessagePack.Packing
import Syntagma.Proofs.MessagePack.ArtifactBytes
import Syntagma.Proofs.Automaton.Arena
import Syntagma.Proofs.Symbol.Narrowing
import Syntagma.Proofs.Automaton.Merging
import Syntagma.Proofs.Automaton.Widening
import Syntagma.Proofs.Automaton.Minimization
import Syntagma.Proofs.Automaton.NormalForm
import Syntagma.Proofs.Automaton.MergedWalks
import Syntagma.Proofs.Automaton.TokenWalk
import Syntagma.Proofs.Automaton.Formation
import Syntagma.Proofs.Automaton.Growth
import Syntagma.Proofs.Automaton.Synthesized
import Syntagma.Proofs.Grammar.Editing
import Syntagma.Proofs.Grammar.Leaves
import Syntagma.Proofs.Symbol.Registration
import Syntagma.Proofs.Lexing.ListedTerminals
import Syntagma.Proofs.Grammar.PublishedCases
import Syntagma.Proofs.Grammar.Generation
import Syntagma.Proofs.Automaton.Recurrence
import Syntagma.Proofs.Automaton.WalkParts
import Syntagma.Proofs.Automaton.GeneratedTexts
import Syntagma.Proofs.Lexing.TokenCompleteness
import Syntagma.Proofs.Lexing.TokenSoundness
import Syntagma.Proofs.Session.Verdicts
import Syntagma.Proofs.Grammar.SharedPrefixes
import Syntagma.Proofs.Grammar.Sprouting
import Syntagma.Proofs.Grammar.WellFormed
import Syntagma.Proofs.Grammar.OutsideTokens
import Syntagma.Proofs.Grammar.SealedPlaces
import Syntagma.Proofs.Grammar.AskedPlaces
import Syntagma.Proofs.Automaton.Precedence
import Syntagma.Proofs.Automaton.AcceptingStates
import Syntagma.Proofs.Analysis.DepthLimit
import Syntagma.Proofs.Lexing.Separation
import Syntagma.Proofs.Symbol.ClassNames
import Syntagma.Proofs.Automaton.Vocabulary
import Syntagma.Proofs.Automaton.Renumbering
import Syntagma.Proofs.Grammar.Occurrences
import Syntagma.Proofs.Grammar.Entering
import Syntagma.Proofs.Grammar.Refusal
import Syntagma.Proofs.Symbol.Faithfulness
import Syntagma.Proofs.Lexing.Places
import Syntagma.Proofs.Trace.JsonGrammar
import Syntagma.Proofs.Trace.JsonTraces
import Syntagma.Proofs.Trace.Retention
import Syntagma.Proofs.Session.ConsoleInputs
import Syntagma.Proofs.Lexing.Events
import Syntagma.Proofs.Session.RunRecords
import Syntagma.Proofs.Grammar.Stacking
import Syntagma.Proofs.Grammar.Descending
import Syntagma.Proofs.Grammar.TrieTexts
import Syntagma.Proofs.Automaton.EnteredMediums
import Syntagma.Proofs.Token.ClassMap
import Syntagma.Proofs.Token.Tables
import Syntagma.Proofs.Symbol.Promotable
import Syntagma.Proofs.Automaton.Promotions
import Syntagma.Proofs.Automaton.Tours
