import Blueprint.Command.Args
import Blueprint.Command.Lint
import Blueprint.Config
import Blueprint.Document.Comment
import Blueprint.Document.Compose
import Blueprint.Document.Element
import Blueprint.Document.Generic
import Blueprint.Document.Lexeme
import Blueprint.Document.Node
import Blueprint.Document.Walk
import Blueprint.Error
import Blueprint.Files
import Blueprint.Fix.Content
import Blueprint.Fix.Engine
import Blueprint.Fix.Lines
import Blueprint.Fix.Reindent
import Blueprint.Fix.Selection
import Blueprint.Fix.Shifts
import Blueprint.Glob
import Blueprint.Lint.Context
import Blueprint.Lint.Directives
import Blueprint.Lint.Import
import Blueprint.Lint.Indent
import Blueprint.Lint.Level
import Blueprint.Lint.Option
import Blueprint.Lint.Problem
import Blueprint.Lint.Registry
import Blueprint.Lint.Rule
import Blueprint.Lint.Rules.Declarations
import Blueprint.Lint.Rules.Imports
import Blueprint.Lint.Rules.Indented
import Blueprint.Lint.Rules.Inputs
import Blueprint.Lint.Rules.Lines
import Blueprint.Lint.Rules.NodeTypes
import Blueprint.Lint.Rules.Relationships
import Blueprint.Lint.Rules.Spacing
import Blueprint.Lint.Rules.Templates
import Blueprint.Lint.Rules.Values
import Blueprint.Lint.Rules.Version
import Blueprint.Lint.Run
import Blueprint.Lint.Session
import Blueprint.Lint.Vocabulary
import Blueprint.Main
import Blueprint.Number.Decimal
import Blueprint.Number.Double
import Blueprint.Number.Integer
import Blueprint.Number.Shortest
import Blueprint.Report.Format
import Blueprint.Report.Human
import Blueprint.Report.Json
import Blueprint.Report.Severity
import Blueprint.Setting.Draft
import Blueprint.Setting.Merge
import Blueprint.Setting.Read
import Blueprint.Setting.Value
import Blueprint.Setting.Write
import Blueprint.Table
import Blueprint.Text.Alphabetic
import Blueprint.Text.Blank
import Blueprint.Text.Case
import Blueprint.Text.Cut
import Blueprint.Text.Digit
import Blueprint.Text.Line
import Blueprint.Text.Mark
import Blueprint.Text.Ranges
import Blueprint.Text.Source
import Blueprint.Yaml.Cursor
import Blueprint.Yaml.Dialect
import Blueprint.Yaml.Event
import Blueprint.Yaml.Fault
import Blueprint.Yaml.Scalar
import Blueprint.Yaml.Scanner
import Blueprint.Yaml.Tag
import Blueprint.Yaml.Token
import Blueprint.Proofs.ForwardReading
import Blueprint.Proofs.TokenOrder
import Blueprint.Proofs.ScannerOrder
import Blueprint.Proofs.ScanOrder
import Blueprint.Proofs.CommentOrder
import Blueprint.Proofs.ElementOrder
import Blueprint.Proofs.DirectiveHistory
import Blueprint.Proofs.Schedule
import Blueprint.Proofs.Accounting
import Blueprint.Proofs.RunAccount
import Blueprint.Proofs.ReportOrder
import Blueprint.Proofs.DirectiveFold
import Blueprint.Proofs.RepairShape
import Blueprint.Proofs.RepairTracking
import Blueprint.Proofs.CosmeticRepair
import Blueprint.Proofs.ParserMatching
import Blueprint.Proofs.ParserLikeness
import Blueprint.Proofs.TreeMatching
import Blueprint.Proofs.ValueLikeness
import Blueprint.Proofs.ScalarRespelling
import Blueprint.Proofs.CosmeticProblems
import Blueprint.Proofs.CosmeticMeaning
import Blueprint.Proofs.Positions
import Blueprint.Proofs.ComposedTree
import Blueprint.Proofs.NodeOrder
import Blueprint.Proofs.StreamOrder
import Blueprint.Proofs.HeldScan
import Blueprint.Proofs.HeldRun
import Blueprint.Proofs.FaultPlace
import Blueprint.Proofs.DirectiveReach
import Blueprint.Proofs.SharedSession
import Blueprint.Proofs.RuleCalls
import Blueprint.Proofs.RuleAlone
import Blueprint.Proofs.LexemeRanges
import Blueprint.Proofs.ScalarComments
import Blueprint.Proofs.PassedComments
import Blueprint.Proofs.LexemeReach
import Blueprint.Proofs.ScalarEnds
import Blueprint.Proofs.BlockContext
import Blueprint.Proofs.BlockAnchors
import Blueprint.Proofs.TokenRanges
import Blueprint.Proofs.DocumentComments
import Blueprint.Proofs.ContextTables
import Blueprint.Proofs.OlderTypes
import Blueprint.Proofs.RepairRun
import Blueprint.Proofs.TypeRepair
import Blueprint.Proofs.BlankRuns
import Blueprint.Proofs.BlankRepair
import Blueprint.Proofs.TokenDepth
import Blueprint.Proofs.ParserFrames
import Blueprint.Proofs.ParserReading
import Blueprint.Proofs.NodeTokens
import Blueprint.Proofs.RootEntries
import Blueprint.Proofs.RootLayout
import Blueprint.Proofs.SectionTracker
import Blueprint.Proofs.SectionReading
import Blueprint.Proofs.SectionRun
import Blueprint.Proofs.SettingMerge
import Blueprint.Proofs.ConfigChecks
import Blueprint.Proofs.UnusedInputs
import Blueprint.Proofs.Reindentation
import Blueprint.Proofs.IndentationWalk
import Blueprint.Proofs.BlockLayout
import Blueprint.Proofs.IndentationRun
import Blueprint.Proofs.FeedFreeContent
import Blueprint.Proofs.SplitLines
import Blueprint.Proofs.CarriedRepairs
import Blueprint.Proofs.RepairTrials
import Blueprint.Proofs.FixedProblems
import Blueprint.Proofs.DependencySearch
import Blueprint.Proofs.DependencyLoops
import Blueprint.Proofs.LineRepairs
import Blueprint.Proofs.SettledContent
import Blueprint.Proofs.SettledLines
import Blueprint.Proofs.CalledTemplates
import Blueprint.Proofs.LongLines
import Blueprint.Proofs.BlankEndings
import Blueprint.Proofs.IndentationStack
import Blueprint.Proofs.HeadedBlocks
import Blueprint.Proofs.ParserEffects
import Blueprint.Proofs.IndentationFrames
import Blueprint.Proofs.IndentationReading
import Blueprint.Proofs.UnexpectedTokens
import Blueprint.Proofs.SettingEquality
import Blueprint.Proofs.SettingReading
import Blueprint.Proofs.SettingLayers
import Blueprint.Proofs.SuggestedTypes
import Blueprint.Proofs.UndefinedInputs
import Blueprint.Proofs.OptionValues
import Blueprint.Proofs.ConfigResolution
import Blueprint.Proofs.RepeatedKeys
import Blueprint.Proofs.PlainIntegers
import Blueprint.Proofs.RepeatedTokens
import Blueprint.Proofs.LineStarts
import Blueprint.Proofs.LineRanges
import Blueprint.Proofs.ParserOpenings
import Blueprint.Proofs.InsertedTokens
import Blueprint.Proofs.InsertedEntry
import Blueprint.Proofs.LabelRepair
import Blueprint.Proofs.ClearedProblems
