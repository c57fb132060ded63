import ImportSuffix.Text.Blank
import ImportSuffix.Text.Utf8
import ImportSuffix.Text.Terminal
import ImportSuffix.Path
import ImportSuffix.Failure
import ImportSuffix.Disk.Entry
import ImportSuffix.Disk.Changes
import ImportSuffix.Disk.Walk
import ImportSuffix.Disk.Access
import ImportSuffix.Specifier.Rule
import ImportSuffix.Specifier.Search
import ImportSuffix.Specifier.Extender
import ImportSuffix.Specifier.Grammar
import ImportSuffix.Settings.ExcludedNames
import ImportSuffix.Settings.Basic
import ImportSuffix.Survey.Finding
import ImportSuffix.Survey.Walk
import ImportSuffix.Log
import ImportSuffix.Survey.Report
import ImportSuffix.CommandLine.Help
import ImportSuffix.CommandLine.Parameter
import ImportSuffix.CommandLine.Arguments
import ImportSuffix.CommandLine.Reader
import ImportSuffix.Message
import ImportSuffix.Run
import ImportSuffix.Program
import ImportSuffix.Main
import ImportSuffix.Proofs.Specifier.Cut
import ImportSuffix.Proofs.Specifier.Selection
import ImportSuffix.Proofs.Specifier.Occurrences
import ImportSuffix.Proofs.Specifier.Leftmost
import ImportSuffix.Proofs.Specifier.Segments
import ImportSuffix.Proofs.Specifier.Stability
import ImportSuffix.Proofs.Specifier.FixedPoint
import ImportSuffix.Proofs.Specifier.Growth
import ImportSuffix.Proofs.Specifier.Insertion
import ImportSuffix.Proofs.Specifier.Statements
import ImportSuffix.Proofs.Specifier.Commutation
import ImportSuffix.Proofs.Specifier.Lines
import ImportSuffix.Proofs.Specifier.Recovery
import ImportSuffix.Proofs.Specifier.RuleLists
import ImportSuffix.Proofs.Disk.Names
import ImportSuffix.Proofs.Disk.Observation
import ImportSuffix.Proofs.Disk.WellFormed
import ImportSuffix.Proofs.Disk.Emptied
import ImportSuffix.Proofs.Disk.Reordered
import ImportSuffix.Proofs.Disk.Resolution
import ImportSuffix.Proofs.Disk.Leads
import ImportSuffix.Proofs.Disk.Writing
import ImportSuffix.Proofs.Settings.OrderedSet
import ImportSuffix.Proofs.Settings.Extension
import ImportSuffix.Proofs.Settings.Acceptance
import ImportSuffix.Proofs.Survey.Reach
import ImportSuffix.Proofs.Survey.Findings
import ImportSuffix.Proofs.Survey.Candidates
import ImportSuffix.Proofs.Survey.Coverage
import ImportSuffix.Proofs.Survey.Exclusion
import ImportSuffix.Proofs.Survey.Skipped
import ImportSuffix.Proofs.Survey.Contiguity
import ImportSuffix.Proofs.Survey.Records
import ImportSuffix.Proofs.Run.Report
import ImportSuffix.Proofs.Run.RoundTrip
import ImportSuffix.Proofs.Run.Update
import ImportSuffix.Proofs.Run.Effect
import ImportSuffix.Proofs.Run.Forecast
import ImportSuffix.Proofs.Run.OneFile
import ImportSuffix.Proofs.Run.Abort
import ImportSuffix.Proofs.Run.DryRun
import ImportSuffix.Proofs.Run.Order
import ImportSuffix.Proofs.Run.Repetition
import ImportSuffix.Proofs.Run.Skipping
import ImportSuffix.Proofs.CommandLine.Line
import ImportSuffix.Proofs.CommandLine.Reading
import ImportSuffix.Proofs.CommandLine.Meaning
import ImportSuffix.Proofs.CommandLine.Mentions
import ImportSuffix.Proofs.CommandLine.Decision
import ImportSuffix.Proofs.CommandLine.Verbosity
import ImportSuffix.Proofs.Program.Exit
import ImportSuffix.Proofs.Program.LogLines
import ImportSuffix.Proofs.Program.Verbosity
