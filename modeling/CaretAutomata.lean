import CaretAutomata.Journal
import CaretAutomata.Main
import CaretAutomata.Proofs.Pattern.Parsing
import CaretAutomata.Proofs.Pattern.Derivation
import CaretAutomata.Proofs.Automaton.Acceptance
import CaretAutomata.Proofs.Extent.Language
import CaretAutomata.Proofs.Extent.Positions
import CaretAutomata.Proofs.Automaton.Wiring
import CaretAutomata.Proofs.Extent.Solid
import CaretAutomata.Proofs.Automaton.Recognition
import CaretAutomata.Proofs.Automaton.Direction
import CaretAutomata.Proofs.Extent.Plain
import CaretAutomata.Proofs.Pattern.Language
import CaretAutomata.Proofs.Automaton.Marks
import CaretAutomata.Proofs.Automaton.Cut
import CaretAutomata.Proofs.Automaton.LoopBacks
import CaretAutomata.Proofs.Pattern.Depth
import CaretAutomata.Proofs.Extent.Unwrap
import CaretAutomata.Proofs.Pattern.WellBuilt
import CaretAutomata.Proofs.Pattern.RoundTrip
import CaretAutomata.Proofs.Automaton.Legible
import CaretAutomata.Proofs.Automaton.Flowchart
import CaretAutomata.Proofs.Graph.Reachable
import CaretAutomata.Proofs.Automaton.ReachableSets
import CaretAutomata.Proofs.Automaton.Numbering
import CaretAutomata.Proofs.Automaton.Usefulness
import CaretAutomata.Proofs.Automaton.Sheet
import CaretAutomata.Proofs.Automaton.Table
import CaretAutomata.Proofs.Extent.Redundancy
import CaretAutomata.Proofs.Pattern.Redundancy
import CaretAutomata.Proofs.Pattern.Refusals
import CaretAutomata.Proofs.Pattern.Limits
import CaretAutomata.Proofs.Pattern.Defects
import CaretAutomata.Proofs.Pattern.Partners
import CaretAutomata.Proofs.Pattern.Canonical
import CaretAutomata.Proofs.Pattern.Signs
import CaretAutomata.Proofs.Automaton.Census
import CaretAutomata.Proofs.Automaton.Columns
import CaretAutomata.Proofs.Automaton.Dangling
import CaretAutomata.Proofs.Report
import CaretAutomata.Proofs.CommandLine.Agreement
import CaretAutomata.Proofs.Pattern.MarkerRuns
import CaretAutomata.Proofs.Pattern.Scanning
import CaretAutomata.Proofs.Pattern.Counting
import CaretAutomata.Proofs.Pattern.ScannedParts
import CaretAutomata.Proofs.Pattern.ScannedOutline
import CaretAutomata.Proofs.Pattern.Descent
import CaretAutomata.Proofs.Pattern.RecordedReading
import CaretAutomata.Proofs.Automaton.Additions
import CaretAutomata.Proofs.Automaton.Construction
import CaretAutomata.Proofs.Automaton.Frame
