import TreeCalc.Machine.Agreement
import TreeCalc.Node.Induction
import TreeCalc.Session
import TreeCalc.Proofs.Restoring
import TreeCalc.Proofs.Scoped
import TreeCalc.Proofs.Scoped.Agreement
import TreeCalc.Proofs.Occurrence
import TreeCalc.Proofs.Rules
import TreeCalc.Proofs.Unassigned
import TreeCalc.Proofs.MadeDefinitions
import TreeCalc.Proofs.ParameterBindings
import TreeCalc.Proofs.FreshIdentities
import TreeCalc.Proofs.Ledger
import TreeCalc.Proofs.Census
import TreeCalc.Proofs.MachineSteps
import TreeCalc.Proofs.HeldHandles
import TreeCalc.Proofs.Trails
import TreeCalc.Proofs.SessionTrails
import TreeCalc.Proofs.SessionRuns
import TreeCalc.Proofs.Grafts
import TreeCalc.Proofs.SessionHandles
import TreeCalc.Proofs.ServedHandles
import TreeCalc.Proofs.HandleCounts
import TreeCalc.Proofs.Numerals
import TreeCalc.Proofs.TextLines
import TreeCalc.Proofs.Outline
import TreeCalc.Proofs.NodeOutline
import TreeCalc.Proofs.TraceText
import TreeCalc.Proofs.Acts
import TreeCalc.Proofs.SessionDeeds
import TreeCalc.Proofs.DisplayLog
import TreeCalc.Proofs.CallAccounting
import TreeCalc.Proofs.Observers
import TreeCalc.Proofs.RankedCalls
import TreeCalc.Proofs.StatementOrder
import TreeCalc.Proofs.ReadVariables
import TreeCalc.Proofs.Muting
import TreeCalc.Proofs.CallEffect
import TreeCalc.Proofs.Seeding
import TreeCalc.Proofs.JournalNesting
import TreeCalc.Proofs.RunJournal
import TreeCalc.Proofs.Literals
import TreeCalc.Proofs.DecimalText
import TreeCalc.Proofs.FloatValue
import TreeCalc.Proofs.Rounding
import TreeCalc.Proofs.RoundedTwice
import TreeCalc.Proofs.SixDigits
import TreeCalc.Proofs.CallArity
import TreeCalc.Proofs.TraceWidths
import TreeCalc.Proofs.TraceLevels
import TreeCalc.Proofs.NearestBinary
import TreeCalc.Proofs.ReadBack
import TreeCalc.Proofs.QuotedNames
import TreeCalc.Proofs.DebugText
import TreeCalc.Proofs.FloatEquality
import TreeCalc.Proofs.NodeEquality
import TreeCalc.Proofs.Twins
import TreeCalc.Proofs.JoinedSeeds
import TreeCalc.Proofs.MergedCounters
import TreeCalc.Proofs.NameOrder
import TreeCalc.Proofs.SessionChanges
import TreeCalc.Proofs.NameListings
import TreeCalc.Proofs.DefinitionsInSight
import TreeCalc.Proofs.StatementChains
import TreeCalc.Proofs.Dismantling
