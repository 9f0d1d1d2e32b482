import Agenda.Main
import Agenda.Proofs.Abandonment
import Agenda.Proofs.Accounting
import Agenda.Proofs.Aftermath
import Agenda.Proofs.Alike
import Agenda.Proofs.Alone
import Agenda.Proofs.Attribution
import Agenda.Proofs.BindResults
import Agenda.Proofs.CallCount
import Agenda.Proofs.Calls
import Agenda.Proofs.CompletionOrder
import Agenda.Proofs.Counters
import Agenda.Proofs.Documents
import Agenda.Proofs.EffectSources
import Agenda.Proofs.Endings
import Agenda.Proofs.ExactIntegers
import Agenda.Proofs.Executions
import Agenda.Proofs.FactReferences
import Agenda.Proofs.FailureReports
import Agenda.Proofs.Faultless
import Agenda.Proofs.FieldOrder
import Agenda.Proofs.Footprint
import Agenda.Proofs.Foresight
import Agenda.Proofs.IndependentBranches
import Agenda.Proofs.Launches
import Agenda.Proofs.Leads
import Agenda.Proofs.Moves
import Agenda.Proofs.Occupancy
import Agenda.Proofs.OfflineFailures
import Agenda.Proofs.Origins
import Agenda.Proofs.PlanBindings
import Agenda.Proofs.PlanWrappers
import Agenda.Proofs.Planning
import Agenda.Proofs.Prediction
import Agenda.Proofs.ProgramRoundTrip
import Agenda.Proofs.Progress
import Agenda.Proofs.Replay
import Agenda.Proofs.Resolution
import Agenda.Proofs.RoadMaps
import Agenda.Proofs.Roster
import Agenda.Proofs.RosterEnds
import Agenda.Proofs.RosterOrder
import Agenda.Proofs.RosterRounds
import Agenda.Proofs.RosterRuns
import Agenda.Proofs.RosterTurns
import Agenda.Proofs.RoundRobin
import Agenda.Proofs.RunLength
import Agenda.Proofs.Scopes
import Agenda.Proofs.Scripts
import Agenda.Proofs.SearchDepth
import Agenda.Proofs.Sequence
import Agenda.Proofs.SideBySide
import Agenda.Proofs.SingleBranch
import Agenda.Proofs.SlotTable
import Agenda.Proofs.StateRoundTrip
import Agenda.Proofs.StepAgreement
import Agenda.Proofs.Stirring
import Agenda.Proofs.StructuralFailures
import Agenda.Proofs.SuccessorShape
import Agenda.Proofs.Vocabulary
