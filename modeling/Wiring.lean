import Wiring.Engine.Fuel
import Wiring.Session.Queries
import Wiring.Proofs.Placement
import Wiring.Proofs.RosterEdges
import Wiring.Proofs.ListHistory
import Wiring.Proofs.RegistryHistory
import Wiring.Proofs.Discipline
import Wiring.Proofs.WaitWalk
import Wiring.Proofs.FactoryPlan
import Wiring.Proofs.SingletonSteps
import Wiring.Proofs.ConcurrentSingletons
import Wiring.Proofs.Contents
import Wiring.Proofs.Meaning
import Wiring.Proofs.PlainWiring
import Wiring.Proofs.ScopeTransparency
import Wiring.Proofs.DepthFirst
import Wiring.Proofs.InstallHistory
import Wiring.Proofs.LinearOrder
import Wiring.Proofs.Defects
import Wiring.Proofs.DeclaredWiring
import Wiring.Proofs.Moments
import Wiring.Proofs.Edits
import Wiring.Proofs.QuietScripts
import Wiring.Proofs.Rewrapping
import Wiring.Proofs.SlotLife
import Wiring.Proofs.RunTrails
import Wiring.Proofs.WriteOnce
import Wiring.Proofs.Frames
import Wiring.Proofs.FrameWalks
import Wiring.Proofs.Balance
import Wiring.Proofs.Passage
import Wiring.Proofs.DeclaredPlaces
import Wiring.Proofs.Termination
import Wiring.Proofs.Refusals
import Wiring.Proofs.Reentry
import Wiring.Proofs.Topological
import Wiring.Proofs.ProductionRecords
import Wiring.Proofs.Nests
import Wiring.Proofs.Builders
import Wiring.Proofs.LeastOrder
import Wiring.Proofs.OrderingCycles
import Wiring.Proofs.RosterContents
import Wiring.Proofs.Snapshots
import Wiring.Proofs.Decorations
import Wiring.Proofs.MapContents
import Wiring.Proofs.MapProduction
import Wiring.Proofs.WaitDecisions
import Wiring.Proofs.HandedValues
import Wiring.Proofs.MemberHooks
import Wiring.Proofs.MemberInjection
import Wiring.Proofs.AgreeingEdits
import Wiring.Proofs.KeyIdentity
import Wiring.Proofs.TypeMismatches
import Wiring.Proofs.FilledSlots
import Wiring.Proofs.PlacementSteps
import Wiring.Proofs.StackDiscipline
