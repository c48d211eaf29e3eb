import ReluSolver.Basis.Crash
import ReluSolver.Basis.Eta
import ReluSolver.Basis.Factorization
import ReluSolver.Basis.Lu
import ReluSolver.Basis.Square
import ReluSolver.Basis.Workspace
import ReluSolver.Bounds.Store
import ReluSolver.Bounds.Trail
import ReluSolver.Choice
import ReluSolver.CommandLine.Arguments
import ReluSolver.CommandLine.Report
import ReluSolver.CommandLine.Respond
import ReluSolver.Deduction.Basic
import ReluSolver.Deduction.InverseRow
import ReluSolver.Deduction.Phase
import ReluSolver.Deduction.Propagation
import ReluSolver.Deduction.Row
import ReluSolver.Division.Basic
import ReluSolver.Division.Bisection
import ReluSolver.Division.PhaseSplit
import ReluSolver.Division.Strategy
import ReluSolver.Division.Subquery
import ReluSolver.Duration
import ReluSolver.Fault
import ReluSolver.Main
import ReluSolver.Number.Decimal
import ReluSolver.Number.Double
import ReluSolver.Number.Extended
import ReluSolver.Number.Interval
import ReluSolver.Number.Numeral
import ReluSolver.Number.Scalar
import ReluSolver.Number.Tolerance
import ReluSolver.Presolve.Simplify
import ReluSolver.Presolve.VariableMap
import ReluSolver.Proofs.BlankColumns
import ReluSolver.Proofs.CandidateSearch
import ReluSolver.Proofs.CrashConsistency
import ReluSolver.Proofs.CrewLedger
import ReluSolver.Proofs.CrewSafety
import ReluSolver.Proofs.DerivedRows
import ReluSolver.Proofs.DivisionCover
import ReluSolver.Proofs.EngineCertificates
import ReluSolver.Proofs.EngineSoundness
import ReluSolver.Proofs.EquationTerms
import ReluSolver.Proofs.EquationTest
import ReluSolver.Proofs.ExactNumbers
import ReluSolver.Proofs.LooseVariables
import ReluSolver.Proofs.LuFactors
import ReluSolver.Proofs.PresolveRebuild
import ReluSolver.Proofs.PresolveReductions
import ReluSolver.Proofs.PresolveSoundness
import ReluSolver.Proofs.PresolveTranslation
import ReluSolver.Proofs.PropagationSoundness
import ReluSolver.Proofs.RowSoundness
import ReluSolver.Proofs.RunCertificate
import ReluSolver.Proofs.RunMoves
import ReluSolver.Proofs.RunSoundness
import ReluSolver.Proofs.SearchCoverage
import ReluSolver.Proofs.Solutions
import ReluSolver.Proofs.Steps
import ReluSolver.Proofs.StoreNarrowing
import ReluSolver.Proofs.StoreTightening
import ReluSolver.Proofs.VariableFates
import ReluSolver.Query.Basic
import ReluSolver.Query.Builder
import ReluSolver.Query.Equation
import ReluSolver.Query.Relu
import ReluSolver.Query.Split
import ReluSolver.Reading.QueryText
import ReluSolver.Reading.Token
import ReluSolver.Run.Config
import ReluSolver.Run.Manager
import ReluSolver.Run.Verdict
import ReluSolver.Run.Worker
import ReluSolver.Search.Candidate
import ReluSolver.Search.Config
import ReluSolver.Search.DepthFirst
import ReluSolver.Search.Engine
import ReluSolver.Search.ExchangeTables
import ReluSolver.Search.Heuristic
import ReluSolver.Search.Monitor
import ReluSolver.Search.Randomness
import ReluSolver.Search.Scripted
import ReluSolver.Search.Session
import ReluSolver.Search.Statistics
import ReluSolver.Search.Tree
import ReluSolver.Text.Blank
import ReluSolver.Proofs.CheckpointRestore
import ReluSolver.Proofs.PresolveCorrespondence
import ReluSolver.Proofs.LuTransposed
import ReluSolver.Proofs.InPlaceChanges
import ReluSolver.Proofs.FailedCalls
import ReluSolver.Proofs.BasisViews
import ReluSolver.Proofs.BasisMachine
import ReluSolver.Proofs.RowExamination
import ReluSolver.Proofs.FaultlessDeduction
import ReluSolver.Proofs.DivisionParts
import ReluSolver.Proofs.LuPivots
import ReluSolver.Proofs.CrashIndependence
import ReluSolver.Proofs.InverseRows
import ReluSolver.Proofs.QueryBuilding
import ReluSolver.Proofs.QueryReading
import ReluSolver.Proofs.WordLayout
import ReluSolver.Proofs.QueryLayout
import ReluSolver.Proofs.SearchTools
import ReluSolver.Proofs.EngineFootprint
import ReluSolver.Proofs.EngineReuse
import ReluSolver.Proofs.FaultlessCandidates
import ReluSolver.Proofs.FaultlessSearch
import ReluSolver.Proofs.FaultlessPresolve
import ReluSolver.Proofs.FaultlessEngine
import ReluSolver.Proofs.LuDecomposition
import ReluSolver.Proofs.CrashAssembly
import ReluSolver.Proofs.BasisExchange
import ReluSolver.Proofs.ExchangeAgreement
import ReluSolver.Proofs.CandidateEquations
import ReluSolver.Proofs.ReluFixpoint
import ReluSolver.Proofs.ReluPoints
import ReluSolver.Proofs.RegionCertificates
import ReluSolver.Proofs.SearchTermination
import ReluSolver.Proofs.RowWorklist
import ReluSolver.Proofs.PresolveMap
import ReluSolver.Proofs.RowGains
import ReluSolver.Proofs.PresolveRounds
import ReluSolver.Proofs.NumberLaws
import ReluSolver.Proofs.TighteningRuns
import ReluSolver.Proofs.StoreConsistency
import ReluSolver.Proofs.SplitBounds
import ReluSolver.Proofs.SnapshotMeet
import ReluSolver.Proofs.TighteningLists
import ReluSolver.Proofs.ChangeFlags
import ReluSolver.Proofs.ObserverLog
import ReluSolver.Proofs.BisectionTiles
import ReluSolver.Proofs.RunBalance
import ReluSolver.Proofs.EquationEdits
import ReluSolver.Proofs.BranchChoice
import ReluSolver.Proofs.WordStream
import ReluSolver.Proofs.SubqueryPaths
import ReluSolver.Proofs.SplitTree
import ReluSolver.Proofs.EtaSolves
