import LinearModel.Double
import LinearModel.Expr.Operation
import LinearModel.Matrix
import LinearModel.Mps
import LinearModel.Proofs.Naming
import LinearModel.Proofs.Subscripts
import LinearModel.Proofs.Origins
import LinearModel.Proofs.FailedAssignment
import LinearModel.Proofs.Hygiene
import LinearModel.Proofs.Staleness
import LinearModel.Proofs.ExchangeSections
import LinearModel.Proofs.ExchangeNames
import LinearModel.Proofs.RepeatedExpansion
import LinearModel.Proofs.Regime
import LinearModel.Proofs.Grounded
import LinearModel.Proofs.Nesting
import LinearModel.Proofs.FailedBuild
import LinearModel.Proofs.FailedStatement
import LinearModel.Proofs.BuildHistory
import LinearModel.Proofs.UndisturbedReads
import LinearModel.Proofs.Untouched
import LinearModel.Proofs.Replay
import LinearModel.Proofs.Resolution
import LinearModel.Proofs.TypedRegistry
import LinearModel.Proofs.TypedEvaluation
import LinearModel.Proofs.TypedReading
import LinearModel.Proofs.TypedHistories
import LinearModel.Proofs.Loading
import LinearModel.Proofs.SubstitutedValue
import LinearModel.Proofs.SimplifiedValue
import LinearModel.Proofs.Affine
import LinearModel.Proofs.Combinations
import LinearModel.Proofs.Composition
import LinearModel.Proofs.Flattening
import LinearModel.Proofs.EqualDoubles
import LinearModel.Proofs.WrittenValue
import LinearModel.Proofs.Lexing
import LinearModel.Proofs.Splitting
import LinearModel.Proofs.Comments
