import LogBarrier.Continuation.Basic
import LogBarrier.Gallery.HockSchittkowski
import LogBarrier.Gallery.Quadratic
import LogBarrier.Gallery.RandomQuadratic
import LogBarrier.Random.Generator
import LogBarrier.Scalar.Binary64
import LogBarrier.Terms.Problem
import LogBarrier.Proofs.Barrier.Hessian
import LogBarrier.Proofs.Continuation.History
import LogBarrier.Proofs.Continuation.Interchange
import LogBarrier.Proofs.Continuation.Reports
import LogBarrier.Proofs.Continuation.Validation
import LogBarrier.Proofs.Operator.Constructed
import LogBarrier.Proofs.TrustRegion.Accounting
import LogBarrier.Proofs.TrustRegion.Descent
import LogBarrier.Proofs.TrustRegion.Finite
import LogBarrier.Proofs.TrustRegion.Merit
import LogBarrier.Proofs.TrustRegion.UnitSegment
import LogBarrier.Proofs.Exact.ProjectionLaws
import LogBarrier.Proofs.TrustRegion.Residual
import LogBarrier.Proofs.TrustRegion.Containment
import LogBarrier.Proofs.TrustRegion.Undisturbed
import LogBarrier.Proofs.TrustRegion.FiniteTermination
import LogBarrier.Proofs.TrustRegion.Rejections
import LogBarrier.Proofs.Barrier.RowRank
import LogBarrier.Proofs.Barrier.ScaledValue
import LogBarrier.Proofs.Operator.Cells
import LogBarrier.Proofs.Gallery.Derivatives
