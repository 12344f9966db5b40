import Univariate.Buffer.Evaluation
import Univariate.Poly.Collection
import Univariate.Poly.Division
import Univariate.Proofs.DivisionAgreement
import Univariate.Proofs.PolyReduction
import Univariate.Proofs.Sessions
import Univariate.Proofs.EliminationAgreement
import Univariate.Proofs.DivisionModulo
import Univariate.Proofs.CanonicalEdits
import Univariate.Proofs.CanonicalSessions
import Univariate.Proofs.Refusals
import Univariate.Proofs.TargetContents
import Univariate.Proofs.Outcomes
import Univariate.Proofs.LeadingCoefficients
import Univariate.Proofs.InexactDivision
import Univariate.Proofs.ArbitraryOperands
import Univariate.Proofs.ReductionOutcomes
import Univariate.Proofs.ProductContents
import Univariate.Proofs.PrimitiveBuffers
import Univariate.Proofs.AccumulationAgreement
import Univariate.Proofs.Evaluation
import Univariate.Proofs.FarSigns
import Univariate.Proofs.EditedValues
import Univariate.Proofs.Derivatives
import Univariate.Proofs.Representatives
import Univariate.Proofs.RoundTrips
import Univariate.Proofs.Unscaling
import Univariate.Proofs.MergedTerms
import Univariate.Proofs.TrialDivision
import Univariate.Proofs.Readability
import Univariate.Proofs.EliminationTraces
