import LaurentCalc.Expression.Grammar
import LaurentCalc.Main
import LaurentCalc.Polynomial.Evaluation
import LaurentCalc.Proofs.CanonicalForm.Merging
import LaurentCalc.Proofs.CanonicalForm.Accumulation
import LaurentCalc.Proofs.CanonicalForm.Width
import LaurentCalc.Proofs.Expression.RoundTrip
import LaurentCalc.Proofs.Expression.Causes
import LaurentCalc.Proofs.Polynomial.Simulation
import LaurentCalc.Proofs.Menu.Rounds
import LaurentCalc.Proofs.Menu.Resumption
import LaurentCalc.Proofs.CanonicalForm.Overflow
import LaurentCalc.Proofs.Polynomial.PartialGroup
import LaurentCalc.Proofs.Output.Delivery
import LaurentCalc.Proofs.Output.Truncation
import LaurentCalc.Proofs.Polynomial.TextAddition
import LaurentCalc.Proofs.Expression.Concatenation
import LaurentCalc.Proofs.Polynomial.Identity
import LaurentCalc.Proofs.Polynomial.Value
import LaurentCalc.Proofs.Program.Arguments
import LaurentCalc.Proofs.Polynomial.Outcomes
import LaurentCalc.Proofs.Session.Listing
import LaurentCalc.Proofs.Session.Requests
import LaurentCalc.Proofs.Session.History
import LaurentCalc.Proofs.Polynomial.Additivity
import LaurentCalc.Proofs.Polynomial.BitPowers
import LaurentCalc.Proofs.Polynomial.Sums
import LaurentCalc.Proofs.Polynomial.Negation
