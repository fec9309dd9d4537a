import Flange.Build
import Flange.Number.Machine
import Flange.Proofs.Graph.Augment
import Flange.Proofs.Graph.Matching
import Flange.Proofs.Reduction.Coverage
import Flange.Proofs.Reduction.WellPosed
import Flange.Proofs.Graph.Blocks
import Flange.Proofs.Expr.Occurrence
import Flange.Proofs.Expr.Linear
import Flange.Proofs.Reduction.Stages
import Flange.Proofs.Reduction.Lowering
import Flange.Proofs.Reduction.Dummy
import Flange.Proofs.Reduction.SemiExplicit
import Flange.Proofs.Reduction.Alias
import Flange.Proofs.Reduction.Accounting
import Flange.Proofs.Expr.Sum
import Flange.Proofs.Expr.Product
import Flange.Proofs.Expr.Derivative
import Flange.Proofs.Expr.Straight
import Flange.Proofs.Solution.Alias
import Flange.Proofs.Reduction.Repeated
import Flange.Proofs.Connection.Balance
import Flange.Proofs.Reduction.Minimality
import Flange.Proofs.Component.Declare
import Flange.Proofs.Component.Rotational
import Flange.Proofs.Component.Power
import Flange.Proofs.Component.Variables
import Flange.Proofs.Assembly
import Flange.Proofs.Connection.Power
import Flange.Proofs.Connection.Potentials
import Flange.Proofs.Unknowns
import Flange.Proofs.Solution.Power
import Flange.Proofs.Reduction.Fixed
import Flange.Proofs.Diagram
import Flange.Proofs.InitialValues
import Flange.Proofs.Initial.Requests
import Flange.Proofs.Initial.Point
import Flange.Proofs.Initial.Satisfied
import Flange.Proofs.Initial.Override
import Flange.Proofs.Solution.Divisors
import Flange.Proofs.Expr.Determined
import Flange.Proofs.Component.Formed
import Flange.Proofs.Assembly.Meaning
import Flange.Proofs.Assembly.Closed
import Flange.Proofs.Reduction.Matched
import Flange.Proofs.Reduction.Selection
import Flange.Proofs.Initial.Filled
import Flange.Proofs.Solution.Elimination
import Flange.Proofs.Solution.Pointwise
import Flange.Proofs.Reduction.Inherited
import Flange.Proofs.Graph.Alternating
import Flange.Proofs.Solution.Extension
import Flange.Proofs.Solution.Derivatives
import Flange.Proofs.Reduction.Names
import Flange.Proofs.Connection.Ownership
import Flange.Proofs.Component.Refusal
import Flange.Proofs.Expr.Unbroken
import Flange.Proofs.Reduction.Preference
