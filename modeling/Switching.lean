import Switching.Proofs.Assignment.History
import Switching.Proofs.Cube.Enumeration
import Switching.Proofs.CubeList.Keyed
import Switching.Proofs.CubeList.RoundTrip
import Switching.Proofs.Expression.Conservation
import Switching.Proofs.Expression.Evaluation
import Switching.Proofs.Form.Coverage
import Switching.Proofs.Form.Styles
import Switching.Proofs.Minimized.Effective
import Switching.Proofs.Minimized.Order
import Switching.Proofs.Minimized.Selection
import Switching.Proofs.Session.Composition
import Switching.Proofs.Session.Dependence
import Switching.Proofs.Session.FixedPoint
import Switching.Proofs.Session.Toggling
import Switching.Proofs.Session.Views
import Switching.Proofs.TermList.Report
import Switching.Proofs.TermList.RoundTrip
import Switching.Proofs.TruthTable.Rows
