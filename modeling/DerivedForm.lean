import DerivedForm.Main
import DerivedForm.Form.Session
import DerivedForm.Value.OfJson
import DerivedForm.Proofs.Form.Freshness
import DerivedForm.Proofs.Form.History
import DerivedForm.Proofs.Form.VisitOrders
import DerivedForm.Proofs.Payload.Unchanged
import DerivedForm.Proofs.Form.Baseline
import DerivedForm.Proofs.Form.Focus
import DerivedForm.Proofs.Form.Representation
import DerivedForm.Proofs.Form.Protection
import DerivedForm.Proofs.Form.Saves
import DerivedForm.Proofs.Payload.Numbers
import DerivedForm.Proofs.Payload.Types
import DerivedForm.Proofs.Form.ReadOnly
import DerivedForm.Proofs.Formula.Derivation
import DerivedForm.Proofs.Recalculation.Missing
import DerivedForm.Proofs.Recalculation.Frame
import DerivedForm.Proofs.Formula.Mentioned
import DerivedForm.Proofs.Formula.Splicing
import DerivedForm.Proofs.Dependency.Countdown
import DerivedForm.Proofs.Dependency.Cycles
import DerivedForm.Proofs.Recalculation.Emptied
import DerivedForm.Proofs.Value.Retyped
import DerivedForm.Proofs.Recalculation.Changes
import DerivedForm.Proofs.Recalculation.Reported
import DerivedForm.Proofs.Form.Overridden
import DerivedForm.Proofs.Form.Answers
import DerivedForm.Proofs.Value.Whole
import DerivedForm.Proofs.Number.Rerounding
import DerivedForm.Proofs.Console.Agreement
import DerivedForm.Proofs.Formula.Scanning
