import ShapeCheck.Number.Reader
import ShapeCheck.Pass.Run
import ShapeCheck.Proofs.Env.Orderly
import ShapeCheck.Proofs.Fit.Greatest
import ShapeCheck.Proofs.Fit.Transitive
import ShapeCheck.Proofs.Pass.Bases
import ShapeCheck.Proofs.Pass.Contractive
import ShapeCheck.Proofs.Pass.Order
import ShapeCheck.Proofs.Pass.Outcome
import ShapeCheck.Proofs.Pass.Statement
import ShapeCheck.Proofs.Fit.Join
import ShapeCheck.Proofs.Fit.Blame
import ShapeCheck.Proofs.Ty.Height
import ShapeCheck.Proofs.Fit.Descent
import ShapeCheck.Proofs.Fit.Detach
import ShapeCheck.Proofs.Fit.Offers
import ShapeCheck.Proofs.Fit.Steady
import ShapeCheck.Proofs.Fit.Access
import ShapeCheck.Proofs.Fit.Merge
import ShapeCheck.Proofs.Fit.Fits
import ShapeCheck.Proofs.Fit.Asked
import ShapeCheck.Proofs.Fit.Collect
import ShapeCheck.Proofs.Fit.CheckDecides
import ShapeCheck.Proofs.Fit.Built
import ShapeCheck.Proofs.Fit.EqualTypes
import ShapeCheck.Proofs.Fit.Canonical
import ShapeCheck.Proofs.Fit.InterLeaf
import ShapeCheck.Proofs.Fit.Retain
import ShapeCheck.Proofs.Fit.Meet
import ShapeCheck.Proofs.Ty.Laws
import ShapeCheck.Proofs.Fit.Variance
import ShapeCheck.Proofs.Fit.Widen
import ShapeCheck.Proofs.Call.Choice
import ShapeCheck.Proofs.Ty.Params
import ShapeCheck.Proofs.Ty.Preorder
import ShapeCheck.Proofs.Fit.Variants
