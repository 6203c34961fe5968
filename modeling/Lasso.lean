import Lasso.Main
import Lasso.Proofs.Command.SearchTree
import Lasso.Proofs.Document.Coverage
import Lasso.Proofs.Eval.Conjoin
import Lasso.Proofs.Eval.Independent
import Lasso.Proofs.Eval.Lines
import Lasso.Proofs.Eval.Printed
import Lasso.Proofs.Eval.Queue
import Lasso.Proofs.Forest.Newick
import Lasso.Proofs.Ordered.History
import Lasso.Proofs.Product.Runs
import Lasso.Proofs.Service.Cache
import Lasso.Proofs.System.Deadlock
import Lasso.Proofs.System.Image
import Lasso.Proofs.System.Removal
import Lasso.Proofs.Unfold.Circuit
import Lasso.Proofs.Unfold.Interleave
import Lasso.Proofs.Unfold.Labels
import Lasso.Proofs.Unfold.Limit
import Lasso.Proofs.Value.Tuple
