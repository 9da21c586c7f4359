import Predictive.Deployment.Launch
import Predictive.Main
import Predictive.Proofs.Conflict.LeftRecursion
import Predictive.Proofs.Conflict.Listing
import Predictive.Proofs.Conflict.Pairwise
import Predictive.Proofs.Console.Batch
import Predictive.Proofs.Extension
import Predictive.Proofs.Grammar.Loaded
import Predictive.Proofs.Grammar.Spacing
import Predictive.Proofs.Machine.Building
import Predictive.Proofs.Machine.ErrorPosition
import Predictive.Proofs.Reordering
import Predictive.Proofs.Service.Answers
import Predictive.Proofs.Session.Fields
import Predictive.Proofs.Sets.Least
import Predictive.Proofs.Sets.Passes
import Predictive.Proofs.Sets.Scan
import Predictive.Proofs.Totality
import Predictive.Proofs.Table.Cells
import Predictive.Proofs.Table.Clash
import Predictive.Proofs.Table.Register
import Predictive.Proofs.Table.Views
import Predictive.Proofs.Tree.Ambiguity
import Predictive.Proofs.Tree.Bracketed
import Predictive.Proofs.Tree.Dot
import Predictive.Proofs.Tree.Layout
import Predictive.Proofs.Tree.Serialised
