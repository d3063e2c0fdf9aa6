import Prediction.Alternatives.Json
import Prediction.ConfigSet.Cursor
import Prediction.ConfigSet.Frozen
import Prediction.Context.Graph
import Prediction.Context.Stacks
import Prediction.Context.Tree
import Prediction.Digest
import Prediction.Guard.Instance
import Prediction.Guard.Truth
import Prediction.Proofs.Alternatives.Listing
import Prediction.Proofs.Alternatives.Reading
import Prediction.Proofs.ConfigSet.Changes
import Prediction.Proofs.ConfigSet.Parentheses
import Prediction.Proofs.ConfigSet.Printing
import Prediction.Proofs.ConfigSet.Refusals
import Prediction.Proofs.ConfigSet.Stripping
import Prediction.Proofs.ConfigSet.Sweeping
import Prediction.Proofs.Context.Accounting
import Prediction.Proofs.Context.Checked
import Prediction.Proofs.Context.Comparison
import Prediction.Proofs.Context.Worklist
import Prediction.Proofs.Guard.NormalForm
import Prediction.Proofs.Guard.Truth
import Prediction.Proofs.Network.Checked
import Prediction.Proofs.Network.Numbering
import Prediction.Proofs.Session.Accounting
import Prediction.Proofs.Session.Aggregates
import Prediction.Proofs.Session.Alike
import Prediction.Proofs.Session.Answers
import Prediction.Proofs.Session.Canonizing
import Prediction.Proofs.Session.Counting
import Prediction.Proofs.Session.Equality
import Prediction.Proofs.Session.Interning
import Prediction.Proofs.Session.Invariants
import Prediction.Proofs.Session.Joining
import Prediction.Proofs.Session.Operands
import Prediction.Proofs.Session.Order
import Prediction.Proofs.Session.Origins
import Prediction.Proofs.Session.Outermost
import Prediction.Proofs.Session.Proper
import Prediction.Proofs.Session.Reach
import Prediction.Proofs.Session.Refusals
import Prediction.Proofs.Session.Stripping
import Prediction.Proofs.Session.Sweeping
import Prediction.Proofs.Session.Tallies
import Prediction.Proofs.Session.Texts
import Prediction.Proofs.Session.Thawing
import Prediction.Proofs.Session.Transparency
import Prediction.Proofs.Session.Unfolding
import Prediction.Proofs.Session.Union
import Prediction.Proofs.Session.Walks
import Prediction.Proofs.Session.WellFormed
