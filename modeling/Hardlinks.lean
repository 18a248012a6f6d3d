import Hardlinks.Config.Document
import Hardlinks.Draft
import Hardlinks.FileSystem.Lemmas
import Hardlinks.FileSystem.Tree
import Hardlinks.Installation
import Hardlinks.Proofs.Config.Document
import Hardlinks.Proofs.Config.PlainNames
import Hardlinks.Proofs.Draft.Written
import Hardlinks.Proofs.FileSystem.LawfulGrowth
import Hardlinks.Proofs.FileSystem.NewDirectories
import Hardlinks.Proofs.FileSystem.Nodes
import Hardlinks.Proofs.FileSystem.Parents
import Hardlinks.Proofs.FileSystem.Provision
import Hardlinks.Proofs.Identity
import Hardlinks.Proofs.Installation.Failure
import Hardlinks.Proofs.Installation.Taken
import Hardlinks.Proofs.Lifecycle
import Hardlinks.Proofs.LinkPlan.Flattening
import Hardlinks.Proofs.LinkPlan.Generations
import Hardlinks.Proofs.LinkPlan.Rewriting
import Hardlinks.Proofs.Manifest.Accounting
import Hardlinks.Proofs.Path.Joined
import Hardlinks.Proofs.Pipeline
import Hardlinks.Proofs.Replay.Abort
import Hardlinks.Proofs.Replay.Chains
import Hardlinks.Proofs.Replay.Cleanup
import Hardlinks.Proofs.Replay.Containment
import Hardlinks.Proofs.Replay.Effect
import Hardlinks.Proofs.Replay.Events
import Hardlinks.Proofs.Replay.Order
import Hardlinks.Proofs.Replay.Policies
import Hardlinks.Proofs.Replay.Restart
import Hardlinks.Proofs.Replay.Retry
import Hardlinks.Proofs.Replay.WellPrepared
import Hardlinks.Proofs.TreeLinks
import Hardlinks.Proofs.TreeLinks.Failure
import Hardlinks.Proofs.TreeLinks.Order
import Hardlinks.Replay
import Hardlinks.TreeLinks
