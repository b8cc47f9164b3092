import Emend.Apply
import Emend.Commit
import Emend.FileTree.Call
import Emend.Envelope
import Emend.Path
import Emend.Log
import Emend.Text.Decoding
import Emend.Patch.Document
import Emend.Proofs.Patch.Splice
import Emend.Proofs.Patch.Placement
import Emend.Proofs.Patch.Reading
import Emend.Proofs.Patch.Alignment
import Emend.Proofs.Patch.Script
import Emend.Proofs.Ends
import Emend.Proofs.Path
import Emend.Proofs.FileTree.Lookup
import Emend.Proofs.FileTree.Temporary
import Emend.Proofs.FileTree.Opening
import Emend.Proofs.FileTree.Call
import Emend.Proofs.Commit.Ledger
import Emend.Proofs.Commit.Pass
import Emend.Proofs.Commit.Target
import Emend.Proofs.FileTree.Kept
import Emend.Proofs.Draft
import Emend.Proofs.Commit.Step
import Emend.Proofs.Commit.Rewind
import Emend.Proofs.Commit.Stage
import Emend.Proofs.Commit.InTurn
import Emend.Proofs.Commit.Atomic
import Emend.Proofs.Apply.Rollback
import Emend.Proofs.Commit.Made
import Emend.Proofs.Commit.Promotion
import Emend.Proofs.Commit.Success
import Emend.Proofs.Envelope
import Emend.Proofs.Apply.Success
import Emend.Proofs.Commit.Completion
import Emend.Proofs.Apply.Order
import Emend.Proofs.FileTree.Arrival
import Emend.Proofs.FileTree.Confined
import Emend.Proofs.Commit.Containment
import Emend.Proofs.Patch.Fuzz
import Emend.Proofs.Commit.Cleanup
import Emend.Proofs.Patch.Consumption
import Emend.Proofs.FileTree.Effect
import Emend.Proofs.FileTree.Route
import Emend.Proofs.FileTree.Litter
import Emend.Proofs.Commit.Tracking
import Emend.Proofs.Commit.Sweep
import Emend.Proofs.Patch.Terminator
import Emend.Proofs.Apply.Collision
import Emend.Proofs.Commit.Isolation
import Emend.Proofs.Commit.Refinement
import Emend.Proofs.Text.Blank
import Emend.Proofs.Text.Joined
import Emend.Proofs.Envelope.Grammar
import Emend.Proofs.Envelope.Writing
import Emend.Proofs.Ignore.Glob
import Emend.Proofs.Ignore.Protection
import Emend.Proofs.Apply.Protection
import Emend.Proofs.Patch.Replacement
import Emend.Proofs.Envelope.Pairs
import Emend.Proofs.FileTree.Abort
import Emend.Proofs.Commit.Abort
import Emend.Proofs.Apply.Untouched
import Emend.Proofs.Patch.Search
import Emend.Proofs.Patch.Ending
import Emend.Proofs.Patch.Body
import Emend.Proofs.Patch.Section
import Emend.Proofs.Patch.Header
import Emend.Proofs.Patch.Addition
import Emend.Proofs.Path.Spelling
import Emend.Proofs.Patch.BlankHeader
import Emend.Proofs.Commit.Backup
import Emend.Proofs.Apply.Backup
import Emend.Proofs.Commit.Accounts
import Emend.Proofs.Commit.FirstFailure
import Emend.Proofs.FileTree.NewFile
import Emend.Proofs.Commit.Forecast
import Emend.Proofs.Apply.Forecast
import Emend.Proofs.Ignore.Ancestor
import Emend.Proofs.FileTree.Footprint
import Emend.Proofs.Ignore.Nearest
import Emend.Proofs.Patch.Anchor
