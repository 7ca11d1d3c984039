import Comp304.Library.Budget
import Comp304.Library.Lanes
import Comp304.Library.Traces
import Comp304.Alloc.Accounting
import Comp304.Alloc.Layout
import Comp304.Alloc.Reuse
import Comp304.Alloc.Merge
import Comp304.Alloc.Trim
import Comp304.Alloc.CleanRuns
import Comp304.Alloc.Contract
import Comp304.Alloc.Leak
import Comp304.Alloc.FirstFit
import Comp304.Alloc.Termination
import Comp304.Alloc.FreeOrder
import Comp304.Alloc.Batching
import Comp304.Alloc.Refusal
import Comp304.Alloc.Undo
import Comp304.Alloc.Access
import Comp304.Alloc.Locality
import Comp304.Alloc.Magnitudes
import Comp304.Alloc.PrevLinks
import Comp304.Metro.Scheduling
import Comp304.Metro.Clearance
import Comp304.Metro.Overshoot
import Comp304.Metro.Logs
import Comp304.Metro.Snapshots
import Comp304.Psvis.RoundTrip
import Comp304.Psvis.Numbering
import Comp304.Psvis.Eldest
import Comp304.Shell.AliasHistory
import Comp304.Shell.Arguments
import Comp304.Shell.Hexdump
import Comp304.Shell.Repl
import Comp304.Shell.AliasTables
import Comp304.Shell.Editor
import Comp304.Library.Edits
import Comp304.Shell.Sessions
import Comp304.Shell.Typing
import Comp304.Shell.Redirections
import Comp304.Shell.Bounds
import Comp304.Shell.Rewriting
import Comp304.Psvis.Traversal
import Comp304.Alloc.Refinement
import Comp304.Metro.Passage
import Comp304.Psvis.Drawing
import Comp304.Shell.Execution
import Comp304.Framework.Intercept
import Comp304.Framework.Verdicts
