import Lilith.VirtualAlloc.Runs
import Lilith.Draw.Composite
import Lilith.Boot.Runs
import Lilith.Boot.Reclaim
import Lilith.Sched.Procs
import Lilith.Tasks.Wakeups
import Lilith.RamFs.Correct
import Lilith.Buddy.Runs
import Lilith.Draw.Canonical
import Lilith.Draw.QueryCorrect
import Lilith.Draw.Restack
import Lilith.Boot.Mmap
import Lilith.VirtualAlloc.Rollback
import Lilith.VirtualAlloc.Guards
import Lilith.Draw.EmptyRects
import Lilith.Buddy.Mapped
import Lilith.VirtualAlloc.FirstFit
import Lilith.VirtualAlloc.Mappings
import Lilith.VirtualAlloc.KernelAlloc
import Lilith.Boot.FrameInfos
import Lilith.Buddy.Coalesced
import Lilith.Sched.OnTime
import Lilith.Draw.Blit
import Lilith.Draw.Stacking
import Lilith.Rbtree.Iter
import Lilith.Slub.Runs
import Lilith.Rbtree.Independent
import Lilith.Direct.Correct
import Lilith.Machine.Correct
import Lilith.Direct.Leaks
import Lilith.Direct.Origin
import Lilith.User.Load
import Lilith.Sched.Fair
import Lilith.Tasks.Fair
import Lilith.Tasks.Sleepers
import Lilith.Draw.Console
import Lilith.Rbtree.Check
import Lilith.MemoryMap
