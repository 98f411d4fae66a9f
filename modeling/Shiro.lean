import Shiro.Boot.Bounds
import Shiro.Boot.Placement
import Shiro.Boot.Walks
import Shiro.Heap.Gaps
import Shiro.Heap.Stale
import Shiro.Initrd.RoundTrip
import Shiro.Isr.Stub
import Shiro.Keyboard.Submit
import Shiro.Panic.Breakpoint
import Shiro.Pic.Lines
import Shiro.Pmm.Ledger
import Shiro.Pmm.Reported
import Shiro.Pmm.Scan
import Shiro.Sched.Context
import Shiro.Sched.Deadline
import Shiro.Sched.Fibers
import Shiro.Sched.Stranded
import Shiro.Sched.Tasks
import Shiro.Sched.Turns
import Shiro.Shell.Displayed
import Shiro.Shell.Files
import Shiro.Shell.Lines
import Shiro.Shell.Ramdisk
import Shiro.Shell.Rows
import Shiro.Shell.StatusBar
import Shiro.Stdlib.Int2char
import Shiro.Tables.Paging
