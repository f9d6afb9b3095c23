import BootPerl.Theorems.PageAllocator
import BootPerl.Lemmas.Fuel
import BootPerl.Lemmas.Blocks
import BootPerl.Lemmas.Heap
import BootPerl.Lemmas.Ownership
import BootPerl.Theorems.KfreeFrame
import BootPerl.Theorems.HeapOwnership
import BootPerl.Lib.Ring
import BootPerl.Task
import BootPerl.Lemmas.Tasks
import BootPerl.Theorems.RunRing
import BootPerl.Lock
import BootPerl.Theorems.KernelLock
import BootPerl.Printk
import BootPerl.Lemmas.Printk
import BootPerl.Theorems.LateConsole
import BootPerl.Lib.Words
import BootPerl.Switch
import BootPerl.Lemmas.Switch
import BootPerl.Theorems.ContextSwitch
import BootPerl.Theorems.FirstDispatch
import BootPerl.Irq
import BootPerl.Lemmas.Irq
import BootPerl.Theorems.InterruptLines
import BootPerl.Setup
import BootPerl.Theorems.MemorySize
import BootPerl.Keyboard
import BootPerl.Lib.Circular
import BootPerl.Theorems.KeyboardDelivery
import BootPerl.Theorems.Modifiers
import BootPerl.Theorems.LostWakeup
import BootPerl.Theorems.TaskPointers
import BootPerl.Theorems.PrintkStream
import BootPerl.Console
import BootPerl.Lemmas.Console
import BootPerl.Theorems.ScreenBounds
import BootPerl.Theorems.Terminal
import BootPerl.Build
import BootPerl.Lib.Extents
import BootPerl.Loader
import BootPerl.Lemmas.Build
import BootPerl.Lemmas.Loader
import BootPerl.Theorems.BootImage
import BootPerl.Theorems.FirstFit
import BootPerl.Theorems.ReleaseOrder
import BootPerl.Theorems.MemFree
import BootPerl.Lemmas.Search
import BootPerl.Theorems.KallocSearch
import BootPerl.Theorems.KallocEnough
import BootPerl.Perlwrap
import BootPerl.Theorems.Realloc
import BootPerl.Theorems.BuildStatus
import BootPerl.Lemmas.Oversize
import BootPerl.Theorems.KallocSizes
import BootPerl.Lib.CString
import BootPerl.Theorems.Strcmp
import BootPerl.Theorems.Calloc
import BootPerl.Theorems.KeyboardQueue
import BootPerl.Calibrate
import BootPerl.Lib.Bits
import BootPerl.Theorems.DelayCalibration
import BootPerl.Theorems.ConsoleCuts
import BootPerl.Theorems.RoundRobin
import BootPerl.Theorems.WakeOrder
import BootPerl.Clock
import BootPerl.Theorems.Timeslice
import BootPerl.Theorems.Rescheduling
import BootPerl.Vsprintf
import BootPerl.Lemmas.Vsprintf
import BootPerl.Theorems.PrintkBuffer
import BootPerl.Theorems.Strncmp
import BootPerl.Lib.Positions
import BootPerl.Theorems.CharSearch
import BootPerl.Theorems.Numbers
import BootPerl.Theorems.NumberParser
import BootPerl.Status
import BootPerl.Theorems.StatusLine
import BootPerl.Theorems.Acknowledged
import BootPerl.Theorems.BoundedWait
import BootPerl.Theorems.TimeAccounts
import BootPerl.Lib.NullList
import BootPerl.Theorems.HandlerLists
import BootPerl.Trap
import BootPerl.Theorems.TrapReturn
import BootPerl.Theorems.BlockReturn
import BootPerl.Report
import BootPerl.Lib.Sizes
import BootPerl.Theorems.MemoryConserved
import BootPerl.Theorems.KernelRun
import BootPerl.Lib.Interleave
import BootPerl.Screen
import BootPerl.Theorems.SharedScreen
import BootPerl.Theorems.LogOnScreen
import BootPerl.Theorems.PayloadKept
import BootPerl.Vectors
import BootPerl.Theorems.VectorTable
import BootPerl.Theorems.InterruptPath
import BootPerl.Theorems.FormatPieces
import BootPerl.Panic
import BootPerl.Theorems.PanicShown
import BootPerl.Theorems.ExceptionShown
import BootPerl.Theorems.TypedText
import BootPerl.Theorems.PrintedNumbers
import BootPerl.Theorems.StringCopy
