import Zeos.Machine.Path
import Zeos.Machine.Stack
import Zeos.Machine.Recording
import Zeos.Machine.Run
import Zeos.Machine.Ownership
import Zeos.Machine.CString
import Zeos.Machine.Numeral
import Zeos.Machine.LongDivision
import Zeos.Paging
import Zeos.Sys
import Zeos.Frames
import Zeos.FrameRuns
import Zeos.Isolation
import Zeos.GiveBack
import Zeos.UserPointer
import Zeos.Entry
import Zeos.SystemCall
import Zeos.SyscallPaths
import Zeos.LibcSys
import Zeos.Clock
import Zeos.Build
import Zeos.Bootsect
import Zeos.Boot
import Zeos.Keyboard
import Zeos.Lists
import Zeos.Interrupts
import Zeos.Numerals
import Zeos.PageTable
import Zeos.Ticks
import Zeos.ListTraversal
import Zeos.AddressSpace
import Zeos.TaskMemory
import Zeos.FlatMemory
import Zeos.MainMemory
import Zeos.Preemption
import Zeos.Idt
import Zeos.Segments
import Zeos.Pic
import Zeos.PagedWrite
import Zeos.LibcOutput
import Zeos.Ports
import Zeos.Main
import Zeos.System
