import SysProg.Shell.Boundary
import SysProg.Shell.QuotedCommand
import SysProg.Shell.Loop
import SysProg.Shell.Pieces
import SysProg.MergeSort.Program
import SysProg.MergeSort.ReadLoop
import SysProg.Shell.Continuation
import SysProg.Coro.Rounds
import SysProg.Shell.SpecialFlag
import SysProg.MergeSort.Turn
import SysProg.MergeSort.Bounds
import SysProg.HeapHelp.Accounting
import SysProg.HeapHelp.Touch
import SysProg.HeapHelp.Threads
import SysProg.MergeSort.Ledger
import SysProg.MergeSort.Clock
import SysProg.MergeSort.SwitchCount
import SysProg.Lib.Recording
import SysProg.MergeSort.Reads
import SysProg.MergeSort.CommandLine
import SysProg.Coro.ListOps
import SysProg.Shell.ScanHeads
import SysProg.Shell.Lines
import SysProg.MergeSort.Checker
import SysProg.MergeSort.Cleanup
import SysProg.Shell.Script
import SysProg.Shell.Grouping
import SysProg.Coro.Order
import SysProg.HeapHelp.Lock
import SysProg.HeapHelp.Quiescent
import SysProg.HeapHelp.Copies
import SysProg.Ipc.Programs
import SysProg.Threads.Futex
import SysProg.Threads.Reclaim
import SysProg.Threads.Condvar
