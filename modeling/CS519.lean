import CS519.Run
import CS519.Runs
import CS519.Tree
import CS519.Enumerate
import CS519.Arrays
import CS519.Parallel
import CS519.Fair
import CS519.Atomic
import CS519.Barrier
import CS519.CInt
import CS519.CText
import CS519.Uaccess
import CS519.Extents.Table
import CS519.Extents.Search
import CS519.Extents.Scan
import CS519.Extents.Insert
import CS519.Extents.Remove
import CS519.Extents.Refine
import CS519.Extents.Canonical
import CS519.Extents.Duplicates
import CS519.Extents.PageList
import CS519.Extents.Ascending
import CS519.Extents.Allocation
import CS519.Extents.Ledger
import CS519.Extents.Mm
import CS519.Extents.Reported
import CS519.Extents.Critical
import CS519.Extents.Report
import CS519.Extents.Concurrent
import CS519.Extents.Life
import CS519.Extents.Benchmark
import CS519.Locks.Lock
import CS519.Locks.Ticket
import CS519.Locks.TwoState
import CS519.Locks.Bench
import CS519.Locks.SelfCheck
import CS519.Locks.Blocking
import CS519.Locks.Completes
import CS519.Locks.Starvation
import CS519.Sched.Cfs
import CS519.Sched.Timeline
import CS519.Sched.Penalty
import CS519.Sched.Wrap
import CS519.Sched.Waiting
import CS519.Sched.Tunable
import CS519.Sched.Hierarchy
import CS519.Sched.Reactivate
import CS519.Sched.Fork
import CS519.Sched.Programs
import CS519.Sched.Completes
import CS519.Sched.Field
import CS519.Ipc.Product
import CS519.Ipc.Shared
import CS519.Ipc.Chunks
import CS519.Ipc.Pipe
import CS519.Ipc.Aligned
import CS519.Ipc.PipeCompletes
import CS519.Ipc.SharedCompletes
import CS519.Ipc.Checked
import CS519.Ipc.RowCode
import CS519.Matmul.Segments
import CS519.Matmul.Threads
import CS519.Matmul.Plain
import CS519.Matmul.Indices
import CS519.AppHelper
import CS519.AppHelperTest
