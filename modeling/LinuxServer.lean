import LinuxServer.Library.Memory
import LinuxServer.Library.LinkedList
import LinuxServer.Library.Arrays
import LinuxServer.Library.BinaryHeap
import LinuxServer.Library.Machine
import LinuxServer.EventLoop
import LinuxServer.Wheel.Basic
import LinuxServer.Wheel.Refinement
import LinuxServer.Wheel.Expiry
import LinuxServer.Wheel.Server
import LinuxServer.Heap.Basic
import LinuxServer.Heap.Refinement
import LinuxServer.Heap.Percolation
import LinuxServer.Heap.Runs
import LinuxServer.Heap.Bounds
import LinuxServer.Heap.Server
import LinuxServer.Heap.Alarm
import LinuxServer.SortedList.Basic
import LinuxServer.SortedList.Refinement
import LinuxServer.SortedList.Runs
import LinuxServer.SortedList.Tail
import LinuxServer.SortedList.Server
import LinuxServer.SortedList.Refresh
import LinuxServer.Shm.Basic
import LinuxServer.Shm.Isolation
import LinuxServer.Shm.Forgotten
import LinuxServer.Shm.Delivery
import LinuxServer.Shm.Loop
import LinuxServer.Shm.Descriptors
import LinuxServer.Shm.Fanout
import LinuxServer.Shm.Shutdown
import LinuxServer.Shm.Wakeups
import LinuxServer.Chat.Basic
import LinuxServer.Chat.Room
import LinuxServer.Chat.Refinement
import LinuxServer.Chat.Runs
import LinuxServer.Chat.Clients
import LinuxServer.Chat.Passes
import LinuxServer.LineInput
import LinuxServer.Seml
import LinuxServer.Libevent.Evmap
import LinuxServer.Libevent.Epoll
import LinuxServer.Libevent.Watching
import LinuxServer.Libevent.Poll
import LinuxServer.Libevent.Polling
import LinuxServer.Libevent.MinHeap
import LinuxServer.Libevent.TimeoutQueue
import LinuxServer.Libevent.Timers
import LinuxServer.Libevent.Active
import LinuxServer.Libevent.Base
import LinuxServer.Libevent.BaseOk
import LinuxServer.Libevent.Deadlines
import LinuxServer.Libevent.Callbacks
import LinuxServer.Libevent.Loop
import LinuxServer.Libevent.Guarantees
import LinuxServer.Library.Bytes
import LinuxServer.Libevent.Tagging
import LinuxServer.Libevent.Records
import LinuxServer.Library.Windows
import LinuxServer.Libevent.Evbuffer
import LinuxServer.Libevent.EvbufferOps
import LinuxServer.Libevent.Evbuffers
import LinuxServer.Libevent.EvbufferRuns
import LinuxServer.Echo.Basic
import LinuxServer.Echo.Streams
import LinuxServer.Echo.Stranded
import LinuxServer.IpcPrivate
