import PosixThreads.Library.Iterate
import PosixThreads.Library.Heap
import PosixThreads.Library.Probe
import PosixThreads.Library.Bubble
import PosixThreads.Library.Ring
import PosixThreads.Library.Lts
import PosixThreads.Library.Locks
import PosixThreads.Library.Threads
import PosixThreads.Library.Semaphores
import PosixThreads.Library.Block
import PosixThreads.Library.Flat
import PosixThreads.Common.Error
import PosixThreads.Common.Io
import PosixThreads.Common.ReadInteger
import PosixThreads.Common.ReadLine
import PosixThreads.Common.Arc
import PosixThreads.Common.Memory
import PosixThreads.Collections.Hash.Basic
import PosixThreads.Collections.Hash.Spec
import PosixThreads.Collections.Hash.Map
import PosixThreads.Collections.Hash.Upsert
import PosixThreads.Collections.Hash.Capacity
import PosixThreads.Collections.Hash.ByteHasher
import PosixThreads.Collections.Hash.Probing
import PosixThreads.Collections.Dlist.Basic
import PosixThreads.Collections.Dlist.Spec
import PosixThreads.Collections.Dlist.Refines
import PosixThreads.Collections.Dlist.Swap
import PosixThreads.Collections.Dlist.Front
import PosixThreads.Collections.Vec.Basic
import PosixThreads.Collections.Vec.Bulk
import PosixThreads.Collections.String.Basic
import PosixThreads.Collections.String.Spec
import PosixThreads.Collections.String.Refines
import PosixThreads.Collections.String.Slice
import PosixThreads.Collections.String.Compare
import PosixThreads.Executor.ThreadPool
import PosixThreads.Executor.Idle
import PosixThreads.Executor.Shutdown
import PosixThreads.Executor.Submission
import PosixThreads.Quasi.Buffer
import PosixThreads.Quasi.Basic
import PosixThreads.Quasi.Sound
import PosixThreads.Quasi.Wakeup
import PosixThreads.Interprint.Basic
import PosixThreads.Interprint.Sound
import PosixThreads.Loop.Basic
import PosixThreads.Loop.Dispatch
import PosixThreads.Loop.Errors
import PosixThreads.Loop.Isolation
import PosixThreads.Loop.Shutdown
import PosixThreads.Loop.Wakeup
import PosixThreads.Loop.Mask
import PosixThreads.Loop.Queued
import PosixThreads.Loop.OnPool
import PosixThreads.Loop.Io
import PosixThreads.Loop.Resume
import PosixThreads.Loop.Tcp
import PosixThreads.Loop.TcpRead
import PosixThreads.Waxy.Url.Basic
import PosixThreads.Waxy.Url.Parser
import PosixThreads.Waxy.Url.Layout
import PosixThreads.Waxy.Url.Bounds
import PosixThreads.Waxy.Url.Failure
import PosixThreads.Waxy.Url.Run
import PosixThreads.Waxy.Url.Plain
import PosixThreads.Waxy.Url.Port
import PosixThreads.Waxy.Url.Text
import PosixThreads.Waxy.Url.Normalize
import PosixThreads.Waxy.Url.PortValue
import PosixThreads.Waxy.Url.Special
import PosixThreads.Waxy.Url.Userinfo
import PosixThreads.Waxy.Url.Eq
import PosixThreads.Waxy.Url.Copy
import PosixThreads.Waxy.Cache.Basic
import PosixThreads.Waxy.Cache.Refs
import PosixThreads.Waxy.Cache.Index
import PosixThreads.Waxy.Cache.Writer
import PosixThreads.Waxy.Cache.Run
import PosixThreads.Waxy.Cache.Stream
import PosixThreads.Waxy.Cache.Wakeup
import PosixThreads.Waxy.Cache.Commit
import PosixThreads.Waxy.Cache.Atomic
import PosixThreads.Waxy.Cache.Lru
import PosixThreads.Waxy.Cache.Locks
import PosixThreads.Waxy.Cache.Deadlock
import PosixThreads.Waxy.Client
import PosixThreads.Waxy.Escapes
import PosixThreads.Waxy.Replies
import PosixThreads.Waxy.ClientReader
import PosixThreads.Waxy.Upstream
import PosixThreads.Waxy.RequestWrite
import PosixThreads.Waxy.Injection
import PosixThreads.Waxy.Relay.Basic
import PosixThreads.Waxy.Relay.Chunks
import PosixThreads.Waxy.Failover
import PosixThreads.Waxy.Server
import PosixThreads.HttpAio.Error
import PosixThreads.HttpAio.Buffer
import PosixThreads.HttpAio.BufferSpec
import PosixThreads.HttpAio.BufferQueue
import PosixThreads.HttpAio.Url
import PosixThreads.HttpAio.UrlParts
import PosixThreads.HttpAio.UrlForm
import PosixThreads.HttpAio.Output
import PosixThreads.HttpAio.Printer
import PosixThreads.HttpAio.PrinterLines
import PosixThreads.HttpAio.PrinterSpec
import PosixThreads.HttpAio.PrinterRun
import PosixThreads.HttpAio.Request
import PosixThreads.Philosophers.Basic
import PosixThreads.Philosophers.Meals
import PosixThreads.CopyTree.Basic
import PosixThreads.CopyTree.Tasks
import PosixThreads.CopyTree.Sound
import PosixThreads.WorkQueue.Basic
import PosixThreads.WorkQueue.Tokens
import PosixThreads.WorkQueue.Fifo
import PosixThreads.WorkQueue.Calls
import PosixThreads.Intersem.Basic
import PosixThreads.Semaphactory.Basic
import PosixThreads.Semaphactory.Stock
import PosixThreads.Semaphactory.Shutdown
import PosixThreads.SyncBubble.Basic
import PosixThreads.SyncBubble.Sorted
import PosixThreads.SyncBubble.Program
import PosixThreads.SyncBubble.Listings
import PosixThreads.SyncBubble.Ending
import PosixThreads.Sigpi.Basic
import PosixThreads.Sigpi.Partition
import PosixThreads.ProxyWorker.Basic
import PosixThreads.ProxyWorker.Lock
import PosixThreads.ProxyWorker.Delivery
import PosixThreads.ProxyWorker.Response
import PosixThreads.ProxyWorker.ContentLength
import PosixThreads.ProxyWorker.Requests
import PosixThreads.ProxyWorker.Acceptor
import PosixThreads.MultithreadProxy.Basic
import PosixThreads.MultithreadProxy.Completion
import PosixThreads.MultithreadProxy.Manager
