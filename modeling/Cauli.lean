import Cauli.Worker.Idempotency
import Cauli.Worker.ByteScan
import Cauli.Worker.Lanes
import Cauli.Worker.Cpu
import Cauli.Worker.Recycle
import Cauli.Worker.Arming
import Cauli.Worker.IdleSlots
import Cauli.Worker.CpuRequest
import Cauli.Worker.ChildThreads
import Cauli.Worker.SyncLane
import Cauli.Worker.SyncPool
import Cauli.Worker.AsyncQueue
import Cauli.Worker.Deadlines
import Cauli.Worker.Fetch
import Cauli.Worker.Hop
import Cauli.Worker.Integers
import Cauli.Queue.Delivery
import Cauli.Queue.Reclaim
import Cauli.Queue.Executions
import Cauli.Queue.Flush
import Cauli.Queue.Oversize
import Cauli.Queue.Sole
import Cauli.Queue.Tick
import Cauli.Queue.Reap
import Cauli.Beat.Edits
import Cauli.Beat.Crontab
import Cauli.Beat.FastForward
import Cauli.Beat.OneTick
import Cauli.Beat.Sleep
import Cauli.Beat.Reconcile
import Cauli.Beat.DayScan
import Cauli.Client.Contract
import Cauli.Client.Expiry
import Cauli.Client.Publish
import Cauli.Queue.Backoff
import Cauli.Client.Subclasses
import Cauli.Client.Result
import Cauli.Client.Redact
import Cauli.Worker.Cli
import Cauli.Beat.Lease
import Cauli.Worker.Supervisor
import Cauli.Worker.LogSink
import Cauli.Worker.Completions
import Cauli.Client.Documents
import Cauli.Queue.Flusher
import Cauli.Worker.Watchdog
import Cauli.Worker.Latency
import Cauli.Beat.Definition
import Cauli.Worker.Clock
import Cauli.Worker.Drain
