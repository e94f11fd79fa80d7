import Uddp.Lib.Bufio
import Uddp.Wal.Read
import Uddp.Wal.Open
import Uddp.Wal.Append
import Uddp.Wal.Cut
import Uddp.Wal.Corrupt
import Uddp.Engine.Basic
import Uddp.Lib.Machine
import Uddp.Engine.History
import Uddp.Engine.Recovery
import Uddp.Engine.Stream
import Uddp.Engine.Faults
import Uddp.Engine.Idempotency
import Uddp.Engine.Exclusive
import Uddp.Wal.GroupCommit
import Uddp.Wal.Rounds
import Uddp.Wal.Readers
import Uddp.Replication.Clock
import Uddp.Replication.Restart
import Uddp.Replication.Snapshot
import Uddp.Lib.Text
import Uddp.Resp.Server
import Uddp.Api.Servers
import Uddp.Cluster
import Uddp.Streaming.Monotone
import Uddp.Api.Stream
import Uddp.Streaming.Paging
import Uddp.Api.Restore
import Uddp.Streaming.Delivery
import Uddp.Api.Atomic
import Uddp.Lib.Decimal
import Uddp.Lib.Reader
import Uddp.Resp.Protocol
import Uddp.Resp.Requests
import Uddp.Resp.Replies
import Uddp.Resp.Subset
import Uddp.Wal.Ranges
import Uddp.Api.Expiry
import Uddp.Backup.Format
import Uddp.Engine.Shared
import Uddp.Api.Visible
import Uddp.Backup.RecoveryPoint
import Uddp.Wal.Sizes
import Uddp.Benchmark.Stats
import Uddp.Api.Metrics
import Uddp.Resp.Deletion
import Uddp.Engine.Linear
import Uddp.Engine.Durable
import Uddp.Replication.Retries
import Uddp.Replication.Sessions
import Uddp.Wal.Accepts
import Uddp.Api.Gateway
import Uddp.Api.Node
import Uddp.Backup.Cycle
import Uddp.Resp.Store
import Uddp.Benchmark.Accounts
import Uddp.Benchmark.Stopping
import Uddp.Wal.Closing
import Uddp.Wal.Wakeups
import Uddp.Startup.Declares
import Uddp.Startup.Lives
