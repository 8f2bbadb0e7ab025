import AetherStream.Broker.WalBeforeQueue
import AetherStream.Queue.ZeroCopySafety
import AetherStream.Wal.Truncation
import AetherStream.Io.Ownership
import AetherStream.Broker.FailedOpen
import AetherStream.Broker.Accounting
import AetherStream.Broker.BatchBroker
import AetherStream.Queue.Observer
import AetherStream.Wal.Crc32
import AetherStream.Wal.ReaderSafety
import AetherStream.Wal.WriterSafety
import AetherStream.Broker.TypedRecovery
import AetherStream.Broker.Capacity
import AetherStream.Cli.Scan
import AetherStream.Cli.Publish
import AetherStream.Utils.SpinWait
import AetherStream.Io.Resize
import AetherStream.Queue.InertHandles
import AetherStream.Metrics.NearestRank
import AetherStream.Cli.CommandLines
import AetherStream.Queue.Linearizable
import AetherStream.Queue.OwnQueries
import AetherStream.Tools.Stress
import AetherStream.Cli.Bench
import AetherStream.Broker.CrashRecovery
import AetherStream.Wal.Follow
import AetherStream.Broker.PowerLoss
import AetherStream.Cli.Subscribe
import AetherStream.Broker.DurableQueue
import AetherStream.Metrics.Mean
import AetherStream.Broker.ConcurrentBatch
import AetherStream.Queue.RaceFree
