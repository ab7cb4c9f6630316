import Gross.Foundation.CArray
import Gross.Foundation.CString
import Gross.Foundation.BitArray
import Gross.Foundation.ByteOrder
import Gross.Foundation.Window
import Gross.Foundation.Blocks
import Gross.Foundation.Memory
import Gross.Foundation.Heap
import Gross.Foundation.Run
import Gross.Foundation.Interleave
import Gross.Foundation.Counted
import Gross.Foundation.Mutex
import Gross.Foundation.Average
import Gross.Foundation.Connection
import Gross.Foundation.Sha256
import Gross.Utils.Readline
import Gross.Utils.Time
import Gross.Bloom.Filter
import Gross.Bloom.Ring
import Gross.Bloom.History
import Gross.Bloom.Absolute
import Gross.Bloom.Manager
import Gross.Bloom.Aggregate
import Gross.Bloom.Stores
import Gross.Bloom.Layout
import Gross.Bloom.Places
import Gross.Bloom.Statefile
import Gross.Bloom.Resized
import Gross.Bloom.Interrupted
import Gross.Sha256.Block
import Gross.Sha256.Digest
import Gross.Sync.Wire
import Gross.Sync.Receive
import Gross.Sync.Stream
import Gross.Sync.Filters
import Gross.Sync.Merge
import Gross.Sync.Startup
import Gross.Sync.Snapshot
import Gross.Sync.Cut
import Gross.Sync.Guard
import Gross.Sync.Connected
import Gross.Queue.Linked
import Gross.Queue.Deadline
import Gross.Queue.Pool
import Gross.Queue.Ids
import Gross.Queue.Shares
import Gross.Queue.Refines
import Gross.Queue.Runs
import Gross.Queue.Delay
import Gross.Queue.Walk
import Gross.Dns.Cache
import Gross.Dns.Helper
import Gross.Dns.Provenance
import Gross.Conf.Configure
import Gross.Conf.ReadConfig
import Gross.Conf.Namevalue
import Gross.Worker.TestTuple
import Gross.Worker.Timelimit
import Gross.Worker.MaskedTuple
import Gross.Foundation.Netmask
import Gross.Addrutils.Text
import Gross.Addrutils.GreyMask
import Gross.Addrutils.Reverse
import Gross.Worker.Verdict
import Gross.Worker.Repeat
import Gross.Worker.References
import Gross.Worker.ThreadPool
import Gross.Worker.Querylog
import Gross.Worker.Fields
import Gross.Dnsbl.Domain
import Gross.Dnsbl.Tolerance
import Gross.Stats.Guard
import Gross.Stats.Print
import Gross.Stats.Averages
import Gross.Worker.Results
import Gross.Worker.Definitives
import Gross.Helo.ValidDn
import Gross.Helo.Check
import Gross.Postfix.Parse
import Gross.Sjsms.Query
import Gross.Sjsms.Datagram
import Gross.Sjsms.Client
import Gross.Sjsms.Mapresult
import Gross.Daemon.Greylist
import Gross.Foundation.LittleEndian
import Gross.Dns.Lookup3
import Gross.Dnsbl.Lookup
import Gross.Dnsbl.Simulation
import Gross.Foundation.Mailbox
import Gross.Worker.Checks
import Gross.Foundation.Arena
import Gross.Dns.Hostent
import Gross.Dns.CacheMemory
import Gross.Foundation.Linked
import Gross.Worker.Blocks
import Gross.Worker.RequestMemory
import Gross.Milter.Session
import Gross.Foundation.Output
import Gross.Postfix.Dialogue
import Gross.Worker.Watchdog
import Gross.Sjsms.Exchange
