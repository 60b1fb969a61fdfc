import Excalibur.RequestSigning.History
import Excalibur.RequestSigning.Canonical
import Excalibur.ConsistentHash.Membership
import Excalibur.ConsistentHash.Placement
import Excalibur.ConsistentHash.Lookup
import Excalibur.LruCache.Inclusion
import Excalibur.LruCache.Pointers
import Excalibur.LruCache.HitLaw
import Excalibur.Dns.Decoding
import Excalibur.Dns.Truncation
import Excalibur.Dns.Acceptance
import Excalibur.Dns.QueryName
import Excalibur.Dns.Derivation
import Excalibur.Dns.Exchange
import Excalibur.Http.Segmentation
import Excalibur.Http.Grammar
import Excalibur.Breaker.Probe
import Excalibur.Breaker.Trip
import Excalibur.Breaker.Stale
import Excalibur.Breaker.Outage
import Excalibur.RequestSigning.Rejected
import Excalibur.RateLimit.TokenBucket
import Excalibur.ProducerConsumer.HandOff
import Excalibur.ProducerConsumer.Order
import Excalibur.WorkerPool.Failing
import Excalibur.WorkerPool.Submitters
import Excalibur.GracefulShutdown.Drain
import Excalibur.GracefulShutdown.GracePeriod
import Excalibur.SubnetCalculator.Vlsm
import Excalibur.SubnetCalculator.RightSized
import Excalibur.SubnetCalculator.PlanRoutes
import Excalibur.SubnetCalculator.Split
import Excalibur.SubnetCalculator.RoutingTable
import Excalibur.SubnetCalculator.Addresses
import Excalibur.Backends.Handling
import Excalibur.Backends.Ejection
import Excalibur.Backends.Relay
import Excalibur.TlsInspect.PrivateKey
import Excalibur.TlsInspect.Signing
import Excalibur.Deadlock.GlobalOrdering
import Excalibur.Deadlock.TryLock
import Excalibur.Deadlock.Demonstration
import Excalibur.EchoServer.Integrity
import Excalibur.EchoServer.Service
import Excalibur.RateLimit.SlidingWindow
import Excalibur.RateLimit.BackwardClock
import Excalibur.RateLimit.Maximal
import Excalibur.Backends.RoundRobin
import Excalibur.Backends.InflightCount
import Excalibur.TlsInspect.ErrorBound
import Excalibur.TlsInspect.KeySize
import Excalibur.TlsInspect.ObjectIdentifier
import Excalibur.TlsInspect.Validity
import Excalibur.TlsInspect.Canonical
import Excalibur.TlsInspect.Pem
import Excalibur.RssLeak.Shrinking
import Excalibur.RssLeak.Growth
import Excalibur.RssLeak.Units
import Excalibur.ProcessSupervisor.RestartLaw
import Excalibur.SocketStates.Counting
import Excalibur.SocketStates.EphemeralPorts
import Excalibur.TcpRetrans.Monitor
import Excalibur.Http.Framing
import Excalibur.Backends.Replies
