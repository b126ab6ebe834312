import ForwardProxy.Http.Request
import ForwardProxy.Http.ChunkBody
import ForwardProxy.Http.ChunkWalk
import ForwardProxy.Http.HeaderEnd
import ForwardProxy.Http.Authority
import ForwardProxy.Http.AclMeaning
import ForwardProxy.Cache.Inclusion
import ForwardProxy.Cache.Accounts
import ForwardProxy.Cache.Capacity
import ForwardProxy.Cache.Mix
import ForwardProxy.Server.Inspect
import ForwardProxy.Server.Exact
import ForwardProxy.Server.KeepAlive
import ForwardProxy.Server.Privacy
import ForwardProxy.Server.Forwarded
import ForwardProxy.Server.Segments
import ForwardProxy.Server.Pipeline
import ForwardProxy.Server.TaskQueue
import ForwardProxy.Server.AccessLog
import ForwardProxy.Server.Counters
import ForwardProxy.Server.Ownership
import ForwardProxy.Server.TargetForms
import ForwardProxy.Http.Declared
import ForwardProxy.Http.AclStrict
import ForwardProxy.Server.BuildResponse
import ForwardProxy.Server.SelfDelimited
import ForwardProxy.Server.Limits
import ForwardProxy.Server.LogFields
import ForwardProxy.Server.LogFile
import ForwardProxy.Server.SendAll
import ForwardProxy.Phase4.Handler
import ForwardProxy.Phase4.TaskQueue
import ForwardProxy.Server.FetchCalls
import ForwardProxy.Origin.Relay
import ForwardProxy.Benchmark.ReadResponse
import ForwardProxy.Benchmark.Worker
import ForwardProxy.Benchmark.Request
import ForwardProxy.Cache.Scan
import ForwardProxy.Server.Options
