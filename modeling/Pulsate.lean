import Pulsate.Cluster.Gossip
import Pulsate.Cluster.Lemmas.Moves
import Pulsate.Cluster.Lemmas.View
import Pulsate.Cluster.Lemmas.Tombstone
import Pulsate.Cluster.Theorems
import Pulsate.Waf.Audit
import Pulsate.Waf.Lemmas.Audit
import Pulsate.Lib.Hmac
import Pulsate.Waf.Theorems
import Pulsate.Flow.Syntax
import Pulsate.Flow.Value
import Pulsate.Flow.Lexer
import Pulsate.Flow.Parser
import Pulsate.Flow.Lemmas.Kinds
import Pulsate.Config.Compile
import Pulsate.Config.Build
import Pulsate.Config.Store
import Pulsate.Cli.Theorems
import Pulsate.K8s.Crd
import Pulsate.K8s.Translate
import Pulsate.K8s.Lemmas.Placement
import Pulsate.K8s.Lemmas.Names
import Pulsate.K8s.Lemmas.Order
import Pulsate.K8s.Theorems
import Pulsate.Flow.Lemmas.Barrier
import Pulsate.K8s.Lemmas.Plan
import Pulsate.Flow.Lemmas.Text
import Pulsate.Flow.Document
import Pulsate.Flow.Lemmas.Document
import Pulsate.K8s.Lemmas.Words
import Pulsate.K8s.Lemmas.Tree
import Pulsate.Config.Lemmas.Compile
import Pulsate.K8s.Routing.Lemmas.Lower
import Pulsate.Router.Lemmas.Sites
import Pulsate.K8s.Routing.Lemmas.Precedence
import Pulsate.K8s.Routing.Lemmas.Serve
import Pulsate.K8s.Routing.Theorems
import Pulsate.Flow.Lemmas.Sections
import Pulsate.Cluster.Lemmas.Join
import Pulsate.Cluster.Lemmas.Delivery
import Pulsate.Cluster.Lemmas.Snapshot
import Pulsate.Cluster.Lemmas.Handle
import Pulsate.Cluster.Lemmas.Counter
import Pulsate.Cluster.Network.Model
import Pulsate.Cluster.Network.Lemmas.Frames
import Pulsate.Cluster.Network.Lemmas.Numbers
import Pulsate.Cluster.Network.Lemmas.Probe
import Pulsate.Cluster.Network.Theorems
import Pulsate.Cluster.Network.Lemmas.Counters
import Pulsate.Router.Precedence
import Pulsate.Router.Lemmas.Best
import Pulsate.Router.Lemmas.Order
import Pulsate.Router.Theorems
import Pulsate.Router.Hosts
import Pulsate.Router.Lemmas.Hosts
import Pulsate.Config.Lemmas.Predicates
import Pulsate.Config.Theorems
import Pulsate.Config.Lemmas.Written
import Pulsate.Config.Lemmas.Acceptance
import Pulsate.Config.Lemmas.Steps
import Pulsate.Cli.References
import Pulsate.Config.Lemmas.Settings
import Pulsate.Config.Cells
import Pulsate.Config.Concurrent
import Pulsate.Config.Concurrent.Order
import Pulsate.Config.Concurrent.Theorems
import Pulsate.Control.Api
import Pulsate.Control.Grpc
import Pulsate.Control.System
import Pulsate.Control.Lemmas.Calls
import Pulsate.Control.Lemmas.Pump
import Pulsate.Control.Theorems
import Pulsate.Config.Snapshot
import Pulsate.Config.Lemmas.Erase
import Pulsate.Config.Lemmas.Snapshot
import Pulsate.Cache.Layer
import Pulsate.Cache.Lemmas.Accounting
import Pulsate.Lib.Slot
import Pulsate.Cache.Lemmas.Timed
import Pulsate.Cache.Theorems
import Pulsate.Cache.Directives
import Pulsate.Cache.Lemmas.Directives
import Pulsate.Waf.Engine
import Pulsate.Waf.Limiter
import Pulsate.Pipeline.Pipeline
import Pulsate.Pipeline.Cors
import Pulsate.Pipeline.Lemmas.Cors
import Pulsate.Pipeline.Theorems
import Pulsate.Http.Lemmas.Keys
import Pulsate.Http.Handlers
import Pulsate.Http.Serve
import Pulsate.Http.Lemmas.Serve
import Pulsate.Http.Lemmas.Lines
import Pulsate.Http.Theorems
import Pulsate.Control.Access
import Pulsate.Control.Lemmas.Access
import Pulsate.Proxy.Pool
import Pulsate.Proxy.Lemmas.Breaker
import Pulsate.Proxy.Theorems
import Pulsate.Lib.Tries
import Pulsate.Proxy.Forward
import Pulsate.Proxy.Lemmas.Forward
import Pulsate.Proxy.Concurrent
import Pulsate.Proxy.Lemmas.Concurrent
import Pulsate.Proxy.Lemmas.Hop
import Pulsate.Proxy.Lemmas.Addresses
import Pulsate.Pipeline.Lemmas.Egress
import Pulsate.Http.Egress
import Pulsate.Http.Lemmas.Egress
import Pulsate.Http.Lemmas.Upstreams
import Pulsate.Http.Lemmas.Relay
import Pulsate.Http3.Serve
import Pulsate.Http3.Lemmas
import Pulsate.Http3.Theorems
import Pulsate.Net.Serve
import Pulsate.Net.Theorems
import Pulsate.Waf.Lemmas.Limiter
import Pulsate.Config.Lemmas.Addresses
import Pulsate.Http.Files
import Pulsate.Waf.Lemmas.Normalize
import Pulsate.Migrate.Builder
import Pulsate.Migrate.Nginx
import Pulsate.Migrate.Apache
import Pulsate.Migrate.Caddy
import Pulsate.Migrate.Haproxy
import Pulsate.Migrate.Lemmas.Pieces
import Pulsate.Flow.Lemmas.Slots
import Pulsate.Migrate.Import
import Pulsate.Migrate.Lemmas.Parses
import Pulsate.Migrate.Theorems
import Pulsate.Flow.Reading
import Pulsate.Flow.Lemmas.Cuts
import Pulsate.Flow.Lemmas.Modes
import Pulsate.Flow.Theorems
import Pulsate.Flow.Lemmas.Faithful
import Pulsate.Flow.Lemmas.Machine
import Pulsate.Flow.Lemmas.Places
import Pulsate.Config.Nearest
import Pulsate.Cluster.Rounds
import Pulsate.Observe.Ids
import Pulsate.Util.Pool
import Pulsate.Control.Lemmas.Json
import Pulsate.Observe.Metrics
