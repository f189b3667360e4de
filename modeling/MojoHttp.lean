import MojoHttp.Lib.LaneScan
import MojoHttp.Lib.CrlfText
import MojoHttp.Lib.InsertionMap
import MojoHttp.Lib.Resumable
import MojoHttp.Lib.Execution
import MojoHttp.Lib.Threads
import MojoHttp.Bytes
import MojoHttp.Http.Parsing
import MojoHttp.Header.Known
import MojoHttp.Header.Store
import MojoHttp.Header.Refinement
import MojoHttp.Header.Runs
import MojoHttp.Header.Host
import MojoHttp.Header.Request
import MojoHttp.Header.HeadEnd
import MojoHttp.Framing
import MojoHttp.Header.Codings
import MojoHttp.Header.Accepted
import MojoHttp.Header.Unambiguous
import MojoHttp.Http.Chunked
import MojoHttp.Http.ChunkedMachine
import MojoHttp.Http.ChunkedSplit
import MojoHttp.Http.ChunkedGrammar
import MojoHttp.Http.ChunkedRoundTrip
import MojoHttp.WebSocket.Frames
import MojoHttp.WebSocket.Feed
import MojoHttp.WebSocket.Split
import MojoHttp.Header.LineBytes
import MojoHttp.Http.Date
import MojoHttp.Cookie.ResponseJar
import MojoHttp.Http.Response
import MojoHttp.Ring
import MojoHttp.Ring.Invariant
import MojoHttp.Ring.Fifo
import MojoHttp.Ring.Hosted
import MojoHttp.Offload.Pending
import MojoHttp.Offload.LoopWait
import MojoHttp.Offload.Completions
import MojoHttp.AcceptShare
import MojoHttp.AcceptShare.Handoffs
import MojoHttp.Offload.Pool
import MojoHttp.Offload.Pool.Rings
import MojoHttp.Offload.Pool.Dealt
import MojoHttp.Offload.Pool.Points
import MojoHttp.Offload.Pool.Pills
import MojoHttp.Offload.Pool.Stop
import MojoHttp.Lib.Totals
import MojoHttp.Offload.Pool.Parked
import MojoHttp.Ring.Pops
import MojoHttp.Offload.Pool.Counts
import MojoHttp.Offload.Pool.Wakeups
import MojoHttp.Router
import MojoHttp.Views
import MojoHttp.Lib.Outbox
import MojoHttp.Sse.Registry
import MojoHttp.WebSocket.Hub
import MojoHttp.Datastar.Stream
import MojoHttp.Sse.Subscriptions
import MojoHttp.Sse.EventIds
import MojoHttp.Sse.Format
import MojoHttp.Wsgi.Handler
import MojoHttp.WebSocket.Wire
import MojoHttp.Wsgi.ChannelNames
import MojoHttp.Wsgi.CloseFrame
import MojoHttp.Asgi.Credit
import MojoHttp.Asgi.Sockets
import MojoHttp.Asgi.Cycle
import MojoHttp.Wsgi.Isolation
import MojoHttp.Lib.LittleEndian
import MojoHttp.Wsgi.Parked
import MojoHttp.Wsgi.Inbound
import MojoHttp.Lib.Marked
import MojoHttp.Sse.Readiness
import MojoHttp.Sse.Journal
import MojoHttp.Datastar.Reconnect
import MojoHttp.Datastar.Latest
import MojoHttp.Sse.Feed
import MojoHttp.Grant.Token
import MojoHttp.Wsgi.StreamedBody
import MojoHttp.Grant.Issue
import MojoHttp.Json.Dumps
import MojoHttp.Lib.EventStream
import MojoHttp.Sse.Doors
import MojoHttp.Supervisor
import MojoHttp.Supervisor.Table
import MojoHttp.Supervisor.Published
import MojoHttp.Supervisor.Steps
import MojoHttp.Supervisor.Workers
import MojoHttp.Supervisor.Stop
import MojoHttp.Router.Allow
import MojoHttp.Router.Flat
import MojoHttp.Views.Allow
import MojoHttp.Uri
import MojoHttp.Static
import MojoHttp.Router.Reverse
import MojoHttp.Form
import MojoHttp.Sse.Frame
import MojoHttp.Lib.Fips180
import MojoHttp.Lib.Hmac
import MojoHttp.Sha256
import MojoHttp.Hmac
import MojoHttp.Grant.Session
import MojoHttp.Lib.HtmlTokens
import MojoHttp.Html
import MojoHttp.Html.Tokens
import MojoHttp.Sqlite.Stamps
import MojoHttp.Lib.Swar
import MojoHttp.Hex
import MojoHttp.Lib.Rfc8259
import MojoHttp.Json.Strings
import MojoHttp.Json.Escape
import MojoHttp.Json.Numbers
import MojoHttp.Json.Members
import MojoHttp.Lib.Conninfo
import MojoHttp.Postgres.Url
import MojoHttp.Postgres.Defaults
import MojoHttp.Postgres.Redact
import MojoHttp.Postgres.Secrets
import MojoHttp.Loop.RequestBody
import MojoHttp.Loop.BodyOutcome
import MojoHttp.Lib.PackedBits
import MojoHttp.Server.ProvisionPool
import MojoHttp.Lib.LinkedQueues
import MojoHttp.SlotQueue
import MojoHttp.Lib.Rfc3629
import MojoHttp.WebSocket.Utf8
import MojoHttp.WebSocket.Bounds
import MojoHttp.WebSocket.Receive
import MojoHttp.Header.Scanners
import MojoHttp.Offload.Stall
import MojoHttp.Uri.Targets
import MojoHttp.Lib.Rfc9110Ranges
import MojoHttp.Static.Ranges
import MojoHttp.Header.HostGrammar
import MojoHttp.Wsgi.Environ
import MojoHttp.Cookie.SetCookie
import MojoHttp.Offload.Datagrams
import MojoHttp.AcceptShare.Hops
import MojoHttp.Loop.Shutdown
import MojoHttp.Sse.FlushTimer
import MojoHttp.Wsgi.Mounts
import MojoHttp.Wsgi.Generations
import MojoHttp.Datastar.Events
