import Resh.Server.Delivery
import Resh.Server.Output
import Resh.Server.Lock
import Resh.Server.WellFormed
import Resh.Server.Headers
import Resh.Server.Request
import Resh.Server.Accessors
import Resh.Server.Scan
import Resh.Server.Responses
import Resh.Server.ClosedIO
import Resh.Server.ListenerConn
import Resh.Server.Stall
import Resh.Server.Sweep
import Resh.Server.Descriptors
import Resh.Server.Shutdown
import Resh.Server.Site
import Resh.Server.FrameBounds
import Resh.Server.Fragments
import Resh.Server.Chunked
import Resh.Server.Stream
import Resh.Server.Writers
import Resh.Server.Upgrade
import Resh.RoundTrip.Command
import Resh.RoundTrip.Reply
import Resh.RoundTrip.Auth
import Resh.RoundTrip.Frame
import Resh.RoundTrip.Target
import Resh.RoundTrip.GoRequest
import Resh.RoundTrip.LinkRun
import Resh.Client.Matching
import Resh.Client.Teardown
import Resh.Client.Accounting
import Resh.Client.Callbacks
import Resh.Client.Idle
import Resh.Client.Concurrent
import Resh.Client.Waiting
import Resh.Client.Reentrant
import Resh.Client.Overlong
import Resh.Client.Boundaries
import Resh.Client.Resp2
import Resh.Internal.LockQueue
import Resh.Internal.Kqueue
import Resh.Run
import Resh.Client.MultiCore
