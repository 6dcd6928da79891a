import MinHttp.Lib.Runs
import MinHttp.Lib.Lines
import MinHttp.Lib.Lexical
import MinHttp.Bytes
import MinHttp.Util
import MinHttp.Request
import MinHttp.Receive
import MinHttp.Response
import MinHttp.Resource
import MinHttp.Send
import MinHttp.Message
import MinHttp.Accept
import MinHttp.RoundTrip
import MinHttp.Grammar
import MinHttp.ReadInFull
import MinHttp.Delivery
import MinHttp.Confinement
import MinHttp.Headers
import MinHttp.ThreadPool
import MinHttp.Exchange
import MinHttp.Complete
import MinHttp.Deadlock
import MinHttp.Query
import MinHttp.HandOff
import MinHttp.Length
import MinHttp.Target
import MinHttp.Lib.Literal
import MinHttp.Register
import MinHttp.Lib.Count
import MinHttp.Wakeups
import MinHttp.Sockets
import MinHttp.Lib.Balance
import MinHttp.Descriptors
import MinHttp.Lib.Once
import MinHttp.Singletons
import MinHttp.Isolation
import MinHttp.Calculator
import MinHttp.Stdin
import MinHttp.Newlines
import MinHttp.RecvErrors
import MinHttp.ContentType
import MinHttp.FailedRun
import MinHttp.QueryString
import MinHttp.Spelling
import MinHttp.Lib.Halting
import MinHttp.Drain
import MinHttp.Closing
import MinHttp.Outcome
import MinHttp.Callers
import MinHttp.Serving
import MinHttp.ReadBack
import MinHttp.Pages
import MinHttp.Lib.Shares
import MinHttp.Leaks
import MinHttp.Site
import MinHttp.Hangs
import MinHttp.Stalls
import MinHttp.Programs
import MinHttp.Copies
import MinHttp.Following
