import JiaTuanServer.Connection.Callbacks
import JiaTuanServer.Connection.Client
import JiaTuanServer.Connection.Wire
import JiaTuanServer.Json.Complete
import JiaTuanServer.Json.Decode
import JiaTuanServer.Json.DecodeSafety
import JiaTuanServer.Json.Incomplete
import JiaTuanServer.Json.Jsoncpp
import JiaTuanServer.Json.Members
import JiaTuanServer.Json.Numbers
import JiaTuanServer.Json.Reader
import JiaTuanServer.Json.Requests
import JiaTuanServer.Json.Safety
import JiaTuanServer.Json.Strings
import JiaTuanServer.Json.Token
import JiaTuanServer.Json.TokenText
import JiaTuanServer.Json.Written
import JiaTuanServer.Libevent.Add
import JiaTuanServer.Libevent.Chain
import JiaTuanServer.Libevent.Evbuffer
import JiaTuanServer.Libevent.Queues
import JiaTuanServer.Libevent.Read
import JiaTuanServer.Libevent.Remove
import JiaTuanServer.Library.Chain
import JiaTuanServer.Library.ColumnParity
import JiaTuanServer.Library.Crc
import JiaTuanServer.Library.Fifo
import JiaTuanServer.Library.Fuelled
import JiaTuanServer.Library.Inevitable
import JiaTuanServer.Library.JsonText
import JiaTuanServer.Library.LocalTriple
import JiaTuanServer.Library.Loop
import JiaTuanServer.Library.Machine
import JiaTuanServer.Library.Memory
import JiaTuanServer.Library.Outcome
import JiaTuanServer.Library.Tally
import JiaTuanServer.Library.Tokens
import JiaTuanServer.PublicFunction.AsciiStrToBcd
import JiaTuanServer.PublicFunction.Basic
import JiaTuanServer.PublicFunction.Bcc
import JiaTuanServer.PublicFunction.Crc32
import JiaTuanServer.PublicFunction.LoopBounds
import JiaTuanServer.Request.Containment
import JiaTuanServer.Request.Credentials
import JiaTuanServer.Request.DbManager
import JiaTuanServer.Request.ExecuteSql
import JiaTuanServer.Request.Failures
import JiaTuanServer.Request.Handler
import JiaTuanServer.Request.InputBuffer
import JiaTuanServer.Request.Json
import JiaTuanServer.Request.Meaning
import JiaTuanServer.Request.ResultSets
import JiaTuanServer.Request.Segmentation
import JiaTuanServer.Request.Sessions
import JiaTuanServer.Request.Statements
import JiaTuanServer.Request.Survival
import JiaTuanServer.Request.Verdict
import JiaTuanServer.Server.AcceptSteps
import JiaTuanServer.Server.EventLoop
import JiaTuanServer.Server.Finishing
import JiaTuanServer.Server.InService
import JiaTuanServer.Server.Invariant
import JiaTuanServer.Server.Isolation
import JiaTuanServer.Server.Machine
import JiaTuanServer.Server.Memory
import JiaTuanServer.Server.Numbers
import JiaTuanServer.Server.Ownership
import JiaTuanServer.Server.QueueSteps
import JiaTuanServer.Server.Refinement
import JiaTuanServer.Server.Release
import JiaTuanServer.Server.Steps
import JiaTuanServer.Server.Stranded
import JiaTuanServer.Server.WorkLeft
import JiaTuanServer.Signals.Lock
import JiaTuanServer.Signals.Machine
import JiaTuanServer.Signals.StartUp
import JiaTuanServer.Signals.Steps
import JiaTuanServer.Signals.Threads
import JiaTuanServer.Workqueue.Attended
import JiaTuanServer.Workqueue.Closed
import JiaTuanServer.Workqueue.Doomed
import JiaTuanServer.Workqueue.HandOff
import JiaTuanServer.Workqueue.Invariant
import JiaTuanServer.Workqueue.Jobs
import JiaTuanServer.Workqueue.LinkedList
import JiaTuanServer.Workqueue.Lock
import JiaTuanServer.Workqueue.Machine
import JiaTuanServer.Workqueue.Order
import JiaTuanServer.Workqueue.Progress
import JiaTuanServer.Workqueue.Removal
import JiaTuanServer.Workqueue.Steps
import JiaTuanServer.Workqueue.Stopping
import JiaTuanServer.Workqueue.Termination
import JiaTuanServer.Workqueue.Traversal
import JiaTuanServer.Workqueue.WakeUp
import JiaTuanServer.Workqueue.Workers
