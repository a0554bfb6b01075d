import Jkit.Lib.Run
import Jkit.Lib.Channel
import Jkit.Http.Message
import Jkit.Http.Client.Lease
import Jkit.Http.Client.Bound
import Jkit.Lib.Hold
import Jkit.Lib.OrdMap
import Jkit.Http.Client.H2Pool
import Jkit.Http.Client.H2Unique
import Jkit.Http.Client.H2Completion
import Jkit.Http.Client.H2Response
import Jkit.Http.Client.Resolve
import Jkit.Http.Client.LateWrite
import Jkit.Http.Client.Tls
import Jkit.Db.JsonText
import Jkit.Db.SqlConst
import Jkit.Db.SqlName
import Jkit.Common.WebUtility
import Jkit.Common.Percent
import Jkit.Common.QueryString
import Jkit.Common.Decode
import Jkit.Lib.Scan
import Jkit.Common.UrlParser
import Jkit.Common.UrlGrammar
import Jkit.Common.Fiber.WaitAll
import Jkit.Common.Fiber.Stranded
import Jkit.Common.Fiber.FirstSuccess
import Jkit.Common.Fiber.Results
import Jkit.Lib.Monitor
import Jkit.Common.Fiber.Done
import Jkit.Common.Fiber.Barrier
import Jkit.Common.Fiber.Members
import Jkit.Common.Fiber.FrameContext
import Jkit.Db.Json2Sql
import Jkit.Db.InList
import Jkit.Db.ArrayLiteral
import Jkit.Db.Builders
import Jkit.Db.Overloads
import Jkit.Db.Where
import Jkit.Lib.Reader
import Jkit.Db.Reading
import Jkit.Db.Documents
import Jkit.Db.PosixTime
import Jkit.Lib.Abnf
import Jkit.Common.Syslog
import Jkit.Db.SociPgsql
import Jkit.Http.Tokens
import Jkit.Http.Head
import Jkit.Http.Spelling
import Jkit.Http.Wire
import Jkit.Http.Server.Context
import Jkit.Http.Server.BadRequest
import Jkit.Lib.HashTable
import Jkit.Http.Server.Params
import Jkit.Http.Server.Routing
import Jkit.Http.Server.Framing
import Jkit.Http.Server.Protocol
import Jkit.Http.Server.Conversation
import Jkit.Http.Server.Lifecycle
import Jkit.Http.Server.Stop
import Jkit.Http.Server.Threads
import Jkit.Http.Exchange
import Jkit.Http.Agreement
