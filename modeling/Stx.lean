import Stx.Base
import Stx.Lib.Base128
import Stx.Lib.LittleEndian
import Stx.Lib.Probing
import Stx.Lib.Pipes
import Stx.Lib.Runs
import Stx.Lib.Indexes
import Stx.Lib.Threads
import Stx.Lib.RelyGuarantee
import Stx.Lib.LockOrder
import Stx.Lib.Tilings
import Stx.Digest
import Stx.Io.File
import Stx.Io.PageManager
import Stx.Io.PageManager.Pages
import Stx.Io.PageManager.Mapping
import Stx.Util.BinaryMessageWriter
import Stx.Util.BinaryMessageReader
import Stx.Util.PersistentHashSet
import Stx.Util.PersistentHashSet.Table
import Stx.Util.PersistentHashSet.Storage
import Stx.Util.PersistentHashSet.Insert
import Stx.Util.PersistentHashSet.Operations
import Stx.Util.PersistentHashSet.SetSemantics
import Stx.Util.PersistentHashSet.Counting
import Stx.Util.PersistentHashSet.Safety
import Stx.Util.PersistentHashSet.Crash
import Stx.Util.PersistentHashSet.Concurrent
import Stx.Util.PersistentHashSet.Guarantee
import Stx.Util.PersistentHashSet.Writer
import Stx.Util.PersistentHashSet.Agreement
import Stx.Protobuf.MessageObject
import Stx.Protobuf.MessageSchema
import Stx.Protobuf.MessageEncoder
import Stx.Protobuf.MessageDecoder
import Stx.Protobuf.SchemaEvolution
import Stx.Protobuf.SchemaIndex
import Stx.Protobuf.RoundTrip
import Stx.Protobuf.DecoderTermination
import Stx.Protobuf.SchemaCodec
import Stx.Protobuf.JSONEncoder
import Stx.Protobuf.JSONEncoder.Texts
import Stx.Protobuf.JSONEncoder.Values
import Stx.Protobuf.SchemaJSON
import Stx.Protobuf.DynamicMessage
import Stx.Protobuf.DynamicMessage.JSONRoundTrip
import Stx.Protobuf.SchemaJSON.RoundTrip
import Stx.Thread.CoalescingDelayedQueue
import Stx.Libc
import Stx.Http.HTTPMessage
import Stx.Http.HTTPParser
import Stx.Http.HTTPParser.Tokens
import Stx.Http.HTTPParser.Streams
import Stx.Http.HTTPParser.Messages
import Stx.Http.HTTPParser.ChunkInvariance
import Stx.Http.HTTPParser.Framing
import Stx.Http.HTTPParser.Limits
import Stx.Http.HTTPParser.EndOfFile
import Stx.Http.HTTPParser.HeaderOrder
import Stx.StringUtil
import Stx.StringUtil.Decimals
import Stx.StringUtil.Split
import Stx.StringUtil.Format
import Stx.Uri
import Stx.Uri.Components
import Stx.Uri.PercentCoding
import Stx.Uri.QueryString
import Stx.Http.Cookies
import Stx.Util.Base64
import Stx.Digest.Hex
import Stx.Web.SecureCookie
import Stx.Http.HTTPGenerator
import Stx.Http.HTTPRequest
import Stx.Http.HTTPGenerator.RoundTrip
import Stx.Http.HTTPServerConnection
import Stx.Http.HTTPServerConnection.WritePath
import Stx.Http.HTTPServerConnection.RequestBody
import Stx.Http.HTTPResponseStream
import Stx.Http.HTTPResponseStream.OutputOrder
import Stx.Http.HTTPResponseStream.FinishedOnce
import Stx.Json.JSONInputStream.Tokens
import Stx.Json.ParseJSON
import Stx.Json.ParseJSON.Spans
import Stx.Json.JSONUtil
import Stx.Json.JSONUtil.ObjectLookup
import Stx.Json.JSONOutputStream
import Stx.Json.JSONOutputStream.Strings
import Stx.Json.JSONOutputStream.Documents
import Stx.Json.Values
import Stx.Json.ParseJSON.Grammar
import Stx.Lib.Rfc6901
import Stx.Json.JSONPointer
import Stx.Json.FlatJSONReader
import Stx.Json.FlatJSONReader.Walk
import Stx.Json.FlatJSONReader.Pointers
import Stx.Json.FlatJSONReader.Texts
import Stx.Json.FlatJSONReader.Scalars
import Stx.Json.JSONOutputStream.Grammar
import Stx.Json.JSONOutputStream.Counters
import Stx.Json.JSONOutputStream.Layout
import Stx.Json.JSONUtil.Members
import Stx.Json.JSONUtil.Trees
import Stx.ISO8601
import Stx.ISO8601.Language
import Stx.ISO8601.Parsers
import Stx.Human
import Stx.Protobuf.DynamicMessage.FieldTexts
import Stx.Protobuf.DynamicMessage.Integers
import Stx.Protobuf.DynamicMessage.ObjectTokens
import Stx.Protobuf.DynamicMessage.Trees
import Stx.Protobuf.DynamicMessage.AddedValues
import Stx.Protobuf.DynamicMessage.ArrayElements
import Stx.Json.JSONInputStream
import Stx.Lib.Brackets
import Stx.Lib.Rfc8259
import Stx.Protobuf.FieldIdentity
import Stx.Thread.EventLoop
import Stx.Thread.EventLoop.WatchCount
import Stx.Thread.EventLoop.Readiness
import Stx.Thread.EventLoop.RunQueue
import Stx.Thread.ThreadPool
import Stx.Http.HTTPServerConnection.ChunkOrder
import Stx.Http.HTTPParser.Completion
import Stx.Http.HTTPServerConnection.Gauges
import Stx.Http.HTTPParser.ContentLength
import Stx.Json.JSONOutputStream.Derivations
import Stx.Protobuf.JSONEncoder.Grammar
import Stx.Protobuf.JSONEncoder.Numbers
import Stx.Thread.ThreadPool.Accounting
import Stx.Thread.Queue
import Stx.Thread.DelayedQueue
import Stx.Thread.FixedSizeThreadPool
import Stx.Thread.FixedSizeThreadPool.StopWakeup
import Stx.Thread.Future
import Stx.Thread.Future.Callbacks
import Stx.Web.SecureCookie.RoundTrip
import Stx.Web.SecureCookie.Verification
import Stx.Io.InputStream
import Stx.Io.FileInputStream
import Stx.Csv.CSVOutputStream
import Stx.Csv.BinaryCSV
import Stx.Csv.CSVRoundTrip
import Stx.Uri.Normalisation
import Stx.Http.HTTPSSEParser
import Stx.Http.HTTPSSEParser.Blocks
import Stx.Http.HTTPSSEParser.ChunkInvariance
import Stx.Http.HTTPSSEStream
import Stx.Lib.Places
import Stx.Thread.Wakeup
import Stx.AutoRef
import Stx.Executor.PosixScheduler
import Stx.Lib.DoublyLinked
import Stx.Executor.PosixScheduler.Timers
import Stx.Executor.PosixScheduler.Watchers
import Stx.Executor.ThreadPool
import Stx.Lib.Calendar
import Stx.UnixTime
import Stx.UnixTime.Instants
import Stx.ISO8601.Accesses
import Stx.ISO8601.Bounds
import Stx.Uri.QueryPieces
import Stx.Csv.LastRow
import Stx.Io.PageManager.Failure
import Stx.Http.HTTPResponseStream.Atomicity
import Stx.Http.HTTPParser.Passive
import Stx.Human.Times
import Stx.Human.DataType
import Stx.Human.Numbers
import Stx.Io.BufferedOutputStream
import Stx.Lib.Blocks
import Stx.Util.Simdcomp
import Stx.Util.BitPack
import Stx.Cli.FlagParser
import Stx.Cli.FlagParser.Spellings
import Stx.Stats.Statsd
import Stx.Stats.Statsd.Grammar
import Stx.Stats.Statsd.Lines
import Stx.Util.Base64.Accesses
import Stx.StringUtil.WideStrings
import Stx.UTF8.Validity
import Stx.Io.VarUInt
import Stx.Io.VarUInt.Shifts
import Stx.Util.BinaryMessageReader.Exact
import Stx.Util.BinaryMessageWriter.Histories
import Stx.Util.PersistentHashSet.LinearProbing
import Stx.Json.JSONPointer.Stack
import Stx.StringUtil.Join
import Stx.Json.JSONDocument
import Stx.Stats.StatsdAgent
import Stx.Http.HTTPClientConnection
import Stx.Http.HTTPClientConnection.Exchange
import Stx.Http.HTTPClientConnection.Requests
import Stx.Http.HTTPClientConnection.Responses
