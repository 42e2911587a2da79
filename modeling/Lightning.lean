import Lightning.Lib.AssocList
import Lightning.Lib.Regex
import Lightning.Lib.RegexLanguage
import Lightning.Lib.RegexSyntax
import Lightning.Lib.RegexBuild
import Lightning.Lib.RegexCaptures
import Lightning.Lib.Search
import Lightning.Lib.Pieces
import Lightning.Lib.Transition
import Lightning.Lib.Traced
import Lightning.Lib.Loop
import Lightning.Lib.Threads
import Lightning.Lib.CountingSemaphore
import Lightning.Lib.ProducerQueue
import Lightning.Lib.Component
import Lightning.Lib.Settling
import Lightning.Basic
import Lightning.Socket
import Lightning.Stream
import Lightning.PlainStream
import Lightning.PlainStreamInt
import Lightning.SSLStream
import Lightning.ReadUntilToken
import Lightning.IStream
import Lightning.Response
import Lightning.Request
import Lightning.RequestInt
import Lightning.RequestTrace
import Lightning.Resolver
import Lightning.UriMapper
import Lightning.HttpServer
import Lightning.StaticFile
import Lightning.ClientRequestHandler
import Lightning.FdChannels
import Lightning.TaskExecutor
import Lightning.NonblockingClientManagerTask
import Lightning.SSLClose
import Lightning.Process
import Lightning.Start
import Lightning.LightweightSemaphore
import Lightning.BlockingConcurrentQueue
import Lightning.QueuedTaskExecutor
import Lightning.Connection
import Lightning.Proof.Channel
import Lightning.Proof.HeadExtraction
import Lightning.Proof.Steps
import Lightning.Proof.Ownership
import Lightning.Proof.Pipelining
import Lightning.Proof.Registration
import Lightning.Proof.Histories
import Lightning.Proof.Closing
import Lightning.Proof.Reply
import Lightning.Proof.Routing
import Lightning.Proof.RouteText
import Lightning.Proof.ExactRoutes
import Lightning.Proof.WildcardRoutes
import Lightning.Proof.WildcardSearch
import Lightning.Proof.UriParameters
import Lightning.Proof.RouteParameters
import Lightning.Proof.RouteErrors
import Lightning.Proof.Formatting
import Lightning.Proof.Middleware
import Lightning.Proof.Fallback
import Lightning.Proof.BodyPosition
import Lightning.Proof.BodyDelivery
import Lightning.Proof.Parsing
import Lightning.Proof.RequestLine
import Lightning.Proof.Serialization
import Lightning.Proof.Builder
import Lightning.Proof.StaticFile
import Lightning.Proof.HeaderRoundTrip
import Lightning.Proof.Reflection
import Lightning.Proof.HeaderNames
import Lightning.Proof.Conservation
import Lightning.Proof.Flow
import Lightning.Proof.ShortReads
import Lightning.Proof.ContentLength
import Lightning.Proof.WholeMatch
import Lightning.Proof.SSLCalls
import Lightning.Proof.TokenReads
import Lightning.Proof.Executor
import Lightning.Proof.Waiting
import Lightning.Proof.Start
import Lightning.Proof.SSLClose
import Lightning.Proof.Semaphore
import Lightning.Proof.BlockingQueue
import Lightning.Proof.QueuedExecutor
import Lightning.Proof.ExecutorProgress
import Lightning.Proof.Isolation
import Lightning.Proof.Progress
import Lightning.Proof.Settling
import Lightning.Proof.Answered
import Lightning.Proof.FolderPaths
import Lightning.Proof.Shutdown
import Lightning.Proof.Lifetimes
import Lightning.Proof.Conversation
