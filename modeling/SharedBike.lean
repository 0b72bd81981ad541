import SharedBike.BikeProtocol
import SharedBike.CallHistory
import SharedBike.ChronicleSteps
import SharedBike.Chronicles
import SharedBike.Client
import SharedBike.ClientBuffers
import SharedBike.CodeGeneration
import SharedBike.ConnectionFraming
import SharedBike.Conversations
import SharedBike.DispatchMsgService
import SharedBike.DrainLoop
import SharedBike.EndToEnd
import SharedBike.Events
import SharedBike.ExitResponses
import SharedBike.FanOut
import SharedBike.FrameOutcomes
import SharedBike.Globals
import SharedBike.InputDrained
import SharedBike.Library.Completion
import SharedBike.Library.Composition
import SharedBike.Library.CriticalSections
import SharedBike.Library.Footprints
import SharedBike.Library.GuardedRuns
import SharedBike.Library.Heaps
import SharedBike.Library.Histories
import SharedBike.Library.LengthFrames
import SharedBike.Library.LittleEndian
import SharedBike.Library.MarkedSegments
import SharedBike.Library.OrderedSets
import SharedBike.Library.Ownership
import SharedBike.Library.Proto2
import SharedBike.Library.Proto2Cuts
import SharedBike.Library.Slots
import SharedBike.Library.SqlTokens
import SharedBike.Library.TailQueues
import SharedBike.LoginCodes
import SharedBike.LoginFailures
import SharedBike.NetworkInterface
import SharedBike.NetworkMemory
import SharedBike.Platform
import SharedBike.PoolAtomicity
import SharedBike.PoolCounting
import SharedBike.PoolFailures
import SharedBike.PoolMachine
import SharedBike.PoolOwnership
import SharedBike.PoolQueue
import SharedBike.PoolRefinement
import SharedBike.PoolSafety
import SharedBike.PoolSections
import SharedBike.PoolShutdown
import SharedBike.PoolStartup
import SharedBike.PoolStatements
import SharedBike.PoolSteps
import SharedBike.PoolWakeups
import SharedBike.PooledPlatform
import SharedBike.PooledProgress
import SharedBike.PooledServer
import SharedBike.Progress
import SharedBike.Quiescence
import SharedBike.ReadBounds
import SharedBike.RequestReader
import SharedBike.ResponseFrames
import SharedBike.ResponseSegments
import SharedBike.ResponseStream
import SharedBike.SequentialLogins
import SharedBike.Server
import SharedBike.ServerInvariant
import SharedBike.ServerView
import SharedBike.ServiceClose
import SharedBike.SessionLifetime
import SharedBike.SessionMemory
import SharedBike.SessionOwnership
import SharedBike.SqlBuffer
import SharedBike.SqlStatements
import SharedBike.Subscriptions
import SharedBike.ThreadPool
import SharedBike.UniqueUsers
import SharedBike.UserEventHandler
import SharedBike.UserService
import SharedBike.WireAgreement
import SharedBike.WorkMatching
