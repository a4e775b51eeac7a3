import LowLatency.Lib.Execution
import LowLatency.Lib.Lockstep
import LowLatency.Lib.Routing
import LowLatency.Lib.Buffer
import LowLatency.Lib.Rings
import LowLatency.Lib.CircularIndex
import LowLatency.Lib.CyclicOrder
import LowLatency.Lib.Transition
import LowLatency.Lib.BoundedFifo
import LowLatency.Lib.ThreadPool
import LowLatency.Lib.UniqueList
import LowLatency.Lib.Server
import LowLatency.Lib.Progress
import LowLatency.Lib.Lapping
import LowLatency.Lib.Fields
import LowLatency.Common.Types
import LowLatency.Common.MemPool
import LowLatency.Common.LiveObjects
import LowLatency.Common.PoolCapacity
import LowLatency.Common.LFQueue
import LowLatency.Common.ProducerConsumer
import LowLatency.Common.QueueEnds
import LowLatency.Common.Overrun
import LowLatency.Common.LFQueueExample
import LowLatency.Common.LFQueueExampleRuns
import LowLatency.Common.TCPSocket
import LowLatency.Common.SendBuffer
import LowLatency.Common.TCPServer
import LowLatency.Common.ServerCapacity
import LowLatency.Common.ServerRound
import LowLatency.Common.CreateSocket
import LowLatency.Common.SocketExample
import LowLatency.Common.Logger
import LowLatency.Common.LogFormat
import LowLatency.Common.Text
import LowLatency.Common.LogFile
import LowLatency.Common.LogSignal
import LowLatency.Exchange.Messages
import LowLatency.Exchange.MEOrderBook
import LowLatency.Exchange.LevelRing
import LowLatency.Exchange.Levels
import LowLatency.Exchange.BestPrice
import LowLatency.Exchange.RingOrder
import LowLatency.Exchange.OrderRing
import LowLatency.Exchange.Orders
import LowLatency.Exchange.OrderRuns
import LowLatency.Exchange.SideRing
import LowLatency.Exchange.LevelQueues
import LowLatency.Exchange.Construction
import LowLatency.Exchange.Add
import LowLatency.Exchange.MarketData
import LowLatency.Exchange.MatchingEngine
import LowLatency.Exchange.Overrun
import LowLatency.Exchange.ClientRequests
import LowLatency.Exchange.Survival
import LowLatency.Exchange.PriceTable
import LowLatency.Exchange.StartStop
import LowLatency.Exchange.Shutdown
import LowLatency.Exchange.Pipeline
import LowLatency.Exchange.Progress
import LowLatency.Exchange.Subscribers
import LowLatency.Exchange.EngineCapacity
import LowLatency.Exchange.Text
import LowLatency.Exchange.Transcript
import LowLatency.Exchange.ExchangeMain
