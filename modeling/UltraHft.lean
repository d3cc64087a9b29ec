import UltraHft.MarketData.FlatOrderMap
import UltraHft.Lib.Cyclic
import UltraHft.Lib.OpenAddressing.Shift
import UltraHft.Lib.OpenAddressing.Settle
import UltraHft.MarketData.Proofs.FlatOrderMap.Geometry
import UltraHft.MarketData.Proofs.FlatOrderMap.Cells
import UltraHft.Lib.Runs
import UltraHft.MarketData.Proofs.FlatOrderMap.FiniteMap
import UltraHft.MarketData.Proofs.FlatOrderMap.MapRuns
import UltraHft.Lib.DoublyLinked
import UltraHft.Lib.LowerBound
import UltraHft.MarketData.OrderBook
import UltraHft.MarketData.Proofs.PriceLevel
import UltraHft.MarketData.Proofs.FlatOrderMap.Arrivals
import UltraHft.MarketData.Proofs.OrderBook.Laddered
import UltraHft.MarketData.Proofs.OrderBook.Ledger
import UltraHft.MarketData.Proofs.OrderBook.Coherent
import UltraHft.MarketData.Proofs.OrderBook.Steps
import UltraHft.MarketData.Proofs.OrderBook.LevelRuns
import UltraHft.MarketData.Proofs.OrderBook.TopOfBook
import UltraHft.Core.Proofs.SpscQueue.Invariant
import UltraHft.Core.Proofs.SpscQueue.Linearizable
import UltraHft.Core.Proofs.SpscQueue.Fifo
import UltraHft.Core.Proofs.TimerWheel.Bucket
import UltraHft.Core.Proofs.TimerWheel.Tick
import UltraHft.Core.Proofs.TimerWheel.Calls
import UltraHft.Core.Proofs.TimerWheel.Timely
import UltraHft.MarketData.Proofs.FlatOrderMap.Termination
import UltraHft.MarketData.Proofs.OrderBook.Termination
import UltraHft.Lib.Bytes
import UltraHft.MarketData.ItchMessages
import UltraHft.MarketData.MarketDataHandler
import UltraHft.Tools.ItchSender
import UltraHft.MarketData.Proofs.OrderBook.Gains
import UltraHft.MarketData.Proofs.MarketDataHandler.Reachable
import UltraHft.Tools.Proofs.WireFormat
import UltraHft.MarketData.Proofs.OrderBook.OneOrder
import UltraHft.MarketData.Proofs.MarketDataHandler.Shares
import UltraHft.Tools.Proofs.Generate
import UltraHft.Tools.Proofs.LiveOrders
import UltraHft.Core.MemoryPool
import UltraHft.Core.Proofs.MemoryPool
import UltraHft.Lib.Framing
import UltraHft.Examples.MarketDataPipelineDemo
import UltraHft.Tools.UdpReceiver
import UltraHft.Tools.Proofs.Framing
import UltraHft.Examples.Proofs.Dispatch
import UltraHft.MarketData.Proofs.MarketDataHandler.InPlace
import UltraHft.Examples.Proofs.ReceivePath
import UltraHft.MarketData.Proofs.OrderBook.Searches
import UltraHft.Lib.OpenAddressing.Contents
import UltraHft.MarketData.Proofs.MarketDataHandler.Notifications
import UltraHft.MarketData.Proofs.MarketDataHandler.Accounting
import UltraHft.Core.Proofs.TimerWheel.History
import UltraHft.MarketData.Proofs.MarketDataHandler.Replacement
import UltraHft.Core.Proofs.TimerWheel.Recurring
import UltraHft.Core.Proofs.MemoryPool.ThrowingConstructor
import UltraHft.MarketData.Proofs.DpdkPacketHandler.Headers
import UltraHft.MarketData.Proofs.DpdkPacketHandler.UdpFrame
import UltraHft.MarketData.Proofs.DpdkPacketHandler.Datagram
import UltraHft.Examples.Proofs.PortFilter
import UltraHft.Examples.Proofs.Heartbeat
import UltraHft.MarketData.Proofs.OrderBook.Consistent
import UltraHft.MarketData.Proofs.OrderBook.Fills
import UltraHft.MarketData.Proofs.OrderBook.Quantities
import UltraHft.MarketData.Proofs.OrderBook.UndoneAdd
import UltraHft.Core.Proofs.TimerWheel.Lone
import UltraHft.Core.Proofs.TimerWheel.Occurrences
import UltraHft.MarketData.Proofs.OrderBook.Depth
import UltraHft.Common.LatencyHistogram
import UltraHft.Common.Proofs.LatencyHistogram.Mean
import UltraHft.Common.Proofs.LatencyHistogram.Monotone
import UltraHft.MarketData.Proofs.DpdkPacketHandler.Timestamp
import UltraHft.Tools.Proofs.MessageReports
import UltraHft.Tools.Proofs.OrderStream
import UltraHft.Core.Proofs.TimerWheel.FiringOrder
import UltraHft.Lib.Simulation
import UltraHft.Lib.PriceTime
import UltraHft.MarketData.Proofs.OrderBook.Meaning
import UltraHft.MarketData.Proofs.OrderBook.DistinctSlots
import UltraHft.MarketData.Proofs.OrderBook.PriceTime
import UltraHft.MarketData.Proofs.MarketDataHandler.Requests
import UltraHft.MarketData.Proofs.MarketDataHandler.FeedHandler
import UltraHft.Lib.Outside
import UltraHft.MarketData.Proofs.DpdkPacketHandler.Port
import UltraHft.Examples.PipelineMain
import UltraHft.Examples.Proofs.Observed
import UltraHft.Examples.Proofs.TrueReports
import UltraHft.Lib.ReleaseAcquire
import UltraHft.Core.SpscQueueOrders
import UltraHft.Core.Proofs.SpscQueue.Ordered
import UltraHft.Core.Proofs.SpscQueue.RaceFree
import UltraHft.Tools.SenderMain
import UltraHft.Tools.Proofs.SentMessages
import UltraHft.Tools.Proofs.SenderStream
import UltraHft.Tools.Proofs.OpenOrders
import UltraHft.Examples.Proofs.EndToEnd
import UltraHft.Core.Proofs.MemoryPool.Lifetimes
import UltraHft.MarketData.FlatOrderMapMoves
import UltraHft.MarketData.Proofs.FlatOrderMap.Moves
import UltraHft.Core.Proofs.TimerWheel.TimerQueue
import UltraHft.Lib.Tally
import UltraHft.Tools.Proofs.ReceiverCounts
import UltraHft.Tools.Proofs.SenderToReceiver
import UltraHft.Core.Proofs.TimerWheel.BusyCallbacks
import UltraHft.Core.Proofs.TimerWheel.QuietCallbacks
