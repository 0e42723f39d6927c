import Fastbook.Support.AddressSpace
import Fastbook.Support.Bits
import Fastbook.Support.ByteMemory
import Fastbook.Support.Chain
import Fastbook.Support.Cyclic
import Fastbook.Support.Fairness
import Fastbook.Support.FiniteMap
import Fastbook.Support.Handles
import Fastbook.Support.LaneMask
import Fastbook.Support.LinkedList
import Fastbook.Support.Placement
import Fastbook.Support.Rank
import Fastbook.Support.Ring
import Fastbook.Support.Routing
import Fastbook.Support.Run
import Fastbook.Support.Slots
import Fastbook.Support.SortedList
import Fastbook.Support.StreamDecoder
import Fastbook.Support.TransitionSystem
import Fastbook.Support.TriangularProbe
import Fastbook.Common.BufferPool
import Fastbook.Common.BufferPoolChunks
import Fastbook.Common.BufferPoolInvariant
import Fastbook.Common.BufferPoolLayout
import Fastbook.Common.BufferPoolPlaces
import Fastbook.Common.BufferPoolSafety
import Fastbook.Common.BufferPoolStep
import Fastbook.Common.EventQueue
import Fastbook.Common.Histogram
import Fastbook.Common.LargeAlloc
import Fastbook.Common.LinearProbingErase
import Fastbook.Common.LinearProbingInvariant
import Fastbook.Common.LinearProbingMap
import Fastbook.Common.LinearProbingTable
import Fastbook.Common.LogAccounting
import Fastbook.Common.LogDelivery
import Fastbook.Common.LogDrain
import Fastbook.Common.LogFormat
import Fastbook.Common.LogRecord
import Fastbook.Common.SpscQueue
import Fastbook.Common.SpscQueueFifo
import Fastbook.Common.SwarLanes
import Fastbook.Common.SwissGroup
import Fastbook.Common.SwissTable
import Fastbook.Common.SwissTableInvariant
import Fastbook.Common.SwissTableMap
import Fastbook.Common.SwissTableStep
import Fastbook.Common.TagPolicy
import Fastbook.Common.ThreadExit
import Fastbook.Common.TreiberSafety
import Fastbook.Common.TreiberStack
import Fastbook.Common.TreiberThreads
import Fastbook.Common.Types
import Fastbook.OrderBook.AcceptedOrders
import Fastbook.OrderBook.LevelMap
import Fastbook.OrderBook.OrderBook
import Fastbook.OrderBook.OrderBookGrowth
import Fastbook.OrderBook.OrderBookInvariant
import Fastbook.OrderBook.OrderBookRefinement
import Fastbook.OrderBook.OrderBookStep
import Fastbook.OrderBook.PriceTimeBook
import Fastbook.OrderBook.TwoTierLevels
import Fastbook.OrderBook.TwoTierLevelsMap
import Fastbook.BookBuilder.BookBuilder
import Fastbook.BookBuilder.BookIsolation
import Fastbook.BookBuilder.Market
import Fastbook.BookBuilder.ReplaceOrder
import Fastbook.Feed.AfXdpFrames
import Fastbook.Feed.AfXdpSource
import Fastbook.Feed.BufReader
import Fastbook.Feed.FeedFilter
import Fastbook.Feed.FileSource
import Fastbook.Feed.GapRecovery
import Fastbook.Feed.ItchParser
import Fastbook.Feed.ItchWire
import Fastbook.Feed.LengthPrefixFramer
import Fastbook.Feed.McastBuffers
import Fastbook.Feed.McastUDPSource
import Fastbook.Feed.MessageBlocks
import Fastbook.Feed.MoldReplay
import Fastbook.Feed.MoldUdp64
import Fastbook.Feed.RecoverProgress
import Fastbook.Feed.RecoverRequests
import Fastbook.Feed.RecoverRule
import Fastbook.Feed.ReplayDelivery
import Fastbook.Feed.ReplaySession
import Fastbook.Feed.TcpSource
import Fastbook.Feed.TcpStream
import Fastbook.Feed.VenueFeed
import Fastbook.Pipeline.Books
import Fastbook.Pipeline.CommandLine
import Fastbook.Pipeline.Delivery
import Fastbook.Pipeline.EarlyStop
import Fastbook.Pipeline.FeedHandler
import Fastbook.Pipeline.FeedProgress
import Fastbook.Pipeline.FileBooks
import Fastbook.Pipeline.LiveBooks
import Fastbook.Pipeline.Program
import Fastbook.Pipeline.ProgramExit
import Fastbook.Pipeline.Shutdown
import Fastbook.Pipeline.Startup
import Fastbook.Pipeline.StartupSafety
import Fastbook.Pipeline.ThreadConfig
import Fastbook.Pipeline.ThreadConfigGrammar
