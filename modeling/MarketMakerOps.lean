import MarketMakerOps.Lib.LinkedQueue
import MarketMakerOps.Lib.Fallible
import MarketMakerOps.Lib.Decimal
import MarketMakerOps.Lib.Priority
import MarketMakerOps.Lib.Allotment
import MarketMakerOps.Lib.Splitting
import MarketMakerOps.Lib.Pairing
import MarketMakerOps.Lib.Json
import MarketMakerOps.Engine.Types
import MarketMakerOps.Engine.PriceLevel
import MarketMakerOps.Engine.LevelQueues
import MarketMakerOps.Engine.OrderPool
import MarketMakerOps.Engine.OrderBook
import MarketMakerOps.Engine.PriorityBook
import MarketMakerOps.Engine.Levels
import MarketMakerOps.Engine.Refinement
import MarketMakerOps.Engine.Runs
import MarketMakerOps.Engine.SelfMatch
import MarketMakerOps.Engine.MatchLoop
import MarketMakerOps.Engine.Relocation
import MarketMakerOps.Engine.Invariants
import MarketMakerOps.Engine.ReferenceBook
import MarketMakerOps.Engine.Mirror
import MarketMakerOps.Engine.LevelTotals
import MarketMakerOps.Exchange.Protocol
import MarketMakerOps.Exchange.Numbers
import MarketMakerOps.Exchange.Scan
import MarketMakerOps.Exchange.FlatObject
import MarketMakerOps.Exchange.Requests
import MarketMakerOps.Exchange.Venue
import MarketMakerOps.Exchange.Tables
import MarketMakerOps.Exchange.Handled
import MarketMakerOps.Exchange.Sync
import MarketMakerOps.Exchange.Runs
import MarketMakerOps.Exchange.Stages
import MarketMakerOps.Exchange.Lifecycle
import MarketMakerOps.Exchange.Wrap
import MarketMakerOps.Exchange.Renaming
import MarketMakerOps.Exchange.Disconnect
import MarketMakerOps.Exchange.SelfMatch
import MarketMakerOps.Exchange.Capacity
import MarketMakerOps.Exchange.LevelReserve
import MarketMakerOps.Exchange.Replies
import MarketMakerOps.Exchange.PrivateNames
import MarketMakerOps.Exchange.Market
import MarketMakerOps.Exchange.MarketSweep
import MarketMakerOps.Exchange.MarketTables
import MarketMakerOps.Exchange.MarketRefinement
import MarketMakerOps.Exchange.Precedence
import MarketMakerOps.Exchange.Execution
import MarketMakerOps.Exchange.Touch
import MarketMakerOps.Ops.PositionState
import MarketMakerOps.Exchange.ZeroSum
import MarketMakerOps.Exchange.Framing
import MarketMakerOps.Exchange.Startup
import MarketMakerOps.Exchange.Server
import MarketMakerOps.Exchange.MarketData
import MarketMakerOps.Exchange.Delivery
import MarketMakerOps.Exchange.Descriptors
import MarketMakerOps.Exchange.Sockets
import MarketMakerOps.Exchange.Answers
import MarketMakerOps.Exchange.Encoding
import MarketMakerOps.Exchange.ByteServer
import MarketMakerOps.Exchange.Uptime
import MarketMakerOps.Exchange.Resources
import MarketMakerOps.Exchange.WireNumbers
import MarketMakerOps.Exchange.ClientRequests
import MarketMakerOps.Exchange.FrameLimit
import MarketMakerOps.Exchange.Budget
import MarketMakerOps.Exchange.Conversations
import MarketMakerOps.Exchange.Client
import MarketMakerOps.Exchange.Reading
import MarketMakerOps.Lib.Rounding
import MarketMakerOps.Ops.Quoting
import MarketMakerOps.Ops.MarketMaker
import MarketMakerOps.Ops.Quotes
import MarketMakerOps.Ops.Dialogue
import MarketMakerOps.Ops.QuoteRange
import MarketMakerOps.Ops.Reconciliation
import MarketMakerOps.Ops.Exposure
import MarketMakerOps.Ops.NoiseTrader
