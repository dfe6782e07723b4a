import Atp.CircularBuffer
import Atp.IntervalPolicy
import Atp.Samplers
import Atp.MovingWindow
import Atp.CheckedArray
import Atp.CopyLast
import Atp.WindowHistory
import Atp.Ohlc
import Atp.Text
import Atp.OrderedMap
import Atp.Double
import Atp.LexicalCast
import Atp.Protos
import Atp.WireFormat
import Atp.RecordWire
import Atp.HistorianKeys
import Atp.HistorianStore
import Atp.HistorianQuery
import Atp.Runs
import Atp.HistorianIndex
import Atp.ContractSymbol
import Atp.ZmqFrames
import Atp.SocketConnector
import Atp.OrderManager
import Atp.StreamedReplies
import Atp.DbReactor
import Atp.DoubleText
import Atp.TickerMap
import Atp.LogRecord
import Atp.EventLog
import Atp.LogReader
import Atp.LoggedTicks
import Atp.LoggedRequests
import Atp.Replay
import Atp.LateEvents
import Atp.InverseMaps
import Atp.TickerIds
import Atp.MarketRequests
import Atp.SocketInitiator
import Atp.EClientDriver
import Atp.Segments
import Atp.SessionLogs
import Atp.FrameGroups
import Atp.MessageProcessor
import Atp.Publisher
import Atp.MarketDataSubscriber
import Atp.DoubleValue
import Atp.TickerCode
import Atp.ContractMarshall
import Atp.OrderMarshall
import Atp.DepthLines
import Atp.LoggedActions
import Atp.Reactor
import Atp.RecordCollisions
import Atp.ClosingValues
import Atp.WindowCallbacks
import Atp.DerivedSeries
import Atp.WindowCounts
import Atp.KeyOrder
import Atp.QueryCount
import Atp.AtomicWrites
import Atp.TimedScan
import Atp.ScanWindow
import Atp.MalformedKeys
import Atp.ContractRegistry
import Atp.TickerFallback
import Atp.Rounding
import Atp.OptionStrikes
import Atp.OptionFields
import Atp.DetailKeys
import Atp.OrderFields
import Atp.ZmqProtoBuffer
import Atp.AsyncResponse
import Atp.PendingFutures
import Atp.ContractManager
import Atp.FlagParsers
import Atp.AdminMessages
import Atp.HistorianLoader
import Atp.NowMicros
import Atp.RecordMap
import Atp.Watcher
import Atp.MarketDataHandler
import Atp.MovingAverages
import Atp.MinSamples
import Atp.SequentialPipeline
import Atp.Utf8
import Atp.Json
import Atp.PrintfNumber
import Atp.Varz
import Atp.GuardedWrites
import Atp.SeriesStore
import Atp.LiveReplies
import Atp.LiveHistorian
import Atp.Recording
import Atp.Links
import Atp.TypedMessages
import Atp.LatestResponses
import Atp.OrderWire
import Atp.OrderFlow
import Atp.ContractFlow
import Atp.LoaderRun
import Atp.LogPlayback
import Atp.MarketDataAgent
import Atp.Firehose
import Atp.DataSubscription
import Atp.GatewayLog
import Atp.LoadedRecords
import Atp.SessionLoad
