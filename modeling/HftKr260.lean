import HftKr260.Foundation.DirectMap
import HftKr260.Foundation.KeyedSum
import HftKr260.Foundation.KeyedRuns
import HftKr260.Foundation.OrderStatistics
import HftKr260.Foundation.Rounding
import HftKr260.Foundation.Clocked
import HftKr260.Foundation.Segmentation
import HftKr260.Foundation.Interleaving
import HftKr260.Foundation.Handshake
import HftKr260.Foundation.SharedReads
import HftKr260.Foundation.Synchroniser
import HftKr260.Foundation.Traps
import HftKr260.Foundation.SplitCounter
import HftKr260.Foundation.CircularGap
import HftKr260.Foundation.Indicators
import HftKr260.Foundation.ClockDomains
import HftKr260.Foundation.DeviceTrace
import HftKr260.Foundation.AsyncReset
import HftKr260.Software.BookCalls
import HftKr260.Software.PriceWindow
import HftKr260.Software.AddedBook
import HftKr260.Software.FeedHandler
import HftKr260.Software.Aggregation
import HftKr260.Software.Liquidity
import HftKr260.Software.TopChanges
import HftKr260.Software.Codec
import HftKr260.Software.Overflow
import HftKr260.Software.OrderLives
import HftKr260.Software.LatencyHistogram
import HftKr260.Software.RingBuffer
import HftKr260.Software.SizeApprox
import HftKr260.Software.SeqlockReads
import HftKr260.Rtl.MsgFramer
import HftKr260.Rtl.FramerWire
import HftKr260.Rtl.FramerStalls
import HftKr260.Rtl.MarketDataParser
import HftKr260.Rtl.ParserFrames
import HftKr260.Rtl.OrderBookEngine
import HftKr260.Rtl.Kr260Top
import HftKr260.Rtl.AddDecode
import HftKr260.Rtl.BookFill
import HftKr260.Rtl.EngineFeed
import HftKr260.Rtl.SelectionTree
import HftKr260.Rtl.LevelMap
import HftKr260.Rtl.SlotAllocation
import HftKr260.Rtl.ErroredFrames
import HftKr260.Rtl.BookAgreement
import HftKr260.Rtl.TobAxiLite
import HftKr260.Rtl.AxiRead
import HftKr260.Rtl.AxiWrite
import HftKr260.Rtl.StatusLatches
import HftKr260.Rtl.ClockCrossing
import HftKr260.Rtl.Publication
import HftKr260.Rtl.BestQuantities
import HftKr260.Rtl.StatusLeds
import HftKr260.Rtl.BoardReset
import HftKr260.Rtl.TobOutputs
import HftKr260.Rtl.Kr260Board
import HftKr260.Rtl.BusReset
import HftKr260.Software.CrossedBook
import HftKr260.Software.Benchmark
import HftKr260.Software.TobAxiDriver
import HftKr260.Software.MsgCount
import HftKr260.Software.BoardDriver
import HftKr260.Rtl.SettledBoard
import HftKr260.Software.ChangePolls
import HftKr260.Scripts.GenerateBurst
import HftKr260.Scripts.Bursts
import HftKr260.Scripts.ScriptedBursts
import HftKr260.Scripts.BurstBook
import HftKr260.Scripts.BurstOnBoard
import HftKr260.Scripts.ReadTob
import HftKr260.Scripts.DemoBurst
import HftKr260.Scripts.AxiDma
