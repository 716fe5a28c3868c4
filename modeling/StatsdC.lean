import StatsdC.ArrayList
import StatsdC.Client
import StatsdC.CounterThreads
import StatsdC.Daemon
import StatsdC.Flush
import StatsdC.FlushArithmetic
import StatsdC.FrontEnds
import StatsdC.Gmetric
import StatsdC.GraphitePayload
import StatsdC.HashedTables
import StatsdC.JsonCompact
import StatsdC.JsonObject
import StatsdC.JsonPacket
import StatsdC.JsonText
import StatsdC.JsonTokener
import StatsdC.JsonWellFormed
import StatsdC.KeyCopies
import StatsdC.Keys
import StatsdC.Lib.Binary64
import StatsdC.Lib.CString
import StatsdC.Lib.ChainedHash
import StatsdC.Lib.CircularBuffer
import StatsdC.Lib.Decimal
import StatsdC.Lib.Fallible
import StatsdC.Lib.GrowableBlock
import StatsdC.Lib.LinkedOrder
import StatsdC.Lib.OpenAddressing
import StatsdC.Lib.OrderedTable
import StatsdC.Lib.Semaphore
import StatsdC.Lib.Subsequence
import StatsdC.Lib.TransitionSystem
import StatsdC.Lib.Upsert
import StatsdC.Lib.Xdr
import StatsdC.LinkHash
import StatsdC.Liveness
import StatsdC.Locks
import StatsdC.Management
import StatsdC.MetricNames
import StatsdC.NameBuffers
import StatsdC.NumberBuffers
import StatsdC.Numbers
import StatsdC.Numerals
import StatsdC.Options
import StatsdC.Packet
import StatsdC.PacketDecode
import StatsdC.PacketFormat
import StatsdC.PacketSafety
import StatsdC.PercentileIndex
import StatsdC.Pipeline
import StatsdC.Printbuf
import StatsdC.Queue
import StatsdC.QueueOrder
import StatsdC.QueueThreads
import StatsdC.Reordering
import StatsdC.Restarts
import StatsdC.SanitizedNumerals
import StatsdC.Serialize
import StatsdC.Sessions
import StatsdC.Shutdown
import StatsdC.SnapshotRoundTrip
import StatsdC.SnapshotText
import StatsdC.StatNames
import StatsdC.StatsRoundTrip
import StatsdC.Strings
import StatsdC.TableRefinement
import StatsdC.Tables
import StatsdC.TimerArrays
import StatsdC.TimerCounts
import StatsdC.TimerSamples
import StatsdC.TimerStatistics
import StatsdC.TimerSummary
import StatsdC.TimerThreads
import StatsdC.TimersListing
import StatsdC.TokenerLoops
import StatsdC.TornSnapshot
import StatsdC.TrailingNewline
import StatsdC.UdpReceive
import StatsdC.UtArray
import StatsdC.UtHash
import StatsdC.UtString
