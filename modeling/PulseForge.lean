import PulseForge.Analysis.FlatIdMapRefinement
import PulseForge.Analysis.OrderBookRefinement
import PulseForge.Analysis.PriceTimePriority
import PulseForge.Analysis.NeverCrossed
import PulseForge.Analysis.ShareConservation
import PulseForge.Analysis.ItchCodec
import PulseForge.Analysis.FeedDeterminesBook
import PulseForge.Analysis.SessionTables
import PulseForge.Analysis.SessionReports
import PulseForge.Analysis.FeedNumbering
import PulseForge.Analysis.FeedSynchronised
import PulseForge.Analysis.FrameReassembly
import PulseForge.Analysis.RecvRoom
import PulseForge.Analysis.StalePackets
import PulseForge.Analysis.PositionLimit
import PulseForge.Analysis.SpscCalls
import PulseForge.Analysis.FanoutCalls
import PulseForge.Analysis.GapDetection
import PulseForge.Analysis.GapRecovery
import PulseForge.Analysis.RiskArithmetic
import PulseForge.Analysis.OrderRate
import PulseForge.Analysis.FixEncode
import PulseForge.Analysis.FixCorruption
import PulseForge.Analysis.FixOrder
import PulseForge.Analysis.SessionOutput
import PulseForge.Analysis.ClosingSessions
import PulseForge.Analysis.RecoveryRing
import PulseForge.Analysis.LoginCodec
import PulseForge.Analysis.TelemetryReader
import PulseForge.Analysis.QueueMutexFifo
import PulseForge.Analysis.WorkerTotals
import PulseForge.Analysis.HistogramPercentiles
import PulseForge.Analysis.CpuListGrammar
import PulseForge.Analysis.OrderEntryStream
import PulseForge.Analysis.StrategyDecision
import PulseForge.Analysis.SnapshotReplay
import PulseForge.Analysis.SnapshotLocate
import PulseForge.Analysis.PacketBounds
import PulseForge.Analysis.ScanBounds
import PulseForge.Analysis.MemPoolRefinement
