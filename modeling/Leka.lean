import Leka.Procedures
import Leka.LinkedChain
import Leka.ProbeTable
import Leka.WordBits
import Leka.Buckets
import Leka.Sweeps
import Leka.Orders
import Leka.OrderIndexing
import Leka.IndexTables
import Leka.IndexAsMap
import Leka.PriceLevels
import Leka.PriceLadders
import Leka.OrderPools
import Leka.PoolAsSet
import Leka.OrderBooks
import Leka.MatchingEngines
import Leka.SyncedBooks
import Leka.BookRemovals
import Leka.BookInsertions
import Leka.ReferenceMatchers
import Leka.RestingOrders
import Leka.MatchingRounds
import Leka.EventOutcomes
import Leka.MatchingLoops
import Leka.BookRuns
import Leka.BookGrids
import Leka.BookSynchrony
import Leka.MatcherRefinement
import Leka.EventMoves
import Leka.UncrossedBooks
import Leka.TimePriority
import Leka.LevelAggregates
import Leka.RemainderPlacements
import Leka.RejectedEvents
import Leka.ValidOrders
import Leka.QuantityLedgers
import Leka.InternalErrors
import Leka.CounterChecks
import Leka.FailedInsertions
import Leka.BookViews
import Leka.UpkeepOrders
import Leka.RestThenCancel
import Leka.SweepShapes
import Leka.MarketLimits
import Leka.SplitOrders
import Leka.ReservationEnds
import Leka.Observations
import Leka.ReplayedEvents
import Leka.ReservedCapacity
import Leka.LadderAsSet
import Leka.Snapshots
import Leka.LadderAddresses
import Leka.LadderSizes
import Leka.PageMoves
import Leka.PageMappings
import Leka.TwinRuns
import Leka.Renumberings
import Leka.SeparateEngines
import Leka.Numerals
import Leka.ByteReads
import Leka.Frames
import Leka.ItchDecoders
import Leka.ItchLayouts
import Leka.ItchRounds
import Leka.FrameReads
import Leka.FrameSplits
import Leka.LostFields
import Leka.CsvReaders
import Leka.RowTexts
import Leka.CsvRoundTrips
import Leka.SpscQueues
import Leka.RingSlots
import Leka.SpscFifo
import Leka.BitSearches
import Leka.LevelLists
import Leka.SymbolFilters
import Leka.ItchReplays
import Leka.ReplayTraces
import Leka.ExecutionGroups
import Leka.AggressorOrders
import Leka.ReplayLadders
import Leka.InterchangeReaders
import Leka.InterchangeReplays
import Leka.Pipelines
import Leka.QueueCalls
import Leka.ThreadedReplays
import Leka.ThreadedProgress
import Leka.Markets
import Leka.MarketReadings
import Leka.MarketRefinement
import Leka.MarketRuns
import Leka.Venues
import Leka.VenueSessions
import Leka.VenueReplays
import Leka.VenueFeeds
import Leka.Doubles
import Leka.Utf8Texts
import Leka.JsonTexts
import Leka.SnapshotRecorders
import Leka.DisplayedLevels
import Leka.RecordedFrames
import Leka.RecordedRuns
import Leka.RecordingFiles
import Leka.RecordedLatencies
