import Leka.Utf8Texts
import Leka.JsonTexts
import Leka.DisplayedLevels
import Leka.SnapshotRecorders

/-!
What a frame of a recording tells, as the numbers that it is made of, and its line: the bytes of
the text of one JSON object, all of them ASCII characters.
-/

namespace Leka.RecordedFrames

open Procedures Orders OrderBooks MatchingEngines Numerals LadderSizes Utf8Texts JsonTexts
  Snapshots SnapshotRecorders DisplayedLevels
open InterchangeReplays (Label)

/-- The events of each kind that have been applied, and the executions. -/
structure Flow where
  newCount : ℕ
  cancelCount : ℕ
  reduceCount : ℕ
  tradeCount : ℕ
  buyQty : ℕ
  sellQty : ℕ
  deriving DecidableEq

/-- What a frame tells. -/
structure Frame where
  seq : ℕ
  ts : ℕ
  bids : SideView
  asks : SideView
  flow : Flow
  lat : List (Chars × ℕ × ℕ × ℕ)
  tape : List (ℕ × ℕ × ℕ × Char)
  deriving DecidableEq

section Texts

def numbers (ns : List ℕ) : Json ℕ := .array (ns.map Json.number)

def levelsJson (levels : List (ℕ × ℕ × ℕ)) : Json ℕ :=
  .array (levels.map fun level => numbers [level.1, level.2.1, level.2.2])

/-- An execution: its time, its price, its quantity and the side of its aggressor. -/
def entryJson (entry : ℕ × ℕ × ℕ × Char) : Json ℕ :=
  .array [.number entry.1, .number entry.2.1, .number entry.2.2.1, .string [entry.2.2.2]]

def Flow.json (flow : Flow) : Json ℕ := .object [
  ("new".toList, .number flow.newCount),
  ("cancel".toList, .number flow.cancelCount),
  ("reduce".toList, .number flow.reduceCount),
  ("trades".toList, .number flow.tradeCount),
  ("buyQty".toList, .number flow.buyQty),
  ("sellQty".toList, .number flow.sellQty)]

def Frame.json (frame : Frame) : Json ℕ := .object [
  ("seq".toList, .number frame.seq),
  ("ts".toList, .number frame.ts),
  ("bb".toList, .number frame.bids.best),
  ("ba".toList, .number frame.asks.best),
  ("nb".toList, .number frame.bids.levelCount),
  ("na".toList, .number frame.asks.levelCount),
  ("bids".toList, levelsJson frame.bids.levels),
  ("asks".toList, levelsJson frame.asks.levels),
  ("flow".toList, frame.flow.json),
  ("lat".toList, .object (frame.lat.map fun p => (p.1, numbers [p.2.1, p.2.2.1, p.2.2.2]))),
  ("tape".toList, .array (frame.tape.map entryJson))]

def entryOf (entry : TapeEntry) : ℕ × ℕ × ℕ × Char :=
  (entry.tsNs.toNat, entry.priceRaw.toNat, entry.quantity.toNat,
    Char.ofNat entry.aggressorSide.toNat)

def latOf (position : Percentile → ℕ → ℕ) (latency : Label → Option RollingLatency) :
    List (Chars × ℕ × ℕ × ℕ) :=
  latencyNames.filterMap fun name => (latency name.2).map fun samples =>
    let p := samples.percentiles position
    (name.1.toList, p.1.toNat, p.2.1.toNat, p.2.2.toNat)

def flowOf (s : Recording) : Flow where
  newCount := s.newCount.toNat
  cancelCount := s.cancelCount.toNat
  reduceCount := s.reduceCount.toNat
  tradeCount := s.tradeCount.toNat
  buyQty := s.buyQty.toNat
  sellQty := s.sellQty.toNat

def frameOf (position : Percentile → ℕ → ℕ) (s : Recording) : Frame where
  seq := s.snapshot.sequence.toNat
  ts := s.snapshot.tsNs.toNat
  bids := viewOf (sideOf s.snapshot true)
  asks := viewOf (sideOf s.snapshot false)
  flow := flowOf s
  lat := latOf position s.latency
  tape := (shownTape s.tape).map entryOf

theorem to_string_eq (v : UInt64) : to_string v = asciiText (Nat.toDigits 10 v.toNat) := rfl

theorem levels_text (levels : List BookSnapshotLevel) :
    appendJsonLevels levels = asciiText (levelsJson (levels.map levelOf)).render := by
  have hlevel : levelText = fun level =>
      asciiText (numbers [(levelOf level).1, (levelOf level).2.1, (levelOf level).2.2]).render := by
    funext level
    simp [levelText, levelOf, numbers, render_array, render_number, to_string_eq, ofString,
      asciiText]
  rw [appendJsonLevels, hlevel, levelsJson, render_array, asciiText_append, asciiText_append,
    asciiText_intercalate, List.map_map, List.map_map, List.map_map]
  rfl

/-- The side of an entry is a letter. -/
def Sided (entry : TapeEntry) : Prop :=
  entry.aggressorSide = ascii 'B' ∨ entry.aggressorSide = ascii 'S'

theorem tape_text {tape : List TapeEntry} (hsides : ∀ entry ∈ tape, Sided entry) :
    tape.map tapeText = (tape.map entryOf).map fun entry => asciiText (entryJson entry).render := by
  rw [List.map_map]
  refine List.map_congr_left fun entry hentry => ?_
  have hside : (quoted [Char.ofNat entry.aggressorSide.toNat]).map ascii =
      [ascii '"', entry.aggressorSide, ascii '"'] := by
    rcases hsides entry hentry with h | h
    · rw [h]
      rfl
    · rw [h]
      rfl
  simp [entryJson, entryOf, render_array, render_number, render_string, tapeText, hside,
    to_string_eq, ofString, asciiText]

theorem lat_text (position : Percentile → ℕ → ℕ) (latency : Label → Option RollingLatency) :
    latencyTexts position latency = (latOf position latency).map fun p =>
      asciiText (quoted p.1 ++ [':'] ++ (numbers [p.2.1, p.2.2.1, p.2.2.2]).render) := by
  have hname : ∀ name ∈ latencyNames, (quoted name.1.toList).map ascii =
      ascii '"' :: (name.1.toList.map ascii ++ [ascii '"']) := by
    decide +kernel
  rw [latencyTexts, latOf, List.map_filterMap]
  refine List.filterMap_congr fun name hmem => ?_
  cases latency name.2 with
  | none => rfl
  | some samples =>
    simp [latencyText, hname name hmem, numbers, render_array, render_number, to_string_eq,
      ofString, asciiText]

/-- The name of a member, behind another one. -/
def comma (name : String) : Chars := [','] ++ (quoted name.toList ++ [':'])

/-- The pieces of a line that do not vary. -/
theorem pieces :
    ofString "\x7b\"seq\":" = asciiText (['\x7b'] ++ (quoted "seq".toList ++ [':'])) ∧
    ofString ",\"ts\":" = asciiText (comma "ts") ∧
    ofString ",\"bb\":" = asciiText (comma "bb") ∧
    ofString ",\"ba\":" = asciiText (comma "ba") ∧
    ofString ",\"nb\":" = asciiText (comma "nb") ∧
    ofString ",\"na\":" = asciiText (comma "na") ∧
    ofString ",\"bids\":" = asciiText (comma "bids") ∧
    ofString ",\"asks\":" = asciiText (comma "asks") ∧
    ofString ",\"cancel\":" = asciiText (comma "cancel") ∧
    ofString ",\"reduce\":" = asciiText (comma "reduce") ∧
    ofString ",\"trades\":" = asciiText (comma "trades") ∧
    ofString ",\"buyQty\":" = asciiText (comma "buyQty") ∧
    ofString ",\"sellQty\":" = asciiText (comma "sellQty") ∧
    ofString ",\"flow\":\x7b\"new\":" =
      asciiText (comma "flow" ++ (['\x7b'] ++ (quoted "new".toList ++ [':']))) ∧
    ofString ",\"lat\":\x7b" = asciiText (comma "lat" ++ ['\x7b']) ∧
    ofString ",\"tape\":[" = asciiText (comma "tape" ++ ['[']) ∧
    ofString "\x7d" = asciiText ['\x7d'] ∧
    ofString "]\x7d\n" = asciiText ([']'] ++ (['\x7d'] ++ ['\n'])) := by
  decide +kernel

/-- The line of a frame is the text of what it tells. -/
theorem frameLine_json (position : Percentile → ℕ → ℕ) {s : Recording}
    (hsides : ∀ entry ∈ s.tape, Sided entry) :
    frameLine position s = asciiText ((frameOf position s).json.render ++ ['\n']) := by
  obtain ⟨hseq, hts, hbb, hba, hnb, hna, hbids, hasks, hcancel, hreduce, htrades, hbuy, hsell,
    hflow, hlat, htape, hclose, hend⟩ := pieces
  have hentries := tape_text fun entry (hentry : entry ∈ shownTape s.tape) =>
    hsides entry (List.mem_of_mem_drop hentry)
  have hsamples := lat_text position s.latency
  have hbidView : viewOf (sideOf s.snapshot true) = ⟨s.snapshot.bestBidRaw.toNat,
      s.snapshot.bidLevelCount.toNat, s.snapshot.bids.map levelOf⟩ := rfl
  have haskView : viewOf (sideOf s.snapshot false) = ⟨s.snapshot.bestAskRaw.toNat,
      s.snapshot.askLevelCount.toNat, s.snapshot.asks.map levelOf⟩ := rfl
  unfold frameLine
  simp only [hseq, hts, hbb, hba, hnb, hna, hbids, hasks, hcancel, hreduce, htrades, hbuy, hsell,
    hflow, hlat, htape, hclose, hend, comma, levels_text, hentries, hsamples, to_string_eq]
  simp only [Frame.json, Flow.json, render_object, List.map_cons, List.map_nil,
    List.intercalate_cons_cons, List.intercalate_singleton, render_number, render_array,
    List.map_map, List.append_assoc, frameOf, hbidView, haskView, flowOf, asciiText_append,
    asciiText_intercalate, Function.comp_def]

end Texts

end Leka.RecordedFrames
