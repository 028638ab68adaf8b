import Leka.RecordedRuns

/-!
The file of a recording, as a viewer reads it: one JSON value on each line, first what the viewer
sets up its axes with and then the frames. The label of the recording comes from the command
line, as bytes that the viewer decodes. In it the recorder escapes quotation marks and
backslashes, so the file reads back unless the label has a control character, and then not even
its first line does. The viewer has the numbers as binary64 ones.
-/

namespace Leka.RecordingFiles

open Procedures Orders OrderPools PriceLadders OrderBooks MatchingEngines Numerals LadderSizes
  BookRuns SyncedBooks RestingOrders MatchingRounds MatcherRefinement SeparateEngines
  MarketReadings MarketRefinement MarketRuns InterchangeReaders Doubles Utf8Texts JsonTexts
  SnapshotRecorders RecordedFrames RecordedRuns
open Markets hiding answers

section Headers

variable (setting : Setting) (pass : Pass)

/-- What a viewer needs before the first frame. -/
def metaJson : Json ℕ := .object [
  ("type".toList, .string "meta".toList),
  ("label".toList, .string (decode setting.shownLabel)),
  ("events".toList, .number (UInt64.ofNat pass.events.length).toNat),
  ("tick".toList, .number setting.tick.toNat),
  ("depth".toList, .number setting.depth.toNat),
  ("every".toList, .number (setting.every (UInt64.ofNat pass.events.length)).toNat),
  ("minPrice".toList, .number pass.range.minPriceRaw.toNat),
  ("maxPrice".toList, .number pass.range.maxPriceRaw.toNat)]

/-- The tokens of the header in front of the label. -/
def opening : List Token :=
  [.openObject, .string "type".toList, .colon, .string "meta".toList, .comma,
    .string "label".toList, .colon]

/-- The tokens of a number behind another member. -/
def numberTokens (name : String) (n : ℕ) : List Token :=
  [.comma, .string name.toList, .colon, .number n]

/-- The tokens of the header behind the label. -/
def closing : List Token :=
  let size := UInt64.ofNat pass.events.length
  numberTokens "events" size.toNat ++ numberTokens "tick" setting.tick.toNat ++
    numberTokens "depth" setting.depth.toNat ++
    numberTokens "every" (setting.every size).toNat ++
    numberTokens "minPrice" pass.range.minPriceRaw.toNat ++
    numberTokens "maxPrice" pass.range.maxPriceRaw.toNat ++ [.closeObject]

/-- The label with its escapes. -/
def escapedLabel (label : Text) : Text :=
  label.flatMap fun c => (if c = ascii '"' ∨ c = ascii '\\' then [ascii '\\'] else []) ++ [c]

/-- Escaping the bytes of a label is escaping its characters. -/
theorem decode_escapedLabel (label : Text) :
    decodeFrom .between (escapedLabel label) = escaped (decode label) := by
  have hspecial : ∀ {b : UInt8}, b.toNat < 128 → ((Char.ofNat b.toNat = '"' ∨
      Char.ofNat b.toNat = '\\') ↔ (b = ascii '"' ∨ b = ascii '\\')) :=
    fun hb => or_congr (ofNat_eq_iff hb (by decide)) (ofNat_eq_iff hb (by decide))
  refine decodeFrom_flatMap (fun b => by simp) (fun b hb => ?_) (fun b hb => ?_) (fun c hc => ?_)
    .between label
  · rw [if_congr (hspecial hb) rfl rfl]
    split
    · exact ⟨List.forall_mem_cons.mpr ⟨by decide, List.forall_mem_singleton.mpr hb⟩, rfl⟩
    · exact ⟨List.forall_mem_singleton.mpr hb, rfl⟩
  · rw [if_neg, List.nil_append]
    rintro (rfl | rfl)
    · exact absurd hb (by decide)
    · exact absurd hb (by decide)
  · rw [if_neg]
    rintro (rfl | rfl)
    · exact absurd hc (by decide)
    · exact absurd hc (by decide)

/-- The pieces of the header that do not vary. -/
theorem headerPieces :
    ofString "\x7b\"type\":\"meta\",\"label\":\"" =
      asciiText (opening.flatMap Token.text ++ ['"']) ∧
    ofString "\",\"events\":" = asciiText (['"'] ++ comma "events") ∧
    ofString ",\"tick\":" = asciiText (comma "tick") ∧
    ofString ",\"depth\":" = asciiText (comma "depth") ∧
    ofString ",\"every\":" = asciiText (comma "every") ∧
    ofString ",\"minPrice\":" = asciiText (comma "minPrice") ∧
    ofString ",\"maxPrice\":" = asciiText (comma "maxPrice") ∧
    ofString "\x7d\n" = asciiText (['\x7d'] ++ ['\n']) := by
  decide +kernel

/-- The header, as bytes around the label. -/
theorem headerLine_bytes : headerLine setting pass =
    asciiText (opening.flatMap Token.text ++ ['"']) ++ (escapedLabel setting.shownLabel ++
      asciiText (['"'] ++ ((closing setting pass).flatMap Token.text ++ ['\n']))) := by
  obtain ⟨hopening, hevents, htick, hdepth, hevery, hmin, hmax, hend⟩ := headerPieces
  unfold headerLine escapedLabel closing
  simp only [hopening, hevents, htick, hdepth, hevery, hmin, hmax, hend, comma, numberTokens,
    List.flatMap_append, List.flatMap_cons, List.flatMap_nil, Token.text, asciiText_append,
    List.append_assoc, List.append_nil, to_string_eq]

theorem tokens_meta : (metaJson setting pass).tokens =
    opening ++ .string (decode setting.shownLabel) :: closing setting pass := by
  simp only [metaJson, Json.tokens, memberTokens, moreMembers, opening, closing, numberTokens,
    List.cons_append, List.nil_append]

theorem render_meta : (metaJson setting pass).render =
    opening.flatMap Token.text ++ ['"'] ++ (escaped (decode setting.shownLabel) ++
      '"' :: (closing setting pass).flatMap Token.text) := by
  rw [Json.render, tokens_meta, List.flatMap_append, List.flatMap_cons, Token.text, quoted]
  simp only [List.append_assoc, List.cons_append, List.nil_append]

/-- The characters of all texts but the label. -/
def Plain (c : Char) : Prop := Printable c ∧ c.toNat < 128

instance : DecidablePred Plain := fun _ => inferInstanceAs (Decidable (_ ∧ _))

theorem plain_texts {tokens : List Token} (h : ∀ token ∈ tokens, token.All Plain) :
    AllChars Plain (tokens.flatMap Token.text) :=
  all_texts (p := Plain) (fun _ => structural_bounds) h

theorem plain_opening : ∀ token ∈ opening, token.All Plain := by
  have hnames : ∀ name ∈ ["type", "meta", "label"], AllChars Plain name.toList := by decide
  simp only [List.forall_mem_cons] at hnames
  simp only [opening, List.forall_mem_cons]
  exact ⟨trivial, hnames.1, trivial, hnames.2.1, trivial, hnames.2.2.1, trivial,
    fun _ hnone => absurd hnone List.not_mem_nil⟩

/-- The text in front of the label is plain, with the quotation mark that opens the label. -/
theorem plain_front : AllChars Plain (opening.flatMap Token.text ++ ['"']) :=
  List.forall_mem_append.mpr ⟨plain_texts plain_opening, List.forall_mem_singleton.mpr (by decide)⟩

theorem plain_closing : ∀ token ∈ closing setting pass, token.All Plain := by
  have hnumber : ∀ {name : String}, AllChars Plain name.toList → ∀ n,
      ∀ token ∈ numberTokens name n, token.All Plain := by
    intro name hname n
    simp only [numberTokens, List.forall_mem_cons]
    exact ⟨trivial, hname, trivial, trivial, fun _ hnone => absurd hnone List.not_mem_nil⟩
  simp only [closing, List.forall_mem_append, List.forall_mem_singleton]
  exact ⟨⟨⟨⟨⟨⟨hnumber (by decide) _, hnumber (by decide) _⟩, hnumber (by decide) _⟩,
    hnumber (by decide) _⟩, hnumber (by decide) _⟩, hnumber (by decide) _⟩, trivial⟩

/-- The header is the text of one value, whatever the label is. -/
theorem textOf_header (rest : Text) : textOf (headerLine setting pass ++ rest) =
    (metaJson setting pass).render ++ '\n' :: decode rest := by
  have hopening : ∀ c ∈ opening.flatMap Token.text ++ ['"'], c.toNat < 128 :=
    fun c hc => (plain_front c hc).2
  have hclosing : ∀ c ∈ (closing setting pass).flatMap Token.text ++ ['\n'], c.toNat < 128 :=
    List.forall_mem_append.mpr ⟨fun c hc => (plain_texts (plain_closing setting pass) c hc).2,
      List.forall_mem_singleton.mpr (by decide)⟩
  have hunmarked : textOf (headerLine setting pass ++ rest) =
      decode (headerLine setting pass ++ rest) := by
    rw [headerLine_bytes]
    exact @textOf_ascii (ascii '\x7b') (by decide) _
  have hlabel : decode (escapedLabel setting.shownLabel ++
      ascii '"' :: (asciiText ((closing setting pass).flatMap Token.text ++ ['\n']) ++ rest)) =
      escaped (decode setting.shownLabel) ++ '"' ::
        ((closing setting pass).flatMap Token.text ++ ['\n'] ++ decode rest) := by
    rw [decode, decodeFrom_append (by decide), decode_escapedLabel, decode_asciiText hclosing]
    rfl
  rw [hunmarked, headerLine_bytes, List.append_assoc, decode_asciiText hopening, render_meta,
    List.append_assoc, List.append_assoc, List.append_assoc]
  refine congrArg (opening.flatMap Token.text ++ ['"'] ++ ·) (hlabel.trans ?_)
  simp only [List.append_assoc, List.cons_append, List.nil_append]

end Headers

/-- The header and the frames of a file, as a viewer reads them. -/
def loadDataset (file : Text) : Option (Json Double × List (Json Double)) :=
  (readLines (textOf file)).bind fun lines => lines.head?.map fun first => (first, lines.tail)

section Loading

theorem plain_numbers (ns : List ℕ) : (numbers ns).All Plain :=
  all_array fun item hitem => by
    obtain ⟨n, -, rfl⟩ := List.mem_map.mp hitem
    exact all_number n

theorem plain_levels (levels : List (ℕ × ℕ × ℕ)) : (levelsJson levels).All Plain :=
  all_array fun item hitem => by
    obtain ⟨level, -, rfl⟩ := List.mem_map.mp hitem
    exact plain_numbers _

theorem plain_entry {entry : ℕ × ℕ × ℕ × Char} (h : Plain entry.2.2.2) :
    (entryJson entry).All Plain := by
  have hside : (Json.string [entry.2.2.2]).All Plain :=
    all_string (List.forall_mem_singleton.mpr h)
  refine all_array ?_
  simp [all_number, hside]

theorem plain_flow (flow : Flow) : flow.json.All Plain := by
  refine all_object (of_decide_eq_true rfl) ?_
  simp [all_number]

theorem plain_frame {frame : Frame} (hlat : ∀ p ∈ frame.lat, AllChars Plain p.1)
    (htape : ∀ entry ∈ frame.tape, Plain entry.2.2.2) : frame.json.All Plain := by
  have hsamples : (Json.object (frame.lat.map fun p =>
      (p.1, numbers [p.2.1, p.2.2.1, p.2.2.2]))).All Plain := by
    refine all_object (fun member hmember => ?_) fun member hmember => ?_
    · obtain ⟨p, hp, rfl⟩ := List.mem_map.mp hmember
      exact hlat p hp
    · obtain ⟨p, -, rfl⟩ := List.mem_map.mp hmember
      exact plain_numbers _
  have hentries : (Json.array (frame.tape.map entryJson)).All Plain := by
    refine all_array fun item hitem => ?_
    obtain ⟨entry, hentry, rfl⟩ := List.mem_map.mp hitem
    exact plain_entry (htape entry hentry)
  refine all_object (of_decide_eq_true rfl) ?_
  simp [all_number, plain_levels, plain_flow, hsamples, hentries]

theorem plain_frameAt (setting : Setting) (told since : List Answered) (last : Answered) :
    (frameAt setting told since last).json.All Plain := by
  refine plain_frame (fun p hp => ?_) fun entry hentry => ?_
  · obtain ⟨name, hname, hsome⟩ := List.mem_filterMap.mp hp
    have hplain : ∀ name ∈ latencyNames, AllChars Plain name.1.toList := by decide
    split at hsome
    · cases hsome
    · rw [← Option.some.inj hsome]
      exact hplain name hname
  · obtain ⟨a, -, hmem⟩ := List.mem_flatMap.mp (List.mem_of_mem_drop hentry)
    rw [Answered.entries] at hmem
    split at hmem
    · obtain ⟨trade, -, rfl⟩ := List.mem_map.mp hmem
      dsimp only
      rw [Answered.letter]
      split <;> decide
    · cases hmem

theorem plain_framesOf {setting : Setting} {every : ℕ} {told : List Answered} :
    ∀ frame ∈ framesOf setting every told, frame.json.All Plain := by
  intro frame hframe
  obtain ⟨a, -, hsome⟩ := List.mem_filterMap.mp hframe
  rw [frameBehind] at hsome
  split at hsome
  · cases hsome
  · rw [← Option.some.inj hsome]
    exact plain_frameAt setting _ _ _

theorem decode_frameLines {frames : List Frame} (h : ∀ frame ∈ frames, frame.json.All Plain) :
    decode (frameLines frames) = renderLines (frames.map Frame.json) := by
  have hbytes : frameLines frames = asciiText (renderLines (frames.map Frame.json)) := by
    rw [frameLines, renderLines, List.flatMap_map, asciiText, List.map_flatMap]
    rfl
  have hascii : ∀ c ∈ renderLines (frames.map Frame.json), c.toNat < 128 := by
    intro c hc
    obtain ⟨value, hvalue, hmem⟩ := List.mem_flatMap.mp hc
    obtain ⟨frame, hframe, rfl⟩ := List.mem_map.mp hvalue
    rcases List.mem_append.mp hmem with hmem | hmem
    · exact (plain_texts (h frame hframe) c hmem).2
    · rw [List.mem_singleton.mp hmem]
      decide
  have hall := decode_asciiText hascii []
  rw [List.append_nil] at hall
  rw [hbytes, hall]
  exact List.append_nil _

theorem printable_meta {setting : Setting} {pass : Pass}
    (h : AllChars Printable (decode setting.shownLabel)) :
    (metaJson setting pass).All Printable := by
  have htype : (Json.string ['m', 'e', 't', 'a']).All Printable := all_string (by decide)
  refine all_object (of_decide_eq_true rfl) ?_
  simp [all_number, htype, all_string h]

/-- A file with a printable label reads back. -/
theorem loads {setting : Setting} {pass : Pass}
    (h : AllChars Printable (decode setting.shownLabel)) {frames : List Frame}
    (hframes : ∀ frame ∈ frames, frame.json.All Plain) :
    loadDataset (headerLine setting pass ++ frameLines frames) =
      some ((metaJson setting pass).map nearest,
        frames.map fun frame => frame.json.map nearest) := by
  have htext : textOf (headerLine setting pass ++ frameLines frames) =
      renderLines (metaJson setting pass :: frames.map Frame.json) := by
    rw [textOf_header, decode_frameLines hframes, renderLines, renderLines, List.flatMap_cons,
      List.append_assoc]
    rfl
  rw [loadDataset, htext, readLines_render]
  · rw [List.map_cons, List.map_map]
    rfl
  · rw [List.forall_mem_cons]
    refine ⟨printable_meta h, fun value hvalue => ?_⟩
    obtain ⟨frame, hframe, rfl⟩ := List.mem_map.mp hvalue
    exact fun token htoken => (hframes frame hframe token htoken).mono fun _ hplain => hplain.1

/-- A file whose label has a control character does not, whatever stands behind the label. -/
theorem loads_none {setting : Setting} {pass : Pass}
    (h : ¬ AllChars Printable (decode setting.shownLabel)) (rest : Text) :
    loadDataset (headerLine setting pass ++ rest) = none := by
  have hopening : ∀ token ∈ opening, token.All Printable :=
    fun token htoken => (plain_opening token htoken).mono fun _ hplain => hplain.1
  have hapart : opening.IsChain Apart := by
    simp [opening, Apart, Token.IsNumber]
  have hprintable : AllChars Printable (opening.flatMap Token.text ++ ['"']) :=
    fun c hc => (plain_front c hc).1
  have hfront : ∀ c ∈ opening.flatMap Token.text ++ ['"'], decide (c ≠ '\n') = true :=
    fun c hc => decide_eq_true fun hbreak => newline_notMem hprintable (hbreak ▸ hc)
  have hfirst : (textOf (headerLine setting pass ++ rest)).takeWhile (fun c => c ≠ '\n') =
      opening.flatMap Token.text ++ '"' :: (escaped (decode setting.shownLabel) ++ '"' ::
        ((closing setting pass).flatMap Token.text ++ '\n' :: decode rest)).takeWhile
          fun c => c ≠ '\n' := by
    have hsplit : textOf (headerLine setting pass ++ rest) =
        (opening.flatMap Token.text ++ ['"']) ++ (escaped (decode setting.shownLabel) ++
          '"' :: ((closing setting pass).flatMap Token.text ++ '\n' :: decode rest)) := by
      rw [textOf_header, render_meta]
      simp only [List.append_assoc, List.cons_append, List.nil_append]
    rw [hsplit, List.takeWhile_append_of_pos hfront, List.append_assoc, List.singleton_append]
  have hunread : readLines (textOf (headerLine setting pass ++ rest)) = none := by
    refine readLines_first ?_ ?_
    · rw [hfirst]
      exact List.append_ne_nil_of_right_ne_nil _ (List.cons_ne_nil _ _)
    · rw [hfirst, JsonTexts.read, read_quote hopening hapart (lex_line h _)]
      rfl
  rw [loadDataset, hunread, Option.bind_none]

end Loading

section Opening

variable {setting : Setting} {pass : Pass} {book : OrderBook}

/-- The market that a file is played on. -/
def openMarket (setting : Setting) (pass : Pass) : Market :=
  let size := ladderSize setting.tick (setting.scale pass.range.span) pass.range
  newMarket size.ladderMin setting.tick size.levelCount setting.currentSequence

theorem openBook_market (hopen : openBook setting pass = (.returns (), some book)) :
    Sound setting.hash book ∧
      marketOf ⟨setting.currentSequence, book, []⟩ = openMarket setting pass := by
  unfold openBook at hopen
  generalize hsize : ladderSize setting.tick (setting.scale pass.range.span) pass.range = size
    at hopen
  dsimp only at hopen
  cases hmake : OrderBook.make setting.memory size.ladderMin setting.tick size.levelCount with
  | error e =>
    rw [hmake] at hopen
    cases hopen
  | ok made =>
    rw [hmake] at hopen
    obtain ⟨hreturns, hbook⟩ := Prod.mk.inj hopen
    have hprepare : Tool.snapshot_recorder.prepare setting.hash setting.host pass.events made =
        (.returns (), book) := Prod.ext hreturns (Option.some.inj hbook)
    rw [openMarket, hsize]
    exact marketOf_prepared hmake .snapshot_recorder setting.host pass.events hprepare
      setting.currentSequence

end Opening

section Files

variable {setting : Setting} {text : Text} {book : OrderBook}

def told (setting : Setting) (pass : Pass) : List Answered :=
  answered pass.events (openMarket setting pass)

/-- The frames of a file: behind every so many events, and behind the last one. -/
def shownFrames (setting : Setting) (pass : Pass) : List Frame :=
  framesOf setting (setting.every (UInt64.ofNat pass.events.length)).toNat (told setting pass)

/-- What a recording of a file leaves behind. -/
structure Recorded (setting : Setting) (pass : Pass) (s : Recording) : Prop where
  errorCount : s.errorCount = UInt64.ofNat ((told setting pass).map Answered.errorCount).sum
  frames : s.frames = UInt64.ofNat (shownFrames setting pass).length
  loads : AllChars Printable (decode setting.shownLabel) → loadDataset s.written =
    some ((metaJson setting pass).map nearest,
      (shownFrames setting pass).map fun frame => frame.json.map nearest)
  unreadable : ¬ AllChars Printable (decode setting.shownLabel) → loadDataset s.written = none

theorem length_answered (events : List ParsedEvent) (market : Market) :
    (answered events market).length = events.length := by
  induction events generalizing market with
  | nil => rfl
  | cons e events ih => rw [answered, List.length_cons, List.length_cons, ih]

/-- When no host refuses memory, a recording comes to its end, and its file reads back as the
frames of the market that the events make, exactly when the label has no control character. -/
theorem recording_loads (hpriced : (parseAll text).range.minPriceRaw ≠ uint64Max)
    (hopen : openBook setting (parseAll text) = (.returns (), some book))
    (hmemory : ∀ response ∈ alone setting.hash (sentFrom setting.hosts 0 (parseAll text).events)
      ⟨setting.currentSequence, book, []⟩, ¬ RefusesMemory response.outcome) :
    ∃ s, snapshotRecorder setting text = .recorded (.returns ()) s ∧
      Recorded setting (parseAll text) s := by
  obtain ⟨hs, hmarket⟩ := openBook_market hopen
  generalize hpass : parseAll text = pass at hpriced hopen hmemory hmarket ⊢
  have hwhole : told setting pass = [] ++ answered pass.events
      (marketOf ⟨setting.currentSequence, book, []⟩) := by
    rw [hmarket]
    rfl
  obtain ⟨s, hrun, herrors, frames, hframes, hcount, hwritten⟩ :=
    @recordEvents_tells setting [] [] _ (setting.every (UInt64.ofNat pass.events.length)).toNat _
      pass.events (@Tells.initial setting ⟨setting.currentSequence, book, []⟩
        (headerLine setting pass)) (fun _ => List.drop_nil.symm) hs hwhole hmemory
  have hshown : frames = shownFrames setting pass := by
    rw [← hframes, hmarket]
    rfl
  have hlength : (told setting pass).length = pass.events.length := length_answered _ _
  rw [hlength] at hrun
  rw [hshown] at hcount hwritten
  have hempty : ∀ n : UInt64, 0 + n = n := fun n => UInt64.zero_add n
  refine ⟨s, ?_, herrors, hcount.trans (hempty _), fun hlabel => ?_, fun hlabel => ?_⟩
  · rw [snapshotRecorder, hpass, if_neg hpriced, hopen]
    exact congrArg (fun result => Run.recorded result.1 result.2) hrun
  · rw [hwritten]
    exact loads hlabel plain_framesOf
  · rw [hwritten]
    exact loads_none hlabel _

/-- An offer, a bid that meets it, a bid that rests and is cancelled, and one of no quantity. -/
def fiveRows : Text :=
  ofString "seq,ts_ns,event,order_id,side,type,price,quantity\n0,5,NEW,1,SELL,LIMIT,100,5\n" ++
    ofString "1,6,NEW,2,BUY,LIMIT,100,3\n2,7,NEW,3,BUY,LIMIT,99,4\n3,8,CANCEL,3,,,,\n" ++
    ofString "4,9,NEW,4,BUY,LIMIT,99,0\n"

/-- A frame behind every third event; the label has a letter of two bytes and a quotation mark. -/
def thirds : Setting where
  hash := id
  host := grantingHost
  hosts _ := grantingHost
  input := ofString "rows.csv"
  label := "é\" rows".toList.flatMap String.utf8EncodeChar
  snapshotEvery := 3
  depth := 2
  tick := 1
  scale _ := 0
  position _ size := size - 1
  elapsed index := UInt64.ofNat (index + 7)
  memory _ := { orderId := 0, price := 0, originalQuantity := 0, remainingQuantity := 0
                timestamp := 0, orderSide := .buy, orderType := .limit, sequenceNumber := 0 }
  currentSequence := 0

theorem recording_loads_fiveRows : ∃ (s : Recording) (header : Json Double)
    (frames : List Frame),
    snapshotRecorder thirds fiveRows = .recorded (.returns ()) s ∧ s.errorCount = 1 ∧
      loadDataset s.written = some (header, frames.map fun frame => frame.json.map nearest) ∧
      header.map Double.number = (metaJson thirds (parseAll fiveRows)).map some ∧
      decode thirds.shownLabel = "é\" rows".toList ∧
      frames.map Frame.seq = [3, 5] ∧
      frames.map Frame.bids = [⟨99, 1, [(99, 4, 1)]⟩, ⟨0, 0, []⟩] ∧
      frames.map Frame.asks = [⟨100, 1, [(100, 2, 1)]⟩, ⟨100, 1, [(100, 2, 1)]⟩] ∧
      frames.map Frame.tape = [[(6, 100, 3, 'B')], []] := by
  have hcheck : (openBook thirds (parseAll fiveRows)).1 = .returns () ∧
      ((openBook thirds (parseAll fiveRows)).2.map fun book => decide
        (∀ response ∈ alone id (sentFrom thirds.hosts 0 (parseAll fiveRows).events) ⟨0, book, []⟩,
          ¬ RefusesMemory response.outcome)) = some true := by
    decide +kernel
  have hframes : (shownFrames thirds (parseAll fiveRows)).map Frame.seq = [3, 5] ∧
      (shownFrames thirds (parseAll fiveRows)).map Frame.bids =
        [⟨99, 1, [(99, 4, 1)]⟩, ⟨0, 0, []⟩] ∧
      (shownFrames thirds (parseAll fiveRows)).map Frame.asks =
        [⟨100, 1, [(100, 2, 1)]⟩, ⟨100, 1, [(100, 2, 1)]⟩] ∧
      (shownFrames thirds (parseAll fiveRows)).map Frame.tape =
        [[(6, 100, 3, 'B')], []] := by
    decide +kernel
  have hsmall : ∀ token ∈ (metaJson thirds (parseAll fiveRows)).tokens,
      token.Below (2 ^ 53) := by
    decide +kernel
  have herrors : ((told thirds (parseAll fiveRows)).map Answered.errorCount).sum = 1 := by
    decide +kernel
  have hpriced : (parseAll fiveRows).range.minPriceRaw ≠ uint64Max := by decide +kernel
  have hchars : decode thirds.shownLabel = "é\" rows".toList := decode_encode _
  have hlabel : AllChars Printable (decode thirds.shownLabel) := by
    rw [hchars]
    decide
  obtain ⟨hreturns, hbook⟩ := hcheck
  obtain ⟨book, hopen, hmemory⟩ := Option.map_eq_some_iff.mp hbook
  obtain ⟨s, hrun, hrecorded⟩ := @recording_loads thirds fiveRows book hpriced
    (Prod.ext hreturns hopen) (of_decide_eq_true hmemory)
  refine ⟨s, _, _, hrun, ?_, hrecorded.loads hlabel, map_nearest hsmall, hchars, hframes⟩
  rw [hrecorded.errorCount, herrors]
  rfl

end Files

end Leka.RecordingFiles
