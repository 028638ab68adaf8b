import Leka.CsvRoundTrips
import Leka.SymbolFilters
import Leka.VenueReplays

/-!
From the feed of a venue to the book. The converter keeps the messages that are asked for, its
file shows what each of them holds, and the replay of a session reads nothing else of a row. So
the book displays what the venue displays, whatever the other messages of the feed tell.
-/

namespace Leka.VenueFeeds

open Procedures Orders Sweeps Numerals ByteReads ItchDecoders ItchLayouts RowTexts CsvReaders
  CsvRoundTrips ItchReplays ReplayTraces ExecutionGroups ReplayLadders MarketReadings
  MarketRefinement MarketRuns Venues VenueSessions VenueReplays
open ItchRounds hiding rowOf
open SymbolFilters hiding rowsOf

section Alike

/-- The replay reads the same of both rows. -/
structure Alike (f f' : Row) : Prop where
  msg : msgOf f = msgOf f'
  ts : tsOf f = tsOf f'
  timestamp : timestampOf f = timestampOf f'
  ref : refOf f = refOf f'
  newRef : newRefOf f = newRefOf f'
  shares : sharesOf f = sharesOf f'
  price : priceOf f = priceOf f'
  side : field f .Side = field f' .Side

variable {f f' : Row} {rows rows' : List Row} {venue venue' : Venue}

theorem Alike.listingAt (h : Alike f f') (ref : OrderId) : listingAt ref f = listingAt ref f' := by
  rw [VenueSessions.listingAt, VenueSessions.listingAt, h.price, h.shares]

theorem Alike.joins (h : Alike f f') {d : Bool} {ref : OrderId} (hjoins : Joins venue d ref f) :
    Joins venue d ref f' where
  ref_ne := hjoins.ref_ne
  ref_lt := hjoins.ref_lt
  fresh := hjoins.fresh
  shares := h.shares ▸ hjoins.shares
  price := h.price ▸ hjoins.price
  uncrossed := h.price ▸ hjoins.uncrossed

theorem Alike.tells (h : Alike f f') (htells : Tells venue f venue') : Tells venue f' venue' := by
  cases htells with
  | adds hmsg hside hjoins =>
    rw [h.listingAt, h.ref]
    exact .adds (h.msg ▸ hmsg) (h.side ▸ hside) (h.ref ▸ h.joins hjoins)
  | deletes hmsg hx hid =>
    rw [h.ref]
    exact .deletes (h.msg ▸ hmsg) hx (h.ref ▸ hid)
  | reduces hmsg hx hid hlt =>
    rw [h.ref, h.shares]
    exact .reduces (h.msg ▸ hmsg) hx (h.ref ▸ hid) (h.shares ▸ hlt)
  | replaces hmsg hx hid hjoins =>
    rw [h.listingAt, h.ref, h.newRef]
    exact .replaces (h.msg ▸ hmsg) hx (h.ref ▸ hid) (h.ref ▸ h.newRef ▸ h.joins hjoins)
  | other hmsg => exact .other (h.msg ▸ hmsg)

theorem Alike.reports (h : Alike f f') {use : Listing × ℕ} (hreports : Reports f use) :
    Reports f' use where
  msg := h.msg ▸ h.price ▸ hreports.msg
  ref := h.ref ▸ hreports.ref
  shares := h.shares ▸ hreports.shares

theorem told_alike (htold : Told venue rows venue') (h : List.Forall₂ Alike rows rows') :
    Told venue rows' venue' := by
  induction htold generalizing rows' with
  | nil =>
    cases h
    exact .nil
  | cons hfirst _ ih =>
    cases h with
    | cons hrow hrows => exact .cons (hrow.tells hfirst) (ih hrows)

theorem reports_alike {uses : List (Listing × ℕ)} (hreports : List.Forall₂ Reports rows uses)
    (h : List.Forall₂ Alike rows rows') : List.Forall₂ Reports rows' uses := by
  induction hreports generalizing rows' with
  | nil =>
    cases h
    exact .nil
  | cons hfirst _ ih =>
    cases h with
    | cons hrow hrows => exact .cons (hrow.reports hfirst) (ih hrows)

/-- Moments of one time, row by row alike. -/
structure MomentAlike (m m' : Moment) : Prop where
  ts : m.ts = m'.ts
  executed : List.Forall₂ Alike m.executed m'.executed
  quotes : List.Forall₂ Alike m.quotes m'.quotes

theorem MomentAlike.happens {m m' : Moment} (h : MomentAlike m m')
    (hhappens : Happens venue m venue') : Happens venue m' venue' := by
  obtain ⟨hexecuted, huses, hquotes, htime⟩ := hhappens
  refine .intro (reports_alike hexecuted h.executed) huses (told_alike hquotes h.quotes) ?_
  intro f' hf'
  have hrows : List.Forall₂ Alike m.rows m'.rows := List.rel_append h.executed h.quotes
  obtain ⟨i, hi, rfl⟩ := List.mem_iff_getElem.mp hf'
  have hi' : i < m.rows.length := hrows.length_eq ▸ hi
  have halike := hrows.get hi' hi
  obtain ⟨hts, htimestamp⟩ := htime _ (List.getElem_mem hi')
  exact ⟨halike.ts ▸ hts.trans h.ts, halike.timestamp ▸ htimestamp⟩

theorem session_alike {moments moments' : List Moment} (hsession : Session venue moments venue')
    (h : List.Forall₂ MomentAlike moments moments') : Session venue moments' venue' := by
  induction hsession generalizing moments' with
  | nil =>
    cases h
    exact .nil
  | cons hfirst _ ih =>
    cases h with
    | cons hmoment hmoments => exact .cons (hmoment.happens hfirst) (ih hmoments)

theorem rows_alike {moments moments' : List Moment}
    (h : List.Forall₂ MomentAlike moments moments') :
    List.Forall₂ Alike (rowsOf moments) (rowsOf moments') :=
  List.rel_flatMap h fun _ _ hmoment => List.rel_append hmoment.executed hmoment.quotes

theorem moments_alike {moments : List Moment} (h : List.Forall₂ Alike (rowsOf moments) rows') :
    ∃ moments', rowsOf moments' = rows' ∧ List.Forall₂ MomentAlike moments moments' := by
  induction moments generalizing rows' with
  | nil =>
    cases h
    exact ⟨[], rfl, .nil⟩
  | cons m moments ih =>
    have hsplit : List.Forall₂ (flip Alike) rows' (m.rows ++ rowsOf moments) := h.flip
    have hfirst : List.Forall₂ (flip Alike) (rows'.take m.rows.length) m.rows :=
      List.forall₂_take_append _ _ _ hsplit
    have hexecuted := List.forall₂_take_append _ m.executed m.quotes hfirst
    have hquotes := List.forall₂_drop_append _ m.executed m.quotes hfirst
    obtain ⟨moments', hrows', hmoments⟩ := ih (List.forall₂_drop_append _ _ _ hsplit).flip
    refine ⟨⟨m.ts, (rows'.take m.rows.length).take m.executed.length,
      (rows'.take m.rows.length).drop m.executed.length⟩ :: moments', ?_,
      .cons ⟨rfl, hexecuted.flip, hquotes.flip⟩ hmoments⟩
    change Moment.rows _ ++ rowsOf moments' = rows'
    rw [hrows', Moment.rows, List.take_append_drop, List.take_append_drop]

end Alike

section Shown

variable {epochBase : UInt64} {m : ByteView} {f f' : Row}

/-- The row shows what the message holds: its type and its time, the numbers, the price and the
side in the fields of its type, and 0 or nothing for a field that the type does not have. -/
structure Shows (epochBase : UInt64) (m : ByteView) (f : Row) : Prop where
  msg : msgOf f = some (typeOf m)
  ts : (tsOf f).toNat = bigEndian (m.field TimestampOffset 6)
  timestamp : timestampOf f =
    if epochBase = 0 ∨ epochBase + tsOf f = 0 then tsOf f else epochBase + tsOf f
  ref : (refOf f).toNat = numberIn m (fieldOf (typeOf m) .OrderRef)
  newRef : (newRefOf f).toNat = numberIn m (fieldOf (typeOf m) .NewOrderRef)
  shares : (sharesOf f).toNat = numberIn m (fieldOf (typeOf m) .Shares)
  price : (priceOf f).toNat = (priceIn m (fieldOf (typeOf m) .PriceCol)).getD 0
  side : field f .Side = (fieldOf (typeOf m) .Side).write m []

instance : Decidable (Shows epochBase m f) :=
  decidable_of_iff (_ ∧ _ ∧ _ ∧ _ ∧ _ ∧ _ ∧ _ ∧ _)
    ⟨fun ⟨hmsg, hts, htimestamp, href, hnewRef, hshares, hprice, hside⟩ =>
      ⟨hmsg, hts, htimestamp, href, hnewRef, hshares, hprice, hside⟩,
    fun h => ⟨h.msg, h.ts, h.timestamp, h.ref, h.newRef, h.shares, h.price, h.side⟩⟩

theorem Shows.alike (h : Shows epochBase m f) (h' : Shows epochBase m f') : Alike f f' := by
  have hts : tsOf f = tsOf f' := UInt64.toNat_inj.mp (h.ts.trans h'.ts.symm)
  exact {
    msg := h.msg.trans h'.msg.symm
    ts := hts
    timestamp := by rw [h.timestamp, h'.timestamp, hts]
    ref := UInt64.toNat_inj.mp (h.ref.trans h'.ref.symm)
    newRef := UInt64.toNat_inj.mp (h.newRef.trans h'.newRef.symm)
    shares := UInt64.toNat_inj.mp (h.shares.trans h'.shares.symm)
    price := UInt64.toNat_inj.mp (h.price.trans h'.price.symm)
    side := h.side.trans h'.side.symm }

theorem Shows.ts_lt (h : Shows epochBase m f) : (tsOf f).toNat < 2 ^ 63 := by
  have hlt := bigEndian_lt (m.field TimestampOffset 6)
  rw [length_field] at hlt
  rw [h.ts]
  omega

theorem parseU64_appendUInt (v : UInt64) : parseU64 (appendUInt v) = v :=
  UInt64.toNat_inj.mp (parseU64_decimal v.toNat_lt)

theorem layout_side {type : UInt8} (h : type ∈ emitted) :
    fieldOf type .Side = .blank ∨ ∃ offset, fieldOf type .Side = .letter offset := by
  have hall : ∀ type ∈ emitted, fieldOf type .Side = .blank ∨
      fieldOf type .Side = .letter (fieldOf type .Side).offset := by
    decide +kernel
  rcases hall type h with hblank | hletter
  · exact Or.inl hblank
  · exact Or.inr ⟨_, hletter⟩

/-- The cells of a line that reads back show the message. -/
theorem shows_of_readsBack {visit : Visit} {line : Text} (h : typeOf visit.frame ∈ emitted)
    (hline : ReadsBack epochBase visit line) : Shows epochBase visit.frame (splitRow line) where
  msg := by
    have hcell : (ItchRounds.rowOf epochBase visit.frame visit.before).getD Column.Msg.index [] =
        [typeOf visit.frame] := row_msg h
    rw [msgOf, field, hline.columns, hcell]
  ts := hline.timestamp
  timestamp := by
    have hts : parseU64 (cell line .TsNs) = (rd48 visit.frame TimestampOffset).value :=
      UInt64.toNat_inj.mp (hline.timestamp.trans (rd48_value visit.frame TimestampOffset).symm)
    have hepoch : cell line .EpochNs = if epochBase ≠ 0 then
        appendUInt (epochBase + (rd48 visit.frame TimestampOffset).value) else [] := by
      rw [cell, hline.columns, rowOf_eq epochBase h]
      rfl
    change (if parseU64 (cell line .EpochNs) ≠ 0 then parseU64 (cell line .EpochNs)
      else parseU64 (cell line .TsNs)) = if epochBase = 0 ∨
        epochBase + parseU64 (cell line .TsNs) = 0 then parseU64 (cell line .TsNs)
          else epochBase + parseU64 (cell line .TsNs)
    rw [hts, hepoch]
    by_cases hbase : epochBase = 0
    · rw [if_neg (not_not_intro hbase), if_neg (show ¬ parseU64 [] ≠ 0 from not_not_intro rfl),
        if_pos (Or.inl hbase)]
    · rw [if_pos hbase, parseU64_appendUInt]
      simp [hbase]
  ref := hline.numbers .OrderRef (by decide)
  newRef := hline.numbers .NewOrderRef (by decide)
  shares := hline.numbers .Shares (by decide)
  price := by
    have hprice := hline.price
    change ((parsePriceRaw (cell line .PriceCol)).getD 0).toNat = _
    rw [← hprice]
    cases parsePriceRaw (cell line .PriceCol) with
    | none => rfl
    | some price => rfl
  side := by
    change cell line .Side = _
    rw [cell_field visit.frame h hline.columns (by decide)]
    rcases layout_side h with hfield | ⟨offset, hfield⟩
    · rw [hfield]
      rfl
    · rw [hfield]
      rfl

end Shown

section Asked

variable {options : Options} {epochBase : UInt64} {input : ByteView}
  {messages past front back : List ByteView} {m : ByteView} {d : Decoder}

/-- With symbols asked for, the message is a system event, or its locate code is that of such a
symbol. -/
def OfSymbols (options : Options) (messages : List ByteView) (m : ByteView) : Prop :=
  options.symbols = [] ∨ isOneOf (typeOf m) "S" = true ∨
    ∃ r ∈ messages, isDirectory r = true ∧ locateOf r = locateOf m ∧ symbolOf r ∈ options.symbols

instance : DecidablePred (OfSymbols options messages) := fun m =>
  inferInstanceAs (Decidable (options.symbols = [] ∨ isOneOf (typeOf m) "S" = true ∨
    ∃ r ∈ messages, isDirectory r = true ∧ locateOf r = locateOf m ∧ symbolOf r ∈ options.symbols))

/-- The message is one of those that the options ask for. -/
def Asked (options : Options) (messages : List ByteView) (m : ByteView) : Prop :=
  typeOf m ∈ emitted ∧ (isOneOf (typeOf m) "SH" = true → options.system = true) ∧
    OfSymbols options messages m

instance : DecidablePred (Asked options messages) := fun m =>
  inferInstanceAs (Decidable (typeOf m ∈ emitted ∧
    (isOneOf (typeOf m) "SH" = true → options.system = true) ∧ OfSymbols options messages m))

theorem keeps_iff (hdirected : options.symbols ≠ [] → Directed messages)
    (hsplit : messages = front ++ m :: back) (hd : options.symbols ≠ [] → Learnt options front d)
    (hemitted : typeOf m ∈ emitted) :
    keeps options d (typeOf m) (locateOf m) = true ↔ OfSymbols options messages m := by
  unfold OfSymbols
  by_cases hsymbols : options.symbols = []
  · simp [keeps, filtering, hsymbols]
  have hfilter : filtering options = true := by
    simpa [filtering, List.isEmpty_iff] using hsymbols
  have hframes := hdirected hsymbols
  cases hevent : isOneOf (typeOf m) "S" with
  | true => simp [keeps, hevent]
  | false =>
    obtain ⟨r, hr, hdirectory, hlocate⟩ := hframes.listed front m back hsplit hemitted hevent
    have hfront : front ⊆ messages := by simp [hsplit]
    have hrecord := directory_of_mem hframes hfront hr hdirectory
    rw [hlocate] at hrecord
    simp only [keeps, hfilter, hevent, Bool.not_false, Bool.and_true, Bool.not_true,
      Bool.false_or, (hd hsymbols).kept hfilter, hrecord, Option.map_some, Option.getD_some,
      List.contains_iff_mem, hsymbols, false_or, Bool.false_eq_true]
    constructor
    · exact fun h => ⟨r, hfront hr, hdirectory, hlocate, h⟩
    · rintro ⟨r', hr', hdirectory', hlocate', h⟩
      rwa [hframes.named r (hfront hr) r' hr' hdirectory hdirectory' (hlocate.trans hlocate'.symm)]

/-- The converter keeps the messages that are asked for. -/
theorem emits_iff_asked (hdirected : options.symbols ≠ [] → Directed messages)
    (hsplit : messages = front ++ m :: back) (hd : options.symbols ≠ [] → Learnt options front d) :
    emits options m d = true ↔ Asked options messages m := by
  have hnamed : messageName (typeOf m) ≠ "OTHER" ↔ typeOf m ∈ emitted :=
    ⟨mem_emitted, fun h => (emitted_named h).1⟩
  have hsystem : (isOneOf (typeOf m) "SH" && !options.system) = false ↔
      (isOneOf (typeOf m) "SH" = true → options.system = true) := by
    cases isOneOf (typeOf m) "SH" <;> cases options.system <;> simp
  rw [emits_iff, hnamed, hsystem]
  by_cases hemitted : typeOf m ∈ emitted
  · have hother : isOneOf (typeOf m) "R" = false := (emitted_named hemitted).2
    simp [Asked, hemitted, hother, keeps_iff hdirected hsplit hd hemitted]
  · simp [Asked, hemitted]

/-- What the decoder has learnt at a visit is what the messages in front of it tell. -/
theorem rounds_learnt (hframes : Directed messages) {offset : ℕ} {result : Result}
    (h : Rounds options epochBase input offset d result) (hpast : Learnt options past d)
    (hsplit : messages = past ++ result.visits.map (·.frame)) {visits rest : List Visit}
    {visit : Visit} (hvisits : result.visits = visits ++ visit :: rest) :
    Learnt options (past ++ visits.map (·.frame)) visit.before := by
  induction h generalizing past visits with
  | exit => simp at hvisits
  | @limit offset length d after hnext hvalue =>
    cases visits with
    | nil =>
      obtain ⟨rfl, -⟩ := List.cons.inj hvisits
      simpa [visitAt] using hpast
    | cons first visits => simp at hvisits
  | @round offset length d after result hnext hvalue _ ih =>
    cases visits with
    | nil =>
      obtain ⟨rfl, -⟩ := List.cons.inj hvisits
      simpa [visitAt] using hpast
    | cons first visits =>
      obtain ⟨rfl, hvisits'⟩ := List.cons.inj hvisits
      have hsplit' : messages = past ++ [input.subspan (offset + FrameLengthBytes) length] ++
          result.visits.map Visit.frame := by
        rw [hsplit, List.append_assoc]
        rfl
      have hstep := hpast.handle epochBase hframes
        (hsplit' ▸ List.subset_append_left _ (result.visits.map Visit.frame))
      have hafter := congrArg Prod.snd hvalue
      change (handle _ epochBase (input.subspan _ length) d).value.2 = after at hafter
      rw [hafter] at hstep
      have hrest := ih hstep hsplit' hvisits'
      rw [List.append_assoc] at hrest
      exact hrest

/-- The messages that get a row are those asked for. -/
theorem asked_frames (hlimit : options.limit = 0)
    (hdirected : options.symbols ≠ [] → Directed (frames input)) {result : Result}
    (h : Rounds options epochBase input 0 { buffer := header } result) :
    (emittedVisits options result.visits).map (·.frame) =
      (frames input).filter fun m => Asked options (frames input) m := by
  have hframes : frames input = [] ++ result.visits.map (·.frame) :=
    (visited_frames hlimit h (by omega)).symm
  have hasked : ∀ visit ∈ result.visits, emits options visit.frame visit.before =
      decide (Asked options (frames input) visit.frame) := by
    intro visit hmem
    obtain ⟨visits, rest, hvisits⟩ := List.append_of_mem hmem
    have hsplit : frames input =
        visits.map (·.frame) ++ visit.frame :: rest.map (·.frame) := by
      rw [hframes, hvisits, List.nil_append, List.map_append]
      rfl
    rw [Bool.eq_iff_iff, decide_eq_true_iff]
    exact emits_iff_asked hdirected hsplit fun hsymbols =>
      rounds_learnt (hdirected hsymbols) h (learnt_start _) hframes hvisits
  rw [emittedVisits, List.filter_congr hasked, hframes, List.nil_append, List.filter_map]
  rfl

end Asked

section Feeds

variable {options : Options} {epochBase : UInt64} {input : ByteView}

theorem alike_of_shows {messages : List ByteView} {rows rows' : List Row}
    (h : List.Forall₂ (Shows epochBase) messages rows)
    (h' : List.Forall₂ (Shows epochBase) messages rows') : List.Forall₂ Alike rows rows' := by
  induction h generalizing rows' with
  | nil =>
    cases h'
    exact .nil
  | cons hrow _ ih =>
    cases h' with
    | cons hrow' hrows' => exact .cons (hrow.alike hrow') (ih hrows')

/-- The rows of the converter's file show the messages asked for. -/
theorem csv_shows (epochBase : UInt64) (hlimit : options.limit = 0)
    (hclean : ∀ m ∈ frames input, WellFormed m)
    (hdirected : options.symbols ≠ [] → Directed (frames input)) :
    ∃ result, decode options epochBase input = some result ∧
      List.Forall₂ (Shows epochBase)
        ((frames input).filter fun m => Asked options (frames input) m)
        (dataRows result.csv) := by
  obtain ⟨result, hdecode, hrounds⟩ := decode_rounds options epochBase input
  have hframes : result.visits.map Visit.frame = frames input :=
    visited_frames hlimit hrounds (by omega)
  have hvisits : ∀ visit ∈ result.visits, WellFormed visit.frame := fun visit hmem =>
    hclean _ (hframes ▸ List.mem_map_of_mem hmem)
  obtain ⟨hlines, hrows⟩ := rounds_lines options epochBase hrounds hvisits
  refine ⟨result, hdecode, ?_⟩
  rw [← asked_frames hlimit hdirected hrounds, dataRows, hlines, List.drop_one, List.tail_cons,
    linesOf, List.map_map, List.forall₂_map_left_iff, List.forall₂_map_right_iff, List.forall₂_same]
  rw [linesOf, List.forall₂_map_right_iff, List.forall₂_same] at hrows
  intro visit hmem
  have hemits := (List.mem_filter.mp hmem).2
  exact shows_of_readsBack (mem_emitted ((emits_iff options _ _).mp hemits).2.2.2)
    (hrows visit hmem)

/-- What the replay of a file rests on: a table that is walked whole, a ladder of whole ticks that
fits in the word, and counters that do not wrap. -/
structure Suits (setting : Setting) (text : Text) : Prop where
  visit : ∀ entries, (setting.visit entries).Perm entries
  tick : setting.tick ≠ 0
  multiples : ∀ p ∈ noted (dataRows text), setting.tick.toNat ∣ p.toNat
  whole : setting.tick.toNat ∣ (scaledSpan setting text).toNat
  room : (passOne (dataRows text)).range.maxPriceRaw.toNat + (scaledSpan setting text).toNat +
    setting.tick.toNat < 2 ^ 64
  counter : setting.currentSequence.toNat + (dataRows text).length < 2 ^ 63
  shares : ((dataRows text).map addedShares).sum < 2 ^ 64

/-- The feed of a venue, converted and replayed: when no host refuses memory, the book displays
behind the rows of every moment what the venue displays. -/
theorem feed_displays (setting : Setting) (hlimit : options.limit = 0)
    (hclean : ∀ m ∈ frames input, WellFormed m)
    (hdirected : options.symbols ≠ [] → Directed (frames input))
    {moments : List Moment} (hshows : List.Forall₂ (Shows epochBase)
      ((frames input).filter fun m => Asked options (frames input) m)
      (rowsOf moments))
    {venue : Venue} (hsession : Session (fun _ => []) moments venue)
    (hapart : (moments.map Moment.ts).Nodup) :
    ∃ result, decode options epochBase input = some result ∧
      (Suits setting result.csv → ∀ o s, itchReplay setting result.csv = .replayed o s →
        (∀ sub ∈ s.submissions, ¬ RefusesMemory sub.outcome) →
        ∃ book, openBook setting (passOne (dataRows result.csv)) = (.returns (), some book) ∧
          passBehind setting result.csv book (dataRows result.csv) = (o, s) ∧
          ∀ before after venue', moments = before ++ after →
            Session (fun _ => []) before venue' →
            ∃ s', passBehind setting result.csv book
                ((dataRows result.csv).take (rowsOf before).length) = (.returns (), s') ∧
              (∀ sub ∈ s'.submissions, ∃ n, sub.outcome = .returns n) ∧
              displayed (marketOf s'.engine) = venue') := by
  obtain ⟨result, hdecode, hcsv⟩ := csv_shows epochBase hlimit hclean hdirected
  refine ⟨result, hdecode, fun hsuits o s hrun hmemory => ?_⟩
  have halike := alike_of_shows hshows hcsv
  obtain ⟨moments', hrows, hmoments⟩ := moments_alike halike
  have htimes : moments.map Moment.ts = moments'.map Moment.ts := by
    rw [← List.forall₂_eq_eq_eq, List.forall₂_map_left_iff, List.forall₂_map_right_iff]
    exact hmoments.imp fun _ _ h => h.ts
  have hts : ∀ f ∈ dataRows result.csv, (tsOf f).toNat < 2 ^ 63 := by
    intro f hf
    obtain ⟨i, hi, rfl⟩ := List.mem_iff_getElem.mp hf
    exact (hcsv.get (hcsv.length_eq ▸ hi) hi).ts_lt
  obtain ⟨book, hopen, hpass, hdisplays⟩ := replay_displays hsuits.visit hrows.symm
    (session_alike hsession hmoments) (htimes ▸ hapart) hts hsuits.tick hsuits.multiples
    hsuits.whole hsuits.room hsuits.counter hsuits.shares hrun hmemory
  refine ⟨book, hopen, hpass, fun before after venue' hsplit hbefore => ?_⟩
  subst hsplit
  have hhead : List.Forall₂ MomentAlike before (moments'.take before.length) :=
    (List.forall₂_take_append _ before after hmoments.flip).flip
  have hsplit' : moments' = moments'.take before.length ++ moments'.drop before.length :=
    (List.take_append_drop _ _).symm
  have hcsv' : dataRows result.csv =
      rowsOf (moments'.take before.length) ++ rowsOf (moments'.drop before.length) := by
    rw [← hrows, rowsOf, rowsOf, rowsOf, ← List.flatMap_append, ← hsplit']
  have htake : (dataRows result.csv).take (rowsOf before).length =
      rowsOf (moments'.take before.length) := by
    rw [(rows_alike hhead).length_eq, hcsv', List.take_left]
  rw [htake]
  exact hdisplays _ _ venue' hsplit' (session_alike hbefore hhead)

/-- A feed that opens with its directory. -/
theorem directed_opening {listings messages : List ByteView}
    (hlistings : ∀ r ∈ listings, isDirectory r = true)
    (hlisted : ∀ m ∈ messages, typeOf m ∈ emitted → isOneOf (typeOf m) "S" = false →
      ∃ r ∈ listings, locateOf r = locateOf m)
    (hnamed : ∀ r ∈ listings ++ messages, ∀ r' ∈ listings ++ messages, isDirectory r = true →
      isDirectory r' = true → locateOf r = locateOf r' → symbolOf r = symbolOf r')
    (hstock : ∀ m ∈ listings ++ messages, ∀ r ∈ listings ++ messages, isDirectory r = true →
      locateOf r = locateOf m →
        ∀ offset ∈ stockField (typeOf m), unpadded (m.field offset 8) = symbolOf r) :
    Directed (listings ++ messages) where
  listed front m back hsplit hemitted hevent := by
    have hmessage : m ∉ listings := by
      intro hmem
      have hdirectory := hlistings m hmem
      rw [isDirectory, (emitted_named hemitted).2] at hdirectory
      cases hdirectory
    have hfront : listings ⊆ front ∧ m ∈ messages := by
      rcases List.append_eq_append_iff.mp hsplit with ⟨more, rfl, hmessages⟩ |
        ⟨more, rfl, hmessages⟩
      · exact ⟨List.subset_append_left _ _, by simp [hmessages]⟩
      · cases more with
        | nil =>
          rw [List.nil_append] at hmessages
          exact ⟨by simp, hmessages ▸ List.mem_cons_self⟩
        | cons first more =>
          obtain ⟨rfl, -⟩ := List.cons.inj hmessages
          exact absurd (by simp) hmessage
    obtain ⟨r, hr, hlocate⟩ := hlisted m hfront.2 hemitted hevent
    exact ⟨r, hfront.1 hr, hlistings r hr, hlocate⟩
  named := hnamed
  stock := hstock

/-- The messages of a listing, an order, an execution, a replacement. -/
def message (type : String) (locate nanos : UInt8) (body : Text) : Text :=
  Frames.framed (ofString type ++ [0, locate, 0, 0, 0, 0, 0, 0, 0, nanos] ++ body)

/-- Orders of the symbols "A" and "B", an execution of each, and a replacement of the first. -/
def twoListings : ByteView := .ofList (
  message "R" 1 0 (ofString "A       ") ++ message "R" 2 0 (ofString "B       ") ++
  message "A" 1 1 ([0, 0, 0, 0, 0, 0, 0, 1] ++ ofString "S" ++ [0, 0, 0, 10] ++
    ofString "A       " ++ [0, 0, 0, 100]) ++
  message "A" 2 2 ([0, 0, 0, 0, 0, 0, 0, 2] ++ ofString "B" ++ [0, 0, 0, 10] ++
    ofString "B       " ++ [0, 0, 0, 107]) ++
  message "E" 1 3 [0, 0, 0, 0, 0, 0, 0, 1, 0, 0, 0, 4, 0, 0, 0, 0, 0, 0, 0, 1] ++
  message "E" 2 3 [0, 0, 0, 0, 0, 0, 0, 2, 0, 0, 0, 9, 0, 0, 0, 0, 0, 0, 0, 2] ++
  message "U" 1 4 [0, 0, 0, 0, 0, 0, 0, 1, 0, 0, 0, 0, 0, 0, 0, 3, 0, 0, 0, 5, 0, 0, 0, 110])
  fun _ => 0

theorem frames_twoListings : frames twoListings =
    [twoListings.subspan 2 19, twoListings.subspan 23 19] ++ [twoListings.subspan 44 36,
      twoListings.subspan 82 36, twoListings.subspan 120 31, twoListings.subspan 153 31,
      twoListings.subspan 186 35] := by
  have hnext : nextFrame twoListings 0 = .ok 19 ∧ nextFrame twoListings 21 = .ok 19 ∧
      nextFrame twoListings 42 = .ok 36 ∧ nextFrame twoListings 80 = .ok 36 ∧
      nextFrame twoListings 118 = .ok 31 ∧ nextFrame twoListings 151 = .ok 31 ∧
      nextFrame twoListings 184 = .ok 35 ∧ nextFrame twoListings 221 = .error false := by
    decide +kernel
  have hsize : twoListings.size = 221 := by decide +kernel
  simp only [frames, hsize, framesFrom, FrameLengthBytes, Nat.reduceAdd, hnext, List.cons_append,
    List.nil_append]

theorem directed_twoListings : Directed (frames twoListings) := by
  rw [frames_twoListings]
  refine directed_opening ?_ ?_ ?_ ?_
  all_goals decide +kernel

/-- The rows of the first symbol. -/
def listedMoments : List Moment := [
  ⟨1, [], [["1", "1", "", "00:00:00.000000001", "A", "ADD_ORDER", "A", "1", "S", "10", "0.0100",
    "", "", "", ""].map ofString]⟩,
  ⟨3, [["2", "3", "", "00:00:00.000000003", "E", "EXECUTED", "A", "1", "", "4", "", "", "1", "",
    ""].map ofString], []⟩,
  ⟨4, [], [["3", "4", "", "00:00:00.000000004", "U", "REPLACE", "A", "1", "", "5", "0.0110", "3",
    "", "", ""].map ofString]⟩]

theorem session_listed : Session (fun _ => []) listedMoments (sides [] [⟨3, 110, 5⟩]) := by
  have hfirst : Happens (fun _ => []) listedMoments[0] (sides [] [⟨1, 100, 10⟩]) := by
    refine happens_quote (.adds (d := false) (.inl ?_) ?_ ⟨?_, ?_, ?_, ?_, ?_, ?_⟩) ?_ ?_ ?_
    all_goals decide +kernel
  have hsecond : Happens (sides [] [⟨1, 100, 10⟩]) listedMoments[1] (sides [] [⟨1, 100, 6⟩]) := by
    have huses : Uses Listing.shares Listing.withShares [⟨1, 100, 10⟩] [(⟨1, 100, 10⟩, 4)]
        [⟨1, 100, 6⟩] := .cons (by decide) (by decide) .nil
    have hleft : Function.update (sides [] [⟨1, 100, 10⟩]) false [⟨1, 100, 6⟩] =
        sides [] [⟨1, 100, 6⟩] := by decide +kernel
    refine hleft ▸ .intro (d := false) (.cons ⟨.inl ?_, ?_, ?_⟩ .nil) huses .nil ?_
    all_goals decide +kernel
  have hthird : Happens (sides [] [⟨1, 100, 6⟩]) listedMoments[2] (sides [] [⟨3, 110, 5⟩]) := by
    refine happens_quote (.replaces (d := false) (x := ⟨1, 100, 6⟩) ?_ ?_ ?_
      ⟨?_, ?_, ?_, ?_, ?_, ?_⟩) ?_ ?_ ?_
    all_goals decide +kernel
  exact .cons hfirst (.cons hsecond (.cons hthird .nil))

theorem feed_displays_listed : ∃ result s,
    decode ⟨[ofString "A"], 0, false⟩ 0 twoListings = some result ∧
      itchReplay (fiveTick fun _ => 0) result.csv = .replayed (.returns ()) s ∧
      displayed (marketOf s.engine) = sides [] [⟨3, 110, 5⟩] := by
  have hdirectory : ∀ m ∈ frames twoListings,
      isOneOf (typeOf m) "R" = true → 19 ≤ m.size ∧ Clean (m.field 11 8) := by
    rw [frames_twoListings]
    decide +kernel
  have hsize : ∀ m ∈ frames twoListings,
      typeOf m ∈ emitted → FrameReads.bytesRead (typeOf m) ≤ m.size := by
    rw [frames_twoListings]
    decide +kernel
  have htexts : ∀ m ∈ frames twoListings,
      typeOf m ∈ emitted → ∀ shown ∈ layout (typeOf m), CleanIn m shown := by
    rw [frames_twoListings]
    decide +kernel
  have hshows : List.Forall₂ (Shows 0) ((frames twoListings).filter fun m =>
      Asked ⟨[ofString "A"], 0, false⟩ (frames twoListings) m)
      (rowsOf listedMoments) := by
    rw [frames_twoListings]
    decide +kernel
  obtain ⟨result, hdecode, hdisplays⟩ := feed_displays (fiveTick fun _ => 0) rfl
    (fun m hm => ⟨hdirectory m hm, hsize m hm, htexts m hm⟩) (fun _ => directed_twoListings)
    hshows session_listed (by decide +kernel)
  have hread : (decode ⟨[ofString "A"], 0, false⟩ 0 twoListings).map
      (fun result => dataRows result.csv) = some (rowsOf listedMoments) := by decide +kernel
  rw [hdecode, Option.map_some, Option.some_inj] at hread
  have hreached : (itchReplay (fiveTick fun _ => 0) result.csv).submissions.isEmpty = false := by
    simp only [itchReplay, hread]
    decide +kernel
  have hmemory : ∀ sub ∈ (itchReplay (fiveTick fun _ => 0) result.csv).submissions,
      ¬ RefusesMemory sub.outcome := by
    simp only [itchReplay, hread]
    decide +kernel
  have hnoted : noted (rowsOf listedMoments) = [100, 100, 110] := by decide +kernel
  have hsuits : Suits (fiveTick fun _ => 0) result.csv := by
    refine ⟨fun entries => entries.reverse_perm, by decide, ?_, ?_, ?_, ?_, ?_⟩
    · rw [hread, hnoted]
      intro p hp
      simp only [List.mem_cons, List.not_mem_nil, or_false] at hp
      rcases hp with rfl | rfl | rfl <;> decide
    all_goals
      simp only [scaledSpan, hread]
      decide +kernel
  cases hrun : itchReplay (fiveTick fun _ => 0) result.csv with
  | noPricedRows | stopped =>
    rw [hrun] at hreached
    cases hreached
  | replayed o s =>
    rw [hrun] at hmemory
    obtain ⟨book, -, hpass, hbefore⟩ := hdisplays hsuits o s hrun hmemory
    obtain ⟨s', hpass', -, hdisplayed⟩ :=
      hbefore listedMoments [] _ (List.append_nil _).symm session_listed
    rw [hread, List.take_length] at hpass'
    rw [hread, hpass'] at hpass
    cases hpass
    exact ⟨result, s, hdecode, hrun, hdisplayed⟩

end Feeds

end Leka.VenueFeeds
