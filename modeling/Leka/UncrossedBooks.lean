import Leka.EventMoves

/-!
A book that only events change is never crossed: every bid is below every ask, so the best
prices of the two cached bests are in order whenever both exist.
-/

namespace Leka.UncrossedBooks

open Procedures Orders OrderPools PriceLadders OrderBooks MatchingEngines Buckets SyncedBooks
  RestingOrders ReferenceMatchers EventOutcomes BookRuns EventMoves

def Uncrossed (s : EngineState) : Prop :=
  ∀ bid ∈ resting s.orderBook true, ∀ ask ∈ resting s.orderBook false, bid.price < ask.price

section Steps

variable {s s' : EngineState} {d : Bool}

/-- An order that is still there had its price before. -/
theorem price_before (h : (keys s'.orderBook d).Sublist (keys s.orderBook d)) {r : Resting}
    (hr : r ∈ resting s'.orderBook d) : ∃ r₀ ∈ resting s.orderBook d, r₀.price = r.price := by
  have hkey : keyOf r ∈ keys s.orderBook d := h.subset (List.mem_map_of_mem hr)
  obtain ⟨r₀, hr₀, heq⟩ := List.mem_map.mp hkey
  exact ⟨r₀, hr₀, congrArg Prod.fst heq⟩

theorem uncrossed_moves (h : Uncrossed s) (hmoves : Moves s s') : Uncrossed s' := by
  cases hmoves with
  | leave _ hkeys =>
    intro bid hbid ask hask
    obtain ⟨bid₀, hbid₀, hbidPrice⟩ := price_before (hkeys true) hbid
    obtain ⟨ask₀, hask₀, haskPrice⟩ := price_before (hkeys false) hask
    rw [← hbidPrice, ← haskPrice]
    exact h bid₀ hbid₀ ask₀ hask₀
  | @join order left _ hopposite hown hfree =>
    have hjoined : ∀ r ∈ resting s'.orderBook (isBid order),
        r.price = order.price.toNat ∨ r ∈ resting s.orderBook (isBid order) := by
      intro r hr
      rw [hown, enqueue, mem_insertBehind] at hr
      exact hr.imp_left fun heq => by rw [heq]; rfl
    intro bid hbid ask hask
    cases hside : isBid order with
    | true =>
      rw [hside] at hjoined hopposite hfree
      rcases hjoined bid hbid with hprice | hold
      · have hworse := hfree ask hask
        rw [← Bool.not_eq_true, noWorse_bid] at hworse
        omega
      · obtain ⟨ask₀, hask₀, haskPrice⟩ := price_before hopposite hask
        rw [← haskPrice]
        exact h bid hold ask₀ hask₀
    | false =>
      rw [hside] at hjoined hopposite hfree
      rcases hjoined ask hask with hprice | hold
      · have hworse := hfree bid hbid
        rw [← Bool.not_eq_true, noWorse_ask] at hworse
        omega
      · obtain ⟨bid₀, hbid₀, hbidPrice⟩ := price_before hopposite hbid
        rw [← hbidPrice]
        exact h bid₀ hbid₀ ask hold

theorem reachable_uncrossed {hash : OrderId → UInt64} (h : Reachable hash EventsOnly s) :
    Uncrossed s := by
  refine events_induction ?_ ?_ ?_ h
  · intro s hempty bid hbid
    rw [hempty] at hbid
    simp at hbid
  · intro s counter hs _
    exact hs
  · intro s s' _ hs hmoves
    exact uncrossed_moves hs hmoves

/-- The price of a side's best level is the price of a resting order. -/
theorem best_price {hash : OrderId → UInt64} {book : OrderBook} (hs : Sound hash book)
    {l : LevelPtr} (hbest : (book.ladder d).best = some l) :
    ∃ r ∈ resting book d, r.price = (book.level l).price.toNat := by
  have hlevels := hs.synced.toLevelsOk
  rcases best_cases hlevels d with ⟨hnone, _⟩ | ⟨m, p, xs, hm, hsome, hqueue, hside⟩
  · rw [hnone] at hbest
    simp at hbest
  · rw [hsome, Option.some.injEq] at hbest
    subst m
    have hp : p ∈ fifo book l := by rw [hqueue]; simp
    refine ⟨restingOf (book.memory p), ?_, ?_⟩
    · rw [resting, hside]
      simp
    · exact congrArg UInt64.toNat ((hlevels.represents l).price p hp)

end Steps

/-- The best bid is below the best ask after any events, also after events that throw. -/
theorem bestBid_lt_bestAsk {hash : OrderId → UInt64} {s : EngineState}
    (h : Reachable hash EventsOnly s) (bid ask : LevelPtr)
    (hbid : s.orderBook.getBestBid = some bid) (hask : s.orderBook.getBestAsk = some ask) :
    (s.orderBook.level bid).price < (s.orderBook.level ask).price := by
  have hs := reachable_sound (h.mono fun _ _ => EventsOnly.anyCall)
  obtain ⟨b, hb, hbPrice⟩ := best_price (d := true) hs hbid
  obtain ⟨a, ha, haPrice⟩ := best_price (d := false) hs hask
  rw [UInt64.lt_iff_toNat_lt, ← hbPrice, ← haPrice]
  exact reachable_uncrossed h b hb a ha

/-- A market order takes the first of two asks. -/
theorem bestBid_lt_bestAsk_after_market : ∃ s : EngineState,
    (s.orderBook.level ⟨true, 2⟩).price < (s.orderBook.level ⟨false, 2⟩).price := by
  obtain ⟨s, hs, hp⟩ := @exists_reachable id _ _ eventsOnly_of_isEvent 100 1 3
    [.processEvent grantingHost (.new ⟨1, 100, 10, 5, .buy, .limit⟩),
      .processEvent grantingHost (.new ⟨2, 101, 4, 5, .sell, .limit⟩),
      .processEvent grantingHost (.new ⟨3, 102, 4, 5, .sell, .limit⟩),
      .processEvent grantingHost (.new ⟨4, 0, 4, 5, .buy, .market⟩)]
    (fun s => s.orderBook.getBestBid = some ⟨true, 2⟩ ∧
      s.orderBook.getBestAsk = some ⟨false, 2⟩) (by decide +kernel)
  obtain ⟨hbid, hask⟩ := of_decide_eq_true hp
  exact ⟨s, bestBid_lt_bestAsk hs _ _ hbid hask⟩

end Leka.UncrossedBooks
