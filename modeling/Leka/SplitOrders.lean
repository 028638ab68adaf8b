import Leka.QuantityLedgers

/-!
An order sent in two parts. The second part goes on where the first one ended, wherever in
the opposite side that is, so the two take from each resting order what the whole takes and
leave the same orders behind. Of a limit order the parts rest separately, and together they
come to what rests of the whole.
-/

namespace Leka.SplitOrders

open Procedures Orders OrderPools OrderBooks MatchingEngines RestingOrders ReferenceMatchers Sweeps
  MatchingRounds EventOutcomes MatcherRefinement QuantityLedgers BookRuns

/-- What remains of the listed orders at a price. -/
def quantityAt (price : ℕ) (orders : List Resting) : ℕ :=
  ((orders.filter fun order => order.price = price).map Resting.remainingQuantity).sum

section Reference

variable {price : ℕ} {first second whole : NewOrder} {book : Book}

theorem quantityAt_perm {xs ys : List Resting} (h : xs.Perm ys) :
    quantityAt price xs = quantityAt price ys :=
  ((h.filter _).map _).sum_eq

theorem quantityAt_cons (r : Resting) (orders : List Resting) : quantityAt price (r :: orders) =
    (if r.price = price then r.remainingQuantity else 0) + quantityAt price orders := by
  by_cases h : r.price = price <;> simp [quantityAt, h]

/-- The own side of a limit order gains at its price what is left of it. -/
theorem quantityAt_submit (hlimit : whole.orderType = .limit) :
    quantityAt price ((submit whole book).2.side (isBid whole)) =
      (if whole.price.toNat = price then
        (fill whole whole.quantity.toNat (book.side !isBid whole)).left
      else 0) + quantityAt price (book.side (isBid whole)) := by
  rw [side_submit]
  by_cases hrests : whole.orderType = .limit ∧
      (fill whole whole.quantity.toNat (book.side !isBid whole)).left ≠ 0
  · rw [if_pos hrests, quantityAt_perm (enqueue_perm _ _ _), quantityAt_cons]
    rfl
  · rw [if_neg hrests]
    have hnone : (fill whole whole.quantity.toNat (book.side !isBid whole)).left = 0 :=
      not_not.mp fun hleft => hrests ⟨hlimit, hleft⟩
    rw [hnone, ite_self, Nat.zero_add]

/-- The second order makes the same demands as the first, but for its quantity. -/
structure SameTerms (order order' : NewOrder) : Prop where
  orderSide : order'.orderSide = order.orderSide
  orderType : order'.orderType = order.orderType
  price : order'.price = order.price

theorem SameTerms.isBid_eq {order order' : NewOrder} (h : SameTerms order order') :
    isBid order' = isBid order := by
  rw [isBid, isBid, h.orderSide]

theorem SameTerms.fill_eq {order order' : NewOrder} (h : SameTerms order order') (demand : ℕ)
    (orders : List Resting) : fill order' demand orders = fill order demand orders := by
  have hallows : allows order' = allows order := by
    funext r
    rw [allows, allows, h.isBid_eq, h.orderType, h.price]
  rw [fill, fill, hallows]

/-- The parts and the whole. -/
structure Splits (first second whole : NewOrder) : Prop where
  firstTerms : SameTerms whole first
  secondTerms : SameTerms whole second
  quantity : whole.quantity.toNat = first.quantity.toNat + second.quantity.toNat

theorem withRemaining_twice (r : Resting) (m n : ℕ) :
    (r.withRemaining m).withRemaining n = r.withRemaining n := rfl

theorem withRemaining_size (r : Resting) (n : ℕ) : (r.withRemaining n).remainingQuantity = n := rfl

theorem allows_withRemaining (order : NewOrder) (r : Resting) (n : ℕ) :
    allows order (r.withRemaining n) = allows order r := rfl

theorem orderId_withRemaining (id : OrderId) (r : Resting) (n : ℕ) :
    decide ((r.withRemaining n).orderId = id) = decide (r.orderId = id) := rfl

/-- What the first part takes from the opposite side. -/
abbrev filledFirst (first whole : NewOrder) (book : Book) : Swept Resting :=
  fill whole first.quantity.toNat (book.side !isBid whole)

/-- What the second part takes from the opposite side the first part leaves. -/
abbrev filledSecond (first second whole : NewOrder) (book : Book) : Swept Resting :=
  fill whole second.quantity.toNat (filledFirst first whole book).rest

theorem Splits.opposite_first (h : Splits first second whole) (book : Book) :
    (submit first book).2.side (!isBid whole) = (filledFirst first whole book).rest := by
  have hopposite := @side_submit_opposite first book
  rw [h.firstTerms.isBid_eq, h.firstTerms.fill_eq] at hopposite
  exact hopposite

theorem Splits.opposite_second (h : Splits first second whole) (book : Book) :
    (submit second (submit first book).2).2.side (!isBid whole) =
      (filledSecond first second whole book).rest := by
  have hopposite := @side_submit_opposite second (submit first book).2
  rw [h.secondTerms.isBid_eq, h.secondTerms.fill_eq, h.opposite_first] at hopposite
  exact hopposite

theorem Splits.opposite (h : Splits first second whole) (book : Book) :
    (submit second (submit first book).2).2.side (!isBid whole) =
      (submit whole book).2.side (!isBid whole) := by
  rw [h.opposite_second, side_submit_opposite, h.quantity]
  exact (rest_split withRemaining_size withRemaining_twice (allows_withRemaining whole) _ _ _).symm

theorem Splits.traded (h : Splits first second whole) (book : Book) (id : OrderId) :
    tradedFrom id (submit first book).1 + tradedFrom id (submit second (submit first book).2).1 =
      tradedFrom id (submit whole book).1 := by
  have hfirst : (submit first book).1 =
      (filledFirst first whole book).fills.map (tradeWith first) := by
    rw [filledFirst, ← h.firstTerms.fill_eq, ← h.firstTerms.isBid_eq]
    rfl
  have hsecond : (submit second (submit first book).2).1 =
      (filledSecond first second whole book).fills.map (tradeWith second) := by
    rw [filledSecond, ← h.opposite_first, ← h.secondTerms.fill_eq, ← h.secondTerms.isBid_eq]
    rfl
  have hwhole : (submit whole book).1 = (fill whole
      (first.quantity.toNat + second.quantity.toNat) (book.side !isBid whole)).fills.map
        (tradeWith whole) := by
    rw [← h.quantity]
    rfl
  rw [hfirst, hsecond, hwhole, tradedFrom_fills, tradedFrom_fills, tradedFrom_fills]
  exact (taken_split (p := fun r => decide (r.orderId = id)) withRemaining_size
    withRemaining_twice (allows_withRemaining whole) (orderId_withRemaining id) _ _ _).symm

theorem Splits.left (h : Splits first second whole) (book : Book) :
    (filledFirst first whole book).left + (filledSecond first second whole book).left =
      (fill whole whole.quantity.toNat (book.side !isBid whole)).left := by
  rw [h.quantity]
  exact (left_split withRemaining_size withRemaining_twice (allows_withRemaining whole) _ _ _).symm

/-- Only a limit order rests. -/
theorem side_submit_not_limit {order : NewOrder} (hnot : order.orderType ≠ .limit) (book : Book) :
    (submit order book).2.side (isBid order) = book.side (isBid order) := by
  rw [side_submit, if_neg fun hrests => hnot hrests.1]

theorem Splits.own (h : Splits first second whole) (hnot : whole.orderType ≠ .limit)
    (book : Book) : (submit second (submit first book).2).2.side (isBid whole) =
      (submit whole book).2.side (isBid whole) := by
  have hfirst := side_submit_not_limit
    (fun heq => hnot (h.firstTerms.orderType.symm.trans heq)) book
  have hsecond := side_submit_not_limit
    (fun heq => hnot (h.secondTerms.orderType.symm.trans heq)) (submit first book).2
  rw [h.firstTerms.isBid_eq] at hfirst
  rw [h.secondTerms.isBid_eq] at hsecond
  rw [hsecond, hfirst, side_submit_not_limit hnot]

/-- At every price the parts add to the own side what the whole adds. -/
theorem Splits.own_quantity (h : Splits first second whole) (hlimit : whole.orderType = .limit)
    (book : Book) (price : ℕ) :
    quantityAt price ((submit second (submit first book).2).2.side (isBid whole)) =
      quantityAt price ((submit whole book).2.side (isBid whole)) := by
  have hfirst : quantityAt price ((submit first book).2.side (isBid first)) = _ :=
    quantityAt_submit (h.firstTerms.orderType.trans hlimit)
  have hsecond :
      quantityAt price ((submit second (submit first book).2).2.side (isBid second)) = _ :=
    quantityAt_submit (h.secondTerms.orderType.trans hlimit)
  rw [h.firstTerms.isBid_eq, h.firstTerms.fill_eq, h.firstTerms.price] at hfirst
  rw [h.secondTerms.isBid_eq, h.secondTerms.fill_eq, h.secondTerms.price, h.opposite_first,
    hfirst] at hsecond
  have hleft : (fill whole first.quantity.toNat (book.side !isBid whole)).left +
      (fill whole second.quantity.toNat (filledFirst first whole book).rest).left =
        (fill whole whole.quantity.toNat (book.side !isBid whole)).left := h.left book
  rw [hsecond, quantityAt_submit hlimit, ← hleft]
  split
  · omega
  · omega

end Reference

section Engine

variable {hash : OrderId → UInt64} {host host₁ host₂ : Host} {first second whole : NewOrder}
  {s s₁ s₂ s' : EngineState}

/-- An order sent in two parts, when every call returns. The opposite side, and what was taken
from each order there, is as for the whole. The own side is as for the whole too when market
orders are sent; of limit orders the same quantity rests at each price. -/
theorem split_order (h : Reachable hash AnyCall s) (hsplits : Splits first second whole)
    {n n₁ n₂ : ℕ} (hfirst : processEvent hash host₁ (.new first) s = (.returns n₁, s₁))
    (hsecond : processEvent hash host₂ (.new second) s₁ = (.returns n₂, s₂))
    (hwhole : processEvent hash host (.new whole) s = (.returns n, s')) :
    resting s₂.orderBook (!isBid whole) = resting s'.orderBook (!isBid whole) ∧
    (∀ id, tradedFrom id (s₁.out.map tradeOf) + tradedFrom id (s₂.out.map tradeOf) =
      tradedFrom id (s'.out.map tradeOf)) ∧
    (whole.orderType = .market →
      resting s₂.orderBook (isBid whole) = resting s'.orderBook (isBid whole)) ∧
    ∀ price, quantityAt price (resting s₂.orderBook (isBid whole)) =
      quantityAt price (resting s'.orderBook (isBid whole)) := by
  have hs := reachable_sound h
  have hs₁ := sound_processEvent hs host₁ (.new first)
  have hends₁ := processEvent_ends hs host₁ (.new first)
  have hends' := processEvent_ends hs host (.new whole)
  rw [hfirst] at hs₁ hends₁
  rw [hwhole] at hends'
  have hends₂ := processEvent_ends hs₁ host₂ (.new second)
  rw [hsecond] at hends₂
  obtain ⟨htrades₁, _, hbook₁⟩ := event_refines hs hends₁
  obtain ⟨htrades₂, _, hbook₂⟩ := event_refines hs₁ hends₂
  obtain ⟨htrades', _, hbook'⟩ := event_refines hs hends'
  rw [hbook₁] at htrades₂ hbook₂
  have hside₂ : ∀ d, resting s₂.orderBook d =
      (submit second (submit first (bookOf s)).2).2.side d := by
    intro d
    rw [← side_bookOf, hbook₂]
    rfl
  have hside' : ∀ d, resting s'.orderBook d = (submit whole (bookOf s)).2.side d := by
    intro d
    rw [← side_bookOf, hbook']
    rfl
  simp only [hside₂, hside', htrades₁, htrades₂, htrades']
  refine ⟨hsplits.opposite _, hsplits.traded _, fun hmarket => hsplits.own ?_ _, fun price => ?_⟩
  · rw [hmarket]
    decide
  · by_cases hlimit : whole.orderType = .limit
    · exact hsplits.own_quantity hlimit _ price
    · rw [hsplits.own hlimit]

/-- The first part ends inside the resting order, and the second one takes the rest of it and
rests. -/
theorem split_inside : ∃ s₁ s₂ s' : EngineState, s₁.out ≠ [] ∧ s₂.out ≠ [] ∧
    (∀ id, tradedFrom id (s₁.out.map tradeOf) + tradedFrom id (s₂.out.map tradeOf) =
      tradedFrom id (s'.out.map tradeOf)) ∧
    ∀ price, quantityAt price (resting s₂.orderBook true) =
      quantityAt price (resting s'.orderBook true) := by
  obtain ⟨_, hs, hp⟩ := @exists_reachable id _ _ anyCall_of_removesNone 100 1 2
    [.addOrder grantingHost 1 100 4 5 .sell .limit 1]
    (fun s =>
      let first := processEvent id grantingHost (.new ⟨2, 100, 3, 5, .buy, .limit⟩) s
      let second := processEvent id grantingHost (.new ⟨3, 100, 6, 5, .buy, .limit⟩) first.2
      let whole := processEvent id grantingHost (.new ⟨2, 100, 9, 5, .buy, .limit⟩) s
      first.1 = .returns 1 ∧ second.1 = .returns 1 ∧ whole.1 = .returns 1 ∧ first.2.out ≠ [] ∧
        second.2.out ≠ [])
    (by decide +kernel)
  obtain ⟨hfirst, hsecond, hwhole, hout, hout'⟩ := of_decide_eq_true hp
  obtain ⟨_, htraded, _, hquantity⟩ := @split_order id grantingHost grantingHost grantingHost
    ⟨2, 100, 3, 5, .buy, .limit⟩ ⟨3, 100, 6, 5, .buy, .limit⟩ ⟨2, 100, 9, 5, .buy, .limit⟩ _ _ _ _
    hs ⟨⟨rfl, rfl, rfl⟩, ⟨rfl, rfl, rfl⟩, rfl⟩ 1 1 1 (Prod.ext hfirst rfl) (Prod.ext hsecond rfl)
    (Prod.ext hwhole rfl)
  exact ⟨_, _, _, hout, hout', htraded, hquantity⟩

end Engine

end Leka.SplitOrders
