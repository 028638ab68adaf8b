import Leka.Markets

/-!
The book that a venue displays: for each side the orders with the shares that are left of them,
best price first and first in first at one price. A market displays one, and an event that it
accepts changes what it displays in the way that a venue does.
-/

namespace Leka.Venues

open Orders Buckets Sweeps ReferenceMatchers ReplayedEvents Markets

/-- A displayed order. -/
structure Listing where
  orderId : OrderId
  price : ℕ
  shares : ℕ
deriving DecidableEq

def Listing.withShares (listing : Listing) (shares : ℕ) : Listing := { listing with shares }

/-- The displayed orders of each side; `true` is the side of the bids. -/
abbrev Venue := Bool → List Listing

section Changes

variable (venue : Venue)

/-- An order goes behind the orders that are at least as good. -/
def enter (isBid : Bool) (listing : Listing) : Venue :=
  Function.update venue isBid
    (insertBehind (fun other => noWorse isBid other.price listing.price) listing (venue isBid))

def withdraw (id : OrderId) : Venue := fun d => (venue d).filter fun x => x.orderId ≠ id

/-- The order with the id keeps its place. -/
def reduceBy (id : OrderId) (shares : ℕ) : Venue := fun d =>
  (venue d).map fun x => if x.orderId = id then x.withShares (x.shares - shares) else x

end Changes

def listingOf (order : Resting) : Listing where
  orderId := order.orderId
  price := order.price
  shares := order.remainingQuantity

def displayed (market : Market) : Venue := fun d => (market.book.side d).map listingOf

/-- The market displays `venue` after `news` orders. At no price more than `added` has come to
what is shown. -/
structure Becomes (market market' : Market) (venue : Venue) (news added : ℕ) : Prop where
  displayed : displayed market' = venue
  grid : market'.grid = market.grid
  lastSequence : market'.book.lastSequence = market.book.lastSequence + news
  shown : ∀ d price, market'.shown d price ≤ market.shown d price + added

section Answers

variable {market : Market} {order : NewOrder}

theorem side_traded (d : Bool) :
    (market.traded order).book.side d = if d = !isBid order then
      (fill order order.quantity.toNat (market.book.side !isBid order)).rest
    else market.book.side d := by
  generalize hopposite : (!isBid order) = opposite
  unfold Market.traded
  rw [hopposite]
  cases d <;> cases opposite <;> rfl

theorem quantityAt_cons (price : ℕ) (order : Resting) (orders : List Resting) :
    quantityAt price (order :: orders) =
      (if order.price = price then order.remainingQuantity else 0) + quantityAt price orders := by
  unfold quantityAt
  by_cases hprice : order.price = price
  · rw [List.filter_cons_of_pos (by simpa using hprice), if_pos hprice, List.map_cons,
      List.sum_cons]
  · rw [List.filter_cons_of_neg (by simpa using hprice), if_neg hprice, Nat.zero_add]

theorem quantityAt_enqueue (d : Bool) (price : ℕ) (order : Resting) (orders : List Resting) :
    quantityAt price (enqueue d order orders) ≤
      quantityAt price orders + order.remainingQuantity := by
  have hperm : quantityAt price (enqueue d order orders) = quantityAt price (order :: orders) :=
    (((enqueue_perm d order orders).filter _).map _).sum_eq
  rw [hperm, quantityAt_cons]
  split_ifs <;> omega

theorem quantityAt_filter (price : ℕ) (p : Resting → Bool) (orders : List Resting) :
    quantityAt price (orders.filter p) ≤ quantityAt price orders := by
  unfold quantityAt
  have hsub := (List.filter_sublist (l := orders) (p := p)).filter fun order =>
    decide (order.price = price)
  exact (hsub.map _).sum_le_sum fun _ _ => Nat.zero_le _

/-- What is used up at a price has been taken from it. -/
theorem usedUp_le (price : ℕ) (fills : List (Resting × ℕ)) :
    usedUp price fills ≤
      ((fills.filter fun fill => fill.1.price = price).map Prod.snd).sum := by
  unfold usedUp
  have hsub : (fills.filter fun fill =>
      fill.1.price = price ∧ fill.2 = fill.1.remainingQuantity).Sublist
        (fills.filter fun fill => fill.1.price = price) := by
    refine List.monotone_filter_right _ fun fill hfill => ?_
    exact decide_eq_true (of_decide_eq_true hfill).1
  exact (hsub.map _).sum_le_sum fun _ _ => Nat.zero_le _

/-- Trades do not add to what is shown: what they use up stays in it, and no more. -/
theorem shown_traded (d : Bool) (price : ℕ) :
    (market.traded order).shown d price ≤ market.shown d price := by
  have hsurplus : (market.traded order).surplus d price = market.surplus d price +
      if d = !isBid order then
        usedUp price (fill order order.quantity.toNat (market.book.side !isBid order)).fills
      else 0 := rfl
  unfold Market.shown
  rw [hsurplus, side_traded]
  by_cases hd : d = !isBid order
  · subst hd
    rw [if_pos rfl, if_pos rfl]
    have htaken := @sum_taken _ Resting.remainingQuantity Resting.withRemaining (allows order)
      (fun other => decide (other.price = price)) (fun _ _ => rfl) (fun _ _ => rfl)
      order.quantity.toNat (market.book.side !isBid order)
    have hused := usedUp_le price
      (fill order order.quantity.toNat (market.book.side !isBid order)).fills
    unfold quantityAt
    unfold fill at hused ⊢
    omega
  · rw [if_neg hd, if_neg hd, Nat.add_zero]

/-- The limit of an order allows a trade with a displayed one. -/
def meets (order : NewOrder) (listing : Listing) : Bool :=
  order.orderType = .market || noWorse (isBid order) order.price.toNat listing.price

/-- An order takes from what is displayed what it takes from the market. -/
theorem displayed_fill (order : NewOrder) (demand : ℕ) (orders : List Resting) :
    sweep Listing.shares Listing.withShares (meets order) demand (orders.map listingOf) =
      ⟨(fill order demand orders).fills.map (Prod.map listingOf id),
        (fill order demand orders).left, (fill order demand orders).rest.map listingOf⟩ :=
  sweep_map (fun _ => rfl) (fun _ _ => rfl) (fun _ => rfl) demand orders

/-- An order that meets no displayed one is displayed itself. -/
theorem submit_enters (hcheck : market.checkOrder order = .ok ())
    (hlimit : order.orderType = .limit) (hquantity : order.quantity ≠ 0)
    (huncrossed : ∀ x ∈ displayed market (!isBid order),
      noWorse (isBid order) order.price.toNat x.price = false)
    (hprice : (market.grid (isBid order)).check order.price.toNat = .ok ())
    (hroom : market.shown (isBid order) order.price.toNat + order.quantity.toNat ≤ 2 ^ 64 - 1) :
    ∃ market', market.submit order = { market := market' } ∧
      Becomes market market' (enter (displayed market) (isBid order)
        ⟨order.orderId, order.price.toNat, order.quantity.toNat⟩) 1 order.quantity.toNat := by
  have hnone : fill order order.quantity.toNat (market.book.side !isBid order) =
      ⟨[], order.quantity.toNat, market.book.side !isBid order⟩ := by
    cases hside : market.book.side !isBid order with
    | nil => rfl
    | cons x xs =>
      refine sweep_rejected ?_
      have hx : listingOf x ∈ displayed market (!isBid order) := by
        rw [displayed, hside]
        exact List.mem_cons_self
      have hworse := huncrossed _ hx
      simp only [listingOf] at hworse
      simp [allows, hlimit, hworse]
  have hleft : order.quantity.toNat ≠ 0 := fun h => hquantity (UInt64.toNat_inj.mp h)
  have hsides : ∀ d, (market.traded order).book.side d = market.book.side d := by
    intro d
    rw [side_traded, hnone]
    split_ifs with hd
    · rw [hd]
    · rfl
  have hshown := @shown_traded market order (isBid order) order.price.toNat
  have hplaceable : (market.traded order).placeable order order.quantity.toNat = .ok () := by
    have hcheck' : ((market.traded order).grid (isBid order)).check order.price.toNat = .ok () :=
      hprice
    unfold Market.placeable
    rw [hcheck']
    exact if_neg (by omega)
  have hside : ∀ d, ((market.traded order).placed order order.quantity.toNat).book.side d =
      if d = isBid order then enqueue (isBid order)
        (remainder order (market.traded order).book.lastSequence order.quantity.toNat)
        (market.book.side (isBid order))
      else market.book.side d := by
    intro d
    rw [← hsides, ← hsides, Market.placed]
    generalize isBid order = side
    cases d <;> cases side <;> rfl
  refine ⟨(market.traded order).placed order order.quantity.toNat, ?_, ?_, rfl, ?_, ?_⟩
  · unfold Market.submit
    rw [hcheck]
    simp only [hnone, hlimit, hleft, ne_eq, not_false_eq_true, and_self, if_true, hplaceable,
      List.map_nil]
  · funext d
    rw [displayed, hside, enter, Function.update_apply]
    split_ifs with hd
    · exact @map_insertBehind _ _ listingOf
        (fun other => noWorse (isBid order) other.price order.price.toNat)
        (fun other => noWorse (isBid order) other.price order.price.toNat) (fun _ => rfl) _ _
    · rfl
  · unfold Market.placed
    rw [lastSequence_setSide, Market.traded]
  · intro d price
    have hplaced : ((market.traded order).placed order order.quantity.toNat).shown d price ≤
        (market.traded order).shown d price + order.quantity.toNat := by
      unfold Market.shown
      rw [hside, hsides, Nat.add_assoc]
      refine Nat.add_le_add_left ?_ _
      split_ifs with hd
      · subst hd
        exact quantityAt_enqueue _ _ _ _
      · exact Nat.le_add_right _ _
    exact hplaced.trans (Nat.add_le_add_right (shown_traded d price) _)

/-- An order that meets every offer it takes from, and takes no more than it wants. -/
theorem submit_takes (hcheck : market.checkOrder order = .ok ()) {uses : List (Listing × ℕ)}
    {left : List Listing}
    (huses : Uses Listing.shares Listing.withShares (displayed market (!isBid order)) uses left)
    (hquantity : order.quantity.toNat = (uses.map Prod.snd).sum)
    (hmeets : ∀ use ∈ uses, noWorse (isBid order) order.price.toNat use.1.price = true) :
    ∃ market' trades, market.submit order = { trades, market := market' } ∧
      Becomes market market' (Function.update (displayed market) (!isBid order) left) 1 0 := by
  obtain ⟨hleft, hrest⟩ := @Uses.sweep_eq _ _ _ (meets order) _ _ _ huses (fun _ _ => rfl)
    (fun _ _ _ => rfl) (fun _ _ => rfl) (fun use huse => by simp [meets, hmeets use huse])
  rw [← hquantity, displayed, displayed_fill] at hleft hrest
  dsimp only at hleft hrest
  refine ⟨market.traded order, (fill order order.quantity.toNat
    (market.book.side !isBid order)).fills.map (tradeWith order), ?_, ?_, rfl, ?_,
    fun d price => shown_traded d price⟩
  · unfold Market.submit
    rw [hcheck]
    simp only [hleft, ne_eq, not_true_eq_false, and_false, if_false]
  · funext d
    rw [displayed, side_traded, Function.update_apply]
    split_ifs
    · exact hrest
    · rfl
  · rfl

theorem cancel_withdraws {cancelled : CancelOrder} (hid : cancelled.orderId ≠ 0) :
    ∃ market', market.cancel cancelled = { market := market' } ∧
      Becomes market market' (withdraw (displayed market) cancelled.orderId) 0 0 := by
  refine ⟨{ market with book := ReferenceMatchers.cancel cancelled.orderId market.book },
    by rw [Market.cancel, if_neg hid], ?_, rfl, rfl, ?_⟩
  · funext d
    rw [displayed, withdraw, displayed, List.filter_map]
    cases d <;> rfl
  · intro d price
    refine Nat.add_le_add_left ?_ _
    cases d <;> exact quantityAt_filter _ _ _

theorem quantityAt_resized (price : ℕ) {id : OrderId} {quantity : ℕ} {orders : List Resting}
    (hle : ∀ order ∈ orders, order.orderId = id → quantity ≤ order.remainingQuantity) :
    quantityAt price (orders.map (resizeId id quantity)) ≤ quantityAt price orders := by
  induction orders with
  | nil => exact le_rfl
  | cons order orders ih =>
    obtain ⟨hfirst, hrest⟩ := List.forall_mem_cons.mp hle
    rw [List.map_cons, quantityAt_cons, quantityAt_cons]
    refine Nat.add_le_add ?_ (ih hrest)
    unfold resizeId
    by_cases hid : order.orderId = id
    · rw [if_pos hid, Resting.withRemaining]
      split_ifs
      · exact hfirst hid
      · exact le_rfl
    · rw [if_neg hid]

/-- A reduction to what is left behind a reduction by an amount. -/
theorem reduce_reduces {reduction : ReduceOrder} {amount : ℕ} (hid : reduction.orderId ≠ 0)
    (hquantity : reduction.newQuantity ≠ 0)
    (hleft : ∀ d, ∀ x ∈ displayed market d, x.orderId = reduction.orderId →
      x.shares = reduction.newQuantity.toNat + amount) :
    ∃ market', market.reduce reduction = { market := market' } ∧
      Becomes market market' (reduceBy (displayed market) reduction.orderId amount) 0 0 := by
  have hsides : ∀ d, ∀ order ∈ market.book.side d, order.orderId = reduction.orderId →
      order.remainingQuantity = reduction.newQuantity.toNat + amount :=
    fun d order horder => hleft d (listingOf order) (List.mem_map_of_mem horder)
  have hle : ∀ d, ∀ order ∈ market.book.side d, order.orderId = reduction.orderId →
      reduction.newQuantity.toNat ≤ order.remainingQuantity :=
    fun d order horder hsame => hsides d order horder hsame ▸ Nat.le_add_right _ _
  have hfits : ¬ ∃ order ∈ market.resting, order.orderId = reduction.orderId ∧
      (reduction.newQuantity = 0 ∨ order.remainingQuantity < reduction.newQuantity.toNat) := by
    rintro ⟨order, horder, hsame, hnone | hlt⟩
    · exact hquantity hnone
    · rcases List.mem_append.mp horder with hbid | hask
      · exact absurd (hle true order hbid hsame) (Nat.not_le.mpr hlt)
      · exact absurd (hle false order hask hsame) (Nat.not_le.mpr hlt)
  let book := ReferenceMatchers.reduce reduction.orderId reduction.newQuantity.toNat market.book
  refine ⟨{ market with book }, by rw [Market.reduce, if_neg hid, if_neg hfits], ?_, rfl, rfl, ?_⟩
  · have hpicture : ∀ d, ((market.book.side d).map
        (resizeId reduction.orderId reduction.newQuantity.toNat)).map listingOf =
          ((market.book.side d).map listingOf).map fun x => if x.orderId = reduction.orderId then
            x.withShares (x.shares - amount) else x := by
      intro d
      rw [List.map_map, List.map_map]
      refine List.map_congr_left fun order horder => ?_
      rw [Function.comp_apply, Function.comp_apply, resizeId, apply_ite listingOf]
      by_cases hsame : order.orderId = reduction.orderId
      · have hamount : order.remainingQuantity - amount = reduction.newQuantity.toNat := by
          rw [hsides d order horder hsame, Nat.add_sub_cancel]
        rw [if_pos hsame, if_pos (show (listingOf order).orderId = _ from hsame), ← hamount]
        rfl
      · rw [if_neg hsame, if_neg (show (listingOf order).orderId ≠ _ from hsame)]
    funext d
    cases d
    · exact hpicture false
    · exact hpicture true
  · intro d price
    refine Nat.add_le_add_left ?_ _
    cases d
    · exact quantityAt_resized price (hle false)
    · exact quantityAt_resized price (hle true)

end Answers

end Leka.Venues
