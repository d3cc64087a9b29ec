import UltraHft.MarketData.Proofs.OrderBook.Meaning
import UltraHft.Tools.Proofs.OrderStream
import UltraHft.Tools.Proofs.SentMessages

/-!
# The orders that the stream leaves open

What a price-time book makes of the messages, with every integer read in the other
byte order.  Reversing bytes keeps different references apart, so a book that starts
empty affirms every message of the stream.
-/

namespace UltraHft.Tools.ItchSender

open UltraHft.Lib UltraHft.MarketData

variable {sent msgs : List SentMessage} {msg : SentMessage} {ref n : Nat}
  {orders : List (PriceTime.Resting UInt64 Nat)} {cs : List Choices}

def stillOpen (orders : List (PriceTime.Resting UInt64 Nat)) :
    SentMessage → List (PriceTime.Resting UInt64 Nat)
  | .addOrder orderRef side shares _ price =>
      orders ++ [⟨readId orderRef, (readSide side).meaning, Bytes.swap 8 price,
        Bytes.swap 4 shares⟩]
  | .trade .. => orders
  | .cancel orderRef _ => orders.filter fun o => o.id ≠ readId orderRef

/-- The orders that were added and not cancelled, oldest first, as they are read. -/
def openOrders (msgs : List SentMessage) : List (PriceTime.Resting UInt64 Nat) :=
  msgs.foldl stillOpen []

theorem openOrders_concat : openOrders (sent ++ [msg]) = stillOpen (openOrders sent) msg :=
  List.foldl_concat ..

/-- An add of a new order, a cancellation of an open one, or a trade. -/
def Affirmed (orders : List (PriceTime.Resting UInt64 Nat)) : SentMessage → Prop
  | .addOrder orderRef .. => readId orderRef ∉ orders.map PriceTime.Resting.id
  | .trade .. => True
  | .cancel orderRef _ => readId orderRef ∈ orders.map PriceTime.Resting.id

theorem readOrder_meaning (instrumentId : UInt32) (orderRef : Nat) (side : String)
    (shares price : Nat) : (readOrder instrumentId orderRef side shares price).meaning =
      ⟨readId orderRef, (readSide side).meaning, Bytes.swap 8 price, Bytes.swap 4 shares⟩ := by
  have hprice : Bytes.swap 8 price < 256 ^ 8 := Bytes.swap_lt
  have hshares : Bytes.swap 4 shares < 256 ^ 4 := Bytes.swap_lt
  have hp : (UInt64.ofNat (Bytes.swap 8 price)).toNat = Bytes.swap 8 price :=
    UInt64.toNat_ofNat_of_lt' hprice
  have hs : (UInt32.ofNat (Bytes.swap 4 shares)).toNat = Bytes.swap 4 shares :=
    UInt32.toNat_ofNat_of_lt' hshares
  rw [Order.meaning, readOrder, Order.make]
  dsimp only
  rw [hp, hs]

theorem length_openOrders_le (msgs : List SentMessage) :
    (openOrders msgs).length ≤ msgs.length := by
  induction msgs using List.reverseRecOn with
  | nil => exact Nat.le_refl 0
  | append_singleton sent msg ih =>
      rw [openOrders_concat, List.length_append, List.length_singleton]
      cases msg with
      | addOrder orderRef side shares stock price =>
          rw [stillOpen, List.length_append, List.length_singleton]
          omega
      | trade orderRef side shares stock price matchNum => exact Nat.le_succ_of_le ih
      | cancel orderRef cancelledShares =>
          exact Nat.le_succ_of_le ((List.length_filter_le _ _).trans ih)

/-! ## Different references -/

theorem swap_swap {w n : Nat} (h : n < 256 ^ w) : Bytes.swap w (Bytes.swap w n) = n := by
  have hbytes : Bytes.toLE w (Bytes.swap w n) = Bytes.toBE w n := by
    have hle := Bytes.toLE_ofLE (Bytes.toBE w n)
    rwa [Bytes.length_toBE] at hle
  rw [Bytes.swap, Bytes.toBE, hbytes, Bytes.toBE, List.reverse_reverse, Bytes.ofLE_toLE h]

theorem readId_inj {ref' : Nat} (h : ref < 2 ^ 64) (h' : ref' < 2 ^ 64) :
    readId ref = readId ref' ↔ ref = ref' := by
  rw [readId, readId, u64_ofNat_inj Bytes.swap_lt Bytes.swap_lt]
  constructor
  · intro hswap
    rw [← swap_swap (w := 8) h, hswap, swap_swap (w := 8) h']
  · rintro rfl
    rfl

/-! ## What the stream leaves open -/

theorem mem_openOrders {o : PriceTime.Resting UInt64 Nat} (h : o ∈ openOrders sent) :
    ∃ x ∈ added sent, o.id = readId x.1 := by
  induction sent using List.reverseRecOn with
  | nil => cases h
  | append_singleton sent msg ih =>
      rw [openOrders_concat] at h
      cases msg with
      | addOrder orderRef side shares stock price =>
          have hadded : added (sent ++ [.addOrder orderRef side shares stock price]) =
              added sent ++ [(orderRef, shares)] := added_concat_some rfl
          rw [hadded]
          rcases List.mem_append.mp h with h | h
          · obtain ⟨x, hx, hid⟩ := ih h
            exact ⟨x, List.mem_append_left _ hx, hid⟩
          · rw [List.mem_singleton.mp h]
            exact ⟨_, List.mem_append_right _ List.mem_cons_self, rfl⟩
      | trade orderRef side shares stock price matchNum =>
          have hadded : added (sent ++ [.trade orderRef side shares stock price matchNum]) =
              added sent := added_concat_none rfl
          rw [hadded]
          exact ih h
      | cancel orderRef cancelledShares =>
          have hadded : added (sent ++ [.cancel orderRef cancelledShares]) = added sent :=
            added_concat_none rfl
          rw [hadded]
          exact ih (List.mem_of_mem_filter h)

theorem Open.mem_openOrders (h : Open ref n sent) (hfits : ∀ msg ∈ sent, msg.Fits) :
    readId ref ∈ (openOrders sent).map PriceTime.Resting.id := by
  obtain ⟨before, after, side, stock, price, rfl, hafter⟩ := h
  induction after using List.reverseRecOn with
  | nil =>
      rw [openOrders_concat, stillOpen, List.map_append]
      exact List.mem_append_right _ List.mem_cons_self
  | append_singleton after msg ih =>
      have hsplit : before ++ SentMessage.addOrder ref side n stock price :: (after ++ [msg]) =
          before ++ SentMessage.addOrder ref side n stock price :: after ++ [msg] := by simp
      rw [hsplit] at hfits ⊢
      have hold := ih (fun k hk => hafter k (List.mem_append_left _ hk))
        fun m hm => hfits m (List.mem_append_left _ hm)
      rw [openOrders_concat]
      cases msg with
      | addOrder orderRef side' shares stock' price' =>
          rw [stillOpen, List.map_append]
          exact List.mem_append_left _ hold
      | trade orderRef side' shares stock' price' matchNum => exact hold
      | cancel orderRef cancelledShares =>
          have href : ref < 2 ^ 64 :=
            (hfits (.addOrder ref side n stock price) (by simp)).1
          have hother : orderRef < 2 ^ 64 :=
            (hfits (.cancel orderRef cancelledShares) (by simp)).1
          obtain ⟨o, ho, hid⟩ := List.mem_map.mp hold
          refine List.mem_map.mpr ⟨o, List.mem_filter.mpr ⟨ho, ?_⟩, hid⟩
          rw [hid]
          apply decide_eq_true
          rw [Ne, readId_inj href hother]
          rintro rfl
          exact hafter cancelledShares (by simp)

/-- A book affirms each message of the stream. -/
theorem affirmed_generateMessages
    (hfew : (added (Sender.new.generateMessages cs).2).length < 2 ^ 32 - 1)
    (h : sent ++ [msg] <+: (Sender.new.generateMessages cs).2) :
    Affirmed (openOrders sent) msg := by
  obtain ⟨pre, c, hpre, rfl, rfl⟩ := exists_iteration h
  have hlater := length_added_mono h
  have htracks := tracks_generateMessages pre
    ((length_added_mono (prefix_generateMessages_mono
      ((List.prefix_append _ _).trans hpre))).trans_lt hfew)
  have hfits := (Sender.inRange_new.generateMessages pre).1
  generalize (Sender.new.generateMessages pre).2 = sent at htracks hfits hlater
  generalize (Sender.new.generateMessages pre).1 = s at htracks hlater
  by_cases hadds : s.Adds c
  · rw [Sender.message_of_adds hadds]
    intro hmem
    obtain ⟨o, ho, hid⟩ := List.mem_map.mp hmem
    obtain ⟨x, hx, hread⟩ := mem_openOrders ho
    have hxs : x.1 ∈ (added sent).map Prod.fst := List.mem_map_of_mem hx
    rw [htracks.refs_eq, List.mem_range'_1] at hxs
    have hnext := htracks.next_eq
    have hcount : (added sent).length < 2 ^ 32 - 1 := by
      have hmono := length_added_mono (List.prefix_append sent [(s.iteration c).2])
      omega
    rw [hid, eq_comm, readId_inj (by omega) (by omega)] at hread
    omega
  · by_cases hcancels : Sender.Cancels c
    · obtain ⟨before, after, -, hiter⟩ := Sender.iteration_of_cancels hadds hcancels
      rw [hiter]
      exact (htracks.names_open.1 _ _ (by rw [hiter])).mem_openOrders hfits
    · rw [Sender.iteration_of_trades hadds hcancels]
      trivial

def readLive (x : Nat × Nat) : UInt64 × Nat := (readId x.1, Bytes.swap 4 x.2)

theorem filter_readLive {before after : List (Nat × Nat)} {x : Nat × Nat}
    (hnodup : ((before ++ x :: after).map Prod.fst).Nodup)
    (hrefs : ∀ y ∈ before ++ x :: after, y.1 < 2 ^ 64) :
    ((before ++ x :: after).map readLive).filter (fun p => p.1 ≠ readId x.1) =
      (before ++ after).map readLive := by
  have hother : ∀ y ∈ before ++ after, readId y.1 ≠ readId x.1 := by
    intro y hy heq
    have hmem : y ∈ before ++ x :: after := by
      simp at hy ⊢
      tauto
    rw [readId_inj (hrefs y hmem) (hrefs x (by simp))] at heq
    apply (nodup_taken hnodup).1
    rw [← heq]
    exact List.mem_map_of_mem hy
  have hkeep : ((before ++ after).map readLive).filter (fun p => p.1 ≠ readId x.1) =
      (before ++ after).map readLive := by
    apply List.filter_eq_self.mpr
    intro p hp
    obtain ⟨y, hy, rfl⟩ := List.mem_map.mp hp
    exact decide_eq_true (hother y hy)
  rw [← hkeep]
  simp [readLive]

/-- As long as no order is dropped from the deque, the open orders are those in it. -/
theorem openOrders_eq_liveOrders (hnever : NeverEvicts cs)
    (hfew : (added (Sender.new.generateMessages cs).2).length < 2 ^ 32 - 1) :
    (openOrders (Sender.new.generateMessages cs).2).map (fun o => (o.id, o.left)) =
      (Sender.new.generateMessages cs).1.liveOrders.map readLive := by
  induction cs using List.reverseRecOn with
  | nil => rfl
  | append_singleton pre c ih =>
      have hlast := hnever pre c List.prefix_rfl
      rw [Sender.generateMessages_concat] at hfew ⊢
      have hpre := (length_added_mono (List.prefix_append _ _)).trans_lt hfew
      have hrefs := (Sender.inRange_new.generateMessages pre).2.orders
      have hnodup := (tracks_generateMessages pre hpre).nodup
      have hold := ih (fun p d hp => hnever p d (hp.trans (List.prefix_append _ _))) hpre
      dsimp only
      rw [openOrders_concat]
      generalize (Sender.new.generateMessages pre).2 = sent at hold
      generalize (Sender.new.generateMessages pre).1 = s at hold hlast hrefs hnodup
      by_cases hadds : s.Adds c
      · rw [Sender.iteration_of_not_evicts hadds hlast, Sender.addMessage, stillOpen,
          List.map_append, hold, List.map_append]
        rfl
      · by_cases hcancels : Sender.Cancels c
        · obtain ⟨before, after, hsplit, hiter⟩ := Sender.iteration_of_cancels hadds hcancels
          rw [hsplit] at hold hrefs hnodup
          rw [hiter]
          dsimp only [stillOpen]
          rw [← filter_readLive hnodup fun y hy => (hrefs y hy).1.trans (by decide), ← hold,
            List.filter_map]
          rfl
        · rw [Sender.iteration_of_trades hadds hcancels]
          exact hold

end UltraHft.Tools.ItchSender
