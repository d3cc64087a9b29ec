import UltraHft.MarketData.Proofs.MarketDataHandler.Reachable
import UltraHft.MarketData.Proofs.OrderBook.OneOrder

/-!
# The shares of one order

Messages about a single order id, against what is left of the order.  An
execution takes its shares off what is left; a cancellation takes everything,
however few shares it names.
-/

namespace UltraHft.MarketData.MarketDataHandler

open UltraHft.Lib
open OrderBook (Holds Live Gone)

inductive ShareMessage where
  | add (shares : UInt32)
  | execute (shares : UInt32)
  | cancel (shares : UInt32)
  deriving DecidableEq

/-- The bytes are a well-sized message that names order `id` and says this. -/
def Says (id : UInt64) (data : List UInt8) : ShareMessage → Prop
  | .add shares =>
      ((Itch.MessageHeader.read data).messageType = Itch.msgAddOrder ∨
        (Itch.MessageHeader.read data).messageType = Itch.msgAddOrderMpid) ∧
      ∃ msg, Itch.AddOrderMessage.cast data = some msg ∧ msg.orderRef = id ∧
        msg.shares = shares
  | .execute shares =>
      ((Itch.MessageHeader.read data).messageType = Itch.msgExecuteOrder ∨
        (Itch.MessageHeader.read data).messageType = Itch.msgExecuteOrderWithPrice) ∧
      ∃ msg, Itch.ExecuteOrderMessage.cast data = some msg ∧ msg.orderRef = id ∧
        msg.executedShares = shares
  | .cancel shares =>
      (Itch.MessageHeader.read data).messageType = Itch.msgCancelOrder ∧
      ∃ msg, Itch.CancelOrderMessage.cast data = some msg ∧ msg.orderRef = id ∧
        msg.cancelledShares = shares

namespace ShareMessage

def IsAdd : ShareMessage → Prop
  | .add _ => True
  | _ => False

def IsCancel : ShareMessage → Prop
  | .cancel _ => True
  | _ => False

def reduction : ShareMessage → Nat
  | .add _ => 0
  | .execute shares => shares.toNat
  | .cancel shares => shares.toNat

def left (q : Nat) : ShareMessage → Nat
  | .add _ => q
  | .execute shares => q - shares.toNat
  | .cancel _ => 0

end ShareMessage

open ShareMessage

def reductions (talk : List ShareMessage) : Nat := (talk.map reduction).sum

def receive (h : MarketDataHandler C) (msgs : List (List UInt8)) :
    Option (MarketDataHandler C) :=
  Runs.exec step h (msgs.map fun data => .processMessage (some data))

/-- Of `n` shares those not executed and cancelled are left, and the order is
gone when none is. -/
def Conserves (b : OrderBook) (id : UInt64) (n reduced : Nat) : Prop :=
  (reduced < n → Live b id (n - reduced)) ∧ (n ≤ reduced → Gone b id)

section Left

variable {q : Nat} {talk : List ShareMessage}

theorem foldl_left_of_cancel (hadd : ∀ m ∈ talk, ¬ IsAdd m) (hcancel : ∃ m ∈ talk, IsCancel m) :
    talk.foldl left q = 0 := by
  have hzero : ∀ talk : List ShareMessage, talk.foldl left 0 = 0 := by
    intro talk
    induction talk with
    | nil => rfl
    | cons m talk ih => cases m <;> simpa [left] using ih
  induction talk generalizing q with
  | nil => simp at hcancel
  | cons m talk ih =>
      cases m with
      | add shares => exact (hadd _ List.mem_cons_self trivial).elim
      | cancel shares => exact hzero talk
      | execute shares =>
          apply ih fun m hm => hadd m (List.mem_cons_of_mem _ hm)
          simpa [IsCancel] using hcancel

theorem foldl_left_of_not_cancel (hcancel : ∀ m ∈ talk, ¬ IsCancel m) :
    talk.foldl left q = q - reductions talk := by
  induction talk generalizing q with
  | nil => rfl
  | cons m talk ih =>
      have ih' := fun q => ih (q := q) fun m hm => hcancel m (List.mem_cons_of_mem _ hm)
      rw [List.foldl_cons, ih']
      cases m with
      | add shares => simp [left, reductions, reduction]
      | execute shares =>
          simp only [left, reductions, reduction, List.map_cons, List.sum_cons]
          omega
      | cancel shares => exact (hcancel _ List.mem_cons_self trivial).elim

/-- The messages leave what they should unless a cancellation takes too much. -/
theorem foldl_left_eq_iff (hadd : ∀ m ∈ talk, ¬ IsAdd m) :
    talk.foldl left q = q - reductions talk ↔
      (∀ m ∈ talk, ¬ IsCancel m) ∨ q ≤ reductions talk := by
  by_cases hcancel : ∃ m ∈ talk, IsCancel m
  · rw [foldl_left_of_cancel hadd hcancel]
    have hnot : ¬ ∀ m ∈ talk, ¬ IsCancel m := by
      push Not
      exact hcancel
    simp only [hnot, false_or]
    omega
  · push Not at hcancel
    exact iff_of_true (foldl_left_of_not_cancel hcancel) (.inl hcancel)

end Left

section Run

variable {C : Type} {h : MarketDataHandler C} {id : UInt64} {q n : Nat}
  {data : List UInt8} {m : ShareMessage}

theorem conserves_iff {b : OrderBook} (hb : Holds b id q) {reduced : Nat} :
    Conserves b id n reduced ↔ q = n - reduced := by
  unfold Conserves
  by_cases hlt : reduced < n
  · rw [hb.live_iff (by omega)]
    constructor
    · intro hc
      exact hc.1 hlt
    · intro hq
      exact ⟨fun _ => hq, fun hle => by omega⟩
  · rw [hb.gone_iff]
    constructor
    · intro hc
      rw [hc.2 (by omega)]
      omega
    · intro hq
      exact ⟨fun h => (hlt h).elim, fun _ => by omega⟩

theorem processMessage_holds (hb : Holds h.orderBook_ id q) (htalk : Says id data m)
    (hadd : ¬ IsAdd m) :
    ∃ h', step h (.processMessage (some data)) = some h' ∧ Holds h'.orderBook_ id (left q m) := by
  have hstep : ∀ {b : OrderBook} {made : Option OrderBook},
      (h.processMessage (some data)).map (fun r => r.2.orderBook_) = made → made = some b →
      Holds b id (left q m) →
      ∃ h', step h (.processMessage (some data)) = some h' ∧
        Holds h'.orderBook_ id (left q m) := by
    intro b made hbook hmade hholds
    rw [hmade, Option.map_eq_some_iff] at hbook
    obtain ⟨r, hr, heq⟩ := hbook
    refine ⟨r.2, by rw [step, hr]; rfl, ?_⟩
    rw [heq]
    exact hholds
  cases m with
  | add shares => exact (hadd trivial).elim
  | execute shares =>
      obtain ⟨htype, msg, hcast, hid, hshares⟩ := htalk
      obtain ⟨executed, b', hexecute, hb'⟩ := hb.execute shares
      apply hstep (processMessage_execute htype hcast) (b := b') ?_ hb'
      rw [hid, hshares, hexecute]
      rfl
  | cancel shares =>
      obtain ⟨htype, msg, hcast, hid, _⟩ := htalk
      obtain ⟨ok, b', hcancel, hb'⟩ := hb.cancel
      apply hstep (processMessage_cancel htype hcast) (b := b') ?_ hb'
      rw [hid, hcancel]
      rfl

theorem processMessage_add_holds (hb : Holds h.orderBook_ id 0) {shares : UInt32}
    (htalk : Says id data (.add shares)) (hpos : shares.toNat ≠ 0) :
    ∃ h', step h (.processMessage (some data)) = some h' ∧
      Holds h'.orderBook_ id shares.toNat := by
  have ⟨htype, msg, hcast, hid, hshares⟩ := htalk
  have ⟨b', hadd, hb'⟩ := hb.add (o := h.orderOf msg) hid (by
    change msg.shares.toNat ≠ 0
    rw [hshares]
    exact hpos)
  have hbook := processMessage_add (h := h) htype hcast
  rw [hadd, Option.map_some, Option.map_eq_some_iff] at hbook
  have ⟨r, hr, heq⟩ := hbook
  refine ⟨r.2, by rw [step, hr]; rfl, ?_⟩
  rw [heq, ← hshares]
  exact hb'

theorem receive_cons (data : List UInt8) (msgs : List (List UInt8)) :
    h.receive (data :: msgs) =
      (step h (.processMessage (some data))).bind fun h' => h'.receive msgs := rfl

theorem receive_append (xs ys : List (List UInt8)) :
    h.receive (xs ++ ys) = (h.receive xs).bind fun h' => h'.receive ys := by
  rw [receive, List.map_append, Runs.exec_append]
  rfl

theorem receive_holds {msgs : List (List UInt8)} {talk : List ShareMessage}
    (hb : Holds h.orderBook_ id q) (htalk : List.Forall₂ (Says id) msgs talk)
    (hadd : ∀ m ∈ talk, ¬ IsAdd m) :
    ∃ h', h.receive msgs = some h' ∧ Holds h'.orderBook_ id (talk.foldl left q) := by
  induction htalk generalizing h q with
  | nil => exact ⟨h, rfl, hb⟩
  | cons hfirst _ ih =>
      have ⟨h₁, hstep, hb₁⟩ := processMessage_holds hb hfirst (hadd _ List.mem_cons_self)
      have ⟨h₂, hrest, hb₂⟩ := ih hb₁ fun m hm => hadd m (List.mem_cons_of_mem _ hm)
      refine ⟨h₂, ?_, hb₂⟩
      rw [receive_cons, hstep, Option.bind_some, hrest]

theorem receive_add_holds {msgs : List (List UInt8)} {before after : List ShareMessage}
    {shares : UInt32} (hb : Holds h.orderBook_ id 0)
    (htalk : List.Forall₂ (Says id) msgs (before ++ .add shares :: after))
    (hbefore : ∀ m ∈ before, ¬ IsAdd m) (hafter : ∀ m ∈ after, ¬ IsAdd m)
    (hpos : shares.toNat ≠ 0) :
    ∃ h', h.receive msgs = some h' ∧
      Holds h'.orderBook_ id (after.foldl left shares.toNat) := by
  have hxs := List.forall₂_take_append msgs before (.add shares :: after) htalk
  have hys := List.forall₂_drop_append msgs before (.add shares :: after) htalk
  have ⟨data, rest, hadd, hrest, hdrop⟩ := List.forall₂_cons_right_iff.mp hys
  have ⟨h₁, hfirst, hb₁⟩ := receive_holds hb hxs hbefore
  have hnone : before.foldl left 0 = 0 := by
    by_cases hcancel : ∃ m ∈ before, IsCancel m
    · exact foldl_left_of_cancel hbefore hcancel
    · push Not at hcancel
      rw [foldl_left_of_not_cancel hcancel, Nat.zero_sub]
  rw [hnone] at hb₁
  have ⟨h₂, hstep, hb₂⟩ := processMessage_add_holds hb₁ hadd hpos
  have ⟨h₃, hlast, hb₃⟩ := receive_holds hb₂ hrest hafter
  refine ⟨h₃, ?_, hb₃⟩
  rw [← List.take_append_drop before.length msgs, hdrop, receive_append, hfirst,
    Option.bind_some, receive_cons, hstep, Option.bind_some, hlast]

end Run

/-- **The shares of an order are conserved exactly when no cancellation follows
its add, or when executions and cancellations name all of its shares anyway.** -/
theorem conserves_iff_noPartialCancel {C : Type} {instrumentId : UInt32} {id : UInt64}
    (h : MarketDataHandler C) (hnew : h.orderBook_ = OrderBook.new instrumentId)
    (msgs : List (List UInt8)) (before after : List ShareMessage) (shares : UInt32)
    (htalk : List.Forall₂ (Says id) msgs (before ++ .add shares :: after))
    (hbefore : ∀ m ∈ before, ¬ IsAdd m) (hafter : ∀ m ∈ after, ¬ IsAdd m)
    (hpos : 0 < shares.toNat) :
    (∃ h', h.receive msgs = some h' ∧
      Conserves h'.orderBook_ id shares.toNat (reductions after)) ↔
      (∀ m ∈ after, ¬ IsCancel m) ∨ shares.toNat ≤ reductions after := by
  have hb : Holds h.orderBook_ id 0 := by
    rw [hnew]
    exact OrderBook.holds_new instrumentId id
  have ⟨h', hreceive, hb'⟩ := receive_add_holds hb htalk hbefore hafter (by omega)
  rw [← foldl_left_eq_iff hafter, ← conserves_iff hb', hreceive]
  simp

def addHundred : List UInt8 :=
  Bytes.toLE 2 41 ++ ['A'.toUInt8, 0] ++ Bytes.toLE 4 0 ++ Bytes.toLE 8 101 ++ ['B'.toUInt8] ++
    Bytes.toLE 4 100 ++ List.replicate 8 ' '.toUInt8 ++ Bytes.toLE 8 10000000 ++ Bytes.toLE 4 1

def cancelShares (shares : Nat) : List UInt8 :=
  Bytes.toLE 2 20 ++ ['X'.toUInt8, 0] ++ Bytes.toLE 4 0 ++ Bytes.toLE 8 101 ++
    Bytes.toLE 4 shares

theorem conserves_iff_noPartialCancel_fullCancel :
    ∃ h', (new Unit 1).receive [addHundred, cancelShares 100] = some h' ∧
      Conserves h'.orderBook_ 101 100 100 :=
  (conserves_iff_noPartialCancel (new Unit 1) rfl [addHundred, cancelShares 100] []
    [.cancel 100] 100
    (.cons ⟨.inl (by decide), _, rfl, by decide, by decide⟩
      (.cons ⟨by decide, _, rfl, by decide, by decide⟩ .nil))
    (by simp) (by simp [IsAdd]) (by decide)).mpr (.inr (by decide))

/-- Forty of a hundred shares are cancelled, and all of them are gone. -/
theorem partialCancel_removes :
    ¬ ∀ (id : UInt64) (msgs : List (List UInt8)) (before after : List ShareMessage)
      (shares : UInt32), List.Forall₂ (Says id) msgs (before ++ .add shares :: after) →
      (∀ m ∈ before, ¬ IsAdd m) → (∀ m ∈ after, ¬ IsAdd m) → 0 < shares.toNat →
      ∃ h', (new Unit 1).receive msgs = some h' ∧
        Conserves h'.orderBook_ id shares.toNat (reductions after) := by
  intro hall
  have htalk : List.Forall₂ (Says 101) [addHundred, cancelShares 40]
      ([] ++ .add 100 :: [.cancel 40]) :=
    .cons ⟨.inl (by decide), _, rfl, by decide, by decide⟩
      (.cons ⟨by decide, _, rfl, by decide, by decide⟩ .nil)
  have ⟨h', hreceive, hconserves⟩ := hall 101 _ [] [.cancel 40] 100 htalk (by simp)
    (by simp [IsAdd]) (by decide)
  have ⟨h'', hreceive', hb⟩ := receive_add_holds (h := new Unit 1)
    (OrderBook.holds_new 1 101) htalk (by simp) (by simp [IsAdd]) (by decide)
  obtain rfl := Option.some.inj (hreceive.symm.trans hreceive')
  rw [conserves_iff hb] at hconserves
  exact absurd hconserves (by decide)

end UltraHft.MarketData.MarketDataHandler
