import UltraHft.MarketData.MessageReads

/-!
# Reading a message in place

In place, `process_message` does what it does with the bytes of the buffer, and
it reads no byte outside the buffer: each struct is cast only where all of it is
there.
-/

namespace UltraHft.MarketData

open UltraHft.Lib UltraHft.Lib.Reads Itch

variable {C M : Type} {mem : Nat → UInt8} {data size availableSize off w k : Nat}
  {l : List UInt8} {h : MarketDataHandler C}

namespace Itch

theorem field_take (hk : off + w ≤ k) : Bytes.field off w (l.take k) = Bytes.field off w l := by
  rw [Bytes.field, Bytes.field, List.drop_take, List.take_take, Nat.min_eq_left (by omega)]

/-- A cast that asks for `size` bytes and looks at no others. -/
structure Sized (size : Nat) (cast : List UInt8 → Option M) : Prop where
  short : ∀ l, l.length < size → cast l = none
  take : ∀ l, cast (l.take size) = cast l

theorem castMessage_sized {read : List UInt8 → M} (hread : ∀ l, read (l.take size) = read l) :
    Sized size (castMessage size read) := by
  constructor
  · intro l hl
    exact if_pos hl
  · intro l
    unfold castMessage
    by_cases hsize : l.length < size
    · rw [List.take_of_length_le (by omega)]
    · have hlength : (l.take size).length = size := List.length_take_of_le (by omega)
      rw [if_neg hsize, if_neg (by omega), hread]

theorem AddOrderMessage.cast_sized : Sized 41 AddOrderMessage.cast := by
  apply castMessage_sized
  intro l
  simp only [u8, u16, u32, u64, field_take, Nat.reduceAdd, Nat.reduceLeDiff, List.drop_take,
    List.take_take, Nat.reduceSub, Nat.min_def, if_true]

theorem ExecuteOrderMessage.cast_sized : Sized 36 ExecuteOrderMessage.cast := by
  apply castMessage_sized
  intro l
  simp only [u8, u16, u32, u64, field_take, Nat.reduceAdd, Nat.reduceLeDiff]

theorem CancelOrderMessage.cast_sized : Sized 20 CancelOrderMessage.cast := by
  apply castMessage_sized
  intro l
  simp only [u8, u16, u32, u64, field_take, Nat.reduceAdd, Nat.reduceLeDiff]

theorem DeleteOrderMessage.cast_sized : Sized 16 DeleteOrderMessage.cast := by
  apply castMessage_sized
  intro l
  simp only [u8, u16, u32, u64, field_take, Nat.reduceAdd, Nat.reduceLeDiff]

theorem ReplaceOrderMessage.cast_sized : Sized 36 ReplaceOrderMessage.cast := by
  apply castMessage_sized
  intro l
  simp only [u8, u16, u32, u64, field_take, Nat.reduceAdd, Nat.reduceLeDiff]

theorem TradeMessage.cast_sized : Sized 42 TradeMessage.cast := by
  apply castMessage_sized
  intro l
  simp only [u8, u16, u32, u64, field_take, Nat.reduceAdd, Nat.reduceLeDiff, List.drop_take,
    List.take_take, Nat.reduceSub, Nat.min_def, if_true]

theorem MessageHeader.read_take (l : List UInt8) :
    MessageHeader.read (l.take 3) = MessageHeader.read l := by
  simp only [MessageHeader.read, u8, u16, field_take, Nat.reduceAdd, Nat.reduceLeDiff]

theorem eval_castMessageAt {cast : List UInt8 → Option M} (hcast : Sized size cast) :
    eval mem (castMessageAt size cast data availableSize) =
      some (cast (slice mem data availableSize)) := by
  unfold castMessageAt
  by_cases hsize : availableSize < size
  · have hshort := hcast.short (slice mem data availableSize) (by simpa using hsize)
    rw [if_pos hsize, hshort]
    rfl
  · have htake : (slice mem data availableSize).take size = slice mem data size :=
      take_slice (by omega)
    rw [if_neg hsize, ← hcast.take, htake]
    simp

theorem within_castMessageAt {cast : List UInt8 → Option M} :
    Within mem (Set.Ico data (data + availableSize))
      (castMessageAt size cast data availableSize) := by
  apply within_ite
  · intro _
    exact within_pure none
  · intro hsize
    apply within_bind
    · apply within_bytes
      intro i hi
      exact ⟨by omega, by omega⟩
    · intro bytes _
      exact within_pure _

end Itch

namespace MarketDataHandler

theorem eval_dispatchAt {msg : Reads (Option M)} {cast : Option M}
    {process : M → Option (MarketDataHandler C)} (hmsg : eval mem msg = some cast) :
    eval mem (h.dispatchAt msg process) = h.dispatch cast process := by
  simp [dispatchAt, hmsg]

/-- In place, a message is processed as its bytes are. -/
theorem eval_processMessageAt (h : MarketDataHandler C) (data size : Nat) :
    eval mem (h.processMessageAt (some data) size) =
      h.processMessage (some (slice mem data size)) := by
  unfold processMessageAt processMessage
  simp only [length_slice]
  by_cases hsize : size < 3
  · simp [hsize]
  · have htake : (slice mem data size).take 3 = slice mem data 3 := take_slice (by omega)
    have hheader := MessageHeader.read_take (slice mem data size)
    rw [htake] at hheader
    simp only [hsize, if_false, eval_bind, eval_bytes, Option.bind_some, hheader, eval_ite]
    rw [eval_dispatchAt (eval_castMessageAt AddOrderMessage.cast_sized),
      eval_dispatchAt (eval_castMessageAt ExecuteOrderMessage.cast_sized),
      eval_dispatchAt (eval_castMessageAt CancelOrderMessage.cast_sized),
      eval_dispatchAt (eval_castMessageAt DeleteOrderMessage.cast_sized),
      eval_dispatchAt (eval_castMessageAt ReplaceOrderMessage.cast_sized),
      eval_dispatchAt (eval_castMessageAt TradeMessage.cast_sized)]
    rfl

theorem within_dispatchAt {s : Set Nat} {msg : Reads (Option M)}
    {process : M → Option (MarketDataHandler C)} (hmsg : Within mem s msg) :
    Within mem s (h.dispatchAt msg process) := by
  apply within_bind hmsg
  intro cast _
  exact within_ofOption _

/-- The header and the struct that the type selects lie inside the buffer. -/
theorem within_processMessageAt (h : MarketDataHandler C) (data size : Nat) :
    Within mem (Set.Ico data (data + size)) (h.processMessageAt (some data) size) := by
  apply within_ite
  · intro _
    exact within_pure _
  · intro hsize
    apply within_bind
    · apply within_bytes
      intro i hi
      exact ⟨by omega, by omega⟩
    · intro header _
      repeat' apply within_ite <;> intro _
      all_goals first
        | exact within_dispatchAt within_castMessageAt
        | exact within_pure _

end MarketDataHandler

end UltraHft.MarketData
