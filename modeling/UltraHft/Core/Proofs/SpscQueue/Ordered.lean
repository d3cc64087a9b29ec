import UltraHft.Core.SpscQueueOrders
import UltraHft.Core.Proofs.SpscQueue.Fifo

/-!
# The queue needs no more than its memory orders

The messages of the two indices are numbered: the `k`-th one of the tail is left
by a producer that has copied `k` elements, and the `k`-th one of the head by a
consumer that has copied `k` elements out.  A client that acquires one of them
knows that these copies are made, however old the message is.
-/

namespace UltraHft.Core.SpscQueue

open UltraHft.Lib UltraHft.Lib.ReleaseAcquire
open UltraHft.Lib.Linearizability (Event record)

variable {T : Type}

/-! ## What a step can be -/

section Moves

variable {N time : Nat} {s s' : Ordered T}

inductive OrderedPush (N : Nat) (s : Ordered T) (time : Nat) : Ordered T → Prop
  | loadTail (ele : T) (t : Nat) (view : View Index Client) (hpc : s.producer = .loadTail ele)
      (hload : s.memory.load .relaxed .tail time (s.views .producer) = some (t, view)) :
      OrderedPush N s time { s.look .producer view with producer := .loadHead ele t }
  | full (ele : T) (t h : Nat) (view : View Index Client) (hpc : s.producer = .loadHead ele t)
      (hload : s.memory.load .acquire .head time (s.views .producer) = some (h, view)) :
      OrderedPush N s time { s.look .producer view with producer := .done ele false }
  | room (ele : T) (t h : Nat) (view : View Index Client) (hpc : s.producer = .loadHead ele t)
      (hload : s.memory.load .acquire .head time (s.views .producer) = some (h, view))
      (hroom : (t + 1) % N ≠ h) :
      OrderedPush N s time { s.look .producer view with producer := .copy ele t }
  | copy (ele : T) (t : Nat) (hpc : s.producer = .copy ele t) :
      OrderedPush N s time
        { s.look .producer (s.memory.writeData .producer t ele (s.views .producer)).2 with
          memory := (s.memory.writeData .producer t ele (s.views .producer)).1
          producer := .store ele t }
  | store (ele : T) (t : Nat) (memory : Memory Index Nat Client Nat T)
      (view : View Index Client) (hpc : s.producer = .store ele t)
      (hstore : s.memory.store .release .tail time ((t + 1) % N) (s.views .producer) =
        some (memory, view)) :
      OrderedPush N s time
        { s.look .producer view with memory := memory, producer := .done ele true }

theorem orderedPush (h : s.pushStep N time = some s') : OrderedPush N s time s' := by
  unfold Ordered.pushStep at h
  cases hpc : s.producer with
  | idle => simp [hpc] at h
  | done ele ok => simp [hpc] at h
  | loadTail ele =>
      rw [hpc] at h
      obtain ⟨⟨t, view⟩, hload, heq⟩ := Option.bind_eq_some_iff.mp h
      rw [← Option.some.inj heq]
      exact .loadTail ele t view hpc hload
  | loadHead ele t =>
      rw [hpc] at h
      obtain ⟨⟨i, view⟩, hload, heq⟩ := Option.bind_eq_some_iff.mp h
      dsimp only at heq
      split_ifs at heq with hfull
      · rw [← Option.some.inj heq]
        exact .full ele t i view hpc hload
      · rw [← Option.some.inj heq]
        exact .room ele t i view hpc hload hfull
  | copy ele t =>
      rw [hpc] at h
      rw [← Option.some.inj h]
      exact .copy ele t hpc
  | store ele t =>
      rw [hpc] at h
      obtain ⟨⟨memory, view⟩, hstore, heq⟩ := Option.bind_eq_some_iff.mp h
      rw [← Option.some.inj heq]
      exact .store ele t memory view hpc hstore

inductive OrderedPop (N : Nat) (s : Ordered T) (time : Nat) : Ordered T → Prop
  | loadTail (t : Nat) (view : View Index Client) (hpc : s.consumer = .loadTail)
      (hload : s.memory.load .acquire .tail time (s.views .consumer) = some (t, view)) :
      OrderedPop N s time { s.look .consumer view with consumer := .loadHead t }
  | empty (t : Nat) (view : View Index Client) (hpc : s.consumer = .loadHead t)
      (hload : s.memory.load .relaxed .head time (s.views .consumer) = some (t, view)) :
      OrderedPop N s time { s.look .consumer view with consumer := .done none }
  | elements (t h : Nat) (view : View Index Client) (hpc : s.consumer = .loadHead t)
      (hload : s.memory.load .relaxed .head time (s.views .consumer) = some (h, view))
      (hne : t ≠ h) :
      OrderedPop N s time { s.look .consumer view with consumer := .copy h }
  | copy (h : Nat) (hpc : s.consumer = .copy h) :
      OrderedPop N s time
        { s.look .consumer (s.memory.readData .consumer h (s.views .consumer)).2.2 with
          memory := (s.memory.readData .consumer h (s.views .consumer)).2.1
          consumer := .store h (s.memory.data h) }
  | store (h : Nat) (ele : T) (memory : Memory Index Nat Client Nat T)
      (view : View Index Client) (hpc : s.consumer = .store h ele)
      (hstore : s.memory.store .release .head time ((h + 1) % N) (s.views .consumer) =
        some (memory, view)) :
      OrderedPop N s time
        { s.look .consumer view with memory := memory, consumer := .done (some ele) }

theorem orderedPop (h : s.popStep N time = some s') : OrderedPop N s time s' := by
  unfold Ordered.popStep at h
  cases hpc : s.consumer with
  | idle => simp [hpc] at h
  | done r => simp [hpc] at h
  | loadTail =>
      rw [hpc] at h
      obtain ⟨⟨t, view⟩, hload, heq⟩ := Option.bind_eq_some_iff.mp h
      rw [← Option.some.inj heq]
      exact .loadTail t view hpc hload
  | loadHead t =>
      rw [hpc] at h
      obtain ⟨⟨i, view⟩, hload, heq⟩ := Option.bind_eq_some_iff.mp h
      dsimp only at heq
      split_ifs at heq with hempty
      · subst hempty
        rw [← Option.some.inj heq]
        exact .empty t view hpc hload
      · rw [← Option.some.inj heq]
        exact .elements t i view hpc hload hempty
  | copy i =>
      rw [hpc] at h
      rw [← Option.some.inj h]
      exact .copy i hpc
  | store i ele =>
      rw [hpc] at h
      obtain ⟨⟨memory, view⟩, hstore, heq⟩ := Option.bind_eq_some_iff.mp h
      rw [← Option.some.inj heq]
      exact .store i ele memory view hpc hstore

end Moves

/-! ## The invariant -/

def owner : Index → Client
  | .head => .consumer
  | .tail => .producer

def copied : PushState T → List T
  | .store ele _ => [ele]
  | _ => []

/-- How many elements the consumer has copied out and not released. -/
def ahead : PopState T → Nat
  | .store _ _ => 1
  | _ => 0

/-- What the local variables of a running `push` say, when `j` releases are known. -/
def PushKnows (N : Nat) (vals : List T) (j : Nat) : PushState T → Prop
  | .loadHead _ t => t = vals.length % N
  | .copy _ t => t = vals.length % N ∧ vals.length + 1 < j + N
  | .store _ t => t = vals.length % N ∧ vals.length + 1 < j + N
  | _ => True

/-- What the local variables of a running `pop` say, when `k` elements are known. -/
def PopKnows (N : Nat) (vals : List T) (c k : Nat) : PopState T → Prop
  | .loadHead t => t = k % N
  | .copy h => h = c % N ∧ c < k
  | .store h ele => h = c % N ∧ c < k ∧ vals[c]? = some ele
  | _ => True

/-- The producer has seen the `j`-th message of the head, and all that came before. -/
structure ProducerSees (N : Nat) (vals : List T) (heads : List Nat)
    (view : View Index Client) (p : PushState T) (j : Nat) : Prop where
  seen : heads[j]? = some (view (.inl .head))
  acquired : j ≤ view (.inr .consumer)
  bound : vals.length < j + N
  knows : PushKnows N vals j p

/-- The consumer has seen the `k`-th message of the tail, and all that came before. -/
structure ConsumerSees (N : Nat) (vals : List T) (c : Nat) (tails : List Nat)
    (view : View Index Client) (q : PopState T) (k : Nat) : Prop where
  seen : tails[k]? = some (view (.inl .tail))
  acquired : k ≤ view (.inr .producer)
  released : c ≤ k
  knows : PopKnows N vals c k q

theorem ConsumerSees.append {N : Nat} {vals : List T} {c k : Nat} {tails : List Nat}
    {view : View Index Client} {q : PopState T} (hk : ConsumerSees N vals c tails view q k)
    (ele : T) (time : Nat) :
    ConsumerSees N (vals ++ [ele]) c (tails ++ [time]) view q k := by
  refine ⟨?_, hk.acquired, hk.released, ?_⟩
  · rw [List.getElem?_append_left (Numbered.index_lt hk.seen)]
    exact hk.seen
  · have hknows := hk.knows
    cases q with
    | store i x =>
        obtain ⟨hi, hlt, hx⟩ : i = c % N ∧ c < k ∧ vals[c]? = some x := hknows
        refine ⟨hi, hlt, ?_⟩
        rw [List.getElem?_append_left (List.getElem?_eq_some_iff.mp hx).1]
        exact hx
    | idle => trivial
    | loadTail => trivial
    | loadHead t => exact hknows
    | copy i => exact hknows
    | done r => trivial

/-- `vals` are the elements made visible so far, `c` counts those released, and
the two lists have the times of the messages. -/
structure OrderedInv (N : Nat) (s : Ordered T) (vals : List T) (c : Nat)
    (tails heads : List Nat) : Prop where
  coherent : Memory.Coherent owner s.memory s.views
  tails_length : tails.length = vals.length + 1
  heads_length : heads.length = c + 1
  tail : Numbered (s.memory.history .tail) tails (s.views .producer (.inl .tail))
    fun k m => m.value = k % N ∧ k ≤ m.view (.inr .producer)
  head : Numbered (s.memory.history .head) heads (s.views .consumer (.inl .head))
    fun k m => m.value = k % N ∧ k ≤ m.view (.inr .consumer)
  copies : s.views .producer (.inr .producer) = (vals ++ copied s.producer).length
  reads : s.views .consumer (.inr .consumer) = c + ahead s.consumer
  written : ∀ d, (s.memory.written d).1 = .producer ∧
    (s.memory.written d).2 ≤ s.views .producer (.inr .producer)
  stored : ∀ i ele, (vals ++ copied s.producer)[i]? = some ele →
    (vals ++ copied s.producer).length ≤ i + N →
      s.memory.data (i % N) = ele ∧ s.memory.written (i % N) = (.producer, i + 1)
  read : ∀ d, s.memory.read d .producer = 0 ∧ (s.memory.read d .consumer = 0 ∨
    ∃ i, s.memory.read d .consumer = i + 1 ∧ i % N = d ∧ i < c + ahead s.consumer)
  producer : ∃ j, ProducerSees N vals heads (s.views .producer) s.producer j
  consumer : ∃ k, ConsumerSees N vals c tails (s.views .consumer) s.consumer k

namespace OrderedInv

variable {N : Nat} {s s' : Ordered T} {vals : List T} {c : Nat} {tails heads : List Nat}

theorem new (hN : 0 < N) (ptr : Nat → T) : OrderedInv N (.new ptr) [] 0 [0] [0] := by
  have hnumbered : ∀ (a : Index) (x : Client), Numbered ((Ordered.new ptr).memory.history a) [0] 0
      fun k m => m.value = k % N ∧ k ≤ m.view (.inr x) := by
    intro a x
    refine ⟨List.pairwise_singleton _ _, rfl, ?_⟩
    intro t m hm
    change (if t = 0 then some _ else none) = some m at hm
    split_ifs at hm with ht
    rw [← Option.some.inj hm, ht]
    exact ⟨0, rfl, (Nat.zero_mod N).symm, Nat.zero_le _⟩
  refine ⟨Memory.coherent_initial _ _, rfl, rfl, hnumbered .tail .producer,
    hnumbered .head .consumer, rfl, rfl, fun _ => ⟨rfl, Nat.zero_le _⟩, ?_,
    fun _ => ⟨rfl, .inl rfl⟩, ⟨0, rfl, Nat.zero_le _, ?_, trivial⟩,
    ⟨0, rfl, Nat.zero_le _, Nat.le_refl 0, trivial⟩⟩
  · intro i ele hele
    cases hele
  · simpa using hN

theorem released (h : OrderedInv N s vals c tails heads) : c ≤ vals.length := by
  obtain ⟨k, hk⟩ := h.consumer
  have hlt := Numbered.index_lt hk.seen
  have hle := hk.released
  have hlength := h.tails_length
  omega

theorem bound (h : OrderedInv N s vals c tails heads) : vals.length < c + N := by
  obtain ⟨j, hj⟩ := h.producer
  have hlt := Numbered.index_lt hj.seen
  have hbound := hj.bound
  have hlength := h.heads_length
  omega

theorem copied_bound (h : OrderedInv N s vals c tails heads) :
    (vals ++ copied s.producer).length ≤ c + N := by
  obtain ⟨j, hj⟩ := h.producer
  have hlt := Numbered.index_lt hj.seen
  have hlength := h.heads_length
  have hbound := h.bound
  have hknows := hj.knows
  rw [List.length_append]
  cases hpc : s.producer with
  | store ele t =>
      rw [hpc] at hknows
      have hroom : vals.length + 1 < j + N := hknows.2
      change vals.length + 1 ≤ c + N
      omega
  | idle => exact hbound.le
  | loadTail ele => exact hbound.le
  | loadHead ele t => exact hbound.le
  | copy ele t => exact hbound.le
  | done ele ok => exact hbound.le

/-- No element is copied out that is not visible. -/
theorem ahead_le (h : OrderedInv N s vals c tails heads) :
    c + ahead s.consumer ≤ vals.length := by
  obtain ⟨k, hk⟩ := h.consumer
  have hlt := Numbered.index_lt hk.seen
  have hlength := h.tails_length
  have hreleased := h.released
  have hknows := hk.knows
  cases hpc : s.consumer with
  | store i ele =>
      rw [hpc] at hknows
      have hck : c < k := hknows.2.1
      change c + 1 ≤ vals.length
      omega
  | idle => exact hreleased
  | loadTail => exact hreleased
  | loadHead t => exact hreleased
  | copy i => exact hreleased
  | done r => exact hreleased

theorem producerLooks (h : OrderedInv N s vals c tails heads) {view : View Index Client}
    {p : PushState T} {j : Nat}
    (hcoherent : Memory.Coherent owner s.memory (Function.update s.views .producer view))
    (htail : view (.inl .tail) = s.views .producer (.inl .tail))
    (hclock : view (.inr .producer) = s.views .producer (.inr .producer))
    (hcopied : copied p = copied s.producer) (hsees : ProducerSees N vals heads view p j) :
    OrderedInv N { s.look .producer view with producer := p } vals c tails heads where
  coherent := hcoherent
  tails_length := h.tails_length
  heads_length := h.heads_length
  tail := by
    change Numbered (s.memory.history .tail) tails (view (.inl .tail)) _
    rw [htail]
    exact h.tail
  head := h.head
  copies := by
    change view (.inr .producer) = (vals ++ copied p).length
    rw [hclock, hcopied]
    exact h.copies
  reads := h.reads
  written := by
    intro d
    change (s.memory.written d).1 = .producer ∧ (s.memory.written d).2 ≤ view (.inr .producer)
    rw [hclock]
    exact h.written d
  stored := by
    change ∀ i ele, (vals ++ copied p)[i]? = some ele → (vals ++ copied p).length ≤ i + N → _
    rw [hcopied]
    exact h.stored
  read := h.read
  producer := ⟨j, hsees⟩
  consumer := h.consumer

theorem consumerLooks (h : OrderedInv N s vals c tails heads) {view : View Index Client}
    {q : PopState T} {k : Nat}
    (hcoherent : Memory.Coherent owner s.memory (Function.update s.views .consumer view))
    (hhead : view (.inl .head) = s.views .consumer (.inl .head))
    (hclock : view (.inr .consumer) = s.views .consumer (.inr .consumer))
    (hahead : ahead q = ahead s.consumer) (hsees : ConsumerSees N vals c tails view q k) :
    OrderedInv N { s.look .consumer view with consumer := q } vals c tails heads where
  coherent := hcoherent
  tails_length := h.tails_length
  heads_length := h.heads_length
  tail := h.tail
  head := by
    change Numbered (s.memory.history .head) heads (view (.inl .head)) _
    rw [hhead]
    exact h.head
  copies := h.copies
  reads := by
    change view (.inr .consumer) = c + ahead q
    rw [hclock, hahead]
    exact h.reads
  written := h.written
  stored := h.stored
  read := by
    change ∀ d, _ ∧ (_ ∨ ∃ i, _ ∧ _ ∧ i < c + ahead q)
    rw [hahead]
    exact h.read
  producer := h.producer
  consumer := ⟨k, hsees⟩

theorem acquireHead (h : OrderedInv N s vals c tails heads) {time i : Nat}
    {view : View Index Client}
    (hload : s.memory.load .acquire .head time (s.views .producer) = some (i, view)) :
    ∃ j, i = j % N ∧ ∀ p, PushKnows N vals j p → ProducerSees N vals heads view p j := by
  obtain ⟨j, hj⟩ := h.producer
  obtain ⟨m, hm, rfl, hle, hview⟩ := Memory.load_acquire hload
  obtain ⟨j', hj', hvalue, hreads⟩ := h.head.complete time m hm
  have hmono := h.head.le_of_le hj.seen hj' hle
  have hbound := hj.bound
  refine ⟨j', hvalue, fun p hp => ⟨?_, hreads.trans (hview (.inr .consumer)), by omega, hp⟩⟩
  rw [h.coherent.load_seen hload]
  exact hj'

theorem acquireTail (h : OrderedInv N s vals c tails heads) {time i : Nat}
    {view : View Index Client}
    (hload : s.memory.load .acquire .tail time (s.views .consumer) = some (i, view)) :
    ∃ k, i = k % N ∧ ∀ q, PopKnows N vals c k q → ConsumerSees N vals c tails view q k := by
  obtain ⟨k, hk⟩ := h.consumer
  obtain ⟨m, hm, rfl, hle, hview⟩ := Memory.load_acquire hload
  obtain ⟨k', hk', hvalue, hcopies⟩ := h.tail.complete time m hm
  have hmono := h.tail.le_of_le hk.seen hk' hle
  have hreleased := hk.released
  refine ⟨k', hvalue, fun q hq => ⟨?_, hcopies.trans (hview (.inr .producer)), by omega, hq⟩⟩
  rw [h.coherent.load_seen hload]
  exact hk'

theorem copyIn (h : OrderedInv N s vals c tails heads) {ele : T} {t : Nat}
    (hpc : s.producer = .copy ele t) :
    OrderedInv N
      { s.look .producer (s.memory.writeData .producer t ele (s.views .producer)).2 with
        memory := (s.memory.writeData .producer t ele (s.views .producer)).1
        producer := .store ele t } vals c tails heads := by
  obtain ⟨j, hj⟩ := h.producer
  have hknows := hj.knows
  have hclock := h.copies
  have hstored := h.stored
  rw [hpc] at hknows hclock hstored
  obtain ⟨ht, hroom⟩ : t = vals.length % N ∧ vals.length + 1 < j + N := hknows
  change s.views .producer (.inr .producer) = (vals ++ []).length at hclock
  change ∀ i x, (vals ++ [])[i]? = some x → (vals ++ []).length ≤ i + N → _ at hstored
  rw [List.append_nil] at hclock hstored
  have hstep : ∀ x, x ≠ .inr .producer →
      Memory.advance .producer (s.views .producer) x = s.views .producer x :=
    fun x hx => Function.update_of_ne hx ..
  have hnext : Memory.advance .producer (s.views .producer) (.inr .producer) = vals.length + 1 := by
    rw [Memory.advance, Function.update_self, hclock]
  have hjlt := Numbered.index_lt hj.seen
  have hheads := h.heads_length
  have hreleased := h.released
  refine ⟨h.coherent.writeData .producer t ele, h.tails_length, h.heads_length, ?_, h.head, ?_,
    h.reads, ?_, ?_, h.read, ⟨j, ?_, ?_, hj.bound, ht, hroom⟩, h.consumer⟩
  · change Numbered _ tails (Memory.advance .producer (s.views .producer) (.inl .tail)) _
    rw [hstep _ (by decide)]
    exact h.tail
  · change Memory.advance .producer (s.views .producer) (.inr .producer) = (vals ++ [ele]).length
    rw [hnext, List.length_append]
    rfl
  · intro d
    obtain ⟨hwho, hwhen⟩ := h.written d
    change (Function.update s.memory.written t (.producer, s.views .producer (.inr .producer) + 1)
        d).1 = .producer ∧ (Function.update s.memory.written t
          (.producer, s.views .producer (.inr .producer) + 1) d).2 ≤
      Memory.advance .producer (s.views .producer) (.inr .producer)
    by_cases hd : d = t
    · subst hd
      rw [Function.update_self, hnext, hclock]
      exact ⟨rfl, Nat.le_refl _⟩
    · rw [Function.update_of_ne hd, hnext]
      exact ⟨hwho, by omega⟩
  · intro i x hx hfits
    change (vals ++ [ele])[i]? = some x at hx
    change (vals ++ [ele]).length ≤ i + N at hfits
    change Function.update s.memory.data t ele (i % N) = x ∧
      Function.update s.memory.written t (.producer, s.views .producer (.inr .producer) + 1)
        (i % N) = (.producer, i + 1)
    rw [List.length_append, List.length_singleton] at hfits
    rcases Nat.lt_trichotomy i vals.length with hlt | rfl | hgt
    · have hne : i % N ≠ t := by
        rw [ht, Ne, mod_inj (c := i) (Nat.le_refl i) (by omega) hlt.le (by omega)]
        omega
      rw [Function.update_of_ne hne, Function.update_of_ne hne]
      rw [List.getElem?_append_left hlt] at hx
      exact hstored i x hx (by omega)
    · rw [← ht, Function.update_self, Function.update_self, hclock]
      rw [List.getElem?_concat_length] at hx
      exact ⟨Option.some.inj hx, rfl⟩
    · rw [List.getElem?_eq_none (by simp; omega)] at hx
      cases hx
  · change heads[j]? = some (Memory.advance .producer (s.views .producer) (.inl .head))
    rw [hstep _ (by decide)]
    exact hj.seen
  · change j ≤ Memory.advance .producer (s.views .producer) (.inr .consumer)
    rw [hstep _ (by decide)]
    exact hj.acquired

theorem storeTail (h : OrderedInv N s vals c tails heads) {ele : T} {t time : Nat}
    {memory : Memory Index Nat Client Nat T} {view : View Index Client}
    (hpc : s.producer = .store ele t)
    (hstore : s.memory.store .release .tail time ((t + 1) % N) (s.views .producer) =
      some (memory, view)) :
    OrderedInv N { s.look .producer view with memory := memory, producer := .done ele true }
      (vals ++ [ele]) c (tails ++ [time]) heads := by
  obtain ⟨j, hj⟩ := h.producer
  obtain ⟨k, hk⟩ := h.consumer
  have hknows := hj.knows
  have hclock := h.copies
  have hstored := h.stored
  rw [hpc] at hknows hclock hstored
  obtain ⟨ht, hroom⟩ : t = vals.length % N ∧ vals.length + 1 < j + N := hknows
  have hcoherent := h.coherent.store (i := .producer) rfl hstore
  obtain ⟨hlt, -, hview, hmemory⟩ := Memory.store_cases hstore
  have hsame : ∀ x, x ≠ .inl .tail → view x = s.views .producer x := by
    intro x hx
    rw [hview, Function.update_of_ne hx]
  have hnow : view (.inl .tail) = time := by
    rw [hview, Function.update_self]
  subst hmemory
  have hlength : (vals ++ [ele] ++ ([] : List T)).length = vals.length + 1 := by
    rw [List.append_nil, List.length_append]
    rfl
  refine ⟨hcoherent, ?_, h.heads_length, ?_, h.head, ?_, h.reads, ?_, ?_, h.read,
    ⟨j, ?_, ?_, ?_, trivial⟩, ⟨k, hk.append ele time⟩⟩
  · rw [List.length_append, List.length_append, h.tails_length]
    rfl
  · change Numbered (Function.update (s.memory.history .tail) time (some _)) (tails ++ [time])
      (view (.inl .tail)) _
    rw [hnow]
    refine h.tail.append hlt ⟨?_, ?_⟩
    · rw [h.tails_length, ht]
      exact succ_mod N vals.length
    · change tails.length ≤ view (.inr .producer)
      rw [h.tails_length, hsame _ (by decide), hclock, List.length_append]
      exact Nat.le_refl _
  · change view (.inr .producer) = (vals ++ [ele] ++ []).length
    rw [hsame _ (by decide), hclock, List.append_nil]
    rfl
  · intro d
    change (s.memory.written d).1 = .producer ∧ (s.memory.written d).2 ≤ view (.inr .producer)
    rw [hsame _ (by decide)]
    exact h.written d
  · change ∀ i x, (vals ++ [ele] ++ [])[i]? = some x → (vals ++ [ele] ++ []).length ≤ i + N → _
    rw [List.append_nil]
    exact hstored
  · change heads[j]? = some (view (.inl .head))
    rw [hsame _ (by decide)]
    exact hj.seen
  · change j ≤ view (.inr .consumer)
    rw [hsame _ (by decide)]
    exact hj.acquired
  · rw [List.length_append]
    exact hroom

theorem pushMove (h : OrderedInv N s vals c tails heads) {time : Nat}
    (hmove : OrderedPush N s time s') :
    (OrderedInv N s' vals c tails heads ∧ s'.consumer = s.consumer ∧
      succeeding s'.producer = succeeding s.producer ∧
      argument s'.producer = argument s.producer) ∨
    ∃ ele t, s.producer = .store ele t ∧ s'.producer = .done ele true ∧
      s'.consumer = s.consumer ∧ OrderedInv N s' (vals ++ [ele]) c (tails ++ [time]) heads := by
  obtain ⟨j, hj⟩ := h.producer
  have hknows := hj.knows
  have hjlt := Numbered.index_lt hj.seen
  have hheads := h.heads_length
  cases hmove with
  | loadTail ele t view hpc hload =>
      left
      obtain ⟨htail, hclock⟩ := h.coherent.load_own hload
      refine ⟨h.producerLooks (h.coherent.load hload) (htail .tail rfl) hclock (by rw [hpc]; rfl)
        (j := j) ⟨?_, ?_, hj.bound, ?_⟩, rfl, by rw [hpc]; rfl, by rw [hpc]; rfl⟩
      · rw [Memory.load_relaxed hload (by decide)]
        exact hj.seen
      · rw [Memory.load_relaxed hload (by decide)]
        exact hj.acquired
      · obtain ⟨hle, m, hm, rfl, -⟩ := Memory.load_cases hload
        obtain ⟨-, hvalue, -⟩ := h.tail.eq_last hm hle
        rw [h.tails_length] at hvalue
        exact hvalue
  | full ele t i view hpc hload =>
      left
      obtain ⟨htail, hclock⟩ := h.coherent.load_own hload
      obtain ⟨j', -, hsees⟩ := h.acquireHead hload
      exact ⟨h.producerLooks (h.coherent.load hload) (htail .tail rfl) hclock (by rw [hpc]; rfl)
        (hsees _ trivial), rfl, by rw [hpc]; rfl, by rw [hpc]; rfl⟩
  | room ele t i view hpc hload hroom =>
      left
      obtain ⟨htail, hclock⟩ := h.coherent.load_own hload
      obtain ⟨j', hi, hsees⟩ := h.acquireHead hload
      have hbound := (hsees .idle trivial).bound
      rw [hpc] at hknows
      have ht : t = vals.length % N := hknows
      refine ⟨h.producerLooks (h.coherent.load hload) (htail .tail rfl) hclock (by rw [hpc]; rfl)
        (hsees _ ⟨ht, ?_⟩), rfl, by rw [hpc]; rfl, by rw [hpc]; rfl⟩
      rw [ht, hi, succ_mod] at hroom
      by_contra hfull
      apply hroom
      rw [show vals.length + 1 = j' + N by omega, Nat.add_mod_right]
  | copy ele t hpc => exact .inl ⟨h.copyIn hpc, rfl, by rw [hpc]; rfl, by rw [hpc]; rfl⟩
  | store ele t memory view hpc hstore =>
      exact .inr ⟨ele, t, hpc, rfl, rfl, h.storeTail hpc hstore⟩

theorem copyOut (h : OrderedInv N s vals c tails heads) {i : Nat} (hpc : s.consumer = .copy i) :
    OrderedInv N
      { s.look .consumer (s.memory.readData .consumer i (s.views .consumer)).2.2 with
        memory := (s.memory.readData .consumer i (s.views .consumer)).2.1
        consumer := .store i (s.memory.data i) } vals c tails heads := by
  obtain ⟨k, hk⟩ := h.consumer
  have hknows := hk.knows
  have hreads := h.reads
  have hread := h.read
  rw [hpc] at hknows hreads hread
  obtain ⟨rfl, hlt⟩ : i = c % N ∧ c < k := hknows
  change s.views .consumer (.inr .consumer) = c at hreads
  change ∀ d, _ ∧ (_ ∨ ∃ i, _ ∧ _ ∧ i < c) at hread
  have hstep : ∀ x, x ≠ .inr .consumer →
      Memory.advance .consumer (s.views .consumer) x = s.views .consumer x :=
    fun x hx => Function.update_of_ne hx ..
  have hnext : Memory.advance .consumer (s.views .consumer) (.inr .consumer) = c + 1 := by
    rw [Memory.advance, Function.update_self, hreads]
  have hklt := Numbered.index_lt hk.seen
  have htails := h.tails_length
  have hc : c < vals.length := by omega
  have hele : vals[c]? = some (s.memory.data (c % N)) := by
    have hget := List.getElem?_eq_getElem hc
    have happend : (vals ++ copied s.producer)[c]? = some vals[c] := by
      rw [List.getElem?_append_left hc, hget]
    rw [hget, (h.stored c _ happend h.copied_bound).1]
  refine ⟨h.coherent.readData .consumer (c % N), h.tails_length, h.heads_length, h.tail, ?_,
    h.copies, ?_, h.written, h.stored, ?_, h.producer, ⟨k, ?_, ?_, hk.released, rfl, hlt, hele⟩⟩
  · change Numbered _ heads (Memory.advance .consumer (s.views .consumer) (.inl .head)) _
    rw [hstep _ (by decide)]
    exact h.head
  · exact hnext
  · intro d
    obtain ⟨hproducer, hconsumer⟩ := hread d
    change Function.update s.memory.read (c % N) (Function.update (s.memory.read (c % N)) .consumer
        (s.views .consumer (.inr .consumer) + 1)) d .producer = 0 ∧
      (Function.update s.memory.read (c % N) (Function.update (s.memory.read (c % N)) .consumer
        (s.views .consumer (.inr .consumer) + 1)) d .consumer = 0 ∨
      ∃ i, Function.update s.memory.read (c % N) (Function.update (s.memory.read (c % N)) .consumer
        (s.views .consumer (.inr .consumer) + 1)) d .consumer = i + 1 ∧ i % N = d ∧ i < c + 1)
    by_cases hd : d = c % N
    · subst hd
      rw [Function.update_self, Function.update_self, Function.update_of_ne (by decide), hreads]
      exact ⟨hproducer, .inr ⟨c, rfl, rfl, Nat.lt_succ_self c⟩⟩
    · rw [Function.update_of_ne hd]
      refine ⟨hproducer, hconsumer.imp_right ?_⟩
      rintro ⟨i, hi, hslot, hlt⟩
      exact ⟨i, hi, hslot, by omega⟩
  · change tails[k]? = some (Memory.advance .consumer (s.views .consumer) (.inl .tail))
    rw [hstep _ (by decide)]
    exact hk.seen
  · change k ≤ Memory.advance .consumer (s.views .consumer) (.inr .producer)
    rw [hstep _ (by decide)]
    exact hk.acquired

theorem storeHead (h : OrderedInv N s vals c tails heads) {ele : T} {i time : Nat}
    {memory : Memory Index Nat Client Nat T} {view : View Index Client}
    (hpc : s.consumer = .store i ele)
    (hstore : s.memory.store .release .head time ((i + 1) % N) (s.views .consumer) =
      some (memory, view)) :
    vals[c]? = some ele ∧
      OrderedInv N { s.look .consumer view with memory := memory, consumer := .done (some ele) }
        vals (c + 1) tails (heads ++ [time]) := by
  obtain ⟨j, hj⟩ := h.producer
  obtain ⟨k, hk⟩ := h.consumer
  have hknows := hk.knows
  have hreads := h.reads
  have hread := h.read
  rw [hpc] at hknows hreads hread
  obtain ⟨rfl, hlt, hele⟩ : i = c % N ∧ c < k ∧ vals[c]? = some ele := hknows
  have hcoherent := h.coherent.store (i := .consumer) rfl hstore
  obtain ⟨hless, -, hview, hmemory⟩ := Memory.store_cases hstore
  have hsame : ∀ x, x ≠ .inl .head → view x = s.views .consumer x := by
    intro x hx
    rw [hview, Function.update_of_ne hx]
  have hnow : view (.inl .head) = time := by
    rw [hview, Function.update_self]
  subst hmemory
  refine ⟨hele, hcoherent, h.tails_length, ?_, h.tail, ?_, h.copies, ?_, h.written, h.stored,
    hread, ⟨j, ?_, hj.acquired, hj.bound, hj.knows⟩, ⟨k, ?_, ?_, hlt, trivial⟩⟩
  · rw [List.length_append, h.heads_length]
    rfl
  · change Numbered (Function.update (s.memory.history .head) time (some _)) (heads ++ [time])
      (view (.inl .head)) _
    rw [hnow]
    refine h.head.append hless ⟨?_, ?_⟩
    · rw [h.heads_length]
      exact succ_mod N c
    · change heads.length ≤ view (.inr .consumer)
      rw [h.heads_length, hsame _ (by decide), hreads]
      exact Nat.le_refl _
  · change view (.inr .consumer) = c + 1
    rw [hsame _ (by decide), hreads]
    rfl
  · rw [List.getElem?_append_left (Numbered.index_lt hj.seen)]
    exact hj.seen
  · change tails[k]? = some (view (.inl .tail))
    rw [hsame _ (by decide)]
    exact hk.seen
  · change k ≤ view (.inr .producer)
    rw [hsame _ (by decide)]
    exact hk.acquired

theorem popMove (h : OrderedInv N s vals c tails heads) {time : Nat}
    (hmove : OrderedPop N s time s') :
    (OrderedInv N s' vals c tails heads ∧ s'.producer = s.producer ∧
      taken s'.consumer = taken s.consumer) ∨
    ∃ i ele, s.consumer = .store i ele ∧ s'.consumer = .done (some ele) ∧
      s'.producer = s.producer ∧ vals[c]? = some ele ∧
      OrderedInv N s' vals (c + 1) tails (heads ++ [time]) := by
  cases hmove with
  | loadTail t view hpc hload =>
      left
      obtain ⟨hhead, hclock⟩ := h.coherent.load_own hload
      obtain ⟨k, hk, hsees⟩ := h.acquireTail hload
      exact ⟨h.consumerLooks (h.coherent.load hload) (hhead .head rfl) hclock (by rw [hpc]; rfl)
        (hsees _ hk), rfl, by rw [hpc]; rfl⟩
  | empty t view hpc hload =>
      left
      obtain ⟨k, hk⟩ := h.consumer
      obtain ⟨hhead, hclock⟩ := h.coherent.load_own hload
      refine ⟨h.consumerLooks (h.coherent.load hload) (hhead .head rfl) hclock (by rw [hpc]; rfl)
        (k := k) ⟨?_, ?_, hk.released, trivial⟩, rfl, by rw [hpc]; rfl⟩
      · rw [Memory.load_relaxed hload (by decide)]
        exact hk.seen
      · rw [Memory.load_relaxed hload (by decide)]
        exact hk.acquired
  | elements t i view hpc hload hne =>
      left
      obtain ⟨k, hk⟩ := h.consumer
      have hknows := hk.knows
      rw [hpc] at hknows
      have ht : t = k % N := hknows
      obtain ⟨hhead, hclock⟩ := h.coherent.load_own hload
      obtain ⟨hle, m, hm, rfl, -⟩ := Memory.load_cases hload
      obtain ⟨-, hvalue, -⟩ := h.head.eq_last hm hle
      have hindex : m.value = c % N := by
        rw [hvalue, h.heads_length]
        rfl
      have hck : c < k := by
        have hreleased := hk.released
        have hne' : k ≠ c := by
          rintro rfl
          exact hne (ht.trans hindex.symm)
        omega
      refine ⟨h.consumerLooks (h.coherent.load hload) (hhead .head rfl) hclock (by rw [hpc]; rfl)
        (k := k) ⟨?_, ?_, hk.released, hindex, hck⟩, rfl, by rw [hpc]; rfl⟩
      · rw [Memory.load_relaxed hload (by decide)]
        exact hk.seen
      · rw [Memory.load_relaxed hload (by decide)]
        exact hk.acquired
  | copy i hpc => exact .inl ⟨h.copyOut hpc, rfl, by rw [hpc]; rfl⟩
  | store i ele memory view hpc hstore =>
      obtain ⟨hele, hinv⟩ := h.storeHead hpc hstore
      exact .inr ⟨i, ele, hpc, rfl, rfl, hele, hinv⟩

/-- What a client copies was written, and read, before. -/
theorem not_races (h : OrderedInv N s vals c tails heads) : ¬ s.Races := by
  rintro (⟨ele, slot, hpc, hunseen⟩ | ⟨slot, hpc, hunseen⟩)
  · obtain ⟨j, hj⟩ := h.producer
    have hknows := hj.knows
    rw [hpc] at hknows
    obtain ⟨rfl, hroom⟩ : slot = vals.length % N ∧ vals.length + 1 < j + N := hknows
    rcases hunseen with hunseen | ⟨i, hunseen⟩
    · obtain ⟨hwho, hwhen⟩ := h.written (vals.length % N)
      rw [Memory.UnseenWrite, hwho] at hunseen
      omega
    · obtain ⟨hproducer, hconsumer⟩ := h.read (vals.length % N)
      cases i with
      | producer => omega
      | consumer =>
          rcases hconsumer with hnever | ⟨i, hi, hslot, hlt⟩
          · omega
          · have hacquired := hj.acquired
            have hreleased := h.released
            have hahead := h.ahead_le
            rw [mod_inj (c := i) (Nat.le_refl i) (by omega) (by omega) (by omega)] at hslot
            omega
  · obtain ⟨k, hk⟩ := h.consumer
    have hknows := hk.knows
    rw [hpc] at hknows
    obtain ⟨rfl, hlt⟩ : slot = c % N ∧ c < k := hknows
    have hklt := Numbered.index_lt hk.seen
    have htails := h.tails_length
    have hc : c < vals.length := by omega
    have happend : (vals ++ copied s.producer)[c]? = some vals[c] := by
      rw [List.getElem?_append_left hc]
      exact List.getElem?_eq_getElem hc
    have hwritten := (h.stored c _ happend h.copied_bound).2
    have hacquired := hk.acquired
    rw [Memory.UnseenWrite, hwritten] at hunseen
    change s.views .consumer (.inr .producer) < c + 1 at hunseen
    omega

end OrderedInv

end UltraHft.Core.SpscQueue
