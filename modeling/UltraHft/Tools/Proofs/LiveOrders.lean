import Mathlib.Data.Finmap
import UltraHft.MarketData.FlatOrderMap
import UltraHft.Tools.Proofs.Generate

/-!
# The orders live at a receiver

A receiver that applies the stream in order, next to the deque it was made
from.  As long as no order is dropped from the deque, the deque knows of every
order that the receiver holds; a dropped order is never cancelled.
-/

namespace UltraHft.Tools.ItchSender

open UltraHft.Lib UltraHft.MarketData

/-- The shares left of each live order. -/
abbrev Receiver := Finmap fun _ : Nat => Nat

namespace Receiver

/-- An add makes the order live, unless it is; a cancellation takes its shares
off, and the order is gone when none is left. -/
def apply (live : Receiver) : SentMessage → Receiver
  | .addOrder orderRef _ shares _ _ =>
      if orderRef ∈ live then live else live.insert orderRef shares
  | .cancel orderRef cancelledShares =>
      match live.lookup orderRef with
      | none => live
      | some left =>
          if left ≤ cancelledShares then live.erase orderRef
          else live.insert orderRef (left - cancelledShares)
  | .trade .. => live

def receive (live : Receiver) (msgs : List SentMessage) : Receiver := msgs.foldl apply live

/-- No more orders than the cap, and a free slot in the order map. -/
def WithinCap (live : Receiver) : Prop :=
  live.keys.card ≤ liveOrderCap ∧ live.keys.card < FlatOrderMap.kDefaultCapacity.toNat

variable {live : Receiver} {orderRef left n : Nat}

theorem withinCap_iff : live.WithinCap ↔ live.keys.card ≤ liveOrderCap := by
  have hcap : liveOrderCap < FlatOrderMap.kDefaultCapacity.toNat := by decide
  exact ⟨And.left, fun h => ⟨h, h.trans_lt hcap⟩⟩

theorem keys_insert : (live.insert orderRef n).keys = insert orderRef live.keys := by
  ext ref
  simp [Finmap.mem_keys]

theorem lookup_apply_add {ref shares price : Nat} {side stock : String}
    (h : (live.apply (.addOrder orderRef side shares stock price)).lookup ref = some left) :
    live.lookup ref = some left ∨ (ref = orderRef ∧ left = shares) := by
  rw [apply] at h
  split_ifs at h with hmem
  · exact .inl h
  · by_cases heq : ref = orderRef
    · subst heq
      rw [Finmap.lookup_insert] at h
      exact .inr ⟨rfl, (Option.some.inj h).symm⟩
    · rw [Finmap.lookup_insert_of_ne _ heq] at h
      exact .inl h

theorem lookup_apply_cancel {ref cancelled : Nat}
    (h : (live.apply (.cancel orderRef cancelled)).lookup ref = some left) :
    ∃ held, live.lookup ref = some held ∧ left ≤ held ∧ (ref = orderRef → cancelled < held) := by
  simp only [apply] at h
  cases hheld : live.lookup orderRef with
  | none =>
      rw [hheld] at h
      refine ⟨left, h, le_rfl, ?_⟩
      intro heq
      subst heq
      simp [hheld] at h
  | some held =>
      rw [hheld] at h
      dsimp only at h
      by_cases heq : ref = orderRef
      · subst heq
        split_ifs at h with hle
        · simp at h
        · rw [Finmap.lookup_insert] at h
          have hleft := Option.some.inj h
          exact ⟨held, hheld, by omega, fun _ => by omega⟩
      · have hlookup : live.lookup ref = some left := by
          split_ifs at h with hle
          · rwa [Finmap.lookup_erase_ne heq] at h
          · rwa [Finmap.lookup_insert_of_ne _ heq] at h
        exact ⟨left, hlookup, le_rfl, fun h => absurd h heq⟩

theorem apply_add_of_notMem {shares price : Nat} {side stock : String} (h : orderRef ∉ live) :
    live.apply (.addOrder orderRef side shares stock price) = live.insert orderRef shares :=
  if_neg h

theorem apply_cancel_of_lookup (h : live.lookup orderRef = some n) :
    live.apply (.cancel orderRef n) = live.erase orderRef := by
  simp [apply, h]

end Receiver

theorem nodup_taken {before after : List (Nat × Nat)} {x : Nat × Nat}
    (h : ((before ++ x :: after).map Prod.fst).Nodup) :
    x.1 ∉ (before ++ after).map Prod.fst ∧ ((before ++ after).map Prod.fst).Nodup := by
  rw [List.map_append, List.map_cons, List.nodup_middle, List.nodup_cons,
    ← List.map_append] at h
  exact h

open Receiver

/-- At every point of the stream the receiver is within the cap. -/
def StaysWithinCap (msgs : List SentMessage) : Prop :=
  ∀ sent, sent <+: msgs → WithinCap (receive ∅ sent)

def NeverEvicts (choices : List Choices) : Prop :=
  ∀ pre c, pre ++ [c] <+: choices → ¬ (Sender.new.generateMessages pre).1.Evicts c

abbrev Joint := Sender × Receiver

namespace Joint

def step (t : Joint) (c : Choices) : Option Joint :=
  some ((t.1.iteration c).1, t.2.apply (t.1.iteration c).2)

theorem exec_eq (t : Joint) (cs : List Choices) :
    Runs.exec step t cs =
      some ((t.1.generateMessages cs).1, t.2.receive (t.1.generateMessages cs).2) := by
  induction cs generalizing t with
  | nil => rfl
  | cons c cs ih =>
      rw [Runs.exec, step, Option.bind_some, ih]
      rfl

/-- The deque knows of every live order, and of no fewer shares than are left of it. -/
structure Covered (t : Joint) : Prop where
  tracked : ∀ ref left, t.2.lookup ref = some left →
    ∃ shares, (ref, shares) ∈ t.1.liveOrders ∧ left ≤ shares
  length_le : t.1.liveOrders.length ≤ liveOrderCap

namespace Covered

variable {t t' : Joint} {c : Choices}

theorem withinCap (h : Covered t) : WithinCap t.2 := by
  have hsub : t.2.keys ⊆ (t.1.liveOrders.map Prod.fst).toFinset := by
    intro ref href
    obtain ⟨left, hleft⟩ := Finmap.mem_iff.mp (Finmap.mem_keys.mp href)
    obtain ⟨shares, hmem, -⟩ := h.tracked ref left hleft
    exact List.mem_toFinset.mpr (List.mem_map_of_mem (f := Prod.fst) hmem)
  rw [withinCap_iff]
  calc t.2.keys.card ≤ (t.1.liveOrders.map Prod.fst).toFinset.card := Finset.card_le_card hsub
    _ ≤ (t.1.liveOrders.map Prod.fst).length := List.toFinset_card_le _
    _ = t.1.liveOrders.length := List.length_map _
    _ ≤ liveOrderCap := h.length_le

theorem add (h : Covered t) (hadds : t.1.Adds c) (hevicts : ¬ t.1.Evicts c) :
    Covered ((t.1.iteration c).1, t.2.apply (t.1.iteration c).2) := by
  refine ⟨?_, (t.1.length_iteration_le c).2 h.length_le⟩
  rw [Sender.iteration_of_not_evicts hadds hevicts, Sender.addMessage]
  intro ref left hleft
  dsimp only at hleft
  rcases lookup_apply_add hleft with hold | ⟨rfl, rfl⟩
  · obtain ⟨shares, hmem, hle⟩ := h.tracked ref left hold
    exact ⟨shares, List.mem_append_left _ hmem, hle⟩
  · exact ⟨c.shares, List.mem_append_right _ List.mem_cons_self, le_rfl⟩

/-- An order that stays live after the cancellation of its id has more shares
than the cancelled entry, so another entry covers it. -/
theorem cancel (h : Covered t) (hadds : ¬ t.1.Adds c) (hcancels : Sender.Cancels c) :
    Covered ((t.1.iteration c).1, t.2.apply (t.1.iteration c).2) := by
  refine ⟨?_, (t.1.length_iteration_le c).2 h.length_le⟩
  obtain ⟨before, after, hsplit, hiter⟩ := Sender.iteration_of_cancels hadds hcancels
  rw [hiter]
  intro ref left hleft
  obtain ⟨held, hheld, hle, hmore⟩ := lookup_apply_cancel hleft
  obtain ⟨shares, hmem, hshares⟩ := h.tracked ref held hheld
  rw [hsplit, List.mem_append, List.mem_cons] at hmem
  refine ⟨shares, ?_, hle.trans hshares⟩
  rw [List.mem_append]
  rcases hmem with hmem | heq | hmem
  · exact .inl hmem
  · have hlt := hmore (congrArg Prod.fst heq)
    rw [← heq] at hlt
    omega
  · exact .inr hmem

theorem step (h : Covered t) (hevicts : ¬ t.1.Evicts c) :
    ∃ t', Joint.step t c = some t' ∧ Covered t' := by
  refine ⟨_, rfl, ?_⟩
  by_cases hadds : t.1.Adds c
  · exact h.add hadds hevicts
  · by_cases hcancels : Sender.Cancels c
    · exact h.cancel hadds hcancels
    · rw [Sender.iteration_of_trades hadds hcancels]
      exact h

end Covered

/-- After fewer messages than there are references, none of which dropped an
order, the deque holds the live orders and no others. -/
structure Synced (pre : List Choices) (t : Joint) : Prop where
  next_le : t.1.nextOrderRef ≤ pre.length + 1
  lt_next : ∀ x ∈ t.1.liveOrders, x.1 < t.1.nextOrderRef
  nodup : (t.1.liveOrders.map Prod.fst).Nodup
  keys : t.2.keys = (t.1.liveOrders.map Prod.fst).toFinset
  lookup : ∀ x ∈ t.1.liveOrders, t.2.lookup x.1 = some x.2
  length_le : t.1.liveOrders.length ≤ liveOrderCap

namespace Synced

variable {t t' : Joint} {c : Choices} {pre : List Choices}

theorem card_eq (h : Synced pre t) : t.2.keys.card = t.1.liveOrders.length := by
  rw [h.keys, List.toFinset_card_of_nodup h.nodup, List.length_map]

theorem next_notMem (h : Synced pre t) : t.1.nextOrderRef ∉ t.2 := by
  rw [← Finmap.mem_keys, h.keys, List.mem_toFinset]
  intro hmem
  obtain ⟨x, hx, heq⟩ := List.mem_map.mp hmem
  have hlt := h.lt_next x hx
  omega

theorem apply_addMessage (h : Synced pre t) :
    t.2.apply (t.1.addMessage c) = t.2.insert t.1.nextOrderRef c.shares :=
  apply_add_of_notMem h.next_notMem

theorem add (h : Synced pre t) (hpre : pre.length + 2 < 2 ^ 32) (hadds : t.1.Adds c)
    (hevicts : ¬ t.1.Evicts c) :
    Synced (pre ++ [c]) ((t.1.iteration c).1, t.2.apply (t.1.iteration c).2) := by
  have hlen := (t.1.length_iteration_le c).2 h.length_le
  have hfresh := h.next_notMem
  have hnext : t.1.newOrderRef.2.nextOrderRef = t.1.nextOrderRef + 1 := by
    apply Sender.nextOrderRef_newOrderRef
    have := h.next_le
    omega
  rw [Sender.iteration_of_not_evicts hadds hevicts] at hlen ⊢
  rw [h.apply_addMessage, hnext]
  constructor
  case next_le =>
    have := h.next_le
    simp
    omega
  case lt_next =>
    intro x hx
    rcases List.mem_append.mp hx with hx | hx
    · exact Nat.lt_succ_of_lt (h.lt_next x hx)
    · rw [List.mem_singleton.mp hx]
      exact Nat.lt_succ_self _
  case nodup =>
    have hnotMem : t.1.nextOrderRef ∉ t.1.liveOrders.map Prod.fst := by
      rwa [← Finmap.mem_keys, h.keys, List.mem_toFinset] at hfresh
    rw [List.map_append, List.map_singleton, ← List.concat_eq_append]
    exact h.nodup.concat hnotMem
  case keys =>
    ext ref
    rw [keys_insert, h.keys]
    simp
  case lookup =>
    intro x hx
    rcases List.mem_append.mp hx with hx | hx
    · have hne : x.1 ≠ t.1.nextOrderRef := (h.lt_next x hx).ne
      rw [Finmap.lookup_insert_of_ne _ hne]
      exact h.lookup x hx
    · rw [List.mem_singleton.mp hx]
      exact Finmap.lookup_insert _
  case length_le => exact hlen

theorem cancel (h : Synced pre t) (hadds : ¬ t.1.Adds c) (hcancels : Sender.Cancels c) :
    Synced (pre ++ [c]) ((t.1.iteration c).1, t.2.apply (t.1.iteration c).2) := by
  have hlen := (t.1.length_iteration_le c).2 h.length_le
  obtain ⟨before, after, hsplit, hiter⟩ := Sender.iteration_of_cancels hadds hcancels
  have hmem : ∀ x, x ∈ before ++ after → x ∈ t.1.liveOrders := by
    intro x hx
    rw [hsplit]
    simp at hx ⊢
    tauto
  have hdrawn : t.2.lookup (t.1.drawn c).1 = some (t.1.drawn c).2 := by
    apply h.lookup
    rw [hsplit]
    simp
  have hnodup := nodup_taken (hsplit ▸ h.nodup)
  rw [hiter] at hlen ⊢
  rw [apply_cancel_of_lookup hdrawn]
  constructor
  case next_le =>
    have := h.next_le
    simp
    omega
  case lt_next =>
    intro x hx
    exact h.lt_next x (hmem x hx)
  case nodup => exact hnodup.2
  case keys =>
    ext ref
    have hne : ref = (t.1.drawn c).1 → ref ∉ (before ++ after).map Prod.fst := by
      intro heq
      rw [heq]
      exact hnodup.1
    rw [Finmap.keys_erase, h.keys, hsplit]
    simp at hne ⊢
    grind
  case lookup =>
    intro x hx
    have hne : x.1 ≠ (t.1.drawn c).1 := by
      intro heq
      exact hnodup.1 (heq ▸ List.mem_map_of_mem (f := Prod.fst) hx)
    rw [Finmap.lookup_erase_ne hne]
    exact h.lookup x (hmem x hx)
  case length_le => exact hlen

theorem step (h : Synced pre t) (hpre : pre.length + 2 < 2 ^ 32) (hevicts : ¬ t.1.Evicts c) :
    Synced (pre ++ [c]) ((t.1.iteration c).1, t.2.apply (t.1.iteration c).2) := by
  by_cases hadds : t.1.Adds c
  · exact h.add hpre hadds hevicts
  · by_cases hcancels : Sender.Cancels c
    · exact h.cancel hadds hcancels
    · rw [Sender.iteration_of_trades hadds hcancels]
      have hnext : t.1.nextOrderRef ≤ (pre ++ [c]).length + 1 := by
        have := h.next_le
        simp
        omega
      exact { h with next_le := hnext }

theorem not_withinCap_of_evicts (h : Synced pre t) (hevicts : t.1.Evicts c) :
    ¬ WithinCap (t.2.apply (t.1.iteration c).2) := by
  have hcard : (insert t.1.nextOrderRef t.2.keys).card = t.2.keys.card + 1 := by
    apply Finset.card_insert_of_notMem
    rw [Finmap.mem_keys]
    exact h.next_notMem
  have hcap := hevicts.2
  rw [Sender.iteration_of_evicts hevicts, h.apply_addMessage, withinCap_iff, keys_insert, hcard,
    h.card_eq]
  omega

end Synced

theorem covered_new : Covered (Sender.new, ∅) where
  tracked := by simp
  length_le := Nat.zero_le _

theorem synced_new : Synced [] (Sender.new, ∅) where
  next_le := le_rfl
  lt_next := by simp [Sender.new]
  nodup := List.nodup_nil
  keys := rfl
  lookup := by simp [Sender.new]
  length_le := Nat.zero_le _

end Joint

open Joint

section Runs

variable {cs : List Choices}

theorem staysWithinCap_iff : StaysWithinCap (Sender.new.generateMessages cs).2 ↔
    ∀ pre, pre <+: cs → ∃ t, Runs.exec step (Sender.new, ∅) pre = some t ∧ WithinCap t.2 := by
  constructor
  · intro h pre hpre
    refine ⟨_, exec_eq _ pre, h _ ?_⟩
    obtain ⟨rest, rfl⟩ := hpre
    rw [Sender.generateMessages_append]
    exact List.prefix_append _ _
  · intro h sent hsent
    obtain ⟨pre, hpre, rfl⟩ := Sender.prefix_generateMessages hsent
    obtain ⟨t, ht, hcap⟩ := h pre hpre
    rw [exec_eq] at ht
    rwa [← Option.some.inj ht] at hcap

theorem neverEvicts_iff : NeverEvicts cs ↔
    ∀ pre c, pre ++ [c] <+: cs → ∀ t, Runs.exec step (Sender.new, ∅) pre = some t →
      ¬ t.1.Evicts c := by
  simp only [exec_eq, Option.some.injEq, forall_eq']
  rfl

theorem staysWithinCap_of_neverEvicts (h : NeverEvicts cs) :
    StaysWithinCap (Sender.new.generateMessages cs).2 := by
  rw [neverEvicts_iff] at h
  rw [staysWithinCap_iff]
  intro pre hpre
  obtain ⟨t, ht, hcovered⟩ := Runs.exec_total (fun _ t => Covered t) covered_new
    fun p c t hp ht hcovered => hcovered.step (h p c (hp.trans hpre) t ht)
  exact ⟨t, ht, hcovered.withinCap⟩

theorem staysWithinCap_iff_neverEvicts (hlen : cs.length + 1 < 2 ^ 32) :
    StaysWithinCap (Sender.new.generateMessages cs).2 ↔ NeverEvicts cs := by
  rw [staysWithinCap_iff, neverEvicts_iff]
  apply Runs.exec_iff_good Synced (fun _ t => WithinCap t.2) (fun t c => ¬ t.1.Evicts c)
    synced_new
  · intro pre t _ _ h
    rw [withinCap_iff, h.card_eq]
    exact h.length_le
  · intro pre c t hpre _ h
    have hle := hpre.length_le
    rw [List.length_append, List.length_singleton] at hle
    refine ⟨_, rfl, h.step (by omega), ?_⟩
    intro hevicts
    exact h.not_withinCap_of_evicts (not_not.mp hevicts)

theorem length_liveOrders_le :
    (Sender.new.generateMessages cs).1.liveOrders.length ≤ cs.length := by
  induction cs using List.reverseRecOn with
  | nil => exact le_rfl
  | append_singleton pre c ih =>
      rw [Sender.generateMessages_append, List.length_append]
      exact (Sender.length_iteration_le _ c).1.trans (Nat.succ_le_succ ih)

theorem neverEvicts_of_length_le (hlen : cs.length ≤ liveOrderCap) : NeverEvicts cs := by
  intro pre c hpre hevicts
  have hle := hpre.length_le
  rw [List.length_append, List.length_singleton] at hle
  have hcap := hevicts.2.trans length_liveOrders_le
  omega

theorem length_liveOrders_of_adds (hadds : ∀ c ∈ cs, c.r < 2 ^ 52)
    (hlen : cs.length ≤ liveOrderCap) :
    (Sender.new.generateMessages cs).1.liveOrders.length = cs.length := by
  induction cs using List.reverseRecOn with
  | nil => rfl
  | append_singleton pre c ih =>
      rw [List.length_append, List.length_singleton] at hlen
      have hpre := ih (fun c hc => hadds c (List.mem_append_left _ hc)) (by omega)
      have hc : c.r < 2 ^ 52 := hadds c (by simp)
      have hevicts : ¬ (Sender.new.generateMessages pre).1.Evicts c := by
        intro hevicts
        have hcap := hevicts.2
        omega
      rw [Sender.generateMessages_append]
      simp [Sender.generateMessages, Sender.iteration_of_not_evicts (.inl hc) hevicts, hpre]

theorem not_neverEvicts_of_adds (hadds : ∀ c ∈ cs, c.r < 2 ^ 52)
    (hlen : cs.length = liveOrderCap + 1) : ¬ NeverEvicts cs := by
  have hne : cs ≠ [] := by
    intro hnil
    simp [hnil] at hlen
  intro h
  have hsplit := List.dropLast_append_getLast hne
  apply h cs.dropLast (cs.getLast hne) (by rw [hsplit])
  have hlast : (cs.getLast hne).r < 2 ^ 52 := hadds _ (List.getLast_mem hne)
  have hdrop : cs.dropLast.length = liveOrderCap := by
    rw [List.length_dropLast, hlen, Nat.add_sub_cancel]
  have hfull := length_liveOrders_of_adds
    (fun c hc => hadds c (List.mem_of_mem_dropLast hc)) hdrop.le
  exact ⟨.inl hlast, by omega⟩

end Runs

/-- Whatever the batches, a receiver stays within the cap as long as no order is
dropped from the deque, and until the references come round no longer. -/
theorem liveOrders_within_cap (batches : List (List Choices)) :
    (NeverEvicts batches.flatten → StaysWithinCap (Sender.new.send batches).2) ∧
    (batches.flatten.length + 1 < 2 ^ 32 → StaysWithinCap (Sender.new.send batches).2 →
      NeverEvicts batches.flatten) := by
  rw [Sender.send_eq_generateMessages]
  exact ⟨staysWithinCap_of_neverEvicts, fun hlen => (staysWithinCap_iff_neverEvicts hlen).mp⟩

def adding : Choices where
  stock := ⟨0, by decide⟩
  shares := 100
  price := 10000
  sell := false
  r := 0
  position := 0
  matchNum := 1

def cancelling : Choices := { adding with r := 2 ^ 52, r_range := by decide }

theorem liveOrders_within_cap_three :
    StaysWithinCap (Sender.new.send [[adding], [adding, cancelling]]).2 ∧
      NeverEvicts [adding, adding, cancelling] := by
  have hcap := (liveOrders_within_cap [[adding], [adding, cancelling]]).1
    (neverEvicts_of_length_le (by decide))
  exact ⟨hcap, (liveOrders_within_cap [[adding], [adding, cancelling]]).2 (by decide) hcap⟩

theorem exceeds_cap : ¬ ∀ batches, StaysWithinCap (Sender.new.send batches).2 := by
  intro h
  have hcap := h [List.replicate (liveOrderCap + 1) adding]
  rw [Sender.send_eq_generateMessages, List.flatten_singleton,
    staysWithinCap_iff_neverEvicts (by rw [List.length_replicate]; decide)] at hcap
  apply not_neverEvicts_of_adds _ List.length_replicate hcap
  intro c hc
  rw [List.eq_of_mem_replicate hc]
  decide

end UltraHft.Tools.ItchSender
