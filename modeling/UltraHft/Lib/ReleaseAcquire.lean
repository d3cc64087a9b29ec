import Mathlib.Data.List.Basic
import Mathlib.Order.Basic
import Mathlib.Order.Lattice
import Mathlib.Logic.Function.Basic

/-!
# Memory with release and acquire

Threads share atomics and data.  An atomic has a history of messages in the order
of their timestamps, and a load may take any that is not older than what its
thread has seen; a release store leaves its thread's view with the message, and
an acquire load takes it over.  Data are accessed without synchronisation: two
accesses race where the later one does not have the earlier one in its view.
-/

namespace UltraHft.Lib.ReleaseAcquire

/-- How far each atomic was seen, and how many data accesses of each thread. -/
abbrev View (A I : Type*) : Type _ := A ⊕ I → Nat

structure Message (A I V : Type*) where
  value : V
  view : View A I

inductive LoadOrder where
  | relaxed
  | acquire

inductive StoreOrder where
  | relaxed
  | release

section Orders

variable {A I : Type*}

def LoadOrder.takes : LoadOrder → View A I → View A I
  | .relaxed, _ => fun _ => 0
  | .acquire, left => left

def StoreOrder.leaves [DecidableEq A] [DecidableEq I] (a : A) (t : Nat) :
    StoreOrder → View A I → View A I
  | .relaxed, _ => Function.update (fun _ => 0) (.inl a) t
  | .release, seen => seen

end Orders

/-- `written` tells who wrote last and in which of its accesses, `read` the last
access of each thread that read. -/
structure Memory (A D I V W : Type*) where
  history : A → Nat → Option (Message A I V)
  data : D → W
  written : D → I × Nat
  read : D → I → Nat

variable {A D I V W : Type*}

namespace Memory

/-- Every atomic has one message, and the data were accessed before all threads. -/
def initial (init : A → V) (data : D → W) (i : I) : Memory A D I V W where
  history := fun a t => if t = 0 then some ⟨init a, fun _ => 0⟩ else none
  data := data
  written := fun _ => (i, 0)
  read := fun _ _ => 0

section Operations

variable [DecidableEq A] [DecidableEq I]

def load (mem : Memory A D I V W) (order : LoadOrder) (a : A) (t : Nat) (view : View A I) :
    Option (V × View A I) :=
  if view (.inl a) ≤ t then
    (mem.history a t).map fun m =>
      (m.value, Function.update view (.inl a) t ⊔ order.takes m.view)
  else none

def store (mem : Memory A D I V W) (order : StoreOrder) (a : A) (t : Nat) (v : V)
    (view : View A I) : Option (Memory A D I V W × View A I) :=
  if view (.inl a) < t ∧ (mem.history a t).isNone then
    let seen := Function.update view (.inl a) t
    let message : Message A I V := ⟨v, order.leaves a t seen⟩
    some ({ mem with
      history := Function.update mem.history a
        (Function.update (mem.history a) t (some message)) }, seen)
  else none

def advance (i : I) (view : View A I) : View A I :=
  Function.update view (.inr i) (view (.inr i) + 1)

def readData [DecidableEq D] (mem : Memory A D I V W) (i : I) (d : D) (view : View A I) :
    W × Memory A D I V W × View A I :=
  (mem.data d,
    { mem with read :=
        Function.update mem.read d (Function.update (mem.read d) i (view (.inr i) + 1)) },
    advance i view)

def writeData [DecidableEq D] (mem : Memory A D I V W) (i : I) (d : D) (w : W) (view : View A I) :
    Memory A D I V W × View A I :=
  ({ mem with data := Function.update mem.data d w
              written := Function.update mem.written d (i, view (.inr i) + 1) },
    advance i view)

end Operations

/-- The last write does not happen before an access with this view. -/
def UnseenWrite (mem : Memory A D I V W) (d : D) (view : View A I) : Prop :=
  view (.inr (mem.written d).1) < (mem.written d).2

def UnseenRead (mem : Memory A D I V W) (d : D) (view : View A I) : Prop :=
  ∃ i, view (.inr i) < mem.read d i

/-! ## What the operations are -/

section Cases

variable [DecidableEq A] [DecidableEq I] {mem mem' : Memory A D I V W} {a : A} {t : Nat} {v : V}
  {view view' : View A I}

theorem load_cases {order : LoadOrder} (h : mem.load order a t view = some (v, view')) :
    view (.inl a) ≤ t ∧ ∃ m, mem.history a t = some m ∧ v = m.value ∧
      view' = Function.update view (.inl a) t ⊔ order.takes m.view := by
  unfold load at h
  split_ifs at h with hle
  obtain ⟨m, hm, heq⟩ := Option.map_eq_some_iff.mp h
  obtain ⟨rfl, rfl⟩ := Prod.mk.inj heq
  exact ⟨hle, m, hm, rfl, rfl⟩

theorem load_relaxed (h : mem.load .relaxed a t view = some (v, view')) {x : A ⊕ I}
    (hx : x ≠ .inl a) : view' x = view x := by
  obtain ⟨-, m, -, -, rfl⟩ := load_cases h
  change max (Function.update view (.inl a) t x) 0 = view x
  rw [Nat.max_zero, Function.update_of_ne hx]

/-- An acquire load tells of all that the store has seen. -/
theorem load_acquire (h : mem.load .acquire a t view = some (v, view')) :
    ∃ m, mem.history a t = some m ∧ v = m.value ∧ view (.inl a) ≤ t ∧ m.view ≤ view' := by
  obtain ⟨hle, m, hm, hv, rfl⟩ := load_cases h
  exact ⟨m, hm, hv, hle, le_sup_right⟩

theorem store_cases {order : StoreOrder} (h : mem.store order a t v view = some (mem', view')) :
    view (.inl a) < t ∧ mem.history a t = none ∧ view' = Function.update view (.inl a) t ∧
      mem' = { mem with
        history := Function.update mem.history a
          (Function.update (mem.history a) t (some ⟨v, order.leaves a t view'⟩)) } := by
  unfold store at h
  split_ifs at h with hfresh
  obtain ⟨rfl, rfl⟩ := Prod.mk.inj (Option.some.inj h)
  exact ⟨hfresh.1, Option.isNone_iff_eq_none.mp hfresh.2, rfl, rfl⟩

end Cases

/-! ## One owner for each atomic

Only its owner stores an atomic.  Then no view is ahead of the owners. -/

def top (owner : A → I) (views : I → View A I) : View A I
  | .inl a => views (owner a) (.inl a)
  | .inr i => views i (.inr i)

@[simp] theorem top_inl (owner : A → I) (views : I → View A I) (a : A) :
    top owner views (.inl a) = views (owner a) (.inl a) := rfl

@[simp] theorem top_inr (owner : A → I) (views : I → View A I) (i : I) :
    top owner views (.inr i) = views i (.inr i) := rfl

structure Coherent (owner : A → I) (mem : Memory A D I V W) (views : I → View A I) : Prop where
  thread : ∀ i, views i ≤ top owner views
  message : ∀ a t m, mem.history a t = some m → m.view ≤ top owner views ∧ m.view (.inl a) = t

section Coherent

variable {owner : A → I} {mem mem' : Memory A D I V W} {views : I → View A I} {a : A} {i : I}
  {t : Nat} {v : V} {view' : View A I}

theorem coherent_initial (init : A → V) (data : D → W) :
    Coherent owner (initial init data i) fun _ _ => 0 where
  thread := fun _ _ => Nat.zero_le _
  message := by
    intro a t m hm
    unfold initial at hm
    dsimp only at hm
    split_ifs at hm with ht
    rw [← Option.some.inj hm, ht]
    exact ⟨fun _ => Nat.zero_le _, rfl⟩

section Changes

variable [DecidableEq I]

theorem top_update (hlow : views i ≤ view') (hhigh : view' ≤ top owner views) :
    top owner (Function.update views i view') = top owner views := by
  funext x
  cases x with
  | inl b =>
      rw [top_inl, top_inl]
      by_cases hb : owner b = i
      · subst hb
        rw [Function.update_self]
        exact Nat.le_antisymm (hhigh (.inl b)) (hlow (.inl b))
      · rw [Function.update_of_ne hb]
  | inr j =>
      rw [top_inr, top_inr]
      by_cases hj : j = i
      · subst hj
        rw [Function.update_self]
        exact Nat.le_antisymm (hhigh (.inr j)) (hlow (.inr j))
      · rw [Function.update_of_ne hj]

variable [DecidableEq A]

theorem le_update {view : View A I} (h : view (.inl a) ≤ t) :
    view ≤ Function.update view (.inl a) t := by
  intro x
  by_cases hx : x = .inl a
  · subst hx
    rw [Function.update_self]
    exact h
  · rw [Function.update_of_ne hx]

theorem update_le {view high : View A I} (h : view ≤ high) (ht : t ≤ high (.inl a)) :
    Function.update view (.inl a) t ≤ high := by
  intro x
  by_cases hx : x = .inl a
  · subst hx
    rw [Function.update_self]
    exact ht
  · rw [Function.update_of_ne hx]
    exact h x

theorem Coherent.load_le (hc : Coherent owner mem views) {order : LoadOrder}
    (h : mem.load order a t (views i) = some (v, view')) :
    views i ≤ view' ∧ view' ≤ top owner views := by
  obtain ⟨hle, m, hm, -, heq⟩ := load_cases h
  obtain ⟨hview, htime⟩ := hc.message a t m hm
  have hlow : views i ≤ Function.update (views i) (.inl a) t := le_update hle
  have hhigh : Function.update (views i) (.inl a) t ≤ top owner views := by
    apply update_le (hc.thread i)
    rw [← htime]
    exact hview (.inl a)
  have htakes : order.takes m.view ≤ top owner views := by
    cases order with
    | relaxed => exact fun _ => Nat.zero_le _
    | acquire => exact hview
  rw [heq]
  exact ⟨hlow.trans le_sup_left, sup_le hhigh htakes⟩

theorem Coherent.load (hc : Coherent owner mem views) {order : LoadOrder}
    (h : mem.load order a t (views i) = some (v, view')) :
    Coherent owner mem (Function.update views i view') := by
  obtain ⟨hlow, hhigh⟩ := hc.load_le h
  have htop := top_update hlow hhigh
  constructor
  · intro j
    rw [htop]
    by_cases hj : j = i
    · subst hj
      rw [Function.update_self]
      exact hhigh
    · rw [Function.update_of_ne hj]
      exact hc.thread j
  · intro b u m hm
    rw [htop]
    exact hc.message b u m hm

theorem Coherent.load_own (hc : Coherent owner mem views) {order : LoadOrder}
    (h : mem.load order a t (views i) = some (v, view')) :
    (∀ b, owner b = i → view' (.inl b) = views i (.inl b)) ∧ view' (.inr i) = views i (.inr i) := by
  obtain ⟨hlow, hhigh⟩ := hc.load_le h
  constructor
  · rintro b rfl
    exact Nat.le_antisymm (hhigh (.inl b)) (hlow (.inl b))
  · exact Nat.le_antisymm (hhigh (.inr i)) (hlow (.inr i))

theorem Coherent.load_seen (hc : Coherent owner mem views) {order : LoadOrder}
    (h : mem.load order a t (views i) = some (v, view')) : view' (.inl a) = t := by
  obtain ⟨-, m, hm, -, heq⟩ := load_cases h
  rw [heq]
  change max (Function.update (views i) (.inl a) t (.inl a)) (order.takes m.view (.inl a)) = t
  rw [Function.update_self]
  cases order with
  | relaxed => exact Nat.max_zero t
  | acquire =>
      change max t (m.view (.inl a)) = t
      rw [(hc.message a t m hm).2, Nat.max_self]

theorem Coherent.store (hc : Coherent owner mem views) {order : StoreOrder} (howner : owner a = i)
    (h : mem.store order a t v (views i) = some (mem', view')) :
    Coherent owner mem' (Function.update views i view') := by
  obtain ⟨hlt, -, rfl, rfl⟩ := store_cases h
  have htop : top owner (Function.update views i (Function.update (views i) (.inl a) t)) =
      Function.update (top owner views) (.inl a) t := by
    funext x
    cases x with
    | inl b =>
        rw [top_inl]
        by_cases hb : b = a
        · subst hb
          rw [howner, Function.update_self, Function.update_self, Function.update_self]
        · have hne : (Sum.inl b : A ⊕ I) ≠ .inl a := fun heq => hb (Sum.inl.inj heq)
          rw [Function.update_of_ne hne]
          by_cases hi : owner b = i
          · rw [hi, Function.update_self, Function.update_of_ne hne, top_inl, hi]
          · rw [Function.update_of_ne hi, top_inl]
    | inr j =>
        rw [top_inr]
        have hne : (Sum.inr j : A ⊕ I) ≠ .inl a := fun heq => by cases heq
        rw [Function.update_of_ne hne, top_inr]
        by_cases hj : j = i
        · rw [hj, Function.update_self, Function.update_of_ne (fun heq => by cases heq)]
        · rw [Function.update_of_ne hj]
  have hgrow : top owner views ≤ Function.update (top owner views) (.inl a) t := by
    apply le_update
    subst howner
    exact hlt.le
  have hself : t ≤ Function.update (top owner views) (.inl a) t (.inl a) := by
    rw [Function.update_self]
  have hseen : Function.update (views i) (.inl a) t ≤
      Function.update (top owner views) (.inl a) t :=
    update_le ((hc.thread i).trans hgrow) hself
  constructor
  · intro j
    rw [htop]
    by_cases hj : j = i
    · subst hj
      rw [Function.update_self]
      exact hseen
    · rw [Function.update_of_ne hj]
      exact (hc.thread j).trans hgrow
  · intro b u m hm
    rw [htop]
    have hold : mem.history b u = some m →
        m.view ≤ Function.update (top owner views) (.inl a) t ∧ m.view (.inl b) = u :=
      fun hm => ⟨(hc.message b u m hm).1.trans hgrow, (hc.message b u m hm).2⟩
    by_cases hb : b = a
    · subst hb
      dsimp only at hm
      rw [Function.update_self] at hm
      by_cases hu : u = t
      · subst hu
        rw [Function.update_self] at hm
        rw [← Option.some.inj hm]
        cases order with
        | relaxed =>
            constructor
            · exact update_le (fun _ => Nat.zero_le _) hself
            · change Function.update (fun _ => 0) (Sum.inl b : A ⊕ I) u (.inl b) = u
              exact Function.update_self ..
        | release =>
            constructor
            · exact hseen
            · change Function.update (views i) (.inl b) u (.inl b) = u
              exact Function.update_self ..
      · rw [Function.update_of_ne hu] at hm
        exact hold hm
    · dsimp only at hm
      rw [Function.update_of_ne hb] at hm
      exact hold hm

theorem Coherent.advance (hc : Coherent owner mem views) (hhistory : mem'.history = mem.history)
    (i : I) : Coherent owner mem' (Function.update views i (advance i (views i))) := by
  have hgrow : top owner views ≤
      top owner (Function.update views i (Memory.advance i (views i))) := by
    intro x
    cases x with
    | inl b =>
        rw [top_inl, top_inl]
        by_cases hb : owner b = i
        · rw [hb, Function.update_self, Memory.advance,
            Function.update_of_ne (fun heq => by cases heq)]
        · rw [Function.update_of_ne hb]
    | inr j =>
        rw [top_inr, top_inr]
        by_cases hj : j = i
        · subst hj
          rw [Function.update_self, Memory.advance, Function.update_self]
          exact Nat.le_succ _
        · rw [Function.update_of_ne hj]
  constructor
  · intro j x
    by_cases hj : j = i
    · subst hj
      rw [Function.update_self]
      by_cases hx : x = .inr j
      · subst hx
        rw [top_inr, Function.update_self]
      · rw [Memory.advance, Function.update_of_ne hx]
        exact (hc.thread j x).trans (hgrow x)
    · rw [Function.update_of_ne hj]
      exact (hc.thread j x).trans (hgrow x)
  · intro b u m hm
    rw [hhistory] at hm
    exact ⟨(hc.message b u m hm).1.trans hgrow, (hc.message b u m hm).2⟩

theorem Coherent.writeData [DecidableEq D] (hc : Coherent owner mem views) (i : I) (d : D) (w : W) :
    Coherent owner (mem.writeData i d w (views i)).1
      (Function.update views i (mem.writeData i d w (views i)).2) := by
  refine hc.advance ?_ i
  rfl

theorem Coherent.readData [DecidableEq D] (hc : Coherent owner mem views) (i : I) (d : D) :
    Coherent owner (mem.readData i d (views i)).2.1
      (Function.update views i (mem.readData i d (views i)).2.2) := by
  refine hc.advance ?_ i
  rfl

end Changes

end Coherent

end Memory

/-! ## Numbered histories -/

/-- The messages of a history in their order: the `k`-th one is at the time
`times[k]`, the last one at `last`, and `P k` holds of it. -/
structure Numbered {M : Type*} (history : Nat → Option M) (times : List Nat) (last : Nat)
    (P : Nat → M → Prop) : Prop where
  sorted : times.Pairwise (· < ·)
  last_eq : times.getLast? = some last
  complete : ∀ t m, history t = some m → ∃ k, times[k]? = some t ∧ P k m

namespace Numbered

variable {M : Type*} {history : Nat → Option M} {times : List Nat} {last t u : Nat}
  {P : Nat → M → Prop} {m : M} {j k : Nat}

theorem le_of_le (hn : Numbered history times last P) (hj : times[j]? = some t)
    (hk : times[k]? = some u) (hle : t ≤ u) : j ≤ k := by
  by_contra hlt
  obtain ⟨hj', rfl⟩ := List.getElem?_eq_some_iff.mp hj
  obtain ⟨hk', rfl⟩ := List.getElem?_eq_some_iff.mp hk
  have hless := List.pairwise_iff_getElem.mp hn.sorted k j hk' hj' (by omega)
  omega

theorem index_lt (hk : times[k]? = some t) : k < times.length :=
  (List.getElem?_eq_some_iff.mp hk).1

theorem getElem?_last (hn : Numbered history times last P) :
    times[times.length - 1]? = some last := by
  rw [← List.getLast?_eq_getElem?]
  exact hn.last_eq

theorem eq_last (hn : Numbered history times last P) (hm : history t = some m) (hle : last ≤ t) :
    t = last ∧ P (times.length - 1) m := by
  obtain ⟨k, hk, hP⟩ := hn.complete t m hm
  have hlt := index_lt hk
  have hge := hn.le_of_le hn.getElem?_last hk hle
  obtain rfl : k = times.length - 1 := by omega
  exact ⟨Option.some.inj (hk.symm.trans hn.getElem?_last), hP⟩

theorem le_last (hn : Numbered history times last P) (ht : t ∈ times) : t ≤ last := by
  obtain ⟨k, hk, rfl⟩ := List.mem_iff_getElem.mp ht
  obtain ⟨hlast, hval⟩ := List.getElem?_eq_some_iff.mp hn.getElem?_last
  rcases Nat.lt_or_ge k (times.length - 1) with hlt | hge
  · have hless := List.pairwise_iff_getElem.mp hn.sorted k (times.length - 1) hk hlast hlt
    omega
  · obtain rfl : k = times.length - 1 := by omega
    omega

theorem append (hn : Numbered history times last P) (hlt : last < t) (hP : P times.length m) :
    Numbered (Function.update history t (some m)) (times ++ [t]) t P where
  sorted := by
    refine List.pairwise_append.mpr ⟨hn.sorted, List.pairwise_singleton _ _, ?_⟩
    intro u hu w hw
    rw [List.mem_singleton.mp hw]
    exact (hn.le_last hu).trans_lt hlt
  last_eq := List.getLast?_concat ..
  complete := by
    intro u m' hm'
    by_cases hu : u = t
    · subst hu
      rw [Function.update_self] at hm'
      rw [← Option.some.inj hm']
      exact ⟨times.length, List.getElem?_concat_length, hP⟩
    · rw [Function.update_of_ne hu] at hm'
      obtain ⟨k, hk, hPk⟩ := hn.complete u m' hm'
      exact ⟨k, (List.getElem?_append_left (index_lt hk)).trans hk, hPk⟩

end Numbered

end UltraHft.Lib.ReleaseAcquire
