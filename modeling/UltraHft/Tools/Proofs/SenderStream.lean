import UltraHft.Tools.Proofs.Framing
import UltraHft.Tools.Proofs.LiveOrders
import UltraHft.Tools.Proofs.SentMessages
import UltraHft.Tools.SenderMain

/-!
# What the sender puts on the wire

Whenever the main loop is looked at, the datagrams sent so far are one stream:
taken apart again they hold the messages of one call of the generator, each
datagram numbered behind the messages of those before it.
-/

namespace UltraHft.Tools.ItchSender

open UltraHft.Lib

variable {s s' : Sender} {ds : List Draw} {draws : List (List Draw)} {batch burst : Nat}
  {msgs : List (List UInt8)} {groups : List (List (List UInt8))} {frames : List (List UInt8)}
  {m m' : Main} {seq i : Nat}

/-! ## The generator -/

theorem Sender.generate_append (s : Sender) (ds ds' : List Draw) :
    s.generate (ds ++ ds') = (s.generate ds).bind fun r =>
      (r.1.generate ds').map fun r' => (r'.1, r.2 ++ r'.2) := by
  induction ds generalizing s with
  | nil => simp [Sender.generate]
  | cons d ds ih =>
      rw [List.cons_append, Sender.generate, Sender.generate]
      dsimp only [Option.bind_eq_bind]
      rw [Option.bind_assoc]
      congr 1
      funext bytes
      rw [ih, Option.bind_assoc, Option.bind_assoc]
      congr 1
      funext r
      rw [Option.bind_some]
      cases r.1.generate ds' <;> rfl

theorem Sender.generate_some {r : Sender × List (List UInt8)} (h : s.generate ds = some r) :
    r.1 = (s.generateMessages (ds.map Draw.choices)).1 ∧
      List.Forall₂ (fun msg bytes => ∃ ns, SentMessage.pack ns msg = some bytes)
        (s.generateMessages (ds.map Draw.choices)).2 r.2 := by
  induction ds generalizing s r with
  | nil =>
      rw [← Option.some.inj h]
      exact ⟨rfl, .nil⟩
  | cons d ds ih =>
      obtain ⟨bytes, hpack, h⟩ := Option.bind_eq_some_iff.mp h
      obtain ⟨rest, hrest, h⟩ := Option.bind_eq_some_iff.mp h
      obtain rfl := Option.some.inj h
      obtain ⟨hsender, hpacked⟩ := ih hrest
      exact ⟨hsender, .cons ⟨d.nanoseconds, hpack⟩ hpacked⟩

theorem Sender.length_generate {r : Sender × List (List UInt8)} (h : s.generate ds = some r) :
    r.2.length = ds.length := by
  rw [← (Sender.generate_some h).2.length_eq, Sender.length_generateMessages, List.length_map]

theorem Sender.InRange.generate (h : s.InRange) (ds : List Draw) :
    ∃ r, s.generate ds = some r ∧ r.1.InRange ∧
      ∀ bytes ∈ r.2, 20 ≤ bytes.length ∧ bytes.length ≤ 42 := by
  induction ds generalizing s with
  | nil => exact ⟨_, rfl, h, fun _ hbytes => (by cases hbytes)⟩
  | cons d ds ih =>
      obtain ⟨hfits, hnext⟩ := h.iteration d.choices
      obtain ⟨bytes, -, hpack, hlow, hhigh, -⟩ := hfits.packs 0 d.nanoseconds
      obtain ⟨r, hr, hlast, hlengths⟩ := ih hnext
      refine ⟨(r.1, bytes :: r.2), ?_, hlast, List.forall_mem_cons.mpr ⟨⟨hlow, hhigh⟩, hlengths⟩⟩
      rw [Sender.generate]
      dsimp only [Option.bind_eq_bind]
      rw [hpack, Option.bind_some, hr]
      rfl

def Sender.generateAll (s : Sender) :
    List (List Draw) → Option (Sender × List (List (List UInt8)))
  | [] => some (s, [])
  | ds :: draws => (s.generate ds).bind fun r =>
      (r.1.generateAll draws).map fun rest => (rest.1, r.2 :: rest.2)

theorem Sender.generateAll_append (s : Sender) (draws draws' : List (List Draw)) :
    s.generateAll (draws ++ draws') = (s.generateAll draws).bind fun r =>
      (r.1.generateAll draws').map fun r' => (r'.1, r.2 ++ r'.2) := by
  induction draws generalizing s with
  | nil => simp [Sender.generateAll]
  | cons ds draws ih =>
      rw [List.cons_append, Sender.generateAll, Sender.generateAll, Option.bind_assoc]
      congr 1
      funext r
      rw [ih]
      cases r.1.generateAll draws with
      | none => rfl
      | some rest => cases hlast : rest.1.generateAll draws' <;> simp [hlast]

theorem Sender.generate_flatten (s : Sender) (draws : List (List Draw)) :
    s.generate draws.flatten = (s.generateAll draws).map fun r => (r.1, r.2.flatten) := by
  induction draws generalizing s with
  | nil => rfl
  | cons ds draws ih =>
      rw [List.flatten_cons, Sender.generate_append, Sender.generateAll]
      cases s.generate ds with
      | none => rfl
      | some r =>
          rw [Option.bind_some, Option.bind_some, ih]
          cases r.1.generateAll draws <;> simp

theorem Sender.length_generateAll {r : Sender × List (List (List UInt8))}
    (h : s.generateAll draws = some r) : r.2.map List.length = draws.map List.length := by
  induction draws generalizing s r with
  | nil =>
      rw [← Option.some.inj h]
      rfl
  | cons ds draws ih =>
      obtain ⟨first, hfirst, h⟩ := Option.bind_eq_some_iff.mp h
      obtain ⟨rest, hrest, rfl⟩ := Option.map_eq_some_iff.mp h
      rw [List.map_cons, List.map_cons, ih hrest, Sender.length_generate hfirst]

theorem Sender.generateAll_take {r : Sender × List (List (List UInt8))}
    (h : s.generateAll draws = some r) (n : Nat) :
    ∃ s', s.generateAll (draws.take n) = some (s', r.2.take n) := by
  induction draws generalizing s r n with
  | nil =>
      rw [← Option.some.inj h]
      exact ⟨s, by simp [Sender.generateAll]⟩
  | cons ds draws ih =>
      cases n with
      | zero => exact ⟨s, rfl⟩
      | succ n =>
          obtain ⟨first, hfirst, h⟩ := Option.bind_eq_some_iff.mp h
          obtain ⟨rest, hrest, rfl⟩ := Option.map_eq_some_iff.mp h
          obtain ⟨s', hs'⟩ := ih hrest n
          refine ⟨s', ?_⟩
          rw [List.take_succ_cons, Sender.generateAll, hfirst, Option.bind_some, hs']
          rfl

/-! ## Frames -/

theorem packUnsigned_some {w n : Nat} {bytes : List UInt8} (h : packUnsigned w n = some bytes) :
    n < 256 ^ w ∧ bytes = Bytes.toBE w n := by
  unfold packUnsigned at h
  split_ifs at h with hfits
  exact ⟨hfits.2, (Option.some.inj h).symm⟩

theorem buildMoldudp64Frame_some {frame : List UInt8}
    (h : buildMoldudp64Frame seq msgs = some frame) :
    seq < 2 ^ 64 ∧ msgs.length ≤ 65535 ∧ ∃ rest, frame = session ++ (Bytes.toBE 8 seq ++ rest) := by
  obtain ⟨seqBytes, hseq, h⟩ := Option.bind_eq_some_iff.mp h
  obtain ⟨count, hcount, h⟩ := Option.bind_eq_some_iff.mp h
  obtain ⟨body, -, h⟩ := Option.bind_eq_some_iff.mp h
  obtain ⟨hseqlt, rfl⟩ := packUnsigned_some hseq
  obtain ⟨hcountlt, rfl⟩ := packUnsigned_some hcount
  refine ⟨by omega, by omega, Bytes.toBE 2 msgs.length ++ body.flatten, ?_⟩
  rw [← Option.some.inj h]
  simp

/-- The frames of the groups, of which the first has the number `i`. -/
def Framed (batch i : Nat) (groups : List (List (List UInt8))) (frames : List (List UInt8)) :
    Prop :=
  List.Forall₂ (fun g frame => buildMoldudp64Frame (1 + g.2 * batch : Nat) g.1 = some frame)
    (groups.zipIdx i) frames

theorem Framed.length_eq (h : Framed batch i groups frames) :
    groups.length = frames.length := by
  rw [← List.Forall₂.length_eq h, List.length_zipIdx]

theorem Framed.append {groups' : List (List (List UInt8))}
    {frames' : List (List UInt8)} (h : Framed batch i groups frames)
    (h' : Framed batch (i + groups.length) groups' frames') :
    Framed batch i (groups ++ groups') (frames ++ frames') := by
  rw [Framed, List.zipIdx_append]
  exact List.rel_append h h'

theorem Framed.take (h : Framed batch i groups frames) (n : Nat) :
    Framed batch i (groups.take n) (frames.take n) := by
  have hzip : (groups.take n).zipIdx i = (groups.zipIdx i).take n := by
    apply List.ext_getElem?
    intro k
    rw [List.getElem?_zipIdx, List.getElem?_take, List.getElem?_take, List.getElem?_zipIdx]
    split_ifs <;> rfl
  rw [Framed, hzip]
  exact List.forall₂_take n h

theorem Framed.getElem {k : Nat} {frame : List UInt8} (h : Framed batch i groups frames)
    (hframe : frames[k]? = some frame) :
    ∃ g, groups[k]? = some g ∧ buildMoldudp64Frame (1 + (i + k) * batch : Nat) g = some frame := by
  obtain ⟨hlt, rfl⟩ := List.getElem?_eq_some_iff.mp hframe
  have hgroups : k < groups.length := by
    rw [h.length_eq]
    exact hlt
  have hbuilt := List.Forall₂.get h (i := k) (by simpa using hgroups) hlt
  simp only [List.get_eq_getElem, List.getElem_zipIdx] at hbuilt
  exact ⟨groups[k], List.getElem?_eq_getElem hgroups, hbuilt⟩

/-- A pool holds the frames of what was generated for it. -/
theorem buildPool_some {built : Nat} {r : Sender × List (List UInt8)}
    (h : buildPool ⟨batch, burst⟩ (1 + built * batch : Nat) i s draws = some r) :
    ∃ groups, s.generateAll draws = some (r.1, groups) ∧
      Framed batch (built + i) groups r.2 := by
  induction draws generalizing s i r with
  | nil =>
      rw [← Option.some.inj h]
      exact ⟨[], rfl, .nil⟩
  | cons ds draws ih =>
      obtain ⟨first, hfirst, h⟩ := Option.bind_eq_some_iff.mp h
      obtain ⟨frame, hframe, h⟩ := Option.bind_eq_some_iff.mp h
      obtain ⟨rest, hrest, h⟩ := Option.bind_eq_some_iff.mp h
      obtain rfl := Option.some.inj h
      obtain ⟨groups, hgroups, hframed⟩ := ih hrest
      have hseq : ((1 + built * batch : Nat) : Int) + i * batch =
          (1 + (built + i) * batch : Nat) := by
        push_cast
        ring
      rw [hseq] at hframe
      refine ⟨first.2 :: groups, ?_, .cons hframe hframed⟩
      rw [Sender.generateAll, hfirst, Option.bind_some, hgroups]
      rfl

theorem Sender.InRange.buildPool (h : s.InRange) (hbatch : batch ≤ 65535)
    (hdraws : ∀ ds ∈ draws, ds.length = batch)
    (hseq : seq + (i + draws.length) * batch ≤ 2 ^ 64) (hpos : 0 < batch) :
    ∃ r, ItchSender.buildPool ⟨batch, burst⟩ seq i s draws = some r := by
  induction draws generalizing s i with
  | nil => exact ⟨_, rfl⟩
  | cons ds draws ih =>
      obtain ⟨first, hfirst, hnext, hlengths⟩ := h.generate ds
      have hcount := Sender.length_generate hfirst
      rw [hdraws ds List.mem_cons_self] at hcount
      rw [List.length_cons] at hseq
      have hsum : (i + (draws.length + 1)) * batch =
          i * batch + draws.length * batch + batch := by ring
      have hlater : (i + 1 + draws.length) * batch =
          i * batch + draws.length * batch + batch := by ring
      have hnumber : (seq : Int) + i * batch = (seq + i * batch : Nat) := by push_cast; rfl
      have hfits : ∀ bytes ∈ first.2, Framing.Fits 2 bytes := by
        intro bytes hbytes
        have hlength := hlengths bytes hbytes
        unfold Framing.Fits
        omega
      obtain ⟨rest, hrest⟩ := ih hnext
        (fun ds' hds' => hdraws ds' (List.mem_cons_of_mem ds hds')) (i := i + 1) (by omega)
      rw [ItchSender.buildPool]
      dsimp only [Option.bind_eq_bind]
      rw [hfirst, Option.bind_some, hnumber,
        buildMoldudp64Frame_eq (by omega) (by omega) hfits,
        Option.bind_some, hrest]
      exact ⟨_, rfl⟩

/-! ## The main loop -/

def Main.run (args : Args) (first : Draws args) (steps : List (MainStep args)) : Option Main :=
  (Main.start args first).bind fun m => Runs.exec Main.step m steps

def MainStep.built {args : Args} : MainStep args → List (List Draw)
  | .sendto => []
  | .count => []
  | .rebuild draws => draws.frames

def drawn {args : Args} (first : Draws args) (steps : List (MainStep args)) : List (List Draw) :=
  first.frames ++ steps.flatMap MainStep.built

/-- What the main loop keeps: the frames built so far, sent or not, are the frames of
what was generated so far, and the counters count the bursts that are complete. -/
structure Keeps (batch burst : Nat) (draws : List (List Draw)) (m : Main) : Prop where
  framed : ∃ groups, Sender.new.generateAll draws = some (m.sender, groups) ∧
    Framed batch 0 groups (m.datagrams ++ m.unsent.getD [])
  frames : ∀ ds ∈ draws, ds.length = batch
  seq : m.seq = 1 + m.sentPackets * batch
  messages : m.sentMsgs = m.sentPackets * batch
  packets : m.sentPackets + m.unsent.elim 0 (fun _ => burst) =
    m.datagrams.length + (m.unsent.getD []).length
  unsent_le : (m.unsent.getD []).length ≤ burst

namespace Keeps

theorem inRange (h : Keeps batch burst draws m) : m.sender.InRange := by
  obtain ⟨groups, hgroups, -⟩ := h.framed
  have hflat := Sender.generate_flatten .new draws
  rw [hgroups, Option.map_some] at hflat
  have hsender := (Sender.generate_some hflat).1
  dsimp only at hsender
  rw [hsender]
  exact (Sender.inRange_new.generateMessages _).2

theorem sentPackets_eq (h : Keeps batch burst draws m) (hnone : m.unsent = none) :
    m.sentPackets = m.datagrams.length := by
  have hpackets := h.packets
  rw [hnone] at hpackets
  simpa using hpackets

theorem seq_eq (h : Keeps batch burst draws m) (hnone : m.unsent = none) :
    m.seq = (1 + m.datagrams.length * batch : Nat) := by
  rw [h.seq, h.sentPackets_eq hnone]
  push_cast
  rfl

theorem rebuild (h : Keeps batch burst draws m) (hnone : m.unsent = none)
    {more : Draws ⟨batch, burst⟩}
    {r : Sender × List (List UInt8)}
    (hpool : buildPool ⟨batch, burst⟩ m.seq 0 m.sender more.frames = some r) :
    Keeps batch burst (draws ++ more.frames) { m with sender := r.1, unsent := some r.2 } := by
  obtain ⟨groups, hgroups, hframed⟩ := h.framed
  rw [hnone, Option.getD_none, List.append_nil] at hframed
  rw [h.seq_eq hnone] at hpool
  obtain ⟨groups', hgroups', hframed'⟩ := buildPool_some hpool
  have hbuilt : groups.length = m.datagrams.length := hframed.length_eq
  have hlength : groups'.length = burst := by
    rw [← List.length_map (f := List.length), Sender.length_generateAll hgroups', List.length_map]
    exact more.length_frames
  constructor
  case framed =>
    refine ⟨groups ++ groups', ?_, ?_⟩
    · rw [Sender.generateAll_append, hgroups, Option.bind_some, hgroups']
      rfl
    · apply hframed.append
      rw [Nat.zero_add, hbuilt]
      exact hframed'
  case frames =>
    intro ds hds
    rcases List.mem_append.mp hds with hds | hds
    · exact h.frames ds hds
    · exact more.length_frame ds hds
  case seq => exact h.seq
  case messages => exact h.messages
  case packets =>
    dsimp only [Option.elim, Option.getD_some]
    rw [← hframed'.length_eq, hlength, h.sentPackets_eq hnone]
  case unsent_le => exact (hframed'.length_eq.symm.trans hlength).le

theorem step (h : Keeps batch burst draws m) {action : MainStep ⟨batch, burst⟩}
    (hstep : m.step action = some m') :
    Keeps batch burst (draws ++ action.built) m' := by
  unfold Main.step at hstep
  cases action with
  | sendto =>
      rw [MainStep.built, List.append_nil]
      cases hunsent : m.unsent with
      | none => simp [hunsent] at hstep
      | some pool =>
          cases pool with
          | nil => simp [hunsent] at hstep
          | cons frame rest =>
              simp only [hunsent, Option.some.injEq] at hstep
              subst hstep
              have hframed := h.framed
              have hpackets := h.packets
              have hle := h.unsent_le
              rw [hunsent] at hframed hpackets hle
              refine ⟨?_, h.frames, h.seq, h.messages, ?_, (Nat.le_succ _).trans hle⟩
              · simpa using hframed
              · dsimp only [Option.elim, Option.getD_some] at hpackets ⊢
                rw [List.length_append]
                rw [List.length_cons] at hpackets
                simp only [List.length_cons, List.length_nil]
                omega
  | count =>
      rw [MainStep.built, List.append_nil]
      cases hunsent : m.unsent with
      | none => simp [hunsent] at hstep
      | some pool =>
          cases pool with
          | cons frame rest => simp [hunsent] at hstep
          | nil =>
              simp only [hunsent, Option.some.injEq] at hstep
              subst hstep
              have hframed := h.framed
              have hpackets := h.packets
              have hseq := h.seq
              have hmessages := h.messages
              rw [hunsent] at hframed hpackets
              refine ⟨hframed, h.frames, ?_, ?_, ?_, Nat.zero_le _⟩
              · dsimp only
                rw [hseq, Int.add_mul, Int.add_assoc]
              · dsimp only
                rw [hmessages, Int.add_mul]
              · simpa using hpackets
  | rebuild more =>
      cases hunsent : m.unsent with
      | some pool => simp [hunsent] at hstep
      | none =>
          simp only [hunsent] at hstep
          obtain ⟨r, hpool, hsome⟩ := Option.bind_eq_some_iff.mp hstep
          rw [← Option.some.inj hsome]
          exact h.rebuild hunsent hpool

theorem start {first : Draws ⟨batch, burst⟩} (hstart : Main.start ⟨batch, burst⟩ first = some m) :
    Keeps batch burst first.frames m := by
  obtain ⟨r, hpool, hsome⟩ := Option.bind_eq_some_iff.mp hstart
  rw [← Option.some.inj hsome]
  have hempty : Keeps batch burst []
      { sender := .new, unsent := none, seq := 1, sentPackets := 0, sentMsgs := 0,
        datagrams := [] } :=
    ⟨⟨[], rfl, .nil⟩, fun _ hds => (by cases hds), by rw [Int.zero_mul]; rfl,
      (Int.zero_mul _).symm, rfl, Nat.zero_le _⟩
  exact hempty.rebuild rfl hpool

theorem run {first : Draws ⟨batch, burst⟩} {steps : List (MainStep ⟨batch, burst⟩)}
    (hrun : Main.run ⟨batch, burst⟩ first steps = some m) :
    Keeps batch burst (drawn first steps) m := by
  obtain ⟨m₀, hstart, hexec⟩ := Option.bind_eq_some_iff.mp hrun
  apply Runs.exec_partial (fun steps m => Keeps batch burst (drawn first steps) m) ?_ ?_ hexec
  · rw [drawn, List.flatMap_nil, List.append_nil]
    exact .start hstart
  · intro pre action m m' _ _ hkeeps hstep
    rw [drawn, List.flatMap_append, List.flatMap_singleton, ← List.append_assoc]
    exact hkeeps.step hstep

/-- While the numbers fit in the header, the loop never stops at a pool. -/
theorem rebuilds (h : Keeps batch burst draws m) (hbatch : 0 < batch ∧ batch ≤ 65535)
    (hnone : m.unsent = none) (hseq : m.seq + burst * batch ≤ 2 ^ 64)
    (more : Draws ⟨batch, burst⟩) : ∃ m', m.step (.rebuild more) = some m' := by
  obtain ⟨r, hpool⟩ : ∃ r, buildPool ⟨batch, burst⟩ m.seq 0 m.sender more.frames = some r := by
    rw [h.seq_eq hnone] at hseq ⊢
    apply h.inRange.buildPool hbatch.2 more.length_frame _ hbatch.1
    rw [more.length_frames, Nat.zero_add]
    exact_mod_cast hseq
  refine ⟨{ m with sender := r.1, unsent := some r.2 }, ?_⟩
  simp only [Main.step, hnone, hpool]
  rfl

end Keeps

/-- A datagram of a stream: its number is one more than the messages before it, and the
receiver finds its messages. -/
structure Delivers (before : Nat) (msgs : List (List UInt8)) (datagram : List UInt8) :
    Prop where
  session : datagram.take 10 = session
  number : Bytes.ofBE ((datagram.drop 10).take 8) = 1 + before
  messages : UdpReceiver.parseMoldudp64 datagram = some msgs

theorem delivers_of_built {k : Nat} {frame : List UInt8}
    (hframe : buildMoldudp64Frame (1 + k * batch : Nat) msgs = some frame)
    (hlengths : ∀ bytes ∈ msgs, 20 ≤ bytes.length ∧ bytes.length ≤ 42) :
    Delivers (k * batch) msgs frame := by
  obtain ⟨hseq, hcount, rest, hrest⟩ := buildMoldudp64Frame_some hframe
  have hsession : session.length = 10 := rfl
  constructor
  case session => rw [hrest, List.take_left' hsession]
  case number =>
    rw [hrest, List.drop_left' hsession, List.take_left' Bytes.length_toBE,
      Bytes.ofBE_toBE (by omega)]
  case messages =>
    have hencodable : Encodable (1 + k * batch) msgs := by
      refine ⟨hseq, hcount, ?_⟩
      intro bytes hbytes
      have hlength := hlengths bytes hbytes
      omega
    obtain ⟨frame', hframe', hparse⟩ := hencodable.parses
    rw [Option.some.inj (hframe.symm.trans hframe')]
    exact hparse

theorem length_flatten_take {α : Type*} {k : Nat} {groups : List (List α)}
    (h : ∀ g ∈ groups, g.length = batch) (hk : k ≤ groups.length) :
    (groups.take k).flatten.length = k * batch := by
  have hsizes : (groups.take k).map List.length = List.replicate k batch := by
    apply List.eq_replicate_iff.mpr
    constructor
    · rw [List.length_map, List.length_take, Nat.min_eq_left hk]
    · intro n hn
      obtain ⟨g, hg, rfl⟩ := List.mem_map.mp hn
      exact h g (List.mem_of_mem_take hg)
  rw [List.length_flatten, hsizes, List.sum_replicate_nat]

namespace Keeps

theorem sent (h : Keeps batch burst draws m) :
    ∃ s groups, Sender.new.generate (draws.take m.datagrams.length).flatten =
        some (s, List.flatten groups) ∧
      Framed batch 0 groups m.datagrams ∧ ∀ g ∈ groups, List.length g = batch := by
  obtain ⟨groups, hgroups, hframed⟩ := h.framed
  obtain ⟨s, hs⟩ := Sender.generateAll_take hgroups m.datagrams.length
  have hsizes := Sender.length_generateAll hs
  refine ⟨s, groups.take m.datagrams.length, ?_, ?_, ?_⟩
  · rw [Sender.generate_flatten, hs]
    rfl
  · have htake := hframed.take m.datagrams.length
    rwa [List.take_left] at htake
  · intro g hg
    have hmem : g.length ∈ (draws.take m.datagrams.length).map List.length := by
      rw [← hsizes]
      exact List.mem_map_of_mem hg
    obtain ⟨ds, hds, hlength⟩ := List.mem_map.mp hmem
    rw [← hlength]
    exact h.frames ds (List.mem_of_mem_take hds)

theorem sentPackets_le (h : Keeps batch burst draws m) : m.sentPackets ≤ m.datagrams.length := by
  have hpackets := h.packets
  have hle := h.unsent_le
  cases hunsent : m.unsent with
  | none => exact (h.sentPackets_eq hunsent).le
  | some rest =>
      rw [hunsent] at hpackets hle
      dsimp only [Option.elim, Option.getD_some] at hpackets hle
      omega

end Keeps

/-- The random choices for the messages that have been sent. -/
def sentChoices {args : Args} (first : Draws args) (steps : List (MainStep args)) (m : Main) :
    List Choices :=
  ((drawn first steps).take m.datagrams.length).flatten.map Draw.choices

theorem Keeps.delivers (h : Keeps batch burst draws m) :
    ∃ s groups, Sender.new.generate (draws.take m.datagrams.length).flatten =
        some (s, List.flatten groups) ∧
      groups.length = m.datagrams.length ∧ (∀ g ∈ groups, g.length = batch) ∧
      ∀ k datagram, m.datagrams[k]? = some datagram → ∃ g, groups[k]? = some g ∧
        Delivers (groups.take k).flatten.length g datagram := by
  obtain ⟨s, groups, hgenerate, hframed, hsizes⟩ := h.sent
  refine ⟨s, groups, hgenerate, hframed.length_eq, hsizes, ?_⟩
  intro k datagram hdatagram
  obtain ⟨g, hg, hbuilt⟩ := hframed.getElem hdatagram
  obtain ⟨hlt, -⟩ := List.getElem?_eq_some_iff.mp hg
  have hmem := List.mem_of_getElem? hg
  rw [Nat.zero_add] at hbuilt
  refine ⟨g, hg, ?_⟩
  rw [length_flatten_take hsizes hlt.le]
  apply delivers_of_built hbuilt
  intro bytes hbytes
  obtain ⟨r, hr, -, hlengths⟩ := Sender.inRange_new.generate (draws.take m.datagrams.length).flatten
  obtain rfl := Option.some.inj (hgenerate.symm.trans hr)
  exact hlengths bytes (List.mem_flatten_of_mem hmem hbytes)

/-- **What is sent is one stream without a gap.** Whatever the draws, and wherever the
main loop is left: the datagrams carry the messages of one call of the generator, in
order and none twice, and each is numbered one more than the messages before it.
`sent_msgs` never counts a message that was not sent, and between two bursts it counts
them all; and the loop goes on as long as the numbers fit in the header. -/
theorem main_streams (batch burst : Nat) (first : Draws ⟨batch, burst⟩)
    (steps : List (MainStep ⟨batch, burst⟩)) (m : Main)
    (hrun : Main.run ⟨batch, burst⟩ first steps = some m) :
    (∃ s msgs, Sender.new.generate ((drawn first steps).take m.datagrams.length).flatten =
        some (s, List.flatten msgs) ∧
      msgs.length = m.datagrams.length ∧ (∀ g ∈ msgs, g.length = batch) ∧
      (∀ k datagram, m.datagrams[k]? = some datagram → ∃ g, msgs[k]? = some g ∧
        Delivers (msgs.take k).flatten.length g datagram) ∧
      m.sentMsgs ≤ msgs.flatten.length ∧
      (m.unsent = none → m.sentMsgs = msgs.flatten.length)) ∧
    (0 < batch ∧ batch ≤ 65535 → m.unsent = none →
      m.seq + burst * batch ≤ 2 ^ 64 →
        ∀ draws : Draws ⟨batch, burst⟩, ∃ m', m.step (.rebuild draws) = some m') := by
  have hkeeps := Keeps.run hrun
  obtain ⟨s, groups, hgenerate, hlength, hsizes, hdelivers⟩ := hkeeps.delivers
  have htotal : groups.flatten.length = m.datagrams.length * batch := by
    have htake := length_flatten_take hsizes (Nat.le_refl _)
    rwa [List.take_length, hlength] at htake
  refine ⟨⟨s, groups, hgenerate, hlength, hsizes, hdelivers, ?_, ?_⟩, hkeeps.rebuilds⟩
  · rw [hkeeps.messages, htotal, Nat.cast_mul]
    exact Int.mul_le_mul_of_nonneg_right hkeeps.sentPackets_le (Int.natCast_nonneg batch)
  · intro hnone
    rw [hkeeps.messages, htotal, hkeeps.sentPackets_eq hnone, Nat.cast_mul]

def twoAdds : Draws ⟨2, 1⟩ := ⟨[[⟨adding, 0⟩, ⟨adding, 5⟩]], by decide, by decide⟩

def cancelAndAdd : Draws ⟨2, 1⟩ := ⟨[[⟨cancelling, 7⟩, ⟨adding, 8⟩]], by decide, by decide⟩

def twoBursts : List (MainStep ⟨2, 1⟩) := [.sendto, .count, .rebuild cancelAndAdd, .sendto, .count]

theorem main_streams_twoBursts : ∃ m, Main.run ⟨2, 1⟩ twoAdds twoBursts = some m ∧
    m.datagrams.length = 2 ∧ ∃ msgs : List (List (List UInt8)), m.sentMsgs = msgs.flatten.length ∧
      ∀ k datagram, m.datagrams[k]? = some datagram → ∃ g, msgs[k]? = some g ∧
        Delivers (msgs.take k).flatten.length g datagram := by
  obtain ⟨m, hrun, hfacts⟩ := Option.map_eq_some_iff.mp
    (show (Main.run ⟨2, 1⟩ twoAdds twoBursts).map
      (fun m => (m.datagrams.length, m.unsent.isSome)) = some (2, false) from by decide)
  obtain ⟨hlength, hunsent⟩ := Prod.mk.inj hfacts
  obtain ⟨⟨s, msgs, -, -, -, hdelivers, -, hcount⟩, -⟩ :=
    main_streams 2 1 twoAdds twoBursts m hrun
  exact ⟨m, hrun, hlength, msgs, hcount (Option.not_isSome_iff_eq_none.mp (by simp [hunsent])),
    hdelivers⟩

end UltraHft.Tools.ItchSender
