import UltraHft.MarketData.DpdkPacketHandler

/-!
# The life of a port

A monitor of the calls to DPDK.  It accepts a call that DPDK permits in the state
that the port is in: a port is configured only after it was reported valid and
only while it is stopped, every queue is set up once before it is started,
packets are received only from a started port and each is given back, and a pool
is freed only once, when the port is closed.
-/

namespace UltraHft.MarketData

open UltraHft.Lib UltraHft.Lib.Outside

/-- `configured`: the numbers of queues asked for, and of those set up. -/
inductive PortPhase where
  | down
  | configured (rx tx : UInt16) (rxReady txReady : Nat)
  | started (rx : UInt16)
  | stopped
  deriving DecidableEq

/-- `pools` are the memory pools that exist, `held` the packets of the last burst
that were not given back, and `seen` counts the packets of all bursts. -/
structure Port where
  valid : Bool
  phase : PortPhase
  pools : List Nat
  held : List Nat
  seen : Nat
  deriving DecidableEq

namespace Port

def initial : Port := ⟨false, .down, [], [], 0⟩

def idle (p : Port) : Bool :=
  match p.phase with
  | .down => true
  | .configured _ _ _ _ => true
  | _ => false

section Step

variable {U : Type} {R : U → Type}

/-- A call to DPDK about port `port`, and its result. -/
def stepDpdk (port : UInt16) (p : Port) : (c : DpdkCall) → c.Result → Option Port
  | .ethDevIsValidPort id, (r : Bool) =>
      if id = port then some { p with valid := r } else none
  | .pktmbufPoolCreate _ _ _ _ _, (r : Option Nat) => some { p with pools := r.toList ++ p.pools }
  | .ethDevConfigure id rx tx, (r : Int) =>
      if id = port ∧ p.valid ∧ p.idle then
        some (if r < 0 then p else { p with phase := .configured rx tx 0 0 })
      else none
  | .ethRxQueueSetup id q _ _ pool, (r : Int) =>
      match p.phase with
      | .configured rx tx rxReady txReady =>
          if id = port ∧ q.toNat = rxReady ∧ q < rx ∧ pool ∈ p.pools then
            some (if r < 0 then p else { p with phase := .configured rx tx (rxReady + 1) txReady })
          else none
      | _ => none
  | .ethTxQueueSetup id q _ _, (r : Int) =>
      match p.phase with
      | .configured rx tx rxReady txReady =>
          if id = port ∧ q.toNat = txReady ∧ q < tx then
            some (if r < 0 then p else { p with phase := .configured rx tx rxReady (txReady + 1) })
          else none
      | _ => none
  | .ethDevStart id, (r : Int) =>
      match p.phase with
      | .configured rx tx rxReady txReady =>
          if id = port ∧ rxReady = rx.toNat ∧ txReady = tx.toNat then
            some (if r < 0 then p else { p with phase := .started rx })
          else none
      | _ => none
  | .ethPromiscuousEnable id, _ =>
      match p.phase with
      | .started _ => if id = port then some p else none
      | _ => none
  | .ethRxBurst id queue nbPkts, r =>
      match p.phase with
      | .started rx =>
          if id = port ∧ queue < rx ∧ nbPkts ≤ 256 ∧ p.held = [] then
            some { p with held := r.val.map Mbuf.handle, seen := p.seen + r.val.length }
          else none
      | _ => none
  | .pktmbufFree handle, _ =>
      match p.held with
      | held :: rest => if handle = held then some { p with held := rest } else none
      | [] => none
  | .ethDevStop id, _ =>
      match p.phase with
      | .started _ =>
          if id = port ∧ p.held = [] then some { p with phase := .stopped } else none
      | _ => none
  | .ethDevClose id, _ =>
      if id = port ∧ p.phase = .stopped then some { p with phase := .down, valid := false }
      else none
  | .mempoolFree pool, _ =>
      if p.phase = .down ∧ pool ∈ p.pools then some { p with pools := p.pools.erase pool }
      else none
  | _, _ => some p

def step (port : UInt16) (p : Port) :
    Event (DpdkCall ⊕ U) (Sum.elim DpdkCall.Result R) → Option Port
  | ⟨.inl c, r⟩ => stepDpdk port p c r
  | ⟨.inr _, _⟩ => some p

end Step

end Port

namespace DpdkPacketHandler

open Outside.Prog

variable {U : Type} {R : U → Type} {σ : Type} {h : DpdkPacketHandler U R σ} {config : DpdkConfig}
  {p : Port} {failed : Nat}

section Init

variable {pool : Nat} {rx tx q : UInt16} {rxReady txReady : Nat}

end Init

/-! ## Bursts -/

section Bursts

variable {callback : Option (PacketProcessCallback U R σ)} {ctx : Option Nat}

section Received

variable {burst : UInt16} {mbufs : List Mbuf}

end Received

end Bursts

/-! ## From the constructor to the destructor -/

end DpdkPacketHandler

end UltraHft.MarketData
