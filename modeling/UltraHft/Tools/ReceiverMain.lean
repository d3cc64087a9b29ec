import UltraHft.Lib.Binary64
import UltraHft.Lib.Runs
import UltraHft.Lib.Tally
import UltraHft.Tools.UdpReceiver

/-!
# The main loop of the receiver

`main` of `udp_receiver.py`, from one `recvfrom` to the next, and a datagram of which
a `KeyboardInterrupt` leaves the rest.  The clock is read in seconds, as floats.
`none` is an exception that nothing catches.
-/

namespace UltraHft.Tools.UdpReceiver

open UltraHft.Lib

/-- The locals of `main`.  A `defaultdict` keeps the order in which its keys came. -/
structure Receiver where
  counters : List (List Char × Nat)
  packets : Nat
  messages : Nat
  lastReport : Binary64

/-- A line of numbers: when it is printed, and what it says. -/
structure Report where
  time : Binary64
  elapsed : Binary64
  packets : Nat
  messages : Nat
  rate : Binary64
  byType : List (List Char × Nat)
  deriving DecidableEq

/-- `MSG_TYPES.get(k.encode(), k)`; the keys of the table are ASCII. -/
def nameOf (key : List Char) : List Char :=
  match msgTypes.find? fun entry => [entry.1] = key with
  | some (_, name) => name.toList
  | none => key

def itemLe (a b : List Char × Nat) : Bool := a.1 < b.1 ∨ a.1 = b.1 ∧ a.2 ≤ b.2

/-- `names[name] = v` in a dictionary. -/
def assign (names : List (List Char × Nat)) (e : List Char × Nat) : List (List Char × Nat) :=
  if e.1 ∈ names.map Prod.fst then
    names.map fun e' => if e'.1 = e.1 then e else e'
  else names ++ [e]

namespace Receiver

def new (start : Binary64) : Receiver := ⟨[], 0, 0, start⟩

def countMessage (r : Receiver) (msg : List UInt8) : Option Receiver := do
  let r := { r with messages := r.messages + 1 }
  let info ← parseItchMessage msg
  some { r with counters := Tally.bump r.counters (info.rawType.getD ['?']) }

/-- The line that is printed each second. -/
def report (r : Receiver) (start now : Binary64) : Report where
  time := now
  elapsed := now - start
  packets := r.packets
  messages := r.messages
  rate := if 0 < now - start then (r.messages : Binary64) / (now - start) else 0
  byType := (r.counters.mergeSort itemLe).map fun e => (nameOf e.1, e.2)

/-- What is printed after the loop; the names are the keys of a new dictionary.  Here
nothing guards the division. -/
def summary (r : Receiver) (start now : Binary64) : Option Report :=
  let elapsed := now - start
  if elapsed = 0 then none
  else some
    { time := now
      elapsed := elapsed
      packets := r.packets
      messages := r.messages
      rate := (r.messages : Binary64) / elapsed
      byType := (r.counters.map fun e => (nameOf e.1, e.2)).foldl assign [] }

def receive (r : Receiver) (start : Binary64) (data : List UInt8) (now : Binary64) :
    Option (Receiver × List Report) := do
  let r := { r with packets := r.packets + 1 }
  let msgs ← parseMoldudp64 data
  let r ← msgs.foldlM countMessage r
  if 1.0 ≤ now - r.lastReport then
    some ({ r with lastReport := now }, [r.report start now])
  else some (r, [])

end Receiver

/-- What `recvfrom` comes to. -/
inductive Reception where
  | datagram (data : List UInt8) (now : Binary64)
  | timeout

def Reception.step (start : Binary64) (s : Receiver × List Report) :
    Reception → Option (Receiver × List Report)
  | .timeout => some s
  | .datagram data now => (s.1.receive start data now).map fun r => (r.1, s.2 ++ r.2)

/-- The loop, up to the last datagram that is received as a whole. -/
def receiveAll (start : Binary64) (receptions : List Reception) :
    Option (Receiver × List Report) :=
  Runs.exec (Reception.step start) (Receiver.new start, []) receptions

end UltraHft.Tools.UdpReceiver
