import UltraHft.Tools.ItchSender

/-!
# The main loop of the sender

`main` of `itch_sender.py`, from one datagram to the next.  A step is what the
outside can see or interrupt: a datagram given to the socket, the counters after a
burst, the pool for the next one.  `none` is the `struct.error` of a value that
does not fit; the clock only spaces the bursts and decides when the loop is left.
-/

namespace UltraHft.Tools.ItchSender

/-- The options that the stream depends on. -/
structure Args where
  batch : Int
  burst : Int

/-- What one message takes from outside: the random choices and a clock reading. -/
structure Draw where
  choices : Choices
  nanoseconds : Nat

/-- The draws of a frame pool: `--burst` frames of `--batch` messages, and none where
the number is negative. -/
structure Draws (args : Args) where
  frames : List (List Draw)
  length_frames : frames.length = args.burst.toNat
  length_frame : ∀ frame ∈ frames, frame.length = args.batch.toNat

/-- `generate_messages`, down to the bytes. -/
def Sender.generate (s : Sender) : List Draw → Option (Sender × List (List UInt8))
  | [] => some (s, [])
  | d :: ds => do
      let (s, msg) := s.iteration d.choices
      let bytes ← msg.pack d.nanoseconds
      let (s, msgs) ← s.generate ds
      some (s, bytes :: msgs)

/-- The frame pool, from frame `i` on. -/
def buildPool (args : Args) (seq : Int) :
    Nat → Sender → List (List Draw) → Option (Sender × List (List UInt8))
  | _, s, [] => some (s, [])
  | i, s, draws :: rest => do
      let (s, msgs) ← s.generate draws
      let frame ← buildMoldudp64Frame (seq + i * args.batch) msgs
      let (s, frames) ← buildPool args seq (i + 1) s rest
      some (s, frame :: frames)

/-- The globals and locals of `main`.  `unsent` is what is left of the pool while it
is being sent, and `none` until the next one is built; `datagrams` is all that went
into the socket. -/
structure Main where
  sender : Sender
  unsent : Option (List (List UInt8))
  seq : Int
  sentPackets : Int
  sentMsgs : Int
  datagrams : List (List UInt8)

inductive MainStep (args : Args) where
  | sendto
  | count
  | rebuild (draws : Draws args)

namespace Main

variable {args : Args}

def start (args : Args) (draws : Draws args) : Option Main := do
  let (sender, framePool) ← buildPool args 1 0 .new draws.frames
  some { sender, unsent := some framePool, seq := 1, sentPackets := 0, sentMsgs := 0,
         datagrams := [] }

def step (m : Main) : MainStep args → Option Main
  | .sendto =>
      match m.unsent with
      | some (frame :: rest) =>
          some { m with unsent := some rest, datagrams := m.datagrams ++ [frame] }
      | _ => none
  | .count =>
      match m.unsent with
      | some [] =>
          some { m with
            unsent := none
            sentPackets := m.sentPackets + args.burst
            sentMsgs := m.sentMsgs + args.burst * args.batch
            seq := m.seq + args.burst * args.batch }
      | _ => none
  | .rebuild draws =>
      match m.unsent with
      | none => do
          let (sender, framePool) ← buildPool args m.seq 0 m.sender draws.frames
          some { m with sender, unsent := some framePool }
      | _ => none

end Main

end UltraHft.Tools.ItchSender
