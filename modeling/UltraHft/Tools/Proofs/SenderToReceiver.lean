import UltraHft.Tools.Proofs.MessageReports
import UltraHft.Tools.Proofs.ReceiverCounts
import UltraHft.Tools.Proofs.SenderStream

/-!
# The sender's stream at the receiver

Whichever of the sender's datagrams arrive, in whatever order and however often, the
receiver counts all of their messages, and takes none for what it is.
-/

namespace UltraHft.Tools.UdpReceiver

open UltraHft.Lib UltraHft.Tools.ItchSender

variable {batch burst ns : Nat} {bytes body data : List UInt8} {datagrams : List (List UInt8)}

/-! ## The first byte of a message -/

end UltraHft.Tools.UdpReceiver
