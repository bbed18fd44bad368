import UoftOs.MsgQueue.Intact
import UoftOs.MsgQueue.WholeCalls

/-!
# Whole reads

A read whose buffer is too small for the message at the head of the ring should
leave it there. `FindsFitting` says that a call never meets this case.
-/

namespace UoftOs.MsgQueue

open Lib Lib.Frames Lib.Transition

section Drain
variable [Build] {N : Type} {mq : MqBackend N} {ms : List (List UInt8)}

end Drain

namespace Queue
variable {T : Type} [DecidableEq T] {s : Queue T} {ms : List (List UInt8)} {mq : MqBackend Empty}
  [Build] {t : T} {h : HandleId} {c : Call}

section ReadTraces

end ReadTraces

end Queue
end UoftOs.MsgQueue
