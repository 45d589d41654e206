import MikaBoo.Model.Services

/-!
# Request wrappers

The functions of `nucleus.h` that build a request on the stack of the caller, send
its address to the SSI and wait for the reply.
-/

namespace MikaBoo

/-- A call of a request wrapper, with its arguments. A `state_t *` is any word. -/
inductive Wrapper
  | geterrno
  | createProcess (s : Value)
  | createThread (s : Value)
  | terminateProcess
  | terminateThread
  | setpgmmgr (s : Option Tcb)
  | settlbmgr (s : Option Tcb)
  | setsysmgr (s : Option Tcb)
  | getcputime
  | waitforclock
  | doIo (device command data1 data2 : Value)
  | getProcessid (s : Tcb)
  | getParentprocid (s : Pcb)
  | getMythreadid

namespace Wrapper

/-- The words of the structure `req`, the request code first. -/
def req : Wrapper → List Value
  | geterrno => [.int 0]
  | createProcess s => [.int 1, s]
  | createThread s => [.int 2, s]
  | terminateProcess => [.int 3]
  | terminateThread => [.int 4]
  | setpgmmgr s => [.int 5, tcbPtr s]
  | settlbmgr s => [.int 6, tcbPtr s]
  | setsysmgr s => [.int 7, tcbPtr s]
  | getcputime => [.int 8]
  | waitforclock => [.int 9]
  | doIo device command data1 data2 => [.int 10, device, command, data1, data2]
  | getProcessid s => [.int 11, .tcb s]
  | getParentprocid s => [.int 13, .pcb s]
  | getMythreadid => [.int 12]

/-- The wrapper returns the word that the reply leaves in `retval`. -/
def hasRetval : Wrapper → Bool
  | terminateProcess | terminateThread | waitforclock => false
  | _ => true

/-- `msgsend(SSI, &req)`, in a caller with the registers `s`. -/
def msgsend (s : State) (req : Word) : State :=
  { s with a1 := SYS_SEND, a2 := .tcb .ssi, a3 := .int req, a4 := null }

/-- `msgrecv(SSI, &retval)`, or `msgrecv(SSI, NULL)` without a return value. -/
def msgrecv (w : Wrapper) (s : State) (retval : Word) : State :=
  { s with a1 := SYS_RECV, a2 := .tcb .ssi, a3 := if w.hasRetval then .int retval else null, a4 := null }

end Wrapper

end MikaBoo
