import OmochaOS.Kernel.Scheduler
import OmochaOS.Lib.IntrusiveList

/-!
# The two message system calls (`core/syscall_impl.c`)

`__is_dead_lock`, `__send_msg` and `__recv_msg`, translated branch by branch.  The build defines no
`__DEBUG__`, so `panic(..)` and `assert(..)` expand to nothing: where the source panics the model
goes on, and a comment says so.

The walks over sender queues and over the chain of blocked senders carry fuel.  A call returns
`none` when a walk does not end within the fuel, or when a pointer is read through null; otherwise
the result does not depend on the fuel.
-/

namespace OmochaOS

open IntrusiveList BitFlags

namespace Kernel

/-! ### The deadlock check -/

/-- The `do … while` loop that prints a send chain back to `src`. -/
def printSendChain (k : Kernel) (src : Pid) : ℕ → Pid → Option (List (List UInt8))
  | 0, _ => none
  | fuel + 1, p =>
    let to1 := (k.pending p).receiver
    if k.pid to1 = src then some [k.name to1]
    else (printSendChain k src fuel to1).map (k.name to1 :: ·)

/-- The `while (TRUE)` loop of `__is_dead_lock`, with `p` the process reached so far: the verdict
and the names printed. -/
def deadLockWalk (k : Kernel) (fuel : ℕ) (src dest : Pid) :
    ℕ → Pid → Option (Bool × List (List UInt8))
  | 0, _ => none
  | n + 1, p =>
    if k.Is p procStatusSending then
      if (k.pending p).receiver = src then
        (k.printSendChain src fuel dest).map fun names => (true, k.name dest :: names)
      else deadLockWalk k fuel src dest n (k.pending p).receiver
    else some (false, [])

/-- `__is_dead_lock(src, dest)`. -/
def isDeadLock (fuel : ℕ) (k : Kernel) (src dest : Pid) : Option (Bool × List (List UInt8)) :=
  k.deadLockWalk fuel src dest fuel dest

/-! ### Sending -/

/-- The condition of the first branch of `__send_msg`: `receiver` waits for a message and takes one
from the process whose pid is `senderPid`. -/
def ReadyFor (k : Kernel) (receiver senderPid : Pid) : Prop :=
  k.Is receiver procStatusReceving ∧ (k.pending receiver).ready = true ∧
    ((k.pending receiver).sender = procAny ∨ (k.pending receiver).sender = senderPid)

instance (k : Kernel) (receiver senderPid : Pid) : Decidable (k.ReadyFor receiver senderPid) :=
  inferInstanceAs (Decidable (_ ∧ _ ∧ (_ ∨ _)))

/-- First branch: copy the message at `msg` into the buffer the receiver waits on and wake it. -/
def deliver (k : Kernel) (receiver : Pid) (msg : PAddr) : Kernel :=
  let recvMsgPa := k.buf receiver
  let k := k.writeMsg recvMsgPa (k.memory msg)
  let k := k.wake receiver procStatusReceving
  k.writeMsg recvMsgPa { k.memory recvMsgPa with ready := false }

/-- The append of `sender` to the queue of `receiver`. -/
def appendQuene (fuel : ℕ) (k : Kernel) (receiver sender : Pid) : Option Kernel :=
  match k.queneHead receiver with
  | some p => (walkToLast k.queneBody fuel p).map fun last => k.setQueneBody last (some sender)
  | none => some (k.setQueneHead receiver (some sender))

/-- Second branch: park the message with the sender, block it and append it to the queue. -/
def queneSender (fuel : ℕ) (k : Kernel) (sender : Pid) (msgVa : VAddr) (receiver : Pid) :
    Option Kernel :=
  let k := k.setPMsg sender msgVa
  let k := k.block sender procStatusNormal procStatusSending
  (appendQuene fuel k receiver sender).map fun k => (k.setQueneBody sender none).scheduler fuel

/-- `msg->sender = sender->pid`, done before anything else. -/
def stampSender (k : Kernel) (sender : Pid) (msgVa : VAddr) : Kernel :=
  let msg := k.msgAddr sender msgVa
  k.writeMsg msg { k.memory msg with sender := k.pid sender }

/-- `__send_msg(sender, msg)`. -/
def sendMsg (fuel : ℕ) (k : Kernel) (sender : Pid) (msgVa : VAddr) : Option Kernel :=
  let msg := k.msgAddr sender msgVa
  let k := k.stampSender sender msgVa
  let receiver := (k.memory msg).receiver
  match isDeadLock fuel k (k.pid sender) receiver with
  | none => none
  | some (_, names) =>
    -- `panic(DEADLOCK)` on a positive verdict, and the assertion against self-sends, do nothing
    let k := k.print names
    if k.ReadyFor receiver (k.pid sender) then some (k.deliver receiver msg)
    else queneSender fuel k sender msgVa receiver

/-! ### Receiving -/

/-- The `for` loop over a table of pending notifications: the entry picked, its data, and whether a
second one was met.  An index of zero doubles as "none found so far". -/
def scanPending (table : ℕ → InterruptData) : List ℕ → ℕ × ℕ → (ℕ × ℕ) × Bool
  | [], found => (found, false)
  | i :: is, found =>
    if (table i).avail then
      if found.1 ≠ 0 then (found, true) else scanPending table is (i, (table i).data)
    else scanPending table is found

/-- The loop run over the first `count` slots, from "none found". -/
def scan (table : ℕ → InterruptData) (count : ℕ) : (ℕ × ℕ) × Bool :=
  scanPending table (List.range count) (0, 0)

/-- The interrupt branch of `__recv_msg`. -/
def recvInterrupt (k : Kernel) (receiver : Pid) (msg : PAddr) : Kernel :=
  let found := scan k.interruptSuscribedData hwIrqCount
  let irq := found.1.1
  -- the panic for `irq == 0` does nothing
  let k := k.writeMsg msg
    { k.memory msg with type := msgInterrupt, major := irq, sender := procInterrupt }
  let k := if found.2 then k else k.setStatus receiver (drop (k.status receiver) procStatusGotint)
  k.setInterruptData irq { k.interruptSuscribedData irq with avail := false }

/-- The exception branch of `__recv_msg`. -/
def recvException (k : Kernel) (receiver : Pid) (msg : PAddr) : Kernel :=
  let found := scan k.exceptionSuscribedData exceptionCount
  let exc := found.1.1
  -- the panic for `exc == 0` does nothing
  let k := k.writeMsg msg
    { k.memory msg with
      type := msgException, major := exc,
      data := { (k.memory msg).data with d1 := found.1.2 }, sender := procInterrupt }
  let k := if found.2 then k else k.setStatus receiver (drop (k.status receiver) procStatusGotexc)
  k.setExceptionData exc { k.exceptionSuscribedData exc with avail := false }

/-- Store the filter in the receiver's own buffer and block it. -/
def blockReceiver (fuel : ℕ) (k : Kernel) (receiver : Pid) (msgVa : VAddr) (recvFrom : ℕ) :
    Kernel :=
  let msg := k.msgAddr receiver msgVa
  let k := k.writeMsg msg { k.memory msg with ready := true, sender := recvFrom }
  let k := k.setPMsg receiver msgVa
  let k := k.block receiver procStatusRunning procStatusReceving
  k.scheduler fuel

/-- Where the filtered receive finds the sender in the receiver's queue. -/
inductive QueneSearch where
  /-- it is the head -/
  | head
  /-- it is linked from `prev` -/
  | middle (prev : Pid)
  /-- the end of the queue was reached: the assertion or the panic of the source -/
  | missing
  /-- the queue is empty and `p->quene_body` is read through the null pointer -/
  | nullHead
  /-- the walk goes on for ever -/
  | spinning
deriving DecidableEq

def queneSearch (fuel : ℕ) (k : Kernel) (receiver sender : Pid) : QueneSearch :=
  match k.queneHead receiver with
  | none => .nullHead
  | some p =>
    if p = sender then .head
    else
      match searchAfter k.queneBody sender fuel p with
      | .found prev => .middle prev
      | .missing => .missing
      | .spinning => .spinning

/-- The removal of `sender` from the queue of `receiver`. -/
def unlinkSender (fuel : ℕ) (k : Kernel) (receiver sender : Pid) : Option Kernel :=
  match queneSearch fuel k receiver sender with
  | .head => some ((k.setQueneHead receiver (k.queneBody sender)).setQueneBody sender none)
  | .middle prev => some ((k.setQueneBody prev (k.queneBody sender)).setQueneBody sender none)
  -- the panic "Sender not in quene" does nothing
  | .missing => some (k.setQueneBody sender none)
  | .nullHead => none
  | .spinning => none

/-- Copy the parked message of `sender` to `msg` and wake the sender. -/
def takeMsg (k : Kernel) (msg : PAddr) (sender : Pid) : Kernel :=
  let k := k.writeMsg msg (k.pending sender)
  let k := k.setPMsg sender 0
  k.wake sender procStatusSending

/-- `msg->receiver = receiver->pid`, done before anything else. -/
def stampReceiver (k : Kernel) (receiver : Pid) (msgVa : VAddr) : Kernel :=
  let msg := k.msgAddr receiver msgVa
  k.writeMsg msg { k.memory msg with receiver := k.pid receiver }

/-- The condition under which a filtered receive takes the parked message of `sender`. -/
def HasParked (k : Kernel) (receiver sender : Pid) : Prop :=
  k.buf sender ≠ 0 ∧ k.Is sender procStatusSending ∧ (k.pending sender).receiver = k.pid receiver

instance (k : Kernel) (receiver sender : Pid) : Decidable (k.HasParked receiver sender) :=
  inferInstanceAs (Decidable (_ ∧ _ ∧ _))

/-- The part of `__recv_msg` after the two notification branches. -/
def recvQuened (fuel : ℕ) (k : Kernel) (receiver : Pid) (msgVa : VAddr) (recvFrom : ℕ) :
    Option Kernel :=
  let msg := k.msgAddr receiver msgVa
  if recvFrom = procInterrupt then some (blockReceiver fuel k receiver msgVa recvFrom)
  else if recvFrom = procAny then
    match k.queneHead receiver with
    | some sender => some ((k.setQueneHead receiver (k.queneBody sender)).takeMsg msg sender)
    | none => some (blockReceiver fuel k receiver msgVa recvFrom)
  else if k.HasParked receiver recvFrom then
    (unlinkSender fuel k receiver recvFrom).map fun k => k.takeMsg msg recvFrom
  else some (blockReceiver fuel k receiver msgVa recvFrom)

/-- `recv_from` lets a notification in. -/
def AcceptsNotice (recvFrom : ℕ) : Prop := recvFrom = procInterrupt ∨ recvFrom = procAny

instance (recvFrom : ℕ) : Decidable (AcceptsNotice recvFrom) :=
  inferInstanceAs (Decidable (_ ∨ _))

/-- `__recv_msg(receiver, msg, recv_from)`. -/
def recvMsg (fuel : ℕ) (k : Kernel) (receiver : Pid) (msgVa : VAddr) (recvFrom : ℕ) :
    Option Kernel :=
  let msg := k.msgAddr receiver msgVa
  let k := k.stampReceiver receiver msgVa
  -- 0 is reflect msg
  if recvFrom = 0 then some k
  else if k.Is receiver procStatusGotint ∧ AcceptsNotice recvFrom then
    some (k.recvInterrupt receiver msg)
  else if k.Is receiver procStatusGotexc ∧ AcceptsNotice recvFrom then
    some (k.recvException receiver msg)
  else recvQuened fuel k receiver msgVa recvFrom

end Kernel

end OmochaOS
