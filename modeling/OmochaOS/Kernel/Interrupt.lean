import OmochaOS.Kernel.Syscall

/-!
# Interrupts and exceptions (`core/interrupt.c`)

`send_interrupt_msg` and `send_exception_msg` turn a hardware event into a message: straight into
the buffer of a subscriber that waits for one, or into a pending slot that the next receive scans.
Both run the same code on different tables, so the wake-up they share is one definition.

`interrupt_handler` is the entry of every trap.  The stack frame it is called with starts the trapped
process's table entry, so the frame stands for the process.
-/

namespace OmochaOS

open BitFlags

namespace Kernel

/-- The subscriber is blocked in a receive that lets notifications in. -/
def WaitsForNotice (k : Kernel) (pid : Pid) : Prop :=
  k.Is pid procStatusReceving ∧
    ((k.pending pid).sender = procAny ∨ (k.pending pid).sender = procInterrupt)

instance (k : Kernel) (pid : Pid) : Decidable (k.WaitsForNotice pid) :=
  inferInstanceAs (Decidable (_ ∧ (_ ∨ _)))

/-- Store a notification in the buffer of a waiting subscriber and make it runnable. -/
def wakeWith (k : Kernel) (pid : Pid) (m : Message) : Kernel :=
  let k := k.writeMsg (k.buf pid) m
  k.setStatus pid (drop (k.status pid) procStatusReceving)

/-- `send_interrupt_msg(irq, pid)`. -/
def sendInterruptMsg (k : Kernel) (irq : ℕ) (pid : Pid) : Kernel :=
  let msg := k.pending pid
  if k.WaitsForNotice pid then
    k.wakeWith pid { msg with sender := procInterrupt, type := msgInterrupt, major := irq }
  else
    let k := k.setStatus pid (raise (k.status pid) procStatusGotint)
    k.setInterruptData irq { avail := true, data := irq }

/-- `send_exception_msg(exception, data, pid)`. -/
def sendExceptionMsg (k : Kernel) (exception data : ℕ) (pid : Pid) : Kernel :=
  let msg := k.pending pid
  if k.WaitsForNotice pid then
    k.wakeWith pid { msg with
      sender := procInterrupt, type := msgException, major := exception,
      data := { msg.data with d1 := data } }
  else
    let k := k.setStatus pid (raise (k.status pid) procStatusGotexc)
    k.setExceptionData exception { avail := true, data := data }

/-- The part of `interrupt_handler` for an exception with a subscriber.  `p` is the trapped process,
`intf` the address of its stack frame, `cr2` the register of that name. -/
def forwardException (fuel : ℕ) (k : Kernel) (p : Pid) (trapNo cr2 intf : ℕ) : Kernel :=
  let k := k.setStatus p (k.status p &&& procStatusError)
  let k := if trapNo = exceptionPF then k.setTrapNo p cr2 else k
  let k := k.sendExceptionMsg trapNo intf (k.exceptionSuscribed trapNo)
  k.scheduler fuel

/-- `interrupt_handler(interrupt_count, intf)`.  `interruptMethods` are the functions that drivers have
registered; `none` is the end of the line, where an exception nobody has subscribed stops the kernel.
System calls are entered one by one, not from here. -/
def interruptHandler (interruptMethods : ℕ → Option (Kernel → Kernel)) (fuel : ℕ) (k : Kernel)
    (interruptCount : ℕ) (p : Pid) (trapNo cr2 intf : ℕ) : Option Kernel :=
  if trapNo = irqTimer then some (if interruptCount = 0 then k.scheduler fuel else k)
  else if trapNo < exceptionCount then
    if k.exceptionSuscribed trapNo ≠ 0 then some (forwardException fuel k p trapNo cr2 intf)
    else none
  else if trapNo ≤ irq0 + hwIrqCount then
    let irq := trapNo - irq0
    let k :=
      match interruptMethods irq with
      | some func => func k
      | none => k
    if k.interruptSuscribed irq ≠ 0 then
      some (k.sendInterruptMsg irq (k.interruptSuscribed irq))
    else some k
  else some k

end Kernel

end OmochaOS
