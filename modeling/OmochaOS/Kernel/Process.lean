import Mathlib.Logic.Function.Basic
import OmochaOS.Lib.BitFlags

/-!
# Processes, messages and the kernel state

The data the two system calls, the interrupt entry and the scheduler work on (`generic/typedefs.h`,
`core/process.h`, `core/interrupt.h`, `core/environment.h`).

A `process *` is an index of `proc_table`, the null pointer is `none`.  A process names its message
buffer by a virtual address; every access goes through `vir2phy` with the owner's page directory, so
memory is a map from physical addresses to message cells, one whole message for each address, and the
translation the page tables implement is part of the state.  (`MessageBytes` has the 32 bytes of each.)  System calls never change it.

Each field of a process has a reader and a writer on the kernel state, and one frame lemma for each
writer says that it changes nothing else.
-/

namespace OmochaOS

abbrev Pid := ℕ
abbrev VAddr := ℕ
abbrev PAddr := ℕ

/-- A page directory is named by its physical address. -/
abbrev PageDir := ℕ

/-! ### Status bits (`core/process.h`) -/

def procStatusSuspend : BitVec 32 := 0x000#32
def procStatusRunning : BitVec 32 := 0x001#32
def procStatusReady : BitVec 32 := 0x002#32
def procStatusGotint : BitVec 32 := 0x004#32
def procStatusGotexc : BitVec 32 := 0x008#32
def procStatusNormal : BitVec 32 := 0x000#32
def procStatusStop : BitVec 32 := 0x010#32
def procStatusError : BitVec 32 := 0x020#32
def procStatusSending : BitVec 32 := 0x040#32
def procStatusReceving : BitVec 32 := 0x080#32
def procStatusWating : BitVec 32 := 0x100#32
def procStatusHanging : BitVec 32 := 0x200#32

def procAny : ℕ := 0xFFFFFFFE
def procInterrupt : ℕ := 0xFFFFFFFF

def msgInterrupt : ℕ := 0x7FFFFFFF
def msgException : ℕ := 0x7EEEEEEE

def hwIrqCount : ℕ := 16
def exceptionCount : ℕ := 32

/-- `IRQ0`, the vector of the first hardware interrupt. -/
def irq0 : ℕ := 32
/-- `IRQ_TIMER`, with the timer where the APIC has it. -/
def irqTimer : ℕ := irq0 + 2
def exceptionPF : ℕ := 14

/-! ### Messages and processes (`generic/typedefs.h`) -/

/-- The sixteen payload bytes, read as the four words of `uint_arr`. -/
structure MessageData where
  d1 : ℕ
  d2 : ℕ
  d3 : ℕ
  d4 : ℕ
deriving DecidableEq, Inhabited

structure Message where
  sender : ℕ
  receiver : ℕ
  /-- the one-bit field `ready` -/
  ready : Bool
  /-- the remaining 31 bits of that word -/
  type : ℕ
  major : ℕ
  data : MessageData
deriving DecidableEq, Inhabited

/-- The registers the kernel reads back from a trapped process. -/
structure StackFrame where
  trapNo : ℕ
  eax : ℕ
  ebx : ℕ
  ecx : ℕ
  eip : ℕ
  esp : ℕ
  cs : ℕ
deriving DecidableEq, Inhabited

structure ProgInfo where
  programSize : ℕ
  programBreak : VAddr
  imageStart : VAddr
deriving DecidableEq, Inhabited

structure Process where
  stack : StackFrame
  pageDir : PageDir
  status : BitVec 32
  pid : Pid
  parentPid : Pid
  name : List UInt8
  pstack : VAddr
  pstackSize : ℕ
  exitStatus : ℕ
  pMsg : VAddr
  queneHeadSendingToThisProcess : Option Pid
  queneBody : Option Pid
  next : Option Pid
  progInfo : Option ProgInfo
deriving DecidableEq, Inhabited

/-- One slot of `interrupt_suscribed_data` or `exception_suscribed_data`. -/
structure InterruptData where
  avail : Bool
  data : ℕ
deriving DecidableEq, Inhabited

/-! ### The kernel state -/

structure Kernel where
  procTable : Pid → Process
  procList : Option Pid
  procRunning : Option Pid
  memory : PAddr → Message
  vir2phy : PageDir → VAddr → PAddr
  interruptSuscribed : ℕ → Pid
  interruptSuscribedData : ℕ → InterruptData
  exceptionSuscribed : ℕ → Pid
  exceptionSuscribedData : ℕ → InterruptData
  /-- names printed by `kprintfc` -/
  screen : List (List UInt8)

namespace Kernel

variable (k : Kernel) (p q : Pid)

/-! ### Field readers -/

def status : BitVec 32 := (k.procTable p).status
def pid : Pid := (k.procTable p).pid
def pageDir : PageDir := (k.procTable p).pageDir
def pMsg : VAddr := (k.procTable p).pMsg
def queneHead : Option Pid := (k.procTable p).queneHeadSendingToThisProcess
def queneBody : Option Pid := (k.procTable p).queneBody
def next : Option Pid := (k.procTable p).next
def name : List UInt8 := (k.procTable p).name
def trapNo : ℕ := (k.procTable p).stack.trapNo

/-- The C test `proc_table[p].status & mask`. -/
def Is (mask : BitVec 32) : Prop := BitFlags.Has (k.status p) mask

instance (mask : BitVec 32) : Decidable (k.Is p mask) :=
  inferInstanceAs (Decidable (BitFlags.Has _ _))

/-- `vir2phy(p->page_dir, va)`. -/
def msgAddr (va : VAddr) : PAddr := k.vir2phy (k.pageDir p) va

/-- `vir2phy(p->page_dir, p->p_msg)`: the physical address of the buffer `p` last blocked on. -/
def buf : PAddr := k.msgAddr p (k.pMsg p)

/-- The message in that buffer. -/
def pending : Message := k.memory (k.buf p)

/-! ### Field writers -/

/-- Rewrite one entry of `proc_table`. -/
def modProc (f : Process → Process) : Kernel :=
  { k with procTable := Function.update k.procTable p (f (k.procTable p)) }

def setStatus (s : BitVec 32) : Kernel := k.modProc p fun pr => { pr with status := s }
def setPMsg (va : VAddr) : Kernel := k.modProc p fun pr => { pr with pMsg := va }
def setQueneHead (h : Option Pid) : Kernel :=
  k.modProc p fun pr => { pr with queneHeadSendingToThisProcess := h }
def setQueneBody (b : Option Pid) : Kernel := k.modProc p fun pr => { pr with queneBody := b }
def setTrapNo (n : ℕ) : Kernel :=
  k.modProc p fun pr => { pr with stack := { pr.stack with trapNo := n } }

/-- `status &= ~bit; status |= PROC_STATUS_NORMAL; status |= PROC_STATUS_RUNNING`. -/
def wake (bit : BitVec 32) : Kernel :=
  k.setStatus p (BitFlags.raise (BitFlags.raise (BitFlags.drop (k.status p) bit)
    procStatusNormal) procStatusRunning)

/-- `status &= ~off; status |= on`. -/
def block (off on : BitVec 32) : Kernel :=
  k.setStatus p (BitFlags.raise (BitFlags.drop (k.status p) off) on)

/-- Store a message at a physical address: a message is one cell, no other cell changes. -/
def writeMsg (a : PAddr) (m : Message) : Kernel :=
  { k with memory := Function.update k.memory a m }

/-- Write one slot of `interrupt_suscribed_data`. -/
def setInterruptData (irq : ℕ) (d : InterruptData) : Kernel :=
  { k with interruptSuscribedData := Function.update k.interruptSuscribedData irq d }

/-- Write one slot of `exception_suscribed_data`. -/
def setExceptionData (exc : ℕ) (d : InterruptData) : Kernel :=
  { k with exceptionSuscribedData := Function.update k.exceptionSuscribedData exc d }

/-- `kprintfc` of some names. -/
def print (names : List (List UInt8)) : Kernel := { k with screen := k.screen ++ names }

/-! ### What each writer changes -/

variable {k p q}

/-- Reading a field after rewriting one entry of the table. -/
theorem procTable_modProc {β : Type*} (g : Process → β) (f : Process → Process) :
    (fun q => g ((k.modProc p f).procTable q)) =
      Function.update (fun q => g (k.procTable q)) p (g (f (k.procTable p))) := by
  funext q
  by_cases hq : q = p
  · subst hq
    simp [modProc]
  · simp [modProc, hq]

/-- A field the rewrite keeps reads as before. -/
theorem procTable_modProc_of_eq {β : Type*} (g : Process → β) {f : Process → Process}
    (hf : g (f (k.procTable p)) = g (k.procTable p)) :
    (fun q => g ((k.modProc p f).procTable q)) = fun q => g (k.procTable q) := by
  rw [procTable_modProc, hf]
  exact Function.update_eq_self p _

@[simp] theorem status_setStatus (s : BitVec 32) :
    (k.setStatus p s).status = Function.update k.status p s :=
  procTable_modProc Process.status _

@[simp] theorem pMsg_setPMsg (va : VAddr) :
    (k.setPMsg p va).pMsg = Function.update k.pMsg p va :=
  procTable_modProc Process.pMsg _

@[simp] theorem queneHead_setQueneHead (h : Option Pid) :
    (k.setQueneHead p h).queneHead = Function.update k.queneHead p h :=
  procTable_modProc Process.queneHeadSendingToThisProcess _

@[simp] theorem queneBody_setQueneBody (b : Option Pid) :
    (k.setQueneBody p b).queneBody = Function.update k.queneBody p b :=
  procTable_modProc Process.queneBody _

@[simp] theorem setStatus_frame (s : BitVec 32) :
    (k.setStatus p s).pid = k.pid ∧ (k.setStatus p s).pageDir = k.pageDir ∧
    (k.setStatus p s).pMsg = k.pMsg ∧ (k.setStatus p s).queneHead = k.queneHead ∧
    (k.setStatus p s).queneBody = k.queneBody ∧ (k.setStatus p s).next = k.next ∧
    (k.setStatus p s).name = k.name ∧ (k.setStatus p s).memory = k.memory ∧
    (k.setStatus p s).vir2phy = k.vir2phy := by
  refine ⟨?_, ?_, ?_, ?_, ?_, ?_, ?_, rfl, rfl⟩ <;> exact procTable_modProc_of_eq _ rfl

@[simp] theorem setPMsg_frame (va : VAddr) :
    (k.setPMsg p va).pid = k.pid ∧ (k.setPMsg p va).pageDir = k.pageDir ∧
    (k.setPMsg p va).status = k.status ∧ (k.setPMsg p va).queneHead = k.queneHead ∧
    (k.setPMsg p va).queneBody = k.queneBody ∧ (k.setPMsg p va).next = k.next ∧
    (k.setPMsg p va).name = k.name ∧ (k.setPMsg p va).memory = k.memory ∧
    (k.setPMsg p va).vir2phy = k.vir2phy := by
  refine ⟨?_, ?_, ?_, ?_, ?_, ?_, ?_, rfl, rfl⟩ <;> exact procTable_modProc_of_eq _ rfl

@[simp] theorem setQueneHead_frame (h : Option Pid) :
    (k.setQueneHead p h).pid = k.pid ∧ (k.setQueneHead p h).pageDir = k.pageDir ∧
    (k.setQueneHead p h).status = k.status ∧ (k.setQueneHead p h).pMsg = k.pMsg ∧
    (k.setQueneHead p h).queneBody = k.queneBody ∧ (k.setQueneHead p h).next = k.next ∧
    (k.setQueneHead p h).name = k.name ∧ (k.setQueneHead p h).memory = k.memory ∧
    (k.setQueneHead p h).vir2phy = k.vir2phy := by
  refine ⟨?_, ?_, ?_, ?_, ?_, ?_, ?_, rfl, rfl⟩ <;> exact procTable_modProc_of_eq _ rfl

@[simp] theorem setQueneBody_frame (b : Option Pid) :
    (k.setQueneBody p b).pid = k.pid ∧ (k.setQueneBody p b).pageDir = k.pageDir ∧
    (k.setQueneBody p b).status = k.status ∧ (k.setQueneBody p b).pMsg = k.pMsg ∧
    (k.setQueneBody p b).queneHead = k.queneHead ∧ (k.setQueneBody p b).next = k.next ∧
    (k.setQueneBody p b).name = k.name ∧ (k.setQueneBody p b).memory = k.memory ∧
    (k.setQueneBody p b).vir2phy = k.vir2phy := by
  refine ⟨?_, ?_, ?_, ?_, ?_, ?_, ?_, rfl, rfl⟩ <;> exact procTable_modProc_of_eq _ rfl

@[simp] theorem setTrapNo_frame (n : ℕ) :
    (k.setTrapNo p n).pid = k.pid ∧ (k.setTrapNo p n).pageDir = k.pageDir ∧
    (k.setTrapNo p n).status = k.status ∧ (k.setTrapNo p n).pMsg = k.pMsg ∧
    (k.setTrapNo p n).queneHead = k.queneHead ∧ (k.setTrapNo p n).queneBody = k.queneBody ∧
    (k.setTrapNo p n).next = k.next ∧ (k.setTrapNo p n).name = k.name ∧
    (k.setTrapNo p n).memory = k.memory ∧ (k.setTrapNo p n).vir2phy = k.vir2phy := by
  refine ⟨?_, ?_, ?_, ?_, ?_, ?_, ?_, ?_, rfl, rfl⟩ <;> exact procTable_modProc_of_eq _ rfl

@[simp] theorem writeMsg_frame (a : PAddr) (m : Message) :
    (k.writeMsg a m).pid = k.pid ∧ (k.writeMsg a m).pageDir = k.pageDir ∧
    (k.writeMsg a m).status = k.status ∧ (k.writeMsg a m).pMsg = k.pMsg ∧
    (k.writeMsg a m).queneHead = k.queneHead ∧ (k.writeMsg a m).queneBody = k.queneBody ∧
    (k.writeMsg a m).next = k.next ∧ (k.writeMsg a m).name = k.name ∧
    (k.writeMsg a m).memory = Function.update k.memory a m ∧
    (k.writeMsg a m).vir2phy = k.vir2phy :=
  ⟨rfl, rfl, rfl, rfl, rfl, rfl, rfl, rfl, rfl, rfl⟩

/-! ### What each writer does to the status tests -/

theorem is_setStatus {s mask : BitVec 32} :
    (k.setStatus p s).Is q mask ↔ if q = p then BitFlags.Has s mask else k.Is q mask := by
  rw [Is, status_setStatus, Function.update_apply]
  split <;> rfl

/-- The tests see only the status words. -/
theorem is_congr {k' : Kernel} {mask : BitVec 32} (h : k'.status = k.status) :
    k'.Is q mask ↔ k.Is q mask := by
  rw [Is, Is, h]

@[simp] theorem is_setPMsg {va : VAddr} {mask : BitVec 32} :
    (k.setPMsg p va).Is q mask ↔ k.Is q mask := is_congr (by simp)

@[simp] theorem is_setQueneHead {h : Option Pid} {mask : BitVec 32} :
    (k.setQueneHead p h).Is q mask ↔ k.Is q mask := is_congr (by simp)

@[simp] theorem is_setQueneBody {b : Option Pid} {mask : BitVec 32} :
    (k.setQueneBody p b).Is q mask ↔ k.Is q mask := is_congr (by simp)

@[simp] theorem is_writeMsg {a : PAddr} {m : Message} {mask : BitVec 32} :
    (k.writeMsg a m).Is q mask ↔ k.Is q mask := Iff.rfl

/-- Waking a process is not seen by tests of other bits than the dropped one and `RUNNING`. -/
theorem is_wake_of_disjoint {bit mask : BitVec 32} (hb : bit &&& mask = 0)
    (hr : procStatusRunning &&& mask = 0) : (k.wake p bit).Is q mask ↔ k.Is q mask := by
  rw [wake, is_setStatus]
  split
  · rename_i hq
    have hn : procStatusNormal &&& mask = 0 := by simp [procStatusNormal]
    rw [BitFlags.has_raise_of_disjoint hr, BitFlags.has_raise_of_disjoint hn,
      BitFlags.has_drop_of_disjoint hb, hq, Is]
  · rfl

/-- Waking a process clears the bit it waited with. -/
theorem is_wake_self {bit : BitVec 32} (hr : procStatusRunning &&& bit = 0) :
    (k.wake p bit).Is q bit ↔ q ≠ p ∧ k.Is q bit := by
  rw [wake, is_setStatus]
  split
  · rename_i hq
    have hn : procStatusNormal &&& bit = 0 := by simp [procStatusNormal]
    rw [BitFlags.has_raise_of_disjoint hr, BitFlags.has_raise_of_disjoint hn]
    simp [BitFlags.not_has_drop_self, hq]
  · rename_i hq
    simp [hq]

/-- Blocking a process is not seen by tests of bits it neither drops nor raises. -/
theorem is_block_of_disjoint {off on mask : BitVec 32} (hoff : off &&& mask = 0)
    (hon : on &&& mask = 0) : (k.block p off on).Is q mask ↔ k.Is q mask := by
  rw [block, is_setStatus]
  split
  · rename_i hq
    rw [BitFlags.has_raise_of_disjoint hon, BitFlags.has_drop_of_disjoint hoff, hq, Is]
  · rfl

/-- Blocking a process sets the bit it waits with. -/
theorem is_block_self {off on : BitVec 32} (hon : on ≠ 0) :
    (k.block p off on).Is q on ↔ q = p ∨ k.Is q on := by
  rw [block, is_setStatus]
  split
  · rename_i hq
    simp [BitFlags.has_raise_self hon, hq]
  · rename_i hq
    simp [hq]

end Kernel

end OmochaOS
