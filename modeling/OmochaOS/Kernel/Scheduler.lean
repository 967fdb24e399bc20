import OmochaOS.Kernel.Process

/-!
# The scheduler (`core/process.c`)

`scheduler()` walks the process list from the running process, wrapping round to its head, until it
meets a process none of whose low eight status bits is in `UNRUNABLE`.  When a whole round finds
nobody the loop halts the processor and waits for an interrupt to make somebody runnable; that wait
is what `none` stands for in `schedulerWalk`, and `proc_running` is then left where it was.
-/

namespace OmochaOS

/-- The mask `UNRUNABLE`. -/
def unrunable : BitVec 32 :=
  procStatusReceving ||| procStatusSending ||| procStatusSuspend ||| procStatusStop |||
    procStatusError ||| procStatusWating ||| procStatusHanging

namespace Kernel

variable (k : Kernel)

/-- The loop condition `(proc_running->status & 0xFF) & UNRUNABLE`. -/
def Unrunable (p : Pid) : Prop := BitFlags.Has (k.status p &&& 0xFF#32) unrunable

instance (p : Pid) : Decidable (k.Unrunable p) := inferInstanceAs (Decidable (BitFlags.Has _ _))

/-- The process after `p` in the list, or the head of the list after the last one. -/
def nextProc (p : Pid) : Option Pid :=
  match k.next p with
  | none => k.procList
  | some q => some q

/-- The `do … while` loop of `scheduler`, started at `p`. -/
def schedulerWalk : ℕ → Pid → Option Pid
  | 0, _ => none
  | fuel + 1, p =>
    match k.nextProc p with
    | none => none
    | some q => if k.Unrunable q then schedulerWalk fuel q else some q

/-- `scheduler()`. -/
def scheduler (fuel : ℕ) : Kernel :=
  match k.procRunning with
  | none => k
  | some cur =>
    match k.schedulerWalk fuel cur with
    | none => k
    | some q => { k with procRunning := some q }

variable {k}

/-- What `scheduler` does: it moves `proc_running` and touches nothing else. -/
theorem scheduler_eq (fuel : ℕ) :
    ∃ r, k.scheduler fuel = { k with procRunning := r } := by
  unfold scheduler
  split
  · exact ⟨k.procRunning, rfl⟩
  · split
    · exact ⟨k.procRunning, rfl⟩
    · exact ⟨_, rfl⟩

@[simp] theorem scheduler_frame (fuel : ℕ) :
    (k.scheduler fuel).procTable = k.procTable ∧ (k.scheduler fuel).procList = k.procList ∧
    (k.scheduler fuel).memory = k.memory ∧ (k.scheduler fuel).vir2phy = k.vir2phy ∧
    (k.scheduler fuel).interruptSuscribed = k.interruptSuscribed ∧
    (k.scheduler fuel).interruptSuscribedData = k.interruptSuscribedData ∧
    (k.scheduler fuel).exceptionSuscribed = k.exceptionSuscribed ∧
    (k.scheduler fuel).exceptionSuscribedData = k.exceptionSuscribedData := by
  obtain ⟨r, hr⟩ := scheduler_eq (k := k) fuel
  rw [hr]
  exact ⟨rfl, rfl, rfl, rfl, rfl, rfl, rfl, rfl⟩

end Kernel

end OmochaOS
