import OmochaOS.Ipc.Notice
import OmochaOS.Ipc.Rendezvous
import OmochaOS.Kernel.Dispatch

/-!
# A faulting process is not parked

When the running process traps with an exception that somebody has subscribed, `interrupt_handler`
is to mark it with `PROC_STATUS_ERROR`, which keeps the scheduler away from it until `do_page_fault`
has served the fault.  The code says `status &= PROC_STATUS_ERROR`: it sets nothing and clears every
other bit.  A process that runs does not carry the bit, so its status word becomes 0, which is
runnable.

`parkedUntilServed_iff` draws the consequence for runs of the whole system — system calls, hardware
interrupts, timer ticks, faults and their service, in any order: a run keeps every faulting process
parked exactly when nothing faults in it, and after each forwarded fault some timer ticks make the
process run again, unserved.
-/

namespace OmochaOS

open IntrusiveList TransitionRun BitFlags Kernel

variable {w : World} {k k' k₀ : Kernel} {p q r s pid : Pid} {va : VAddr} {f fuel : ℕ} {e : Event}
  {l : List Pid}

inductive FaultEvent where
  /-- a store, a system call or a hardware interrupt -/
  | ipc (e : Event)
  /-- a timer tick -/
  | timer (fuel : ℕ)
  /-- the running process `p` traps with exception `trapNo` -/
  | fault (fuel : ℕ) (p : Pid) (trapNo cr2 intf : ℕ)
  /-- `do_page_fault` for `p` is done -/
  | serve (p : Pid)

/-- `caller->status &= ~PROC_STATUS_ERROR`, the end of `do_page_fault`. -/
def Kernel.servePageFault (k : Kernel) (p : Pid) : Kernel :=
  k.setStatus p (drop (k.status p) procStatusError)

inductive FaultStep (w : World) : Kernel → FaultEvent → Kernel → Prop
  | ipc {k k' : Kernel} {e : Event} (hstep : Step w k e k') : FaultStep w k (.ipc e) k'
  | timer {k k' : Kernel} {fuel : ℕ}
      (hcall : interruptHandler (fun _ => none) fuel k 0 0 irqTimer 0 0 = some k') :
      FaultStep w k (.timer fuel) k'
  | fault {k k' : Kernel} {fuel trapNo cr2 intf : ℕ} {p : Pid} (hruns : k.Runs p)
      (hexc : trapNo < exceptionCount) (hsus : k.exceptionSuscribed trapNo ≠ 0)
      (hcall : interruptHandler (fun _ => none) fuel k 0 p trapNo cr2 intf = some k') :
      FaultStep w k (.fault fuel p trapNo cr2 intf) k'
  | serve {k : Kernel} {p : Pid} : FaultStep w k (.serve p) (k.servePageFault p)

/-! ### Parked until served -/

/-- From here on `p` does not run before its fault is served. -/
def NotRunBeforeServed (p : Pid) : List (Transition Kernel FaultEvent) → Prop
  | [] => True
  | x :: rest => x.label = .serve p ∨ (¬ x.target.Runs p ∧ NotRunBeforeServed p rest)

/-- Every forwarded fault sets `PROC_STATUS_ERROR` and no other bit, and its process does not run
before the fault is served. -/
def ParkedUntilServed : List (Transition Kernel FaultEvent) → Prop
  | [] => True
  | x :: rest =>
    (∀ fuel p trapNo cr2 intf, x.label = .fault fuel p trapNo cr2 intf →
      x.target.status p = x.source.status p ||| procStatusError ∧
      ¬ x.target.Runs p ∧ NotRunBeforeServed p rest) ∧ ParkedUntilServed rest

/-! ### The status words -/

/-- Of the eight low bits the mask holds the four upper ones. -/
theorem unrunable_iff : k.Unrunable p ↔ k.Is p 0x0F0#32 := by
  have hmask : 0xFF#32 &&& unrunable = 0x0F0#32 := by decide
  rw [Unrunable, Has, BitVec.and_assoc, hmask]
  rfl

/-- A notification makes nobody unrunnable. -/
theorem unrunable_sendExceptionMsg {exc data : ℕ}
    (h : (k.sendExceptionMsg exc data pid).Unrunable p) : k.Unrunable p := by
  rw [unrunable_iff] at h ⊢
  unfold Kernel.sendExceptionMsg at h
  split at h
  · unfold wakeWith at h
    rw [is_setStatus] at h
    split at h
    · rename_i hp
      rw [hp]
      exact Has.of_drop h
    · exact h
  · have h' : (k.setStatus pid (raise (k.status pid) procStatusGotexc)).Is p 0x0F0#32 := h
    rw [is_setStatus] at h'
    split at h'
    · rename_i hp
      rw [hp]
      exact (has_raise_of_disjoint (by decide)).mp h'
    · exact h'

/-- A notification does not mark anybody with `PROC_STATUS_ERROR`. -/
theorem is_error_sendExceptionMsg {exc data : ℕ} :
    (k.sendExceptionMsg exc data pid).Is p procStatusError ↔ k.Is p procStatusError := by
  unfold Kernel.sendExceptionMsg
  split
  · exact woken_wakeWith.is_other p _ (by decide) (by decide)
  · show (k.setStatus pid (raise (k.status pid) procStatusGotexc)).Is p procStatusError ↔ _
    rw [is_setStatus]
    split
    · rename_i hp
      rw [hp]
      exact has_raise_of_disjoint (by decide)
    · rfl

/-- **The forwarding.**  The trapped process is left unmarked and runnable. -/
theorem forwardException_status (fuel trapNo cr2 intf : ℕ) (hp : ¬ k.Unrunable p) :
    ¬ (forwardException fuel k p trapNo cr2 intf).Is p procStatusError ∧
      ¬ (forwardException fuel k p trapNo cr2 intf).Unrunable p := by
  have herr : ¬ k.Is p procStatusError := by
    intro he
    rw [unrunable_iff, Is, has_iff_exists] at hp
    rw [Is, has_iff_exists] at he
    obtain ⟨i, hi, hm⟩ := he
    refine hp ⟨i, hi, ?_⟩
    have hor : 0x0F0#32 = procStatusError ||| 0x0F0#32 := by decide
    rw [hor, BitVec.getLsbD_or, hm]
    rfl
  set k₁ := k.setStatus p (k.status p &&& procStatusError) with hk₁
  have hst₁ : k₁.status p = 0 := by
    rw [hk₁, status_setStatus, Function.update_self]
    exact not_not.mp herr
  set k₂ := if trapNo = exceptionPF then k₁.setTrapNo p cr2 else k₁ with hk₂
  have hst₂ : k₂.status p = 0 := by
    rw [hk₂, ← hst₁]
    split
    · simp
    · rfl
  have hlast : ∀ j, ((k₂.sendExceptionMsg trapNo intf j).scheduler fuel).status =
      (k₂.sendExceptionMsg trapNo intf j).status := fun _ => (scheduler_readers fuel).1
  have hno : ∀ mask, ¬ k₂.Is p mask := by
    intro mask
    rw [Is, hst₂]
    simp [Has]
  show ¬ ((k₂.sendExceptionMsg trapNo intf _).scheduler fuel).Is p procStatusError ∧
    ¬ ((k₂.sendExceptionMsg trapNo intf _).scheduler fuel).Unrunable p
  rw [is_congr (hlast _), unrunable_congr (hlast _)]
  refine ⟨fun h => hno _ (is_error_sendExceptionMsg.mp h), fun h => ?_⟩
  exact hno _ (unrunable_iff.mp (unrunable_sendExceptionMsg h))

/-! ### The process list -/

theorem onList_setStatus {st : BitVec 32} (h : k.OnList l) : (k.setStatus p st).OnList l :=
  h.congr (by simp) rfl rfl

theorem onList_sendInterruptMsg {irq : ℕ} (h : k.OnList l) :
    (k.sendInterruptMsg irq pid).OnList l := by
  unfold Kernel.sendInterruptMsg
  split
  · exact h.congr woken_wakeWith.fixed.next rfl rfl
  · exact (onList_setStatus h).congr rfl rfl rfl

theorem onList_sendExceptionMsg {exc data : ℕ} (h : k.OnList l) :
    (k.sendExceptionMsg exc data pid).OnList l := by
  unfold Kernel.sendExceptionMsg
  split
  · exact h.congr woken_wakeWith.fixed.next rfl rfl
  · exact (onList_setStatus h).congr rfl rfl rfl

theorem onList_unlinkSender (h : k.OnList l) (hu : unlinkSender fuel k r s = some k') :
    k'.OnList l := by
  have hnext := (unlinkSender_cases hu).1.fixed.next
  unfold unlinkSender at hu
  split at hu
  · obtain rfl := Option.some.inj hu
    exact h.congr hnext rfl rfl
  · obtain rfl := Option.some.inj hu
    exact h.congr hnext rfl rfl
  · obtain rfl := Option.some.inj hu
    exact h.congr hnext rfl rfl
  · cases hu
  · cases hu

theorem onList_queneSender (h : k.OnList l) (hq : queneSender fuel k s va r = some k') :
    k'.OnList l := by
  unfold queneSender at hq
  obtain ⟨k₂, hk₂, rfl⟩ := Option.map_eq_some_iff.mp hq
  apply OnList.scheduler
  have h₁ : ((k.setPMsg s va).block s procStatusNormal procStatusSending).OnList l :=
    h.congr (fixed_setPMsg.trans fixed_setStatus).next rfl rfl
  have h₂ : k₂.OnList l := by
    unfold appendQuene at hk₂
    split at hk₂
    · obtain ⟨t, -, rfl⟩ := Option.map_eq_some_iff.mp hk₂
      exact h₁.congr fixed_setQueneBody.next rfl rfl
    · obtain rfl := Option.some.inj hk₂
      exact h₁.congr fixed_setQueneHead.next rfl rfl
  exact h₂.congr fixed_setQueneBody.next rfl rfl

/-- No event of the message-passing system takes the running process off the list. -/
theorem Step.onList (hstep : Step w k e k') (h : k.OnList l) : k'.OnList l := by
  cases hstep with
  | user hlive hawake hown => exact h.congr rfl rfl rfl
  | @send k' fuel p va hlive hawake hbuf hto hcall =>
    obtain ⟨names, -, hcases⟩ := sendMsg_cases hcall
    have h₁ : ((k.stampSender p va).print names).OnList l := h.congr rfl rfl rfl
    rcases hcases with ⟨-, rfl⟩ | ⟨-, hq⟩
    · exact h₁.congr woken_deliver.fixed.next rfl rfl
    · exact onList_queneSender h₁ hq
  | @recv k' fuel p va f hlive hawake hbuf hfilter hcall =>
    have h₁ : (k.stampReceiver p va).OnList l := h.congr rfl rfl rfl
    rcases recvMsg_cases hcall with ⟨-, rfl⟩ | ⟨-, -, -, rfl⟩ | ⟨-, -, -, -, rfl⟩ | ⟨-, -, -, hq⟩
    · exact h₁
    · refine h₁.congr noticed_recvInterrupt.fixed.next ?_ ?_ <;>
        · unfold Kernel.recvInterrupt
          simp only
          split <;> rfl
    · refine h₁.congr noticed_recvException.fixed.next ?_ ?_ <;>
        · unfold Kernel.recvException
          simp only
          split <;> rfl
    · rcases recvQuened_cases hq with ⟨rfl, -⟩ | ⟨-, s, -, rfl⟩ | ⟨-, -, -, k₁, hk₁, rfl⟩
      · apply OnList.scheduler
        exact h₁.congr ((fixed_writeMsg.trans fixed_setPMsg).trans fixed_setStatus).next rfl rfl
      · exact h₁.congr (unlinked_setQueneHead.fixed.trans taken_takeMsg.fixed).next rfl rfl
      · exact (onList_unlinkSender h₁ hk₁).congr taken_takeMsg.fixed.next rfl rfl
  | interrupt hlive hirq => exact onList_sendInterruptMsg h
  | exception hlive hexc => exact onList_sendExceptionMsg h

theorem onList_forwardException {trapNo cr2 intf : ℕ} (h : k.OnList l) :
    (forwardException fuel k p trapNo cr2 intf).OnList l := by
  apply OnList.scheduler
  apply onList_sendExceptionMsg
  have h₁ : (k.setStatus p (k.status p &&& procStatusError)).OnList l := onList_setStatus h
  show (if trapNo = exceptionPF then _ else _ : Kernel).OnList l
  split
  · exact h₁.congr (by simp) rfl rfl
  · exact h₁

/-! ### Steps and runs -/

/-- The handler forwards a subscribed exception. -/
theorem interruptHandler_exception {methods : ℕ → Option (Kernel → Kernel)}
    {count trapNo cr2 intf : ℕ} (hexc : trapNo < exceptionCount)
    (hsus : k.exceptionSuscribed trapNo ≠ 0) :
    interruptHandler methods fuel k count p trapNo cr2 intf =
      some (forwardException fuel k p trapNo cr2 intf) := by
  have htimer : trapNo ≠ irqTimer := by
    have h32 : irqTimer = 34 := rfl
    have hcount : exceptionCount = 32 := rfl
    omega
  rw [interruptHandler, if_neg htimer, if_pos hexc, if_pos hsus]

theorem interruptHandler_timer {methods : ℕ → Option (Kernel → Kernel)} {cr2 intf : ℕ} :
    interruptHandler methods fuel k 0 p irqTimer cr2 intf = some (k.scheduler fuel) := by
  rw [interruptHandler, if_pos rfl, if_pos rfl]

theorem FaultStep.onList {fe : FaultEvent} (hstep : FaultStep w k fe k') (h : k.OnList l) :
    k'.OnList l := by
  cases hstep with
  | ipc hstep => exact hstep.onList h
  | timer hcall =>
    rw [interruptHandler_timer] at hcall
    obtain rfl := Option.some.inj hcall
    exact h.scheduler _
  | fault hruns hexc hsus hcall =>
    rw [interruptHandler_exception hexc hsus] at hcall
    obtain rfl := Option.some.inj hcall
    exact onList_forwardException h
  | serve => exact onList_setStatus h

/-- **One fault.**  The trapped process is not marked, and it is runnable. -/
theorem FaultStep.not_parked {trapNo cr2 intf : ℕ}
    (hstep : FaultStep w k (.fault fuel p trapNo cr2 intf) k') :
    k.Runs p ∧ k'.status p ≠ k.status p ||| procStatusError ∧ ¬ k'.Unrunable p := by
  cases hstep with
  | fault hruns hexc hsus hcall =>
    rw [interruptHandler_exception hexc hsus] at hcall
    obtain rfl := Option.some.inj hcall
    obtain ⟨herr, hrun⟩ := forwardException_status fuel trapNo cr2 intf hruns.2
    refine ⟨hruns, fun he => herr ?_, hrun⟩
    rw [Is, he]
    exact has_raise_self (by decide)

/-- A run that parks its faulting processes parks each of them. -/
theorem ParkedUntilServed.of_mem {tr : List (Transition Kernel FaultEvent)}
    {x : Transition Kernel FaultEvent} (h : ParkedUntilServed tr) (hx : x ∈ tr)
    {trapNo cr2 intf : ℕ} (hl : x.label = .fault fuel p trapNo cr2 intf) :
    x.target.status p = x.source.status p ||| procStatusError := by
  induction tr with
  | nil => cases hx
  | cons y rest ih =>
    rcases List.mem_cons.mp hx with rfl | hx
    · exact (h.1 fuel p trapNo cr2 intf hl).1
    · exact ih h.2 hx

theorem parkedUntilServed_of_none {tr : List (Transition Kernel FaultEvent)}
    (h : ∀ x ∈ tr, ∀ fuel p trapNo cr2 intf, x.label ≠ .fault fuel p trapNo cr2 intf) :
    ParkedUntilServed tr := by
  induction tr with
  | nil => trivial
  | cons y rest ih =>
    refine ⟨fun fuel p trapNo cr2 intf hl => absurd hl (h y (by simp) fuel p trapNo cr2 intf), ?_⟩
    exact ih fun x hx => h x (List.mem_cons_of_mem y hx)

/-- **No run with a fault parks the faulting process.**  A run keeps every faulting process parked
until its fault is served, with no other status bit changed, exactly when no exception is forwarded in
it; and after each forwarded exception there is a number of timer ticks after which the process runs
again. -/
theorem parkedUntilServed_iff {tr : List (Transition Kernel FaultEvent)} (h₀ : k₀.OnList l)
    (hrun : Run (FaultStep w) k₀ tr k) :
    (ParkedUntilServed tr ↔
      ∀ x ∈ tr, ∀ fuel p trapNo cr2 intf, x.label ≠ .fault fuel p trapNo cr2 intf) ∧
    ∀ x ∈ tr, ∀ fuel p trapNo cr2 intf, x.label = .fault fuel p trapNo cr2 intf →
      ∃ ticks n, ((fun k => Kernel.scheduler k ticks)^[n] x.target).Runs p := by
  refine ⟨⟨?_, parkedUntilServed_of_none⟩, ?_⟩
  · intro hparked x hx fuel p trapNo cr2 intf hl
    have hstep := (hrun.step_of_mem hx).1
    rw [hl] at hstep
    exact hstep.not_parked.2.1 (hparked.of_mem hx hl)
  · intro x hx fuel p trapNo cr2 intf hl
    obtain ⟨hsource, htarget⟩ :=
      hrun.invariant_of_mem h₀ (fun _ _ _ h hstep => FaultStep.onList hstep h) hx
    have hstep := (hrun.step_of_mem hx).1
    rw [hl] at hstep
    obtain ⟨hruns, -, hrunable⟩ := hstep.not_parked
    obtain ⟨-, c, hc, hcur⟩ := hsource
    obtain rfl : c = p := Option.some.inj (hcur.symm.trans hruns.1)
    exact htarget.runs hc hrunable

/-! ### A page fault of process 2 -/

/-- Number 1 has subscribed page faults, and number 2 runs. -/
def faultKernel : Kernel :=
  { Kernel.booted 4 with
    exceptionSuscribed := fun i => if i = exceptionPF then 1 else 0, procRunning := some 2 }

/-- Number 2 has faulted at address 4096. -/
def faultForwarded : Kernel := forwardException 4 faultKernel 2 exceptionPF 4096 0

theorem fault_forwarded :
    FaultStep demoWorld faultKernel (.fault 4 2 exceptionPF 4096 0) faultForwarded :=
  .fault (by decide) (by decide) (by decide)
    (interruptHandler_exception (by decide) (by decide))

theorem onList_faultKernel : faultKernel.OnList [0, 1, 2, 3] :=
  ⟨.cons (.cons (.cons (.cons .nil))), 2, by decide, rfl⟩

/-- **The faulting process runs again.**  The forwarding clears the status word of number 2 instead of
setting the bit, and three timer ticks later number 2 runs, with its fault not served. -/
theorem fault_not_parked :
    Run (FaultStep demoWorld) faultKernel
      [⟨faultKernel, .fault 4 2 exceptionPF 4096 0, faultForwarded⟩] faultForwarded ∧
    faultKernel.status 2 = procStatusRunning ∧ faultForwarded.status 2 = 0 ∧
    ((fun k => Kernel.scheduler k 4)^[3] faultForwarded).Runs 2 :=
  ⟨Run.start.extend fault_forwarded, by decide, by decide, by decide⟩

/-- Number 2 is not parked, and gets its turn. -/
theorem parkedUntilServed_iff_demo :
    ¬ ParkedUntilServed [⟨faultKernel, .fault 4 2 exceptionPF 4096 0, faultForwarded⟩] ∧
    ∃ ticks n, ((fun k => Kernel.scheduler k ticks)^[n] faultForwarded).Runs 2 := by
  have hstart : Run (FaultStep demoWorld) faultKernel [] _ := Run.start
  have h := parkedUntilServed_iff onList_faultKernel (hstart.extend fault_forwarded)
  refine ⟨fun hp => h.1.mp hp _ (List.mem_singleton_self _) 4 2 exceptionPF 4096 0 rfl, ?_⟩
  exact h.2 _ (List.mem_singleton_self _) 4 2 exceptionPF 4096 0 rfl

end OmochaOS
