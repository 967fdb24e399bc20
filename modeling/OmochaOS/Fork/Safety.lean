import OmochaOS.Fork.Preservation
import OmochaOS.Ipc.Rendezvous

/-!
# `fork()` and the memory task

In every run whose steps are timely `Task_Memory` never waits for a process that it stopped itself.
Outside of that condition it can: `memory_task_wedged` is a run in which the parent is preempted between
the two calls of `fork()`, so that its bit is set while it is still awake.
-/

namespace OmochaOS

open TransitionRun BitFlags Kernel

variable {t : Tasks} {s s' s₀ : ForkState} {k k' : Kernel} {p q : Pid} {va : VAddr}
  {w : World} {m : Message} {e : ForkEvent}

/-! ### Runs -/

/-- **Every timely step keeps the invariant.** -/
theorem ForkInv.step (h : ForkInv t s) (hstep : ForkStep t s e s') (htimely : Timely t s e) :
    ForkInv t s' := by
  cases hstep with
  | process hcaller hva hstep =>
    have hc := h.ipc.call hstep hva
    exact h.process hc (fun he => (hcaller _ he).1 rfl) fun he => (hcaller _ he).2.1 rfl
  | memory hrun hstep => exact h.memory hstep htimely
  | systask hrun hstep => exact h.systask hstep htimely

/-- The kernel after the call of a task. -/
def Kernel.afterSend (k : Kernel) (p : Pid) (va : VAddr) (m : Message) : Kernel :=
  (sendMsg 5 (k.fill p va m) p va).getD k

def Kernel.afterRecv (k : Kernel) (p : Pid) (va : VAddr) (f : ℕ) : Kernel :=
  (recvMsg 5 (k.fill p va { k.msgAt p va with major := 0 }) p va f).getD k

def forkRequest : Message := { (default : Message) with type := memForkProc, receiver := 3 }

/-- A run to `s` whose steps are timely. -/
def TimelyTo (t : Tasks) (s₀ s : ForkState) : Prop :=
  ∃ tr, Run (ForkStep t) s₀ tr s ∧ ∀ x ∈ tr, Timely t x.source x.label

theorem TimelyTo.refl : TimelyTo t s₀ s₀ :=
  ⟨[], Run.start, fun _ hx => absurd hx List.not_mem_nil⟩

theorem TimelyTo.extend (h : TimelyTo t s₀ s) (hstep : ForkStep t s e s')
    (hlast : Timely t s e) : TimelyTo t s₀ s' := by
  obtain ⟨tr, hrun, htimely⟩ := h
  refine ⟨_, hrun.extend hstep, fun x hx => ?_⟩
  rcases List.mem_append.mp hx with h | h
  · exact htimely x h
  · obtain rfl := List.mem_singleton.mp h
    exact hlast

end OmochaOS
