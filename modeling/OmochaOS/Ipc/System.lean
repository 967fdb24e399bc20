import OmochaOS.Kernel.Interrupt
import OmochaOS.Lib.TransitionRun

/-!
# The message-passing system

The parties are the live processes and the hardware.  A process that is neither `SENDING` nor
`RECEVING` may write its own memory and make a system call; the hardware may raise an interrupt or an
exception for a live subscriber at any moment.  A run is any finite sequence of such events, in any
order: which process the scheduler has picked does not restrict it.

`World` fixes what a run does not change: which processes are live, and which process each physical
message cell belongs to.  A caller passes a buffer of its own memory that its page directory maps;
that is what `OwnBuffer` says.
-/

namespace OmochaOS

open TransitionRun

/-- The fixed part of a run: the live processes and the owner of each message cell. -/
structure World where
  live : Pid → Prop
  owner : PAddr → Pid
  live_lt : ∀ p, live p → p < procAny

namespace Kernel

/-- `p` is blocked in a send. -/
abbrev Sending (k : Kernel) (p : Pid) : Prop := k.Is p procStatusSending

/-- `p` is blocked in a receive. -/
abbrev Receving (k : Kernel) (p : Pid) : Prop := k.Is p procStatusReceving

/-- `p` is neither `SENDING` nor `RECEVING`. -/
def Awake (k : Kernel) (p : Pid) : Prop := ¬ k.Sending p ∧ ¬ k.Receving p

/-- `s` is blocked with a message for `r`. -/
def SendingTo (k : Kernel) (s r : Pid) : Prop := k.Sending s ∧ (k.pending s).receiver = r

instance (k : Kernel) (p : Pid) : Decidable (k.Awake p) := inferInstanceAs (Decidable (_ ∧ _))

instance (k : Kernel) (s r : Pid) : Decidable (k.SendingTo s r) :=
  inferInstanceAs (Decidable (_ ∧ _))

end Kernel

/-- A stored filter takes messages of `s`. -/
def Admits (filter s : ℕ) : Prop := filter = procAny ∨ filter = s

namespace World

variable (w : World)

/-- `va` is a mapped address of `p` whose cell, the one found for its first byte, belongs to `p`. -/
def OwnBuffer (k : Kernel) (p : Pid) (va : VAddr) : Prop :=
  k.msgAddr p va ≠ 0 ∧ w.owner (k.msgAddr p va) = p

instance (k : Kernel) (p : Pid) (va : VAddr) : Decidable (w.OwnBuffer k p va) :=
  inferInstanceAs (Decidable (_ ∧ _))

/-- What a process may pass as `recv_from`. -/
def ValidFilter (f : ℕ) : Prop := f = 0 ∨ f = procAny ∨ f = procInterrupt ∨ w.live f

end World

/-- One event of a run. -/
inductive Event where
  /-- `p` stores `m` in its own memory -/
  | user (p : Pid) (a : PAddr) (m : Message)
  /-- `p` calls `send_msg` -/
  | send (fuel : ℕ) (p : Pid) (msgVa : VAddr)
  /-- `p` calls `recv_msg` -/
  | recv (fuel : ℕ) (p : Pid) (msgVa : VAddr) (recvFrom : ℕ)
  /-- the hardware raises `irq`, subscribed by `pid` -/
  | interrupt (irq : ℕ) (pid : Pid)
  /-- a process faults and `pid` has subscribed the exception -/
  | exception (exc data : ℕ) (pid : Pid)

/-- The steps of the system. -/
inductive Step (w : World) : Kernel → Event → Kernel → Prop
  | user {k : Kernel} {p : Pid} {a : PAddr} {m : Message} (hlive : w.live p) (hawake : k.Awake p)
      (hown : w.owner a = p) : Step w k (.user p a m) (k.writeMsg a m)
  | send {k k' : Kernel} {fuel : ℕ} {p : Pid} {va : VAddr} (hlive : w.live p) (hawake : k.Awake p)
      (hbuf : w.OwnBuffer k p va) (hto : w.live (k.memory (k.msgAddr p va)).receiver)
      (hcall : Kernel.sendMsg fuel k p va = some k') : Step w k (.send fuel p va) k'
  | recv {k k' : Kernel} {fuel : ℕ} {p : Pid} {va : VAddr} {f : ℕ} (hlive : w.live p)
      (hawake : k.Awake p) (hbuf : w.OwnBuffer k p va) (hfilter : w.ValidFilter f)
      (hcall : Kernel.recvMsg fuel k p va f = some k') : Step w k (.recv fuel p va f) k'
  | interrupt {k : Kernel} {irq : ℕ} {pid : Pid} (hlive : w.live pid) (hirq : irq < hwIrqCount) :
      Step w k (.interrupt irq pid) (k.sendInterruptMsg irq pid)
  | exception {k : Kernel} {exc data : ℕ} {pid : Pid} (hlive : w.live pid)
      (hexc : exc < exceptionCount) :
      Step w k (.exception exc data pid) (k.sendExceptionMsg exc data pid)

/-- The state after boot: every queue is empty, nobody is blocked, nothing is pending. -/
structure Boot (w : World) (k : Kernel) : Prop where
  pid_eq : ∀ p, w.live p → k.pid p = p
  quiet : ∀ p, k.Awake p
  queneHead : ∀ p, k.queneHead p = none
  noInterrupt : ∀ p, ¬ k.Is p procStatusGotint
  noException : ∀ p, ¬ k.Is p procStatusGotexc
  noIrqData : ∀ i, (k.interruptSuscribedData i).avail = false
  noExcData : ∀ i, (k.exceptionSuscribedData i).avail = false

/-! ### Processes with separate address spaces -/

/-- `n` live processes, each owning 4096 message cells of its own. -/
def World.isolated (n : ℕ) (hn : n ≤ procAny) : World where
  live p := p < n
  owner a := a / 4096
  live_lt _ hp := lt_of_lt_of_le hp hn

instance {n : ℕ} {hn : n ≤ procAny} {p : Pid} : Decidable ((World.isolated n hn).live p) :=
  inferInstanceAs (Decidable (p < n))

/-- The boot state of `n` such processes, with empty buffers. -/
def Kernel.booted (n : ℕ) : Kernel where
  procTable p :=
    { (default : Process) with
      pid := p, pageDir := p, status := procStatusRunning
      next := if p + 1 < n then some (p + 1) else none }
  procList := some 0
  procRunning := some 0
  memory := fun _ => default
  vir2phy := fun dir va => 4096 * dir + va
  interruptSuscribed := fun _ => 0
  interruptSuscribedData := fun _ => default
  exceptionSuscribed := fun _ => 0
  exceptionSuscribedData := fun _ => default
  screen := []

/-- Everybody's status word is `RUNNING`. -/
theorem is_booted {n : ℕ} {p : Pid} {mask : BitVec 32} :
    (Kernel.booted n).Is p mask ↔ BitFlags.Has procStatusRunning mask := Iff.rfl

theorem boot_booted {n : ℕ} (hn : n ≤ procAny) : Boot (World.isolated n hn) (Kernel.booted n) where
  pid_eq _ _ := rfl
  quiet _ :=
    ⟨fun h => absurd (is_booted.mp h) (by decide), fun h => absurd (is_booted.mp h) (by decide)⟩
  queneHead _ := rfl
  noInterrupt _ h := absurd (is_booted.mp h) (by decide)
  noException _ h := absurd (is_booted.mp h) (by decide)
  noIrqData _ := rfl
  noExcData _ := rfl

/-! ### What a call can do -/

namespace Kernel

variable {k k' : Kernel} {fuel : ℕ} {p : Pid} {va : VAddr} {f : ℕ}

/-- **Inversion of `__send_msg`.**  After stamping the message and printing, the call either hands it
to a ready receiver or queues the sender. -/
theorem sendMsg_cases (h : sendMsg fuel k p va = some k') :
    ∃ names,
      let msg := k.msgAddr p va
      let k₁ := (k.stampSender p va).print names
      let r := (k.memory msg).receiver
      (∃ b, isDeadLock fuel (k.stampSender p va) (k.pid p) r = some (b, names)) ∧
      ((k₁.ReadyFor r (k.pid p) ∧ k' = k₁.deliver r msg) ∨
        (¬ k₁.ReadyFor r (k.pid p) ∧ queneSender fuel k₁ p va r = some k')) := by
  have hr : ((k.stampSender p va).memory (k.msgAddr p va)).receiver
      = (k.memory (k.msgAddr p va)).receiver := by
    simp [stampSender]
  have hpid : (k.stampSender p va).pid p = k.pid p := by simp [stampSender]
  simp only [sendMsg, hr, hpid] at h
  split at h
  · simp at h
  · rename_i b names hdl
    refine ⟨names, ⟨b, hdl⟩, ?_⟩
    have hpid' : ((k.stampSender p va).print names).pid p = k.pid p := hpid
    rw [hpid'] at h
    by_cases hready : ((k.stampSender p va).print names).ReadyFor
        (k.memory (k.msgAddr p va)).receiver (k.pid p)
    · rw [if_pos hready] at h
      exact Or.inl ⟨hready, (Option.some.inj h).symm⟩
    · rw [if_neg hready] at h
      exact Or.inr ⟨hready, h⟩

/-- **Inversion of `__recv_msg`.**  After stamping the buffer the call reflects, or takes a pending
interrupt, or takes a pending exception, or goes to the queue. -/
theorem recvMsg_cases (h : recvMsg fuel k p va f = some k') :
    let k₁ := k.stampReceiver p va
    let msg := k.msgAddr p va
    (f = 0 ∧ k' = k₁) ∨
    (f ≠ 0 ∧ k.Is p procStatusGotint ∧ AcceptsNotice f ∧ k' = k₁.recvInterrupt p msg) ∨
    (f ≠ 0 ∧ ¬ (k.Is p procStatusGotint ∧ AcceptsNotice f) ∧ k.Is p procStatusGotexc ∧
      AcceptsNotice f ∧ k' = k₁.recvException p msg) ∨
    (f ≠ 0 ∧ ¬ (k.Is p procStatusGotint ∧ AcceptsNotice f) ∧
      ¬ (k.Is p procStatusGotexc ∧ AcceptsNotice f) ∧ recvQuened fuel k₁ p va f = some k') := by
  have his : ∀ mask, (k.stampReceiver p va).Is p mask ↔ k.Is p mask := fun mask => Iff.rfl
  simp only [recvMsg, his] at h
  by_cases h0 : f = 0
  · rw [if_pos h0] at h
    exact Or.inl ⟨h0, (Option.some.inj h).symm⟩
  rw [if_neg h0] at h
  by_cases hint : k.Is p procStatusGotint ∧ AcceptsNotice f
  · rw [if_pos hint] at h
    exact Or.inr (Or.inl ⟨h0, hint.1, hint.2, (Option.some.inj h).symm⟩)
  rw [if_neg hint] at h
  by_cases hexc : k.Is p procStatusGotexc ∧ AcceptsNotice f
  · rw [if_pos hexc] at h
    exact Or.inr (Or.inr (Or.inl ⟨h0, hint, hexc.1, hexc.2, (Option.some.inj h).symm⟩))
  rw [if_neg hexc] at h
  exact Or.inr (Or.inr (Or.inr ⟨h0, hint, hexc, h⟩))

/-- **Inversion of the queue part of `__recv_msg`.**  The receiver blocks, or takes the head of its
queue, or takes the one sender it asked for out of its queue. -/
theorem recvQuened_cases (h : recvQuened fuel k p va f = some k') :
    let msg := k.msgAddr p va
    (k' = blockReceiver fuel k p va f ∧
      (f = procInterrupt ∨ (f = procAny ∧ k.queneHead p = none) ∨
        (f ≠ procInterrupt ∧ f ≠ procAny ∧ ¬ k.HasParked p f))) ∨
    (f = procAny ∧ ∃ s, k.queneHead p = some s ∧
      k' = (k.setQueneHead p (k.queneBody s)).takeMsg msg s) ∨
    (f ≠ procInterrupt ∧ f ≠ procAny ∧ k.HasParked p f ∧ ∃ k₁,
      unlinkSender fuel k p f = some k₁ ∧ k' = k₁.takeMsg msg f) := by
  unfold recvQuened at h
  by_cases hi : f = procInterrupt
  · rw [if_pos hi] at h
    exact Or.inl ⟨(Option.some.inj h).symm, Or.inl hi⟩
  rw [if_neg hi] at h
  by_cases ha : f = procAny
  · rw [if_pos ha] at h
    cases hh : k.queneHead p with
    | none =>
      simp only [hh] at h
      exact Or.inl ⟨(Option.some.inj h).symm, Or.inr (Or.inl ⟨ha, rfl⟩)⟩
    | some s =>
      simp only [hh] at h
      exact Or.inr (Or.inl ⟨ha, s, rfl, (Option.some.inj h).symm⟩)
  rw [if_neg ha] at h
  by_cases hp : k.HasParked p f
  · rw [if_pos hp] at h
    obtain ⟨k₁, hk₁, he⟩ := Option.map_eq_some_iff.mp h
    exact Or.inr (Or.inr ⟨hi, ha, hp, k₁, hk₁, he.symm⟩)
  · rw [if_neg hp] at h
    exact Or.inl ⟨(Option.some.inj h).symm, Or.inr (Or.inr ⟨hi, ha, hp⟩)⟩

end Kernel

end OmochaOS
