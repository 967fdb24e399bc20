import OmochaOS.Fork.Table

/-!
# The invariant of `fork()`

In a run in which every `PROC_STATUS_STOP` bit is set on a parent that is already asleep for its answer,
`ForkInv` holds in every state: message passing is intact, the conversation of the two tasks is where
the program counters say, and every stopped process is asleep in a receive from `Task_Memory` until it
is answered, and keeps its bit until `Task_Memory` is through.
-/

namespace OmochaOS

open TransitionRun BitFlags Kernel

variable {t : Tasks} {s s' : ForkState} {k k' : Kernel} {p q : Pid} {va : VAddr} {c : Option Pid}
  {w : World} {m : Message} {pc : MmPc}

/-- What the local variables of `fork_proc` have to do with each other. -/
def MmPc.Coherent : MmPc → Prop
  | .allocSend pid parent => pid = parent
  | .allocRecv pid parent => pid = parent
  | .allocated pid parent => pid = parent
  | .failReply _ => False
  | .replyParent pid parent child => pid = parent ∧ parent ≠ child
  | .replyChild parent child => parent ≠ child
  | _ => True

/-- `p` is asleep for the answer of `Task_Memory`, and is neither of the tasks. -/
structure Owed (t : Tasks) (k : Kernel) (p : Pid) : Prop where
  waits : k.WaitsFor p t.mm
  ne_mm : p ≠ t.mm
  ne_sys : p ≠ systaskPid

structure ForkInv (t : Tasks) (s : ForkState) : Prop where
  ipc : IpcInv s.world s.kernel
  setting : Setting t s
  sysInv : SysInv t s
  talk : TalkAt t s s.mm
  bits : s.procBitmap ≠ [] ∧ checkBit s.procBitmap 0 = true ∧
    ∀ p, s.world.live p → p < 32 → checkBit s.procBitmap p = true
  nonnull : ∀ p, s.kernel.Receving p → s.kernel.pMsg p ≠ 0
  owed : ∀ p ∈ s.mm.owes, Owed t s.kernel p
  coherent : s.mm.Coherent
  forked : ∀ p ∈ s.forked, s.world.live p ∧
    (s.kernel.Is p procStatusStop → p ∈ s.mm.stopped)

theorem Owed.kept (h : Owed t k p) (hk : TaskKept k k' p va) : Owed t k' p :=
  ⟨hk.waitsFor h.waits, h.ne_mm, h.ne_sys⟩

theorem Owed.of_untouched (h : Owed t k p) (hu : Untouched w k k' p) : Owed t k' p :=
  ⟨⟨hu.receving.mpr h.waits.1, by rw [hu.pending (Or.inr h.waits.1)]; exact h.waits.2⟩,
    h.ne_mm, h.ne_sys⟩

/-- Nobody but `Task_Memory` wakes a process that waits for it. -/
theorem Owed.call (h : Owed t k p) (hi : IpcInv w k) (hlt : t.mm < procAny)
    (hc : Call w k c k') (hmm : c ≠ some t.mm) : Owed t k' p := by
  have hcaller : c ≠ some p := fun he => (hc.caller p he).2.2 h.waits.1
  cases hc.bystander p hcaller with
  | untouched hu => exact h.of_untouched hu
  | handed q m hq _ _ hadm _ =>
    rw [h.waits.2] at hadm
    rcases hadm with ha | ha
    · exact absurd ha (Nat.ne_of_lt hlt)
    · exact absurd (ha ▸ hq) hmm
  | noticed m _ _ hadm _ =>
    rw [h.waits.2] at hadm
    rcases hadm with ha | ha
    · exact absurd ha (Nat.ne_of_lt (hlt.trans (by decide)))
    · exact absurd ha (Nat.ne_of_lt hlt)
  | fetched r _ hto _ => exact absurd ⟨hto.1, h.waits.1⟩ (hi.notBoth p)

/-- A message of `Task_Memory` to somebody else leaves it asleep. -/
theorem Owed.sends (h : Owed t k p) (hi : IpcInv w k) (hcall : Sends w k t.mm va m k')
    (hto : p ≠ m.receiver) : Owed t k' p := by
  rcases hcall.outcome hi with ⟨-, -, -, hu⟩ | ⟨-, -, hu⟩
  · exact h.of_untouched (hu p h.ne_mm hto)
  · exact h.of_untouched (hu p h.ne_mm)

/-- So does a receive of `Task_Memory`. -/
theorem Owed.recvs {f : ℕ} (h : Owed t k p) (hi : IpcInv w k) (hf : f ≠ 0)
    (hcall : Recvs w k t.mm va f k') : Owed t k' p := by
  rcases hcall.outcome hi hf with ⟨-, -, -, hu⟩ | ⟨-, -, hu⟩ | ⟨q, hto, -, -, -, -, hu⟩
  · exact h.of_untouched (hu p h.ne_mm)
  · exact h.of_untouched (hu p h.ne_mm)
  · refine h.of_untouched (hu p h.ne_mm ?_)
    rintro rfl
    exact hi.notBoth p ⟨hto.1, h.waits.1⟩

/-- **The answer is delivered.**  A process that is owed an answer takes it at once, and
`Task_Memory` goes on. -/
theorem Owed.answered (h : Owed t k p) (hi : IpcInv w k) (hcall : Sends w k t.mm va m k')
    (hto : m.receiver = p) : k'.Awake t.mm := by
  have hc := hcall.call hi
  rcases hcall.outcome hi with ⟨ha, -⟩ | ⟨hs, -, hu⟩
  · exact ha
  · have ho := h.of_untouched (hu p h.ne_mm)
    refine absurd (Or.inr ho.waits.2) (hc.ipc.rendezvous p t.mm ho.waits.1 ⟨hs.1, hs.2.trans hto⟩)

/-- The parts of the invariant that every call keeps. -/
theorem ForkInv.of_call (h : ForkInv t s) (hc : Call s.world s.kernel c k') {pc' : MmPc}
    {sys' : SysPc} (hsys : SysInv t { s with kernel := k', mm := pc', sys := sys' })
    (htalk : TalkAt t { s with kernel := k', mm := pc', sys := sys' } pc')
    (howed : ∀ p ∈ pc'.owes, Owed t k' p) (hcoh : pc'.Coherent)
    (hstop : ∀ p, p ∈ s.mm.stopped → p ∈ pc'.stopped) :
    ForkInv t { s with kernel := k', mm := pc', sys := sys' } where
  ipc := hc.ipc
  setting := h.setting.kept rfl (fun _ => hc.fixed.msgAddr) hc.fixed.msgAddr
  sysInv := hsys
  talk := htalk
  bits := h.bits
  nonnull := hc.nonnull h.nonnull
  owed := howed
  coherent := hcoh
  forked p hp := by
    obtain ⟨hl, hs⟩ := h.forked p hp
    exact ⟨hl, fun his => hstop p (hs ((hc.stop p).mp his))⟩

/-- **A call of another process, or a notification.** -/
theorem ForkInv.process (h : ForkInv t s) (hc : Call s.world s.kernel c k')
    (hmm : c ≠ some t.mm) (hne : c ≠ some systaskPid) : ForkInv t { s with kernel := k' } :=
  h.of_call hc (SysInv.process h.setting h.sysInv hc hmm hne)
    (TalkAt.process h.setting h.sysInv hc hmm hne h.ipc h.talk)
    (fun p hp => (h.owed p hp).call h.ipc h.setting.mm_lt hc hmm) h.coherent fun _ hp => hp

/-- A step that touches program counters only. -/
theorem ForkInv.of_pc (h : ForkInv t s) {pc' : MmPc} {sys' : SysPc}
    (hsys : SysInv t { s with mm := pc', sys := sys' })
    (htalk : TalkAt t { s with mm := pc', sys := sys' } pc')
    (howed : ∀ p ∈ pc'.owes, Owed t s.kernel p) (hcoh : pc'.Coherent)
    (hstop : ∀ p, p ∈ s.mm.stopped → p ∈ pc'.stopped) :
    ForkInv t { s with mm := pc', sys := sys' } where
  ipc := h.ipc
  setting := h.setting.kept rfl (fun _ => rfl) rfl
  sysInv := hsys
  talk := htalk
  bits := h.bits
  nonnull := h.nonnull
  owed := howed
  coherent := hcoh
  forked p hp := ⟨(h.forked p hp).1, fun his => hstop p ((h.forked p hp).2 his)⟩

end OmochaOS
