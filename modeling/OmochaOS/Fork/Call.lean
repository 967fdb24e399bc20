import OmochaOS.Fork.System

/-!
# Calls

A step of the conversation that goes through the kernel is a *call*: a system call of a process, a
system call of a task with the stores before it, or a notification.  `Call` collects what every call
does, for the parties that do not act in it; `Sends.outcome` and `Recvs.outcome` say what a task finds
when its own call is done.
-/

namespace OmochaOS

open TransitionRun BitFlags Kernel

variable {w : World} {k k' : Kernel} {p q r s : Pid} {va : VAddr} {f fuel : ℕ} {m : Message}
  {c : Option Pid} {e : Event}

/-- What a call of `c` does; without a caller it is a notification. -/
structure Call (w : World) (k : Kernel) (c : Option Pid) (k' : Kernel) : Prop where
  ipc : IpcInv w k'
  fixed : Fixed k k'
  stop : ∀ q, k'.Is q procStatusStop ↔ k.Is q procStatusStop
  bystander : ∀ q, c ≠ some q → Bystander w k c k' q
  caller : ∀ p, c = some p → w.live p ∧ k.Awake p
  nonnull : (∀ q, k.Receving q → k.pMsg q ≠ 0) → ∀ q, k'.Receving q → k'.pMsg q ≠ 0

theorem IpcInv.call (hi : IpcInv w k) (hstep : Step w k e k') (hva : e.NonNull) :
    Call w k e.caller k' where
  ipc := hi.step hstep
  fixed := hstep.fixed
  stop := hstep.is_other (by decide) (by decide) (by decide) (by decide) (by decide)
  bystander _ hq := hi.bystander hstep hq
  caller p hp := by
    cases hstep with
    | user hlive hawake => exact Option.some.inj hp ▸ ⟨hlive, hawake⟩
    | send hlive hawake => exact Option.some.inj hp ▸ ⟨hlive, hawake⟩
    | recv hlive hawake => exact Option.some.inj hp ▸ ⟨hlive, hawake⟩
    | interrupt => cases hp
    | exception => cases hp
  nonnull hk q hq := by
    rcases hi.pMsg_step hstep hq with ⟨hr, he⟩ | ⟨fuel, va, f, rfl, he⟩
    · rw [he]
      exact hk q hr
    · rw [he]
      exact hva

/-- A call with a store of the caller before it. -/
theorem Call.of_fill (hi : IpcInv w k) {a : PAddr} (ha : w.owner a = p)
    (h : Call w (k.writeMsg a m) (some p) k') : Call w k (some p) k' where
  ipc := h.ipc
  fixed := fixed_writeMsg.trans h.fixed
  stop := h.stop
  bystander q hq := by
    have hne : q ≠ p := fun he => hq (congrArg some he.symm)
    have hu : Untouched w k (k.writeMsg a m) q := hi.untouched_writeOwn ha hne
    cases h.bystander q hq with
    | untouched h' => exact .untouched (hu.trans h')
    | handed q' m' hq' hfrom hto hadm h' =>
      rw [hu.pending (Or.inr h'.waited)] at hadm
      exact .handed q' m' hq' hfrom hto hadm ⟨h'.waited, h'.memory, h'.awake⟩
    | noticed m' hc hm hadm h' =>
      rw [hu.pending (Or.inr h'.waited)] at hadm
      exact .noticed m' hc hm hadm ⟨h'.waited, h'.memory, h'.awake⟩
    | fetched r hr hto hawake => exact .fetched r hr (hu.sendingTo.mp hto) hawake
  caller := h.caller
  nonnull := h.nonnull

/-! ### The calls of a task -/

theorem Sends.call (hi : IpcInv w k) (h : Sends w k p va m k') : Call w k (some p) k' := by
  obtain ⟨fuel, hstep⟩ := h
  have hown : w.owner (k.msgAddr p va) = p ∧ k.Awake p := by
    cases hstep with
    | send hlive hawake hb => exact ⟨hb.2, hawake⟩
  have hi₁ : IpcInv w (k.fill p va m) := hi.writeOwn hown.2 hown.1 _
  exact Call.of_fill hi hown.1 (hi₁.call hstep trivial)

theorem Recvs.call (hi : IpcInv w k) (hva : va ≠ 0) (h : Recvs w k p va f k') :
    Call w k (some p) k' := by
  obtain ⟨fuel, hstep⟩ := h
  have hown : w.owner (k.msgAddr p va) = p ∧ k.Awake p := by
    cases hstep with
    | recv hlive hawake hb => exact ⟨hb.2, hawake⟩
  have hi₁ := hi.writeOwn hown.2 hown.1 { k.msgAt p va with major := 0 }
  exact Call.of_fill hi hown.1 (hi₁.call hstep hva)

/-- **After a send**: the receiver has returned with the message, or the task is blocked with it, and
nobody else is touched. -/
theorem Sends.outcome (hi : IpcInv w k) (h : Sends w k p va m k') :
    (k'.Awake p ∧ Admits (k.pending m.receiver).sender p ∧
      Returned k k' m.receiver { m with sender := p, ready := false } ∧
      ∀ q, q ≠ p → q ≠ m.receiver → Untouched w k k' q) ∨
    (k'.SendingTo p m.receiver ∧ k'.pending p = { m with sender := p } ∧
      ∀ q, q ≠ p → Untouched w k k' q) := by
  obtain ⟨fuel, hstep⟩ := h
  have hstep₀ := hstep
  cases hstep with
  | send hlive hawake hb hto hcall =>
    have hi₁ : IpcInv w (k.fill p va m) := hi.writeOwn hawake hb.2 _
    have hund : Undisturbed k (k.fill p va m) := hi.undisturbed_writeOwn hawake hb.2
    have hcaller : ∀ {q : Pid}, q ≠ p → (Event.send fuel p va).caller ≠ some q :=
      fun hq he => hq (Option.some.inj he).symm
    have hu : ∀ {q : Pid}, q ≠ p → Untouched w k (k.fill p va m) q :=
      fun hq => hi.untouched_writeOwn hb.2 hq
    have hst : (k.fill p va m).stamped p va = { m with sender := p } := by
      show { Function.update k.memory (k.msgAddr p va) m (k.msgAddr p va) with sender := p } = _
      rw [Function.update_self]
    rcases hi₁.outcome_send hlive hawake hb hto hcall with ⟨hh, hadm⟩ | hp
    · rw [hst] at hh hadm
      rw [hund.pending _ (Or.inr hh.waited)] at hadm
      have hret := hi₁.returned_of_handed hh
      refine Or.inl ⟨?_, hadm, ⟨hret.waited, hret.memory, hret.awake⟩, ?_⟩
      · exact ⟨fun hs => hawake.1 ((hh.sending p).mp hs),
          fun hr' => hawake.2 ((hh.receving p).mp hr').2⟩
      · intro q hq hqr
        exact (hu hq).trans (hi₁.untouched_of_handed hstep₀ (hcaller hq) hh hqr)
    · rw [hst] at hp
      refine Or.inr ⟨⟨(hp.sending p).mpr (Or.inl rfl), ?_⟩, hp.parked, ?_⟩
      · rw [hp.parked]
      · intro q hq
        exact (hu hq).trans (hi₁.untouched_of_parked hstep₀ (hcaller hq) hp hq)

/-- **After a receive**: the task has a notification, or is asleep, or has the message of a process
that was blocked in a send to it, and nobody else is touched. -/
theorem Recvs.outcome (hi : IpcInv w k) (hf : f ≠ 0) (h : Recvs w k p va f k') :
    (AcceptsNotice f ∧ k'.Awake p ∧ (k'.msgAt p va).sender = procInterrupt ∧
      ∀ q, q ≠ p → Untouched w k k' q) ∨
    (k'.WaitsFor p f ∧ k'.buf p = k'.msgAddr p va ∧ ∀ q, q ≠ p → Untouched w k k' q) ∨
    ∃ s, k.SendingTo s p ∧ (f = procAny ∨ f = s) ∧ k'.Awake p ∧ k'.Awake s ∧
      k'.msgAt p va = k.pending s ∧ ∀ q, q ≠ p → q ≠ s → Untouched w k k' q := by
  obtain ⟨fuel, hstep⟩ := h
  have hstep₀ := hstep
  have hfix : Fixed k k' := fixed_writeMsg.trans hstep.fixed
  have haddr : k'.msgAddr p va = k.msgAddr p va := hfix.msgAddr
  have hmem : k'.msgAt p va = k'.memory (k.msgAddr p va) := congrArg k'.memory haddr
  cases hstep with
  | recv hlive hawake hb hfilter hcall =>
    set k₁ := k.fill p va { k.msgAt p va with major := 0 } with hk₁
    have hi₁ : IpcInv w k₁ := hi.writeOwn hawake hb.2 _
    have hund : Undisturbed k k₁ := hi.undisturbed_writeOwn hawake hb.2
    have hcaller : ∀ {q : Pid}, q ≠ p → (Event.recv fuel p va f).caller ≠ some q :=
      fun hq he => hq (Option.some.inj he).symm
    have hu : ∀ {q : Pid}, q ≠ p → Untouched w k k₁ q := fun hq => hi.untouched_writeOwn hb.2 hq
    rcases hi₁.outcome_recv hlive hawake hb hcall with ⟨hd, hret⟩ | hr | ⟨-, s, hfet, hfrom⟩
    · obtain ⟨hacc, -, hsender, -⟩ := hret.resolve_left hf
      refine Or.inl ⟨hacc, ⟨fun hs => hawake.1 ((hd.sending p).mp hs),
        fun hr => hawake.2 ((hd.receving p).mp hr)⟩, ?_, ?_⟩
      · rw [hmem]
        exact hsender
      · intro q hq
        exact (hu hq).trans (hi₁.untouched_of_undisturbed hstep₀ (hcaller hq) hd)
    · have hrecv : k'.Receving p := (hr.receving p).mpr (Or.inl rfl)
      refine Or.inr (Or.inl ⟨⟨hrecv, hr.filter⟩, ?_, ?_⟩)
      · rcases hi₁.pMsg_step hstep₀ hrecv with ⟨hold, -⟩ | ⟨_, va', _, he, hpm⟩
        · exact absurd hold hawake.2
        · cases he
          unfold buf
          rw [hpm]
      · intro q hq
        exact (hu hq).trans (hi₁.untouched_of_rested hstep₀ (hcaller hq) hr hq)
    · have hs : k₁.Sending s := hfet.parked.1
      have hpend := hund.pending s (Or.inl hs)
      refine Or.inr (Or.inr ⟨s, ⟨hs, ?_⟩, hfrom.imp And.left id, ?_, hi₁.awake_of_fetched hfet,
        ?_, ?_⟩)
      · rw [← hpend]
        exact hfet.parked.2
      · exact ⟨fun h => hawake.1 ((hfet.sending p).mp h).2,
          fun h => hawake.2 ((hfet.receving p).mp h)⟩
      · rw [hmem, ← hpend]
        exact hfet.memory
      · intro q hq hqs
        exact (hu hq).trans (hi₁.untouched_of_fetched hstep₀ (hcaller hq) hfet hqs)

end OmochaOS
