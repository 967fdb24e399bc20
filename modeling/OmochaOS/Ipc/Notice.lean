import OmochaOS.Ipc.Outcome
import OmochaOS.Kernel.Pending

/-!
# What one step does to notifications

A notification of an interrupt or an exception is in one of two places: in the buffer of a receive
that has returned with it, or in a pending slot announced by a status bit of its subscriber.
`NoticeEffect` lists what a step can do to the slots, to the two bits and to what returns;
`IpcInv.noticeEffect` says that every step does one of these things.
-/

namespace OmochaOS

open TransitionRun BitFlags Kernel

variable {w : World} {k k' : Kernel} {p q r s : Pid} {va : VAddr} {f fuel : ℕ} {m : Message}
  {e : Event}

/-- `p` has an interrupt pending. -/
abbrev Kernel.Gotint (k : Kernel) (p : Pid) : Prop := k.Is p procStatusGotint

/-- `p` has an exception pending. -/
abbrev Kernel.Gotexc (k : Kernel) (p : Pid) : Prop := k.Is p procStatusGotexc

/-- Of one kind of notification, neither the slots nor the bits change. -/
structure SlotsKept (table table' : ℕ → InterruptData) (got got' : Pid → Prop) : Prop where
  slots : table' = table
  bits : ∀ q, got' q ↔ got q

/-- `r` takes the notification the scan finds. -/
structure SlotTaken (count : ℕ) (table table' : ℕ → InterruptData) (got got' : Pid → Prop)
    (r : Pid) : Prop where
  announced : got r
  slots : table' = Function.update table (scan table count).1.1
    { table (scan table count).1.1 with avail := false }
  bits : ∀ q, got' q ↔ got q ∧ (q = r → (scan table count).2 = true)

/-- A notification is put into slot `i` for `r`. -/
structure SlotFilled (table table' : ℕ → InterruptData) (got got' : Pid → Prop) (i data : ℕ)
    (r : Pid) : Prop where
  slots : table' = Function.update table i { avail := true, data := data }
  bits : ∀ q, got' q ↔ q = r ∨ got q

abbrev InterruptsKept (k k' : Kernel) : Prop :=
  SlotsKept k.interruptSuscribedData k'.interruptSuscribedData k.Gotint k'.Gotint

abbrev ExceptionsKept (k k' : Kernel) : Prop :=
  SlotsKept k.exceptionSuscribedData k'.exceptionSuscribedData k.Gotexc k'.Gotexc

/-- The message announces interrupt `irq`. -/
def Message.IsInterrupt (m : Message) (irq : ℕ) : Prop :=
  m.sender = procInterrupt ∧ m.type = msgInterrupt ∧ m.major = irq

/-- The message announces exception `exc` with `data`. -/
def Message.IsException (m : Message) (exc data : ℕ) : Prop :=
  m.sender = procInterrupt ∧ m.type = msgException ∧ m.major = exc ∧ m.data.d1 = data

/-- The step is no receive that has a notification to take. -/
def Kernel.TakesNothing (k : Kernel) : Event → Prop
  | .recv _ p _ f => AcceptsNotice f → ¬ k.Gotint p ∧ ¬ k.Gotexc p
  | .interrupt _ _ => False
  | .exception _ _ _ => False
  | _ => True

/-- What a step can do to notifications. -/
inductive NoticeEffect (k : Kernel) : Event → Kernel → Prop
  | quiet {e : Event} {k' : Kernel} (he : k.TakesNothing e) (hint : InterruptsKept k k')
      (hexc : ExceptionsKept k k')
      (hret : ∀ x ∈ k.returns e k', x.2.sender ≠ procInterrupt) : NoticeEffect k e k'
  | takeInterrupt {fuel f : ℕ} {p : Pid} {va : VAddr} {k' : Kernel} {m : Message}
      (hf : AcceptsNotice f)
      (hint : SlotTaken hwIrqCount k.interruptSuscribedData k'.interruptSuscribedData
        k.Gotint k'.Gotint p)
      (hexc : ExceptionsKept k k') (hret : k.returns (.recv fuel p va f) k' = [(p, m)])
      (hm : m.IsInterrupt (scan k.interruptSuscribedData hwIrqCount).1.1) :
      NoticeEffect k (.recv fuel p va f) k'
  | takeException {fuel f : ℕ} {p : Pid} {va : VAddr} {k' : Kernel} {m : Message}
      (hf : AcceptsNotice f) (hno : ¬ k.Gotint p) (hint : InterruptsKept k k')
      (hexc : SlotTaken exceptionCount k.exceptionSuscribedData k'.exceptionSuscribedData
        k.Gotexc k'.Gotexc p)
      (hret : k.returns (.recv fuel p va f) k' = [(p, m)])
      (hm : m.IsException (scan k.exceptionSuscribedData exceptionCount).1.1
        (scan k.exceptionSuscribedData exceptionCount).1.2) :
      NoticeEffect k (.recv fuel p va f) k'
  | wakeInterrupt {irq : ℕ} {pid : Pid} {k' : Kernel} {m : Message} (hwait : k.WaitsForNotice pid)
      (hint : InterruptsKept k k') (hexc : ExceptionsKept k k')
      (hret : k.returns (.interrupt irq pid) k' = [(pid, m)]) (hm : m.IsInterrupt irq) :
      NoticeEffect k (.interrupt irq pid) k'
  | wakeException {exc data : ℕ} {pid : Pid} {k' : Kernel} {m : Message}
      (hwait : k.WaitsForNotice pid) (hint : InterruptsKept k k') (hexc : ExceptionsKept k k')
      (hret : k.returns (.exception exc data pid) k' = [(pid, m)]) (hm : m.IsException exc data) :
      NoticeEffect k (.exception exc data pid) k'
  | postInterrupt {irq : ℕ} {pid : Pid} {k' : Kernel} (hwait : ¬ k.WaitsForNotice pid)
      (hint : SlotFilled k.interruptSuscribedData k'.interruptSuscribedData k.Gotint k'.Gotint
        irq irq pid)
      (hexc : ExceptionsKept k k') (hret : k.returns (.interrupt irq pid) k' = []) :
      NoticeEffect k (.interrupt irq pid) k'
  | postException {exc data : ℕ} {pid : Pid} {k' : Kernel} (hwait : ¬ k.WaitsForNotice pid)
      (hint : InterruptsKept k k')
      (hexc : SlotFilled k.exceptionSuscribedData k'.exceptionSuscribedData k.Gotexc k'.Gotexc
        exc data pid)
      (hret : k.returns (.exception exc data pid) k' = []) :
      NoticeEffect k (.exception exc data pid) k'

/-! ### Each call -/

/-- Steps that change neither the slots nor the two bits. -/
theorem kept_of_parts (hslots : SameSlots k k')
    (his : ∀ q mask, mask = procStatusGotint ∨ mask = procStatusGotexc →
      (k'.Is q mask ↔ k.Is q mask)) : InterruptsKept k k' ∧ ExceptionsKept k k' :=
  ⟨⟨hslots.1, fun q => his q _ (Or.inl rfl)⟩, ⟨hslots.2, fun q => his q _ (Or.inr rfl)⟩⟩

/-- The notification bits are none of the bits that blocking and waking write. -/
theorem noticeBit_disjoint {mask : BitVec 32}
    (h : mask = procStatusGotint ∨ mask = procStatusGotexc) :
    procStatusSending &&& mask = 0 ∧ procStatusReceving &&& mask = 0 ∧
      procStatusRunning &&& mask = 0 := by
  rcases h with rfl | rfl <;> decide

theorem Kernel.Woken.kept (h : Woken k k' r m) : InterruptsKept k k' ∧ ExceptionsKept k k' :=
  kept_of_parts h.slots fun q mask hm =>
    h.is_other q mask (noticeBit_disjoint hm).2.1 (noticeBit_disjoint hm).2.2

theorem Kernel.Quened.kept (h : Quened fuel k k' s va r) : InterruptsKept k k' ∧ ExceptionsKept k k' :=
  kept_of_parts h.slots fun q mask hm => h.is_other q mask (noticeBit_disjoint hm).1

theorem Kernel.Asleep.kept (h : Asleep k k' r va f) : InterruptsKept k k' ∧ ExceptionsKept k k' :=
  kept_of_parts h.slots fun q mask hm =>
    h.is_other q mask (noticeBit_disjoint hm).2.2 (noticeBit_disjoint hm).2.1

theorem Kernel.Taken.kept {msg : PAddr} {k₁ : Kernel} (hu : Unlinked k k₁) (h : Taken k₁ k' msg s) :
    InterruptsKept k k' ∧ ExceptionsKept k k' :=
  kept_of_parts (hu.slots.trans h.slots) fun q mask hm =>
    (h.is_other q mask (noticeBit_disjoint hm).1 (noticeBit_disjoint hm).2.2).trans
      (is_congr hu.status)

theorem slotTaken_recvInterrupt {msg : PAddr} (h : k.Gotint r) :
    SlotTaken hwIrqCount k.interruptSuscribedData (k.recvInterrupt r msg).interruptSuscribedData
      k.Gotint (k.recvInterrupt r msg).Gotint r := by
  refine ⟨h, ?_, noticed_recvInterrupt.is_bit⟩
  unfold Kernel.recvInterrupt
  simp only
  split <;> rfl

theorem slotTaken_recvException {msg : PAddr} (h : k.Gotexc r) :
    SlotTaken exceptionCount k.exceptionSuscribedData
      (k.recvException r msg).exceptionSuscribedData
      k.Gotexc (k.recvException r msg).Gotexc r := by
  refine ⟨h, ?_, noticed_recvException.is_bit⟩
  unfold Kernel.recvException
  simp only
  split <;> rfl

theorem exceptionsKept_recvInterrupt {msg : PAddr} : ExceptionsKept k (k.recvInterrupt r msg) := by
  refine ⟨?_, fun q => noticed_recvInterrupt.is_other q _ (by decide)⟩
  unfold Kernel.recvInterrupt
  simp only
  split <;> rfl

theorem interruptsKept_recvException {msg : PAddr} : InterruptsKept k (k.recvException r msg) := by
  refine ⟨?_, fun q => noticed_recvException.is_other q _ (by decide)⟩
  unfold Kernel.recvException
  simp only
  split <;> rfl

/-- Posting sets the bit of the subscriber. -/
theorem is_post {bit : BitVec 32} (hb : bit ≠ 0) (hk : k'.status =
    Function.update k.status r (raise (k.status r) bit)) : k'.Is q bit ↔ q = r ∨ k.Is q bit := by
  rw [Is, hk, Function.update_apply]
  split
  · rename_i hq
    simp [hq, has_raise_self hb]
  · rename_i hq
    simp [hq, Is]

theorem is_post_of_disjoint {bit mask : BitVec 32} (hb : bit &&& mask = 0) (hk : k'.status =
    Function.update k.status r (raise (k.status r) bit)) : k'.Is q mask ↔ k.Is q mask := by
  rw [Is, hk, Function.update_apply]
  split
  · rename_i hq
    rw [has_raise_of_disjoint hb, hq]
    rfl
  · rfl

theorem IpcInv.noticeEffect_interrupt (hi : IpcInv w k) (irq : ℕ) (pid : Pid) :
    NoticeEffect k (.interrupt irq pid) (k.sendInterruptMsg irq pid) := by
  by_cases hwait : k.WaitsForNotice pid
  · obtain ⟨m, hm, he⟩ : ∃ m : Message, m.IsInterrupt irq ∧
        k.sendInterruptMsg irq pid = k.wakeWith pid m := by
      refine ⟨{ k.pending pid with sender := procInterrupt, type := msgInterrupt, major := irq },
        ⟨rfl, rfl, rfl⟩, ?_⟩
      unfold Kernel.sendInterruptMsg
      exact if_pos hwait
    rw [he]
    obtain ⟨hint, hexc⟩ := (woken_wakeWith (k := k) (r := pid) (m := m)).kept
    exact .wakeInterrupt hwait hint hexc (hi.handed_woken woken_wakeWith hwait.1).wokenWith hm
  · have he : k.sendInterruptMsg irq pid =
        (k.setStatus pid (raise (k.status pid) procStatusGotint)).setInterruptData irq
          { avail := true, data := irq } := by
      unfold Kernel.sendInterruptMsg
      exact if_neg hwait
    rw [he]
    set k' := (k.setStatus pid (raise (k.status pid) procStatusGotint)).setInterruptData irq
      { avail := true, data := irq } with hk'
    have hst : k'.status = Function.update k.status pid (raise (k.status pid) procStatusGotint) :=
      status_setStatus _
    refine .postInterrupt hwait ⟨rfl, fun q => is_post (by decide) hst⟩
      ⟨rfl, fun q => is_post_of_disjoint (by decide) hst⟩ ?_
    exact wokenWith_of_kept (is_post_of_disjoint (by decide) hst)

theorem IpcInv.noticeEffect_exception (hi : IpcInv w k) (exc data : ℕ) (pid : Pid) :
    NoticeEffect k (.exception exc data pid) (k.sendExceptionMsg exc data pid) := by
  by_cases hwait : k.WaitsForNotice pid
  · obtain ⟨m, hm, he⟩ : ∃ m : Message, m.IsException exc data ∧
        k.sendExceptionMsg exc data pid = k.wakeWith pid m := by
      refine ⟨{ k.pending pid with
        sender := procInterrupt, type := msgException, major := exc,
        data := { (k.pending pid).data with d1 := data } }, ⟨rfl, rfl, rfl, rfl⟩, ?_⟩
      unfold Kernel.sendExceptionMsg
      exact if_pos hwait
    rw [he]
    obtain ⟨hint, hexc⟩ := (woken_wakeWith (k := k) (r := pid) (m := m)).kept
    exact .wakeException hwait hint hexc (hi.handed_woken woken_wakeWith hwait.1).wokenWith hm
  · have he : k.sendExceptionMsg exc data pid =
        (k.setStatus pid (raise (k.status pid) procStatusGotexc)).setExceptionData exc
          { avail := true, data := data } := by
      unfold Kernel.sendExceptionMsg
      exact if_neg hwait
    rw [he]
    set k' := (k.setStatus pid (raise (k.status pid) procStatusGotexc)).setExceptionData exc
      { avail := true, data := data } with hk'
    have hst : k'.status = Function.update k.status pid (raise (k.status pid) procStatusGotexc) :=
      status_setStatus _
    refine .postException hwait ⟨rfl, fun q => is_post_of_disjoint (by decide) hst⟩
      ⟨rfl, fun q => is_post (by decide) hst⟩ ?_
    exact wokenWith_of_kept (is_post_of_disjoint (by decide) hst)

/-- The sender of a message that came from a process is no notification. -/
theorem World.sender_ne (hs : w.live s) (hm : m.sender = s) :
    m.sender ≠ procInterrupt := by
  have hlt := w.live_lt s hs
  rw [hm]
  intro he
  rw [he] at hlt
  simp [procInterrupt, procAny] at hlt

theorem IpcInv.noticeEffect_send (hi : IpcInv w k) (hlive : w.live p) (hawake : k.Awake p)
    (hbuf : w.OwnBuffer k p va) (hto : w.live (k.stamped p va).receiver)
    (hcall : Kernel.sendMsg fuel k p va = some k') : NoticeEffect k (.send fuel p va) k' := by
  have hkept : InterruptsKept k k' ∧ ExceptionsKept k k' := by
    obtain ⟨names, -, ⟨-, rfl⟩ | ⟨-, hq⟩⟩ := sendMsg_cases hcall
    · exact (woken_deliver (k := (k.stampSender p va).print names)).kept
    · exact (quened_queneSender hq).kept
  refine .quiet trivial hkept.1 hkept.2 ?_
  rcases hi.outcome_send hlive hawake hbuf hto hcall with ⟨hh, -⟩ | hp
  · rw [show k.returns (.send fuel p va) k' = [(_, _)] from hh.wokenWith]
    intro x hx
    obtain rfl := List.mem_singleton.mp hx
    exact World.sender_ne hlive rfl
  · rw [show k.returns (.send fuel p va) k' = [] from wokenWith_of_kept (hp.receving _)]
    simp

theorem IpcInv.noticeEffect_recv (hi : IpcInv w k) (hlive : w.live p) (hawake : k.Awake p)
    (hbuf : w.OwnBuffer k p va) (hcall : Kernel.recvMsg fuel k p va f = some k') :
    NoticeEffect k (.recv fuel p va f) k' := by
  have hnr : ∀ {m : Message} {bit : BitVec 32} {second : Bool},
      Noticed (k.stampReceiver p va) k' p (k.msgAddr p va) m bit second →
      bit &&& procStatusReceving = 0 → AcceptsNotice f →
      k.returns (.recv fuel p va f) k' = [(p, m)] := by
    intro m bit second hn hb hf
    have hf0 : f ≠ 0 := by
      rcases hf with rfl | rfl <;> decide
    have hp : ¬ k'.Receving p := fun hr => hawake.2 ((hn.is_other p _ hb).mp hr)
    have hm : k'.memory (k.msgAddr p va) = m := by rw [hn.memory, Function.update_self]
    rw [← hm]
    exact if_pos ⟨hf0, hp⟩
  have hsplit := recvMsg_cases hcall
  rcases hsplit with ⟨h0, rfl⟩ | ⟨-, hgot, hf, rfl⟩ | ⟨-, hni, hgot, hf, rfl⟩ | ⟨hf0, hni, hne, hq⟩
  · have h0' : ¬ AcceptsNotice f := by
      rw [h0]
      decide
    refine .quiet (fun hf => absurd hf h0') ⟨rfl, fun _ => Iff.rfl⟩ ⟨rfl, fun _ => Iff.rfl⟩ ?_
    rw [show k.returns (.recv fuel p va f) _ = [] from if_neg fun hc => hc.1 h0]
    simp
  · exact .takeInterrupt hf (slotTaken_recvInterrupt (k := k.stampReceiver p va) hgot)
      (exceptionsKept_recvInterrupt (k := k.stampReceiver p va))
      (hnr noticed_recvInterrupt (by decide) hf) ⟨rfl, rfl, rfl⟩
  · exact .takeException hf (fun hg => hni ⟨hg, hf⟩) (interruptsKept_recvException (k := k.stampReceiver p va))
      (slotTaken_recvException (k := k.stampReceiver p va) hgot)
      (hnr noticed_recvException (by decide) hf) ⟨rfl, rfl, rfl, rfl⟩
  have hkept : InterruptsKept k k' ∧ ExceptionsKept k k' := by
    rcases recvQuened_cases hq with ⟨rfl, -⟩ | ⟨-, s, -, rfl⟩ | ⟨-, -, -, k₁, hk₁, rfl⟩
    · exact (asleep_blockReceiver (k := k.stampReceiver p va)).kept
    · exact (taken_takeMsg (s := s)).kept (k := k.stampReceiver p va) unlinked_setQueneHead
    · exact (taken_takeMsg (s := f)).kept (k := k.stampReceiver p va) (unlinkSender_cases hk₁).1
  refine .quiet (fun hf => ⟨fun hg => hni ⟨hg, hf⟩, fun hg => hne ⟨hg, hf⟩⟩) hkept.1 hkept.2 ?_
  rcases hi.outcome_recv hlive hawake hbuf hcall with ⟨-, hf⟩ | hr | ⟨-, s, hf, -⟩
  · rcases hf.resolve_left hf0 with ⟨hacc, hgot | hgot, -⟩
    · exact absurd ⟨hgot, hacc⟩ hni
    · exact absurd ⟨hgot, hacc⟩ hne
  · rw [show k.returns (.recv fuel p va f) k' = [] from
      if_neg fun hc => hc.2 ((hr.receving p).mpr (Or.inl rfl))]
    simp
  · have hp : ¬ k'.Receving p := fun hr => hawake.2 ((hf.receving p).mp hr)
    have hs := hi.sending s hf.parked.1
    rw [show k.returns (.recv fuel p va f) k' = [(p, k.pending s)] by
      rw [← hf.memory]
      exact if_pos ⟨hf0, hp⟩]
    intro x hx
    obtain rfl := List.mem_singleton.mp hx
    exact World.sender_ne hs.1 hs.2.2

/-- No step changes a pid or a subscription. -/
theorem Step.fixed (hstep : Step w k e k') : Fixed k k' := by
  cases hstep with
  | user hlive hawake hown => exact fixed_writeMsg
  | @send k' fuel p va hlive hawake hbuf hto hcall =>
    have hprint : ∀ names, Fixed k ((k.stampSender p va).print names) :=
      fun names => ⟨rfl, rfl, rfl, rfl, rfl⟩
    obtain ⟨names, -, ⟨-, rfl⟩ | ⟨-, hq⟩⟩ := sendMsg_cases hcall
    · exact (hprint names).trans woken_deliver.fixed
    · exact (hprint names).trans (quened_queneSender hq).fixed
  | @recv k' fuel p va f hlive hawake hbuf hfilter hcall =>
    have hstamp : Fixed k (k.stampReceiver p va) := fixed_writeMsg
    rcases recvMsg_cases hcall with ⟨-, rfl⟩ | ⟨-, -, -, rfl⟩ | ⟨-, -, -, -, rfl⟩ | ⟨-, -, -, hq⟩
    · exact hstamp
    · exact hstamp.trans noticed_recvInterrupt.fixed
    · exact hstamp.trans noticed_recvException.fixed
    · rcases recvQuened_cases hq with ⟨rfl, -⟩ | ⟨-, s, -, rfl⟩ | ⟨-, -, -, k₁, hk₁, rfl⟩
      · exact hstamp.trans asleep_blockReceiver.fixed
      · exact (hstamp.trans unlinked_setQueneHead.fixed).trans taken_takeMsg.fixed
      · exact (hstamp.trans (unlinkSender_cases hk₁).1.fixed).trans taken_takeMsg.fixed
  | interrupt hlive hirq =>
    unfold Kernel.sendInterruptMsg
    split
    · exact woken_wakeWith.fixed
    · exact fixed_setStatus.trans ⟨rfl, rfl, rfl, rfl, rfl⟩
  | exception hlive hexc =>
    unfold Kernel.sendExceptionMsg
    split
    · exact woken_wakeWith.fixed
    · exact fixed_setStatus.trans ⟨rfl, rfl, rfl, rfl, rfl⟩

/-- **Every step has one of these effects.** -/
theorem IpcInv.noticeEffect (hi : IpcInv w k) (hstep : Step w k e k') : NoticeEffect k e k' := by
  cases hstep with
  | user hlive hawake hown =>
    exact .quiet trivial ⟨rfl, fun _ => Iff.rfl⟩ ⟨rfl, fun _ => Iff.rfl⟩
      (by simp [Kernel.returns])
  | send hlive hawake hbuf hto hcall => exact hi.noticeEffect_send hlive hawake hbuf hto hcall
  | recv hlive hawake hbuf hfilter hcall => exact hi.noticeEffect_recv hlive hawake hbuf hcall
  | interrupt hlive hirq => exact hi.noticeEffect_interrupt _ _
  | exception hlive hexc => exact hi.noticeEffect_exception _ _ _

/-! ### Who waits for a notification -/

theorem waitsForNotice_of_pending (hq : k'.WaitsForNotice q) (hr : k.Receving q)
    (hp : k'.pending q = k.pending q) : k.WaitsForNotice q := by
  refine ⟨hr, ?_⟩
  rw [← hp]
  exact hq.2

theorem Undisturbed.waitsForNotice (h : Undisturbed k k') (hq : k'.WaitsForNotice q) :
    k.WaitsForNotice q := by
  have hr := (h.receving q).mp hq.1
  exact waitsForNotice_of_pending hq hr (h.pending q (Or.inr hr))

theorem Handed.waitsForNotice {r : Pid} {m : Message} (h : Handed k k' r m) (hq : k'.WaitsForNotice q) :
    k.WaitsForNotice q := by
  obtain ⟨hne, hr⟩ := (h.receving q).mp hq.1
  exact waitsForNotice_of_pending hq hr (h.pending q (Or.inr hr) hne)

theorem Parked.waitsForNotice {s r : Pid} {m : Message} (h : Parked k k' s r m)
    (hq : k'.WaitsForNotice q) : k.WaitsForNotice q := by
  have hr := (h.receving q).mp hq.1
  exact waitsForNotice_of_pending hq hr (h.pending q (Or.inr hr))

theorem Fetched.waitsForNotice {r s : Pid} {msg : PAddr} (hi : IpcInv w k) (h : Fetched k k' r s msg)
    (hq : k'.WaitsForNotice q) : k.WaitsForNotice q := by
  have hr := (h.receving q).mp hq.1
  have hqs : q ≠ s := fun he => hi.notBoth s ⟨h.parked.1, he ▸ hr⟩
  exact waitsForNotice_of_pending hq hr (h.pending q (Or.inr hr) hqs)

/-- A process waits for a notification after a step only if it did before, or if it has just gone to
sleep with nothing pending. -/
theorem IpcInv.waits_step (hi : IpcInv w k) (hstep : Step w k e k') (hq : k'.WaitsForNotice q) :
    k.WaitsForNotice q ∨ (¬ k'.Gotint q ∧ ¬ k'.Gotexc q) := by
  have heff := hi.noticeEffect hstep
  cases hstep with
  | user hlive hawake hown => exact Or.inl ((hi.undisturbed_writeOwn hawake hown).waitsForNotice hq)
  | send hlive hawake hbuf hto hcall =>
    rcases hi.outcome_send hlive hawake hbuf hto hcall with ⟨hh, -⟩ | hp
    · exact Or.inl (hh.waitsForNotice hq)
    · exact Or.inl (hp.waitsForNotice hq)
  | @recv k' fuel p va f hlive hawake hbuf hfilter hcall =>
    rcases hi.outcome_recv hlive hawake hbuf hcall with ⟨hu, -⟩ | hr | ⟨-, s, hf, -⟩
    · exact Or.inl (hu.waitsForNotice hq)
    · rcases (hr.receving q).mp hq.1 with rfl | hr'
      · -- the caller: its filter lets notifications in, so it had none
        have hacc : AcceptsNotice f := by
          have h := hq.2
          rw [hr.filter] at h
          exact h.symm
        have hret : k.returns (.recv fuel q va f) k' = [] :=
          if_neg fun hc => hc.2 ((hr.receving q).mpr (Or.inl rfl))
        cases heff with
        | quiet he hint hexc _ =>
          obtain ⟨hni, hne⟩ := he hacc
          exact Or.inr ⟨fun h => hni ((hint.bits q).mp h), fun h => hne ((hexc.bits q).mp h)⟩
        | takeInterrupt _ _ _ hret' _ => rw [hret] at hret'; cases hret'
        | takeException _ _ _ _ hret' _ => rw [hret] at hret'; cases hret'
      · exact Or.inl (waitsForNotice_of_pending hq hr' (hr.pending q (Or.inr hr')))
    · exact Or.inl (hf.waitsForNotice hi hq)
  | @interrupt irq pid hlive hirq =>
    rcases hi.outcome_interrupt irq pid with hu | ⟨m, hh, -⟩
    · exact Or.inl (hu.waitsForNotice hq)
    · exact Or.inl (hh.waitsForNotice hq)
  | @exception exc data pid hlive hexc =>
    rcases hi.outcome_exception exc data pid with hu | ⟨m, hh, -⟩
    · exact Or.inl (hu.waitsForNotice hq)
    · exact Or.inl (hh.waitsForNotice hq)

end OmochaOS
