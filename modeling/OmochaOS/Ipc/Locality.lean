import OmochaOS.Ipc.Notice

/-!
# What one step leaves alone

A step of one process reaches another process in two ways only: it hands a message to one that waits
for it, or it fetches the message of one that is blocked in a send to the caller.  Everybody else keeps
the two blocking bits, the message in the buffer, and every memory cell of its own.
`IpcInv.bystander` says so; a notification is a step without a caller.
-/

namespace OmochaOS

open TransitionRun BitFlags Kernel

variable {w : World} {k k' : Kernel} {p q r s : Pid} {va : VAddr} {f fuel : ℕ} {m : Message}
  {e : Event}

/-- The process that acts in an event; the hardware is none. -/
def Event.caller : Event → Option Pid
  | .user p _ _ => some p
  | .send _ p _ => some p
  | .recv _ p _ _ => some p
  | .interrupt _ _ => none
  | .exception _ _ _ => none

/-- `p` keeps its blocking bits, the buffer and the message it is blocked with, and its memory. -/
structure Untouched (w : World) (k k' : Kernel) (p : Pid) : Prop where
  sending : k'.Sending p ↔ k.Sending p
  receving : k'.Receving p ↔ k.Receving p
  pending : k.Sending p ∨ k.Receving p → k'.pending p = k.pending p
  buf : k.Receving p → k'.buf p = k.buf p
  memory : ∀ a, w.owner a = p → k'.memory a = k.memory a

theorem Untouched.awake (h : Untouched w k k' p) : k'.Awake p ↔ k.Awake p := by
  unfold Kernel.Awake
  rw [h.sending, h.receving]

theorem Untouched.sendingTo (h : Untouched w k k' p) : k'.SendingTo p r ↔ k.SendingTo p r :=
  SendingTo_congr h.sending fun hs => h.pending (Or.inl hs)

theorem Untouched.trans {k₁ k₂ k₃ : Kernel} (h : Untouched w k₁ k₂ p)
    (h' : Untouched w k₂ k₃ p) : Untouched w k₁ k₃ p where
  sending := h'.sending.trans h.sending
  receving := h'.receving.trans h.receving
  pending hb := by
    rw [h'.pending (hb.imp h.sending.mpr h.receving.mpr), h.pending hb]
  buf hr := (h'.buf (h.receving.mpr hr)).trans (h.buf hr)
  memory a ha := (h'.memory a ha).trans (h.memory a ha)

/-- A store in the memory of another process. -/
theorem IpcInv.untouched_writeOwn (hi : IpcInv w k) {a : PAddr} (ha : w.owner a = q)
    (hne : p ≠ q) : Untouched w k (k.writeMsg a m) p where
  sending := Iff.rfl
  receving := Iff.rfl
  pending hb := hi.pending_writeMsg ha hb hne
  buf _ := rfl
  memory b hb := by
    refine Function.update_of_ne ?_ _ _
    rintro rfl
    exact hne (hb.symm.trans ha)

/-! ### Memory -/

/-- **A step writes cells of its caller, and the buffer of a receiver it wakes.** -/
theorem IpcInv.memory_step (hi : IpcInv w k) (hstep : Step w k e k') (a : PAddr)
    (hcaller : e.caller ≠ some (w.owner a))
    (hwoken : ¬ (k.Receving (w.owner a) ∧ ¬ k'.Receving (w.owner a))) :
    k'.memory a = k.memory a := by
  -- a cell of the caller is not `a`
  have hown : ∀ {p b}, e.caller = some p → w.owner b = p → a ≠ b := by
    rintro p b he hb rfl
    exact hcaller (he.trans (congrArg some hb.symm))
  -- a woken receiver's buffer is not `a`
  have hbuf : ∀ {k₁ k₂ : Kernel} {r : Pid} {m : Message}, IpcInv w k₁ → Woken k₁ k₂ r m →
      k₁.Receving r → (k₁.Receving (w.owner a) ↔ k.Receving (w.owner a)) →
      (¬ k₂.Receving (w.owner a) → ¬ k'.Receving (w.owner a)) → k₂.memory a = k₁.memory a := by
    intro k₁ k₂ r m hi₁ hw hr hk hk'
    rw [hw.memory]
    refine Function.update_of_ne ?_ _ _
    rintro rfl
    have ho := (hi₁.own r (Or.inr hr)).2
    rw [ho] at hk hk' hwoken
    exact hwoken ⟨hk.mp hr, hk' fun h => ((hw.receving r).mp h).1 rfl⟩
  cases hstep with
  | user hlive hawake ho => exact Function.update_of_ne (hown rfl ho) _ _
  | @send k' fuel p va hlive hawake hb hto hcall =>
    have hstamp : (k.stampSender p va).memory a = k.memory a :=
      Function.update_of_ne (hown rfl hb.2) _ _
    obtain ⟨names, -, ⟨hready, rfl⟩ | ⟨-, hq⟩⟩ := sendMsg_cases hcall
    · have hi₁ : IpcInv w ((k.stampSender p va).print names) :=
        (hi.writeOwn hawake hb.2 _).of_same rfl rfl rfl
      exact (hbuf hi₁ woken_deliver hready.1 Iff.rfl id).trans hstamp
    · rw [(quened_queneSender hq).memory]
      exact hstamp
  | @recv k' fuel p va f hlive hawake hb hfilter hcall =>
    have hstamp : (k.stampReceiver p va).memory a = k.memory a :=
      Function.update_of_ne (hown rfl hb.2) _ _
    have hown' : ∀ {k₁ : Kernel} {m : Message},
        k₁.memory = Function.update (k.stampReceiver p va).memory (k.msgAddr p va) m →
        k₁.memory a = k.memory a := by
      intro k₁ m hk
      rw [hk, Function.update_of_ne (hown rfl hb.2)]
      exact hstamp
    rcases recvMsg_cases hcall with ⟨-, rfl⟩ | ⟨-, -, -, rfl⟩ | ⟨-, -, -, -, rfl⟩ | ⟨-, -, -, hq⟩
    · exact hstamp
    · exact hown' noticed_recvInterrupt.memory
    · exact hown' noticed_recvException.memory
    · rcases recvQuened_cases hq with ⟨rfl, -⟩ | ⟨-, s, -, rfl⟩ | ⟨-, -, -, k₁, hk₁, rfl⟩
      · exact hown' asleep_blockReceiver.memory
      · exact hown' taken_takeMsg.memory
      · have hmem := (unlinkSender_cases hk₁).1.memory
        refine hown' (m := k₁.pending f) ?_
        rw [← hmem]
        exact taken_takeMsg.memory
  | @interrupt irq pid hlive hirq =>
    by_cases hw : k.WaitsForNotice pid
    · have he : ∃ m, k.sendInterruptMsg irq pid = k.wakeWith pid m := ⟨_, if_pos hw⟩
      obtain ⟨m, he⟩ := he
      rw [he] at hbuf ⊢
      exact hbuf hi woken_wakeWith hw.1 Iff.rfl id
    · have he : k.sendInterruptMsg irq pid = _ := if_neg hw
      rw [he]
      rfl
  | @exception exc data pid hlive hexc =>
    by_cases hw : k.WaitsForNotice pid
    · have he : ∃ m, k.sendExceptionMsg exc data pid = k.wakeWith pid m := ⟨_, if_pos hw⟩
      obtain ⟨m, he⟩ := he
      rw [he] at hbuf ⊢
      exact hbuf hi woken_wakeWith hw.1 Iff.rfl id
    · have he : k.sendExceptionMsg exc data pid = _ := if_neg hw
      rw [he]
      rfl

/-! ### Status bits and buffers -/

/-- **No step changes a status bit that neither blocking nor notifying writes.** -/
theorem Step.is_other (hstep : Step w k e k') {mask : BitVec 32}
    (hs : procStatusSending &&& mask = 0) (hr : procStatusReceving &&& mask = 0)
    (hrun : procStatusRunning &&& mask = 0) (hint : procStatusGotint &&& mask = 0)
    (hexc : procStatusGotexc &&& mask = 0) (q : Pid) : k'.Is q mask ↔ k.Is q mask := by
  cases hstep with
  | user => exact Iff.rfl
  | @send k' fuel p va hlive hawake hb hto hcall =>
    obtain ⟨names, -, ⟨-, rfl⟩ | ⟨-, hq⟩⟩ := sendMsg_cases hcall
    · exact woken_deliver.is_other q mask hr hrun
    · exact (quened_queneSender hq).is_other q mask hs
  | @recv k' fuel p va f hlive hawake hb hfilter hcall =>
    rcases recvMsg_cases hcall with ⟨-, rfl⟩ | ⟨-, -, -, rfl⟩ | ⟨-, -, -, -, rfl⟩ | ⟨-, -, -, hq⟩
    · exact Iff.rfl
    · exact noticed_recvInterrupt.is_other q mask hint
    · exact noticed_recvException.is_other q mask hexc
    · rcases recvQuened_cases hq with ⟨rfl, -⟩ | ⟨-, s, -, rfl⟩ | ⟨-, -, -, k₁, hk₁, rfl⟩
      · exact asleep_blockReceiver.is_other q mask hrun hr
      · refine (taken_takeMsg.is_other q mask hs hrun).trans ?_
        exact is_congr (unlinked_setQueneHead (k := k.stampReceiver p va)).status
      · exact (taken_takeMsg.is_other q mask hs hrun).trans
          (is_congr (unlinkSender_cases hk₁).1.status)
  | @interrupt irq pid hlive hirq =>
    unfold Kernel.sendInterruptMsg
    split
    · exact woken_wakeWith.is_other q mask hr hrun
    · exact is_post_of_disjoint (r := pid) hint (status_setStatus _)
  | @exception exc data pid hlive hirq =>
    unfold Kernel.sendExceptionMsg
    split
    · exact woken_wakeWith.is_other q mask hr hrun
    · exact is_post_of_disjoint (r := pid) hexc (status_setStatus _)

/-- A process that waits after a step has the buffer it had, or the one it has just passed. -/
theorem IpcInv.pMsg_step (hi : IpcInv w k) (hstep : Step w k e k') (hq : k'.Receving q) :
    (k.Receving q ∧ k'.pMsg q = k.pMsg q) ∨
      ∃ fuel va f, e = .recv fuel q va f ∧ k'.pMsg q = va := by
  cases hstep with
  | user => exact Or.inl ⟨hq, rfl⟩
  | @send k' fuel p va hlive hawake hb hto hcall =>
    obtain ⟨names, -, ⟨-, rfl⟩ | ⟨-, hquened⟩⟩ := sendMsg_cases hcall
    · refine Or.inl ⟨((woken_deliver.receving q).mp hq).2, ?_⟩
      rw [woken_deliver.pMsg]
      rfl
    · have hqn := quened_queneSender hquened
      have hr : k.Receving q := (hqn.is_other q _ (by decide)).mp hq
      refine Or.inl ⟨hr, ?_⟩
      rw [hqn.pMsg, Function.update_of_ne (hawake.ne (Or.inr hr))]
      rfl
  | @recv k' fuel p va f hlive hawake hb hfilter hcall =>
    have hi₁ : IpcInv w (k.stampReceiver p va) := hi.writeOwn hawake hb.2 _
    -- a fetched sender is no receiver
    have hfetch : ∀ {k₁ : Kernel} {s : Pid}, (k.stampReceiver p va).Sending s →
        Unlinked (k.stampReceiver p va) k₁ → k' = k₁.takeMsg (k.msgAddr p va) s →
        k.Receving q ∧ k'.pMsg q = k.pMsg q := by
      intro k₁ s hs hu he
      subst he
      have ht : Taken k₁ (k₁.takeMsg (k.msgAddr p va) s) (k.msgAddr p va) s := taken_takeMsg
      have hr : (k.stampReceiver p va).Receving q :=
        (is_congr hu.status).mp ((ht.is_other q procStatusReceving (by decide) (by decide)).mp hq)
      have hne : q ≠ s := by
        rintro rfl
        exact hi₁.notBoth q ⟨hs, hr⟩
      refine ⟨hr, ?_⟩
      rw [ht.pMsg, Function.update_of_ne hne, hu.pMsg]
      rfl
    have hnotice : ∀ {m : Message} {bit : BitVec 32} {second : Bool},
        Noticed (k.stampReceiver p va) k' p (k.msgAddr p va) m bit second →
        bit &&& procStatusReceving = 0 → k.Receving q ∧ k'.pMsg q = k.pMsg q := by
      intro m bit second hn hb
      exact ⟨(hn.is_other q procStatusReceving hb).mp hq, congrFun hn.pMsg q⟩
    rcases recvMsg_cases hcall with ⟨-, rfl⟩ | ⟨-, -, -, rfl⟩ | ⟨-, -, -, -, rfl⟩ | ⟨-, -, -, hqu⟩
    · exact Or.inl ⟨hq, rfl⟩
    · exact Or.inl (hnotice noticed_recvInterrupt (by decide))
    · exact Or.inl (hnotice noticed_recvException (by decide))
    · rcases recvQuened_cases hqu with ⟨rfl, -⟩ | ⟨-, s, hhead, rfl⟩ | ⟨-, -, hpk, k₁, hk₁, rfl⟩
      · have ha : Asleep (k.stampReceiver p va)
            (blockReceiver fuel (k.stampReceiver p va) p va f) p va f := asleep_blockReceiver
        by_cases hqp : q = p
        · subst hqp
          refine Or.inr ⟨fuel, va, f, rfl, ?_⟩
          rw [ha.pMsg, Function.update_self]
        · refine Or.inl ⟨((ha.receving q).mp hq).resolve_left hqp, ?_⟩
          rw [ha.pMsg, Function.update_of_ne hqp]
          rfl
      · exact Or.inl (hfetch (hi₁.chain_pop hhead).1.1 unlinked_setQueneHead rfl)
      · exact Or.inl (hfetch hpk.2.1 (unlinkSender_cases hk₁).1 rfl)
  | @interrupt irq pid hlive hirq =>
    unfold Kernel.sendInterruptMsg at hq ⊢
    split
    · rename_i hw
      rw [if_pos hw] at hq
      refine Or.inl ⟨((woken_wakeWith.receving q).mp hq).2, ?_⟩
      rw [woken_wakeWith.pMsg]
    · rename_i hw
      rw [if_neg hw] at hq
      refine Or.inl ⟨(is_post_of_disjoint (r := pid) (by decide) (status_setStatus _)).mp hq, ?_⟩
      exact congrFun (setStatus_frame _).2.2.1 q
  | @exception exc data pid hlive hirq =>
    unfold Kernel.sendExceptionMsg at hq ⊢
    split
    · rename_i hw
      rw [if_pos hw] at hq
      refine Or.inl ⟨((woken_wakeWith.receving q).mp hq).2, ?_⟩
      rw [woken_wakeWith.pMsg]
    · rename_i hw
      rw [if_neg hw] at hq
      refine Or.inl ⟨(is_post_of_disjoint (r := pid) (by decide) (status_setStatus _)).mp hq, ?_⟩
      exact congrFun (setStatus_frame _).2.2.1 q

/-! ### Bystanders -/

/-- The receive of `p` returns with `m`. -/
structure Returned (k k' : Kernel) (p : Pid) (m : Message) : Prop where
  waited : k.Receving p
  memory : k'.memory (k.buf p) = m
  awake : k'.Awake p

/-- What a step of `caller` does to a process that does not act in it. -/
inductive Bystander (w : World) (k : Kernel) (caller : Option Pid) (k' : Kernel) (p : Pid) : Prop
  | untouched (h : Untouched w k k' p)
  /-- it is woken with the message of a sender its filter admits -/
  | handed (q : Pid) (m : Message) (hq : caller = some q) (hfrom : m.sender = q)
      (hto : m.receiver = p) (hadm : Admits (k.pending p).sender q) (h : Returned k k' p m)
  /-- it is woken with a notification -/
  | noticed (m : Message) (hc : caller = none) (hm : m.sender = procInterrupt)
      (hadm : AcceptsNotice (k.pending p).sender) (h : Returned k k' p m)
  /-- its message is fetched -/
  | fetched (r : Pid) (hr : caller = some r) (hto : k.SendingTo p r) (hawake : k'.Awake p)

theorem IpcInv.returned_of_handed (hi : IpcInv w k) (h : Handed k k' p m) : Returned k k' p m where
  waited := h.waited
  memory := h.memory
  awake := ⟨fun hs => hi.notBoth p ⟨(h.sending p).mp hs, h.waited⟩,
    fun hr => ((h.receving p).mp hr).1 rfl⟩

/-- A process whose blocking bits and message stay keeps its memory as well. -/
theorem IpcInv.untouched_of_kept (hi : IpcInv w k) (hstep : Step w k e k')
    (hcaller : e.caller ≠ some p) (hs : k'.Sending p ↔ k.Sending p)
    (hr : k'.Receving p ↔ k.Receving p)
    (hp : k.Sending p ∨ k.Receving p → k'.pending p = k.pending p) : Untouched w k k' p where
  sending := hs
  receving := hr
  pending := hp
  buf hb := by
    rcases hi.pMsg_step hstep (hr.mpr hb) with ⟨-, he⟩ | ⟨_, _, _, rfl, -⟩
    · exact hstep.fixed.buf he
    · exact absurd rfl hcaller
  memory a ha := by
    subst ha
    exact hi.memory_step hstep a hcaller fun h => h.2 (hr.mpr h.1)

section Effects

variable (hi : IpcInv w k) (hstep : Step w k e k') (hcaller : e.caller ≠ some p)
include hi hstep hcaller

theorem IpcInv.untouched_of_undisturbed (hu : Undisturbed k k') : Untouched w k k' p :=
  hi.untouched_of_kept hstep hcaller (hu.sending p) (hu.receving p) (hu.pending p)

theorem IpcInv.untouched_of_handed (hh : Handed k k' r m) (hne : p ≠ r) : Untouched w k k' p :=
  hi.untouched_of_kept hstep hcaller (hh.sending p)
    ((hh.receving p).trans (and_iff_right hne)) fun hb => hh.pending p hb hne

theorem IpcInv.untouched_of_parked (hp : Parked k k' q r m) (hne : p ≠ q) : Untouched w k k' p :=
  hi.untouched_of_kept hstep hcaller ((hp.sending p).trans (or_iff_right hne)) (hp.receving p)
    (hp.pending p)

theorem IpcInv.untouched_of_rested (hr : Rested k k' q f) (hne : p ≠ q) : Untouched w k k' p :=
  hi.untouched_of_kept hstep hcaller (hr.sending p) ((hr.receving p).trans (or_iff_right hne))
    (hr.pending p)

theorem IpcInv.untouched_of_fetched {msg : PAddr} (hf : Fetched k k' r s msg) (hne : p ≠ s) :
    Untouched w k k' p :=
  hi.untouched_of_kept hstep hcaller ((hf.sending p).trans (and_iff_right hne)) (hf.receving p)
    fun hb => hf.pending p hb hne

end Effects

/-- The sender of a fetched message is awake. -/
theorem IpcInv.awake_of_fetched {msg : PAddr} (hi : IpcInv w k) (hf : Fetched k k' r s msg) :
    k'.Awake s :=
  ⟨fun hs => ((hf.sending s).mp hs).1 rfl,
    fun hr => hi.notBoth s ⟨hf.parked.1, (hf.receving s).mp hr⟩⟩

/-- **A process is reached by a step of somebody else in these ways only.** -/
theorem IpcInv.bystander (hi : IpcInv w k) (hstep : Step w k e k') (hcaller : e.caller ≠ some p) :
    Bystander w k e.caller k' p := by
  have hund := hi.untouched_of_undisturbed hstep hcaller
  have hother := fun r m => hi.untouched_of_handed (r := r) (m := m) hstep hcaller
  have hstep₀ := hstep
  cases hstep with
  | user hlive hawake hown =>
    exact .untouched (hi.untouched_writeOwn hown fun he => hcaller (congrArg some he.symm))
  | @send k' fuel q va hlive hawake hb hto hcall =>
    have hne : p ≠ q := fun he => hcaller (congrArg some he.symm)
    rcases hi.outcome_send hlive hawake hb hto hcall with ⟨hh, hadm⟩ | hp
    · by_cases hpr : p = (k.stamped q va).receiver
      · rw [← hpr] at hh hadm
        exact .handed q { k.stamped q va with ready := false } rfl rfl hpr.symm hadm
          (hi.returned_of_handed hh)
      · exact .untouched (hother _ _ hh hpr)
    · exact .untouched (hi.untouched_of_parked hstep₀ hcaller hp hne)
  | @recv k' fuel q va f hlive hawake hb hfilter hcall =>
    have hne : p ≠ q := fun he => hcaller (congrArg some he.symm)
    rcases hi.outcome_recv hlive hawake hb hcall with ⟨hu, -⟩ | hr | ⟨-, s, hf, -⟩
    · exact .untouched (hund hu)
    · exact .untouched (hi.untouched_of_rested hstep₀ hcaller hr hne)
    · by_cases hps : p = s
      · rw [← hps] at hf
        exact .fetched q rfl hf.parked (hi.awake_of_fetched hf)
      · exact .untouched (hi.untouched_of_fetched hstep₀ hcaller hf hps)
  | @interrupt irq pid hlive hirq =>
    rcases hi.outcome_interrupt irq pid with hu | ⟨m, hh, hms, -, hf⟩
    · exact .untouched (hund hu)
    · by_cases hpr : p = pid
      · subst hpr
        exact .noticed m rfl hms hf.symm (hi.returned_of_handed hh)
      · exact .untouched (hother _ _ hh hpr)
  | @exception exc data pid hlive hexc =>
    rcases hi.outcome_exception exc data pid with hu | ⟨m, hh, hms, -, hf⟩
    · exact .untouched (hund hu)
    · by_cases hpr : p = pid
      · subst hpr
        exact .noticed m rfl hms hf.symm (hi.returned_of_handed hh)
      · exact .untouched (hother _ _ hh hpr)

end OmochaOS
