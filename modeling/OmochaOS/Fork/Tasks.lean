import OmochaOS.Fork.Conversation

/-!
# The steps of the two tasks

Each step of SysTask and each step of `Task_Memory` moves the conversation on as `TalkAt` says.
-/

namespace OmochaOS

open TransitionRun BitFlags Kernel

variable {t : Tasks} {s s' : ForkState} {k k' : Kernel} {p q : Pid} {va : VAddr} {c : Option Pid}
  {w : World} {m : Message} {pc : MmPc}

/-! ### Stores and status words -/

theorem IpcInv.taskKept_fill (hi : IpcInv w k) (ha : w.owner (k.msgAddr q va) = q) (hne : p ≠ q)
    {vb : VAddr} (hown : w.owner (k.msgAddr p vb) = p) : TaskKept k (k.fill q va m) p vb :=
  (hi.untouched_writeOwn ha hne).taskKept fixed_writeMsg hown

@[simp] theorem msgAt_fill : (k.fill p va m).msgAt p va = m := Function.update_self _ _ _

/-- The two blocking bits are none of the bits of `st` that differ from the old word. -/
theorem taskKept_setStatus {st : BitVec 32} (hs : Has st procStatusSending ↔ k.Sending q)
    (hr : Has st procStatusReceving ↔ k.Receving q) : TaskKept k (k.setStatus q st) p va := by
  have his : ∀ {mask}, (Has st mask ↔ k.Is q mask) → ((k.setStatus q st).Is p mask ↔ k.Is p mask) := by
    intro mask hm
    rw [is_setStatus]
    split
    · rename_i hp
      rw [hm, hp]
    · rfl
  have hbuf : (k.setStatus q st).buf p = k.buf p := buf_congr (by simp) (by simp) (by simp)
  have haddr : (k.setStatus q st).msgAddr p va = k.msgAddr p va := msgAddr_congr (by simp) (by simp)
  refine ⟨his hs, his hr, fun _ => pending_congr hbuf (by simp), fun _ => hbuf, haddr, ?_⟩
  unfold Kernel.msgAt
  rw [haddr]
  simp

theorem taskKept_stopProc : TaskKept k (k.stopProc q) p va :=
  taskKept_setStatus (has_raise_of_disjoint (by decide)) (has_raise_of_disjoint (by decide))

theorem taskKept_unstopProc : TaskKept k (k.unstopProc q) p va :=
  taskKept_setStatus (has_drop_of_disjoint (by decide)) (has_drop_of_disjoint (by decide))

theorem TaskKept.trans {k₁ k₂ k₃ : Kernel} (h : TaskKept k₁ k₂ p va) (h' : TaskKept k₂ k₃ p va) :
    TaskKept k₁ k₃ p va where
  sending := h'.sending.trans h.sending
  receving := h'.receving.trans h.receving
  pending hb := by
    rw [h'.pending (hb.imp h.sending.mpr h.receving.mpr), h.pending hb]
  buf hr := (h'.buf (h.receving.mpr hr)).trans (h.buf hr)
  addr := h'.addr.trans h.addr
  msgAt := h'.msgAt.trans h.msgAt

/-! ### SysTask -/

/-- An awake SysTask serves what it has fetched or is about to answer. -/
theorem Serving.cases_awake {r : Request} (h : Serving t s r) (ha : s.kernel.Awake systaskPid) :
    s.sys ≠ .loop ∧ (s.kernel.msgAt systaskPid t.sysMsg).sender = t.mm := by
  cases h with
  | fetched hp _ _ hfrom => exact ⟨by rw [hp]; decide, hfrom⟩
  | sendBack hp _ hfrom => exact ⟨by rw [hp]; decide, hfrom⟩
  | parked _ hto _ => exact absurd hto.1 ha.1

theorem SysIdle.of_awake (ha : s.kernel.Awake systaskPid)
    (hm : s.sys ≠ .loop → (s.kernel.msgAt systaskPid t.sysMsg).sender ≠ t.mm) : SysIdle t s where
  notParked hp := ha.1 hp.1
  notFetched hf _ hfrom := absurd hfrom (hm (by rw [hf]; decide))
  notSendBack hf := hm (by rw [hf]; decide)

/-- SysTask works on the message it has fetched, which is no `EXIT_PROC` or leaves it in its loop. -/
theorem TalkAt.sys_serve (s' : ForkState) (h : TalkAt t s pc) (hpc : s.sys = .fetched)
    (hawake : s.kernel.Awake systaskPid)
    (htype : (s.kernel.msgAt systaskPid t.sysMsg).type = exitProc → s'.sys = .loop)
    (hmsg : TaskKept s.kernel s'.kernel t.mm t.msg)
    (hcall : TaskKept s.kernel s'.kernel t.mm t.call)
    (ha : s'.kernel.Awake systaskPid)
    (hfrom : (s'.kernel.msgAt systaskPid t.sysMsg).sender =
      (s.kernel.msgAt systaskPid t.sysMsg).sender)
    (hans : ∀ r : Request, r.Asks (s.kernel.msgAt systaskPid t.sysMsg) →
      s'.sys = .sendBack ∧ r.Answered s' (s'.kernel.msgAt systaskPid t.sysMsg))
    (hfree : ∀ c, FreeEntry s c → FreeEntry s' c) :
    SysInv t s' ∧ TalkAt t s' pc := by
  refine ⟨.of_awake ha, h.mono hmsg hcall ?_ ?_ hfree⟩
  · intro hidle
    refine .of_awake ha fun hne hmm => ?_
    rw [hfrom] at hmm
    exact hne (htype (hidle.notFetched hpc hawake hmm))
  · intro r hr
    cases hr with
    | fetched _ _ hask hf =>
      obtain ⟨hp, hans⟩ := hans r hask
      exact .sendBack hp hans (hfrom.trans hf)
    | sendBack hp _ _ => rw [hp] at hpc; cases hpc
    | parked hp _ _ => rw [hp] at hpc; cases hpc

section Sys

variable (hset : Setting t s) (hi : IpcInv s.world s.kernel) (h : TalkAt t s pc)
include hset hi h

/-- SysTask calls `recv_msg`. -/
theorem TalkAt.sys_recv (hpc : s.sys = .loop)
    (hcall : Recvs s.world s.kernel systaskPid t.sysMsg procAny k') :
    SysInv t { s with kernel := k', sys := .fetched } ∧
      TalkAt t { s with kernel := k', sys := .fetched } pc := by
  have hc := hcall.call hi hset.nonnull.2.2
  have hawake := (hc.caller systaskPid rfl).2
  have hnone : ∀ r, ¬ Serving t s r := fun r hs => (hs.cases_awake hawake).1 hpc
  have hfree : ∀ c, FreeEntry s c → FreeEntry { s with kernel := k', sys := .fetched } c :=
    fun c hf => ⟨hf.lt, hf.ne_zero, hf.dead, hf.taken, (congrFun hc.fixed.pid c).trans hf.pid_eq⟩
  have hmono : Untouched s.world s.kernel k' t.mm →
      (SysIdle t s → SysIdle t { s with kernel := k', sys := .fetched }) →
      TalkAt t { s with kernel := k', sys := .fetched } pc := fun hu hidle =>
    h.mono (hu.taskKept hc.fixed hset.own_msg) (hu.taskKept hc.fixed hset.own_call) hidle
      (fun r hs => absurd hs (hnone r)) hfree
  rcases hcall.outcome hi (by decide) with
    ⟨-, ha, hm, hu⟩ | ⟨hw, hbuf, hu⟩ | ⟨p, hto, -, ha, hap, hm, hu⟩
  · refine ⟨.of_awake ha, hmono (hu _ hset.mm_ne) fun _ => .of_awake ha fun _ => ?_⟩
    show (k'.msgAt systaskPid t.sysMsg).sender ≠ t.mm
    rw [hm]
    exact hset.procInterrupt_ne.1
  · have hns : ¬ k'.Sending systaskPid := fun hs => hc.ipc.notBoth _ ⟨hs, hw.1⟩
    refine ⟨⟨nofun, fun _ => ⟨hns, fun _ => ⟨hw.2, hbuf⟩⟩, nofun⟩,
      hmono (hu _ hset.mm_ne) fun _ => ⟨fun hp => hns hp.1, fun _ ha => absurd hw.1 ha.2,
        nofun⟩⟩
  · have hfrom : (k'.msgAt systaskPid t.sysMsg).sender = p := by
      rw [hm]
      exact (hi.sending p hto.1).2.2
    refine ⟨.of_awake ha, ?_⟩
    by_cases hpm : p = t.mm
    · -- the request of `Task_Memory` leaves the queue
      subst hpm
      have hns : ¬ s.kernel.Awake t.mm := fun ha => ha.1 hto.1
      have hasked : ∀ {r}, Asked t s r → Asked t { s with kernel := k', sys := .fetched } r := by
        intro r hr
        cases hr with
        | queued _ _ hask => exact .served hap (.fetched rfl ha (by rw [hm]; exact hask) hfrom)
        | served ha' _ => exact absurd ha' hns
      have hwaiting : ∀ {r}, ¬ Waiting t s r := by
        intro r hr
        cases hr with
        | asleep hw _ _ => exact hi.notBoth _ ⟨hto.1, hw.1⟩
        | answered _ ha' _ => exact hns ha'
      cases pc
      case loop => exact absurd hto h.2.2
      case fetched => exact absurd hto.1 h.2.notSending
      case branch =>
        -- an `EXIT_PROC`, which asks for no answer
        have htype : (k'.msgAt systaskPid t.sysMsg).type = exitProc := by
          rw [hm]
          exact h.2.told hto
        exact ⟨⟨fun hp => ha.1 hp.1, fun _ _ _ => htype, nofun⟩, hap.2, fun hs => absurd hs.1 hap.1⟩
      case branchRecv r => exact hasked h
      case branchGot r => exact absurd h hwaiting
      case getRecv pid => exact hasked h
      case gotProc pid => exact absurd h hwaiting
      case allocRecv pid parent => exact hasked h
      case allocated pid parent => exact absurd h hwaiting
      all_goals exact absurd h.2 hns
    · refine hmono (hu _ hset.mm_ne (Ne.symm hpm)) fun _ => .of_awake ha fun _ => ?_
      show (k'.msgAt systaskPid t.sysMsg).sender ≠ t.mm
      rw [hfrom]
      exact hpm

/-- `SEND_BACK(msg)` of SysTask. -/
theorem TalkAt.sys_sendBack (hpc : s.sys = .sendBack)
    (hcall : Sends s.world s.kernel systaskPid t.sysMsg
      { s.kernel.msgAt systaskPid t.sysMsg with
        receiver := (s.kernel.msgAt systaskPid t.sysMsg).sender } k') :
    SysInv t { s with kernel := k', sys := .loop } ∧
      TalkAt t { s with kernel := k', sys := .loop } pc := by
  have hc := hcall.call hi
  have hawake := (hc.caller systaskPid rfl).2
  have hfree : ∀ c, FreeEntry s c → FreeEntry { s with kernel := k', sys := .loop } c :=
    fun c hf => ⟨hf.lt, hf.ne_zero, hf.dead, hf.taken, (congrFun hc.fixed.pid c).trans hf.pid_eq⟩
  have hmono : Untouched s.world s.kernel k' t.mm →
      (SysIdle t s → SysIdle t { s with kernel := k', sys := .loop }) →
      (∀ r, Serving t s r → Serving t { s with kernel := k', sys := .loop } r) →
      TalkAt t { s with kernel := k', sys := .loop } pc := fun hu hidle hserving =>
    h.mono (hu.taskKept hc.fixed hset.own_msg) (hu.taskKept hc.fixed hset.own_call) hidle
      hserving hfree
  set old := s.kernel.msgAt systaskPid t.sysMsg with hold
  -- what SysTask is about to answer, when it is a request of `Task_Memory`
  have hans : ∀ {r}, Serving t s r → r.Answered s old ∧ old.sender = t.mm := by
    intro r hr
    cases hr with
    | fetched hp _ _ _ => rw [hp] at hpc; cases hpc
    | sendBack _ hans hfrom => exact ⟨hans, hfrom⟩
    | parked hp _ _ => rw [hp] at hpc; cases hpc
  have hkeep : ∀ {r : Request} {m : Message}, r.Answered s old → m.major = old.major →
      r.Answered { s with kernel := k', sys := .loop } m := by
    intro r m hr hm
    refine Request.Answered.mono ?_ hfree
    cases r with
    | getProc pid => exact hm.trans hr
    | allocProc =>
      obtain ⟨c, hc, hf⟩ := hr
      exact ⟨c, hm.trans hc, hf⟩
    | getProcListHead => trivial
  rcases hcall.outcome hi with ⟨ha, -, hret, hu⟩ | ⟨hto, hpend, hu⟩
  · refine ⟨.of_awake ha, ?_⟩
    have hidle : SysIdle t { s with kernel := k', sys := .loop } :=
      .of_awake ha fun hne => absurd rfl hne
    by_cases hmm : old.sender = t.mm
    · -- `Task_Memory` waits for this answer
      have hnotIdle : ¬ SysIdle t s := fun hi => hi.notSendBack hpc hmm
      have hns : ¬ s.kernel.Awake t.mm := fun ha => ha.2 (hmm ▸ hret.waited)
      have hasked : ∀ {r}, ¬ Asked t s r := by
        intro r hr
        cases hr with
        | queued hi _ _ => exact hnotIdle hi
        | served ha _ => exact hns ha
      have hwaiting : ∀ {r}, Waiting t s r →
          Waiting t { s with kernel := k', sys := .loop } r := by
        intro r hr
        cases hr with
        | asleep hw hbuf hs =>
          have haddr : k'.msgAddr t.mm t.call = s.kernel.msgAddr t.mm t.call := hc.fixed.msgAddr
          refine .answered hidle (hmm ▸ hret.awake) (hkeep (hans hs).1 ?_)
          show (k'.memory (k'.msgAddr t.mm t.call)).major = old.major
          have hmem := hret.memory
          rw [show ({ old with receiver := old.sender } : Message).receiver = t.mm from hmm, hbuf]
            at hmem
          rw [haddr, hmem]
        | answered hi _ _ => exact absurd hi hnotIdle
      cases pc
      case branchRecv r => exact absurd h hasked
      case branchGot r => exact hwaiting h
      case getRecv pid => exact absurd h hasked
      case gotProc pid => exact hwaiting h
      case allocRecv pid parent => exact absurd h hasked
      case allocated pid parent => exact hwaiting h
      all_goals exact absurd h.1 hnotIdle
    · exact hmono (hu _ hset.mm_ne (Ne.symm hmm)) (fun _ => hidle)
        fun r hr => absurd (hans hr).2 hmm
  · have hnr : ¬ k'.Receving systaskPid := fun hr => hc.ipc.notBoth _ ⟨hto.1, hr⟩
    refine ⟨⟨fun _ => hnr, nofun, nofun⟩, ?_⟩
    refine hmono (hu _ hset.mm_ne) ?_ ?_
    · intro hidle
      refine ⟨fun hp => hidle.notSendBack hpc ?_, nofun, nofun⟩
      exact hto.2.symm.trans hp.2
    · intro r hr
      obtain ⟨hans, hfrom⟩ := hans hr
      refine .parked rfl ⟨hto.1, hto.2.trans hfrom⟩ ?_
      show r.Answered _ (k'.pending systaskPid)
      rw [hpend]
      exact hkeep hans rfl

end Sys

/-! ### `Task_Memory` -/

section Mm

variable (hset : Setting t s) (hi : IpcInv s.world s.kernel) (hsys : SysInv t s)
include hset hi hsys

omit hi in
/-- SysTask stands still while `Task_Memory` makes a call that does not reach it. -/
theorem sys_kept (hc : Call s.world s.kernel c k') (hu : Untouched s.world s.kernel k' systaskPid)
    (pc' : MmPc) :
    SysInv t { s with kernel := k', mm := pc' } ∧
      (SysIdle t s → SysIdle t { s with kernel := k', mm := pc' }) ∧
      ∀ r, Serving t s r → Serving t { s with kernel := k', mm := pc' } r := by
  have hk : TaskKept s.kernel k' systaskPid t.sysMsg := hu.taskKept hc.fixed hset.own_sys
  refine ⟨hsys.kept rfl hk, fun h => h.kept rfl hk, fun r h => h.kept rfl hk fun c hf => ?_⟩
  exact ⟨hf.lt, hf.ne_zero, hf.dead, hf.taken, (congrFun hc.fixed.pid c).trans hf.pid_eq⟩

/-- `Task_Memory` calls `recv_msg(&msg, PROC_ANY)`. -/
theorem TalkAt.mm_recv (h : TalkAt t s .loop)
    (hcall : Recvs s.world s.kernel t.mm t.msg procAny k') :
    SysInv t { s with kernel := k', mm := .fetched } ∧
      TalkAt t { s with kernel := k', mm := .fetched } .fetched := by
  have hc := hcall.call hi hset.nonnull.1
  have hkept := fun hu => sys_kept hset hsys hc hu .fetched
  rcases hcall.outcome hi (by decide) with
    ⟨-, ha, hm, hu⟩ | ⟨hw, hbuf, hu⟩ | ⟨p, hto, -, ha, -, hm, hu⟩
  · obtain ⟨hsys', hidle, -⟩ := hkept (hu _ hset.mm_ne.symm)
    refine ⟨hsys', hidle h.1, ha.1, fun hr => absurd hr ha.2, fun _ => ?_⟩
    show (k'.msgAt t.mm t.msg).sender ≠ systaskPid
    rw [hm]
    exact hset.procInterrupt_ne.2
  · obtain ⟨hsys', hidle, -⟩ := hkept (hu _ hset.mm_ne.symm)
    exact ⟨hsys', hidle h.1, fun hs => hc.ipc.notBoth _ ⟨hs, hw.1⟩, fun _ => ⟨hw.2, hbuf⟩,
      fun ha => absurd hw.1 ha.2⟩
  · have hps : p ≠ systaskPid := by
      rintro rfl
      exact h.1.notParked hto
    obtain ⟨hsys', hidle, -⟩ := hkept (hu _ hset.mm_ne.symm hps.symm)
    refine ⟨hsys', hidle h.1, ha.1, fun hr => absurd hr ha.2, fun _ => ?_⟩
    show (k'.msgAt t.mm t.msg).sender ≠ systaskPid
    rw [hm, (hi.sending p hto.1).2.2]
    exact hps

/-- `Task_Memory` answers a process. -/
theorem TalkAt.mm_reply (h : SysIdle t s) {pc' : MmPc} {m : Message}
    (hto : m.receiver ≠ systaskPid) (hcall : Sends s.world s.kernel t.mm va m k') :
    SysInv t { s with kernel := k', mm := pc' } ∧ SysIdle t { s with kernel := k', mm := pc' } ∧
      ¬ k'.Receving t.mm ∧ ¬ k'.SendingTo t.mm systaskPid := by
  have hc := hcall.call hi
  have hkept := fun hu => sys_kept hset hsys hc hu pc'
  rcases hcall.outcome hi with ⟨ha, -, -, hu⟩ | ⟨hs, -, hu⟩
  · obtain ⟨hsys', hidle, -⟩ := hkept (hu _ hset.mm_ne.symm hto.symm)
    exact ⟨hsys', hidle h, ha.2, fun hs => ha.1 hs.1⟩
  · obtain ⟨hsys', hidle, -⟩ := hkept (hu _ hset.mm_ne.symm)
    exact ⟨hsys', hidle h, fun hr => hc.ipc.notBoth _ ⟨hs.1, hr⟩,
      fun hs' => hto (hs.2.symm.trans hs'.2)⟩

/-- `Task_Memory` asks SysTask. -/
theorem Asked.of_sends {pc' : MmPc} {r : Request} {m : Message} (h : SysIdle t s)
    (hto : m.receiver = systaskPid)
    (hask : ∀ m' : Message, m'.type = m.type → m'.major = m.major → r.Asks m')
    (hcall : Sends s.world s.kernel t.mm t.call m k') :
    SysInv t { s with kernel := k', mm := pc' } ∧ Asked t { s with kernel := k', mm := pc' } r := by
  have hc := hcall.call hi
  rcases hcall.outcome hi with ⟨ha, -, hret, -⟩ | ⟨hs, hpend, hu⟩
  · rw [hto] at hret
    have hpc : s.sys = .fetched := hsys.fetched_of_receving hret.waited
    have hmsg : k'.msgAt systaskPid t.sysMsg =
        { m with sender := t.mm, receiver := systaskPid, ready := false } :=
      hsys.msgAt_of_returned hc.fixed hret
    refine ⟨.of_awake hret.awake, .served ha (.fetched hpc hret.awake ?_ ?_)⟩
    · show r.Asks (k'.msgAt systaskPid t.sysMsg)
      rw [hmsg]
      exact hask _ rfl rfl
    · show (k'.msgAt systaskPid t.sysMsg).sender = t.mm
      rw [hmsg]
  · obtain ⟨hsys', hidle, -⟩ := sys_kept hset hsys hc (hu _ hset.mm_ne.symm) pc'
    refine ⟨hsys', .queued (hidle h) ⟨hs.1, hs.2.trans hto⟩ ?_⟩
    show r.Asks (k'.pending t.mm)
    rw [hpend]
    exact hask _ rfl rfl

/-- `Task_Memory` tells SysTask to clear an entry. -/
theorem TalkAt.mm_exitProc (h : SysIdle t s) {m : Message} (hto : m.receiver = systaskPid)
    (htype : m.type = exitProc) (hcall : Sends s.world s.kernel t.mm t.call m k') :
    SysInv t { s with kernel := k', mm := .branch } ∧
      TalkAt t { s with kernel := k', mm := .branch } .branch := by
  have hc := hcall.call hi
  rcases hcall.outcome hi with ⟨ha, -, hret, -⟩ | ⟨hs, hpend, hu⟩
  · rw [hto] at hret
    have hpc : s.sys = .fetched := hsys.fetched_of_receving hret.waited
    have hmsg : k'.msgAt systaskPid t.sysMsg =
        { m with sender := t.mm, receiver := systaskPid, ready := false } :=
      hsys.msgAt_of_returned hc.fixed hret
    have hidle : SysIdle t { s with kernel := k', mm := .branch } := by
      refine ⟨fun hp => hret.awake.1 hp.1, fun _ _ _ => ?_, fun hf => ?_⟩
      · show (k'.msgAt systaskPid t.sysMsg).type = exitProc
        rw [hmsg]
        exact htype
      · rw [show s.sys = .sendBack from hf] at hpc
        cases hpc
    exact ⟨.of_awake hret.awake, hidle, ha.2, fun hs => absurd hs.1 ha.1⟩
  · obtain ⟨hsys', hidle, -⟩ := sys_kept hset hsys hc (hu _ hset.mm_ne.symm) .branch
    refine ⟨hsys', hidle h, fun hr => hc.ipc.notBoth _ ⟨hs.1, hr⟩, fun _ => ?_⟩
    show (k'.pending t.mm).type = exitProc
    rw [hpend]
    exact htype

/-- `Task_Memory` waits for SysTask's answer. -/
theorem Waiting.of_recvs {pc' : MmPc} {r : Request} (h : Asked t s r)
    (hcall : Recvs s.world s.kernel t.mm t.call systaskPid k') :
    SysInv t { s with kernel := k', mm := pc' } ∧ Waiting t { s with kernel := k', mm := pc' } r := by
  have hc := hcall.call hi hset.nonnull.2.1
  have hawake := (hc.caller t.mm rfl).2
  have hserving : Serving t s r := by
    cases h with
    | queued _ hto _ => exact absurd hto.1 hawake.1
    | served _ hs => exact hs
  have hkept := fun hu => sys_kept hset hsys hc hu pc'
  rcases hcall.outcome hi (by decide) with ⟨hacc, -⟩ | ⟨hw, hbuf, hu⟩ | ⟨p, hto, hp, ha, hap, hm, -⟩
  · exact absurd hacc (by decide)
  · obtain ⟨hsys', -, hs⟩ := hkept (hu _ hset.mm_ne.symm)
    exact ⟨hsys', .asleep hw hbuf (hs r hserving)⟩
  · obtain rfl : systaskPid = p := hp.resolve_left (by decide)
    have hans : s.sys = .loop ∧ r.Answered s (s.kernel.pending systaskPid) := by
      cases hserving with
      | fetched _ ha' _ _ => exact absurd hto.1 ha'.1
      | sendBack hp' _ _ => exact absurd hto.1 (hsys.sendBack hp').1
      | parked hp' _ hans => exact ⟨hp', hans⟩
    refine ⟨.of_awake hap, .answered (.of_awake hap fun hne => absurd hans.1 hne) ha ?_⟩
    show r.Answered _ (k'.msgAt t.mm t.call)
    rw [hm]
    refine hans.2.mono fun c hf => ?_
    exact ⟨hf.lt, hf.ne_zero, hf.dead, hf.taken, (congrFun hc.fixed.pid c).trans hf.pid_eq⟩

end Mm

end OmochaOS
