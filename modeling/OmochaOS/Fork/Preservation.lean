import OmochaOS.Fork.Invariant

/-!
# Every timely step keeps the invariant of `fork()`

The steps of SysTask, then those of `Task_Memory` in the order of its program.  The condition `Timely`
is used when the bit is set, when SysTask looks for a free entry or clears one, and when another branch
marks a process as gone or answers.
-/

namespace OmochaOS

open TransitionRun BitFlags Kernel

variable {t : Tasks} {s s' : ForkState} {k k' : Kernel} {p q : Pid} {va : VAddr} {c : Option Pid}
  {w : World} {m : Message} {pc : MmPc} {e e' : Pid}

theorem TaskKept.refl : TaskKept k k p va :=
  ⟨Iff.rfl, Iff.rfl, fun _ => rfl, fun _ => rfl, rfl, rfl⟩

/-- The list of stopped processes is empty outside the branch. -/
theorem ForkInv.notStopped (h : ForkInv t s) (hpc : s.mm.stopped = []) (hp : p ∈ s.forked) :
    ¬ s.kernel.Is p procStatusStop := by
  intro his
  have hmem := (h.forked p hp).2 his
  rw [hpc] at hmem
  cases hmem

/-- Who is owed an answer is stopped. -/
theorem MmPc.mem_stopped_of_mem_owes (hp : p ∈ pc.owes) : p ∈ pc.stopped := by
  cases pc
  case replyChild parent child => exact List.mem_cons_of_mem _ hp
  case clear parent child => exact absurd hp List.not_mem_nil
  all_goals exact hp

/-! ### SysTask -/

/-- SysTask stores its answer. -/
theorem ForkInv.sys_fill (h : ForkInv t s) (hawake : s.kernel.Awake systaskPid) {sys' : SysPc}
    (hsys : SysInv t { s with kernel := s.kernel.fill systaskPid t.sysMsg m, sys := sys' })
    (htalk : TalkAt t { s with kernel := s.kernel.fill systaskPid t.sysMsg m, sys := sys' } s.mm) :
    ForkInv t { s with kernel := s.kernel.fill systaskPid t.sysMsg m, sys := sys' } where
  ipc := h.ipc.writeOwn hawake h.setting.own_sys _
  setting := h.setting.kept rfl (fun _ => rfl) rfl
  sysInv := hsys
  talk := htalk
  bits := h.bits
  nonnull := h.nonnull
  owed p hp := (h.owed p hp).of_untouched
    (h.ipc.untouched_writeOwn h.setting.own_sys (h.owed p hp).ne_sys)
  coherent := h.coherent
  forked := h.forked

/-- SysTask answers `GET_PROC` or `GET_PROC_LIST_HEAD`, or a request that is none of `Task_Memory`'s. -/
theorem ForkInv.sys_answer (h : ForkInv t s) (hpc : s.sys = .fetched)
    (hawake : s.kernel.Awake systaskPid) {major : ℕ}
    (htype : (s.kernel.msgAt systaskPid t.sysMsg).type ≠ exitProc)
    (hans : ∀ r : Request, r.Asks (s.kernel.msgAt systaskPid t.sysMsg) →
      (∃ pid, r = .getProc pid ∧ major = procAddr pid) ∨ r = .getProcListHead) :
    ForkInv t { s with
      kernel := s.kernel.fill systaskPid t.sysMsg
        { s.kernel.msgAt systaskPid t.sysMsg with major := major }
      sys := .sendBack } := by
  have hmm := h.setting.mm_ne
  have hkept : ∀ {va}, s.world.owner (s.kernel.msgAddr t.mm va) = t.mm →
      TaskKept s.kernel (s.kernel.fill systaskPid t.sysMsg
        { s.kernel.msgAt systaskPid t.sysMsg with major := major }) t.mm va :=
    fun hown => h.ipc.taskKept_fill h.setting.own_sys hmm hown
  have hserve := TalkAt.sys_serve
    { s with
      kernel := s.kernel.fill systaskPid t.sysMsg
        { s.kernel.msgAt systaskPid t.sysMsg with major := major }
      sys := .sendBack }
    h.talk hpc hawake (fun he => absurd he htype) (hkept h.setting.own_msg) (hkept h.setting.own_call) hawake
    (by rw [msgAt_fill])
  obtain ⟨hsys, htalk⟩ := hserve (fun r hr => by
    refine ⟨rfl, ?_⟩
    rcases hans r hr with ⟨pid, rfl, hmaj⟩ | rfl
    · show (Kernel.msgAt _ systaskPid t.sysMsg).major = procAddr pid
      rw [msgAt_fill]
      exact hmaj
    · trivial) fun c hf => ⟨hf.lt, hf.ne_zero, hf.dead, hf.taken, hf.pid_eq⟩
  exact h.sys_fill hawake hsys htalk

/-- The type of a message with the request. -/
def Request.type : Request → ℕ
  | .getProc _ => getProcType
  | .allocProc => allocProcType
  | .getProcListHead => getProcListHeadType

theorem Request.Asks.type_eq {r : Request} (h : r.Asks m) : m.type = r.type := by
  cases r with
  | getProc pid => exact h.1
  | allocProc => exact h
  | getProcListHead => exact h

/-- A request of a type `SysTask` answers otherwise is not one of `Task_Memory`'s. -/
theorem Request.not_asks_of_other {r : Request}
    (htype : m.type ∉ [getProcType, allocProcType, exitProc, getProcListHeadType]) : ¬ r.Asks m := by
  intro hr
  rw [hr.type_eq] at htype
  cases r <;> exact htype (by simp [Request.type])

theorem Request.not_asks_exitProc {r : Request} (htype : m.type = exitProc) : ¬ r.Asks m := by
  intro hr
  rw [hr.type_eq] at htype
  cases r with
  | getProc pid => exact absurd htype (show getProcType ≠ exitProc by decide)
  | allocProc => exact absurd htype (by decide)
  | getProcListHead => exact absurd htype (by decide)

/-- An entry that nobody uses stays one when another is taken, -/
theorem FreeEntry.of_taken (he : FreeEntry s e) (hlt : e' < 32) (hne : s.procBitmap ≠ [])
    (hfree : checkBit s.procBitmap e' = false) (hworld : s'.world = s.world)
    (hpid : s'.kernel.pid = Function.update s.kernel.pid e' e')
    (hbits : s'.procBitmap = setBit s.procBitmap e') : FreeEntry s' e := by
  have hee : e ≠ e' := by
    rintro rfl
    rw [he.taken] at hfree
    cases hfree
  refine ⟨he.lt, he.ne_zero, by rw [hworld]; exact he.dead, ?_, ?_⟩
  · rw [hbits, checkBit_setBit hlt hne, he.taken, Bool.or_true]
  · rw [hpid, Function.update_of_ne hee]
    exact he.pid_eq

/-- and when the entry of a process that is alive is cleared. -/
theorem FreeEntry.of_cleared (he : FreeEntry s e) (hlive : s.world.live e')
    (hworld : s'.world = s.world.remove e') (hst : s.kernel.Stored s'.kernel (some e'))
    (hbits : s'.procBitmap = clearBit s.procBitmap e') : FreeEntry s' e := by
  have hee : e ≠ e' := by
    rintro rfl
    exact he.dead hlive
  have hpid : s'.kernel.pid e = s.kernel.pid e := (hst.spares e fun h => hee (Option.some.inj h).symm).pid
  refine ⟨he.lt, he.ne_zero, ?_, ?_, hpid.trans he.pid_eq⟩
  · rw [hworld]
    exact fun hl => he.dead hl.1
  · rw [hbits, checkBit_clearBit, he.taken]
    simp [hee]

/-- SysTask serves `ALLOC_PROC` with an entry that nobody uses. -/
theorem ForkInv.sys_alloc (h : ForkInv t s) (hpc : s.sys = .fetched)
    (hawake : s.kernel.Awake systaskPid)
    (htype : (s.kernel.msgAt systaskPid t.sysMsg).type = allocProcType)
    {bits' : List (BitVec 32)} {a fuel : ℕ}
    (hslot : Kernel.allocProc fuel s.kernel s.procBitmap = some (k', bits', a))
    (hfree : ∃ i < 32, checkBit s.procBitmap i = false) :
    ForkInv t { s with
      kernel := k'.fill systaskPid t.sysMsg
        { s.kernel.msgAt systaskPid t.sysMsg with major := a }
      procBitmap := bits'
      sys := .sendBack } := by
  obtain ⟨hne, hzero, hbits⟩ := h.bits
  obtain ⟨i, hi, hfi⟩ := hfree
  obtain ⟨c, hlt, hbit, rfl, rfl, htaken⟩ := allocProc_cases hi hne hfi hslot
  have hdead : ¬ s.world.live c := fun hl => by
    rw [hbits c hl hlt] at hbit
    cases hbit
  have hlive_ne : ∀ {p}, s.world.live p → p ≠ c := by
    rintro p hl rfl
    exact hdead hl
  have hc0 : c ≠ 0 := by
    rintro rfl
    rw [hzero] at hbit
    cases hbit
  have hset := h.setting
  have hi₁ : IpcInv s.world k' := htaken.ipcInv h.ipc hdead
  have haddr : ∀ {p va}, p ≠ c → k'.msgAddr p va = s.kernel.msgAddr p va := by
    intro p va hp
    unfold msgAddr
    rw [htaken.vir2phy, htaken.pageDir p hp]
  have hsc := hlive_ne hset.live_sys
  have hmc := hlive_ne hset.live_mm
  have hown_sys : s.world.owner (k'.msgAddr systaskPid t.sysMsg) = systaskPid := by
    rw [haddr hsc]
    exact hset.own_sys
  have hawake₁ : k'.Awake systaskPid :=
    ⟨fun hs => hawake.1 ((htaken.is_of_ne hsc).mp hs),
      fun hr => hawake.2 ((htaken.is_of_ne hsc).mp hr)⟩
  set k₂ := k'.fill systaskPid t.sysMsg
    { s.kernel.msgAt systaskPid t.sysMsg with major := procAddr c } with hk₂
  have hkept : ∀ {va}, s.world.owner (s.kernel.msgAddr t.mm va) = t.mm →
      TaskKept s.kernel k₂ t.mm va := by
    intro va hown
    have h₁ : TaskKept s.kernel k' t.mm va := htaken.taskKept hmc
    refine h₁.trans (hi₁.taskKept_fill hown_sys hset.mm_ne ?_)
    rw [haddr hmc]
    exact hown
  have hmono : ∀ e, FreeEntry s e → FreeEntry
      { s with kernel := k₂, procBitmap := setBit s.procBitmap c, sys := .sendBack } e :=
    fun e he => he.of_taken hlt hne hbit rfl htaken.pid rfl
  have hnew : FreeEntry
      { s with kernel := k₂, procBitmap := setBit s.procBitmap c, sys := .sendBack } c := by
    refine ⟨hlt, hc0, hdead, ?_, ?_⟩
    · show checkBit (setBit s.procBitmap c) c = true
      rw [checkBit_setBit hlt hne]
      simp
    · show k'.pid c = c
      rw [htaken.pid, Function.update_self]
  have hans : ∀ r : Request, r.Asks (s.kernel.msgAt systaskPid t.sysMsg) →
      SysPc.sendBack = .sendBack ∧ r.Answered
        { s with kernel := k₂, procBitmap := setBit s.procBitmap c, sys := .sendBack }
        (k₂.msgAt systaskPid t.sysMsg) := by
    intro r hr
    refine ⟨rfl, ?_⟩
    cases r with
    | getProc pid => exact absurd (hr.1.symm.trans htype) (by decide)
    | allocProc => exact ⟨c, by rw [hk₂, msgAt_fill], hnew⟩
    | getProcListHead => trivial
  have hexit : (s.kernel.msgAt systaskPid t.sysMsg).type ≠ exitProc := by
    rw [htype]
    decide
  obtain ⟨hsys, htalk⟩ := TalkAt.sys_serve
    { s with kernel := k₂, procBitmap := setBit s.procBitmap c, sys := .sendBack }
    h.talk hpc hawake (fun he => absurd he hexit) (hkept hset.own_msg) (hkept hset.own_call) hawake₁
    (by show (k₂.msgAt systaskPid t.sysMsg).sender = _; rw [hk₂, msgAt_fill]) hans hmono
  constructor
  case ipc => exact hi₁.writeOwn hawake₁ hown_sys _
  case setting => exact hset.kept rfl (fun _ => haddr hmc) (haddr hsc)
  case sysInv => exact hsys
  case talk => exact htalk
  case bits =>
    refine ⟨setBit_ne_nil hne, ?_, fun p hp hp32 => ?_⟩
    · show checkBit (setBit s.procBitmap c) 0 = true
      rw [checkBit_setBit hlt hne, hzero, Bool.or_true]
    · show checkBit (setBit s.procBitmap c) p = true
      rw [checkBit_setBit hlt hne, hbits p hp hp32, Bool.or_true]
  case nonnull =>
    intro p hp
    have hpc' : p ≠ c := hlive_ne (hi₁.receving p hp).1
    show k'.pMsg p ≠ 0
    rw [htaken.pMsg p hpc']
    exact h.nonnull p ((htaken.is_of_ne hpc').mp hp)
  case owed =>
    intro p hp
    have ho := h.owed p hp
    have hpc' : p ≠ c := hlive_ne (h.ipc.receving p ho.waits.1).1
    have h₁ : TaskKept s.kernel k' p t.msg := htaken.taskKept hpc'
    exact (ho.kept h₁).of_untouched (hi₁.untouched_writeOwn hown_sys ho.ne_sys)
  case coherent => exact h.coherent
  case forked =>
    intro p hp
    obtain ⟨hl, hs⟩ := h.forked p hp
    exact ⟨hl, fun his => hs ((htaken.is_of_ne (hlive_ne hl)).mp his)⟩

/-- SysTask serves `EXIT_PROC` of a process that is in nobody's way. -/
theorem ForkInv.sys_exit (h : ForkInv t s) (hpc : s.sys = .fetched) (hawake : s.kernel.Awake systaskPid)
    (htype : (s.kernel.msgAt systaskPid t.sysMsg).type = exitProc) {fuel count : ℕ} {table : ProcTable}
    (hcall : ProcTable.exitProc fuel ⟨s.kernel, s.procBitmap, count⟩
      (s.kernel.msgAt systaskPid t.sysMsg).major = some table)
    (hmay : MayLeave t s (s.kernel.msgAt systaskPid t.sysMsg).major) :
    ForkInv t { s with
      world := s.world.remove (s.kernel.msgAt systaskPid t.sysMsg).major
      kernel := table.kernel
      procBitmap := table.procBitmap
      sys := .loop
      forked := s.forked.filter (· ≠ (s.kernel.msgAt systaskPid t.sysMsg).major) } := by
  set c := (s.kernel.msgAt systaskPid t.sysMsg).major with hc
  obtain ⟨hst, hentry, hbitmap⟩ := ProcTable.exitProc_stored hcall
  have hset := h.setting
  have hother : ∀ {q : Pid}, q ≠ c → some c ≠ some q := fun hq he => hq (Option.some.inj he).symm
  have hkept : ∀ {q va}, q ≠ c → TaskKept s.kernel table.kernel q va := fun hq => hst.taskKept (hother hq)
  have hno : ∀ mask, ¬ table.kernel.Is c mask := by
    intro mask his
    rw [Is, Kernel.status, hentry] at his
    exact his (BitVec.zero_and)
  have hrecv_ne : ∀ {q}, table.kernel.Receving q → q ≠ c := by
    rintro q hq rfl
    exact hno _ hq
  have hlive : ∀ {q}, q ≠ c → s.world.live q → (s.world.remove c).live q := fun hq hl => ⟨hl, hq⟩
  have hmm := hmay.ne_mm.symm
  have hsys := hmay.ne_sys.symm
  have hmono : ∀ e, FreeEntry s e → FreeEntry
      { s with
        world := s.world.remove c
        kernel := table.kernel
        procBitmap := table.procBitmap
        sys := .loop
        forked := s.forked.filter (· ≠ c) } e :=
    fun e he => he.of_cleared hmay.live rfl hst hbitmap
  have hkeptSys : TaskKept s.kernel table.kernel systaskPid t.sysMsg := hkept hsys
  have hawake' : table.kernel.Awake systaskPid := hkeptSys.awake.mpr hawake
  obtain ⟨hsysInv, htalk⟩ := TalkAt.sys_serve
    { s with
      world := s.world.remove c
      kernel := table.kernel
      procBitmap := table.procBitmap
      sys := .loop
      forked := s.forked.filter (· ≠ c) }
    h.talk hpc hawake (fun _ => rfl) (hkept hmm) (hkept hmm) hawake'
    (congrArg Message.sender hkeptSys.msgAt) (fun r hr => absurd hr (Request.not_asks_exitProc htype)) hmono
  constructor
  case ipc =>
    refine hst.ipcInv_gone h.ipc rfl (fun q hq => hq.1) (fun q hq hl => ⟨hl, hq⟩)
      (fun hl => absurd rfl hl.2) (fun q hq => absurd hq (h.ipc.not_sendingTo hmay.noSender))
      hmay.notSending (hno _) (hno _) ?_
    rw [hmay.noSender, queneHead, hentry]
    rfl
  case setting =>
    refine ⟨hlive hmm hset.live_mm, hlive hsys hset.live_sys, hset.mm_ne, ?_, ?_, ?_, hset.nonnull, ?_⟩
    · show s.world.owner (table.kernel.msgAddr t.mm t.msg) = t.mm
      rw [hst.msgAddr (hother hmm)]
      exact hset.own_msg
    · show s.world.owner (table.kernel.msgAddr t.mm t.call) = t.mm
      rw [hst.msgAddr (hother hmm)]
      exact hset.own_call
    · show s.world.owner (table.kernel.msgAddr systaskPid t.sysMsg) = systaskPid
      rw [hst.msgAddr (hother hsys)]
      exact hset.own_sys
    · show table.kernel.msgAddr t.mm t.msg ≠ 0
      rw [hst.msgAddr (hother hmm)]
      exact hset.addr_ne
  case sysInv => exact hsysInv
  case talk => exact htalk
  case bits =>
    obtain ⟨hne, hzero, hbits⟩ := h.bits
    show table.procBitmap ≠ [] ∧ checkBit table.procBitmap 0 = true ∧ _
    refine ⟨?_, ?_, fun p hp hp32 => ?_⟩
    · rw [hbitmap]
      exact clearBit_ne_nil hne
    · rw [hbitmap, checkBit_clearBit, hzero]
      simp [hmay.ne_zero.symm]
    · show checkBit table.procBitmap p = true
      rw [hbitmap, checkBit_clearBit, hbits p hp.1 hp32]
      simp [hp.2]
  case nonnull =>
    intro p hp
    have hpc' := hrecv_ne hp
    have hpm : table.kernel.pMsg p = s.kernel.pMsg p := (hst.spares p (hother hpc')).pMsg
    show table.kernel.pMsg p ≠ 0
    rw [hpm]
    exact h.nonnull p ((hst.spares p (hother hpc')).receving.mp hp)
  case owed =>
    intro p hp
    have hpc' : p ≠ c := by
      rintro rfl
      exact hmay.notStopped (MmPc.mem_stopped_of_mem_owes hp)
    have hk : TaskKept s.kernel table.kernel p t.msg := hkept hpc'
    exact (h.owed p hp).kept hk
  case coherent => exact h.coherent
  case forked =>
    intro p hp
    obtain ⟨hp, hpc'⟩ := List.mem_filter.mp hp
    have hpc' : p ≠ c := of_decide_eq_true hpc'
    obtain ⟨hl, hs⟩ := h.forked p hp
    exact ⟨⟨hl, hpc'⟩, fun his => hs ((hst.spares p (hother hpc')).stop.mp his)⟩

/-- **Every step of SysTask keeps the invariant**, given a free entry when it looks for one and a process
that may leave when it clears one. -/
theorem ForkInv.systask (h : ForkInv t s) (hstep : SysStep t s s')
    (htimely : Timely t s .systask) : ForkInv t s' := by
  cases hstep with
  | recv hpc hcall =>
    have hc := hcall.call h.ipc h.setting.nonnull.2.2
    obtain ⟨hsys, htalk⟩ := h.talk.sys_recv h.setting h.ipc hpc hcall
    have hne : some systaskPid ≠ some t.mm := fun he => h.setting.mm_ne (Option.some.inj he).symm
    exact h.of_call hc hsys htalk
      (fun p hp => (h.owed p hp).call h.ipc h.setting.mm_lt hc hne) h.coherent fun _ hp => hp
  | getProc hpc hawake htype =>
    refine h.sys_answer hpc hawake (by rw [htype]; decide) fun r hr => ?_
    cases r with
    | getProc pid => exact Or.inl ⟨pid, rfl, by rw [hr.2]⟩
    | allocProc => exact absurd (hr.type_eq.symm.trans htype) (by decide)
    | getProcListHead => exact Or.inr rfl
  | allocProc hpc hawake htype hslot =>
    exact h.sys_alloc hpc hawake htype hslot (htimely.room rfl hpc hawake htype)
  | getProcListHead hpc hawake htype =>
    refine h.sys_answer hpc hawake (by rw [htype]; decide) fun r hr => ?_
    cases r with
    | getProc pid => exact absurd (hr.1.symm.trans htype) (by decide)
    | allocProc => exact absurd (hr.type_eq.symm.trans htype) (by decide)
    | getProcListHead => exact Or.inr rfl
  | exitProc hpc hawake htype hcall =>
    exact h.sys_exit hpc hawake htype hcall (htimely.leave rfl hpc hawake htype)
  | other hpc hawake htype =>
    obtain ⟨hsys, htalk⟩ := TalkAt.sys_serve { s with sys := .loop } h.talk hpc hawake
      (fun _ => rfl) .refl .refl hawake rfl (fun r hr => absurd hr (Request.not_asks_of_other htype))
      fun c hf => ⟨hf.lt, hf.ne_zero, hf.dead, hf.taken, hf.pid_eq⟩
    exact h.of_pc hsys htalk h.owed h.coherent fun _ hp => hp
  | otherReply hpc hawake htype =>
    exact h.sys_answer hpc hawake (fun he => htype (by simp [he]))
      fun r hr => absurd hr (Request.not_asks_of_other htype)
  | sendBack hpc hcall =>
    have hc := hcall.call h.ipc
    obtain ⟨hsys, htalk⟩ := h.talk.sys_sendBack h.setting h.ipc hpc hcall
    have hne : some systaskPid ≠ some t.mm := fun he => h.setting.mm_ne (Option.some.inj he).symm
    exact h.of_call hc hsys htalk
      (fun p hp => (h.owed p hp).call h.ipc h.setting.mm_lt hc hne) h.coherent fun _ hp => hp

/-! ### `Task_Memory` -/

/-- Program counters of `Task_Memory` are no part of what SysTask has. -/
theorem SysIdle.of_pc (h : SysIdle t s) (pc' : MmPc) : SysIdle t { s with mm := pc' } :=
  h.kept rfl .refl

theorem SysInv.of_pc (h : SysInv t s) (pc' : MmPc) : SysInv t { s with mm := pc' } :=
  h.kept rfl .refl

/-- A step of `Task_Memory` between two calls. -/
theorem ForkInv.of_mm_pc (h : ForkInv t s) {pc' : MmPc} (hpc : s.mm = pc)
    (htalk : TalkAt t { s with mm := pc' } pc') (howed : pc'.owes = []) (hcoh : pc'.Coherent)
    (hstop : pc.stopped ⊆ pc'.stopped) : ForkInv t { s with mm := pc' } := by
  refine h.of_pc (h.sysInv.of_pc pc') htalk ?_ hcoh ?_
  · rw [howed]
    exact fun p hp => absurd hp List.not_mem_nil
  · rw [hpc]
    exact fun p hp => hstop hp

/-- A send of `Task_Memory` to somebody it owes no answer, or a receive. -/
theorem ForkInv.of_mm_call (h : ForkInv t s) {pc' : MmPc} (hpc : s.mm = pc)
    (hc : Call s.world s.kernel c k') (hsys : SysInv t { s with kernel := k', mm := pc' })
    (htalk : TalkAt t { s with kernel := k', mm := pc' } pc')
    (howed : ∀ p ∈ pc.owes, Owed t s.kernel p → Owed t k' p) (howes : pc'.owes ⊆ pc.owes)
    (hcoh : pc'.Coherent) (hstop : pc.stopped ⊆ pc'.stopped) :
    ForkInv t { s with kernel := k', mm := pc' } := by
  subst hpc
  exact h.of_call hc hsys htalk (fun p hp => howed p (howes hp) (h.owed p (howes hp))) hcoh fun p hp => hstop hp

/-- `Task_Memory` asks SysTask. -/
theorem ForkInv.ask (h : ForkInv t s) {pc' : MmPc} (r : Request) (hpc : s.mm = pc) (hidle : SysIdle t s)
    (hcall : Sends s.world s.kernel t.mm t.call m k') (hto : m.receiver = systaskPid)
    (hask : ∀ m' : Message, m'.type = m.type → m'.major = m.major → r.Asks m')
    (htalk : ∀ s' : ForkState, Asked t s' r → TalkAt t s' pc') (howes : pc'.owes ⊆ pc.owes)
    (hcoh : pc'.Coherent) (hstop : pc.stopped ⊆ pc'.stopped) :
    ForkInv t { s with kernel := k', mm := pc' } := by
  obtain ⟨hsys, ht⟩ := Asked.of_sends h.setting h.ipc h.sysInv hidle hto hask hcall
  refine h.of_mm_call hpc (hcall.call h.ipc) hsys (htalk _ ht) (fun p _ ho => ?_) howes hcoh hstop
  exact ho.sends h.ipc hcall (hto ▸ ho.ne_sys)

/-- And waits for the answer. -/
theorem ForkInv.await (h : ForkInv t s) {pc' : MmPc} {r : Request} (hpc : s.mm = pc) (hasked : Asked t s r)
    (hcall : Recvs s.world s.kernel t.mm t.call systaskPid k')
    (htalk : ∀ s' : ForkState, Waiting t s' r → TalkAt t s' pc') (howes : pc'.owes ⊆ pc.owes)
    (hcoh : pc'.Coherent) (hstop : pc.stopped ⊆ pc'.stopped) :
    ForkInv t { s with kernel := k', mm := pc' } := by
  have hset := h.setting
  obtain ⟨hsys, ht⟩ := Waiting.of_recvs hset h.ipc h.sysInv hasked hcall
  refine h.of_mm_call hpc (hcall.call h.ipc hset.nonnull.2.1) hsys (htalk _ ht) (fun p _ ho => ?_) howes
    hcoh hstop
  exact ho.recvs h.ipc (by decide) hcall

/-- A step of another branch outside of message passing. -/
theorem ForkInv.of_branch (h : ForkInv t s) (hidle : SysIdle t s) (hawake : s.kernel.Awake t.mm)
    (hstopped : s.mm.stopped = []) {w' : World} {forked' : List Pid} (hipc : IpcInv w' k')
    (hlive : ∀ p, w'.live p ↔ s.world.live p)
    (hkept : ∀ p va, p = t.mm ∨ p = systaskPid → s.world.owner (s.kernel.msgAddr p va) = p →
      TaskKept s.kernel k' p va ∧ w'.owner (s.kernel.msgAddr p va) = p)
    (hrecv : ∀ p, k'.Receving p → s.kernel.Receving p ∧ k'.pMsg p = s.kernel.pMsg p)
    (hforked : ∀ p ∈ forked', p ∈ s.forked ∧ (k'.Is p procStatusStop → s.kernel.Is p procStatusStop)) :
    ForkInv t { s with world := w', kernel := k', mm := .branch, forked := forked' } := by
  have hset := h.setting
  obtain ⟨hmsg, hown_msg⟩ := hkept t.mm t.msg (Or.inl rfl) hset.own_msg
  obtain ⟨hcall, hown_call⟩ := hkept t.mm t.call (Or.inl rfl) hset.own_call
  obtain ⟨hsys, hown_sys⟩ := hkept systaskPid t.sysMsg (Or.inr rfl) hset.own_sys
  have hawake' : k'.Awake t.mm := hmsg.awake.mpr hawake
  constructor
  case ipc => exact hipc
  case setting =>
    refine ⟨(hlive _).mpr hset.live_mm, (hlive _).mpr hset.live_sys, hset.mm_ne, ?_, ?_, ?_, hset.nonnull, ?_⟩
    · show w'.owner (k'.msgAddr t.mm t.msg) = t.mm
      rw [hmsg.addr]
      exact hown_msg
    · show w'.owner (k'.msgAddr t.mm t.call) = t.mm
      rw [hcall.addr]
      exact hown_call
    · show w'.owner (k'.msgAddr systaskPid t.sysMsg) = systaskPid
      rw [hsys.addr]
      exact hown_sys
    · show k'.msgAddr t.mm t.msg ≠ 0
      rw [hmsg.addr]
      exact hset.addr_ne
  case sysInv => exact h.sysInv.kept rfl hsys
  case talk => exact ⟨hidle.kept rfl hsys, hawake'.2, fun hs => absurd hs.1 hawake'.1⟩
  case bits => exact ⟨h.bits.1, h.bits.2.1, fun p hp => h.bits.2.2 p ((hlive p).mp hp)⟩
  case nonnull =>
    intro p hp
    obtain ⟨hr, hpm⟩ := hrecv p hp
    show k'.pMsg p ≠ 0
    rw [hpm]
    exact h.nonnull p hr
  case owed => exact fun p hp => absurd hp List.not_mem_nil
  case coherent => trivial
  case forked =>
    intro p hp
    obtain ⟨hp, hs⟩ := hforked p hp
    exact ⟨(hlive p).mpr (h.forked p hp).1, fun his => absurd (hs his) (h.notStopped hstopped hp)⟩

/-- `set_proc_exit` marks a process that is no task and not blocked in a send. -/
theorem ForkInv.setProcExit (h : ForkInv t s) {pid : Pid} {n : ℕ} (hpc : s.mm = .exiting pid)
    (hawake : s.kernel.Awake t.mm) (hidle : SysIdle t s)
    (hgone : pid ≠ t.mm ∧ pid ≠ systaskPid ∧ ¬ s.kernel.Sending pid) :
    ForkInv t { s with
      kernel := s.kernel.setProcExit pid n, mm := .branch, forked := s.forked.filter (· ≠ pid) } := by
  obtain ⟨hmm, hsys, hsend⟩ := hgone
  have hentry : (s.kernel.setProcExit pid n).procTable pid =
      { s.kernel.procTable pid with exitStatus := n, status := procStatusHanging ||| procStatusStop } :=
    ProcTable.entry_modProc_self
  have hst : s.kernel.Stored (s.kernel.setProcExit pid n) (some pid) := by
    refine ⟨fun q hq => ?_, rfl, rfl⟩
    have hqp : q ≠ pid := fun he => hq (congrArg some he.symm)
    rw [Kernel.setProcExit, ProcTable.entry_modProc_of_ne hqp]
    exact .refl
  have hno : ∀ mask, (procStatusHanging ||| procStatusStop) &&& mask = 0 →
      ¬ (s.kernel.setProcExit pid n).Is pid mask := by
    intro mask hm his
    rw [Is, Kernel.status, hentry] at his
    exact his hm
  have hother : ∀ {q : Pid}, q ≠ pid → some pid ≠ some q := fun hq he => hq (Option.some.inj he).symm
  have hns : ¬ (s.kernel.setProcExit pid n).Sending pid := hno _ (by decide)
  have hnr : ¬ (s.kernel.setProcExit pid n).Receving pid := hno _ (by decide)
  have hipc : IpcInv s.world (s.kernel.setProcExit pid n) := by
    refine hst.ipcInv_gone h.ipc rfl (fun _ hq => hq) (fun _ _ hq => hq) (fun _ => ?_) ?_ hsend hns hnr ?_
    · rw [Kernel.pid, hentry]
      rfl
    · exact fun q hq => hq.2 ▸ (h.ipc.sending q hq.1).2.1
    · rw [queneHead, hentry]
      rfl
  refine h.of_branch hidle hawake (by rw [hpc]; rfl) hipc (fun p => Iff.rfl) ?_ ?_ ?_
  · rintro p va (rfl | rfl) hown
    · exact ⟨hst.taskKept (hother hmm.symm), hown⟩
    · exact ⟨hst.taskKept (hother hsys.symm), hown⟩
  · intro p hp
    have hne : p ≠ pid := by
      rintro rfl
      exact hnr hp
    exact ⟨(hst.spares p (hother hne)).receving.mp hp, (hst.spares p (hother hne)).pMsg⟩
  · intro p hp
    obtain ⟨hp, hne⟩ := List.mem_filter.mp hp
    exact ⟨hp, (hst.spares p (hother (of_decide_eq_true hne))).stop.mp⟩

/-- `Task_Memory` stores in an entry what message passing does not read. -/
theorem ForkInv.store (h : ForkInv t s) (hpc : s.mm = .branch) (hawake : s.kernel.Awake t.mm)
    (hidle : SysIdle t s) {proc : Process} (hproc : (s.kernel.procTable p).Spares proc) :
    ForkInv t { s with kernel := s.kernel.modProc p fun _ => proc, mm := .branch } := by
  have hst : s.kernel.Stored (s.kernel.modProc p fun _ => proc) none := by
    refine ⟨fun q _ => ?_, rfl, rfl⟩
    by_cases hq : q = p
    · subst hq
      rw [ProcTable.entry_modProc_self]
      exact hproc
    · rw [ProcTable.entry_modProc_of_ne hq]
      exact .refl
  have hno : ∀ q : Pid, (none : Option Pid) ≠ some q := fun _ => nofun
  exact h.of_branch hidle hawake (by rw [hpc]; rfl) (hst.ipcInv h.ipc) (fun q => Iff.rfl)
    (fun q va _ hown => ⟨hst.taskKept (hno q), hown⟩)
    (fun q hq => ⟨(hst.spares q (hno q)).receving.mp hq, (hst.spares q (hno q)).pMsg⟩)
    fun q hq => ⟨hq, (hst.spares q (hno q)).stop.mp⟩

/-- `Task_Memory` moves pages that hold no message of a blocked process. -/
theorem ForkInv.pages (h : ForkInv t s) (hpc : s.mm = .branch) (hawake : s.kernel.Awake t.mm)
    (hidle : SysIdle t s) {w' : World} (hmap : Remapped t.mm s.world s.kernel w' k') :
    ForkInv t { s with world := w', kernel := k', mm := .branch } := by
  have his : ∀ {q mask}, k'.Is q mask ↔ s.kernel.Is q mask := by
    intro q mask
    rw [Is, Is, Kernel.status, Kernel.status, hmap.table]
  have hentry : ∀ {α : Type} (g : Process → α) (q : Pid), g (k'.procTable q) = g (s.kernel.procTable q) :=
    fun g q => by rw [hmap.table]
  have hipc : IpcInv w' k' := by
    refine h.ipc.settle (fun q hq => (hmap.live q).mp hq) (fun q _ => hentry Process.pid q) (fun q => his)
      (fun q hq => ⟨his.mp hq, (hmap.live q).mpr (h.ipc.receving q (his.mp hq)).1⟩)
      (fun q hq => ?_) (fun q hq => hmap.blocked q (hq.imp id his.mp))
      (fun r => hentry Process.queneHeadSendingToThisProcess r) fun q _ => hentry Process.queneBody q
    exact ⟨(hmap.live q).mpr (h.ipc.sending q hq).1, (hmap.live _).mpr (h.ipc.sending q hq).2.1⟩
  refine h.of_branch hidle hawake (by rw [hpc]; rfl) hipc hmap.live ?_
    (fun q hq => ⟨his.mp hq, hentry Process.pMsg q⟩) fun q hq => ⟨hq, his.mp⟩
  intro q va hq hown
  have haddr := hmap.tasks q hq va
  obtain ⟨hmem, howner⟩ := hmap.own (s.kernel.msgAddr q va) (by rw [hown]; exact hq)
  refine ⟨⟨his, his, fun hb => (hmap.blocked q hb).2.1, fun hb => (hmap.blocked q (Or.inr hb)).1, haddr, ?_⟩,
    howner.trans hown⟩
  unfold Kernel.msgAt
  rw [haddr, hmem]

/-- The answer `Task_Memory` reads when it is awake. -/
theorem Waiting.answer {r : Request} (h : Waiting t s r) (ha : s.kernel.Awake t.mm) :
    SysIdle t s ∧ r.Answered s (s.kernel.msgAt t.mm t.call) := by
  cases h with
  | asleep hw _ _ => exact absurd hw.1 ha.2
  | answered hidle _ hans => exact ⟨hidle, hans⟩

/-- `parent_proc->status |= PROC_STATUS_STOP` on a process that waits for its answer. -/
theorem ForkInv.stop (h : ForkInv t s) {pid : Pid} (hpc : s.mm = .gotProc pid)
    (hawake : s.kernel.Awake t.mm) (hidle : SysIdle t s) (hw : s.kernel.WaitsFor pid t.mm) :
    ForkInv t { s with
      kernel := s.kernel.stopProc pid, mm := .allocSend pid pid, forked := pid :: s.forked } := by
  have hset := h.setting
  have hkept : ∀ {p va}, TaskKept s.kernel (s.kernel.stopProc pid) p va := taskKept_stopProc
  have hne_sys : pid ≠ systaskPid := by
    rintro rfl
    -- SysTask receives from anybody
    have hany : (s.kernel.pending systaskPid).sender = procAny := by
      cases hp : s.sys with
      | loop => exact absurd hw.1 (h.sysInv.loop hp)
      | fetched => exact ((h.sysInv.fetched hp).2 hw.1).1
      | sendBack => exact absurd hw.1 (h.sysInv.sendBack hp).2
    exact Nat.ne_of_lt hset.mm_lt (hw.2.symm.trans hany)
  have hne_mm : pid ≠ t.mm := by
    rintro rfl
    exact hawake.2 hw.1
  have hstop : s.mm.stopped = [] := by rw [hpc]; rfl
  constructor
  case ipc =>
    exact h.ipc.setStatus _ (has_raise_of_disjoint (by decide)) (has_raise_of_disjoint (by decide))
  case setting => exact hset.kept rfl (fun _ => hkept.addr) hkept.addr
  case sysInv => exact h.sysInv.kept rfl hkept
  case talk =>
    have hk : TaskKept s.kernel (s.kernel.stopProc pid) t.mm t.msg := hkept
    exact ⟨hidle.kept rfl hkept, hk.awake.mpr hawake⟩
  case bits => exact h.bits
  case nonnull =>
    intro p hp
    have hpm : (s.kernel.stopProc pid).pMsg p = s.kernel.pMsg p :=
      congrFun (setStatus_frame _).2.2.1 p
    show (s.kernel.stopProc pid).pMsg p ≠ 0
    have hk : TaskKept s.kernel (s.kernel.stopProc pid) p t.msg := hkept
    rw [hpm]
    exact h.nonnull p (hk.receving.mp hp)
  case owed =>
    intro p hp
    obtain rfl := List.mem_singleton.mp hp
    have ho : Owed t s.kernel p := ⟨hw, hne_mm, hne_sys⟩
    have hk : TaskKept s.kernel (s.kernel.stopProc p) p t.msg := hkept
    exact ho.kept hk
  case coherent => rfl
  case forked =>
    intro p hp
    by_cases hpp : p = pid
    · subst hpp
      exact ⟨(h.ipc.receving p hw.1).1, fun _ => List.mem_singleton_self p⟩
    · have hp' := (List.mem_cons.mp hp).resolve_left hpp
      refine ⟨(h.forked p hp').1, fun his => absurd ?_ (h.notStopped hstop hp')⟩
      have his' := is_setStatus.mp his
      rw [if_neg hpp] at his'
      exact his'

/-- The rest of `fork_proc`, for a parent that is asleep and an entry that is free. -/
theorem ForkInv.copy (h : ForkInv t s) {pid child : Pid} {dir : PageDir} {frame : ℕ → ℕ}
    (hpc : s.mm = .allocated pid pid) (hawake : s.kernel.Awake t.mm) (hidle : SysIdle t s)
    (hentry : FreeEntry s child)
    (hf : FreshPages s.world s.kernel (msgPages (s.kernel.pMsg pid)) dir frame) :
    ForkInv t { s with
      world := s.world.spawn child (msgPages (s.kernel.pMsg pid)) frame
      kernel := s.kernel.forkCopy pid pid child dir frame
      mm := .replyParent pid pid child
      forked := child :: s.forked } := by
  have hset := h.setting
  have ho : Owed t s.kernel pid := h.owed pid (by rw [hpc]; exact List.mem_singleton_self pid)
  have hmsg : s.kernel.pMsg pid ≠ 0 := h.nonnull pid ho.waits.1
  have hlt : child < procAny := lt_trans hentry.lt (by decide)
  have hlive_ne : ∀ {p}, s.world.live p → p ≠ child := by
    rintro p hl rfl
    exact hentry.dead hl
  have hfk : Kernel.Forked s.world s.kernel (s.kernel.forkCopy pid pid child dir frame) pid child dir :=
    forked_forkCopy hf
  obtain ⟨hpend, -, -⟩ := child_message pid child hf hmsg
  have hblk : ∀ {p}, s.kernel.Sending p ∨ s.kernel.Receving p →
      s.world.live p ∧ s.world.live (s.world.owner (s.kernel.buf p)) := by
    intro p hp
    have hl : s.world.live p :=
      hp.elim (fun h' => (h.ipc.sending p h').1) (fun h' => (h.ipc.receving p h').1)
    exact ⟨hl, by rw [(h.ipc.own p hp).2]; exact hl⟩
  have hkept : ∀ {p va}, s.world.live p → s.world.live (s.world.owner (s.kernel.msgAddr p va)) →
      TaskKept s.kernel (s.kernel.forkCopy pid pid child dir frame) p va := fun hl hown =>
    hfk.taskKept (hlive_ne hl) (hf.dir_ne _ hl) hown fun hb => (hblk hb).2
  have hmm_msg : s.world.live (s.world.owner (s.kernel.msgAddr t.mm t.msg)) := by
    rw [hset.own_msg]
    exact hset.live_mm
  have hmm_call : s.world.live (s.world.owner (s.kernel.msgAddr t.mm t.call)) := by
    rw [hset.own_call]
    exact hset.live_mm
  have hsys_msg : s.world.live (s.world.owner (s.kernel.msgAddr systaskPid t.sysMsg)) := by
    rw [hset.own_sys]
    exact hset.live_sys
  have hlive' : ∀ {p}, s.world.live p →
      (s.world.spawn child (msgPages (s.kernel.pMsg pid)) frame).live p :=
    fun hl => ⟨Or.inl hl, s.world.live_lt _ hl⟩
  have hchild : ∀ {mask}, (s.kernel.forkCopy pid pid child dir frame).Is child mask ↔
      s.kernel.Is pid mask := by
    intro mask
    rw [Is, Is, hfk.status]
  have hold : ∀ {p mask}, s.world.live p →
      ((s.kernel.forkCopy pid pid child dir frame).Is p mask ↔ s.kernel.Is p mask) := fun hl =>
    is_congr_of_ne (congrArg Process.status (hfk.table _ (hlive_ne hl)))
  have hlivep := (hblk (Or.inr ho.waits.1)).1
  constructor
  case ipc => exact h.ipc.forkCopy hentry.dead hlt hentry.pid_eq ho.waits.1 hmsg hf
  case setting =>
    refine ⟨hlive' hset.live_mm, hlive' hset.live_sys, hset.mm_ne, ?_, ?_, ?_, hset.nonnull, ?_⟩
    · rw [(hkept hset.live_mm hmm_msg).addr, owner_spawn hf hmm_msg]
      exact hset.own_msg
    · rw [(hkept hset.live_mm hmm_call).addr, owner_spawn hf hmm_call]
      exact hset.own_call
    · rw [(hkept hset.live_sys hsys_msg).addr, owner_spawn hf hsys_msg]
      exact hset.own_sys
    · rw [(hkept hset.live_mm hmm_msg).addr]
      exact hset.addr_ne
  case sysInv => exact h.sysInv.kept rfl (hkept hset.live_sys hsys_msg)
  case talk =>
    exact ⟨hidle.kept rfl (hkept hset.live_sys hsys_msg),
      (hkept hset.live_mm hmm_msg).awake.mpr hawake⟩
  case bits =>
    obtain ⟨hne, hzero, hbits⟩ := h.bits
    refine ⟨hne, hzero, fun p hp hp32 => ?_⟩
    rcases hp.1 with hl | rfl
    · exact hbits p hl hp32
    · exact hentry.taken
  case nonnull =>
    intro p hp
    by_cases hpc : p = child
    · subst hpc
      show (s.kernel.forkCopy pid pid p dir frame).pMsg p ≠ 0
      rw [hfk.pMsg]
      exact hmsg
    · have hpm : (s.kernel.forkCopy pid pid child dir frame).pMsg p = s.kernel.pMsg p :=
        congrArg Process.pMsg (hfk.table p hpc)
      show (s.kernel.forkCopy pid pid child dir frame).pMsg p ≠ 0
      rw [hpm]
      exact h.nonnull p ((is_congr_of_ne (congrArg Process.status (hfk.table p hpc))).mp hp)
  case owed =>
    have hk : TaskKept s.kernel (s.kernel.forkCopy pid pid child dir frame) pid
        (s.kernel.pMsg pid) := hkept hlivep (hblk (Or.inr ho.waits.1)).2
    have hparent : Owed t (s.kernel.forkCopy pid pid child dir frame) pid := ho.kept hk
    have hnew : Owed t (s.kernel.forkCopy pid pid child dir frame) child := by
      refine ⟨⟨hchild.mpr ho.waits.1, ?_⟩, (hlive_ne hset.live_mm).symm, (hlive_ne hset.live_sys).symm⟩
      rw [hpend]
      exact ho.waits.2
    intro p hp
    rcases List.mem_cons.mp hp with rfl | hp
    · exact hparent
    · obtain rfl := List.mem_singleton.mp hp
      exact hnew
  case coherent => exact ⟨rfl, hlive_ne hlivep⟩
  case forked =>
    intro p hp
    rcases List.mem_cons.mp hp with rfl | hp
    · exact ⟨⟨Or.inr rfl, hlt⟩, fun _ => by simp [MmPc.stopped, MmPc.owes]⟩
    · obtain ⟨hl, hs⟩ := h.forked p hp
      refine ⟨hlive' hl, fun his => ?_⟩
      have hmem := hs ((hold hl).mp his)
      rw [hpc] at hmem
      obtain rfl := List.mem_singleton.mp hmem
      simp [MmPc.stopped, MmPc.owes]

/-- A cleared bit is not set. -/
theorem is_unstopProc (h : (k.unstopProc q).Is p procStatusStop) :
    p ≠ q ∧ k.Is p procStatusStop := by
  have his := is_setStatus.mp h
  by_cases hpq : p = q
  · rw [if_pos hpq] at his
    exact absurd his not_has_drop_self
  · rw [if_neg hpq] at his
    exact ⟨hpq, his⟩

/-- `Task_Memory` clears both bits. -/
theorem ForkInv.clear (h : ForkInv t s) {parent child : Pid} (hpc : s.mm = .clear parent child) :
    ForkInv t { s with kernel := (s.kernel.unstopProc parent).unstopProc child, mm := .loop } := by
  have hset := h.setting
  have hkept : ∀ {p va}, TaskKept s.kernel ((s.kernel.unstopProc parent).unstopProc child) p va :=
    taskKept_unstopProc.trans taskKept_unstopProc
  have htalk : SysIdle t s ∧ s.kernel.Awake t.mm := by
    have ht := h.talk
    rw [hpc] at ht
    exact ht
  have hk : TaskKept s.kernel ((s.kernel.unstopProc parent).unstopProc child) t.mm t.msg := hkept
  constructor
  case ipc =>
    exact (h.ipc.setStatus _ (has_drop_of_disjoint (by decide)) (has_drop_of_disjoint (by decide))).setStatus
      _ (has_drop_of_disjoint (by decide)) (has_drop_of_disjoint (by decide))
  case setting => exact hset.kept rfl (fun _ => hkept.addr) hkept.addr
  case sysInv => exact h.sysInv.kept rfl hkept
  case talk =>
    refine ⟨htalk.1.kept rfl hkept, fun hr => htalk.2.2 (hk.receving.mp hr), fun hs => ?_⟩
    exact htalk.2.1 (hk.sending.mp hs.1)
  case bits => exact h.bits
  case nonnull =>
    intro p hp
    have hk : TaskKept s.kernel ((s.kernel.unstopProc parent).unstopProc child) p t.msg := hkept
    have hpm : ((s.kernel.unstopProc parent).unstopProc child).pMsg p = s.kernel.pMsg p :=
      (congrFun (setStatus_frame _).2.2.1 p).trans (congrFun (setStatus_frame _).2.2.1 p)
    show ((s.kernel.unstopProc parent).unstopProc child).pMsg p ≠ 0
    rw [hpm]
    exact h.nonnull p (hk.receving.mp hp)
  case owed => exact fun p hp => absurd hp List.not_mem_nil
  case coherent => trivial
  case forked =>
    intro p hp
    obtain ⟨hl, hs⟩ := h.forked p hp
    refine ⟨hl, fun his => ?_⟩
    obtain ⟨hchild, his₁⟩ := is_unstopProc his
    obtain ⟨hparent, his₂⟩ := is_unstopProc his₁
    have hmem := hs his₂
    rw [hpc] at hmem
    rcases List.mem_cons.mp hmem with he | he
    · exact absurd he hparent
    · exact absurd (List.mem_singleton.mp he) hchild

/-- **Every timely step of `Task_Memory` keeps the invariant.** -/
theorem ForkInv.memory (h : ForkInv t s) (hstep : MmStep t s s') (htimely : Timely t s .memory) :
    ForkInv t s' := by
  have hset := h.setting
  have htalk := h.talk
  have hcoh := h.coherent
  have howed := h.owed
  have hnone : ∀ {k : Kernel} {p : Pid}, p ∈ ([] : List Pid) → Owed t s.kernel p → Owed t k p :=
    fun hp => absurd hp List.not_mem_nil
  cases hstep with
  | recv hpc hcall =>
    rw [hpc] at htalk
    obtain ⟨hsys, ht⟩ := TalkAt.mm_recv hset h.ipc h.sysInv htalk hcall
    exact h.of_mm_call hpc (hcall.call h.ipc hset.nonnull.1) hsys ht (fun p => hnone) (List.Subset.refl _)
      trivial (List.Subset.refl _)
  | branch hpc hawake htype =>
    rw [hpc] at htalk
    exact h.of_mm_pc hpc ⟨htalk.1.of_pc _, hawake.2, fun hs => absurd hs.1 hawake.1⟩ rfl trivial
      (List.Subset.refl _)
  | branchDone hpc hawake =>
    rw [hpc] at htalk
    have ht : TalkAt t { s with mm := .loop } .loop :=
      ⟨htalk.1.of_pc _, hawake.2, fun hs => hawake.1 hs.1⟩
    exact h.of_mm_pc hpc ht rfl trivial (List.Subset.refl _)
  | @branchGetProc _ pid hpc hcall =>
    rw [hpc] at htalk
    exact h.ask (.getProc pid) hpc htalk.1 hcall rfl (fun m hty hm => ⟨hty, hm⟩) (fun _ hr => hr)
      (List.Subset.refl _) trivial (List.Subset.refl _)
  | branchGetProcListHead hpc hcall =>
    rw [hpc] at htalk
    exact h.ask .getProcListHead hpc htalk.1 hcall rfl (fun m hty _ => hty) (fun _ hr => hr)
      (List.Subset.refl _) trivial (List.Subset.refl _)
  | branchRecv hpc hcall =>
    rw [hpc] at htalk
    exact h.await hpc htalk hcall (fun _ hr => hr) (List.Subset.refl _) trivial (List.Subset.refl _)
  | branchGot hpc hawake =>
    rw [hpc] at htalk
    have hidle := (htalk.answer hawake).1
    exact h.of_mm_pc hpc ⟨hidle.of_pc _, hawake.2, fun hs => absurd hs.1 hawake.1⟩ rfl trivial
      (List.Subset.refl _)
  | branchExitProc hpc hcall =>
    rw [hpc] at htalk
    obtain ⟨hsys, ht⟩ := TalkAt.mm_exitProc hset h.ipc h.sysInv htalk.1 rfl rfl hcall
    exact h.of_mm_call hpc (hcall.call h.ipc) hsys ht (fun p => hnone) (List.Subset.refl _) trivial
      (List.Subset.refl _)
  | exiting hpc hawake =>
    rw [hpc] at htalk
    exact h.of_mm_pc hpc ⟨htalk.1.of_pc _, hawake⟩ rfl trivial (List.Subset.refl _)
  | setProcExit hpc hawake =>
    rw [hpc] at htalk
    exact h.setProcExit hpc hawake htalk.1 (htimely.gone rfl _ hpc)
  | store hpc hawake hproc =>
    rw [hpc] at htalk
    have hnext := h.store hpc hawake htalk.1 hproc
    rw [← hpc] at hnext
    exact hnext
  | pages hpc hawake hmap =>
    rw [hpc] at htalk
    have hnext := h.pages hpc hawake htalk.1 hmap
    rw [← hpc] at hnext
    exact hnext
  | reply hpc hawake =>
    rw [hpc] at htalk
    exact h.of_mm_pc hpc ⟨htalk.1.of_pc _, hawake⟩ rfl trivial (List.Subset.refl _)
  | @sendBack _ dest va m hpc hto hcall =>
    rw [hpc] at htalk
    have hdest : m.receiver ≠ systaskPid := by
      rw [hto]
      exact htimely.reply rfl dest hpc
    obtain ⟨hsys, hidle, hnr, hns⟩ := TalkAt.mm_reply hset h.ipc h.sysInv htalk.1 hdest hcall
    exact h.of_mm_call hpc (hcall.call h.ipc) hsys ⟨hidle, hnr, fun hs => absurd hs hns⟩ (fun p => hnone)
      (List.Subset.refl _) trivial (List.Subset.refl _)
  | fork hpc hawake htype =>
    rw [hpc] at htalk
    exact h.of_mm_pc hpc ⟨htalk.1.of_pc _, hawake⟩ rfl trivial (List.Subset.refl _)
  | @getSend _ pid hpc hcall =>
    rw [hpc] at htalk
    exact h.ask (.getProc pid) hpc htalk.1 hcall rfl (fun m hty hm => ⟨hty, hm⟩) (fun _ hr => hr)
      (List.Subset.refl _) trivial (List.Subset.refl _)
  | getRecv hpc hcall =>
    rw [hpc] at htalk
    exact h.await hpc htalk hcall (fun _ hr => hr) (List.Subset.refl _) trivial (List.Subset.refl _)
  | stop hpc hawake hproc =>
    rw [hpc] at htalk
    obtain ⟨hidle, hans⟩ := htalk.answer hawake
    rw [hans, procAt_procAddr] at hproc
    obtain rfl := Option.some.inj hproc
    exact h.stop hpc hawake hidle (htimely.stop rfl _ hpc hawake)
  | allocSend hpc hcall =>
    rw [hpc] at htalk hcoh
    exact h.ask .allocProc hpc htalk.1 hcall rfl (fun m hty _ => hty) (fun _ hr => hr) (List.Subset.refl _)
      hcoh (List.Subset.refl _)
  | allocRecv hpc hcall =>
    rw [hpc] at htalk hcoh
    exact h.await hpc htalk hcall (fun _ hr => hr) (List.Subset.refl _) hcoh (List.Subset.refl _)
  | allocFailed hpc hawake hproc =>
    -- a free entry was found, so SysTask's answer is not NULL
    rw [hpc] at htalk
    obtain ⟨c, hc, -⟩ := (htalk.answer hawake).2
    rw [hc, procAt_procAddr] at hproc
    cases hproc
  | copy hpc hawake hproc hfresh =>
    rw [hpc] at htalk hcoh
    obtain ⟨hidle, c, hc, hentry⟩ := htalk.answer hawake
    rw [hc, procAt_procAddr] at hproc
    obtain rfl := Option.some.inj hproc
    obtain rfl : _ = _ := hcoh
    rw [if_neg (by rw [hentry.pid_eq]; exact hentry.ne_zero)]
    exact h.copy hpc hawake hidle hentry hfresh
  | failReply hpc hcall =>
    rw [hpc] at hcoh
    exact hcoh.elim
  | replyParent hpc hcall =>
    rw [hpc] at htalk hcoh howed
    obtain ⟨rfl, hne⟩ := hcoh
    have hparent := howed _ List.mem_cons_self
    obtain ⟨hsys, hidle, -⟩ := TalkAt.mm_reply hset h.ipc h.sysInv htalk.1 hparent.ne_sys hcall
    have ha := hparent.answered h.ipc hcall rfl
    -- the child is owed its answer still, and the parent keeps its bit
    refine h.of_call (hcall.call h.ipc) hsys ⟨hidle, ha⟩ (fun p hp => ?_) hne ?_
    · obtain rfl := List.mem_singleton.mp hp
      exact (howed _ (List.mem_cons_of_mem _ hp)).sends h.ipc hcall hne.symm
    · rw [hpc]
      exact fun p hp => hp
  | @replyChild _ parent child hpc hcall =>
    rw [hpc] at htalk howed
    have hchild := howed _ (List.mem_singleton_self _)
    have hpid : s.kernel.pid child = child :=
      h.ipc.pid_eq child (h.ipc.receving child hchild.waits.1).1
    obtain ⟨hsys, hidle, -⟩ := TalkAt.mm_reply hset h.ipc h.sysInv htalk.1
      (by rw [hpid]; exact hchild.ne_sys) hcall
    have ha := hchild.answered h.ipc hcall hpid
    refine h.of_call (hcall.call h.ipc) hsys ⟨hidle, ha⟩ (fun p hp => absurd hp List.not_mem_nil) trivial ?_
    rw [hpc]
    exact fun p hp => hp
  | clear hpc hawake => exact h.clear hpc

end OmochaOS
