import OmochaOS.Fork.Call

/-!
# The conversation of the two tasks

`Task_Memory` calls `get_proc` and `alloc_proc` one at a time, and SysTask serves one request at a time.
`TalkAt` says, for each place of `Task_Memory`'s program, how far its request has come: parked in the
queue of SysTask, in SysTask's variable, answered there, parked in the queue of `Task_Memory`, or
returned.  Whatever the other processes do, and whatever they ask SysTask in between, the answer that
`Task_Memory` reads is the one to its own request.
-/

namespace OmochaOS

open TransitionRun BitFlags Kernel

variable {t : Tasks} {s s' : ForkState} {k k' : Kernel} {p q : Pid} {va : VAddr} {c : Option Pid}
  {w : World} {m : Message} {pc : MmPc}

/-! ### Requests -/

/-- An entry that SysTask has handed out and no process uses. -/
structure FreeEntry (s : ForkState) (c : Pid) : Prop where
  lt : c < 32
  ne_zero : c ≠ 0
  dead : ¬ s.world.live c
  taken : checkBit s.procBitmap c = true
  pid_eq : s.kernel.pid c = c

def Request.Asks : Request → Message → Prop
  | .getProc pid, m => m.type = getProcType ∧ m.major = pid
  | .allocProc, m => m.type = allocProcType
  | .getProcListHead, m => m.type = getProcListHeadType

def Request.Answered (s : ForkState) : Request → Message → Prop
  | .getProc pid, m => m.major = procAddr pid
  | .allocProc, m => ∃ c, m.major = procAddr c ∧ FreeEntry s c
  | .getProcListHead, _ => True

/-- SysTask has nothing of `Task_Memory` to answer. -/
structure SysIdle (t : Tasks) (s : ForkState) : Prop where
  notParked : ¬ s.kernel.SendingTo systaskPid t.mm
  notFetched : s.sys = .fetched → s.kernel.Awake systaskPid →
    (s.kernel.msgAt systaskPid t.sysMsg).sender = t.mm →
    (s.kernel.msgAt systaskPid t.sysMsg).type = exitProc
  notSendBack : s.sys = .sendBack → (s.kernel.msgAt systaskPid t.sysMsg).sender ≠ t.mm

/-- SysTask has the request `r` of `Task_Memory`. -/
inductive Serving (t : Tasks) (s : ForkState) (r : Request) : Prop
  | fetched (hpc : s.sys = .fetched) (hawake : s.kernel.Awake systaskPid)
      (hask : r.Asks (s.kernel.msgAt systaskPid t.sysMsg))
      (hfrom : (s.kernel.msgAt systaskPid t.sysMsg).sender = t.mm)
  | sendBack (hpc : s.sys = .sendBack)
      (hans : r.Answered s (s.kernel.msgAt systaskPid t.sysMsg))
      (hfrom : (s.kernel.msgAt systaskPid t.sysMsg).sender = t.mm)
  | parked (hpc : s.sys = .loop) (hto : s.kernel.SendingTo systaskPid t.mm)
      (hans : r.Answered s (s.kernel.pending systaskPid))

/-- `Task_Memory` has sent the request `r` and not yet called `recv_msg`. -/
inductive Asked (t : Tasks) (s : ForkState) (r : Request) : Prop
  | queued (hidle : SysIdle t s) (hto : s.kernel.SendingTo t.mm systaskPid)
      (hask : r.Asks (s.kernel.pending t.mm))
  | served (hawake : s.kernel.Awake t.mm) (hserving : Serving t s r)

/-- `Task_Memory` has called `recv_msg` for the answer to `r`. -/
inductive Waiting (t : Tasks) (s : ForkState) (r : Request) : Prop
  | asleep (hwaits : s.kernel.WaitsFor t.mm systaskPid)
      (hbuf : s.kernel.buf t.mm = s.kernel.msgAddr t.mm t.call) (hserving : Serving t s r)
  | answered (hidle : SysIdle t s) (hawake : s.kernel.Awake t.mm)
      (hans : r.Answered s (s.kernel.msgAt t.mm t.call))

/-- `Task_Memory` has called `recv_msg` for its next request. -/
structure Fetching (t : Tasks) (s : ForkState) : Prop where
  notSending : ¬ s.kernel.Sending t.mm
  asleep : s.kernel.Receving t.mm → (s.kernel.pending t.mm).sender = procAny ∧
    s.kernel.buf t.mm = s.kernel.msgAddr t.mm t.msg
  returned : s.kernel.Awake t.mm → (s.kernel.msgAt t.mm t.msg).sender ≠ systaskPid

/-- `Task_Memory` is in another branch: what it may have in SysTask's queue is an `EXIT_PROC`. -/
structure Branching (t : Tasks) (s : ForkState) : Prop where
  notReceving : ¬ s.kernel.Receving t.mm
  told : s.kernel.SendingTo t.mm systaskPid → (s.kernel.pending t.mm).type = exitProc

/-- How far the conversation has come when `Task_Memory` is at `pc`. -/
def TalkAt (t : Tasks) (s : ForkState) : MmPc → Prop
  | .loop => SysIdle t s ∧ ¬ s.kernel.Receving t.mm ∧ ¬ s.kernel.SendingTo t.mm systaskPid
  | .fetched => SysIdle t s ∧ Fetching t s
  | .branch => SysIdle t s ∧ Branching t s
  | .branchRecv r => Asked t s r
  | .branchGot r => Waiting t s r
  | .getRecv pid => Asked t s (.getProc pid)
  | .gotProc pid => Waiting t s (.getProc pid)
  | .allocRecv _ _ => Asked t s .allocProc
  | .allocated _ _ => Waiting t s .allocProc
  | _ => SysIdle t s ∧ s.kernel.Awake t.mm

/-- What SysTask's program counter says about its status. -/
structure SysInv (t : Tasks) (s : ForkState) : Prop where
  loop : s.sys = .loop → ¬ s.kernel.Receving systaskPid
  fetched : s.sys = .fetched → ¬ s.kernel.Sending systaskPid ∧
    (s.kernel.Receving systaskPid → (s.kernel.pending systaskPid).sender = procAny ∧
      s.kernel.buf systaskPid = s.kernel.msgAddr systaskPid t.sysMsg)
  sendBack : s.sys = .sendBack → s.kernel.Awake systaskPid

/-- What holds of the two tasks throughout. -/
structure Setting (t : Tasks) (s : ForkState) : Prop where
  live_mm : s.world.live t.mm
  live_sys : s.world.live systaskPid
  mm_ne : t.mm ≠ systaskPid
  own_msg : s.world.owner (s.kernel.msgAddr t.mm t.msg) = t.mm
  own_call : s.world.owner (s.kernel.msgAddr t.mm t.call) = t.mm
  own_sys : s.world.owner (s.kernel.msgAddr systaskPid t.sysMsg) = systaskPid
  nonnull : t.msg ≠ 0 ∧ t.call ≠ 0 ∧ t.sysMsg ≠ 0
  addr_ne : s.kernel.msgAddr t.mm t.msg ≠ 0

theorem Setting.mm_lt (h : Setting t s) : t.mm < procAny := s.world.live_lt _ h.live_mm

/-- The variables of the tasks stay where they are. -/
theorem Setting.kept (h : Setting t s) (hw : s'.world = s.world)
    (hmm : ∀ va, s'.kernel.msgAddr t.mm va = s.kernel.msgAddr t.mm va)
    (hsys : s'.kernel.msgAddr systaskPid t.sysMsg = s.kernel.msgAddr systaskPid t.sysMsg) :
    Setting t s' := by
  constructor
  case live_mm => rw [hw]; exact h.live_mm
  case live_sys => rw [hw]; exact h.live_sys
  case mm_ne => exact h.mm_ne
  case own_msg => rw [hw, hmm]; exact h.own_msg
  case own_call => rw [hw, hmm]; exact h.own_call
  case own_sys => rw [hw, hsys]; exact h.own_sys
  case nonnull => exact h.nonnull
  case addr_ne => rw [hmm]; exact h.addr_ne

/-! ### A task that is left alone -/

/-- `p` keeps its blocking bits, what it is blocked with, and its variable at `va`. -/
structure TaskKept (k k' : Kernel) (p : Pid) (va : VAddr) : Prop where
  sending : k'.Sending p ↔ k.Sending p
  receving : k'.Receving p ↔ k.Receving p
  pending : k.Sending p ∨ k.Receving p → k'.pending p = k.pending p
  buf : k.Receving p → k'.buf p = k.buf p
  addr : k'.msgAddr p va = k.msgAddr p va
  msgAt : k'.msgAt p va = k.msgAt p va

theorem Untouched.taskKept (hu : Untouched w k k' p) (hfix : Fixed k k')
    (hown : w.owner (k.msgAddr p va) = p) : TaskKept k k' p va where
  sending := hu.sending
  receving := hu.receving
  pending := hu.pending
  buf := hu.buf
  addr := hfix.msgAddr
  msgAt := by
    have haddr : k'.msgAddr p va = k.msgAddr p va := hfix.msgAddr
    unfold Kernel.msgAt
    rw [haddr]
    exact hu.memory _ hown

theorem TaskKept.awake (h : TaskKept k k' p va) : k'.Awake p ↔ k.Awake p := by
  unfold Kernel.Awake
  rw [h.sending, h.receving]

theorem TaskKept.sendingTo (h : TaskKept k k' p va) : k'.SendingTo p q ↔ k.SendingTo p q :=
  SendingTo_congr h.sending fun hs => h.pending (Or.inl hs)

theorem TaskKept.waitsFor (h : TaskKept k k' p va) (hw : k.WaitsFor p q) : k'.WaitsFor p q :=
  ⟨h.receving.mpr hw.1, by rw [h.pending (Or.inr hw.1)]; exact hw.2⟩

theorem SysIdle.kept (h : SysIdle t s) (hpc : s'.sys = s.sys)
    (hk : TaskKept s.kernel s'.kernel systaskPid t.sysMsg) : SysIdle t s' where
  notParked hp := h.notParked (hk.sendingTo.mp hp)
  notFetched hf ha := by
    rw [hk.msgAt]
    exact h.notFetched (hpc.symm.trans hf) (hk.awake.mp ha)
  notSendBack hf := by
    rw [hk.msgAt]
    exact h.notSendBack (hpc.symm.trans hf)

theorem SysInv.kept (h : SysInv t s) (hpc : s'.sys = s.sys)
    (hk : TaskKept s.kernel s'.kernel systaskPid t.sysMsg) : SysInv t s' where
  loop hl hr := h.loop (hpc.symm.trans hl) (hk.receving.mp hr)
  fetched hf := by
    obtain ⟨hns, hr⟩ := h.fetched (hpc.symm.trans hf)
    refine ⟨fun hs => hns (hk.sending.mp hs), fun hr' => ?_⟩
    have hr₀ := hk.receving.mp hr'
    rw [hk.pending (Or.inr hr₀), hk.buf hr₀, hk.addr]
    exact hr hr₀
  sendBack hf := hk.awake.mpr (h.sendBack (hpc.symm.trans hf))

/-- A task that is awake fits every place of its program. -/
theorem SysInv.of_awake (h : s.kernel.Awake systaskPid) : SysInv t s where
  loop _ := h.2
  fetched _ := ⟨h.1, fun hr => absurd hr h.2⟩
  sendBack _ := h

/-- SysTask waits in its loop only. -/
theorem SysInv.fetched_of_receving (h : SysInv t s) (hr : s.kernel.Receving systaskPid) : s.sys = .fetched := by
  cases hp : s.sys with
  | loop => exact absurd hr (h.loop hp)
  | fetched => rfl
  | sendBack => exact absurd hr (h.sendBack hp).2

/-- A message handed to SysTask is in its variable. -/
theorem SysInv.msgAt_of_returned (h : SysInv t s) (hfix : Fixed s.kernel k')
    (hret : Returned s.kernel k' systaskPid m) : k'.msgAt systaskPid t.sysMsg = m := by
  have haddr : k'.msgAddr systaskPid t.sysMsg = s.kernel.msgAddr systaskPid t.sysMsg := hfix.msgAddr
  have hbuf := ((h.fetched (h.fetched_of_receving hret.waited)).2 hret.waited).2
  unfold Kernel.msgAt
  rw [haddr, ← hbuf, hret.memory]

theorem Request.Answered.mono {r : Request} (h : r.Answered s m)
    (hfree : ∀ c, FreeEntry s c → FreeEntry s' c) : r.Answered s' m := by
  cases r with
  | getProc pid => exact h
  | allocProc =>
    obtain ⟨c, hc, hf⟩ := h
    exact ⟨c, hc, hfree c hf⟩
  | getProcListHead => trivial

theorem Serving.kept {r : Request} (h : Serving t s r) (hpc : s'.sys = s.sys)
    (hk : TaskKept s.kernel s'.kernel systaskPid t.sysMsg)
    (hfree : ∀ c, FreeEntry s c → FreeEntry s' c) : Serving t s' r := by
  cases h with
  | fetched hp ha hask hfrom =>
    rw [← hk.msgAt] at hask hfrom
    exact .fetched (hpc.trans hp) (hk.awake.mpr ha) hask hfrom
  | sendBack hp hans hfrom =>
    rw [← hk.msgAt] at hans hfrom
    exact .sendBack (hpc.trans hp) (hans.mono hfree) hfrom
  | parked hp hto hans =>
    rw [← hk.pending (Or.inl hto.1)] at hans
    exact .parked (hpc.trans hp) (hk.sendingTo.mpr hto) (hans.mono hfree)

/-- The conversation stands still for `Task_Memory` when only SysTask's part changes. -/
theorem TalkAt.mono (h : TalkAt t s pc) (hmsg : TaskKept s.kernel s'.kernel t.mm t.msg)
    (hcall : TaskKept s.kernel s'.kernel t.mm t.call) (hidle : SysIdle t s → SysIdle t s')
    (hserving : ∀ r, Serving t s r → Serving t s' r)
    (hfree : ∀ c, FreeEntry s c → FreeEntry s' c) : TalkAt t s' pc := by
  have hasked : ∀ r, Asked t s r → Asked t s' r := by
    intro r h
    cases h with
    | queued hi hto hask =>
      rw [← hmsg.pending (Or.inl hto.1)] at hask
      exact .queued (hidle hi) (hmsg.sendingTo.mpr hto) hask
    | served ha hs => exact .served (hmsg.awake.mpr ha) (hserving r hs)
  have hwaiting : ∀ r, Waiting t s r → Waiting t s' r := by
    intro r h
    cases h with
    | asleep hw hb hs =>
      refine .asleep (hmsg.waitsFor hw) ?_ (hserving r hs)
      rw [hcall.buf hw.1, hcall.addr]
      exact hb
    | answered hi ha hans =>
      rw [← hcall.msgAt] at hans
      exact .answered (hidle hi) (hmsg.awake.mpr ha) (hans.mono hfree)
  have hdefault : SysIdle t s ∧ s.kernel.Awake t.mm → SysIdle t s' ∧ s'.kernel.Awake t.mm :=
    fun h => ⟨hidle h.1, hmsg.awake.mpr h.2⟩
  cases pc with
  | loop =>
    exact ⟨hidle h.1, fun hr => h.2.1 (hmsg.receving.mp hr), fun hs => h.2.2 (hmsg.sendingTo.mp hs)⟩
  | fetched =>
    obtain ⟨hi, hf⟩ := h
    refine ⟨hidle hi, fun hs => hf.notSending (hmsg.sending.mp hs), fun hr => ?_, fun ha => ?_⟩
    · have hr₀ := hmsg.receving.mp hr
      rw [hmsg.pending (Or.inr hr₀), hmsg.buf hr₀, hmsg.addr]
      exact hf.asleep hr₀
    · rw [hmsg.msgAt]
      exact hf.returned (hmsg.awake.mp ha)
  | branch =>
    obtain ⟨hi, hb⟩ := h
    refine ⟨hidle hi, fun hr => hb.notReceving (hmsg.receving.mp hr), fun hs => ?_⟩
    have hs₀ := hmsg.sendingTo.mp hs
    rw [hmsg.pending (Or.inl hs₀.1)]
    exact hb.told hs₀
  | branchRecv r => exact hasked _ h
  | branchGot r => exact hwaiting _ h
  | exiting pid => exact hdefault h
  | getRecv pid => exact hasked _ h
  | gotProc pid => exact hwaiting _ h
  | allocRecv pid parent => exact hasked _ h
  | allocated pid parent => exact hwaiting _ h
  | sendBack dest => exact hdefault h
  | getSend pid => exact hdefault h
  | allocSend pid parent => exact hdefault h
  | failReply pid => exact hdefault h
  | replyParent pid parent child => exact hdefault h
  | replyChild parent child => exact hdefault h
  | clear parent child => exact hdefault h

/-! ### Calls of the other processes -/

/-- No process of the system is known by the number of a notification. -/
theorem Setting.procInterrupt_ne (h : Setting t s) :
    procInterrupt ≠ t.mm ∧ procInterrupt ≠ systaskPid := by
  have hlt : t.mm < procInterrupt := h.mm_lt.trans (by decide)
  exact ⟨Nat.ne_of_gt hlt, by decide⟩

/-- A call does not touch a free entry. -/
theorem FreeEntry.process {e : Pid} (hcall : Call w s.kernel c k') (h : FreeEntry s e) :
    FreeEntry { s with kernel := k' } e :=
  ⟨h.lt, h.ne_zero, h.dead, h.taken, (congrFun hcall.fixed.pid e).trans h.pid_eq⟩

section Process

variable (hset : Setting t s) (hsys : SysInv t s) (hcall : Call s.world s.kernel c k')
  (hmm : c ≠ some t.mm) (hne : c ≠ some systaskPid)
include hset hsys hcall hmm hne

/-- A call of another process reaches SysTask with a message that is not from `Task_Memory`, or wakes
it after an answer, or leaves it alone. -/
theorem sys_process :
    TaskKept s.kernel k' systaskPid t.sysMsg ∨
    (k'.Awake systaskPid ∧ s.sys = .fetched ∧
      (k'.msgAt systaskPid t.sysMsg).sender ≠ t.mm ∧ s.kernel.Receving systaskPid) ∨
    (k'.Awake systaskPid ∧ s.sys = .loop ∧ ¬ s.kernel.SendingTo systaskPid t.mm) := by
  have hwoken : ∀ {m}, Returned s.kernel k' systaskPid m → m.sender ≠ t.mm →
      k'.Awake systaskPid ∧ s.sys = .fetched ∧
        (k'.msgAt systaskPid t.sysMsg).sender ≠ t.mm ∧ s.kernel.Receving systaskPid := by
    intro m hr hm
    refine ⟨hr.awake, hsys.fetched_of_receving hr.waited, ?_, hr.waited⟩
    rw [hsys.msgAt_of_returned hcall.fixed hr]
    exact hm
  cases hcall.bystander systaskPid hne with
  | untouched hu => exact Or.inl (hu.taskKept hcall.fixed hset.own_sys)
  | handed q m hq hfrom hto hadm hr =>
    refine Or.inr (Or.inl (hwoken hr ?_))
    rw [hfrom]
    exact fun he => hmm (he ▸ hq)
  | noticed m hc hm hadm hr =>
    refine Or.inr (Or.inl (hwoken hr ?_))
    rw [hm]
    exact hset.procInterrupt_ne.1
  | fetched r hr hto hawake =>
    refine Or.inr (Or.inr ⟨hawake, ?_, ?_⟩)
    · cases hp : s.sys with
      | loop => rfl
      | fetched => exact absurd hto.1 (hsys.fetched hp).1
      | sendBack => exact absurd hto.1 (hsys.sendBack hp).1
    · intro hto'
      exact hmm (by rw [hr, ← hto.2, hto'.2])

theorem SysInv.process : SysInv t { s with kernel := k' } := by
  rcases sys_process hset hsys hcall hmm hne with hk | ⟨ha, -⟩ | ⟨ha, -⟩
  · exact hsys.kept rfl hk
  · exact .of_awake ha
  · exact .of_awake ha

theorem SysIdle.process (h : SysIdle t s) : SysIdle t { s with kernel := k' } := by
  rcases sys_process hset hsys hcall hmm hne with hk | ⟨ha, hpc, hm, -⟩ | ⟨ha, hpc, -⟩
  · exact h.kept rfl hk
  · exact ⟨fun hp => ha.1 hp.1, fun _ _ hf => absurd hf hm, fun _ => hm⟩
  · refine ⟨fun hp => ha.1 hp.1, fun hf => ?_, fun hf => ?_⟩
    · rw [show s.sys = .fetched from hf] at hpc
      cases hpc
    · rw [show s.sys = .sendBack from hf] at hpc
      cases hpc

theorem Serving.process {r : Request} (h : Serving t s r) : Serving t { s with kernel := k' } r := by
  rcases sys_process hset hsys hcall hmm hne with hk | ⟨-, hpc, -, hr⟩ | ⟨-, hpc, hto⟩
  · exact h.kept rfl hk fun _ => FreeEntry.process hcall
  · -- SysTask waited, so it had no request
    cases h with
    | fetched hp ha _ _ => exact absurd hr ha.2
    | sendBack hp _ _ => rw [hp] at hpc; cases hpc
    | parked hp _ _ => rw [hp] at hpc; cases hpc
  · cases h with
    | fetched hp _ _ _ => rw [hp] at hpc; cases hpc
    | sendBack hp _ _ => rw [hp] at hpc; cases hpc
    | parked _ hto' _ => exact absurd hto' hto

/-- **No call of another process disturbs the conversation.** -/
theorem TalkAt.process (hi : IpcInv s.world s.kernel) (h : TalkAt t s pc) :
    TalkAt t { s with kernel := k' } pc := by
  have hidle := SysIdle.process hset hsys hcall hmm hne
  have hserving := fun r => Serving.process (r := r) hset hsys hcall hmm hne
  have hkept : ∀ {va}, s.world.owner (s.kernel.msgAddr t.mm va) = t.mm →
      Untouched s.world s.kernel k' t.mm → TaskKept s.kernel k' t.mm va :=
    fun hown hu => hu.taskKept hcall.fixed hown
  -- `Task_Memory` is woken in its loop only
  have hwoken : ∀ {m}, Returned s.kernel k' t.mm m → m.sender ≠ systaskPid →
      (s.kernel.pending t.mm).sender ≠ systaskPid → TalkAt t { s with kernel := k' } pc := by
    intro m hr hm hfilter
    have hns : ¬ s.kernel.Awake t.mm := fun ha => ha.2 hr.waited
    have hasked : ∀ {r}, Asked t s r → False := by
      intro r ha
      cases ha with
      | queued _ hto _ => exact hi.notBoth t.mm ⟨hto.1, hr.waited⟩
      | served ha _ => exact hns ha
    have hwaiting : ∀ {r}, Waiting t s r → False := by
      intro r ha
      cases ha with
      | asleep hw _ _ => exact hfilter hw.2
      | answered _ ha _ => exact hns ha
    cases pc with
    | loop => exact absurd hr.waited h.2.1
    | fetched =>
      refine ⟨hidle h.1, hr.awake.1, fun hr' => absurd hr' hr.awake.2, fun _ => ?_⟩
      have haddr : k'.msgAddr t.mm t.msg = s.kernel.msgAddr t.mm t.msg := hcall.fixed.msgAddr
      show (k'.memory (k'.msgAddr t.mm t.msg)).sender ≠ systaskPid
      rw [haddr, ← (h.2.asleep hr.waited).2, hr.memory]
      exact hm
    | branch => exact absurd hr.waited h.2.notReceving
    | branchRecv r => exact absurd h hasked
    | branchGot r => exact absurd h hwaiting
    | getRecv pid => exact absurd h hasked
    | gotProc pid => exact absurd h hwaiting
    | allocRecv pid parent => exact absurd h hasked
    | allocated pid parent => exact absurd h hwaiting
    | exiting pid => exact absurd h.2 hns
    | sendBack dest => exact absurd h.2 hns
    | getSend pid => exact absurd h.2 hns
    | allocSend pid parent => exact absurd h.2 hns
    | failReply pid => exact absurd h.2 hns
    | replyParent pid parent child => exact absurd h.2 hns
    | replyChild parent child => exact absurd h.2 hns
    | clear parent child => exact absurd h.2 hns
  cases hcall.bystander t.mm hmm with
  | untouched hu =>
    exact h.mono (hkept hset.own_msg hu) (hkept hset.own_call hu) hidle hserving
      fun _ => FreeEntry.process hcall
  | handed q m hq hfrom hto hadm hr =>
    have hqs : q ≠ systaskPid := fun he => hne (he ▸ hq)
    refine hwoken hr (by rw [hfrom]; exact hqs) ?_
    rcases hadm with ha | ha
    · rw [ha]
      decide
    · rw [ha]
      exact hqs
  | noticed m hc hm hadm hr =>
    refine hwoken hr (by rw [hm]; exact hset.procInterrupt_ne.2) ?_
    rcases hadm with ha | ha <;> rw [ha] <;> decide
  | fetched r hr hto hawake =>
    have hrs : r ≠ systaskPid := fun he => hne (he ▸ hr)
    have hns : ¬ s.kernel.Awake t.mm := fun ha => ha.1 hto.1
    have hasked : ∀ {r}, Asked t s r → False := by
      intro r ha
      cases ha with
      | queued _ hto' _ => exact hrs (hto.2.symm.trans hto'.2)
      | served ha _ => exact hns ha
    have hwaiting : ∀ {r}, Waiting t s r → False := by
      intro r ha
      cases ha with
      | asleep hw _ _ => exact hi.notBoth t.mm ⟨hto.1, hw.1⟩
      | answered _ ha _ => exact hns ha
    cases pc with
    | loop => exact ⟨hidle h.1, hawake.2, fun hs => hawake.1 hs.1⟩
    | fetched => exact absurd hto.1 h.2.notSending
    | branch => exact ⟨hidle h.1, hawake.2, fun hs => absurd hs.1 hawake.1⟩
    | branchRecv r => exact absurd h hasked
    | branchGot r => exact absurd h hwaiting
    | exiting pid => exact absurd h.2 hns
    | getRecv pid => exact absurd h hasked
    | gotProc pid => exact absurd h hwaiting
    | allocRecv pid parent => exact absurd h hasked
    | allocated pid parent => exact absurd h hwaiting
    | sendBack dest => exact absurd h.2 hns
    | getSend pid => exact absurd h.2 hns
    | allocSend pid parent => exact absurd h.2 hns
    | failReply pid => exact absurd h.2 hns
    | replyParent pid parent child => exact absurd h.2 hns
    | replyChild parent child => exact absurd h.2 hns
    | clear parent child => exact absurd h.2 hns

end Process

end OmochaOS
