import OmochaOS.Ipc.Fault

/-!
# A runnable process gets its turn

System calls, notifications, timer ticks and faults come in any order, and some of them call the scheduler.
The number of circular steps from the running process to a process that stays runnable never grows, and
each tick makes it smaller (`Near`): a run with as many ticks as there are processes has a state in which that
process runs (`runnable_runs`).
-/

namespace OmochaOS

open IntrusiveList TransitionRun Kernel

variable {w : World} {k k' k₀ : Kernel} {p q r s cur : Pid} {va : VAddr} {f fuel n : ℕ} {e : Event}
  {l : List Pid}

/-! ### Steps and the scheduler -/

/-- The process list and the running process are the same. -/
structure SameTurn (k k' : Kernel) : Prop where
  next : k'.next = k.next
  procList : k'.procList = k.procList
  procRunning : k'.procRunning = k.procRunning

/-- Nobody else runs but by a call of the scheduler, which comes last. -/
def Scheduled (k k' : Kernel) : Prop :=
  SameTurn k k' ∨ ∃ k₁ fuel, SameTurn k k₁ ∧ k' = k₁.scheduler fuel

theorem SameTurn.trans {k₁ k₂ k₃ : Kernel} (h : SameTurn k₁ k₂) (h' : SameTurn k₂ k₃) : SameTurn k₁ k₃ where
  next := h'.next.trans h.next
  procList := h'.procList.trans h.procList
  procRunning := h'.procRunning.trans h.procRunning

theorem Scheduled.after {k₁ : Kernel} (h : SameTurn k k₁) (h' : Scheduled k₁ k') : Scheduled k k' := by
  rcases h' with h' | ⟨k₂, fuel, h', rfl⟩
  · exact Or.inl (h.trans h')
  · exact Or.inr ⟨k₂, fuel, h.trans h', rfl⟩

theorem sameTurn_setStatus {st : BitVec 32} : SameTurn k (k.setStatus p st) := ⟨by simp, rfl, rfl⟩

theorem sameTurn_sendInterruptMsg {irq : ℕ} : SameTurn k (k.sendInterruptMsg irq p) := by
  rw [Kernel.sendInterruptMsg]
  split
  · exact ⟨woken_wakeWith.fixed.next, rfl, rfl⟩
  · exact sameTurn_setStatus.trans ⟨rfl, rfl, rfl⟩

theorem sameTurn_sendExceptionMsg {exc data : ℕ} : SameTurn k (k.sendExceptionMsg exc data p) := by
  rw [Kernel.sendExceptionMsg]
  split
  · exact ⟨woken_wakeWith.fixed.next, rfl, rfl⟩
  · exact sameTurn_setStatus.trans ⟨rfl, rfl, rfl⟩

theorem sameTurn_unlinkSender (h : unlinkSender fuel k r s = some k') : SameTurn k k' := by
  have hnext := (unlinkSender_cases h).1.fixed.next
  rw [unlinkSender] at h
  split at h
  · exact Option.some.inj h ▸ ⟨Option.some.inj h ▸ hnext, rfl, rfl⟩
  · exact Option.some.inj h ▸ ⟨Option.some.inj h ▸ hnext, rfl, rfl⟩
  · exact Option.some.inj h ▸ ⟨Option.some.inj h ▸ hnext, rfl, rfl⟩
  · cases h
  · cases h

theorem scheduled_queneSender (h : queneSender fuel k s va r = some k') : Scheduled k k' := by
  rw [queneSender] at h
  obtain ⟨k₂, hk₂, rfl⟩ := Option.map_eq_some_iff.mp h
  have h₁ : SameTurn k ((k.setPMsg s va).block s procStatusNormal procStatusSending) :=
    ⟨(fixed_setPMsg.trans fixed_setStatus).next, rfl, rfl⟩
  have h₂ : SameTurn ((k.setPMsg s va).block s procStatusNormal procStatusSending) k₂ := by
    rw [appendQuene] at hk₂
    split at hk₂
    · obtain ⟨t, -, rfl⟩ := Option.map_eq_some_iff.mp hk₂
      exact ⟨fixed_setQueneBody.next, rfl, rfl⟩
    · rw [← Option.some.inj hk₂]
      exact ⟨fixed_setQueneHead.next, rfl, rfl⟩
  exact Or.inr ⟨_, fuel, (h₁.trans h₂).trans ⟨fixed_setQueneBody.next, rfl, rfl⟩, rfl⟩

theorem sameTurn_recvInterrupt {msg : PAddr} : SameTurn k (k.recvInterrupt p msg) := by
  refine ⟨noticed_recvInterrupt.fixed.next, ?_, ?_⟩ <;>
    · rw [Kernel.recvInterrupt]
      simp only
      split <;> rfl

theorem sameTurn_recvException {msg : PAddr} : SameTurn k (k.recvException p msg) := by
  refine ⟨noticed_recvException.fixed.next, ?_, ?_⟩ <;>
    · rw [Kernel.recvException]
      simp only
      split <;> rfl

theorem scheduled_recvQuened (h : recvQuened fuel k p va f = some k') : Scheduled k k' := by
  rcases recvQuened_cases h with ⟨rfl, -⟩ | ⟨-, s, -, rfl⟩ | ⟨-, -, -, k₁, hk₁, rfl⟩
  · refine Or.inr ⟨_, fuel, ?_, rfl⟩
    exact ⟨((fixed_writeMsg.trans fixed_setPMsg).trans fixed_setStatus).next, rfl, rfl⟩
  · exact Or.inl ⟨(unlinked_setQueneHead.fixed.trans taken_takeMsg.fixed).next, rfl, rfl⟩
  · exact Or.inl ((sameTurn_unlinkSender hk₁).trans ⟨taken_takeMsg.fixed.next, rfl, rfl⟩)

/-- **No event moves the running process but by the scheduler.** -/
theorem Step.scheduled (hstep : Step w k e k') : Scheduled k k' := by
  cases hstep with
  | user hlive hawake hown => exact Or.inl ⟨rfl, rfl, rfl⟩
  | @send k' fuel p va hlive hawake hbuf hto hcall =>
    obtain ⟨names, -, hcases⟩ := sendMsg_cases hcall
    have hstamp : SameTurn k ((k.stampSender p va).print names) := ⟨rfl, rfl, rfl⟩
    rcases hcases with ⟨-, rfl⟩ | ⟨-, hq⟩
    · exact Or.inl (hstamp.trans ⟨woken_deliver.fixed.next, rfl, rfl⟩)
    · exact (scheduled_queneSender hq).after hstamp
  | @recv k' fuel p va f hlive hawake hbuf hfilter hcall =>
    have hstamp : SameTurn k (k.stampReceiver p va) := ⟨rfl, rfl, rfl⟩
    rcases recvMsg_cases hcall with ⟨-, rfl⟩ | ⟨-, -, -, rfl⟩ | ⟨-, -, -, -, rfl⟩ | ⟨-, -, -, hq⟩
    · exact Or.inl hstamp
    · exact Or.inl (hstamp.trans sameTurn_recvInterrupt)
    · exact Or.inl (hstamp.trans sameTurn_recvException)
    · exact (scheduled_recvQuened hq).after hstamp
  | interrupt hlive hirq => exact Or.inl sameTurn_sendInterruptMsg
  | exception hlive hexc => exact Or.inl sameTurn_sendExceptionMsg

theorem scheduled_forwardException {trapNo cr2 intf : ℕ} :
    Scheduled k (forwardException fuel k p trapNo cr2 intf) := by
  refine Or.inr ⟨_, fuel, ?_, rfl⟩
  have hclear : SameTurn k (k.setStatus p (k.status p &&& procStatusError)) := sameTurn_setStatus
  refine SameTurn.trans ?_ sameTurn_sendExceptionMsg
  split
  · exact hclear.trans ⟨by simp, rfl, rfl⟩
  · exact hclear

theorem FaultStep.scheduled {fe : FaultEvent} (hstep : FaultStep w k fe k') : Scheduled k k' := by
  cases hstep with
  | ipc hstep => exact hstep.scheduled
  | timer hcall =>
    rw [interruptHandler_timer] at hcall
    exact Or.inr ⟨k, _, ⟨rfl, rfl, rfl⟩, (Option.some.inj hcall).symm⟩
  | fault hruns hexc hsus hcall =>
    rw [interruptHandler_exception hexc hsus] at hcall
    rw [← Option.some.inj hcall]
    exact scheduled_forwardException
  | serve => exact Or.inl sameTurn_setStatus

/-! ### The way to a process -/

/-- From the running process at most `n + 1` circular steps lead to `p`. -/
def Kernel.Near (k : Kernel) (p : Pid) (n : ℕ) : Prop :=
  ∃ cur, k.procRunning = some cur ∧ ∃ j ≤ n, CyclicWalk k.next k.procList (j + 1) cur p

theorem SameTurn.near (h : SameTurn k k') (hn : k.Near p n) : k'.Near p n := by
  rw [Kernel.Near, h.next, h.procList, h.procRunning]
  exact hn

/-- Whoever the walk stops at, with any fuel, is no farther from `p`. -/
theorem schedulerWalk_near {m : ℕ} (hw : CyclicWalk k.next k.procList (m + 1) cur p) (hp : ¬ k.Unrunable p)
    (hq : k.schedulerWalk fuel cur = some q) : ∃ j ≤ m, CyclicWalk k.next k.procList j q p := by
  induction m generalizing cur fuel with
  | zero =>
    obtain ⟨c, hc, rfl⟩ := hw
    cases fuel with
    | zero => cases hq
    | succ fuel =>
      simp only [schedulerWalk, nextProc_eq, hc, if_neg hp, Option.some.injEq] at hq
      exact ⟨0, Nat.le_refl 0, hq.symm⟩
  | succ m ih =>
    obtain ⟨c, hc, hcp⟩ := hw
    cases fuel with
    | zero => cases hq
    | succ fuel =>
      simp only [schedulerWalk, nextProc_eq, hc] at hq
      split at hq
      · obtain ⟨j, hj, hwalk⟩ := ih hcp hq
        exact ⟨j, by omega, hwalk⟩
      · rw [Option.some.injEq] at hq
        exact ⟨m + 1, Nat.le_refl _, hq ▸ hcp⟩

/-- The processes that run after a call of the scheduler. -/
theorem scheduler_of_walk (hcur : k.procRunning = some cur) (hq : k.schedulerWalk fuel cur = some q) :
    k.scheduler fuel = { k with procRunning := some q } := by
  simp only [scheduler, hcur, hq]

theorem Kernel.Near.scheduler (hn : k.Near p n) (hp : ¬ k.Unrunable p) (fuel : ℕ) :
    (k.scheduler fuel).procRunning = some p ∨ (k.scheduler fuel).Near p n := by
  obtain ⟨cur, hcur, m, hm, hw⟩ := hn
  cases hq : k.schedulerWalk fuel cur with
  | none =>
    have hsame : k.scheduler fuel = k := by simp only [Kernel.scheduler, hcur, hq]
    rw [hsame]
    exact Or.inr ⟨cur, hcur, m, hm, hw⟩
  | some q =>
    rw [scheduler_of_walk hcur hq]
    obtain ⟨j, hj, hwalk⟩ := schedulerWalk_near hw hp hq
    cases j with
    | zero => exact Or.inl (congrArg some hwalk)
    | succ j => exact Or.inr ⟨q, rfl, j, by omega, hwalk⟩

/-- **One tick.**  A runnable process is picked, and it is `p` or closer to `p`. -/
theorem Kernel.Near.tick (hn : k.Near p n) (hp : ¬ k.Unrunable p) (hfuel : n < fuel) :
    (∃ q, (k.scheduler fuel).Runs q) ∧
      ((k.scheduler fuel).procRunning = some p ∨ ∃ m < n, (k.scheduler fuel).Near p m) := by
  obtain ⟨cur, hcur, m, hm, hw⟩ := hn
  obtain ⟨q, j, hq, hrunable, hj, hwalk⟩ := schedulerWalk_of_walk hw hp (by omega : m + 1 ≤ fuel)
  rw [scheduler_of_walk hcur hq]
  refine ⟨⟨q, rfl, hrunable⟩, ?_⟩
  cases j with
  | zero => exact Or.inl (congrArg some hwalk)
  | succ j => exact Or.inr ⟨j, by omega, q, rfl, j, Nat.le_refl j, hwalk⟩

theorem Scheduled.near (h : Scheduled k k') (hn : k.Near p n) (hp : ¬ k'.Unrunable p) :
    k'.procRunning = some p ∨ k'.Near p n := by
  rcases h with h | ⟨k₁, fuel, h, rfl⟩
  · exact Or.inr (h.near hn)
  · rw [unrunable_congr (scheduler_readers fuel).1] at hp
    exact (h.near hn).scheduler hp fuel

theorem Kernel.OnList.near (h : k.OnList l) (hp : p ∈ l) : ∃ n < l.length, k.Near p n := by
  obtain ⟨hc, cur, hcur, hrun⟩ := h
  obtain ⟨n, hn, hw⟩ := hc.cyclicWalk_le hcur hp
  exact ⟨n, hn, cur, hrun, n, Nat.le_refl n, hw⟩

/-! ### Runs -/

/-- A timer tick with fuel for the whole list. -/
def FaultEvent.isTick (n : ℕ) : FaultEvent → Bool
  | .timer fuel => n ≤ fuel
  | _ => false

/-- **A runnable process gets its turn.**  In a run that leaves `p` runnable, each tick hands the processor to
a runnable process, and among as many ticks as there are processes `p` runs. -/
theorem runnable_runs (w : World) (k₀ k : Kernel) (l : List Pid) (p : Pid) (tr : List (Transition Kernel FaultEvent))
    (h₀ : k₀.OnList l) (hp : p ∈ l) (hrun : Run (FaultStep w) k₀ tr k)
    (hfree : ∀ x ∈ tr, ¬ x.target.Unrunable p) :
    (∀ x ∈ tr, x.label.isTick l.length = true → ∃ q, x.target.Runs q) ∧
      (l.length ≤ (tr.filter fun x => x.label.isTick l.length).length → ∃ x ∈ tr, x.target.Runs p) := by
  have htick : ∀ s fe t n, Kernel.Near s p n → FaultStep w s fe t → ¬ t.Unrunable p → n < l.length →
      fe.isTick l.length = true → (∃ q, t.Runs q) ∧ (t.Runs p ∨ ∃ m < n, t.Near p m) := by
    intro s fe t n hn hstep hrunable hlt hl
    cases hstep with
    | @timer _ fuel hcall =>
      rw [interruptHandler_timer, Option.some.injEq] at hcall
      subst hcall
      have hp' := hrunable
      rw [unrunable_congr (scheduler_readers fuel).1] at hp'
      obtain ⟨hq, hnear⟩ := hn.tick hp' (lt_of_lt_of_le hlt (of_decide_eq_true hl))
      exact ⟨hq, hnear.imp_left fun hcur => ⟨hcur, hrunable⟩⟩
    | ipc => cases hl
    | fault => cases hl
    | serve => cases hl
  constructor
  · intro x hx hl
    obtain ⟨hsource, -⟩ := hrun.invariant_of_mem h₀ (fun _ _ _ h hstep => FaultStep.onList hstep h) hx
    obtain ⟨n, hlt, hn⟩ := hsource.near hp
    exact (htick _ _ _ n hn (hrun.step_of_mem hx).1 (hfree x hx) hlt hl).1
  · intro hmany
    obtain ⟨d, hd, hnear⟩ := h₀.near hp
    obtain ⟨x, hx, hgoal⟩ := hrun.reaches (fun n s => n < l.length ∧ s.Near p n) (fun t => t.Runs p)
      (C := fun _ _ t => ¬ t.Unrunable p) ⟨hd, hnear⟩
      (fun s fe t n hn hstep hrunable =>
        (hstep.scheduled.near hn.2 hrunable).imp (fun hcur => ⟨hcur, hrunable⟩) fun hn' => ⟨hn.1, hn'⟩)
      (fun s fe t n hn hstep hrunable hl =>
        (htick s fe t n hn.2 hstep hrunable hn.1 hl).2.imp_right fun ⟨m, hm, hn'⟩ => ⟨m, hm, lt_trans hm hn.1, hn'⟩)
      hfree (lt_of_lt_of_le hd hmany)
    exact ⟨x, hx, hgoal⟩

/-- A fault of process 2 and four ticks. -/
theorem runnable_runs_demo : ∃ tr k, Run (FaultStep demoWorld) faultKernel tr k ∧
    tr.map Transition.label = [.fault 4 2 exceptionPF 4096 0, .timer 4, .timer 4, .timer 4, .timer 4] ∧
      ∃ x ∈ tr, x.target.Runs 1 := by
  have htick : ∀ k : Kernel, FaultStep demoWorld k (.timer 4) (k.scheduler 4) :=
    fun _ => .timer interruptHandler_timer
  have hrun := ((((Run.start.extend fault_forwarded).extend (htick _)).extend (htick _)).extend (htick _)).extend
    (htick _)
  have hfree : ∀ k : Kernel, ¬ k.Unrunable 1 → ¬ (k.scheduler 4).Unrunable 1 := by
    intro k hk
    rw [unrunable_congr (scheduler_readers 4).1]
    exact hk
  have h₁ : ¬ faultForwarded.Unrunable 1 := by decide
  have h₂ := hfree _ h₁
  have h₃ := hfree _ h₂
  have h₄ := hfree _ h₃
  have hturn := runnable_runs demoWorld faultKernel _ [0, 1, 2, 3] 1 _ onList_faultKernel (by decide) hrun (by
    simp only [List.nil_append, List.cons_append, List.forall_mem_cons, List.not_mem_nil, false_implies, implies_true,
      and_true]
    exact ⟨h₁, h₂, h₃, h₄, hfree _ h₄⟩)
  exact ⟨_, _, hrun, rfl, hturn.2 (by decide)⟩

end OmochaOS
