import OmochaOS.Kernel.Effects

/-!
# Who the scheduler picks

The processes form one list, and `scheduler()` goes round it from the running process to the next one
that is not `UNRUNABLE`.  So the running process stays on the list, and a process that stays runnable
is picked after at most as many calls as there are processes between the running one and itself.
-/

namespace OmochaOS

open IntrusiveList

namespace Kernel

variable {k k' : Kernel} {p q r s cur : Pid} {l : List Pid} {fuel : ℕ}

/-- `p` is the running process and passes the test of the scheduler's loop, which sees the low byte of the status. -/
def Runs (k : Kernel) (p : Pid) : Prop := k.procRunning = some p ∧ ¬ k.Unrunable p

instance (k : Kernel) (p : Pid) : Decidable (k.Runs p) := inferInstanceAs (Decidable (_ ∧ _))

/-- `l` is the process list, and the running process is on it. -/
def OnList (k : Kernel) (l : List Pid) : Prop :=
  Chain k.next k.procList l ∧ ∃ c ∈ l, k.procRunning = some c

theorem nextProc_eq : k.nextProc p = cyclicNext k.next k.procList p := by
  cases hn : k.next p <;> simp [nextProc, cyclicNext, hn]

/-- Who is runnable depends on the status words only. -/
theorem unrunable_congr (h : k'.status = k.status) : k'.Unrunable p ↔ k.Unrunable p := by
  rw [Unrunable, Unrunable, h]

/-! ### One call -/

/-- The walk stops at a runnable process, and no later than at a runnable process it meets. -/
theorem schedulerWalk_of_walk {m : ℕ} (hw : CyclicWalk k.next k.procList (m + 1) cur p)
    (hp : ¬ k.Unrunable p) (hf : m + 1 ≤ fuel) :
    ∃ q j, k.schedulerWalk fuel cur = some q ∧ ¬ k.Unrunable q ∧ j ≤ m ∧
      CyclicWalk k.next k.procList j q p := by
  induction m generalizing cur fuel with
  | zero =>
    obtain ⟨c, hc, rfl⟩ := hw
    obtain ⟨fuel, rfl⟩ := Nat.exists_eq_add_of_le' hf
    refine ⟨c, 0, ?_, hp, le_refl 0, rfl⟩
    simp only [schedulerWalk, nextProc_eq, hc, if_neg hp]
  | succ m ih =>
    obtain ⟨c, hc, hcp⟩ := hw
    obtain ⟨fuel, rfl⟩ := Nat.exists_eq_add_of_le' (Nat.le_of_add_left_le hf)
    simp only [schedulerWalk, nextProc_eq, hc]
    by_cases hu : k.Unrunable c
    · obtain ⟨q, j, hq, hqr, hj, hqp⟩ := ih hcp (show m + 1 ≤ fuel by omega)
      rw [if_pos hu]
      exact ⟨q, j, hq, hqr, by omega, hqp⟩
    · rw [if_neg hu]
      exact ⟨c, m + 1, rfl, hu, le_refl _, hcp⟩

/-- **A runnable process gets its turn.**  Whoever runs now, after some calls of the scheduler it is
`p`, if `p` can be reached along the list and is runnable. -/
theorem scheduler_reaches {m : ℕ} (hcur : k.procRunning = some cur)
    (hw : CyclicWalk k.next k.procList (m + 1) cur p) (hp : ¬ k.Unrunable p) (hf : m + 1 ≤ fuel) :
    ∃ n, ((fun k => Kernel.scheduler k fuel)^[n] k).Runs p := by
  induction m using Nat.strong_induction_on generalizing k cur with
  | _ m ih =>
    obtain ⟨q, j, hq, -, hj, hqp⟩ := schedulerWalk_of_walk hw hp hf
    have hstep : k.scheduler fuel = { k with procRunning := some q } := by
      simp only [scheduler, hcur, hq]
    cases j with
    | zero =>
      obtain rfl : q = p := hqp
      refine ⟨1, ?_⟩
      show (k.scheduler fuel).Runs q
      rw [hstep]
      exact ⟨rfl, hp⟩
    | succ j =>
      -- somebody else is picked first, and is closer to `p`
      have hcur' : (k.scheduler fuel).procRunning = some q := by rw [hstep]
      obtain ⟨n, hn⟩ := ih j (by omega) hcur' (by rw [hstep]; exact hqp) (by rw [hstep]; exact hp)
        (by omega)
      exact ⟨n + 1, hn⟩

/-! ### The running process stays on the list -/

/-- The walk stays on the list. -/
theorem schedulerWalk_mem (hc : Chain k.next k.procList l) (hcur : cur ∈ l)
    (hq : k.schedulerWalk fuel cur = some q) : q ∈ l := by
  induction fuel generalizing cur with
  | zero => cases hq
  | succ fuel ih =>
    cases hn : k.nextProc cur with
    | none =>
      simp only [schedulerWalk, hn] at hq
      cases hq
    | some c =>
      have hcl : c ∈ l := hc.cyclicNext_mem hcur (nextProc_eq.symm.trans hn)
      simp only [schedulerWalk, hn] at hq
      split at hq
      · exact ih hcl hq
      · obtain rfl := Option.some.inj hq
        exact hcl

theorem OnList.scheduler (h : k.OnList l) (fuel : ℕ) : (k.scheduler fuel).OnList l := by
  obtain ⟨hc, cur, hcur, hrun⟩ := h
  cases hq : k.schedulerWalk fuel cur with
  | none =>
    have hs : k.scheduler fuel = k := by simp only [Kernel.scheduler, hrun, hq]
    rw [hs]
    exact ⟨hc, cur, hcur, hrun⟩
  | some q =>
    have hs : k.scheduler fuel = { k with procRunning := some q } := by
      simp only [Kernel.scheduler, hrun, hq]
    rw [hs]
    exact ⟨hc, q, schedulerWalk_mem hc hcur hq, rfl⟩

theorem OnList.congr (h : k.OnList l) (hnext : k'.next = k.next) (hlist : k'.procList = k.procList)
    (hrun : k'.procRunning = k.procRunning) : k'.OnList l := by
  unfold OnList
  rw [hnext, hlist, hrun]
  exact h

/-- A process on the list that is runnable gets its turn. -/
theorem OnList.runs (h : k.OnList l) (hp : p ∈ l) (hr : ¬ k.Unrunable p) :
    ∃ fuel n, ((fun k => Kernel.scheduler k fuel)^[n] k).Runs p := by
  obtain ⟨hc, cur, hcur, hrun⟩ := h
  obtain ⟨m, hw⟩ := hc.cyclicWalk hcur hp
  obtain ⟨n, hn⟩ := scheduler_reaches hrun hw hr (le_refl (m + 1))
  exact ⟨m + 1, n, hn⟩

end Kernel

end OmochaOS
