import OmochaOS.Kernel.Dispatch

/-!
# Which process `scheduler` stops at

From the running process the circle of the process list goes through the processes after it, then
from the head through those before it, and comes back to it.  `scheduler()` is meant to stop at the
first process of that circle with no bit of `UNRUNABLE`.  Its loop tests `(status & 0xFF) & UNRUNABLE`,
and `PROC_STATUS_WATING` (`0x100`) and `PROC_STATUS_HANGING` (`0x200`) lie above the byte it looks at:

* `schedulerWalk_eq_find` — the loop stops at the first process of the circle whose low byte has no
  bit of the mask, as soon as there is fuel for the circle;
* `scheduler_chooses_iff` — that is the process it is meant to stop at exactly when every process
  passed over on the way has a bit of the mask in its low byte;
* `scheduler_picks_waiting` — a process that waits for a child, and for nothing else, is picked.
-/

namespace OmochaOS

open IntrusiveList

namespace Kernel

variable {k : Kernel} {cur p : Pid} {l l₁ l₂ : List Pid} {fuel : ℕ}

/-- The status of `p` has a bit of `UNRUNABLE`, wherever it lies. -/
def Blocked (k : Kernel) (p : Pid) : Prop := k.Is p unrunable

instance (k : Kernel) (p : Pid) : Decidable (k.Blocked p) := inferInstanceAs (Decidable (k.Is _ _))

/-- What the loop sees in the low byte is there. -/
theorem Unrunable.blocked (h : k.Unrunable p) : k.Blocked p := by
  obtain ⟨i, hi, hm⟩ := BitFlags.has_iff_exists.mp h
  rw [BitVec.getLsbD_and, Bool.and_eq_true] at hi
  exact BitFlags.has_iff_exists.mpr ⟨i, hi.1, hm⟩

/-- **The loop is a search.**  Along the circle it finds the first process it takes for runnable. -/
theorem schedulerWalk_eq_find (hpath : CyclicPath k.next k.procList cur l)
    (hsome : ∃ q ∈ l, ¬ k.Unrunable q) (hf : l.length ≤ fuel) :
    k.schedulerWalk fuel cur = l.find? fun q => ¬ k.Unrunable q := by
  induction l generalizing cur fuel with
  | nil =>
    obtain ⟨q, hq, -⟩ := hsome
    simp at hq
  | cons c l ih =>
    obtain ⟨hc, hpath⟩ := hpath
    obtain ⟨fuel, rfl⟩ := Nat.exists_eq_add_of_le' (Nat.one_le_of_lt hf)
    simp only [schedulerWalk, nextProc_eq, hc]
    by_cases hu : k.Unrunable c
    · have hsome' : ∃ q ∈ l, ¬ k.Unrunable q := by
        obtain ⟨q, hq, hqr⟩ := hsome
        rcases List.mem_cons.mp hq with rfl | hql
        · exact absurd hu hqr
        · exact ⟨q, hql, hqr⟩
      rw [if_pos hu, ih hpath hsome' (Nat.le_of_succ_le_succ hf)]
      simp [hu]
    · simp [hu]

/-- `p` is the first process of `order` with no bit of `UNRUNABLE`. -/
structure FirstFree (k : Kernel) (order : List Pid) (p : Pid) : Prop where
  free : ¬ k.Blocked p
  first : ∃ passed rest, order = passed ++ p :: rest ∧ ∀ q ∈ passed, k.Blocked q

/-- `scheduler` ends, and then the first process of `order` with no bit of `UNRUNABLE` runs. -/
def Chooses (k : Kernel) (order : List Pid) : Prop :=
  ∃ n, ∀ fuel ≥ n, ∃ p, (k.scheduler fuel).procRunning = some p ∧ k.FirstFree order p

/-- A process with no bit of `UNRUNABLE` on the list gives a first one. -/
theorem exists_firstFree (hsome : ∃ q ∈ l, ¬ k.Blocked q) :
    ∃ p passed rest, l = passed ++ p :: rest ∧ ¬ k.Blocked p ∧ (∀ q ∈ passed, k.Blocked q) ∧
      passed = l.takeWhile fun q => k.Blocked q := by
  induction l with
  | nil =>
    obtain ⟨q, hq, -⟩ := hsome
    simp at hq
  | cons c l ih =>
    by_cases hc : k.Blocked c
    · have hsome' : ∃ q ∈ l, ¬ k.Blocked q := by
        obtain ⟨q, hq, hqr⟩ := hsome
        rcases List.mem_cons.mp hq with rfl | hql
        · exact absurd hc hqr
        · exact ⟨q, hql, hqr⟩
      obtain ⟨p, passed, rest, rfl, hp, hall, htake⟩ := ih hsome'
      refine ⟨p, c :: passed, rest, rfl, hp, List.forall_mem_cons.mpr ⟨hc, hall⟩, ?_⟩
      rw [List.takeWhile_cons, if_pos (by simpa using hc), ← htake]
    · refine ⟨c, [], l, rfl, hc, by simp, ?_⟩
      rw [List.takeWhile_cons, if_neg (by simpa using hc)]

/-- What the search finds is the first free process exactly when the processes before that one are
all seen to be unrunnable. -/
theorem find_firstFree_iff {passed : List Pid} (rest : List Pid) (hp : ¬ k.Blocked p)
    (hall : ∀ q ∈ passed, k.Blocked q) :
    (∃ q, (passed ++ p :: rest).find? (fun q => ¬ k.Unrunable q) = some q ∧
      k.FirstFree (passed ++ p :: rest) q) ↔ ∀ q ∈ passed, k.Unrunable q := by
  constructor
  · rintro ⟨q, hq, hfree⟩
    obtain ⟨-, seen, later, hsplit, hseen⟩ := List.find?_eq_some_iff_append.mp hq
    have hseen : ∀ x ∈ seen, k.Unrunable x := fun x hx => by simpa using hseen x hx
    -- `q` is free, so it is none of the processes passed over
    rcases List.append_eq_append_iff.mp hsplit with ⟨m, rfl, -⟩ | ⟨m, rfl, hm⟩
    · exact fun x hx => hseen x (List.mem_append_left m hx)
    · cases m with
      | nil => exact fun x hx => hseen x (by simpa using hx)
      | cons y m =>
        obtain rfl : q = y := (List.cons.inj hm).1
        exact absurd (hall q (by simp)) hfree.free
  · intro hlow
    refine ⟨p, ?_, hp, passed, rest, rfl, hall⟩
    refine List.find?_eq_some_iff_append.mpr ⟨?_, passed, rest, rfl, fun x hx => ?_⟩
    · simpa using fun hu : k.Unrunable p => hp hu.blocked
    · simpa using hlow x hx

/-- **When the scheduler chooses rightly.**  On a list with a free process, it ends and leaves
`proc_running` at the first free one after the current process exactly when every process it passes
over on the way there has a bit of `UNRUNABLE` in the low byte of its status. -/
theorem scheduler_chooses_iff (hlist : Chain k.next k.procList (l₁ ++ cur :: l₂))
    (hrun : k.procRunning = some cur) (hsome : ∃ p ∈ l₁ ++ cur :: l₂, ¬ k.Blocked p) :
    k.Chooses (l₂ ++ (l₁ ++ [cur])) ↔
      ∀ p ∈ (l₂ ++ (l₁ ++ [cur])).takeWhile fun p => k.Blocked p, k.Unrunable p := by
  have hpath := hlist.cyclicPath
  have hmem : ∃ q ∈ l₂ ++ (l₁ ++ [cur]), ¬ k.Blocked q := by
    obtain ⟨q, hq, hfree⟩ := hsome
    refine ⟨q, ?_, hfree⟩
    simp only [List.mem_append, List.mem_cons, List.not_mem_nil, or_false] at hq ⊢
    tauto
  generalize l₂ ++ (l₁ ++ [cur]) = order at hpath hmem ⊢
  obtain ⟨p, passed, rest, rfl, hp, hall, htake⟩ := exists_firstFree hmem
  rw [← htake, ← find_firstFree_iff rest hp hall]
  have hend : ∃ q ∈ passed ++ p :: rest, ¬ k.Unrunable q :=
    ⟨p, by simp, fun hu => hp hu.blocked⟩
  obtain ⟨q, hq⟩ : ∃ q, (passed ++ p :: rest).find? (fun q => ¬ k.Unrunable q) = some q := by
    apply Option.isSome_iff_exists.mp
    obtain ⟨q, hq, hqr⟩ := hend
    exact List.find?_isSome.mpr ⟨q, hq, decide_eq_true hqr⟩
  have hstop : ∀ fuel ≥ (passed ++ p :: rest).length, (k.scheduler fuel).procRunning = some q := by
    intro fuel hf
    have hwalk := schedulerWalk_eq_find hpath hend hf
    rw [hq] at hwalk
    simp only [scheduler, hrun, hwalk]
  constructor
  · rintro ⟨n, hn⟩
    obtain ⟨r, hr, hfree⟩ := hn _ (Nat.le_max_left n (passed ++ p :: rest).length)
    rw [hstop _ (Nat.le_max_right n _)] at hr
    obtain rfl := Option.some.inj hr
    exact ⟨q, hq, hfree⟩
  · rintro ⟨r, hr, hfree⟩
    obtain rfl := Option.some.inj (hq.symm.trans hr)
    exact ⟨_, fun fuel hf => ⟨q, hstop fuel hf, hfree⟩⟩

/-- Three processes in a row, number 0 running; number 1 has the status `s`. -/
def demoList (s : BitVec 32) : Kernel where
  procTable p :=
    { (default : Process) with
      next := if p = 0 then some 1 else if p = 1 then some 2 else none
      status := if p = 1 then s else procStatusRunning }
  procList := some 0
  procRunning := some 0
  memory _ := default
  vir2phy _ va := va
  interruptSuscribed _ := 0
  interruptSuscribedData _ := default
  exceptionSuscribed _ := 0
  exceptionSuscribedData _ := default
  screen := []

theorem demoList_chain (s : BitVec 32) :
    Chain (demoList s).next (demoList s).procList ([] ++ 0 :: [1, 2]) :=
  Chain.cons (Chain.cons (Chain.cons Chain.nil))

/-- A process that waits for a message is passed over. -/
theorem scheduler_chooses_iff_demo :
    (demoList procStatusReceving).Chooses ([1, 2] ++ ([] ++ [0])) :=
  (scheduler_chooses_iff (demoList_chain _) rfl ⟨2, by simp, by decide⟩).mpr (by decide)

/-- **A waiting process runs.**  Process 1 waits for a child and the other two are runnable, but it is
process 1 that `scheduler` picks. -/
theorem scheduler_picks_waiting :
    (∃ p ∈ [] ++ 0 :: [1, 2], ¬ (demoList procStatusWating).Blocked p) ∧
      (demoList procStatusWating).Blocked 1 ∧
      ((demoList procStatusWating).scheduler 3).procRunning = some 1 ∧
      ¬ (demoList procStatusWating).Chooses ([1, 2] ++ ([] ++ [0])) := by
  have hstop : ∀ fuel, ((demoList procStatusWating).scheduler (fuel + 1)).procRunning = some 1 :=
    fun _ => rfl
  refine ⟨⟨2, by simp, by decide⟩, by decide, hstop 2, fun ⟨n, hn⟩ => ?_⟩
  obtain ⟨p, hp, hfree⟩ := hn (n + 1) (Nat.le_succ n)
  rw [hstop n] at hp
  obtain rfl := Option.some.inj hp
  exact hfree.free (by decide)

end Kernel

end OmochaOS
