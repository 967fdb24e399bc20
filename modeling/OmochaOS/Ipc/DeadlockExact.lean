import OmochaOS.Ipc.Deadlock

/-!
# What the deadlock check finds

Whether the send is one of a run or not: over a process table of `n` entries without circles the walk of
`__is_dead_lock` ends, and its verdict is whether the blocked senders lead from the receiver to the
caller.
-/

namespace OmochaOS

open Kernel AcyclicRelation Relation

variable {k : Kernel} {n : ℕ} {p q src dest : Pid}

/-- The edges of the wait-for graph of a process table with `n` entries. -/
def Kernel.TableEdge (k : Kernel) (n : ℕ) (p q : Pid) : Prop := p < n ∧ k.SendingTo p q

/-- A process table: every entry has its index for a pid, and messages are sent to entries. -/
structure Kernel.Table (k : Kernel) (n : ℕ) : Prop where
  pid_eq : ∀ p < n, k.pid p = p
  receiver_lt : ∀ p < n, k.Sending p → (k.pending p).receiver < n

theorem Kernel.Table.edge_lt (ht : k.Table n) (h : k.TableEdge n p q) : q < n := by
  obtain ⟨hp, hs, hq⟩ := h
  rw [← hq]
  exact ht.receiver_lt p hp hs

theorem sendingTo_of_path (h : ReflTransGen (k.TableEdge n) p q) : ReflTransGen k.SendingTo p q :=
  ReflTransGen.mono (fun _ _ he => he.2) _ _ h

/-- One step of the walk: from a blocked process the only way on is to the receiver of its message. -/
theorem transGen_tableEdge_iff (hp : p < n) (hs : k.Sending p) (hne : (k.pending p).receiver ≠ src) :
    TransGen (k.TableEdge n) p src ↔ TransGen (k.TableEdge n) (k.pending p).receiver src := by
  have hedge : k.TableEdge n p (k.pending p).receiver := ⟨hp, hs, rfl⟩
  constructor
  · intro h
    obtain ⟨r, hpr, hrs⟩ := TransGen.head'_iff.mp h
    rw [← hpr.2.2] at hrs
    rcases reflTransGen_iff_eq_or_transGen.mp hrs with heq | hpath
    · exact absurd heq.symm hne
    · exact hpath
  · exact fun h => h.head hedge

/-- **The loop of the deadlock check**, from every process that it can reach. -/
theorem deadLockWalk_exact (ht : k.Table n) (hac : Acyclic (k.TableEdge n)) (hsrc : src < n)
    (p : Pid) (hp : p < n) (hpath : ReflTransGen (k.TableEdge n) dest p) :
    ∃ N, ∀ m fuel, N ≤ m → N ≤ fuel → ∃ verdict names,
      deadLockWalk k fuel src dest m p = some (verdict, names) ∧
        (verdict = true ↔ TransGen (k.TableEdge n) p src) := by
  have hfin : {p | p < n}.Finite := Set.finite_lt_nat n
  induction p using hac.induction hfin fun a b hab => ⟨hab.1, ht.edge_lt hab⟩ with
  | hstep p ih =>
    by_cases hs : k.Is p procStatusSending
    · have hpx : k.TableEdge n p (k.pending p).receiver := ⟨hp, hs, rfl⟩
      by_cases hfound : (k.pending p).receiver = src
      · -- the caller itself is reached: the chain is printed
        rw [hfound] at hpx
        obtain ⟨N, hN⟩ := printSendChain_ends (ht.pid_eq src hsrc) hpx.2 (sendingTo_of_path hpath)
        refine ⟨N + 1, fun m fuel hm hf => ?_⟩
        obtain ⟨m, rfl⟩ := Nat.exists_eq_add_of_le' (Nat.le_of_add_left_le hm)
        obtain ⟨names, hnames⟩ := Option.isSome_iff_exists.mp (hN fuel (by omega))
        refine ⟨true, k.name dest :: names, ?_, ?_⟩
        · simp only [deadLockWalk, if_pos hs, if_pos hfound, hnames, Option.map_some]
        · exact iff_of_true rfl (TransGen.single hpx)
      · obtain ⟨N, hN⟩ := ih _ hpx (ht.edge_lt hpx) (hpath.tail hpx)
        refine ⟨N + 1, fun m fuel hm hf => ?_⟩
        obtain ⟨m, rfl⟩ := Nat.exists_eq_add_of_le' (Nat.le_of_add_left_le hm)
        obtain ⟨verdict, names, hcall, hverdict⟩ := hN m fuel (by omega) (by omega)
        refine ⟨verdict, names, ?_, ?_⟩
        · simp only [deadLockWalk, if_pos hs, if_neg hfound]
          exact hcall
        · rw [transGen_tableEdge_iff hp hs hfound]
          exact hverdict
    · refine ⟨1, fun m fuel hm _ => ?_⟩
      obtain ⟨m, rfl⟩ := Nat.exists_eq_add_of_le' hm
      refine ⟨false, [], ?_, ?_⟩
      · simp only [deadLockWalk, if_neg hs]
      · refine iff_of_false Bool.false_ne_true fun h => ?_
        obtain ⟨q, hpq, -⟩ := TransGen.head'_iff.mp h
        exact hs hpq.2.1

/-- **Deadlock detection is exact.**  The check ends, and it answers true just when one or more blocked
senders lead from `dest` to `src`, which is when a message from `src` to `dest` would close a circle. -/
theorem isDeadLock_exact (ht : k.Table n) (hac : Acyclic (k.TableEdge n)) (hsrc : src < n)
    (hdest : dest < n) (hne : src ≠ dest) :
    ∃ N, ∀ fuel, N ≤ fuel → ∃ verdict names, isDeadLock fuel k src dest = some (verdict, names) ∧
      (verdict = true ↔ TransGen (k.TableEdge n) dest src) ∧
      (verdict = true ↔ ¬ Acyclic (insertEdge (k.TableEdge n) src dest)) := by
  obtain ⟨N, hN⟩ := deadLockWalk_exact ht hac hsrc dest hdest ReflTransGen.refl
  refine ⟨N, fun fuel hf => ?_⟩
  obtain ⟨verdict, names, hcall, hverdict⟩ := hN fuel fuel hf hf
  refine ⟨verdict, names, hcall, hverdict, ?_⟩
  have hpath : ReflTransGen (k.TableEdge n) dest src ↔ TransGen (k.TableEdge n) dest src := by
    rw [reflTransGen_iff_eq_or_transGen]
    exact or_iff_right hne
  rw [hverdict, acyclic_insertEdge_iff, hpath]
  simp [hac]

/-- Only number 1 is blocked, by a message to number 2. -/
theorem demo_tableEdge (h : demoCrossed.TableEdge 3 p q) : p = 1 ∧ q = 2 := by
  obtain ⟨hp, hs, rfl⟩ := h
  have hall : ∀ p < 3, demoCrossed.Sending p → p = 1 ∧ (demoCrossed.pending p).receiver = 2 := by decide
  exact hall p hp hs

theorem demo_acyclic : Acyclic (demoCrossed.TableEdge 3) := by
  intro p hp
  obtain ⟨q, hpq, hqp⟩ := TransGen.head'_iff.mp hp
  obtain ⟨rfl, rfl⟩ := demo_tableEdge hpq
  rcases hqp.cases_head with heq | ⟨r, hr, -⟩
  · cases heq
  · cases (demo_tableEdge hr).1

/-- Number 2 wants to answer number 1, which waits for it. -/
theorem isDeadLock_exact_demo : ∃ N, ∀ fuel, N ≤ fuel → ∃ verdict names,
    isDeadLock fuel demoCrossed 2 1 = some (verdict, names) ∧
      (verdict = true ↔ TransGen (demoCrossed.TableEdge 3) 1 2) ∧
      (verdict = true ↔ ¬ Acyclic (insertEdge (demoCrossed.TableEdge 3) 2 1)) :=
  isDeadLock_exact ⟨by decide, by decide⟩ demo_acyclic (by decide) (by decide) (by decide)

end OmochaOS
