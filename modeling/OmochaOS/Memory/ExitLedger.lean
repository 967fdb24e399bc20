import OmochaOS.Memory.ExitFamily
import OmochaOS.Memory.ForkProc

/-!
# Exit statuses and those who wait for them (`modules/memory/exit.c`, `memory.c`, `fork.c`)

`Task_Memory` serves forks, exits and waits one after the other, and SysTask comes to the `EXIT_PROC` messages
when it comes to them.  A `Ledger` adds to the process table the accounts of what was asked for.  The table is
that of a `Family`, a step on it is one of the operations on the family or a few of them, and so the accounts
stay even.

* `Kept.serve` — SysTask handles its messages;
* `Kept.exitWalk` — the walk along the list, with SysTask in between;
* `books_of_run` — the accounts after every sequence of requests, whenever SysTask runs.
-/

namespace OmochaOS.Exit

open IntrusiveList BitFlags ProcTable TransitionRun

/-! ### The requests -/

/-- `set_proc_exit`. -/
def ExitState.setProcExit (s : ExitState) (p : Pid) (exitStatus : ℕ) : ExitState :=
  s.modProc p fun proc =>
    { proc with exitStatus := exitStatus, status := procStatusHanging ||| procStatusStop }

/-- What `free_proc` writes in the entry. -/
def ExitState.freeProc (s : ExitState) (p : Pid) : ExitState :=
  s.modProc p fun proc => { proc with pstackSize := 0, pstack := 0, progInfo := none }

/-- `MEM_EXIT_PROC`. -/
def exitRequest (fuel : ℕ) (sched : ℕ → Bool) (p : Pid) (exitStatus : ℕ) (s : ExitState) : Option ExitState :=
  (s.serve fuel).bind fun s => memExitProc fuel sched p ((s.setProcExit p exitStatus).freeProc p)

/-- The loop in `wait_proc`: a child that hangs, or the number of children. -/
def waitWalk (s : ExitState) (parent : Pid) : ℕ → Option Pid → ℕ → Option (Pid ⊕ ℕ)
  | 0, _, _ => none
  | _ + 1, none, children => some (.inr children)
  | fuel + 1, some p, children =>
    if (s.entry p).parentPid = parent then
      if s.Is p procStatusHanging then some (.inl p)
      else waitWalk s parent fuel (s.entry p).next (children + 1)
    else waitWalk s parent fuel (s.entry p).next children

/-- `MEM_WAIT_PROC`, with the receivers of the message that says that there are no children. -/
def waitRequest (fuel : ℕ) (parent : Pid) (s : ExitState) : Option (ExitState × List Pid) :=
  (s.serve fuel).bind fun s =>
    (waitWalk s parent fuel s.table.kernel.procList 0).map fun
      | .inl p => (s.sendExitToParent p, [])
      | .inr children => if children ≠ 0 then (s.raise parent procStatusWating, []) else (s, [parent])

/-- `MEM_FORK_PROC`, with the child. -/
def forkRequest (fuel : ℕ) (mem : ForkProc.Allocators) (p : Pid) (s : ExitState) :
    Option (ExitState × Option Pid) :=
  (s.serve fuel).bind fun s =>
    (ForkProc.forkProc fuel ⟨s.table, mem, []⟩ p).map fun (f, major, child) =>
      ({ s with table := (f.answer p major child).table }, child)

/-! ### The ledger -/

structure Ledger where
  state : ExitState
  accounts : Accounts

inductive LedgerEvent where
  /-- SysTask handles its messages -/
  | systask
  /-- the table changes in what these requests do not look at -/
  | other
  | fork (p : Pid)
  | exit (p : Pid) (exitStatus : ℕ)
  | wait (p : Pid)

/-- Who has exited, and with what status. -/
def LedgerEvent.exited : LedgerEvent → Option (Pid × ℕ)
  | .exit p exitStatus => some (p, exitStatus)
  | _ => none

/-- Who has asked for a child. -/
def LedgerEvent.waiter : LedgerEvent → Option Pid
  | .wait p => some p
  | _ => none

/-- Two entries of one process, that differ in what the requests do not look at. -/
structure Alike (proc proc' : Process) : Prop where
  parentPid : proc'.parentPid = proc.parentPid
  exitStatus : proc'.exitStatus = proc.exitStatus
  hanging : Has proc'.status procStatusHanging ↔ Has proc.status procStatusHanging
  wating : Has proc'.status procStatusWating ↔ Has proc.status procStatusWating

structure SameFamily (t t' : ProcTable) : Prop where
  alike : ∀ p, Alike (t.kernel.procTable p) (t'.kernel.procTable p)
  pid : ∀ p, (t'.kernel.procTable p).pid = (t.kernel.procTable p).pid
  next : ∀ p, (t'.kernel.procTable p).next = (t.kernel.procTable p).next
  procList : t'.kernel.procList = t.kernel.procList
  procBitmap : t'.procBitmap = t.procBitmap
  procCount : t'.procCount = t.procCount

/-- `p` is a process that can ask for something: it neither waits nor hangs, and is not the idle process. -/
structure Caller (s : ExitState) (p : Pid) : Prop where
  onList : ∃ l, Chain s.table.kernel.next s.table.kernel.procList l ∧ p ∈ l
  busy : p ≠ 0
  notHanging : ¬ s.Is p procStatusHanging
  notWating : ¬ s.Is p procStatusWating

/-- The accounts after a fork of `p`. -/
def Accounts.forked (a : Accounts) (p : Pid) : Option Pid → Accounts
  | none => a
  | some child => { a with forker := Function.update a.forker child p }

/-- The rounds of `Task_Memory`; a fork finds a free pid among the first 32, or none at all. -/
inductive LedgerStep (b : Ledger) : LedgerEvent → Ledger → Prop
  | systask {fuel : ℕ} {s : ExitState} (hcall : b.state.serve fuel = some s) :
      LedgerStep b .systask { b with state := s }
  | other {t : ProcTable} (hsame : SameFamily b.state.table t) :
      LedgerStep b .other { b with state := { b.state with table := t } }
  | fork {fuel : ℕ} {mem : ForkProc.Allocators} {p : Pid} {s : ExitState} {child : Option Pid}
      (hcaller : Caller b.state p) (hroom : ∀ s, b.state.serve fuel = some s → HasRoom s.table)
      (hcall : forkRequest fuel mem p b.state = some (s, child)) :
      LedgerStep b (.fork p) ⟨s, b.accounts.forked p child⟩
  | exit {fuel : ℕ} {sched : ℕ → Bool} {p : Pid} {exitStatus : ℕ} {s : ExitState} (hcaller : Caller b.state p)
      (hcall : exitRequest fuel sched p exitStatus b.state = some s) :
      LedgerStep b (.exit p exitStatus)
        ⟨s, { b.accounts with exits := b.accounts.exits ++ [⟨p, exitStatus, b.accounts.forker p⟩] }⟩
  | wait {fuel : ℕ} {p : Pid} {s : ExitState} {refused : List Pid} (hcaller : Caller b.state p)
      (hcall : waitRequest fuel p b.state = some (s, refused)) :
      LedgerStep b (.wait p)
        ⟨s, { b.accounts with waits := b.accounts.waits ++ [p], refusals := b.accounts.refusals ++ refused }⟩

/-! ### The family of a table -/

def ExitState.family (s : ExitState) (live : Finset Pid) : Family where
  live := live
  parent p := (s.entry p).parentPid
  exitStatus p := (s.entry p).exitStatus
  hanging p := decide (s.Is p procStatusHanging)
  waiting p := decide (s.Is p procStatusWating)
  leaving := s.mailbox
  reports := s.reports

/-- The list is `l`, of the processes `live`, and the accounts of the family are even, but for `x`. -/
structure Kept (x : Pid → Prop) (s : ExitState) (a : Accounts) (live : Finset Pid) (l : List Pid) : Prop where
  exact : Exact s.table (fun p => p ∈ live) l
  head : s.table.kernel.procList = some 0
  even : Even x (s.family live) a

/-- The accounts are what the requests of the run were about. -/
structure Recorded (tr : List (Transition Ledger LedgerEvent)) (b : Ledger) : Prop where
  exits : (b.accounts.exits.map fun r => (r.pid, r.exitStatus)) = tr.filterMap fun x => x.label.exited
  waits : b.accounts.waits = tr.filterMap fun x => x.label.waiter

/-- Nothing has been asked for yet. -/
def Ledger.start (t : ProcTable) : Ledger :=
  ⟨.start t, [], [], [], fun p => (t.kernel.procTable p).parentPid⟩

/-- The accounts are even. -/
def Books (b : Ledger) : Prop := ∃ live l, Kept (fun _ => False) b.state b.accounts live l

variable {x : Pid → Prop} {a : Accounts} {b b' : Ledger} {e : LedgerEvent} {s s' : ExitState} {t t' : ProcTable} {live : Finset Pid}
  {l l₁ l₂ : List Pid} {c p q r : Pid} {fuel n : ℕ} {f : Process → Process}

/-- An entry is written. -/
theorem family_modProc (s : ExitState) (live : Finset Pid) (p : Pid) (f : Process → Process) :
    (s.modProc p f).family live =
      { s.family live with
        parent := Function.update (s.family live).parent p (f (s.entry p)).parentPid
        exitStatus := Function.update (s.family live).exitStatus p (f (s.entry p)).exitStatus
        hanging := Function.update (s.family live).hanging p (decide (Has (f (s.entry p)).status procStatusHanging))
        waiting := Function.update (s.family live).waiting p
          (decide (Has (f (s.entry p)).status procStatusWating)) } := by
  have hentry : ∀ {β : Type} (g : Process → β), (fun q => g ((s.modProc p f).entry q)) =
      Function.update (fun q => g (s.entry q)) p (g (f (s.entry p))) := by
    intro β g
    funext q
    by_cases hq : q = p
    · subst hq
      rw [Function.update_self, ExitState.entry_modProc_self]
    · rw [Function.update_of_ne hq, ExitState.entry_modProc_of_ne hq]
  refine Family.ext rfl ?_ ?_ ?_ ?_ rfl rfl
  · exact hentry Process.parentPid
  · exact hentry Process.exitStatus
  · exact hentry fun proc => decide (Has proc.status procStatusHanging)
  · exact hentry fun proc => decide (Has proc.status procStatusWating)

/-- A status is written. -/
theorem family_modStatus (s : ExitState) (live : Finset Pid) (p : Pid) (g : BitVec 32 → BitVec 32) :
    (s.modProc p fun proc => { proc with status := g proc.status }).family live =
      { s.family live with
        hanging := Function.update (s.family live).hanging p (decide (Has (g (s.entry p).status) procStatusHanging))
        waiting := Function.update (s.family live).waiting p
          (decide (Has (g (s.entry p).status) procStatusWating)) } := by
  rw [family_modProc]
  refine Family.ext rfl ?_ ?_ rfl rfl rfl rfl
  · exact Function.update_eq_self p (s.family live).parent
  · exact Function.update_eq_self p (s.family live).exitStatus

theorem family_exit (s : ExitState) (live : Finset Pid) (p : Pid) (n : ℕ) :
    ((s.setProcExit p n).freeProc p).family live = (s.family live).mark p n := by
  have hself : (s.setProcExit p n).entry p =
      { s.entry p with exitStatus := n, status := procStatusHanging ||| procStatusStop } :=
    ExitState.entry_modProc_self
  have hhang : decide (Has (procStatusHanging ||| procStatusStop) procStatusHanging) = true := rfl
  have hwait : decide (Has (procStatusHanging ||| procStatusStop) procStatusWating) = false := rfl
  rw [ExitState.freeProc, family_modProc, hself, ExitState.setProcExit, family_modProc, Family.mark]
  simp only [Function.update_idem, hhang, hwait]
  refine Family.ext rfl ?_ rfl rfl rfl rfl rfl
  exact Function.update_eq_self p (s.family live).parent

theorem family_adopt (s : ExitState) (live : Finset Pid) (p : Pid) :
    (s.adopt p).family live = (s.family live).adopt p := by
  rw [ExitState.adopt, family_modProc, Family.adopt]
  refine Family.ext rfl rfl ?_ ?_ ?_ rfl rfl
  · exact Function.update_eq_self p (s.family live).exitStatus
  · exact Function.update_eq_self p (s.family live).hanging
  · exact Function.update_eq_self p (s.family live).waiting

theorem family_raise_hanging (live : Finset Pid) (h : s.Is p procStatusHanging) :
    (s.raise p procStatusHanging).family live = s.family live := by
  have hhang : decide (Has (raise (s.entry p).status procStatusHanging) procStatusHanging) =
      (s.family live).hanging p := by
    rw [decide_eq_true (has_raise_self (by decide))]
    exact (decide_eq_true h).symm
  have hwait : decide (Has (raise (s.entry p).status procStatusHanging) procStatusWating) =
      (s.family live).waiting p :=
    decide_eq_decide.mpr (has_raise_of_disjoint (by decide))
  rw [ExitState.raise, family_modStatus s live p fun w => raise w procStatusHanging]
  simp only [hhang, hwait, Function.update_eq_self]

theorem family_raise_wating (s : ExitState) (live : Finset Pid) (r : Pid) :
    (s.raise r procStatusWating).family live = (s.family live).await r := by
  have hhang : decide (Has (raise (s.entry r).status procStatusWating) procStatusHanging) =
      (s.family live).hanging r :=
    decide_eq_decide.mpr (has_raise_of_disjoint (by decide))
  have hwait : decide (Has (raise (s.entry r).status procStatusWating) procStatusWating) = true :=
    decide_eq_true (has_raise_self (by decide))
  rw [ExitState.raise, family_modStatus s live r fun w => raise w procStatusWating]
  simp only [hhang, hwait, Function.update_eq_self]
  rfl

theorem family_drop_wating (s : ExitState) (live : Finset Pid) (r : Pid) :
    (s.drop r procStatusWating).family live =
      { s.family live with waiting := Function.update (s.family live).waiting r false } := by
  have hhang : decide (Has (drop (s.entry r).status procStatusWating) procStatusHanging) =
      (s.family live).hanging r :=
    decide_eq_decide.mpr (has_drop_of_disjoint (by decide))
  have hwait : decide (Has (drop (s.entry r).status procStatusWating) procStatusWating) = false :=
    decide_eq_false not_has_drop_self
  rw [ExitState.drop, family_modStatus s live r fun w => drop w procStatusWating]
  simp only [hhang, hwait, Function.update_eq_self]

/-- A report to a parent that waits. -/
theorem family_report (live : Finset Pid) (hpid : (s.entry p).pid = p) (hparent : (s.entry p).parentPid = r) :
    ((s.drop r procStatusWating).sendExitToParent p).family live = (s.family live).answer p := by
  subst hparent
  have hframe := s.drop_frame (s.entry p).parentPid p procStatusWating
  have hdrop := family_drop_wating s live (s.entry p).parentPid
  have hparents := congrArg Family.parent hdrop
  have hstatuses := congrArg Family.exitStatus hdrop
  have hhanging := congrArg Family.hanging hdrop
  have hwaiting := congrArg Family.waiting hdrop
  refine Family.ext rfl hparents hstatuses hhanging hwaiting ?_ ?_
  · show s.mailbox ++ [_] = s.mailbox ++ [p]
    rw [hframe.1, hpid]
  · show s.reports ++ [⟨_, _, _⟩] = s.reports ++ [⟨(s.entry p).parentPid, p, (s.entry p).exitStatus⟩]
    rw [hframe.1, hframe.2.2.1, hframe.2.2.2, hpid]

/-- A report to a parent that has just asked. -/
theorem family_report_asked (live : Finset Pid) (hpid : (s.entry p).pid = p)
    (hwait : ¬ s.Is (s.entry p).parentPid procStatusWating) :
    (s.sendExitToParent p).family live = ((s.family live).await (s.entry p).parentPid).answer p := by
  have hoff : (s.family live).waiting (s.entry p).parentPid = false := decide_eq_false hwait
  refine Family.ext rfl rfl rfl rfl ?_ ?_ ?_
  · show (s.family live).waiting =
      Function.update (Function.update (s.family live).waiting (s.entry p).parentPid true) (s.entry p).parentPid false
    rw [Function.update_idem, ← hoff, Function.update_eq_self]
  · show s.mailbox ++ [_] = s.mailbox ++ [p]
    rw [hpid]
  · show s.reports ++ [⟨_, (s.entry p).pid, _⟩] = s.reports ++ [⟨_, p, _⟩]
    rw [hpid]
    rfl

/-! ### An entry is written -/

theorem Kept.mono {y : Pid → Prop} (h : Kept x s a live l) (hxy : ∀ p, x p → y p) : Kept y s a live l :=
  ⟨h.exact, h.head, h.even.mono hxy⟩

/-- The pid and the link of an entry stay. -/
theorem exact_modProc (h : Exact s.table (fun p => p ∈ live) l) (hpid : (f (s.entry p)).pid = (s.entry p).pid)
    (hnext : (f (s.entry p)).next = (s.entry p).next) :
    Exact (s.modProc p f).table (fun p => p ∈ live) l := by
  have hlinks : (s.modProc p f).table.kernel.next = s.table.kernel.next := by
    show (s.table.kernel.modProc p f).next = _
    rw [next_modProc]
    have hsame : (f (s.table.kernel.procTable p)).next = s.table.kernel.next p := hnext
    rw [hsame, Function.update_eq_self]
  have hpids : ∀ q, (s.modProc p f).table.kernel.pid q = s.table.kernel.pid q := by
    intro q
    show ((s.modProc p f).entry q).pid = (s.entry q).pid
    by_cases hq : q = p
    · subst hq
      rw [ExitState.entry_modProc_self, hpid]
    · rw [ExitState.entry_modProc_of_ne hq]
  refine ⟨⟨?_, h.nodup, ?_, h.count⟩, h.mem_iff, h.bit_iff⟩
  · rw [hlinks]
    exact h.chain
  · intro q hq
    rw [hpids]
    exact h.pid_eq q hq

theorem Kept.live_iff (h : Kept x s a live l) : p ∈ l ↔ p ∈ live := h.exact.mem_iff p

theorem Kept.pid_eq (h : Kept x s a live l) (hp : p ∈ l) : (s.entry p).pid = p := h.exact.pid_eq p hp

theorem Kept.split (h : Kept x s a live l) : ∃ l', l = 0 :: l' := by
  have hchain := h.exact.chain
  rw [h.head] at hchain
  obtain ⟨l', hl, -⟩ := chain_some_iff.mp hchain
  exact ⟨l', hl⟩

/-! ### SysTask -/

/-- `EXIT_PROC` leaves the entries that are not on the list alone. -/
theorem entry_exitProc_of_notMem (hl : Listed t l) (hqc : q ≠ c) (hq : q ∉ l)
    (hcall : ProcTable.exitProc fuel t c = some t') : t'.kernel.procTable q = t.kernel.procTable q := by
  have hchain := hl.chain
  unfold ProcTable.exitProc at hcall
  obtain ⟨k, hk, rfl⟩ := Option.map_eq_some_iff.mp hcall
  show (k.modProc c fun _ => default).procTable q = _
  rw [entry_modProc_of_ne hqc]
  have hlist : (unsuscribe t.kernel c).procList = t.kernel.procList := rfl
  have hnext : (unsuscribe t.kernel c).next = t.kernel.next := rfl
  rw [hlist] at hk
  cases hhead : t.kernel.procList with
  | none =>
    simp only [hhead] at hk
    rw [← Option.some.inj hk]
    rfl
  | some p =>
    rw [hhead] at hchain
    simp only [hhead] at hk
    by_cases hcp : c = p
    · rw [if_pos hcp] at hk
      rw [← Option.some.inj hk]
      rfl
    · rw [if_neg hcp, hnext] at hk
      cases hsearch : searchAfter t.kernel.next c fuel p with
      | found ff =>
        simp only [hsearch, Option.some.injEq] at hk
        obtain ⟨l', rfl, -⟩ := chain_some_iff.mp hchain
        have hcl : c ∈ l' := hchain.mem_of_searchAfter hsearch
        obtain ⟨ff', l₁, l₂, hfound, hsplit⟩ := hchain.searchAfter_of_mem hcl (by rw [hsearch]; exact nofun)
        obtain rfl : ff = ff' := by
          rw [hsearch] at hfound
          exact Search.found.inj hfound
        have hqff : q ≠ ff := by
          intro he
          rw [hsplit, he] at hq
          exact hq (List.mem_append_right _ List.mem_cons_self)
        rw [← hk, Kernel.setNext, entry_modProc_of_ne hqff]
        rfl
      | missing =>
        simp only [hsearch] at hk
        rw [← Option.some.inj hk]
        rfl
      | spinning =>
        simp only [hsearch] at hk
        cases hk

/-- What `EXIT_PROC` does to the entries. -/
theorem Kept.entries_exitProc (h : Kept x s a live l) (hc : c ∈ live) (hne : c ≠ 0)
    (hcall : ProcTable.exitProc fuel s.table c = some t) :
    Exact t (fun p => p ∈ live.erase c) (l.erase c) ∧ t.kernel.procList = some 0 ∧
      t.kernel.procTable c = default ∧
      ∀ q ≠ c, t.kernel.procTable q =
        { s.table.kernel.procTable q with next := (t.kernel.procTable q).next } := by
  obtain ⟨l', rfl⟩ := h.split
  have hmem : c ∈ l' := (List.mem_cons.mp (h.live_iff.mpr hc)).resolve_left hne
  obtain ⟨hchain, hdefault, hothers⟩ := exitProc_spec h.exact.toListed hmem hcall
  have hhead : s.table.kernel.procList ≠ some c := by
    rw [h.head]
    exact fun he => hne (Option.some.inj he).symm
  obtain ⟨l'', hexact⟩ := h.exact.remove hc hhead hcall
  obtain rfl := hexact.chain.unique hchain
  have herase : ((0 : Pid) :: l').erase c = 0 :: l'.erase c := List.erase_cons_tail (by simpa using hne.symm)
  refine ⟨hexact.congr_live fun p => ?_, ?_, hdefault, hothers⟩
  · rw [Finset.mem_erase, and_comm]
  · rw [herase] at hchain
    exact hchain.head_eq.1

/-- **SysTask handles one message.** -/
theorem Kept.exitProc {rest : List Pid} (h : Kept x s a live l) (hmail : s.mailbox = c :: rest)
    (hcall : ProcTable.exitProc fuel s.table c = some t) :
    Kept x { s with table := t, mailbox := rest } a (live.erase c) (l.erase c) ∧
      t.kernel.procTable c = default ∧
      ∀ q ≠ c, t.kernel.procTable q =
        { s.table.kernel.procTable q with next := (t.kernel.procTable q).next } := by
  have hfirst : (s.family live).leaving = c :: rest := hmail
  have hleaving : c ∈ (s.family live).leaving := by
    rw [hfirst]
    exact List.mem_cons_self
  obtain ⟨hc, hhang⟩ := h.even.leaving c hleaving
  have hne := (h.even.hanging c hc hhang).1
  obtain ⟨hexact, hhead, hdefault, hothers⟩ := h.entries_exitProc hc hne hcall
  have hentry : ∀ {β : Type} (g : Process → β), g default = g { (default : Process) with next := none } →
      (∀ proc next, g { proc with next := next } = g proc) →
      (fun q => g (t.kernel.procTable q)) = Function.update (fun q => g (s.entry q)) c (g default) := by
    intro β g _ hg
    funext q
    by_cases hq : q = c
    · rw [hq, Function.update_self, hdefault]
    · rw [Function.update_of_ne hq, hothers q hq, hg]
      rfl
  have hfamily : ExitState.family { s with table := t, mailbox := rest } (live.erase c) =
      (s.family live).clear c := by
    refine Family.ext rfl ?_ ?_ ?_ ?_ ?_ rfl
    · exact hentry Process.parentPid rfl fun _ _ => rfl
    · exact hentry Process.exitStatus rfl fun _ _ => rfl
    · exact hentry (fun proc => decide (Has proc.status procStatusHanging)) rfl fun _ _ => rfl
    · exact hentry (fun proc => decide (Has proc.status procStatusWating)) rfl fun _ _ => rfl
    · show rest = s.mailbox.tail
      rw [hmail, List.tail_cons]
  refine ⟨⟨hexact, hhead, ?_⟩, hdefault, hothers⟩
  rw [hfamily]
  exact h.even.clear hfirst

theorem ExitState.serve_cons {rest : List Pid} (hmail : s.mailbox = c :: rest) :
    s.serve fuel = (ProcTable.exitProc fuel s.table c).bind fun t =>
      ({ s with table := t, mailbox := rest } : ExitState).serve fuel := by
  rw [serve, hmail, List.foldlM_cons]
  cases ProcTable.exitProc fuel s.table c with
  | none => rfl
  | some t => rfl

/-- What is left of the entries when SysTask has handled its messages, with the list `l` before. -/
structure Served (l : List Pid) (s s' : ExitState) : Prop where
  mailbox : s'.mailbox = []
  cleared : ∀ q ∈ s.mailbox, s'.entry q = default
  others : ∀ q ∉ s.mailbox, s'.entry q = { s.entry q with next := (s'.entry q).next }
  away : ∀ q ∉ l, s'.entry q = s.entry q

/-- **SysTask handles its messages.** -/
theorem Kept.serve (h : Kept x s a live l) (hcall : s.serve fuel = some s') :
    Served l s s' ∧ ∃ live', Kept x s' a live' (l.filter fun p => p ∉ s.mailbox) := by
  generalize hmail : s.mailbox = mailbox
  induction mailbox generalizing s live l with
  | nil =>
    rw [ExitState.serve_nil hmail] at hcall
    obtain rfl := Option.some.inj hcall
    have hall : (l.filter fun p => p ∉ ([] : List Pid)) = l := by simp
    rw [hall]
    refine ⟨⟨hmail, fun q hq => ?_, fun q _ => rfl, fun q _ => rfl⟩, live, h⟩
    rw [hmail] at hq
    exact absurd hq List.not_mem_nil
  | cons c rest ih =>
    rw [ExitState.serve_cons hmail] at hcall
    obtain ⟨t, ht, hrest⟩ := Option.bind_eq_some_iff.mp hcall
    obtain ⟨hkept, hdefault, hothers⟩ := h.exitProc hmail ht
    obtain ⟨hserved, live', hkept'⟩ := ih hkept hrest rfl
    have hleaving : (s.family live).leaving = c :: rest := hmail
    have hc : c ∈ l := by
      refine h.live_iff.mpr (h.even.leaving c ?_).1
      rw [hleaving]
      exact List.mem_cons_self
    have hgone : c ∉ l.erase c := fun hmem => (h.exact.nodup.mem_erase_iff.mp hmem).1 rfl
    have hlist : (l.filter fun p => p ∉ c :: rest) = (l.erase c).filter fun p => p ∉ rest := by
      rw [h.exact.nodup.erase_eq_filter, List.filter_filter]
      refine List.filter_congr fun p _ => ?_
      by_cases hp : p = c
      · simp [hp]
      · simp [hp]
    rw [hlist]
    refine ⟨⟨hserved.mailbox, fun q hq => ?_, fun q hq => ?_, fun q hq => ?_⟩, live', hkept'⟩
    · by_cases hqr : q ∈ rest
      · exact hserved.cleared q hqr
      · rw [hmail] at hq
        obtain rfl := (List.mem_cons.mp hq).resolve_right hqr
        rw [hserved.away q hgone]
        exact hdefault
    · rw [hmail, List.mem_cons, not_or] at hq
      have hrelink := congrArg (fun proc : Process => { proc with next := (s'.entry q).next }) (hothers q hq.1)
      exact (hserved.others q hq.2).trans hrelink
    · have hqc : q ≠ c := fun he => hq (he ▸ hc)
      rw [hserved.away q fun hmem => hq (List.mem_of_mem_erase hmem)]
      exact entry_exitProc_of_notMem h.exact.toListed hqc hq ht

/-! ### The walk -/

theorem Kept.visit (h : Kept x s a live l) (p : Pid) : Kept x (s.visit p) a live l := ⟨h.exact, h.head, h.even⟩

theorem Kept.adopt (h : Kept x s a live l) (p : Pid) : Kept (fun q => x q ∨ q = p) (s.adopt p) a live l := by
  refine ⟨exact_modProc h.exact rfl rfl, h.head, ?_⟩
  rw [family_adopt]
  exact h.even.adopt p

theorem Kept.mem_unreportedSet (h : Kept x s a live l) (hp : p ∈ l) (hhang : s.Is p procStatusHanging)
    (hout : p ∉ s.mailbox) : p ∈ (s.family live).unreportedSet :=
  Exit.mem_unreportedSet.mpr ⟨h.live_iff.mp hp, decide_eq_true hhang, hout⟩

/-- A process that hangs is reported to its parent, which waits. -/
theorem Kept.report (h : Kept x s a live l) (hp : p ∈ l) (hhang : s.Is p procStatusHanging) (hout : p ∉ s.mailbox)
    (hparent : (s.entry p).parentPid = r) (hwait : s.Is r procStatusWating)
    (hx : ∀ q, x q → (s.entry q).parentPid = r) :
    Kept (fun _ => False) ((s.drop r procStatusWating).sendExitToParent p) a live l := by
  have hkept : Exact (s.drop r procStatusWating).table (fun p => p ∈ live) l := exact_modProc h.exact rfl rfl
  refine ⟨hkept, h.head, ?_⟩
  rw [family_report live (h.pid_eq hp) hparent]
  refine h.even.answer (h.mem_unreportedSet hp hhang hout) ?_ fun q _ hxq => ?_
  · show decide (s.Is (s.entry p).parentPid procStatusWating) = true
    rw [hparent]
    exact decide_eq_true hwait
  · exact (hx q hxq).trans hparent.symm

/-- **One process of the walk.** -/
theorem Kept.look (h : Kept (fun _ => False) s a live l) (proc : Pid) (hp : p ∈ l) (hout : p ∉ s.mailbox) :
    Kept (fun _ => False) (s.look proc p) a live l := by
  rw [ExitState.look]
  have hvisit := h.visit p
  by_cases hchild : ((s.visit p).entry p).parentPid = ((s.visit p).entry proc).pid
  · rw [if_pos hchild]
    have hadopt := hvisit.adopt p
    have hone : (((s.visit p).adopt p).entry p).parentPid = 1 := by
      rw [ExitState.parentPid_adopt, if_pos rfl]
    by_cases hreport : ((s.visit p).adopt p).Is p procStatusHanging ∧ ((s.visit p).adopt p).Is 1 procStatusWating
    · rw [if_pos hreport]
      refine hadopt.report hp hreport.1 hout hone hreport.2 fun q hq => ?_
      rw [hq.resolve_left not_false]
      exact hone
    · rw [if_neg hreport]
      refine ⟨hadopt.exact, hadopt.head, hadopt.even.settle fun q hq hx => ?_⟩
      obtain rfl := hx.resolve_left not_false
      have hhang := of_decide_eq_true (Exit.mem_unreportedSet.mp hq).2.1
      show decide (((s.visit q).adopt q).Is (((s.visit q).adopt q).entry q).parentPid procStatusWating) = false
      rw [hone]
      exact decide_eq_false fun hwait => hreport ⟨hhang, hwait⟩
  · rw [if_neg hchild]
    exact hvisit

theorem look_frame (hpid : (s.entry p).pid = p) (proc : Pid) :
    ∀ c ∈ (s.look proc p).mailbox, c ∈ s.mailbox ∨ c = p := by
  intro c hc
  by_cases hreports : Reports (s.entry proc).pid p s
  · rw [(look_report rfl hreports).2.1, hpid, List.mem_append, List.mem_singleton] at hc
    exact hc
  · rw [(look_quiet rfl hreports).2.mailbox] at hc
    exact Or.inl hc

/-- SysTask runs when it has no message about the rest of the list. -/
theorem Kept.interlude {M : List Pid} {runs : Bool} (h : Kept x s a live (l₁ ++ M))
    (hmail : ∀ c ∈ s.mailbox, c ∈ l₁) (hcall : s.interlude fuel runs = some s') :
    ∃ live' l₁', Kept x s' a live' (l₁' ++ M) ∧ ∀ c ∈ s'.mailbox, c ∈ l₁' := by
  cases runs with
  | false =>
    obtain rfl := Option.some.inj hcall
    exact ⟨live, l₁, h, hmail⟩
  | true =>
    obtain ⟨hserved, live', hkept⟩ := h.serve hcall
    have hrest : (M.filter fun p => p ∉ s.mailbox) = M := by
      refine List.filter_eq_self.mpr fun p hp => decide_eq_true fun hmem => ?_
      exact (List.nodup_append.mp h.exact.nodup).2.2 p (hmail p hmem) p hp rfl
    rw [List.filter_append, hrest] at hkept
    refine ⟨live', _, hkept, fun c hc => ?_⟩
    rw [hserved.mailbox] at hc
    exact absurd hc List.not_mem_nil

/-- The link of the process that has been looked at. -/
theorem Kept.next_interlude {M : List Pid} {runs : Bool} (h : Kept x s a live (l₁ ++ p :: M))
    (hmail : ∀ c ∈ s.mailbox, c ∈ l₁ ++ [p]) (hcall : s.interlude fuel runs = some s') :
    Chain s'.table.kernel.next (s'.entry p).next M ∨ (s'.entry p).next = none := by
  cases runs with
  | false =>
    obtain rfl := Option.some.inj hcall
    exact Or.inl h.exact.chain.suffix.tail
  | true =>
    obtain ⟨hserved, live', hkept⟩ := h.serve hcall
    by_cases hp : p ∈ s.mailbox
    · right
      rw [hserved.cleared p hp]
      rfl
    · left
      have hrest : ((p :: M).filter fun q => q ∉ s.mailbox) = p :: M := by
        refine List.filter_eq_self.mpr fun q hq => decide_eq_true fun hmem => ?_
        rcases List.mem_append.mp (hmail q hmem) with hq₁ | hqp
        · exact (List.nodup_append.mp h.exact.nodup).2.2 q hq₁ q hq rfl
        · exact hp (List.mem_singleton.mp hqp ▸ hmem)
      rw [List.filter_append, hrest] at hkept
      exact hkept.exact.chain.suffix.tail

/-- **The walk along the list**, whenever SysTask runs. -/
theorem Kept.exitWalk {walkFuel : ℕ} {sched : ℕ → Bool} {proc : Pid} {first : Option Pid} {M : List Pid}
    (h : Kept (fun _ => False) s a live (l₁ ++ M)) (hmail : ∀ c ∈ s.mailbox, c ∈ l₁)
    (hc : Chain s.table.kernel.next first M) (hcall : exitWalk walkFuel sched proc fuel first s = some s') :
    ∃ live' l', Kept (fun _ => False) s' a live' l' := by
  induction fuel generalizing s live l₁ M first with
  | zero => cases hcall
  | succ fuel ih =>
    cases first with
    | none =>
      obtain rfl := Option.some.inj hcall
      exact ⟨live, _, h⟩
    | some p =>
      obtain ⟨M', rfl, -⟩ := chain_some_iff.mp hc
      obtain ⟨s₁, hs₁, hrest⟩ := Option.bind_eq_some_iff.mp hcall
      obtain ⟨s₂, hs₂, hwalk⟩ := Option.bind_eq_some_iff.mp hrest
      obtain ⟨live₁, l₁', hkept₁, hmail₁⟩ := h.interlude hmail hs₁
      have hp : p ∈ l₁' ++ p :: M' := List.mem_append_right _ List.mem_cons_self
      have hout : p ∉ s₁.mailbox := fun hmem =>
        (List.nodup_append.mp hkept₁.exact.nodup).2.2 p (hmail₁ p hmem) p List.mem_cons_self rfl
      have hlook := hkept₁.look proc hp hout
      have hmail₂ : ∀ c ∈ (s₁.look proc p).mailbox, c ∈ l₁' ++ [p] := by
        intro c hc
        rcases look_frame (hkept₁.pid_eq hp) proc c hc with hc | rfl
        · exact List.mem_append_left _ (hmail₁ c hc)
        · exact List.mem_append_right _ (List.mem_singleton_self c)
      have hsplit : l₁' ++ p :: M' = (l₁' ++ [p]) ++ M' := by simp
      have hlink := hlook.next_interlude hmail₂ hs₂
      rw [hsplit] at hlook
      obtain ⟨live₂, l₂', hkept₂, hmail₃⟩ := hlook.interlude hmail₂ hs₂
      rcases hlink with hchain | hnone
      · exact ih hkept₂ hmail₃ hchain hwalk
      · rw [hnone] at hwalk
        cases fuel with
        | zero => cases hwalk
        | succ fuel =>
          obtain rfl := Option.some.inj hwalk
          exact ⟨live₂, _, hkept₂⟩

theorem Kept.wholeWalk {walkFuel : ℕ} {sched : ℕ → Bool} {proc : Pid} (h : Kept (fun _ => False) s a live l)
    (hmail : s.mailbox = []) (hcall : Exit.exitWalk walkFuel sched proc fuel s.table.kernel.procList s = some s') :
    ∃ live' l', Kept (fun _ => False) s' a live' l' := by
  have hwhole : Kept (fun _ => False) s a live ([] ++ l) := h
  refine hwhole.exitWalk ?_ h.exact.chain hcall
  rw [hmail]
  exact fun c hc => hc

/-! ### The exit -/

/-- `Task_Memory` serves a process that can ask: SysTask has not taken its entry. -/
theorem Kept.caller (h : Kept x s a live l) (hcaller : Caller s p) (hcall : s.serve fuel = some s') :
    p ∈ (l.filter fun q => q ∉ s.mailbox) ∧ ¬ s'.Is p procStatusHanging ∧ ¬ s'.Is p procStatusWating := by
  obtain ⟨l', hchain, hp⟩ := hcaller.onList
  obtain rfl := hchain.unique h.exact.chain
  have hout : p ∉ s.mailbox := fun hmem =>
    hcaller.notHanging (of_decide_eq_true (h.even.leaving p hmem).2)
  have hstatus : (s'.entry p).status = (s.entry p).status := by
    rw [(h.serve hcall).1.others p hout]
  exact ⟨List.mem_filter.mpr ⟨hp, decide_eq_true hout⟩, fun hh => hcaller.notHanging ((ExitState.is_congr hstatus).mp hh),
    fun hw => hcaller.notWating ((ExitState.is_congr hstatus).mp hw)⟩

/-- `p` exits, and its parent may still wait. -/
theorem Kept.setProcExit (h : Kept (fun _ => False) s a live l) (hp : p ∈ l) (hne : p ≠ 0)
    (hhang : ¬ s.Is p procStatusHanging) (hwait : ¬ s.Is p procStatusWating) (n : ℕ) :
    Kept (fun q => q = p) ((s.setProcExit p n).freeProc p)
      { a with exits := a.exits ++ [⟨p, n, a.forker p⟩] } live l := by
  have hwritten : Exact (s.setProcExit p n).table (fun q => q ∈ live) l := exact_modProc h.exact rfl rfl
  refine ⟨exact_modProc hwritten rfl rfl, h.head, ?_⟩
  rw [family_exit]
  exact h.even.mark (h.live_iff.mp hp) hne (decide_eq_false hhang) (decide_eq_false hwait)

/-- **`mem_exit_proc`**, whenever SysTask runs. -/
theorem Kept.memExitProc {sched : ℕ → Bool} (h : Kept (fun q => q = p) s a live l) (hp : p ∈ l)
    (hhang : s.Is p procStatusHanging) (hmail : s.mailbox = []) (hcall : memExitProc fuel sched p s = some s') :
    ∃ live' l', Kept (fun _ => False) s' a live' l' := by
  have hout : p ∉ s.mailbox := by
    rw [hmail]
    exact List.not_mem_nil
  have hsettled : Kept (fun _ => False) (if s.Is (s.entry p).parentPid procStatusWating then
      (s.drop (s.entry p).parentPid procStatusWating).sendExitToParent p else s.raise p procStatusHanging) a live l := by
    by_cases hwait : s.Is (s.entry p).parentPid procStatusWating
    · rw [if_pos hwait]
      exact h.report hp hhang hout rfl hwait fun q hq => congrArg (fun q => (s.entry q).parentPid) hq
    · rw [if_neg hwait]
      refine ⟨exact_modProc h.exact rfl rfl, h.head, ?_⟩
      rw [family_raise_hanging live hhang]
      refine h.even.settle fun q _ hq => ?_
      subst hq
      exact decide_eq_false hwait
  obtain ⟨s₁, hs₁, hwalk⟩ := Option.bind_eq_some_iff.mp hcall
  obtain ⟨hserved, live₁, hkept⟩ := hsettled.serve hs₁
  exact hkept.wholeWalk hserved.mailbox hwalk

/-- **An exit keeps the accounts even.** -/
theorem Kept.exitRequest {sched : ℕ → Bool} (h : Kept (fun _ => False) s a live l) (hcaller : Caller s p)
    (hcall : exitRequest fuel sched p n s = some s') :
    ∃ live' l', Kept (fun _ => False) s' { a with exits := a.exits ++ [⟨p, n, a.forker p⟩] } live' l' := by
  obtain ⟨s₁, hs₁, hexit⟩ := Option.bind_eq_some_iff.mp hcall
  obtain ⟨hserved, live₁, hkept⟩ := h.serve hs₁
  obtain ⟨hp, hhang, hwait⟩ := h.caller hcaller hs₁
  have hmarked := hkept.setProcExit hp hcaller.busy hhang hwait n
  refine hmarked.memExitProc hp ?_ hserved.mailbox hexit
  have hhanging : (((s₁.setProcExit p n).freeProc p).family live₁).hanging p = true := by
    rw [family_exit]
    exact Function.update_self _ _ _
  exact of_decide_eq_true hhanging

/-! ### The wait -/

/-- What the loop in `wait_proc` finds. -/
theorem waitWalk_spec {M : List Pid} {first : Option Pid} {result : Pid ⊕ ℕ}
    (hc : Chain s.table.kernel.next first M) (hcall : waitWalk s r fuel first n = some result) :
    (∃ p ∈ M, result = .inl p ∧ (s.entry p).parentPid = r ∧ s.Is p procStatusHanging) ∨
      ∃ m, result = .inr m ∧ ∀ p ∈ M, (s.entry p).parentPid = r → ¬ s.Is p procStatusHanging := by
  induction fuel generalizing first M n with
  | zero => cases hcall
  | succ fuel ih =>
    cases first with
    | none =>
      obtain rfl := chain_none_iff.mp hc
      exact Or.inr ⟨n, (Option.some.inj hcall).symm, fun p hp => absurd hp List.not_mem_nil⟩
    | some p =>
      obtain ⟨M', rfl, htail⟩ := chain_some_iff.mp hc
      rw [waitWalk] at hcall
      have hrest : ∀ {m}, (¬ ((s.entry p).parentPid = r ∧ s.Is p procStatusHanging)) →
          waitWalk s r fuel (s.entry p).next m = some result →
          (∃ q ∈ p :: M', result = .inl q ∧ (s.entry q).parentPid = r ∧ s.Is q procStatusHanging) ∨
            ∃ m, result = .inr m ∧ ∀ q ∈ p :: M', (s.entry q).parentPid = r → ¬ s.Is q procStatusHanging := by
        intro m hnot hwalk
        rcases ih htail hwalk with ⟨q, hq, hfound⟩ | ⟨m', hm', hnone⟩
        · exact Or.inl ⟨q, List.mem_cons_of_mem p hq, hfound⟩
        · exact Or.inr ⟨m', hm', List.forall_mem_cons.mpr ⟨fun hr hh => hnot ⟨hr, hh⟩, hnone⟩⟩
      by_cases hchild : (s.entry p).parentPid = r
      · rw [if_pos hchild] at hcall
        by_cases hhang : s.Is p procStatusHanging
        · rw [if_pos hhang] at hcall
          exact Or.inl ⟨p, List.mem_cons_self, (Option.some.inj hcall).symm, hchild, hhang⟩
        · rw [if_neg hhang] at hcall
          exact hrest (fun hboth => hhang hboth.2) hcall
      · rw [if_neg hchild] at hcall
        exact hrest (fun hboth => hchild hboth.1) hcall

/-- **A wait keeps the accounts even.** -/
theorem Kept.waitRequest {refused : List Pid} (h : Kept (fun _ => False) s a live l) (hcaller : Caller s r)
    (hcall : waitRequest fuel r s = some (s', refused)) :
    ∃ live' l', Kept (fun _ => False) s'
      { a with waits := a.waits ++ [r], refusals := a.refusals ++ refused } live' l' := by
  obtain ⟨s₁, hs₁, hwait⟩ := Option.bind_eq_some_iff.mp hcall
  obtain ⟨hserved, live₁, hkept⟩ := h.serve hs₁
  obtain ⟨hr, hhang, hoff⟩ := h.caller hcaller hs₁
  obtain ⟨result, hwalk, hresult⟩ := Option.map_eq_some_iff.mp hwait
  have hasked := hkept.even.await (hkept.live_iff.mp hr) (decide_eq_false hhang) (decide_eq_false hoff)
  rcases waitWalk_spec hkept.exact.chain hwalk with ⟨p, hp, rfl, hchild, hhangs⟩ | ⟨m, rfl, hnone⟩
  · -- a child hangs
    obtain ⟨rfl, rfl⟩ := Prod.mk.inj hresult
    refine ⟨live₁, _, hkept.exact, hkept.head, ?_⟩
    rw [List.append_nil]
    have hout : p ∉ s₁.mailbox := by
      rw [hserved.mailbox]
      exact List.not_mem_nil
    have hunreported := hkept.mem_unreportedSet hp hhangs hout
    subst hchild
    rw [family_report_asked live₁ (hkept.pid_eq hp) hoff]
    exact hasked.answer hunreported (Function.update_self _ _ _) fun q _ hq => hq
  · by_cases hm : m ≠ 0
    · -- the parent waits
      replace hresult : (if m ≠ 0 then (s₁.raise r procStatusWating, []) else (s₁, [r])) = (s', refused) := hresult
      rw [if_pos hm] at hresult
      obtain ⟨rfl, rfl⟩ := Prod.mk.inj hresult
      refine ⟨live₁, _, exact_modProc hkept.exact rfl rfl, hkept.head, ?_⟩
      rw [List.append_nil, family_raise_wating]
      refine hasked.settle fun q hq hqr => ?_
      obtain ⟨hq, hqh, -⟩ := Exit.mem_unreportedSet.mp hq
      exact absurd (of_decide_eq_true hqh) (hnone q (hkept.live_iff.mpr hq) hqr)
    · -- no children
      replace hresult : (if m ≠ 0 then (s₁.raise r procStatusWating, []) else (s₁, [r])) = (s', refused) := hresult
      rw [if_neg hm] at hresult
      obtain ⟨rfl, rfl⟩ := Prod.mk.inj hresult
      exact ⟨live₁, _, hkept.exact, hkept.head, hkept.even.refuse r⟩

/-! ### The fork -/

theorem Kept.raise_stop (h : Kept x s a live l) (p : Pid) : Kept x (s.raise p procStatusStop) a live l := by
  have hhang : decide (Has (raise (s.entry p).status procStatusStop) procStatusHanging) =
      (s.family live).hanging p :=
    decide_eq_decide.mpr (has_raise_of_disjoint (by decide))
  have hwait : decide (Has (raise (s.entry p).status procStatusStop) procStatusWating) =
      (s.family live).waiting p :=
    decide_eq_decide.mpr (has_raise_of_disjoint (by decide))
  refine ⟨exact_modProc h.exact rfl rfl, h.head, ?_⟩
  rw [ExitState.raise, family_modStatus s live p fun w => BitFlags.raise w procStatusStop]
  simp only [hhang, hwait, Function.update_eq_self]
  exact h.even

theorem Kept.drop_stop (h : Kept x s a live l) (p : Pid) : Kept x (s.drop p procStatusStop) a live l := by
  have hhang : decide (Has (drop (s.entry p).status procStatusStop) procStatusHanging) =
      (s.family live).hanging p :=
    decide_eq_decide.mpr (has_drop_of_disjoint (by decide))
  have hwait : decide (Has (drop (s.entry p).status procStatusStop) procStatusWating) =
      (s.family live).waiting p :=
    decide_eq_decide.mpr (has_drop_of_disjoint (by decide))
  refine ⟨exact_modProc h.exact rfl rfl, h.head, ?_⟩
  rw [ExitState.drop, family_modStatus s live p fun w => BitFlags.drop w procStatusStop]
  simp only [hhang, hwait, Function.update_eq_self]
  exact h.even

/-- Between two writes to an entry, a link is set. -/
theorem entry_relinked {k : Kernel} {g : Process → Process} {o : Option Pid} (hp : p ≠ c) :
    (((k.modProc c f).setNext q o).modProc c g).procTable p =
      { k.procTable p with next := ((((k.modProc c f).setNext q o).modProc c g).procTable p).next } := by
  rw [entry_modProc_of_ne hp, Kernel.setNext]
  by_cases hq : p = q
  · rw [hq] at hp ⊢
    rw [entry_modProc_self, entry_modProc_of_ne hp]
  · rw [entry_modProc_of_ne hq, entry_modProc_of_ne hp]

/-- What `ALLOC_PROC` does to the other entries. -/
theorem entries_allocProc {addr : ℕ} (hhead : t.kernel.procList = some q)
    (hcall : ProcTable.allocProc fuel t = some (t', addr)) (hc : procAt addr = some c) :
    t'.kernel.procList = some q ∧
      ∀ p ≠ c, t'.kernel.procTable p =
        { t.kernel.procTable p with next := (t'.kernel.procTable p).next } := by
  rcases allocProc_inv hcall with ⟨-, -, rfl⟩ | ⟨c', k₁, -, -, -, rfl, happend, rfl⟩
  · cases hc
  · rw [procAt_procAddr] at hc
    obtain rfl := Option.some.inj hc
    have hlist : (t.kernel.modProc c' fun _ => { (default : Process) with status := procStatusStop }).procList =
        some q := hhead
    unfold Kernel.appendProc at happend
    rw [hlist] at happend
    obtain ⟨last, -, rfl⟩ := Option.map_eq_some_iff.mp happend
    refine ⟨hhead, fun p hp => ?_⟩
    exact entry_relinked (q := last) (k := t.kernel) (f := fun _ => { (default : Process) with status := procStatusStop })
      (g := fun pr => { pr with next := none, parentPid := 1, pid := c' }) (o := some c') hp

/-- A child has been added. -/
theorem family_child (hothers : ∀ q ≠ c, Alike (s.entry q) (s'.entry q))
    (hparent : (s'.entry c).parentPid = p) (hhang : ¬ s'.Is c procStatusHanging)
    (hwait : ¬ s'.Is c procStatusWating) (hmail : s'.mailbox = s.mailbox) (hreports : s'.reports = s.reports) :
    s'.family (insert c live) = (s.family live).add c p (s'.entry c).exitStatus := by
  refine Family.ext rfl ?_ ?_ ?_ ?_ hmail hreports
  · funext q
    show (s'.entry q).parentPid = Function.update (s.family live).parent c p q
    by_cases hq : q = c
    · rw [hq, Function.update_self, hparent]
    · rw [Function.update_of_ne hq]
      exact (hothers q hq).parentPid
  · funext q
    show (s'.entry q).exitStatus = Function.update (s.family live).exitStatus c _ q
    by_cases hq : q = c
    · rw [hq, Function.update_self]
    · rw [Function.update_of_ne hq]
      exact (hothers q hq).exitStatus
  · funext q
    show decide (s'.Is q procStatusHanging) = Function.update (s.family live).hanging c false q
    by_cases hq : q = c
    · rw [hq, Function.update_self, decide_eq_false hhang]
    · rw [Function.update_of_ne hq]
      exact decide_eq_decide.mpr (hothers q hq).hanging
  · funext q
    show decide (s'.Is q procStatusWating) = Function.update (s.family live).waiting c false q
    by_cases hq : q = c
    · rw [hq, Function.update_self, decide_eq_false hwait]
    · rw [Function.update_of_ne hq]
      exact decide_eq_decide.mpr (hothers q hq).wating

/-- The table when the child has been filled. -/
def filled (t : ProcTable) (p c : Pid) (pgDir : ℕ) (info : Option ProgInfo) (m u : ForkProc.Allocators) : ProcTable :=
  (ForkProc.ForkState.finishChild { (⟨t, m, []⟩ : ForkProc.ForkState).fillChild p c with mem := u } p c pgDir info).table

theorem entry_filled {d : ℕ} {i : Option ProgInfo} {m u : ForkProc.Allocators} (hq : q ≠ c) :
    (filled t p c d i m u).kernel.procTable q = t.kernel.procTable q := by
  have hfill : ((⟨t, m, []⟩ : ForkProc.ForkState).fillChild p c).entry q = t.kernel.procTable q := by
    rw [ForkProc.ForkState.fillChild, ForkProc.entry_modProc_of_ne hq]
    rfl
  refine Eq.trans ?_ hfill
  show (ForkProc.ForkState.finishChild _ p c d i).entry q = _
  rw [ForkProc.ForkState.finishChild, ForkProc.entry_modProc_of_ne hq]
  rfl

theorem entry_filled_child {d : ℕ} {i : Option ProgInfo} {m u : ForkProc.Allocators} (hp : p ≠ c) :
    ((filled t p c d i m u).kernel.procTable c).parentPid = p ∧
      ((filled t p c d i m u).kernel.procTable c).status = (t.kernel.procTable p).status := by
  have hchild : (((⟨t, m, []⟩ : ForkProc.ForkState).fillChild p c).entry c).parentPid = p := by
    rw [ForkProc.ForkState.fillChild, ForkProc.entry_modProc_self]
  have hparent : ((⟨t, m, []⟩ : ForkProc.ForkState).fillChild p c).entry p = t.kernel.procTable p := by
    rw [ForkProc.ForkState.fillChild, ForkProc.entry_modProc_of_ne hp]
    rfl
  constructor
  · refine Eq.trans ?_ hchild
    show ((ForkProc.ForkState.finishChild _ p c d i).entry c).parentPid = _
    rw [ForkProc.ForkState.finishChild, ForkProc.entry_modProc_self]
    rfl
  · refine Eq.trans ?_ (congrArg Process.status hparent)
    show ((ForkProc.ForkState.finishChild _ p c d i).entry c).status = _
    rw [ForkProc.ForkState.finishChild, ForkProc.entry_modProc_self]
    rfl

/-- The child is a copy of the parent. -/
theorem Kept.child {addr : ℕ} {d : ℕ} {i : Option ProgInfo} {m u : ForkProc.Allocators}
    (h : Kept x s a live l) (hroom : HasRoom s.table) (hp : p ∈ l) (hhang : ¬ s.Is p procStatusHanging)
    (hwait : ¬ s.Is p procStatusWating) (hcall : ProcTable.allocProc fuel s.table = some (t, addr))
    (hc : procAt addr = some c) :
    ∃ live' l', Kept x { s with table := filled t p c d i m u }
      { a with forker := Function.update a.forker c p } live' l' := by
  obtain ⟨⟨l', hexact⟩, hdead⟩ := h.exact.alloc hroom hcall
  obtain ⟨hhead, hothers⟩ := entries_allocProc h.head hcall hc
  have hnot : c ∉ live := hdead c hc
  have hpc : p ≠ c := fun he => hnot (he ▸ h.live_iff.mp hp)
  have hfirst : Exact ({ s with table := t } : ExitState).table (fun q => q ∈ insert c live) l' := by
    refine hexact.congr_live fun q => ?_
    rw [hc, Option.some.injEq, Finset.mem_insert]
    exact ⟨fun hq => hq.elim (fun he => Or.inr he.symm) Or.inl, fun hq => hq.elim Or.inr fun he => Or.inl he.symm⟩
  have hentry : ∀ q ≠ c, (filled t p c d i m u).kernel.procTable q =
      { s.entry q with next := (t.kernel.procTable q).next } := fun q hq =>
    (entry_filled hq).trans (hothers q hq)
  obtain ⟨hparent, hstatus⟩ := entry_filled_child (t := t) (d := d) (i := i) (m := m) (u := u) hpc
  have hsame : ((filled t p c d i m u).kernel.procTable c).status = (s.entry p).status := by
    rw [hstatus, hothers p hpc]
    rfl
  refine ⟨insert c live, l', ?_, hhead, ?_⟩
  · exact exact_modProc (s := { s with table := ((⟨t, m, []⟩ : ForkProc.ForkState).fillChild p c).table })
      (exact_modProc hfirst rfl rfl) rfl rfl
  · have hfamily : ExitState.family { s with table := filled t p c d i m u } (insert c live) =
        (s.family live).add c p ((filled t p c d i m u).kernel.procTable c).exitStatus := by
      refine family_child (fun q hq => ?_) hparent ?_ ?_ rfl rfl
      · show Alike _ ((filled t p c d i m u).kernel.procTable q)
        rw [hentry q hq]
        exact ⟨rfl, rfl, Iff.rfl, Iff.rfl⟩
      · show ¬ Has ((filled t p c d i m u).kernel.procTable c).status procStatusHanging
        rw [hsame]
        exact hhang
      · show ¬ Has ((filled t p c d i m u).kernel.procTable c).status procStatusWating
        rw [hsame]
        exact hwait
    rw [hfamily]
    exact h.even.add hnot

/-- Without an answer the table stays; with one, parent and child run. -/
theorem Kept.answer {u : ForkProc.ForkState} {major : ℕ} {child : Option Pid}
    (h : Kept x { s with table := u.table } a live l) :
    Kept x { s with table := (u.answer p major child).table } a live l := by
  rw [ForkProc.ForkState.answer]
  by_cases hnull : major = 0
  · rw [if_pos hnull]
    exact h
  · rw [if_neg hnull]
    cases child with
    | none => exact h
    | some c => exact (h.drop_stop p).drop_stop c

/-- **A fork keeps the accounts even.** -/
theorem Kept.forkRequest {mem : ForkProc.Allocators} {child : Option Pid} (h : Kept (fun _ => False) s a live l)
    (hcaller : Caller s p) (hroom : ∀ s₁, s.serve fuel = some s₁ → HasRoom s₁.table)
    (hcall : forkRequest fuel mem p s = some (s', child)) :
    ∃ live' l', Kept (fun _ => False) s' (a.forked p child) live' l' := by
  obtain ⟨s₁, hs₁, hfork⟩ := Option.bind_eq_some_iff.mp hcall
  obtain ⟨-, live₁, hkept⟩ := h.serve hs₁
  obtain ⟨hp, hhang, hwait⟩ := h.caller hcaller hs₁
  obtain ⟨⟨u, major, child'⟩, hproc, hresult⟩ := Option.map_eq_some_iff.mp hfork
  obtain ⟨rfl, rfl⟩ := Prod.mk.inj hresult
  have hstopped := hkept.raise_stop p
  have hstatus : ∀ mask, procStatusStop &&& mask = 0 → ((s₁.raise p procStatusStop).Is p mask ↔ s₁.Is p mask) := by
    intro mask hmask
    show Has ((s₁.raise p procStatusStop).entry p).status mask ↔ _
    rw [ExitState.raise, ExitState.entry_modProc_self]
    exact has_raise_of_disjoint hmask
  obtain ⟨⟨t, addr⟩, halloc, hrest⟩ := Option.bind_eq_some_iff.mp hproc
  cases hchild : procAt addr with
  | none =>
    rcases allocProc_inv halloc with ⟨-, rfl, -⟩ | ⟨c, k, -, -, -, rfl, -, -⟩
    · simp only [hchild, Option.some.injEq, Prod.mk.injEq] at hrest
      obtain ⟨rfl, rfl, rfl⟩ := hrest
      exact ⟨live₁, _, Kept.answer (p := p) (u := ⟨(s₁.raise p procStatusStop).table, _, _⟩) hstopped⟩
    · rw [procAt_procAddr] at hchild
      cases hchild
  | some c =>
    simp only [hchild] at hrest
    obtain ⟨⟨m, pgDir⟩, -, hlast⟩ := Option.map_eq_some_iff.mp hrest
    simp only [Prod.mk.injEq] at hlast
    obtain ⟨rfl, rfl, rfl⟩ := hlast
    have hhang' := fun hh => hhang ((hstatus procStatusHanging (by decide)).mp hh)
    have hwait' := fun hw => hwait ((hstatus procStatusWating (by decide)).mp hw)
    obtain ⟨live', l', hfilled⟩ := hstopped.child (d := pgDir) (m := mem) (hroom s₁ hs₁) hp hhang' hwait' halloc hchild
    exact ⟨live', l', Kept.answer hfilled⟩

/-! ### Runs -/

theorem Kept.other (h : Kept x s a live l) (hsame : SameFamily s.table t) :
    Kept x { s with table := t } a live l := by
  have hnext : t.kernel.next = s.table.kernel.next := funext hsame.next
  have hfamily : ExitState.family { s with table := t } live = s.family live := by
    refine Family.ext rfl ?_ ?_ ?_ ?_ rfl rfl
    · exact funext fun p => (hsame.alike p).parentPid
    · exact funext fun p => (hsame.alike p).exitStatus
    · exact funext fun p => decide_eq_decide.mpr (hsame.alike p).hanging
    · exact funext fun p => decide_eq_decide.mpr (hsame.alike p).wating
  refine ⟨⟨⟨?_, h.exact.nodup, fun p hp => ?_, ?_⟩, h.exact.mem_iff, fun p => ?_⟩, ?_, ?_⟩
  · rw [hnext, hsame.procList]
    exact h.exact.chain
  · exact (hsame.pid p).trans (h.exact.pid_eq p hp)
  · exact hsame.procCount.trans h.exact.count
  · rw [hsame.procBitmap]
    exact h.exact.bit_iff p
  · exact hsame.procList.trans h.head
  · rw [hfamily]
    exact h.even

/-- **A step keeps the accounts even.** -/
theorem Books.step (h : Books b) (hstep : LedgerStep b e b') : Books b' := by
  obtain ⟨live, l, hkept⟩ := h
  cases hstep with
  | systask hcall =>
    obtain ⟨-, live', hserved⟩ := hkept.serve hcall
    exact ⟨live', _, hserved⟩
  | other hsame => exact ⟨live, l, hkept.other hsame⟩
  | fork hcaller hroom hcall => exact hkept.forkRequest hcaller hroom hcall
  | exit hcaller hcall => exact hkept.exitRequest hcaller hcall
  | wait hcaller hcall => exact hkept.waitRequest hcaller hcall

theorem Recorded.extend {tr : List (Transition Ledger LedgerEvent)} (h : Recorded tr b)
    (hstep : LedgerStep b e b') : Recorded (tr ++ [⟨b, e, b'⟩]) b' := by
  obtain ⟨hexits, hwaits⟩ := h
  cases hstep with
  | systask hcall => exact ⟨by simpa [LedgerEvent.exited] using hexits, by simpa [LedgerEvent.waiter] using hwaits⟩
  | other hsame => exact ⟨by simpa [LedgerEvent.exited] using hexits, by simpa [LedgerEvent.waiter] using hwaits⟩
  | @fork fuel mem p s child hcaller hroom hcall =>
    have hfork : (b.accounts.forked p child).exits = b.accounts.exits ∧
        (b.accounts.forked p child).waits = b.accounts.waits := by
      cases child with
      | none => exact ⟨rfl, rfl⟩
      | some c => exact ⟨rfl, rfl⟩
    constructor
    · simpa [LedgerEvent.exited, hfork.1] using hexits
    · simpa [LedgerEvent.waiter, hfork.2] using hwaits
  | exit hcaller hcall =>
    constructor
    · simp [LedgerEvent.exited, hexits]
    · simpa [LedgerEvent.waiter] using hwaits
  | wait hcaller hcall =>
    constructor
    · simpa [LedgerEvent.exited] using hexits
    · simp [LedgerEvent.waiter, hwaits]

theorem Books.start (ht : Exact t (fun p => p ∈ live) l) (hhead : t.kernel.procList = some 0)
    (hcalm : ∀ p, ¬ t.kernel.Is p procStatusHanging ∧ ¬ t.kernel.Is p procStatusWating) : Books (.start t) := by
  have hnone : ((Ledger.start t).state.family live).unreportedSet = ∅ := by
    refine Finset.eq_empty_of_forall_notMem fun p hp => ?_
    exact (hcalm p).1 (of_decide_eq_true (Exit.mem_unreportedSet.mp hp).2.1)
  have hoff : ∀ p, ((Ledger.start t).state.family live).waiting p = false := fun p => decide_eq_false (hcalm p).2
  refine ⟨live, l, ht, hhead, ?_⟩
  constructor
  case leaving => exact fun c hc => absurd hc List.not_mem_nil
  case nodup => exact List.nodup_nil
  case hanging => exact fun p _ hh => absurd (of_decide_eq_true hh) (hcalm p).1
  case off => exact fun p _ => hoff p
  case exits =>
    rw [Family.unreported, hnone]
    rfl
  case waits =>
    intro p
    rw [hoff p]
    rfl
  case unserved => exact fun p _ _ => hoff _
  case kin =>
    rw [hnone]
    exact fun p hp => absurd hp (Finset.notMem_empty p)
  case receivers => exact fun r hr => absurd hr List.not_mem_nil
  case forked => exact fun p _ => Or.inl rfl

/-- **The accounts are even** after every sequence of requests, whenever SysTask runs. -/
theorem books_of_run {tr : List (Transition Ledger LedgerEvent)} (ht : Exact t (fun p => p ∈ live) l)
    (hhead : t.kernel.procList = some 0)
    (hcalm : ∀ p, ¬ t.kernel.Is p procStatusHanging ∧ ¬ t.kernel.Is p procStatusWating)
    (hrun : Run LedgerStep (.start t) tr b) : Books b ∧ Recorded tr b := by
  constructor
  · exact hrun.invariant (Books.start ht hhead hcalm) fun _ _ _ h hstep => h.step hstep
  · induction hrun with
    | start => exact ⟨rfl, rfl⟩
    | extend run hstep ih => exact ih.extend hstep

theorem exact_family (w : BitVec 32) : Exact (family w) (fun p => p ∈ Finset.range 4) [0, 1, 2, 3] where
  toListed := listed_family w
  mem_iff p := by
    have hlist : ∀ q : ℕ, q ∈ [0, 1, 2, 3] ↔ q < 4 := by
      intro q
      simp only [List.mem_cons, List.not_mem_nil, or_false]
      omega
    exact (hlist p).trans Finset.mem_range.symm
  bit_iff p := by
    have hword : ∀ q < 32, (0xF#32).getLsbD q = true ↔ q ∈ Finset.range 4 := by decide
    show checkBit [0xF#32] p = true ↔ _
    by_cases hp : p < 32
    · rw [checkBit, Nat.div_eq_of_lt hp, Nat.mod_eq_of_lt hp]
      exact hword p hp
    · have hdiv : p / 32 ≠ 0 := by omega
      obtain ⟨n, hn⟩ := Nat.exists_eq_succ_of_ne_zero hdiv
      have hout : p ∉ Finset.range 4 := by
        rw [Finset.mem_range]
        omega
      rw [checkBit, hn]
      exact iff_of_false (by simp) hout

/-- Process 1 waits. -/
def demoWaiting : ExitState :=
  ((waitRequest 10 1 (.start (family procStatusRunning))).getD (.start (family procStatusRunning), [])).1

/-- Process 2 exits and is reported. -/
def demoReported : ExitState := (exitRequest 10 (fun _ => false) 2 9 demoWaiting).getD demoWaiting

/-- Process 3 exits, whose parent is gone, and hangs. -/
def demoHanging : ExitState := (exitRequest 10 (fun _ => true) 3 7 demoReported).getD demoReported

theorem demo_wait : waitRequest 10 1 (.start (family procStatusRunning)) = some (demoWaiting, []) := rfl

theorem demo_exit_child : exitRequest 10 (fun _ => false) 2 9 demoWaiting = some demoReported := some_getD rfl

theorem demo_exit_orphan : exitRequest 10 (fun _ => true) 3 7 demoReported = some demoHanging := some_getD rfl

theorem books_of_run_demo : ∃ tr b, Run LedgerStep (.start (family procStatusRunning)) tr b ∧ tr.length = 3 ∧
    b.state.reports.map (fun r => (r.receiver, r.pid, r.exitStatus)) = [(1, 2, 9)] ∧
    b.state.Is 3 procStatusHanging ∧ Books b ∧ Recorded tr b := by
  have hasks : Caller (.start (family procStatusRunning)) 1 :=
    ⟨⟨[0, 1, 2, 3], (listed_family _).chain, by decide⟩, by decide, by decide, by decide⟩
  have hexits : Caller demoWaiting 2 :=
    ⟨⟨[0, 1, 2, 3], Chain.cons (Chain.cons (Chain.cons (Chain.cons Chain.nil))), by decide⟩, by decide, by decide,
      by decide⟩
  have horphan : Caller demoReported 3 :=
    ⟨⟨[0, 1, 3], Chain.cons (Chain.cons (Chain.cons Chain.nil)), by decide⟩, by decide, by decide, by decide⟩
  have hcalm : ∀ p, ¬ (family procStatusRunning).kernel.Is p procStatusHanging ∧
      ¬ (family procStatusRunning).kernel.Is p procStatusWating := by
    intro p
    have hstatus : ((family procStatusRunning).kernel.procTable p).status = procStatusRunning := by
      show (if p = 1 then procStatusRunning else procStatusRunning) = _
      rw [ite_self]
    show ¬ Has ((family procStatusRunning).kernel.procTable p).status _ ∧ ¬ Has ((family procStatusRunning).kernel.procTable p).status _
    rw [hstatus]
    decide
  have hrun := ((Run.start.extend (LedgerStep.wait (b := .start (family procStatusRunning)) hasks demo_wait)).extend
    (LedgerStep.exit hexits demo_exit_child)).extend (LedgerStep.exit horphan demo_exit_orphan)
  exact ⟨_, _, hrun, rfl, rfl, by decide, books_of_run (exact_family _) rfl hcalm hrun⟩

end OmochaOS.Exit
