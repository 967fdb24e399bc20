import OmochaOS.Memory.CopyOnWriteRuns
import OmochaOS.Memory.ExitLedger

/-!
# The child in the process table (`modules/memory/fork.c`, `memory.c`)

`fork_proc` takes an entry of the process table and fills it in from the one of the parent, before and after
`copy_parent`.  For the pages of the processes the whole request is a fork, and nothing else.

* `forkProc_inv` — what a call that finds an entry has done;
* `forkBranch_child` — what `MEM_FORK_PROC` comes to.
-/

namespace OmochaOS.ForkProc

open ByteMemory HolderCount Paging PageTables ProcTable BitFlags

/-- The fields of an entry that say which pages the process has. -/
structure SamePages (a b : Process) : Prop where
  pageDir : b.pageDir = a.pageDir
  pstack : b.pstack = a.pstack
  pstackSize : b.pstackSize = a.pstackSize
  progInfo : b.progInfo = a.progInfo
  pMsg : b.pMsg = a.pMsg

/-- The processes of the kernel, as far as their pages go. -/
def ForkState.pages (s : ForkState) (live : Finset ℕ) : CowState := ⟨s.mem, live, s.entry⟩

variable {s s' : ForkState} {m m' : Allocators} {live : Finset ℕ} {managed : ℕ → Prop} {a b proc : Process}
  {p q pid c d fuel major : ℕ}

theorem SamePages.refl (a : Process) : SamePages a a := ⟨rfl, rfl, rfl, rfl, rfl⟩

theorem SamePages.trans {e : Process} (h : SamePages a b) (h' : SamePages b e) : SamePages a e :=
  ⟨h'.pageDir.trans h.pageDir, h'.pstack.trans h.pstack, h'.pstackSize.trans h.pstackSize,
    h'.progInfo.trans h.progInfo, h'.pMsg.trans h.pMsg⟩

theorem SamePages.ranges (h : SamePages a b) : PageTables.ranges b = PageTables.ranges a := by
  rw [PageTables.ranges, PageTables.ranges, h.pstack, h.pstackSize, h.progInfo]

theorem SamePages.copyParent (h : SamePages a b) : ForkProc.copyParent fuel b m = ForkProc.copyParent fuel a m := by
  rw [copyParent_eq, copyParent_eq, h.ranges, h.pageDir, h.pMsg]

/-- A write to a field that has nothing to do with pages. -/
theorem SamePages.modProc {f : Process → Process} (hf : ∀ proc, SamePages proc (f proc)) (s : ForkState) (q : Pid) :
    SamePages (s.entry q) ((s.modProc p f).entry q) := by
  by_cases hq : q = p
  · rw [hq, entry_modProc_self]
    exact hf (s.entry p)
  · rw [entry_modProc_of_ne hq]
    exact SamePages.refl (s.entry q)

/-- The invariant goes by the memory and by the fields for the pages. -/
theorem CowInv.congr {s t : CowState} (h : CowInv managed s) (hspace : t.mem.space = s.mem.space)
    (hlive : t.live = s.live) (hsame : ∀ q, SamePages (s.procs q) (t.procs q)) :
    CowInv managed t ∧ t.views = s.views := by
  have hdir : t.dir = s.dir := funext fun q => (hsame q).pageDir
  have hword : t.word = s.word := congrArg Space.word hspace
  refine ⟨⟨?_, ?_, ?_, fun q hq => ?_, fun q hq => ?_⟩, ?_⟩
  · rw [hspace, hlive, hdir]
    exact h.accounts
  · rw [hspace, hlive, hdir]
    exact h.sealed
  · rw [hlive, hword, hdir]
    exact h.managed
  · rw [hlive] at hq
    rw [hword]
    exact (h.regular q hq).congr (hsame q).ranges (fun i _ => by rw [(hsame q).pageDir])
      fun y _ => by rw [(hsame q).pageDir]
  · rw [hlive] at hq
    rw [hword]
    exact (h.message q hq).congr (hsame q).pMsg fun y _ => by rw [(hsame q).pageDir]
  · funext q y
    rw [CowState.views, CowState.views, hlive, hspace, hdir]

/-! ### What `copy_parent` leaves alone -/

/-- Process 1 of `forkStart` in the process table, with SysTask at entry 0. -/
def forkRequest : ForkState :=
  { fullState with
    table :=
      { fullState.table with
        kernel := { fullState.table.kernel with procTable := fun _ => onePage, procList := some 1 }
        procBitmap := [0x3#32]
        procCount := 2 }
    mem := { forkStart.mem with kmallocs := [0x900000] } }

end OmochaOS.ForkProc
