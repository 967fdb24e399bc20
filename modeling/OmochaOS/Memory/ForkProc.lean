import OmochaOS.Kernel.ProcTable
import OmochaOS.Memory.PageTables

/-!
# Forking a process (`modules/memory/fork.c`, `memory.c`)

`fork_proc` stops the parent, takes an entry from SysTask and copies the parent into it.  `copy_parent` shares
the page tables of the parent, takes the write bit from every page, and gives the child its own copy of the
pages that hold the message of the parent.  Null pointers are addresses here, as they are for `Task_Memory`.

* `forkProc_stopped` — the parent is stopped when `fork_proc` returns;
* `forkBranch_cases` — what becomes of a request;
* `failedFork_iff` — no fork that fails leaves all as it was.
-/

namespace OmochaOS.ForkProc

open ByteMemory Paging PageTables ProcTable BitFlags

def sizeofMessage : ℕ := 32

/-- `PGROUNDUP`, in 32 bits. -/
def pageUp (a : ℕ) : ℕ := pageOf ((a + 0xFFF) % 2 ^ 32)

/-- What `Task_Memory` works on: the memory, the answers of `mem_kmalloc`, and whether an allocation has failed so
far. -/
structure Allocators where
  space : Space
  kmallocs : List ℕ
  failed : Bool

namespace Allocators

variable (m : Allocators)

def mapSpace (f : Space → Space) : Allocators := { m with space := f m.space }

/-- `page_alloc` of one page. -/
def pageAlloc : Allocators × PAddr :=
  ({ m with space := m.space.pageAlloc.1, failed := m.failed || (m.space.pageAlloc.2 == 0) }, m.space.pageAlloc.2)

/-- `mem_kmalloc`. -/
def kmalloc : Allocators × ℕ :=
  let p := m.kmallocs.headD 0
  ({ m with kmallocs := m.kmallocs.tail, failed := m.failed || (p == 0) }, p)

/-- `create_page_dir`. -/
def createPageDir (sysAttr : ℕ) : Allocators × ℕ :=
  let r := PageTables.createPageDir m.space sysAttr
  ({ m with space := r.1, failed := m.failed || (r.2 == 0) }, r.2)

end Allocators

/-! ### `copy_parent` -/

/-- The entries from `i` on are shared. -/
def shareTables (parentDir pgDir : ℕ) : (n i : ℕ) → Space → Space
  | 0, _, m => m
  | n + 1, i, m =>
    let m := m.store (pgDir + 4 * i) (m.word (parentDir + 4 * i))
    shareTables parentDir pgDir n (i + 1) (m.increasePageRef (pageOf (m.word (pgDir + 4 * i))))

/-- The pages from `va` on lose their write bit. -/
def sharePages (pgDir : ℕ) : (n va : ℕ) → Space → Space
  | 0, _, m => m
  | n + 1, va, m =>
    let pa := vir2phy m.word pgDir va
    let pte := getPte m.word pgDir va
    let m := m.store pte (clearWritable (m.word pte))
    sharePages pgDir n (va + 0x1000) (m.increasePageRef pa)

/-- The rounds of a loop over the pages of `start` up to `stop`. -/
def pageRounds (start stop : ℕ) : ℕ := (pageUp stop - pageOf start) / 0x1000

/-- The pages of the message are copied, and the page tables that they are in. -/
def copyMessage (parentDir pgDir last : ℕ) : (fuel va : ℕ) → Allocators → Option Allocators
  | 0, _, _ => none
  | fuel + 1, va, m =>
    if va ≤ last then
      let oldPa := vir2phy m.space.word parentDir va
      let (m, newPa) := m.pageAlloc
      let m := m.mapSpace fun m => (m.copyPage newPa oldPa).decreasePageRef oldPa
      let oldPgTab := pageOf (m.space.word (pgDir + 4 * dirIndex va))
      let m := m.mapSpace fun m => m.decreasePageRef oldPgTab
      let (m, pgTab) := m.pageAlloc
      let m := m.mapSpace fun m => (m.copyPage pgTab oldPgTab).store (pgDir + 4 * dirIndex va)
        (pgTab ||| pgPresent ||| pgUser ||| pgWritable)
      let m := m.mapSpace fun m => m.store (getPte m.word pgDir va) (newPa ||| pgPresent ||| pgUser ||| pgWritable)
      copyMessage parentDir pgDir last fuel (nextPage va) m
    else some m

/-- `copy_parent`. -/
def copyParent (fuel : ℕ) (parent : Process) (m : Allocators) : Option (Allocators × ℕ) :=
  let (m, pgDir) := m.createPageDir pgWritable
  let stackStart := parent.pstack
  let stackEnd := (parent.pstack + parent.pstackSize) % 2 ^ 32
  let m := m.mapSpace fun m =>
    sharePages pgDir (pageRounds stackStart stackEnd) (pageOf stackStart)
      (shareTables parent.pageDir pgDir (dirIndex stackEnd - dirIndex stackStart) (dirIndex stackStart) m)
  let m := match parent.progInfo with
    | none => m
    | some info => m.mapSpace fun m =>
      sharePages pgDir (pageRounds info.imageStart info.programBreak) (pageOf info.imageStart)
        (shareTables parent.pageDir pgDir (dirIndex info.programBreak + 1 - dirIndex info.imageStart)
          (dirIndex info.imageStart) m)
  let msgVa := parent.pMsg
  if msgVa = 0 then some (m, pgDir)
  else
    let msgPgs := if 0xFFF - msgVa % 0x1000 < sizeofMessage then 2 else 1
    let last := pageOf ((pageOf msgVa + msgPgs * 0x1000 - 1) % 2 ^ 32)
    (copyMessage parent.pageDir pgDir last fuel (pageOf msgVa) m).map fun m => (m, pgDir)

/-! ### `fork_proc` -/

structure ForkState where
  table : ProcTable
  mem : Allocators
  /-- the answers of `Task_Memory`, with what is in `major` -/
  sent : List (Pid × ℕ)

/-- `proc_table[p]`. -/
def ForkState.entry (s : ForkState) (p : Pid) : Process := s.table.kernel.procTable p

def ForkState.modProc (s : ForkState) (p : Pid) (f : Process → Process) : ForkState :=
  { s with table := { s.table with kernel := s.table.kernel.modProc p f } }

/-- `p->status |= PROC_STATUS_STOP`. -/
def ForkState.stop (s : ForkState) (p : Pid) : ForkState :=
  s.modProc p fun proc => { proc with status := raise proc.status procStatusStop }

/-- `p->status &= ~PROC_STATUS_STOP`. -/
def ForkState.unstop (s : ForkState) (p : Pid) : ForkState :=
  s.modProc p fun proc => { proc with status := drop proc.status procStatusStop }

/-- `send_msg` with `major`. -/
def ForkState.send (s : ForkState) (receiver : Pid) (major : ℕ) : ForkState :=
  { s with sent := s.sent ++ [(receiver, major)] }

/-- The record at the null pointer. -/
def recordAtNull (m : Space) : ProgInfo :=
  { programSize := m.word 0, programBreak := m.word 4, imageStart := m.word 8 }

/-- `memcpy` of a record to the null pointer. -/
def storeAtNull (m : Space) (info : ProgInfo) : Space :=
  ((m.store 0 info.programSize).store 4 info.programBreak).store 8 info.imageStart

/-- The record of the child. -/
def copyInfo (m : Allocators) (info : Option ProgInfo) : Allocators × Option ProgInfo :=
  let (m, p) := m.kmalloc
  let info := info.getD (recordAtNull m.space)
  if p = 0 then (m.mapSpace fun m => storeAtNull m info, none) else (m, some info)

/-- What the child gets of the parent at first. -/
def ForkState.fillChild (s : ForkState) (pid child : Pid) : ForkState :=
  s.modProc child fun proc =>
    { proc with
      parentPid := pid
      stack := (s.entry pid).stack
      pstack := (s.entry pid).pstack
      pstackSize := (s.entry pid).pstackSize
      queneBody := none
      queneHeadSendingToThisProcess := none
      pMsg := (s.entry pid).pMsg }

/-- What it gets after the copy. -/
def ForkState.finishChild (s : ForkState) (pid child : Pid) (pgDir : ℕ) (info : Option ProgInfo) : ForkState :=
  s.modProc child fun proc => { proc with pageDir := pgDir, progInfo := info, status := (s.entry pid).status }

/-- `fork_proc`: what it returns, and the child. -/
def forkProc (fuel : ℕ) (s : ForkState) (pid : Pid) : Option (ForkState × ℕ × Option Pid) :=
  let s := s.stop pid
  (ProcTable.allocProc fuel s.table).bind fun (t, a) =>
    let s := { s with table := t }
    match procAt a with
    | none => some ({ s with mem := { s.mem with failed := true } }, 0, none)
    | some child =>
      let s := s.fillChild pid child
      (copyParent fuel (s.entry pid) s.mem).map fun (m, pgDir) =>
        let (m, info) := copyInfo m (s.entry pid).progInfo
        let s := ({ s with mem := m } : ForkState).finishChild pid child pgDir info
        (s, (s.entry child).pid, some child)

/-- The answers, and the end of the stop. -/
def ForkState.answer (s : ForkState) (pid : Pid) (major : ℕ) (child : Option Pid) : ForkState :=
  if major = 0 then s.send pid 0xFFFFFFFF
  else
    let s := (s.send pid major).send major 0
    match child with
    | none => s
    | some child => (s.unstop pid).unstop child

/-- The branch for `MEM_FORK_PROC`. -/
def forkBranch (fuel : ℕ) (s : ForkState) (pid : Pid) : Option ForkState :=
  (forkProc fuel s pid).map fun r => r.1.answer pid r.2.1 r.2.2

/-! ### A fork that fails -/

/-- What is to be left of a fork of `pid` that fails. -/
structure Harmless (s s' : ForkState) (pid : Pid) : Prop where
  answered : s'.sent = s.sent ++ [(pid, 0xFFFFFFFF)]
  status : (s'.entry pid).status = (s.entry pid).status
  tables : ∀ va, getPte s'.mem.space.word (s.entry pid).pageDir va = getPte s.mem.space.word (s.entry pid).pageDir va ∧
    pteOf s'.mem.space.word (pdeOf s'.mem.space.word (s.entry pid).pageDir va) va =
      pteOf s.mem.space.word (pdeOf s.mem.space.word (s.entry pid).pageDir va) va
  references : s'.mem.space.reference = s.mem.space.reference
  bits : s'.table.procBitmap = s.table.procBitmap
  entries : ∀ p ≠ pid, s'.entry p = s.entry p

variable {s s' : ForkState} {p q pid : Pid} {f : Process → Process} {fuel major : ℕ} {child : Option Pid}

theorem entry_modProc_self : (s.modProc p f).entry p = f (s.entry p) := ProcTable.entry_modProc_self

theorem entry_modProc_of_ne (hq : q ≠ p) : (s.modProc p f).entry q = s.entry q := ProcTable.entry_modProc_of_ne hq

theorem status_fillChild : ((s.fillChild pid p).entry q).status = (s.entry q).status := by
  by_cases hq : q = p
  · rw [hq, ForkState.fillChild, entry_modProc_self]
  · rw [ForkState.fillChild, entry_modProc_of_ne hq]

/-- The child gets the status of the parent, which keeps its own. -/
theorem status_finishChild {pgDir : ℕ} {info : Option ProgInfo} :
    ((s.finishChild pid p pgDir info).entry pid).status = (s.entry pid).status := by
  by_cases hpid : pid = p
  · subst hpid
    rw [ForkState.finishChild, entry_modProc_self]
  · rw [ForkState.finishChild, entry_modProc_of_ne hpid]

/-- `alloc_proc` leaves a process stopped. -/
theorem allocProc_stopped {t t' : ProcTable} {a : ℕ} (hcall : ProcTable.allocProc fuel t = some (t', a))
    (hstop : Has (t.kernel.procTable p).status procStatusStop) :
    Has (t'.kernel.procTable p).status procStatusStop := by
  rcases allocProc_inv hcall with ⟨-, rfl, -⟩ | ⟨c, k₁, -, -, -, -, happend, rfl⟩
  · exact hstop
  · have hstatus : k₁.status p = (t.kernel.modProc c fun _ => { (default : Process) with status := procStatusStop }).status p :=
      congrFun (Kernel.appendProc_fields happend).2.1 p
    have hlast : ((k₁.modProc c fun pr => { pr with next := none, parentPid := 1, pid := c }).procTable p).status =
        k₁.status p := by
      by_cases hp : p = c
      · rw [hp, ProcTable.entry_modProc_self]
        rfl
      · rw [ProcTable.entry_modProc_of_ne hp]
        rfl
    rw [hlast, hstatus]
    show Has ((t.kernel.modProc c _).procTable p).status procStatusStop
    by_cases hp : p = c
    · rw [hp, ProcTable.entry_modProc_self]
      decide
    · rw [ProcTable.entry_modProc_of_ne hp]
      exact hstop

/-- **The parent is stopped** when `fork_proc` returns, and nobody has been answered. -/
theorem forkProc_stopped (hcall : forkProc fuel s pid = some (s', major, child)) :
    Has (s'.entry pid).status procStatusStop ∧ s'.sent = s.sent := by
  obtain ⟨⟨t, a⟩, halloc, hrest⟩ := Option.bind_eq_some_iff.mp hcall
  have hraised : Has ((s.stop pid).entry pid).status procStatusStop := by
    rw [ForkState.stop, entry_modProc_self]
    exact has_raise_self (by decide)
  have hstop : Has (t.kernel.procTable pid).status procStatusStop := allocProc_stopped halloc hraised
  cases hchild : procAt a with
  | none =>
    simp only [hchild, Option.some.injEq, Prod.mk.injEq] at hrest
    obtain ⟨rfl, -, -⟩ := hrest
    exact ⟨hstop, rfl⟩
  | some c =>
    simp only [hchild] at hrest
    obtain ⟨⟨m, pgDir⟩, -, hlast⟩ := Option.map_eq_some_iff.mp hrest
    simp only [Prod.mk.injEq] at hlast
    obtain ⟨rfl, -, -⟩ := hlast
    refine ⟨?_, rfl⟩
    rw [status_finishChild]
    show Has ((ForkState.fillChild _ pid c).entry pid).status procStatusStop
    rw [status_fillChild]
    exact hstop

/-- **What becomes of a request**: the parent is answered and stays stopped, or two processes are answered. -/
theorem forkBranch_cases (hcall : forkBranch fuel s pid = some s') :
    Has (s'.entry pid).status procStatusStop ∨ ∃ major, s'.sent = s.sent ++ [(pid, major)] ++ [(major, 0)] := by
  obtain ⟨⟨u, major, child⟩, hfork, hrest⟩ := Option.map_eq_some_iff.mp hcall
  obtain ⟨hstop, hsent⟩ := forkProc_stopped hfork
  replace hrest : u.answer pid major child = s' := hrest
  rw [ForkState.answer] at hrest
  by_cases hnull : major = 0
  · rw [if_pos hnull] at hrest
    left
    rw [← hrest]
    exact hstop
  · rw [if_neg hnull] at hrest
    right
    refine ⟨major, ?_⟩
    cases child with
    | none =>
      rw [← hrest, ← hsent]
      rfl
    | some c =>
      rw [← hrest, ← hsent]
      rfl

/-- No fork of a process that runs leaves all as it was. -/
theorem not_harmless (hcall : forkBranch fuel s pid = some s') (hruns : ¬ Has (s.entry pid).status procStatusStop) :
    ¬ Harmless s s' pid := by
  intro h
  rcases forkBranch_cases hcall with hstop | ⟨major, hsent⟩
  · rw [h.status] at hstop
    exact hruns hstop
  · have hlength := congrArg List.length (h.answered.symm.trans hsent)
    simp only [List.length_append, List.length_singleton] at hlength
    omega

/-- **A fork that fails is never harmless**: what is to hold when an allocation fails holds where none fails. -/
theorem failedFork_iff (fuel : ℕ) (s s' : ForkState) (pid : Pid)
    (hruns : ¬ Has (s.entry pid).status procStatusStop) (hcall : forkBranch fuel s pid = some s') :
    (s'.mem.failed = true → Harmless s s' pid) ↔ s'.mem.failed = false := by
  constructor
  · intro h
    by_contra hfailed
    exact not_harmless hcall hruns (h (Bool.eq_true_of_not_eq_false hfailed))
  · intro hfailed h
    rw [hfailed] at h
    cases h

/-- All 32 entries are taken. -/
def fullState : ForkState where
  table :=
    { kernel :=
        { procTable p := { (default : Process) with pid := p, status := procStatusRunning }
          procList := some 0
          procRunning := some 0
          memory _ := default
          vir2phy _ va := va
          interruptSuscribed _ := 0
          interruptSuscribedData _ := default
          exceptionSuscribed _ := 0
          exceptionSuscribedData _ := default
          screen := [] }
      procBitmap := [0xFFFFFFFF#32]
      procCount := 32 }
  mem :=
    { space :=
        { bytes _ := 0
          reference _ := 0
          memoryStart := 0x800000
          aligned := by decide
          answers := []
          freed := [] }
      kmallocs := []
      failed := false }
  sent := []

/-- The state after process 5 has asked for a fork. -/
def fullState' : ForkState :=
  { fullState.stop 5 with mem := { fullState.mem with failed := true }, sent := [(5, 0xFFFFFFFF)] }

theorem forkBranch_fullState : forkBranch 0 fullState 5 = some fullState' := rfl

/-- Number 6 is free, and there is a frame for its page directory, but none for its message. -/
def dryState : ForkState :=
  { fullState with
    table :=
      { fullState.table with
        kernel := fullState.table.kernel.modProc 5 fun proc => { proc with pageDir := 0x900000, pMsg := 0x2000 }
        procBitmap := [0x3F#32]
        procCount := 6 }
    mem :=
      { fullState.mem with
        space := { fullState.mem.space with answers := [0x901000] }
        kmallocs := [0xA00000] } }

def dryState' : ForkState := (forkBranch 2 dryState 5).getD dryState

theorem forkBranch_dryState : forkBranch 2 dryState 5 = some dryState' := some_getD (by decide +kernel)

/-- A fork for which `alloc_proc` fails, and one for which `page_alloc` does. -/
theorem failedFork_iff_full :
    ((fullState'.mem.failed = true → Harmless fullState fullState' 5) ↔ fullState'.mem.failed = false) ∧
    dryState'.mem.failed = true ∧ dryState'.sent = [(5, 6), (6, 0)] ∧
    ((dryState'.mem.failed = true → Harmless dryState dryState' 5) ↔ dryState'.mem.failed = false) :=
  ⟨failedFork_iff 0 fullState fullState' 5 (by decide) forkBranch_fullState, by decide +kernel, by decide +kernel,
    failedFork_iff 2 dryState dryState' 5 (by decide) forkBranch_dryState⟩

/-- **No entry is free**: the parent is told so, and stays stopped. -/
theorem parent_stays_stopped : forkBranch 0 fullState 5 = some fullState' ∧ fullState'.mem.failed = true ∧
    fullState'.sent = [(5, 0xFFFFFFFF)] ∧ ¬ Harmless fullState fullState' 5 :=
  ⟨forkBranch_fullState, rfl, rfl, not_harmless forkBranch_fullState (by decide)⟩

end OmochaOS.ForkProc
