import OmochaOS.Ipc.Locality
import OmochaOS.Kernel.ProcTable
import OmochaOS.Kernel.Dispatch

/-!
# `fork()` as a conversation (`modules/memory/memory.c`, `fork.c`, `lib/libos.c`)

`fork()` sends `MEM_FORK_PROC` to `Task_Memory` and then waits for its answer.  `Task_Memory` asks
SysTask for the parent's process entry, sets its `PROC_STATUS_STOP` bit, asks SysTask for a free entry,
copies the parent into it, answers both and clears both bits.

`Task_Memory` and SysTask are programs here: each has a program counter, and one step of a task is one
system call or the code between two of them.  Every other process may make any call at any moment when
it is runnable, the parent included, so a run is any order in which the parties can be scheduled.

The other branches of `Task_Memory` (to exit, to wait, to free, to grow, to mend a fault) are not told
line by line.  Between its receive and its next one the task may do what these branches consist of, any
number of times and in any order: ask SysTask for an entry or the head of the list, tell it to clear an
entry, mark a process as gone, store in entries, move pages, and send.  SysTask serves `EXIT_PROC` of
any process; its remaining branches answer with any word and touch nothing else.

Of the page tables only the translation is kept: `copy_parent` shares the parent's pages, except for the
one or two pages of the message the parent waits with, of which the child gets a copy.
-/

namespace OmochaOS

open TransitionRun BitFlags Kernel

def memForkProc : ℕ := 3

def getProcListHeadType : ℕ := 12

def pgSize : ℕ := 4096

def sizeofMessage : ℕ := 32

/-! ### Copying the parent -/

/-- The virtual pages that `copy_parent` copies for a message at `msgVa`. -/
def msgPages (msgVa : VAddr) : List ℕ :=
  if msgVa = 0 then []
  else if 0xFFF - msgVa % pgSize < sizeofMessage then [msgVa / pgSize, msgVa / pgSize + 1]
  else [msgVa / pgSize]

/-- `copy_parent(mem, parent)`: the page directory `dir` with a copy of the message pages, each in the
page `frame` gives it. -/
def Kernel.copyParent (k : Kernel) (parent : Pid) (dir : PageDir) (frame : ℕ → ℕ) : Kernel :=
  { k with
    vir2phy := Function.update k.vir2phy dir fun va =>
      if va / pgSize ∈ msgPages (k.pMsg parent) then pgSize * frame (va / pgSize) + va % pgSize
      else k.vir2phy (k.pageDir parent) va
    memory := fun a =>
      match (msgPages (k.pMsg parent)).find? fun pg => frame pg = a / pgSize with
      | some pg => k.memory (k.vir2phy (k.pageDir parent) (pgSize * pg + a % pgSize))
      | none => k.memory a }

/-- `fork_proc` after `alloc_proc`. -/
def Kernel.forkCopy (k : Kernel) (pid parent child : Pid) (dir : PageDir) (frame : ℕ → ℕ) :
    Kernel :=
  let parentProc := k.procTable parent
  (k.copyParent parent dir frame).modProc child fun childProc =>
    { childProc with
      parentPid := pid
      stack := parentProc.stack
      pstack := parentProc.pstack
      pstackSize := parentProc.pstackSize
      queneBody := none
      queneHeadSendingToThisProcess := none
      pMsg := parentProc.pMsg
      pageDir := dir
      progInfo := parentProc.progInfo
      status := parentProc.status }

/-- The pages and the directory `page_alloc` hands out are nobody's. -/
structure FreshPages (w : World) (k : Kernel) (pages : List ℕ) (dir : PageDir) (frame : ℕ → ℕ) :
    Prop where
  ne_zero : ∀ pg ∈ pages, frame pg ≠ 0
  injective : ∀ pg ∈ pages, ∀ pg' ∈ pages, frame pg = frame pg' → pg = pg'
  free : ∀ pg ∈ pages, ∀ a, frame pg = a / pgSize → ¬ w.live (w.owner a)
  dir_ne : ∀ q, w.live q → k.pageDir q ≠ dir

/-- The world with `child` in it, which owns its copies of the message pages. -/
def World.spawn (w : World) (child : Pid) (pages : List ℕ) (frame : ℕ → ℕ) : World where
  live q := (w.live q ∨ q = child) ∧ q < procAny
  owner a := if ∃ pg ∈ pages, frame pg = a / pgSize then child else w.owner a
  live_lt _ h := h.2

/-- The world without `pid`. -/
def World.remove (w : World) (pid : Pid) : World where
  live q := w.live q ∧ q ≠ pid
  owner := w.owner
  live_lt _ h := w.live_lt _ h.1

/-! ### The other branches -/

/-- `proc->exit_status = ..` and `proc->status = PROC_STATUS_HANGING | PROC_STATUS_STOP` of `set_proc_exit`. -/
def Kernel.setProcExit (k : Kernel) (pid : Pid) (exitStatus : ℕ) : Kernel :=
  k.modProc pid fun proc =>
    { proc with exitStatus := exitStatus, status := procStatusHanging ||| procStatusStop }

/-- The stores of `wait_proc`, `mem_exit_proc`, `free_proc` and `do_page_fault` in an entry: none of what
message passing reads, and not the bit that `fork_proc` sets. -/
structure Process.Spares (proc proc' : Process) : Prop where
  pid : proc'.pid = proc.pid
  pageDir : proc'.pageDir = proc.pageDir
  pMsg : proc'.pMsg = proc.pMsg
  queneHead : proc'.queneHeadSendingToThisProcess = proc.queneHeadSendingToThisProcess
  queneBody : proc'.queneBody = proc.queneBody
  sending : Has proc'.status procStatusSending ↔ Has proc.status procStatusSending
  receving : Has proc'.status procStatusReceving ↔ Has proc.status procStatusReceving
  stop : Has proc'.status procStatusStop ↔ Has proc.status procStatusStop

/-- Pages are mapped, moved and freed: not those of the two tasks, and not the message of a process that is
blocked. -/
structure Remapped (mm : Pid) (w : World) (k : Kernel) (w' : World) (k' : Kernel) : Prop where
  table : k'.procTable = k.procTable
  live : ∀ q, w'.live q ↔ w.live q
  tasks : ∀ p, p = mm ∨ p = systaskPid → ∀ va, k'.msgAddr p va = k.msgAddr p va
  own : ∀ a, w.owner a = mm ∨ w.owner a = systaskPid →
    k'.memory a = k.memory a ∧ w'.owner a = w.owner a
  blocked : ∀ p, k.Sending p ∨ k.Receving p →
    k'.buf p = k.buf p ∧ k'.pending p = k.pending p ∧ w'.owner (k.buf p) = w.owner (k.buf p)

/-! ### The two programs -/

/-- What `Task_Memory` asks SysTask. -/
inductive Request where
  | getProc (pid : Pid)
  | allocProc
  | getProcListHead
deriving DecidableEq

/-- Where `Task_Memory` stands, with the local variables of `fork_proc`. -/
inductive MmPc where
  /-- before `recv_msg(&msg, PROC_ANY)` -/
  | loop
  /-- after it -/
  | fetched
  /-- in another branch -/
  | branch
  /-- there, before and after the second call of `get_proc` and `get_proc_list_head` -/
  | branchRecv (r : Request)
  | branchGot (r : Request)
  /-- there, in `set_proc_exit(pid)` -/
  | exiting (pid : Pid)
  /-- there, before a message to `dest` -/
  | sendBack (dest : Pid)
  /-- before and after the two calls in `get_proc(pid)` -/
  | getSend (pid : Pid)
  | getRecv (pid : Pid)
  | gotProc (pid : Pid)
  /-- before and after the two calls in `alloc_proc()` -/
  | allocSend (pid parent : Pid)
  | allocRecv (pid parent : Pid)
  | allocated (pid parent : Pid)
  /-- before the answer of a failed fork -/
  | failReply (pid : Pid)
  /-- before the answers to the parent and to the child -/
  | replyParent (pid parent child : Pid)
  | replyChild (parent child : Pid)
  /-- before the two `PROC_STATUS_STOP` bits are cleared -/
  | clear (parent child : Pid)
deriving DecidableEq

/-- Where SysTask stands. -/
inductive SysPc where
  /-- before `recv_msg(&msg, PROC_ANY)` -/
  | loop
  /-- after it -/
  | fetched
  /-- before `SEND_BACK(msg)` -/
  | sendBack
deriving DecidableEq

/-- The pid of `Task_Memory` and the message variables of the two tasks. -/
structure Tasks where
  mm : Pid
  /-- `msg` in `Task_Memory` -/
  msg : VAddr
  /-- `msg` in `get_proc`, `alloc_proc` and the other functions it calls -/
  call : VAddr
  /-- `msg` in `SysTask` -/
  sysMsg : VAddr

structure ForkState where
  world : World
  kernel : Kernel
  procBitmap : List (BitVec 32)
  mm : MmPc
  sys : SysPc
  /-- the processes whose `PROC_STATUS_STOP` bit `fork_proc` has set so far, less those that have gone -/
  forked : List Pid

/-- The message in the buffer of `p` at `va`. -/
def Kernel.msgAt (k : Kernel) (p : Pid) (va : VAddr) : Message := k.memory (k.msgAddr p va)

/-- `p` stores `m` in its buffer. -/
def Kernel.fill (k : Kernel) (p : Pid) (va : VAddr) (m : Message) : Kernel :=
  k.writeMsg (k.msgAddr p va) m

/-- `p` fills its buffer and calls `send_msg`. -/
def Sends (w : World) (k : Kernel) (p : Pid) (va : VAddr) (m : Message) (k' : Kernel) : Prop :=
  ∃ fuel, Step w (k.fill p va m) (.send fuel p va) k'

/-- `p` calls `recv_msg`, which clears `major` before it traps. -/
def Recvs (w : World) (k : Kernel) (p : Pid) (va : VAddr) (f : ℕ) (k' : Kernel) : Prop :=
  ∃ fuel, Step w (k.fill p va { k.msgAt p va with major := 0 }) (.recv fuel p va f) k'

/-- `status |= PROC_STATUS_STOP`. -/
def Kernel.stopProc (k : Kernel) (p : Pid) : Kernel :=
  k.setStatus p (raise (k.status p) procStatusStop)

/-- `status &= ~PROC_STATUS_STOP`. -/
def Kernel.unstopProc (k : Kernel) (p : Pid) : Kernel :=
  k.setStatus p (drop (k.status p) procStatusStop)

/-- The steps of `Task_Memory`. -/
inductive MmStep (t : Tasks) (s : ForkState) : ForkState → Prop
  | recv {k' : Kernel} (hpc : s.mm = .loop)
      (hcall : Recvs s.world s.kernel t.mm t.msg procAny k') :
      MmStep t s { s with kernel := k', mm := .fetched }
  /-- another branch -/
  | branch (hpc : s.mm = .fetched) (hawake : s.kernel.Awake t.mm)
      (htype : (s.kernel.msgAt t.mm t.msg).type ≠ memForkProc) : MmStep t s { s with mm := .branch }
  | branchDone (hpc : s.mm = .branch) (hawake : s.kernel.Awake t.mm) : MmStep t s { s with mm := .loop }
  /-- `get_proc(pid)` and `get_proc_list_head()` -/
  | branchGetProc {k' : Kernel} {pid : Pid} (hpc : s.mm = .branch)
      (hcall : Sends s.world s.kernel t.mm t.call
        { s.kernel.msgAt t.mm t.call with
          type := getProcType, major := pid, receiver := systaskPid } k') :
      MmStep t s { s with kernel := k', mm := .branchRecv (.getProc pid) }
  | branchGetProcListHead {k' : Kernel} (hpc : s.mm = .branch)
      (hcall : Sends s.world s.kernel t.mm t.call
        { s.kernel.msgAt t.mm t.call with type := getProcListHeadType, receiver := systaskPid } k') :
      MmStep t s { s with kernel := k', mm := .branchRecv .getProcListHead }
  | branchRecv {k' : Kernel} {r : Request} (hpc : s.mm = .branchRecv r)
      (hcall : Recvs s.world s.kernel t.mm t.call systaskPid k') :
      MmStep t s { s with kernel := k', mm := .branchGot r }
  | branchGot {r : Request} (hpc : s.mm = .branchGot r) (hawake : s.kernel.Awake t.mm) :
      MmStep t s { s with mm := .branch }
  /-- `exit_proc(pid)`, which waits for no answer -/
  | branchExitProc {k' : Kernel} {pid : Pid} (hpc : s.mm = .branch)
      (hcall : Sends s.world s.kernel t.mm t.call
        { s.kernel.msgAt t.mm t.call with type := exitProc, major := pid, receiver := systaskPid } k') :
      MmStep t s { s with kernel := k', mm := .branch }
  /-- `set_proc_exit(pid, exit_status)` after `get_proc` -/
  | exiting {pid : Pid} (hpc : s.mm = .branch) (hawake : s.kernel.Awake t.mm) :
      MmStep t s { s with mm := .exiting pid }
  | setProcExit {pid : Pid} {exitStatus : ℕ} (hpc : s.mm = .exiting pid) (hawake : s.kernel.Awake t.mm) :
      MmStep t s
        { s with
          kernel := s.kernel.setProcExit pid exitStatus
          mm := .branch
          forked := s.forked.filter (· ≠ pid) }
  | store {p : Pid} {proc : Process} (hpc : s.mm = .branch) (hawake : s.kernel.Awake t.mm)
      (hproc : (s.kernel.procTable p).Spares proc) :
      MmStep t s { s with kernel := s.kernel.modProc p fun _ => proc }
  | pages {w' : World} {k' : Kernel} (hpc : s.mm = .branch) (hawake : s.kernel.Awake t.mm)
      (hmap : Remapped t.mm s.world s.kernel w' k') :
      MmStep t s { s with world := w', kernel := k' }
  /-- an answer, or the exit status for a parent that waits -/
  | reply {dest : Pid} (hpc : s.mm = .branch) (hawake : s.kernel.Awake t.mm) :
      MmStep t s { s with mm := .sendBack dest }
  | sendBack {k' : Kernel} {dest : Pid} {va : VAddr} {m : Message} (hpc : s.mm = .sendBack dest)
      (hto : m.receiver = dest) (hcall : Sends s.world s.kernel t.mm va m k') :
      MmStep t s { s with kernel := k', mm := .branch }
  /-- `case MEM_FORK_PROC`: `fork_proc(&mem_info, msg.sender, ..)` is called -/
  | fork (hpc : s.mm = .fetched) (hawake : s.kernel.Awake t.mm)
      (htype : (s.kernel.msgAt t.mm t.msg).type = memForkProc) :
      MmStep t s { s with mm := .getSend (s.kernel.msgAt t.mm t.msg).sender }
  | getSend {k' : Kernel} {pid : Pid} (hpc : s.mm = .getSend pid)
      (hcall : Sends s.world s.kernel t.mm t.call
        { s.kernel.msgAt t.mm t.call with
          type := getProcType, major := pid, receiver := systaskPid } k') :
      MmStep t s { s with kernel := k', mm := .getRecv pid }
  | getRecv {k' : Kernel} {pid : Pid} (hpc : s.mm = .getRecv pid)
      (hcall : Recvs s.world s.kernel t.mm t.call systaskPid k') :
      MmStep t s { s with kernel := k', mm := .gotProc pid }
  /-- `parent_proc->status |= PROC_STATUS_STOP` -/
  | stop {pid parent : Pid} (hpc : s.mm = .gotProc pid) (hawake : s.kernel.Awake t.mm)
      (hproc : procAt (s.kernel.msgAt t.mm t.call).major = some parent) :
      MmStep t s
        { s with
          kernel := s.kernel.stopProc parent
          mm := .allocSend pid parent
          forked := parent :: s.forked }
  | allocSend {k' : Kernel} {pid parent : Pid} (hpc : s.mm = .allocSend pid parent)
      (hcall : Sends s.world s.kernel t.mm t.call
        { s.kernel.msgAt t.mm t.call with type := allocProcType, receiver := systaskPid } k') :
      MmStep t s { s with kernel := k', mm := .allocRecv pid parent }
  | allocRecv {k' : Kernel} {pid parent : Pid} (hpc : s.mm = .allocRecv pid parent)
      (hcall : Recvs s.world s.kernel t.mm t.call systaskPid k') :
      MmStep t s { s with kernel := k', mm := .allocated pid parent }
  /-- `child_proc == NULL` -/
  | allocFailed {pid parent : Pid} (hpc : s.mm = .allocated pid parent)
      (hawake : s.kernel.Awake t.mm)
      (hproc : procAt (s.kernel.msgAt t.mm t.call).major = none) :
      MmStep t s { s with mm := .failReply pid }
  /-- the rest of `fork_proc` and the test of the pid it returns -/
  | copy {pid parent child : Pid} {dir : PageDir} {frame : ℕ → ℕ}
      (hpc : s.mm = .allocated pid parent) (hawake : s.kernel.Awake t.mm)
      (hproc : procAt (s.kernel.msgAt t.mm t.call).major = some child)
      (hfresh : FreshPages s.world s.kernel (msgPages (s.kernel.pMsg parent)) dir frame) :
      MmStep t s
        { s with
          world := s.world.spawn child (msgPages (s.kernel.pMsg parent)) frame
          kernel := s.kernel.forkCopy pid parent child dir frame
          mm := if s.kernel.pid child = 0 then .failReply pid else .replyParent pid parent child
          forked := child :: s.forked }
  | failReply {k' : Kernel} {pid : Pid} (hpc : s.mm = .failReply pid)
      (hcall : Sends s.world s.kernel t.mm t.msg
        { s.kernel.msgAt t.mm t.msg with receiver := pid, major := 0xFFFFFFFF } k') :
      MmStep t s { s with kernel := k', mm := .loop }
  | replyParent {k' : Kernel} {pid parent child : Pid} (hpc : s.mm = .replyParent pid parent child)
      (hcall : Sends s.world s.kernel t.mm t.msg
        { s.kernel.msgAt t.mm t.msg with receiver := pid, major := s.kernel.pid child } k') :
      MmStep t s { s with kernel := k', mm := .replyChild parent child }
  | replyChild {k' : Kernel} {parent child : Pid} (hpc : s.mm = .replyChild parent child)
      (hcall : Sends s.world s.kernel t.mm t.msg
        { s.kernel.msgAt t.mm t.msg with receiver := s.kernel.pid child, major := 0 } k') :
      MmStep t s { s with kernel := k', mm := .clear parent child }
  | clear {parent child : Pid} (hpc : s.mm = .clear parent child) (hawake : s.kernel.Awake t.mm) :
      MmStep t s
        { s with kernel := (s.kernel.unstopProc parent).unstopProc child, mm := .loop }

/-- The steps of SysTask. -/
inductive SysStep (t : Tasks) (s : ForkState) : ForkState → Prop
  | recv {k' : Kernel} (hpc : s.sys = .loop)
      (hcall : Recvs s.world s.kernel systaskPid t.sysMsg procAny k') :
      SysStep t s { s with kernel := k', sys := .fetched }
  | getProc (hpc : s.sys = .fetched) (hawake : s.kernel.Awake systaskPid)
      (htype : (s.kernel.msgAt systaskPid t.sysMsg).type = getProcType) :
      SysStep t s
        { s with
          kernel := s.kernel.fill systaskPid t.sysMsg
            { s.kernel.msgAt systaskPid t.sysMsg with
              major := procAddr (s.kernel.msgAt systaskPid t.sysMsg).major }
          sys := .sendBack }
  | allocProc {k' : Kernel} {bits' : List (BitVec 32)} {a fuel : ℕ} (hpc : s.sys = .fetched)
      (hawake : s.kernel.Awake systaskPid)
      (htype : (s.kernel.msgAt systaskPid t.sysMsg).type = allocProcType)
      (hslot : Kernel.allocProc fuel s.kernel s.procBitmap = some (k', bits', a)) :
      SysStep t s
        { s with
          kernel := k'.fill systaskPid t.sysMsg
            { s.kernel.msgAt systaskPid t.sysMsg with major := a }
          procBitmap := bits'
          sys := .sendBack }
  | getProcListHead (hpc : s.sys = .fetched) (hawake : s.kernel.Awake systaskPid)
      (htype : (s.kernel.msgAt systaskPid t.sysMsg).type = getProcListHeadType) :
      SysStep t s
        { s with
          kernel := s.kernel.fill systaskPid t.sysMsg
            { s.kernel.msgAt systaskPid t.sysMsg with
              major := (s.kernel.procList.map procAddr).getD 0 }
          sys := .sendBack }
  /-- `EXIT_PROC`, which is not answered, whoever sends it -/
  | exitProc {fuel count : ℕ} {table : ProcTable} (hpc : s.sys = .fetched)
      (hawake : s.kernel.Awake systaskPid)
      (htype : (s.kernel.msgAt systaskPid t.sysMsg).type = exitProc)
      (hcall : ProcTable.exitProc fuel ⟨s.kernel, s.procBitmap, count⟩
        (s.kernel.msgAt systaskPid t.sysMsg).major = some table) :
      SysStep t s
        { s with
          world := s.world.remove (s.kernel.msgAt systaskPid t.sysMsg).major
          kernel := table.kernel
          procBitmap := table.procBitmap
          sys := .loop
          forked := s.forked.filter (· ≠ (s.kernel.msgAt systaskPid t.sysMsg).major) }
  /-- another branch, without an answer and with one -/
  | other (hpc : s.sys = .fetched) (hawake : s.kernel.Awake systaskPid)
      (htype : (s.kernel.msgAt systaskPid t.sysMsg).type ∉
        [getProcType, allocProcType, exitProc, getProcListHeadType]) :
      SysStep t s { s with sys := .loop }
  | otherReply {major : ℕ} (hpc : s.sys = .fetched) (hawake : s.kernel.Awake systaskPid)
      (htype : (s.kernel.msgAt systaskPid t.sysMsg).type ∉
        [getProcType, allocProcType, exitProc, getProcListHeadType]) :
      SysStep t s
        { s with
          kernel := s.kernel.fill systaskPid t.sysMsg
            { s.kernel.msgAt systaskPid t.sysMsg with major := major }
          sys := .sendBack }
  | sendBack {k' : Kernel} (hpc : s.sys = .sendBack)
      (hcall : Sends s.world s.kernel systaskPid t.sysMsg
        { s.kernel.msgAt systaskPid t.sysMsg with
          receiver := (s.kernel.msgAt systaskPid t.sysMsg).sender } k') :
      SysStep t s { s with kernel := k', sys := .loop }

/-! ### The system -/

inductive ForkEvent where
  /-- a call of a process other than the two tasks, or a notification -/
  | process (e : Event)
  /-- `Task_Memory` goes on -/
  | memory
  /-- SysTask goes on -/
  | systask

/-- Nobody receives into the null pointer. -/
def Event.NonNull : Event → Prop
  | .recv _ _ va _ => va ≠ 0
  | _ => True

/-- A process takes a step only while the scheduler may pick it. -/
inductive ForkStep (t : Tasks) (s : ForkState) : ForkEvent → ForkState → Prop
  | process {e : Event} {k' : Kernel}
      (hcaller : ∀ p, e.caller = some p → p ≠ t.mm ∧ p ≠ systaskPid ∧ ¬ s.kernel.Unrunable p)
      (hva : e.NonNull) (hstep : Step s.world s.kernel e k') :
      ForkStep t s (.process e) { s with kernel := k' }
  | memory {s' : ForkState} (hrun : ¬ s.kernel.Unrunable t.mm) (hstep : MmStep t s s') :
      ForkStep t s .memory s'
  | systask {s' : ForkState} (hrun : ¬ s.kernel.Unrunable systaskPid) (hstep : SysStep t s s') :
      ForkStep t s .systask s'

/-- `pid` is asleep in `recv_msg(.., from)`. -/
def Kernel.WaitsFor (k : Kernel) (pid sender : Pid) : Prop :=
  k.Receving pid ∧ (k.pending pid).sender = sender

/-- The processes that wait for an answer with the `PROC_STATUS_STOP` bit set by `fork_proc`. -/
def MmPc.owes : MmPc → List Pid
  | .allocSend _ parent => [parent]
  | .allocRecv _ parent => [parent]
  | .allocated _ parent => [parent]
  | .replyParent _ parent child => [parent, child]
  | .replyChild _ child => [child]
  | _ => []

/-- The processes whose bit is set now. -/
def MmPc.stopped : MmPc → List Pid
  | .replyChild parent child => [parent, child]
  | .clear parent child => [parent, child]
  | pc => pc.owes

/-- A process that may leave without a trace: no task, not the idle process 0, and not one of the two that
`fork_proc` holds stopped; it is not blocked in a send, and nobody is blocked in a send to it. -/
structure MayLeave (t : Tasks) (s : ForkState) (pid : Pid) : Prop where
  live : s.world.live pid
  ne_zero : pid ≠ 0
  ne_mm : pid ≠ t.mm
  ne_sys : pid ≠ systaskPid
  notStopped : pid ∉ s.mm.stopped
  notSending : ¬ s.kernel.Sending pid
  noSender : s.kernel.queneHead pid = none

/-- The condition on a step. -/
structure Timely (t : Tasks) (s : ForkState) (e : ForkEvent) : Prop where
  /-- when `Task_Memory` sets the bit, the parent is asleep in the `recv_msg` of `fork()` -/
  stop : e = .memory → ∀ pid, s.mm = .gotProc pid → s.kernel.Awake t.mm → s.kernel.WaitsFor pid t.mm
  /-- when SysTask looks for a free entry, one of the first 32 is free -/
  room : e = .systask → s.sys = .fetched → s.kernel.Awake systaskPid →
    (s.kernel.msgAt systaskPid t.sysMsg).type = allocProcType →
    ∃ i < 32, checkBit s.procBitmap i = false
  /-- when SysTask clears an entry, its process may leave -/
  leave : e = .systask → s.sys = .fetched → s.kernel.Awake systaskPid →
    (s.kernel.msgAt systaskPid t.sysMsg).type = exitProc →
    MayLeave t s (s.kernel.msgAt systaskPid t.sysMsg).major
  /-- a process that `set_proc_exit` marks is no task and not blocked in a send -/
  gone : e = .memory → ∀ pid, s.mm = .exiting pid →
    pid ≠ t.mm ∧ pid ≠ systaskPid ∧ ¬ s.kernel.Sending pid
  /-- no answer of another branch goes to SysTask -/
  reply : e = .memory → ∀ dest, s.mm = .sendBack dest → dest ≠ systaskPid

end OmochaOS
