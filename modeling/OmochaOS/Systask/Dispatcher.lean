import OmochaOS.Kernel.ProcTable

/-!
# The dispatcher of SysTask (`modules/systask/systask.c`)

SysTask receives a message into one buffer, acts on it and receives the next one.  A case ends with
`SEND_BACK`, which the kernel makes a message of SysTask: afterwards the sender in the buffer is
SysTask itself.

The checks of the cases end in `panic`, which comes back when SysTask calls it (`panic_systask`).  What
they keep out is therefore let in.  An access outside a table or a string, and a store over the memory
that the kernel and SysTask live in, is where the language leaves open what happens; the functions
return `none` there, as they do when they do not come back.
-/

namespace OmochaOS.Systask

open IntrusiveList TransitionRun

/-! ### Codes -/

inductive Request
  | getTicks
  | regProc
  | unregProc
  | queryProc
  | regIntFunc
  | unregIntFunc
  | regIntMsg
  | unregIntMsg
  | peekMsg
  | queryEnv
  | exitProc
  | getProcListHead
  | allocProc
  | getProc
  | procVir2phy
  | regExcMsg
  | unregExcMsg
  | switchPrivRing1
  | switchPrivRing3
deriving DecidableEq

/-- `GET_TICKS` to `SWITCHPRIVRING3`. -/
def Request.code : Request → ℕ
  | .getTicks => 1
  | .regProc => 2
  | .unregProc => 3
  | .queryProc => 4
  | .regIntFunc => 5
  | .unregIntFunc => 6
  | .regIntMsg => 7
  | .unregIntMsg => 8
  | .peekMsg => 9
  | .queryEnv => 10
  | .exitProc => 11
  | .getProcListHead => 12
  | .allocProc => 13
  | .getProc => 14
  | .procVir2phy => 15
  | .regExcMsg => 16
  | .unregExcMsg => 17
  | .switchPrivRing1 => 18
  | .switchPrivRing3 => 19

/-- The case that a message type leads to. -/
def caseOf (type : ℕ) : Option Request :=
  [Request.getTicks, .regProc, .unregProc, .queryProc, .regIntFunc, .unregIntFunc, .regIntMsg,
    .unregIntMsg, .peekMsg, .queryEnv, .exitProc, .getProcListHead, .allocProc, .getProc,
    .procVir2phy, .regExcMsg, .unregExcMsg, .switchPrivRing1, .switchPrivRing3].find?
      fun r => r.code = type

def envKeyMemoryLower : ℕ := 1
def envKeyMemoryUpper : ℕ := 2
def envKeyBootInfo : ℕ := 3
def envKeyMmap : ℕ := 4
def envKeyMemoryUsage : ℕ := 5

/-- `sizeof(struct core_env_memory_zone)`. -/
def memoryZoneSize : ℕ := 12

/-- `sizeof(multiboot_info_t)`. -/
def bootInfoSize : ℕ := 120

/-- `sizeof(struct core_memory_usage)`. -/
def memoryUsageSize : ℕ := 20

/-! ### `panic` (`lib/stdlib.h`, `driver/graphic.c`) -/

inductive Build
  | configured
  | debug

/-- `panic(str)`, with `ring` the privilege that the caller has: an empty macro, or `panic_proto`,
which stops the machine in ring 0 and prints in the others. -/
def panic (b : Build) (ring : ℕ) : Option Unit :=
  match b with
  | .configured => some ()
  | .debug => if ring = 0 then none else some ()

/-- The ring of SysTask, whose `cs` is `SEL_CODE_DPL1`. -/
def systaskRing : ℕ := ProcTable.selCodeDpl1 % 4

theorem panic_systask (b : Build) : panic b systaskRing = some () := by
  cases b <;> rfl

/-- Checks in a row, each of which panics when it fails. -/
def panicIf (b : Build) : List Bool → Option Unit
  | [] => some ()
  | fails :: rest => (if fails then panic b systaskRing else some ()).bind fun _ => panicIf b rest

/-- The checks of SysTask stop nothing. -/
@[simp] theorem panicIf_eq (b : Build) (fails : List Bool) : panicIf b fails = some () := by
  induction fails with
  | nil => rfl
  | cons f rest ih =>
    cases f with
    | false => exact ih
    | true =>
      rw [panicIf, if_pos rfl, panic_systask]
      exact ih

/-- Entry `i` of a table of `count` entries is accessed. -/
def access (count i : ℕ) : Option Unit := if i < count then some () else none

/-! ### The state -/

/-- `struct interrupt_method`. -/
structure InterruptMethod where
  pid : Pid
  func : PAddr
  data : PAddr
  avail : Bool
deriving DecidableEq, Inhabited

/-- The part of `core_env` that SysTask works on. -/
structure CoreEnv extends ProcTable where
  interruptMethods : ℕ → InterruptMethod
  beats : ℕ
  memLower : ℕ
  memUpper : ℕ
  memoryZoneCount : ℕ
  memoryEnd : ℕ
  coreVend : ℕ
  procMax : ℕ
  /-- the bytes behind `msg` on the stack of SysTask -/
  behindMsg : List UInt8
  /-- the physical memory that `core_env`, the process table, its bitmap and SysTask itself are in -/
  system : PAddr → Bool

/-- What comes of a request: `core_env`, the messages sent and the addresses stored to through a
pointer of the sender, in order. -/
structure Served where
  env : CoreEnv
  sent : List Message
  stored : List ℕ

/-- `SEND_BACK(msg)`: the message as it is sent, and as it is in the buffer from then on. -/
def sendBack (msg : Message) : Message := { msg with receiver := msg.sender, sender := systaskPid }

/-- A case that ends with `SEND_BACK(msg)`. -/
def answer (env : CoreEnv) (msg : Message) : Served := ⟨env, [sendBack msg], []⟩

/-! ### Names -/

/-- The bytes of a word, the lowest first. -/
def wordBytes (w : ℕ) : List UInt8 :=
  [UInt8.ofNat w, UInt8.ofNat (w / 2 ^ 8), UInt8.ofNat (w / 2 ^ 16), UInt8.ofNat (w / 2 ^ 24)]

/-- `data.b16`. -/
def b16 (data : MessageData) : List UInt8 :=
  wordBytes data.d1 ++ wordBytes data.d2 ++ wordBytes data.d3 ++ wordBytes data.d4

/-- A string up to the 0 it ends with. -/
def cstr (bytes : List UInt8) : List UInt8 := bytes.takeWhile fun c => c ≠ 0

/-- The string at `msg.data.b16`.  `vir2phy` leads back to the buffer, which is in the pages that all
page directories have in common; a string that does not end there goes on behind it. -/
def nameIn (env : CoreEnv) (msg : Message) : List UInt8 := cstr (b16 msg.data ++ env.behindMsg)

/-- `sizeof(name)` in `process`. -/
def nameSize : ℕ := 16

/-- Another process has the name, as `__reg_proc` looks for it. -/
def NameTaken (env : CoreEnv) (pid : Pid) (name : List UInt8) : Prop :=
  ∃ i < env.procCount, (env.kernel.procTable i).name = name ∧ i ≠ pid

instance (env : CoreEnv) (pid : Pid) (name : List UInt8) : Decidable (NameTaken env pid name) :=
  inferInstanceAs (Decidable (∃ i < env.procCount, _ ∧ _))

def setName (env : CoreEnv) (pid : Pid) (name : List UInt8) : CoreEnv :=
  { env with kernel := env.kernel.modProc pid fun pr => { pr with name := name } }

/-- `__reg_proc(pid, name)`, with its result. -/
def regProc (env : CoreEnv) (pid : Pid) (name : List UInt8) : Option (CoreEnv × ℕ) :=
  if NameTaken env pid name then some (env, 0xFFFFFFFF)
  else if name.length < nameSize then some (setName env pid name, 0)
  else none

/-- `__unreg_proc(pid)`. -/
def unregProc (env : CoreEnv) (pid : Pid) : CoreEnv := setName env pid []

/-- The loop of `__query_proc`. -/
def queryProc (k : Kernel) (name : List UInt8) : ℕ → Option Pid → Option Pid
  | 0, _ => none
  | _ + 1, none => some 0
  | fuel + 1, some p => if k.name p = name then some (k.pid p) else queryProc k name fuel (k.next p)

/-! ### Subscriptions -/

def setInterruptMethod (env : CoreEnv) (irq : ℕ) (m : InterruptMethod) : CoreEnv :=
  { env with interruptMethods := Function.update env.interruptMethods irq m }

def setInterruptSuscribed (env : CoreEnv) (irq : ℕ) (pid : Pid) : CoreEnv :=
  { env with kernel := { env.kernel with
      interruptSuscribed := Function.update env.kernel.interruptSuscribed irq pid } }

def setExceptionSuscribed (env : CoreEnv) (exc : ℕ) (pid : Pid) : CoreEnv :=
  { env with kernel := { env.kernel with
      exceptionSuscribed := Function.update env.kernel.exceptionSuscribed exc pid } }

/-- A handler of a request about entry `msg.major` of a table of `count` entries: the checks before
and after it is first accessed, and then `change`. -/
def tableHandler (b : Build) (count : ℕ) (before after : List Bool) (change : CoreEnv) (msg : Message) :
    Option Served :=
  (panicIf b before).bind fun _ => (access count msg.major).bind fun _ =>
    (panicIf b after).map fun _ => answer change { msg with major := 0 }

/-- `REG_INT_FUNC`. -/
def regIntFunc (b : Build) (env : CoreEnv) (msg : Message) : Option Served :=
  tableHandler b hwIrqCount [msg.major = 0, hwIrqCount ≤ msg.major]
    [(env.interruptMethods msg.major).avail]
    (setInterruptMethod env msg.major
      { avail := true, pid := msg.sender, func := env.kernel.msgAddr msg.sender msg.data.d1,
        data := env.kernel.msgAddr msg.sender msg.data.d2 })
    msg

/-- `UNREG_INT_FUNC`. -/
def unregIntFunc (b : Build) (env : CoreEnv) (msg : Message) : Option Served :=
  tableHandler b hwIrqCount [msg.major = 0, hwIrqCount ≤ msg.major]
    [!(env.interruptMethods msg.major).avail, (env.interruptMethods msg.major).pid ≠ msg.sender]
    (setInterruptMethod env msg.major { avail := false, pid := 0, func := 0, data := 0 }) msg

/-- `REG_INT_MSG`. -/
def regIntMsg (b : Build) (env : CoreEnv) (msg : Message) : Option Served :=
  tableHandler b hwIrqCount [msg.major = 0, hwIrqCount ≤ msg.major]
    [env.kernel.interruptSuscribed msg.major ≠ 0]
    (setInterruptSuscribed env msg.major msg.sender) msg

/-- `UNREG_INT_MSG`. -/
def unregIntMsg (b : Build) (env : CoreEnv) (msg : Message) : Option Served :=
  tableHandler b hwIrqCount [msg.major = 0, hwIrqCount ≤ msg.major]
    [env.kernel.interruptSuscribed msg.major = 0,
      env.kernel.interruptSuscribed msg.major ≠ msg.sender]
    (setInterruptSuscribed env msg.major 0) msg

/-- `REG_EXC_MSG`. -/
def regExcMsg (b : Build) (env : CoreEnv) (msg : Message) : Option Served :=
  tableHandler b exceptionCount [exceptionCount ≤ msg.major]
    [env.kernel.exceptionSuscribed msg.major ≠ 0]
    (setExceptionSuscribed env msg.major msg.sender) msg

/-- `UNREG_EXC_MSG`. -/
def unregExcMsg (b : Build) (env : CoreEnv) (msg : Message) : Option Served :=
  tableHandler b exceptionCount [exceptionCount ≤ msg.major]
    [env.kernel.exceptionSuscribed msg.major = 0,
      env.kernel.exceptionSuscribed msg.major ≠ msg.sender]
    (setExceptionSuscribed env msg.major 0) msg

/-! ### The environment -/

/-- `EXT_PG_SIZE`. -/
def extPgSize : ℕ := 0x400000

/-- The end of the window at `KERN_BASE`, `core_env.core_space_end`. -/
def coreSpaceEnd : ℕ := 0x81000000

/-- Where an address of SysTask is in physical memory, as `core_init_memory` has filled in
`core_page_dir`: one to one up to the 4 MB page of `memory_end`, the window at `KERN_BASE`, and one to
one behind that. -/
@[irreducible] def systaskPhy (env : CoreEnv) (va : ℕ) : Option PAddr :=
  if va < extPgSize * (env.memoryEnd / extPgSize + 1) then some va
  else if va < ProcTable.kernBase then none
  else if va < coreSpaceEnd then some (va - ProcTable.kernBase)
  else some va

/-- A store to the address leaves the kernel and SysTask as they are. -/
def harmless (env : CoreEnv) (va : ℕ) : Bool := (systaskPhy env va).any fun a => !env.system a

/-- The stores of SysTask through `buf`, at the offsets given. -/
def stores (buf : ℕ) (offsets : List ℕ) : List ℕ := offsets.map fun i => (buf + i) % 2 ^ 32

/-- `SEND_BACK` after stores through a pointer of the sender. -/
def answerStored (env : CoreEnv) (msg : Message) (stored : List ℕ) : Option Served :=
  if stored.all (harmless env) then some ⟨env, [sendBack msg], stored⟩ else none

/-- Where the buffer of a request is, as SysTask sees it. -/
def bufOf (env : CoreEnv) (msg : Message) : ℕ := env.kernel.msgAddr msg.sender msg.data.d1

/-- `(uint)buf >= KERN_BASE && buf <= KERN_VEND`. -/
def overrides (env : CoreEnv) (buf : ℕ) : Bool := ProcTable.kernBase ≤ buf ∧ buf ≤ env.coreVend

/-- The answers that are copied with `memcpy`: `ENV_KEY_MMAP` and `ENV_KEY_BOOT_INFO`. -/
def copyOut (b : Build) (env : CoreEnv) (msg : Message) (size result : ℕ) : Option Served :=
  let buf := bufOf env msg
  (panicIf b [overrides env buf]).bind fun _ =>
    let bufSize := msg.data.d2
    if bufSize < size then some (answer env { msg with major := 0xFFFFFFFF })
    else answerStored env { msg with major := result } (stores buf (List.range size))

/-- The fields of `struct core_memory_usage` in the order in which they are stored. -/
def memoryUsageOffsets : List ℕ := [0, 12, 4, 8, 16].flatMap fun o => [o, o + 1, o + 2, o + 3]

/-- `ENV_KEY_MEMORY_USAGE`. -/
def memoryUsage (b : Build) (env : CoreEnv) (msg : Message) : Option Served :=
  if msg.data.d2 < memoryUsageSize then some (answer env { msg with major := 0xFFFFFFFF })
  else
    (panicIf b [overrides env (bufOf env msg)]).bind fun _ =>
      answerStored env { msg with major := 0 } (stores (bufOf env msg) memoryUsageOffsets)

/-- The size of the answer to `ENV_KEY_MMAP`, computed in 32 bits. -/
def mmapSize (env : CoreEnv) : ℕ := memoryZoneSize * env.memoryZoneCount % 2 ^ 32

/-- `QUERY_ENV`. -/
def queryEnv (b : Build) (env : CoreEnv) (msg : Message) : Option Served :=
  if msg.major = envKeyMemoryLower then some (answer env { msg with major := env.memLower })
  else if msg.major = envKeyMemoryUpper then some (answer env { msg with major := env.memUpper })
  else if msg.major = envKeyMmap then copyOut b env msg (mmapSize env) env.memoryZoneCount
  else if msg.major = envKeyBootInfo then copyOut b env msg bootInfoSize 0
  else if msg.major = envKeyMemoryUsage then memoryUsage b env msg
  -- the other keys have no case
  else some ⟨env, [], []⟩

/-! ### Processes -/

/-- The privilege of a process, `stack.cs & 0x3`. -/
def ringOf (env : CoreEnv) (pid : Pid) : ℕ := (env.kernel.procTable pid).stack.cs % 4

/-- The methods of `pid` are dropped. -/
def dropMethods (methods : ℕ → InterruptMethod) (pid : Pid) (irq : ℕ) : InterruptMethod :=
  if irq < hwIrqCount ∧ (methods irq).pid = pid then
    { methods irq with pid := 0, avail := false, func := 0 }
  else methods irq

/-- `EXIT_PROC`.  The count is a `size_t`. -/
def exitProc (fuel : ℕ) (env : CoreEnv) (pid : Pid) : Option CoreEnv :=
  (access env.procMax pid).bind fun _ => (ProcTable.exitProc fuel env.toProcTable pid).map fun t =>
    { env with
      toProcTable := { t with procCount := (env.procCount + (2 ^ 32 - 1)) % 2 ^ 32 }
      interruptMethods := dropMethods env.interruptMethods pid }

/-- `ALLOC_PROC`. -/
def allocProc (b : Build) (fuel : ℕ) (env : CoreEnv) (msg : Message) : Option Served :=
  (panicIf b [ringOf env msg.sender ≠ 1]).bind fun _ =>
    (ProcTable.allocProc fuel env.toProcTable).map fun (t, a) =>
      answer { env with toProcTable := t } { msg with major := a }

/-- `GET_PROC`. -/
def getProc (b : Build) (env : CoreEnv) (msg : Message) : Option Served :=
  (panicIf b [ringOf env msg.sender ≠ 1]).map fun _ =>
    answer env { msg with major := procAddr msg.major }

/-- `PROC_VIR2PHY`. -/
def procVir2phy (env : CoreEnv) (msg : Message) : Option Served :=
  (access env.procMax msg.major).map fun _ =>
    answer env { msg with major := env.kernel.msgAddr msg.major msg.data.d1 }

/-- A pointer into the process table, as a number. -/
def ptrOf : Option Pid → ℕ
  | none => 0
  | some p => procAddr p

/-- `GET_PROC_LIST_HEAD`. -/
def getProcListHead (b : Build) (env : CoreEnv) (msg : Message) : Option Served :=
  (panicIf b [ringOf env msg.sender ≠ 1]).map fun _ =>
    answer env { msg with major := ptrOf env.kernel.procList }

/-- The segments of a process, of which the model has `cs`. -/
def setCs (env : CoreEnv) (pid : Pid) (cs : ℕ) : CoreEnv :=
  { env with kernel := env.kernel.modProc pid fun pr => { pr with stack := { pr.stack with cs := cs } } }

/-- `SWITCHPRIVRING3`. -/
def switchPrivRing3 (b : Build) (env : CoreEnv) (msg : Message) : Option Served :=
  (panicIf b [ringOf env msg.sender ≠ 1]).map fun _ =>
    answer (setCs env msg.sender ProcTable.selCodeDpl3) msg

/-- `SWITCHPRIVRING1`. -/
def switchPrivRing1 (b : Build) (env : CoreEnv) (msg : Message) : Option Served :=
  (panicIf b [ringOf env msg.sender ≠ 3]).map fun _ =>
    answer (setCs env msg.sender ProcTable.selCodeDpl1) msg

/-! ### The dispatcher -/

/-- The case `QUERY_PROC`. -/
def queryProcCase (fuel : ℕ) (env : CoreEnv) (msg : Message) : Option Served :=
  (queryProc env.kernel (nameIn env msg) fuel env.kernel.procList).map fun pid =>
    answer env { msg with major := pid }

/-- What SysTask does with a request until it receives the next message. -/
def serveCase (b : Build) (fuel : ℕ) (env : CoreEnv) (msg : Message) : Request → Option Served
  | .getTicks => some (answer env { msg with major := env.beats })
  | .regProc =>
    (regProc env msg.sender (nameIn env msg)).map fun (env, result) =>
      answer env { msg with major := result }
  | .unregProc =>
    let env := unregProc env msg.sender
    let msg := sendBack { msg with major := 0 }
    -- there is no `break`, and the sender in the buffer is SysTask by now
    (queryProcCase fuel env msg).map fun r => { r with sent := msg :: r.sent }
  | .queryProc => queryProcCase fuel env msg
  | .regIntFunc => regIntFunc b env msg
  | .unregIntFunc => unregIntFunc b env msg
  | .regIntMsg => regIntMsg b env msg
  | .unregIntMsg => unregIntMsg b env msg
  | .regExcMsg => regExcMsg b env msg
  | .unregExcMsg => unregExcMsg b env msg
  | .peekMsg =>
    some (answer env { msg with major := if env.kernel.queneHead msg.sender ≠ none then 1 else 0 })
  | .queryEnv => queryEnv b env msg
  | .exitProc => (exitProc fuel env msg.major).map fun env => ⟨env, [], []⟩
  | .allocProc => allocProc b fuel env msg
  | .getProc => getProc b env msg
  | .procVir2phy => procVir2phy env msg
  | .getProcListHead => getProcListHead b env msg
  | .switchPrivRing3 => switchPrivRing3 b env msg
  | .switchPrivRing1 => switchPrivRing1 b env msg

/-- What SysTask does with a message. -/
def serve (b : Build) (fuel : ℕ) (env : CoreEnv) (msg : Message) : Option Served :=
  match caseOf msg.type with
  | some req => serveCase b fuel env msg req
  | none => some ⟨env, [], []⟩

end OmochaOS.Systask
