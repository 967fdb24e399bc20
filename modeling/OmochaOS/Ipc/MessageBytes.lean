import OmochaOS.Core.Paging
import OmochaOS.Kernel.Interrupt
import OmochaOS.Klib.Memcpy

/-!
# The bytes of a message (`core/syscall_impl.c`)

`__send_msg` and `__recv_msg` translate the first byte of a message only, and copy the bytes that follow it in
physical memory.  A `Machine` is the kernel with the bytes of the memory: what the calls read of a message is
read from its bytes (`view`), and the tables of the kernel are those of `Kernel`.

* `Transfer` — a call that completes the transfer of a message;
* `Right` — the receiver reads what the sender had, and no other byte has changed;
* `Contiguous` — the bytes of a message follow each other in physical memory.
-/

namespace OmochaOS.MessageBytes

open ByteMemory Paging BitFlags

/-- `sizeof(message)`. -/
def messageSize : ℕ := 32

/-- The message whose bytes are at a physical address. -/
def messageAt (m : Memory) (a : PAddr) : Message where
  sender := readWord m a
  receiver := readWord m (a + 4)
  ready := (readWord m (a + 8)).testBit 0
  type := readWord m (a + 8) / 2
  major := readWord m (a + 12)
  data := ⟨readWord m (a + 16), readWord m (a + 20), readWord m (a + 24), readWord m (a + 28)⟩

/-- The kernel and the bytes of the memory.  The messages and the translation that `kernel` has are not
looked at: `view` has those of the bytes. -/
structure Machine where
  kernel : Kernel
  bytes : Memory

variable {s s' : Machine} {m m' : Memory} {fuel : ℕ} {sender receiver : Pid} {msgVa va a dir x i n : ℕ}

/-- The kernel with what the bytes say. -/
def Machine.view (s : Machine) : Kernel :=
  { s.kernel with memory := messageAt s.bytes, vir2phy := vir2phy (readWord s.bytes) }

/-- The one-bit field `ready` is set. -/
def setReady (m : Memory) (a : PAddr) : Memory := Function.update m (a + 8) (m (a + 8) / 2 * 2 + 1)

/-- The one-bit field `ready` is cleared. -/
def clearReady (m : Memory) (a : PAddr) : Memory := Function.update m (a + 8) (m (a + 8) / 2 * 2)

/-- The other 31 bits of that word. -/
def setType (m : Memory) (a : PAddr) (type : ℕ) : Memory :=
  writeWord m (a + 8) (2 * type + readWord m (a + 8) % 2)

/-! ### Sending -/

/-- `msg->sender = sender->pid`. -/
def stampSender (s : Machine) (sender : Pid) (msg : PAddr) : Machine :=
  { s with bytes := writeWord s.bytes msg (s.kernel.pid sender) }

/-- The first branch of `__send_msg`. -/
def deliver (s : Machine) (receiver : Pid) (msg recvMsgPa : PAddr) : Machine where
  kernel := s.kernel.wake receiver procStatusReceving
  bytes := clearReady (Klib.memcpy s.bytes recvMsgPa msg messageSize) recvMsgPa

/-- `__send_msg` after the deadlock check. -/
def sendChecked (fuel : ℕ) (s : Machine) (sender : Pid) (msgVa : VAddr) (msg : PAddr) (receiver : Pid) :
    Option Machine :=
  if s.view.ReadyFor receiver (s.kernel.pid sender) then some (deliver s receiver msg (s.view.buf receiver))
  else (Kernel.queneSender fuel s.kernel sender msgVa receiver).map fun k => { s with kernel := k }

/-- `__send_msg` from the deadlock check on. -/
def sendStamped (fuel : ℕ) (s : Machine) (sender : Pid) (msgVa : VAddr) (msg : PAddr) : Option Machine :=
  let receiver := (messageAt s.bytes msg).receiver
  (Kernel.isDeadLock fuel s.view (s.kernel.pid sender) receiver).bind fun verdict =>
    sendChecked fuel { s with kernel := s.kernel.print verdict.2 } sender msgVa msg receiver

/-- `__send_msg(sender, msg)`. -/
def sendMsg (fuel : ℕ) (s : Machine) (sender : Pid) (msgVa : VAddr) : Option Machine :=
  let msg := s.view.msgAddr sender msgVa
  sendStamped fuel (stampSender s sender msg) sender msgVa msg

/-! ### Receiving -/

/-- `msg->receiver = receiver->pid`. -/
def stampReceiver (s : Machine) (receiver : Pid) (msg : PAddr) : Machine :=
  { s with bytes := writeWord s.bytes (msg + 4) (s.kernel.pid receiver) }

/-- The interrupt branch of `__recv_msg`. -/
def recvInterrupt (s : Machine) (receiver : Pid) (msg : PAddr) : Machine :=
  let found := Kernel.scan s.kernel.interruptSuscribedData hwIrqCount
  let irq := found.1.1
  let k := if found.2 then s.kernel
    else s.kernel.setStatus receiver (drop (s.kernel.status receiver) procStatusGotint)
  { kernel := k.setInterruptData irq { s.kernel.interruptSuscribedData irq with avail := false }
    bytes := writeWord (writeWord (setType s.bytes msg msgInterrupt) (msg + 12) irq) msg procInterrupt }

/-- The exception branch of `__recv_msg`. -/
def recvException (s : Machine) (receiver : Pid) (msg : PAddr) : Machine :=
  let found := Kernel.scan s.kernel.exceptionSuscribedData exceptionCount
  let exc := found.1.1
  let k := if found.2 then s.kernel
    else s.kernel.setStatus receiver (drop (s.kernel.status receiver) procStatusGotexc)
  { kernel := k.setExceptionData exc { s.kernel.exceptionSuscribedData exc with avail := false }
    bytes := writeWord (writeWord (writeWord (setType s.bytes msg msgException) (msg + 12) exc)
      (msg + 16) found.1.2) msg procInterrupt }

/-- The receiver waits with its filter in the message. -/
def blockReceiver (fuel : ℕ) (s : Machine) (receiver : Pid) (msgVa : VAddr) (msg : PAddr) (recvFrom : ℕ) :
    Machine where
  kernel := ((s.kernel.setPMsg receiver msgVa).block receiver procStatusRunning procStatusReceving).scheduler fuel
  bytes := writeWord (setReady s.bytes msg) msg recvFrom

/-- The message of `sender` is copied to `msg`. -/
def takeMsg (s : Machine) (msg : PAddr) (sender : Pid) : Machine where
  kernel := (s.kernel.setPMsg sender 0).wake sender procStatusSending
  bytes := Klib.memcpy s.bytes msg (s.view.buf sender) messageSize

/-- The part of `__recv_msg` after the two notification branches. -/
def recvQuened (fuel : ℕ) (s : Machine) (receiver : Pid) (msgVa : VAddr) (msg : PAddr) (recvFrom : ℕ) :
    Option Machine :=
  if recvFrom = procInterrupt then some (blockReceiver fuel s receiver msgVa msg recvFrom)
  else if recvFrom = procAny then
    match s.kernel.queneHead receiver with
    | some sender =>
      some (takeMsg { s with kernel := s.kernel.setQueneHead receiver (s.kernel.queneBody sender) } msg sender)
    | none => some (blockReceiver fuel s receiver msgVa msg recvFrom)
  else if s.view.HasParked receiver recvFrom then
    (Kernel.unlinkSender fuel s.kernel receiver recvFrom).map fun k =>
      takeMsg { s with kernel := k } msg recvFrom
  else some (blockReceiver fuel s receiver msgVa msg recvFrom)

/-- `__recv_msg` after the first assertion. -/
def recvStamped (fuel : ℕ) (s : Machine) (receiver : Pid) (msgVa : VAddr) (msg : PAddr) (recvFrom : ℕ) :
    Option Machine :=
  if recvFrom = 0 then some s
  else if s.kernel.Is receiver procStatusGotint ∧ Kernel.AcceptsNotice recvFrom then
    some (recvInterrupt s receiver msg)
  else if s.kernel.Is receiver procStatusGotexc ∧ Kernel.AcceptsNotice recvFrom then
    some (recvException s receiver msg)
  else recvQuened fuel s receiver msgVa msg recvFrom

/-- `__recv_msg(receiver, msg, recv_from)`. -/
def recvMsg (fuel : ℕ) (s : Machine) (receiver : Pid) (msgVa : VAddr) (recvFrom : ℕ) : Option Machine :=
  let msg := s.view.msgAddr receiver msgVa
  recvStamped fuel (stampReceiver s receiver msg) receiver msgVa msg recvFrom

/-! ### Interrupts and exceptions (`core/interrupt.c`) -/

/-- `send_interrupt_msg(irq, pid)`. -/
def sendInterruptMsg (s : Machine) (irq : ℕ) (pid : Pid) : Machine :=
  let msg := s.view.buf pid
  if s.view.WaitsForNotice pid then
    { kernel := s.kernel.setStatus pid (drop (s.kernel.status pid) procStatusReceving)
      bytes := writeWord (setType (writeWord s.bytes msg procInterrupt) msg msgInterrupt) (msg + 12) irq }
  else
    let k := s.kernel.setStatus pid (raise (s.kernel.status pid) procStatusGotint)
    { s with kernel := k.setInterruptData irq { avail := true, data := irq } }

/-- `send_exception_msg(exception, data, pid)`. -/
def sendExceptionMsg (s : Machine) (exception data : ℕ) (pid : Pid) : Machine :=
  let msg := s.view.buf pid
  if s.view.WaitsForNotice pid then
    { kernel := s.kernel.setStatus pid (drop (s.kernel.status pid) procStatusReceving)
      bytes := writeWord (writeWord (setType (writeWord s.bytes msg procInterrupt) msg msgException)
        (msg + 12) exception) (msg + 16) data }
  else
    let k := s.kernel.setStatus pid (raise (s.kernel.status pid) procStatusGotexc)
    { s with kernel := k.setExceptionData exception { avail := true, data := data } }

/-! ### What the walks read -/

/-- The bytes of the two entries that the walk for `va` reads. -/
def WalkByte (m : Memory) (dir va x : ℕ) : Prop :=
  let pde := dir + 4 * (va / 2 ^ 22 % 2 ^ 10)
  let pte := pageOf (readWord m pde) + 4 * (va / 2 ^ 12 % 2 ^ 10)
  (pde ≤ x ∧ x < pde + 4) ∨
    (present (readWord m pde) = true ∧ large (readWord m pde) = false ∧ pte ≤ x ∧ x < pte + 4)

/-- Memories with the same entries have the same walks. -/
theorem walk_congr (h : ∀ x, WalkByte m dir va x → m' x = m x) :
    Paging.translate (readWord m') dir va = Paging.translate (readWord m) dir va ∧
      vir2phy (readWord m') dir va = vir2phy (readWord m) dir va := by
  have hpde : pdeOf (readWord m') dir va = pdeOf (readWord m) dir va := by
    apply readWord_congr
    intro i hi
    exact h _ (Or.inl ⟨Nat.le_add_right _ _, by omega⟩)
  rw [Paging.translate, Paging.translate, vir2phy, vir2phy, hpde]
  cases hp : present (pdeOf (readWord m) dir va) with
  | false => simp
  | true =>
    cases hl : large (pdeOf (readWord m) dir va) with
    | true => simp
    | false =>
      have hpte : pteOf (readWord m') (pdeOf (readWord m) dir va) va =
          pteOf (readWord m) (pdeOf (readWord m) dir va) va := by
        apply readWord_congr
        intro i hi
        exact h _ (Or.inr ⟨hp, hl, Nat.le_add_right _ _, by rw [pdeOf]; omega⟩)
      simp only [hpte, and_self]

/-- The processor gets to an address of 32 bits. -/
theorem translate_lt (h : Paging.translate (readWord m) dir va = some a) : a < 2 ^ 32 := by
  have hpde : pdeOf (readWord m) dir va < 2 ^ 32 := readWord_lt m _
  have hpte : pteOf (readWord m) (pdeOf (readWord m) dir va) va < 2 ^ 32 := readWord_lt m _
  rw [Paging.translate] at h
  split at h
  · cases h
  · split at h
    · rw [← Option.some.inj h]
      omega
    · split at h
      · cases h
      · rw [← Option.some.inj h, pageOf]
        omega

/-- The bytes of a message follow each other from where `vir2phy` finds the first one. -/
def Contiguous (m : Memory) (dir va : ℕ) : Prop :=
  ∀ i < messageSize, Paging.translate (readWord m) dir (va + i) = some (vir2phy (readWord m) dir va + i)

theorem Contiguous.end_le (h : Contiguous m dir va) : vir2phy (readWord m) dir va + messageSize ≤ 2 ^ 32 :=
  translate_lt (h 31 (by decide))

/-! ### A transfer -/

/-- Whose message is copied to whose. -/
structure Ends where
  sender : Pid
  receiver : Pid
  sent : VAddr
  received : VAddr

/-- Which of the two calls comes second. -/
inductive Route
  /-- the receiver is waiting when the message is sent -/
  | direct
  /-- the sender is waiting when the message is received -/
  | quened
deriving DecidableEq

variable {e : Ends} {r : Route}

/-- Where byte `i` of the message that is sent is. -/
def sentByte (s : Machine) (e : Ends) (i : ℕ) : Option ℕ :=
  Paging.translate (readWord s.bytes) (s.kernel.pageDir e.sender) (e.sent + i)

/-- Where byte `i` of the message that is received is. -/
def receivedByte (s : Machine) (e : Ends) (i : ℕ) : Option ℕ :=
  Paging.translate (readWord s.bytes) (s.kernel.pageDir e.receiver) (e.received + i)

/-- Where the kernel copies from. -/
def source (s : Machine) (e : Ends) : ℕ := s.view.msgAddr e.sender e.sent

/-- Where the kernel copies to. -/
def target (s : Machine) (e : Ends) : ℕ := s.view.msgAddr e.receiver e.received

/-- `__recv_msg` gets as far as to take the message of `sender`. -/
def Takes (s : Machine) (sender receiver : Pid) (recvFrom : ℕ) : Prop :=
  recvFrom ≠ 0 ∧ ¬ (s.kernel.Is receiver procStatusGotint ∧ Kernel.AcceptsNotice recvFrom) ∧
    ¬ (s.kernel.Is receiver procStatusGotexc ∧ Kernel.AcceptsNotice recvFrom) ∧ recvFrom ≠ procInterrupt ∧
    (recvFrom = procAny ∧ s.kernel.queneHead receiver = some sender ∨
      recvFrom ≠ procAny ∧ recvFrom = sender ∧ s.view.HasParked receiver sender)

/-- A call that completes the transfer of a message. -/
inductive Transfer (fuel : ℕ) (s s' : Machine) : Route → Ends → Prop
  | direct {e : Ends} (hrun : sendMsg fuel s e.sender e.sent = some s')
      (hto : (messageAt (stampSender s e.sender (source s e)).bytes (source s e)).receiver = e.receiver)
      (hready : (stampSender s e.sender (source s e)).view.ReadyFor e.receiver (s.kernel.pid e.sender))
      (hbuf : s.kernel.pMsg e.receiver = e.received) : Transfer fuel s s' .direct e
  | quened {e : Ends} {recvFrom : ℕ} (hrun : recvMsg fuel s e.receiver e.received recvFrom = some s')
      (htakes : Takes (stampReceiver s e.receiver (target s e)) e.sender e.receiver recvFrom)
      (hbuf : s.kernel.pMsg e.sender = e.sent) : Transfer fuel s s' .quened e

/-- What a transfer makes of the bytes. -/
def transferBytes (s : Machine) (e : Ends) : Route → Memory
  | .direct =>
    let s₁ := stampSender s e.sender (source s e)
    clearReady (Klib.memcpy s₁.bytes (target s₁ e) (source s e) messageSize) (target s₁ e)
  | .quened =>
    let s₁ := stampReceiver s e.receiver (target s e)
    Klib.memcpy s₁.bytes (target s e) (source s₁ e) messageSize

@[simp] theorem kernel_stampSender (s : Machine) (sender : Pid) (a : PAddr) : (stampSender s sender a).kernel = s.kernel := by
  rw [stampSender]

theorem bytes_stampSender : (stampSender s sender a).bytes = writeWord s.bytes a (s.kernel.pid sender) := by
  rw [stampSender]

theorem bytes_stampReceiver :
    (stampReceiver s receiver a).bytes = writeWord s.bytes (a + 4) (s.kernel.pid receiver) := by
  rw [stampReceiver]

@[simp] theorem kernel_stampReceiver (s : Machine) (receiver : Pid) (a : PAddr) :
    (stampReceiver s receiver a).kernel = s.kernel := by
  rw [stampReceiver]

theorem view_procTable : s.view.procTable = s.kernel.procTable := by
  rw [Machine.view]

theorem view_memory : s.view.memory = messageAt s.bytes := by
  rw [Machine.view]

theorem view_vir2phy : s.view.vir2phy = vir2phy (readWord s.bytes) := by
  rw [Machine.view]

theorem view_pageDir : s.view.pageDir = s.kernel.pageDir := by
  funext p
  rw [Kernel.pageDir, Kernel.pageDir, view_procTable]

theorem view_pMsg : s.view.pMsg = s.kernel.pMsg := by
  funext p
  rw [Kernel.pMsg, Kernel.pMsg, view_procTable]

theorem view_msgAddr {p : Pid} : s.view.msgAddr p va = vir2phy (readWord s.bytes) (s.kernel.pageDir p) va := by
  rw [Kernel.msgAddr, view_vir2phy, view_pageDir]

theorem view_buf {p : Pid} :
    s.view.buf p = vir2phy (readWord s.bytes) (s.kernel.pageDir p) (s.kernel.pMsg p) := by
  rw [Kernel.buf, view_msgAddr, view_pMsg]

theorem source_eq : source s e = vir2phy (readWord s.bytes) (s.kernel.pageDir e.sender) e.sent :=
  view_msgAddr

theorem target_eq : target s e = vir2phy (readWord s.bytes) (s.kernel.pageDir e.receiver) e.received :=
  view_msgAddr

/-- Printing is not seen by the condition for a direct transfer. -/
theorem sendChecked_of_ready {names : List (List UInt8)} (h : s.view.ReadyFor receiver (s.kernel.pid sender)) :
    sendChecked fuel { s with kernel := s.kernel.print names } sender msgVa a receiver =
      some (deliver { s with kernel := s.kernel.print names } receiver a (s.view.buf receiver)) :=
  if_pos h

theorem deliver_bytes {b : PAddr} : (deliver s receiver a b).bytes =
    clearReady (Klib.memcpy s.bytes b a messageSize) b := rfl

theorem pageDir_print {k : Kernel} {names : List (List UInt8)} : (k.print names).pageDir = k.pageDir := by
  funext p
  rw [Kernel.pageDir, Kernel.pageDir, Kernel.print]

theorem pageDir_wake {k : Kernel} {p : Pid} {bit : BitVec 32} : (k.wake p bit).pageDir = k.pageDir :=
  (Kernel.setStatus_frame _).2.1

theorem pageDir_unlinkSender {k k' : Kernel} (h : Kernel.unlinkSender fuel k receiver sender = some k') :
    k'.pageDir = k.pageDir ∧ k'.pMsg = k.pMsg := by
  rw [Kernel.unlinkSender] at h
  split at h
  · rw [← Option.some.inj h]
    simp
  · rw [← Option.some.inj h]
    simp
  · rw [← Option.some.inj h]
    simp
  · cases h
  · cases h

/-- The sender is taken from the queue, and then its message. -/
theorem recvStamped_of_takes (h : Takes s sender receiver n) :
    recvStamped fuel s receiver msgVa a n =
      if n = procAny then
        some (takeMsg { s with kernel := s.kernel.setQueneHead receiver (s.kernel.queneBody sender) } a sender)
      else (Kernel.unlinkSender fuel s.kernel receiver sender).map fun k => takeMsg { s with kernel := k } a sender := by
  obtain ⟨hzero, hint, hexc, hinterrupt, hfrom⟩ := h
  rw [recvStamped, if_neg hzero, if_neg hint, if_neg hexc, recvQuened, if_neg hinterrupt]
  obtain ⟨hany, hhead⟩ | ⟨hany, rfl, hparked⟩ := hfrom
  · simp only [if_pos hany, hhead]
  · rw [if_neg hany, if_neg hany, if_pos hparked]

theorem takeMsg_spec {k : Kernel} (hdir : k.pageDir = s.kernel.pageDir) (hmsg : k.pMsg = s.kernel.pMsg)
    (hs : takeMsg { s with kernel := k } a sender = s') :
    s'.bytes = Klib.memcpy s.bytes a (s.view.buf sender) messageSize ∧ s'.kernel.pageDir = s.kernel.pageDir := by
  subst hs
  constructor
  · rw [takeMsg, view_buf, view_buf, hdir, hmsg]
  · rw [takeMsg, pageDir_wake, ← hdir]
    exact (Kernel.setPMsg_frame _).2.1

/-- A message is sent to a process that is waiting for it. -/
theorem sendStamped_of_ready (hready : s.view.ReadyFor (messageAt s.bytes a).receiver (s.kernel.pid sender))
    (hrun : sendStamped fuel s sender msgVa a = some s') : ∃ names, s' =
      deliver { s with kernel := s.kernel.print names } (messageAt s.bytes a).receiver a
        (s.view.buf (messageAt s.bytes a).receiver) := by
  rw [sendStamped] at hrun
  obtain ⟨verdict, -, hsend⟩ := Option.bind_eq_some_iff.mp hrun
  rw [sendChecked_of_ready hready, Option.some.injEq] at hsend
  exact ⟨verdict.2, hsend.symm⟩

theorem sendMsg_eq : sendMsg fuel s e.sender e.sent =
    sendStamped fuel (stampSender s e.sender (source s e)) e.sender e.sent (source s e) := by
  rw [sendMsg, source]

theorem recvMsg_eq : recvMsg fuel s e.receiver e.received n =
    recvStamped fuel (stampReceiver s e.receiver (target s e)) e.receiver e.received (target s e) n := by
  rw [recvMsg, target]

/-- **What a transfer does**: the bytes are those of `transferBytes`, and no page directory is replaced. -/
theorem Transfer.spec (h : Transfer fuel s s' r e) :
    s'.bytes = transferBytes s e r ∧ s'.kernel.pageDir = s.kernel.pageDir := by
  cases h with
  | direct hrun hto hready hbuf =>
    rw [sendMsg_eq] at hrun
    rw [← kernel_stampSender s e.sender (source s e)] at hready
    rw [← hto] at hready
    obtain ⟨names, hs'⟩ := sendStamped_of_ready hready hrun
    have hplace : (stampSender s e.sender (source s e)).view.buf e.receiver =
        target (stampSender s e.sender (source s e)) e := by
      rw [view_buf, target_eq, ← hbuf, kernel_stampSender]
    rw [hto, hplace] at hs'
    rw [hs', deliver_bytes, transferBytes, deliver, pageDir_wake, pageDir_print, kernel_stampSender]
    exact ⟨rfl, rfl⟩
  | @quened e recvFrom hrun htakes hbuf =>
    have hplace : (stampReceiver s e.receiver (target s e)).view.buf e.sender =
        source (stampReceiver s e.receiver (target s e)) e := by
      rw [view_buf, source_eq, ← hbuf, kernel_stampReceiver]
    rw [recvMsg_eq, recvStamped_of_takes htakes] at hrun
    rw [transferBytes, ← hplace]
    have hkernel := kernel_stampReceiver s e.receiver (target s e)
    split at hrun
    · have hspec := takeMsg_spec (Kernel.setQueneHead_frame _).2.1 (Kernel.setQueneHead_frame _).2.2.2.1
        (Option.some.inj hrun)
      rw [hkernel] at hspec
      exact hspec
    · obtain ⟨k, hunlink, hs'⟩ := Option.map_eq_some_iff.mp hrun
      obtain ⟨hdir, hmsg⟩ := pageDir_unlinkSender hunlink
      have hspec := takeMsg_spec hdir hmsg hs'
      rw [hkernel] at hspec
      exact hspec

/-! ### When the receiver reads what was sent -/

/-- What the kernel does not set of byte `i` of a message. -/
def payload (i : ℕ) (b : UInt8) : UInt8 := if i < 8 then 0 else if i = 8 then b / 2 else b

/-- A byte of one of the two messages. -/
def OfMessages (s : Machine) (e : Ends) (x : ℕ) : Prop :=
  ∃ i < messageSize, sentByte s e i = some x ∨ receivedByte s e i = some x

/-- A byte of an entry that the walks for the two messages read. -/
def OfWalks (s : Machine) (e : Ends) (x : ℕ) : Prop :=
  ∃ i < messageSize, WalkByte s.bytes (s.kernel.pageDir e.sender) (e.sent + i) x ∨
    WalkByte s.bytes (s.kernel.pageDir e.receiver) (e.received + i) x

/-- The receiver reads what the sender had, but for what the kernel sets, and no other byte has changed. -/
structure Right (s s' : Machine) (e : Ends) : Prop where
  copied : ∀ i < messageSize, ((receivedByte s' e i).map fun x => payload i (s'.bytes x)) =
    (sentByte s e i).map fun x => payload i (s.bytes x)
  kept : ∀ x, ¬ OfMessages s e x → s'.bytes x = s.bytes x

/-- Both messages are contiguous and apart from the page tables that lead to them; and where the receiver
comes second, its number is not written into what is still to be copied. -/
structure Fits (s : Machine) (e : Ends) (r : Route) : Prop where
  sent : Contiguous s.bytes (s.kernel.pageDir e.sender) e.sent
  received : Contiguous s.bytes (s.kernel.pageDir e.receiver) e.received
  tables : ∀ x, OfMessages s e x → ¬ OfWalks s e x
  stamp : r = .quened → target s e ≤ source s e ∨ source s e + 28 ≤ target s e

/-- Without a change outside the messages the walks are the same. -/
theorem walks_of_kept (htables : ∀ x, OfMessages s e x → ¬ OfWalks s e x)
    (hkept : ∀ x, ¬ OfMessages s e x → m x = s.bytes x) (hi : i < messageSize) :
    (Paging.translate (readWord m) (s.kernel.pageDir e.receiver) (e.received + i) = receivedByte s e i ∧
      vir2phy (readWord m) (s.kernel.pageDir e.receiver) (e.received + i) =
        vir2phy (readWord s.bytes) (s.kernel.pageDir e.receiver) (e.received + i)) ∧
    vir2phy (readWord m) (s.kernel.pageDir e.sender) (e.sent + i) =
      vir2phy (readWord s.bytes) (s.kernel.pageDir e.sender) (e.sent + i) := by
  have hsame : ∀ x, OfWalks s e x → m x = s.bytes x := fun x hx => hkept x fun hof => htables x hof hx
  refine ⟨walk_congr fun x hx => ?_, (walk_congr fun x hx => ?_).2⟩
  · exact hsame x ⟨i, hi, Or.inr hx⟩
  · exact hsame x ⟨i, hi, Or.inl hx⟩

theorem Fits.sentByte (h : Fits s e r) (hi : i < messageSize) : sentByte s e i = some (source s e + i) := by
  rw [MessageBytes.sentByte, source_eq]
  exact h.sent i hi

theorem Fits.receivedByte (h : Fits s e r) (hi : i < messageSize) :
    receivedByte s e i = some (target s e + i) := by
  rw [MessageBytes.receivedByte, target_eq]
  exact h.received i hi

/-- What is outside the two blocks is outside the messages. -/
theorem Fits.outside (h : Fits s e r) (hx : ¬ OfMessages s e x) :
    (x < source s e ∨ source s e + messageSize ≤ x) ∧ (x < target s e ∨ target s e + messageSize ≤ x) := by
  constructor
  · by_contra hno
    refine hx ⟨x - source s e, by omega, Or.inl ?_⟩
    rw [h.sentByte (by omega), Nat.add_sub_cancel' (by omega)]
  · by_contra hno
    refine hx ⟨x - target s e, by omega, Or.inr ?_⟩
    rw [h.receivedByte (by omega), Nat.add_sub_cancel' (by omega)]

theorem payload_of_lt {b c : UInt8} (hi : i < 8) : payload i b = payload i c := by
  rw [payload, payload, if_pos hi, if_pos hi]

/-- The bit that is cleared is not part of the payload. -/
theorem payload_clearReady : payload i (clearReady m a (a + i)) = payload i (m (a + i)) := by
  by_cases hi : i = 8
  · rw [hi, clearReady, Function.update_self]
    have hhalf : ∀ b : UInt8, payload 8 (b / 2 * 2) = payload 8 b := by
      intro b
      apply UInt8.toNat.inj
      have hlt := b.toNat_lt
      simp only [payload, Nat.lt_irrefl, if_false, if_true, UInt8.toNat_div, UInt8.toNat_mul, UInt8.reduceToNat]
      omega
    exact hhalf _
  · rw [clearReady, Function.update_of_ne (by omega)]

theorem clearReady_of_ne (hx : x ≠ a + 8) : clearReady m a x = m x := by
  rw [clearReady, Function.update_of_ne hx]

/-- What the second call makes of the bytes of the two messages. -/
theorem transferBytes_spec (h : Fits s e r) :
    (∀ i < messageSize, payload i (transferBytes s e r (target s e + i)) = payload i (s.bytes (source s e + i))) ∧
      ∀ x, ¬ OfMessages s e x → transferBytes s e r x = s.bytes x := by
  have hsource := h.sent.end_le
  have htarget := h.received.end_le
  rw [← source_eq] at hsource
  rw [← target_eq] at htarget
  cases r with
  | direct =>
    have hkept : ∀ x, ¬ OfMessages s e x → (stampSender s e.sender (source s e)).bytes x = s.bytes x := by
      intro x hx
      have hout := (h.outside hx).1
      apply writeWord_of_lt
      rw [messageSize] at hout
      omega
    have hplace : target (stampSender s e.sender (source s e)) e = target s e := by
      rw [target_eq, target_eq, kernel_stampSender]
      exact (walks_of_kept h.tables hkept (i := 0) (by decide)).1.2
    simp only [transferBytes, hplace]
    rw [Klib.memcpy_eq_copy hsource htarget]
    constructor
    · intro i hi
      rw [payload_clearReady, copy_of_mem hi]
      by_cases hlow : i < 8
      · exact payload_of_lt hlow
      · rw [bytes_stampSender, writeWord_of_lt (by omega)]
    · intro x hx
      have hout := (h.outside hx).2
      have hready : x ≠ target s e + 8 := by
        rw [messageSize] at hout
        omega
      rw [clearReady_of_ne hready, copy_of_notMem hout, hkept x hx]
  | quened =>
    have hkept : ∀ x, ¬ OfMessages s e x → (stampReceiver s e.receiver (target s e)).bytes x = s.bytes x := by
      intro x hx
      have hout := (h.outside hx).2
      apply writeWord_of_lt
      rw [messageSize] at hout
      omega
    have hplace : source (stampReceiver s e.receiver (target s e)) e = source s e := by
      rw [source_eq, source_eq, kernel_stampReceiver]
      exact (walks_of_kept h.tables hkept (i := 0) (by decide)).2
    simp only [transferBytes, hplace]
    rw [Klib.memcpy_eq_copy hsource htarget]
    constructor
    · intro i hi
      rw [copy_of_mem hi]
      have hstamp := h.stamp rfl
      rw [messageSize] at hi
      by_cases hlow : i < 8
      · exact payload_of_lt hlow
      · rw [bytes_stampReceiver, writeWord_of_lt (by omega)]
    · intro x hx
      rw [copy_of_notMem (h.outside hx).2, hkept x hx]

/-- **A message is copied as the processes see it**, if both messages are contiguous. -/
theorem transfer_right (fuel : ℕ) (s s' : Machine) (r : Route) (e : Ends) (h : Transfer fuel s s' r e)
    (hfits : Fits s e r) : Right s s' e := by
  obtain ⟨hbytes, hdir⟩ := h.spec
  obtain ⟨hcopied, hkept⟩ := transferBytes_spec hfits
  rw [← hbytes] at hcopied hkept
  refine ⟨fun i hi => ?_, hkept⟩
  have hwalk : receivedByte s' e i = receivedByte s e i := by
    rw [receivedByte, hdir]
    exact (walks_of_kept hfits.tables hkept hi).1.1
  rw [hwalk, hfits.receivedByte hi, hfits.sentByte hi, Option.map_some, Option.map_some, hcopied i hi]

/-! ### Two processes with a page directory each -/

/-- Two directories that map the first four megabytes to themselves, a message for process 2 at `0x3000`, and
a buffer with the filter of a receiver at `0x4000`. -/
def demoBytes : Memory := fun x =>
  if x = 0x1000 ∨ x = 0x2000 then 0x83
  else if x = 0x3004 then 2
  else if x = 0x3010 then 0x2a
  else if x = 0x4000 then 0xfe
  else if 0x4001 ≤ x ∧ x < 0x4004 then 0xff
  else if x = 0x4008 then 1
  else 0

/-- Process 2 is waiting, or everybody is running. -/
def demoMachine (waiting : Bool) : Machine where
  kernel :=
    { procTable := fun p =>
        { (default : Process) with
          pid := p
          pageDir := if p = 2 then 0x2000 else 0x1000
          status := if waiting = true ∧ p = 2 then procStatusReceving else procStatusRunning
          pMsg := if waiting = true ∧ p = 2 then 0x4000 else 0 }
      procList := none
      procRunning := none
      memory := fun _ => default
      vir2phy := fun _ _ => 0
      interruptSuscribed := fun _ => 0
      interruptSuscribedData := fun _ => default
      exceptionSuscribed := fun _ => 0
      exceptionSuscribedData := fun _ => default
      screen := [] }
  bytes := demoBytes

theorem demo_word (hdir : dir = 0x1000 ∨ dir = 0x2000) (hi : i < 2 ^ 10) :
    readWord demoBytes (dir + 4 * i) = if i = 0 then 0x83 else 0 := by
  split
  · rename_i hzero
    rcases hdir with rfl | rfl
    · rw [hzero]
      decide
    · rw [hzero]
      decide
  · have hbyte : ∀ j < 4, demoBytes (dir + 4 * i + j) = 0 := by
      intro j hj
      simp only [demoBytes]
      rw [if_neg (by omega), if_neg (by omega), if_neg (by omega), if_neg (by omega), if_neg (by omega),
        if_neg (by omega)]
    have h₀ := hbyte 0 (by decide)
    rw [Nat.add_zero] at h₀
    rw [readWord, h₀, hbyte 1 (by decide), hbyte 2 (by decide), hbyte 3 (by decide)]
    rfl

/-- The walks of both processes read their directory only. -/
theorem demo_walkByte (hdir : dir = 0x1000 ∨ dir = 0x2000) (h : WalkByte demoBytes dir va x) : x < 0x3000 := by
  have hlt : va / 2 ^ 22 % 2 ^ 10 < 2 ^ 10 := Nat.mod_lt _ (by decide)
  rw [WalkByte, demo_word hdir hlt] at h
  rcases h with ⟨-, hx⟩ | ⟨hpresent, hlarge, -⟩
  · omega
  · split at hpresent
    · rename_i hzero
      rw [if_pos hzero] at hlarge
      exact absurd hlarge (by decide)
    · exact absurd hpresent (by decide)

theorem demo_walk (hdir : dir = 0x1000 ∨ dir = 0x2000) (hva : va < 2 ^ 22) :
    Paging.translate (readWord demoBytes) dir va = some va ∧ vir2phy (readWord demoBytes) dir va = va := by
  have hindex : va / 2 ^ 22 % 2 ^ 10 = 0 := by omega
  have hpde : pdeOf (readWord demoBytes) dir va = 0x83 := by
    rw [pdeOf, hindex, demo_word hdir (by decide), if_pos rfl]
  have hpresent : present 0x83 = true := by decide
  have hlarge : large 0x83 = true := by decide
  simp only [Paging.translate, vir2phy, hpde, hpresent, hlarge, if_true, Bool.true_eq_false, if_false, pageOf]
  rw [Option.some.injEq]
  omega

theorem demo_contiguous (hdir : dir = 0x1000 ∨ dir = 0x2000) (hva : va < 2 ^ 20) :
    Contiguous demoBytes dir va := by
  intro i hi
  rw [messageSize] at hi
  rw [(demo_walk hdir (by omega)).1, (demo_walk hdir (by omega)).2]

/-- Process 1 sends its message to process 2. -/
def demoEnds : Ends := ⟨1, 2, 0x3000, 0x4000⟩

theorem demo_fits : Fits (demoMachine true) demoEnds .direct where
  sent := demo_contiguous (Or.inl rfl) (by decide)
  received := demo_contiguous (Or.inr rfl) (by decide)
  tables x hof hwalk := by
    obtain ⟨i, hi, hx⟩ := hof
    have hlow : x < 0x3000 := by
      obtain ⟨j, -, hw | hw⟩ := hwalk
      · exact demo_walkByte (Or.inl rfl) hw
      · exact demo_walkByte (Or.inr rfl) hw
    rw [messageSize] at hi
    have hsent : sentByte (demoMachine true) demoEnds i = some (0x3000 + i) :=
      (demo_walk (Or.inl rfl) (show 0x3000 + i < 2 ^ 22 by omega)).1
    have hreceived : receivedByte (demoMachine true) demoEnds i = some (0x4000 + i) :=
      (demo_walk (Or.inr rfl) (show 0x4000 + i < 2 ^ 22 by omega)).1
    rw [hsent, hreceived, Option.some.injEq, Option.some.injEq] at hx
    omega
  stamp h := by cases h

/-- The message of process 1 is handed over. -/
theorem transfer_right_demo : ∃ s', Transfer 1 (demoMachine true) s' .direct demoEnds ∧
    Right (demoMachine true) s' demoEnds := by
  have hsome : (sendMsg 1 (demoMachine true) 1 0x3000).isSome := by decide +kernel
  obtain ⟨s', hs'⟩ := Option.isSome_iff_exists.mp hsome
  have htransfer : Transfer 1 (demoMachine true) s' .direct demoEnds :=
    .direct hs' (by decide +kernel) (by decide +kernel) rfl
  exact ⟨s', htransfer, transfer_right 1 (demoMachine true) s' .direct demoEnds htransfer demo_fits⟩

end OmochaOS.MessageBytes
