import OmochaOS.Ipc.MessageBytes
import OmochaOS.Ipc.Notice

/-!
# Messages as bytes and messages as cells

The message-passing system of `Step` has one cell for each message; the calls of `Machine` have bytes.  Where
the buffers of the live processes are apart from each other and from the page tables (`Laid`), every run of
the bytes is a run of the cells with the same events (`byteRun_refines`), so that what holds of all runs of
`Step` holds of the bytes.
-/

namespace OmochaOS

open ByteMemory Paging BitFlags TransitionRun

variable {w : World} {k k' : Kernel} {s s' t : MessageBytes.Machine} {m m' m₀ : Memory} {dirs : Pid → PageDir}
  {fuel : ℕ} {p q r : Pid} {va a b x v n : ℕ} {c : UInt8} {e : Event}

/-! ### The fields of a message -/

namespace MessageBytes

theorem messageAt_congr (h : ∀ i < messageSize, m' (b + i) = m (a + i)) : messageAt m' b = messageAt m a := by
  have hword : ∀ j, j + 4 ≤ messageSize → readWord m' (b + j) = readWord m (a + j) := by
    intro j hj
    apply readWord_congr
    intro i hi
    rw [Nat.add_assoc, Nat.add_assoc]
    exact h (j + i) (by omega)
  have h₀ := hword 0 (by decide)
  rw [Nat.add_zero, Nat.add_zero] at h₀
  simp only [messageAt, h₀, hword 4 (by decide), hword 8 (by decide), hword 12 (by decide), hword 16 (by decide),
    hword 20 (by decide), hword 24 (by decide), hword 28 (by decide)]

theorem messageAt_writeSender (hv : v < 2 ^ 32) :
    messageAt (writeWord m a v) a = { messageAt m a with sender := v } := by
  simp (disch := omega) only [messageAt, readWord_writeWord hv, readWord_writeWord_of_disjoint]

theorem messageAt_writeReceiver (hv : v < 2 ^ 32) :
    messageAt (writeWord m (a + 4) v) a = { messageAt m a with receiver := v } := by
  simp (disch := omega) only [messageAt, readWord_writeWord hv, readWord_writeWord_of_disjoint]

theorem messageAt_writeMajor (hv : v < 2 ^ 32) :
    messageAt (writeWord m (a + 12) v) a = { messageAt m a with major := v } := by
  simp (disch := omega) only [messageAt, readWord_writeWord hv, readWord_writeWord_of_disjoint]

theorem messageAt_writeData (hv : v < 2 ^ 32) : messageAt (writeWord m (a + 16) v) a =
    { messageAt m a with data := { (messageAt m a).data with d1 := v } } := by
  simp (disch := omega) only [messageAt, readWord_writeWord hv, readWord_writeWord_of_disjoint]

theorem messageAt_setType (hv : v < 2 ^ 31) :
    messageAt (setType m a v) a = { messageAt m a with type := v } := by
  have hlt : 2 * v + readWord m (a + 8) % 2 < 2 ^ 32 := by omega
  have hbit : (2 * v + readWord m (a + 8) % 2).testBit 0 = (readWord m (a + 8)).testBit 0 := by
    rw [Nat.testBit_zero, Nat.testBit_zero, Nat.mul_add_mod, Nat.mod_mod]
  have hhalf : (2 * v + readWord m (a + 8) % 2) / 2 = v := by omega
  simp (disch := omega) only [messageAt, setType, readWord_writeWord hlt, readWord_writeWord_of_disjoint, hbit, hhalf]

theorem readWord_update_of_ne (h : x < b ∨ b + 4 ≤ x) : readWord (Function.update m x c) b = readWord m b := by
  apply readWord_congr
  intro i hi
  rw [Function.update_of_ne (by omega)]

/-- The lowest bit of a word is changed. -/
theorem readWord_update (hc : c.toNat / 2 = (m b).toNat / 2) :
    readWord (Function.update m b c) b = 2 * (readWord m b / 2) + c.toNat % 2 := by
  have h₁ : b + 1 ≠ b := by omega
  have h₂ : b + 2 ≠ b := by omega
  have h₃ : b + 3 ≠ b := by omega
  rw [readWord, readWord, Function.update_self, Function.update_of_ne h₁, Function.update_of_ne h₂,
    Function.update_of_ne h₃]
  omega

theorem messageAt_update (hc : c.toNat / 2 = (m (a + 8)).toNat / 2) :
    messageAt (Function.update m (a + 8) c) a = { messageAt m a with ready := decide (c.toNat % 2 = 1) } := by
  have hbit : (2 * (readWord m (a + 8) / 2) + c.toNat % 2).testBit 0 = decide (c.toNat % 2 = 1) := by
    rw [Nat.testBit_zero, Nat.mul_add_mod, Nat.mod_mod]
  have hhalf : (2 * (readWord m (a + 8) / 2) + c.toNat % 2) / 2 = readWord m (a + 8) / 2 := by omega
  rw [messageAt, readWord_update hc, hbit, hhalf]
  simp (disch := omega) only [messageAt, readWord_update_of_ne]

theorem messageAt_setReady : messageAt (setReady m a) a = { messageAt m a with ready := true } := by
  have hbyte : (m (a + 8) / 2 * 2 + 1).toNat = (m (a + 8)).toNat / 2 * 2 + 1 := by
    have hlt := (m (a + 8)).toNat_lt
    simp only [UInt8.toNat_add, UInt8.toNat_mul, UInt8.toNat_div, UInt8.reduceToNat]
    omega
  have hodd : decide ((m (a + 8) / 2 * 2 + 1).toNat % 2 = 1) = true := by
    rw [hbyte, decide_eq_true_eq]
    omega
  rw [setReady, messageAt_update (by omega), hodd]

theorem messageAt_clearReady : messageAt (clearReady m a) a = { messageAt m a with ready := false } := by
  have hbyte : (m (a + 8) / 2 * 2).toNat = (m (a + 8)).toNat / 2 * 2 := by
    have hlt := (m (a + 8)).toNat_lt
    simp only [UInt8.toNat_mul, UInt8.toNat_div, UInt8.reduceToNat]
    omega
  have heven : decide ((m (a + 8) / 2 * 2).toNat % 2 = 1) = false := by
    rw [hbyte, decide_eq_false_iff_not]
    omega
  rw [clearReady, messageAt_update (by omega), heven]

theorem messageAt_memcpy (ha : a + messageSize ≤ 2 ^ 32) (hb : b + messageSize ≤ 2 ^ 32) :
    messageAt (Klib.memcpy m b a messageSize) b = messageAt m a := by
  rw [Klib.memcpy_eq_copy ha hb]
  exact messageAt_congr fun i hi => copy_of_mem hi

end MessageBytes

/-! ### The tables of the kernel without the messages -/

namespace Kernel

variable {cells : PAddr → Message} {walk : PageDir → VAddr → PAddr}

/-- The kernel with other cells and another translation. -/
def withMemory (k : Kernel) (cells : PAddr → Message) (walk : PageDir → VAddr → PAddr) : Kernel :=
  { k with memory := cells, vir2phy := walk }

/-- The operation neither reads nor writes messages, and page directories stay. -/
structure Blind (f : Kernel → Kernel) : Prop where
  comm : ∀ k cells walk, f (withMemory k cells walk) = (f k).withMemory cells walk
  pageDir : ∀ k, (f k).pageDir = k.pageDir

theorem Blind.comp {f g : Kernel → Kernel} (hf : Blind f) (hg : Blind g) : Blind fun k => g (f k) where
  comm k cells walk := by rw [hf.comm, hg.comm]
  pageDir k := by rw [hg.pageDir, hf.pageDir]

theorem blind_modProc {f : Process → Process} (hf : ∀ pr, (f pr).pageDir = pr.pageDir) :
    Blind fun k => k.modProc p f where
  comm _ _ _ := rfl
  pageDir _ := procTable_modProc_of_eq _ (hf _)

theorem blind_setStatus (p : Pid) (f : BitVec 32 → BitVec 32) : Blind fun k => k.setStatus p (f (k.status p)) where
  comm _ _ _ := rfl
  pageDir _ := procTable_modProc_of_eq _ rfl

theorem blind_wake (p : Pid) (bit : BitVec 32) : Blind fun k => k.wake p bit :=
  blind_setStatus p fun st => raise (raise (drop st bit) procStatusNormal) procStatusRunning

theorem blind_block (p : Pid) (off on : BitVec 32) : Blind fun k => k.block p off on :=
  blind_setStatus p fun st => raise (drop st off) on

theorem blind_setPMsg (p : Pid) (va : VAddr) : Blind fun k => k.setPMsg p va := blind_modProc fun _ => rfl

theorem blind_setQueneHead (p : Pid) (h : Option Pid) : Blind fun k => k.setQueneHead p h := blind_modProc fun _ => rfl

theorem blind_setQueneBody {h : Option Pid} : Blind fun k => k.setQueneBody p h := blind_modProc fun _ => rfl

theorem blind_print (names : List (List UInt8)) : Blind fun k => k.print names where
  comm _ _ _ := rfl
  pageDir _ := rfl

theorem schedulerWalk_withMemory : schedulerWalk (withMemory k cells walk) fuel p = schedulerWalk k fuel p := by
  induction fuel generalizing p with
  | zero => rfl
  | succ fuel ih =>
    rw [schedulerWalk, schedulerWalk]
    have hnext : (withMemory k cells walk).nextProc p = k.nextProc p := rfl
    rw [hnext]
    cases k.nextProc p with
    | none => rfl
    | some q => simp only [ih]; rfl

theorem blind_scheduler (fuel : ℕ) : Blind fun k => k.scheduler fuel where
  comm k cells walk := by
    simp only [scheduler]
    have hrun : (withMemory k cells walk).procRunning = k.procRunning := rfl
    rw [hrun]
    cases k.procRunning with
    | none => rfl
    | some cur =>
      simp only [schedulerWalk_withMemory]
      cases schedulerWalk k fuel cur with
      | none => rfl
      | some q => rfl
  pageDir k := by
    obtain ⟨r, hr⟩ := scheduler_eq (k := k) fuel
    rw [hr]
    rfl

theorem blind_setInterruptData (n : ℕ) (d : InterruptData) : Blind fun k => k.setInterruptData n d :=
  ⟨fun _ _ _ => rfl, fun _ => rfl⟩

theorem blind_setExceptionData (n : ℕ) (d : InterruptData) : Blind fun k => k.setExceptionData n d :=
  ⟨fun _ _ _ => rfl, fun _ => rfl⟩

/-- What holds of the first answer and of every slot holds of the answer of the scan. -/
theorem scanPending_of_all {table : ℕ → InterruptData} {l : List ℕ} {found : ℕ × ℕ} {P : ℕ × ℕ → Prop}
    (hfound : P found) (hall : ∀ i ∈ l, (table i).avail = true → P (i, (table i).data)) :
    P (scanPending table l found).1 := by
  induction l generalizing found with
  | nil => exact hfound
  | cons i l ih =>
    have hrest : ∀ j ∈ l, (table j).avail = true → P (j, (table j).data) :=
      fun j hj => hall j (List.mem_cons_of_mem i hj)
    rw [scanPending]
    split
    · rename_i havail
      split
      · exact hfound
      · exact ih (hall i List.mem_cons_self havail) hrest
    · exact ih hfound hrest

theorem scan_index_lt (table : ℕ → InterruptData) {count : ℕ} (hcount : 0 < count) :
    (scan table count).1.1 < count :=
  scanPending_of_all (P := fun x => x.1 < count) hcount fun _ hi _ => List.mem_range.mp hi

theorem scan_data_lt {table : ℕ → InterruptData} (hdata : ∀ i, (table i).avail = true → (table i).data < 2 ^ 32)
    (count : ℕ) :
    (scan table count).1.2 < 2 ^ 32 :=
  scanPending_of_all (P := fun x => x.2 < 2 ^ 32) (by decide) fun i _ => hdata i

/-- The tables after a pending interrupt has been taken. -/
def takeInterrupt (k : Kernel) (p : Pid) (irq : ℕ) (second : Bool) : Kernel :=
  (if second then k else k.setStatus p (drop (k.status p) procStatusGotint)).setInterruptData irq
    { k.interruptSuscribedData irq with avail := false }

/-- The tables after a pending exception has been taken. -/
def takeException (k : Kernel) (p : Pid) (exc : ℕ) (second : Bool) : Kernel :=
  (if second then k else k.setStatus p (drop (k.status p) procStatusGotexc)).setExceptionData exc
    { k.exceptionSuscribedData exc with avail := false }

theorem blind_takeInterrupt (p : Pid) (n : ℕ) (second : Bool) : Blind fun k => k.takeInterrupt p n second := by
  have hdata : Blind fun k : Kernel =>
      k.setInterruptData n { k.interruptSuscribedData n with avail := false } := ⟨fun _ _ _ => rfl, fun _ => rfl⟩
  cases second with
  | true => exact hdata
  | false =>
    exact (blind_setStatus p fun st => drop st procStatusGotint).comp hdata

theorem blind_takeException (p : Pid) (n : ℕ) (second : Bool) : Blind fun k => k.takeException p n second := by
  have hdata : Blind fun k : Kernel =>
      k.setExceptionData n { k.exceptionSuscribedData n with avail := false } := ⟨fun _ _ _ => rfl, fun _ => rfl⟩
  cases second with
  | true => exact hdata
  | false =>
    exact (blind_setStatus p fun st => drop st procStatusGotexc).comp hdata

theorem recvInterrupt_eq (k : Kernel) : k.recvInterrupt p a =
    (k.writeMsg a (interruptNotice k a)).takeInterrupt p (scan k.interruptSuscribedData hwIrqCount).1.1
      (scan k.interruptSuscribedData hwIrqCount).2 := by
  rw [recvInterrupt, takeInterrupt]
  cases (scan k.interruptSuscribedData hwIrqCount).2 with
  | true => rfl
  | false => rfl

theorem recvException_eq (k : Kernel) : k.recvException p a =
    (k.writeMsg a (exceptionNotice k a)).takeException p (scan k.exceptionSuscribedData exceptionCount).1.1
      (scan k.exceptionSuscribedData exceptionCount).2 := by
  rw [recvException, takeException]
  cases (scan k.exceptionSuscribedData exceptionCount).2 with
  | true => rfl
  | false => rfl

theorem queneSender_withMemory : queneSender fuel (withMemory k cells walk) p va r =
    (queneSender fuel k p va r).map fun k => k.withMemory cells walk := by
  simp only [queneSender, appendQuene]
  rw [(blind_setPMsg p va).comm, (blind_block p _ _).comm]
  have hhead : (withMemory ((k.setPMsg p va).block p procStatusNormal procStatusSending) cells walk).queneHead r =
      ((k.setPMsg p va).block p procStatusNormal procStatusSending).queneHead r := rfl
  rw [hhead]
  cases ((k.setPMsg p va).block p procStatusNormal procStatusSending).queneHead r with
  | none =>
    simp only [Option.map_some]
    rw [(blind_setQueneHead r (some p)).comm, blind_setQueneBody.comm, (blind_scheduler fuel).comm]
  | some h =>
    simp only [Option.map_map, Function.comp_def]
    have hbody : (withMemory ((k.setPMsg p va).block p procStatusNormal procStatusSending) cells walk).queneBody =
        ((k.setPMsg p va).block p procStatusNormal procStatusSending).queneBody := rfl
    rw [hbody]
    congr 1
    funext last
    rw [blind_setQueneBody.comm, blind_setQueneBody.comm, (blind_scheduler fuel).comm]

theorem unlinkSender_withMemory : unlinkSender fuel (withMemory k cells walk) p q =
    (unlinkSender fuel k p q).map fun k => k.withMemory cells walk := by
  have hsearch : queneSearch fuel (withMemory k cells walk) p q = queneSearch fuel k p q := rfl
  simp only [unlinkSender, hsearch]
  cases queneSearch fuel k p q with
  | head => rfl
  | middle prev => rfl
  | missing => rfl
  | nullHead => rfl
  | spinning => rfl

end Kernel

/-! ### Where the buffers are -/

/-- A byte of a buffer of a live process. -/
def World.Cell (w : World) (x : ℕ) : Prop :=
  ∃ a : ℕ, w.live (w.owner a) ∧ a ≤ x ∧ x < a + MessageBytes.messageSize

/-- The buffers of the live processes are apart from each other and from the page tables of all processes. -/
structure Laid (w : World) (m₀ : Memory) (dirs : Pid → PageDir) : Prop where
  apart : ∀ a b : ℕ, w.live (w.owner a) → w.live (w.owner b) → a ≠ b →
    a + MessageBytes.messageSize ≤ b ∨ b + MessageBytes.messageSize ≤ a
  below : ∀ a : ℕ, w.live (w.owner a) → a + MessageBytes.messageSize ≤ 2 ^ 32
  tables : ∀ x, w.Cell x → ∀ p va, ¬ MessageBytes.WalkByte m₀ (dirs p) va x

/-- The machine has the tables of the kernel, in the buffers the bytes of its cells, and the page tables
of `m₀`. -/
structure Represents (w : World) (m₀ : Memory) (dirs : Pid → PageDir) (s : MessageBytes.Machine) (k : Kernel) :
    Prop where
  tables : k = s.kernel.withMemory k.memory k.vir2phy
  sameDirs : s.kernel.pageDir = dirs
  memory : ∀ a, w.live (w.owner a) → k.memory a = MessageBytes.messageAt s.bytes a
  kept : ∀ p va x, MessageBytes.WalkByte m₀ (dirs p) va x → s.bytes x = m₀ x
  walk : ∀ p va, k.vir2phy (dirs p) va = vir2phy (readWord m₀) (dirs p) va

namespace Represents

open MessageBytes

theorem procTable (h : Represents w m₀ dirs s k) : k.procTable = s.kernel.procTable := by
  rw [h.tables, Kernel.withMemory]

theorem pageDir (h : Represents w m₀ dirs s k) : k.pageDir = dirs := by
  rw [← h.sameDirs]
  funext p
  rw [Kernel.pageDir, Kernel.pageDir, h.procTable]

theorem is_iff (h : Represents w m₀ dirs s k) {mask : BitVec 32} : s.view.Is p mask ↔ k.Is p mask := by
  rw [Kernel.Is, Kernel.Is, Kernel.status, Kernel.status, view_procTable, h.procTable]

theorem msgAddr (h : Represents w m₀ dirs s k) : s.view.msgAddr p va = k.msgAddr p va := by
  rw [view_msgAddr, Kernel.msgAddr, h.pageDir, h.sameDirs, h.walk]
  exact (walk_congr fun x hx => h.kept p va x hx).2

theorem pMsg (h : Represents w m₀ dirs s k) : s.view.pMsg = k.pMsg := by
  funext p
  rw [Kernel.pMsg, Kernel.pMsg, view_procTable, h.procTable]

theorem buf (h : Represents w m₀ dirs s k) : s.view.buf p = k.buf p := by
  rw [Kernel.buf, Kernel.buf, h.pMsg]
  exact h.msgAddr

theorem pending (h : Represents w m₀ dirs s k) (hlive : w.live (w.owner (k.buf p))) :
    s.view.pending p = k.pending p := by
  rw [Kernel.pending, Kernel.pending, h.buf, h.memory _ hlive, view_memory]

/-- An operation on the tables. -/
theorem table (h : Represents w m₀ dirs s k) {f : Kernel → Kernel} (hf : Kernel.Blind f) :
    Represents w m₀ dirs { s with kernel := f s.kernel } (f k) := by
  have hk : f k = (f s.kernel).withMemory k.memory k.vir2phy := by
    rw [← hf.comm, ← h.tables]
  have hmem : (f k).memory = k.memory := by
    rw [hk]
    rfl
  have hwalk : (f k).vir2phy = k.vir2phy := by
    rw [hk]
    rfl
  refine ⟨?_, ?_, fun a ha => ?_, h.kept, fun p va => ?_⟩
  · rw [hmem, hwalk]
    exact hk
  · rw [← h.sameDirs]
    exact hf.pageDir _
  · rw [hmem]
    exact h.memory a ha
  · rw [hwalk]
    exact h.walk p va

/-- A message is written into a buffer. -/
theorem write (hl : Laid w m₀ dirs) (h : Represents w m₀ dirs s k) (ha : w.live (w.owner a))
    (hout : ∀ x, x < a ∨ a + messageSize ≤ x → m x = s.bytes x) {msg : Message} (hmsg : messageAt m a = msg) :
    Represents w m₀ dirs { s with bytes := m } (k.writeMsg a msg) := by
  refine ⟨?_, h.sameDirs, fun b hb => ?_, fun p va x hx => ?_, h.walk⟩
  · have htables := h.tables
    rw [Kernel.withMemory] at htables ⊢
    rw [Kernel.writeMsg, htables]
  · have hmem : (k.writeMsg a msg).memory = Function.update k.memory a msg := rfl
    rw [hmem]
    by_cases hba : b = a
    · rw [hba, Function.update_self, hmsg]
    · rw [Function.update_of_ne hba, h.memory b hb]
      refine (messageAt_congr fun i hi => hout (b + i) ?_).symm
      have hapart := hl.apart a b ha hb (Ne.symm hba)
      omega
  · rw [← h.kept p va x hx]
    apply hout
    by_contra hno
    exact hl.tables x ⟨a, ha, by omega, by omega⟩ p va hx

/-! ### What the calls read -/

theorem live_buf (hi : IpcInv w k) (hp : k.Sending p ∨ k.Receving p) : w.live (w.owner (k.buf p)) := by
  rw [(hi.own p hp).2]
  rcases hp with hs | hr
  · exact (hi.sending p hs).1
  · exact (hi.receving p hr).1

theorem readyFor_iff (h : Represents w m₀ dirs s k) (hi : IpcInv w k) :
    s.view.ReadyFor r n ↔ k.ReadyFor r n := by
  rw [Kernel.ReadyFor, Kernel.ReadyFor, h.is_iff]
  refine and_congr_right fun hr => ?_
  rw [h.pending (live_buf hi (Or.inr hr))]

theorem waitsForNotice_iff (h : Represents w m₀ dirs s k) (hi : IpcInv w k) :
    s.view.WaitsForNotice p ↔ k.WaitsForNotice p := by
  rw [Kernel.WaitsForNotice, Kernel.WaitsForNotice, h.is_iff]
  refine and_congr_right fun hr => ?_
  rw [h.pending (live_buf hi (Or.inr hr))]

theorem hasParked_iff (h : Represents w m₀ dirs s k) (hi : IpcInv w k) :
    s.view.HasParked r p ↔ k.HasParked r p := by
  rw [Kernel.HasParked, Kernel.HasParked, h.is_iff, h.buf]
  refine and_congr_right fun _ => and_congr_right fun hs => ?_
  have hpid : s.view.pid = k.pid := by
    funext q
    rw [Kernel.pid, Kernel.pid, view_procTable, h.procTable]
  rw [h.pending (live_buf hi (Or.inl hs)), hpid]

/-! ### The deadlock check -/

/-- Along blocked senders the names are printed from the same messages. -/
theorem printSendChain_congr (hpend : ∀ p, k.Sending p → k'.pending p = k.pending p) (hpid : k'.pid = k.pid)
    (hname : k'.name = k.name) (hsrc : k.pid p = p) (hlast : k.SendingTo q p)
    (hpath : Relation.ReflTransGen k.SendingTo r q) (fuel : ℕ) :
    Kernel.printSendChain k' p fuel r = Kernel.printSendChain k p fuel r := by
  induction hpath using Relation.ReflTransGen.head_induction_on generalizing fuel with
  | refl =>
    cases fuel with
    | zero => rfl
    | succ fuel =>
      rw [Kernel.printSendChain, Kernel.printSendChain, hpend q hlast.1, hlast.2, hpid, hname, if_pos hsrc, if_pos hsrc]
  | @head a c hac _ ih =>
    cases fuel with
    | zero => rfl
    | succ fuel =>
      rw [Kernel.printSendChain, Kernel.printSendChain, hpend a hac.1, hac.2, hpid, hname, ih fuel]

theorem deadLockWalk_congr (hpend : ∀ p, k.Sending p → k'.pending p = k.pending p)
    (hsend : ∀ p, k'.Sending p ↔ k.Sending p) (hpid : k'.pid = k.pid)
    (hname : k'.name = k.name) (hsrc : k.pid p = p) (hpath : Relation.ReflTransGen k.SendingTo r q) :
    Kernel.deadLockWalk k' fuel p r n q = Kernel.deadLockWalk k fuel p r n q := by
  induction n generalizing q with
  | zero => rfl
  | succ n ih =>
    rw [Kernel.deadLockWalk, Kernel.deadLockWalk]
    by_cases hs : k.Sending q
    · rw [if_pos ((hsend q).mpr hs), if_pos hs, hpend q hs]
      by_cases hto : (k.pending q).receiver = p
      · rw [if_pos hto, if_pos hto, printSendChain_congr hpend hpid hname hsrc ⟨hs, hto⟩ hpath, hname]
      · rw [if_neg hto, if_neg hto]
        exact ih (hpath.tail ⟨hs, rfl⟩)
    · rw [if_neg fun hs' => hs ((hsend q).mp hs'), if_neg hs]

/-- The check sees the same. -/
theorem isDeadLock (h : Represents w m₀ dirs s k) (hi : IpcInv w k) (hp : w.live p) :
    Kernel.isDeadLock fuel s.view p r = Kernel.isDeadLock fuel k p r := by
  apply deadLockWalk_congr
  · intro q hq
    exact h.pending (live_buf hi (Or.inl hq))
  · exact fun q => h.is_iff
  · funext q
    rw [Kernel.pid, Kernel.pid, view_procTable, h.procTable]
  · funext q
    rw [Kernel.name, Kernel.name, view_procTable, h.procTable]
  · exact hi.pid_eq p hp
  · exact Relation.ReflTransGen.refl

/-! ### Sending -/

theorem pid (h : Represents w m₀ dirs s k) : s.kernel.pid = k.pid := by
  funext p
  rw [Kernel.pid, Kernel.pid, h.procTable]

theorem queneHead (h : Represents w m₀ dirs s k) : k.queneHead = s.kernel.queneHead := by
  funext p
  rw [Kernel.queneHead, Kernel.queneHead, h.procTable]

theorem queneBody (h : Represents w m₀ dirs s k) : k.queneBody = s.kernel.queneBody := by
  funext p
  rw [Kernel.queneBody, Kernel.queneBody, h.procTable]

theorem kernel_is_iff (h : Represents w m₀ dirs s k) {mask : BitVec 32} : s.kernel.Is p mask ↔ k.Is p mask := by
  rw [Kernel.Is, Kernel.Is, Kernel.status, Kernel.status, h.procTable]

theorem pid_lt (h : Represents w m₀ dirs s k) (hi : IpcInv w k) (hlive : w.live p) : s.kernel.pid p < 2 ^ 32 := by
  rw [h.pid, hi.pid_eq p hlive]
  exact lt_trans (w.live_lt p hlive) (by decide)

theorem live_own (hlive : w.live p) (hbuf : w.OwnBuffer k p va) : w.live (w.owner (k.msgAddr p va)) := by
  rw [hbuf.2]
  exact hlive

theorem stampSender (hl : Laid w m₀ dirs) (h : Represents w m₀ dirs s k) (hi : IpcInv w k) (hlive : w.live p)
    (hbuf : w.OwnBuffer k p va) :
    Represents w m₀ dirs (stampSender s p (k.msgAddr p va)) (k.stampSender p va) := by
  refine h.write hl (live_own hlive hbuf) (fun x hx => writeWord_of_lt (by rw [messageSize] at hx; omega)) ?_
  rw [messageAt_writeSender (h.pid_lt hi hlive), h.memory _ (live_own hlive hbuf), h.pid]

theorem deliver (hl : Laid w m₀ dirs) (h : Represents w m₀ dirs s k) (ha : w.live (w.owner a))
    (hb : w.live (w.owner (k.buf r))) :
    Represents w m₀ dirs (MessageBytes.deliver s r a (s.view.buf r)) (k.deliver r a) := by
  have hbelow := hl.below _ hb
  have hcopy : Represents w m₀ dirs { s with bytes := Klib.memcpy s.bytes (k.buf r) a messageSize }
      (k.writeMsg (k.buf r) (k.memory a)) := by
    refine h.write hl hb (fun x hx => ?_) ?_
    · rw [Klib.memcpy_eq_copy (hl.below a ha) hbelow, copy_of_notMem hx]
    · rw [messageAt_memcpy (hl.below a ha) hbelow, h.memory a ha]
  have hwake := hcopy.table (Kernel.blind_wake r procStatusReceving)
  have hclear := hwake.write hl hb (m := clearReady (Klib.memcpy s.bytes (k.buf r) a messageSize) (k.buf r))
    (fun x hx => clearReady_of_ne (by rw [messageSize] at hx; omega)) messageAt_clearReady
  rw [MessageBytes.deliver, h.buf]
  have hmem := hwake.memory _ hb
  rw [← hmem] at hclear
  exact hclear

/-- The rest of a send. -/
theorem sendChecked (hl : Laid w m₀ dirs) (h : Represents w m₀ dirs s k) (hi : IpcInv w k)
    (ha : w.live (w.owner a)) (hcall : MessageBytes.sendChecked fuel s p va a r = some s') :
    ∃ k', (if k.ReadyFor r (k.pid p) then some (k.deliver r a) else Kernel.queneSender fuel k p va r) = some k' ∧
      Represents w m₀ dirs s' k' := by
  rw [MessageBytes.sendChecked, h.pid] at hcall
  by_cases hready : k.ReadyFor r (k.pid p)
  · rw [if_pos ((h.readyFor_iff hi).mpr hready), Option.some.injEq] at hcall
    refine ⟨_, if_pos hready, ?_⟩
    rw [← hcall]
    exact h.deliver hl ha (live_buf hi (Or.inr hready.1))
  · rw [if_neg fun hr => hready ((h.readyFor_iff hi).mp hr)] at hcall
    obtain ⟨j, hj, hs'⟩ := Option.map_eq_some_iff.mp hcall
    have hk : Kernel.queneSender fuel k p va r = some (j.withMemory k.memory k.vir2phy) := by
      rw [h.tables, Kernel.queneSender_withMemory, hj]
      rfl
    refine ⟨_, (if_neg hready).trans hk, ?_⟩
    rw [← hs']
    have hdir : j.pageDir = s.kernel.pageDir := (Kernel.quened_queneSender hj).fixed.pageDir
    exact ⟨rfl, hdir.trans h.sameDirs, h.memory, h.kept, h.walk⟩

/-- **A send of the bytes is a send of the cells.** -/
theorem sendMsg (hl : Laid w m₀ dirs) (h : Represents w m₀ dirs s k) (hi : IpcInv w k) (hlive : w.live p)
    (hawake : k.Awake p) (hbuf : w.OwnBuffer k p va) (hcall : MessageBytes.sendMsg fuel s p va = some s') :
    ∃ k', Kernel.sendMsg fuel k p va = some k' ∧ Represents w m₀ dirs s' k' := by
  have ha := live_own hlive hbuf
  have h₁ := h.stampSender hl hi hlive hbuf
  have hi₁ : IpcInv w (k.stampSender p va) := hi.writeOwn hawake hbuf.2 _
  have hpid : (k.stampSender p va).pid p = p := hi₁.pid_eq p hlive
  rw [MessageBytes.sendMsg, h.msgAddr, sendStamped, ← h₁.memory _ ha, h₁.pid, hpid, h₁.isDeadLock hi₁ hlive] at hcall
  obtain ⟨verdict, hdead, hsend⟩ := Option.bind_eq_some_iff.mp hcall
  obtain ⟨k', hk', hrep⟩ := sendChecked hl (h₁.table (Kernel.blind_print verdict.2))
    (hi₁.of_same rfl rfl rfl) ha hsend
  refine ⟨k', ?_, hrep⟩
  simp only [Kernel.sendMsg, hpid, hdead]
  have hpid' : ((k.stampSender p va).print verdict.2).pid p = p := hpid
  rw [hpid'] at hk' ⊢
  exact hk'

/-! ### Receiving -/

theorem stampReceiver (hl : Laid w m₀ dirs) (h : Represents w m₀ dirs s k) (hi : IpcInv w k) (hlive : w.live p)
    (hbuf : w.OwnBuffer k p va) :
    Represents w m₀ dirs (stampReceiver s p (k.msgAddr p va)) (k.stampReceiver p va) := by
  refine h.write hl (live_own hlive hbuf) (fun x hx => writeWord_of_lt (by rw [messageSize] at hx; omega)) ?_
  rw [messageAt_writeReceiver (h.pid_lt hi hlive), h.memory _ (live_own hlive hbuf), h.pid]

theorem interruptSuscribedData (h : Represents w m₀ dirs s k) :
    k.interruptSuscribedData = s.kernel.interruptSuscribedData := by
  rw [h.tables, Kernel.withMemory]

theorem exceptionSuscribedData (h : Represents w m₀ dirs s k) :
    k.exceptionSuscribedData = s.kernel.exceptionSuscribedData := by
  rw [h.tables, Kernel.withMemory]

/-- Bytes outside the message are written by none of the stores to its fields. -/
theorem store_out (hx : x < a ∨ a + messageSize ≤ x) (hn : n + 4 ≤ messageSize) :
    writeWord m (a + n) v x = m x := writeWord_of_lt (by omega)

theorem head_out (hx : x < a ∨ a + messageSize ≤ x) : writeWord m a v x = m x :=
  store_out (n := 0) hx (by decide)

theorem setType_out (hx : x < a ∨ a + messageSize ≤ x) : setType m a v x = m x :=
  store_out hx (by decide)

theorem setReady_out (hx : x < a ∨ a + messageSize ≤ x) : setReady m a x = m x := by
  rw [setReady, Function.update_of_ne (by rw [messageSize] at hx; omega)]

theorem recvInterrupt (hl : Laid w m₀ dirs) (h : Represents w m₀ dirs s k) (ha : w.live (w.owner a)) :
    Represents w m₀ dirs (MessageBytes.recvInterrupt s p a) (k.recvInterrupt p a) := by
  have hlt := Kernel.scan_index_lt k.interruptSuscribedData (show 0 < hwIrqCount by decide)
  have hnotice : messageAt (writeWord (writeWord (setType s.bytes a msgInterrupt) (a + 12)
      (Kernel.scan k.interruptSuscribedData hwIrqCount).1.1) a procInterrupt) a = k.interruptNotice a := by
    rw [messageAt_writeSender (by decide), messageAt_writeMajor (lt_trans hlt (by decide)),
      messageAt_setType (by decide), ← h.memory a ha]
    rfl
  have hwrite := h.write hl ha (fun x hx => by rw [head_out hx, store_out hx (by decide), setType_out hx]) hnotice
  have htable := hwrite.table (Kernel.blind_takeInterrupt p
    (Kernel.scan k.interruptSuscribedData hwIrqCount).1.1 (Kernel.scan k.interruptSuscribedData hwIrqCount).2)
  rw [Kernel.recvInterrupt_eq]
  rw [h.interruptSuscribedData] at htable ⊢
  exact htable

/-- The data of every pending exception is a word. -/
def Words (k : Kernel) : Prop :=
  ∀ i, (k.exceptionSuscribedData i).avail = true → (k.exceptionSuscribedData i).data < 2 ^ 32

theorem recvException (hl : Laid w m₀ dirs) (h : Represents w m₀ dirs s k) (hwords : Words k)
    (ha : w.live (w.owner a)) :
    Represents w m₀ dirs (MessageBytes.recvException s p a) (k.recvException p a) := by
  have hlt := Kernel.scan_index_lt k.exceptionSuscribedData (show 0 < exceptionCount by decide)
  have hdata := Kernel.scan_data_lt hwords exceptionCount
  have hnotice : messageAt (writeWord (writeWord (writeWord (setType s.bytes a msgException) (a + 12)
      (Kernel.scan k.exceptionSuscribedData exceptionCount).1.1) (a + 16)
      (Kernel.scan k.exceptionSuscribedData exceptionCount).1.2) a procInterrupt) a = k.exceptionNotice a := by
    rw [messageAt_writeSender (by decide), messageAt_writeData hdata,
      messageAt_writeMajor (lt_trans hlt (by decide)), messageAt_setType (by decide), ← h.memory a ha]
    rfl
  have hwrite := h.write hl ha (fun x hx => by
    rw [head_out hx, store_out hx (by decide), store_out hx (by decide), setType_out hx]) hnotice
  have htable := hwrite.table (Kernel.blind_takeException p
    (Kernel.scan k.exceptionSuscribedData exceptionCount).1.1 (Kernel.scan k.exceptionSuscribedData exceptionCount).2)
  rw [Kernel.recvException_eq]
  rw [h.exceptionSuscribedData] at htable ⊢
  exact htable

theorem blockReceiver (hl : Laid w m₀ dirs) (h : Represents w m₀ dirs s k)
    (ha : w.live (w.owner (k.msgAddr p va))) (hn : n < 2 ^ 32) :
    Represents w m₀ dirs (MessageBytes.blockReceiver fuel s p va (k.msgAddr p va) n)
      (k.blockReceiver fuel p va n) := by
  have hfilter : messageAt (writeWord (setReady s.bytes (k.msgAddr p va)) (k.msgAddr p va) n) (k.msgAddr p va) =
      { k.memory (k.msgAddr p va) with ready := true, sender := n } := by
    rw [messageAt_writeSender hn, messageAt_setReady, ← h.memory _ ha]
  have hwrite := h.write hl ha (fun x hx => by rw [head_out hx, setReady_out hx]) hfilter
  have hblind := ((Kernel.blind_setPMsg p va).comp (Kernel.blind_block p procStatusRunning procStatusReceving)).comp
    (Kernel.blind_scheduler fuel)
  exact hwrite.table hblind

theorem takeMsg (hl : Laid w m₀ dirs) (h : Represents w m₀ dirs s k) (ha : w.live (w.owner a))
    (hb : w.live (w.owner (k.buf p))) :
    Represents w m₀ dirs (MessageBytes.takeMsg s a p) (k.takeMsg a p) := by
  have hcopy : messageAt (Klib.memcpy s.bytes a (k.buf p) messageSize) a = k.pending p := by
    rw [messageAt_memcpy (hl.below _ hb) (hl.below a ha), ← h.memory _ hb]
    rfl
  have hout : ∀ x, x < a ∨ a + messageSize ≤ x → Klib.memcpy s.bytes a (k.buf p) messageSize x = s.bytes x := by
    intro x hx
    rw [Klib.memcpy_eq_copy (hl.below _ hb) (hl.below a ha), copy_of_notMem hx]
  have hblind := (Kernel.blind_setPMsg p 0).comp (Kernel.blind_wake p procStatusSending)
  rw [MessageBytes.takeMsg, h.buf]
  exact (h.write hl ha hout hcopy).table hblind

/-- The rest of a receive. -/
theorem recvQuened (hl : Laid w m₀ dirs) (h : Represents w m₀ dirs s k) (hi : IpcInv w k)
    (ha : w.live (w.owner (k.msgAddr p va))) (hn : n < 2 ^ 32)
    (hcall : MessageBytes.recvQuened fuel s p va (k.msgAddr p va) n = some s') :
    ∃ k', Kernel.recvQuened fuel k p va n = some k' ∧ Represents w m₀ dirs s' k' := by
  have hsleep : Represents w m₀ dirs (MessageBytes.blockReceiver fuel s p va (k.msgAddr p va) n)
      (k.blockReceiver fuel p va n) := h.blockReceiver hl ha hn
  rw [MessageBytes.recvQuened] at hcall
  rw [Kernel.recvQuened]
  by_cases hint : n = procInterrupt
  · rw [if_pos hint, Option.some.injEq] at hcall
    exact ⟨_, if_pos hint, hcall ▸ hsleep⟩
  rw [if_neg hint] at hcall ⊢
  by_cases hany : n = procAny
  · rw [if_pos hany, ← h.queneHead] at hcall
    rw [if_pos hany]
    cases hhead : k.queneHead p with
    | none =>
      simp only [hhead, Option.some.injEq] at hcall
      exact ⟨_, rfl, hcall ▸ hsleep⟩
    | some q =>
      have hq : k.SendingTo q p := (hi.chain_pop hhead).1
      have hpop := h.table (Kernel.blind_setQueneHead p (k.queneBody q))
      have hbuf : (k.setQueneHead p (k.queneBody q)).buf q = k.buf q :=
        Kernel.fixed_setQueneHead.buf (congrFun (Kernel.setQueneHead_frame _).2.2.2.1 q)
      have htake := hpop.takeMsg hl (p := q) ha (hbuf ▸ live_buf hi (Or.inl hq.1))
      simp only [hhead, Option.some.injEq, ← h.queneBody] at hcall
      exact ⟨_, rfl, hcall ▸ htake⟩
  rw [if_neg hany] at hcall ⊢
  by_cases hparked : k.HasParked p n
  · rw [if_pos ((h.hasParked_iff hi).mpr hparked)] at hcall
    obtain ⟨j, hj, hs'⟩ := Option.map_eq_some_iff.mp hcall
    have hk : Kernel.unlinkSender fuel k p n = some (j.withMemory k.memory k.vir2phy) := by
      rw [h.tables, Kernel.unlinkSender_withMemory, hj]
      rfl
    have hun := (Kernel.unlinkSender_cases hk).1
    have hdir : j.pageDir = s.kernel.pageDir := (Kernel.unlinkSender_cases hj).1.fixed.pageDir
    have hrep : Represents w m₀ dirs { s with kernel := j } (j.withMemory k.memory k.vir2phy) :=
      ⟨rfl, hdir.trans h.sameDirs, h.memory, h.kept, h.walk⟩
    have hbuf : (j.withMemory k.memory k.vir2phy).buf n = k.buf n := hun.fixed.buf (congrFun hun.pMsg n)
    have htake := hrep.takeMsg hl (p := n) ha (hbuf ▸ live_buf hi (Or.inl hparked.2.1))
    rw [if_pos hparked, hk]
    exact ⟨_, rfl, hs' ▸ htake⟩
  · rw [if_neg fun hp => hparked ((h.hasParked_iff hi).mp hp), Option.some.injEq] at hcall
    exact ⟨_, if_neg hparked, hcall ▸ hsleep⟩

/-- **A receive of the bytes is a receive of the cells.** -/
theorem recvMsg (hl : Laid w m₀ dirs) (h : Represents w m₀ dirs s k) (hi : IpcInv w k) (hwords : Words k)
    (hlive : w.live p) (hawake : k.Awake p) (hbuf : w.OwnBuffer k p va) (hn : n < 2 ^ 32)
    (hcall : MessageBytes.recvMsg fuel s p va n = some s') :
    ∃ k', Kernel.recvMsg fuel k p va n = some k' ∧ Represents w m₀ dirs s' k' := by
  have ha := live_own hlive hbuf
  have h₁ := h.stampReceiver hl hi hlive hbuf
  have hi₁ : IpcInv w (k.stampReceiver p va) := hi.writeOwn hawake hbuf.2 _
  have hwords₁ : Words (k.stampReceiver p va) := hwords
  have hkernel : ∀ mask, (MessageBytes.stampReceiver s p (k.msgAddr p va)).kernel.Is p mask ↔
      (k.stampReceiver p va).Is p mask := fun mask => h₁.kernel_is_iff
  rw [MessageBytes.recvMsg, h.msgAddr, recvStamped] at hcall
  simp only [hkernel] at hcall
  simp only [Kernel.recvMsg]
  split at hcall
  · rename_i hzero
    rw [Option.some.injEq] at hcall
    exact ⟨_, if_pos hzero, hcall ▸ h₁⟩
  rename_i hzero
  rw [if_neg hzero]
  split at hcall
  · rename_i hint
    rw [Option.some.injEq] at hcall
    exact ⟨_, if_pos hint, hcall ▸ h₁.recvInterrupt hl ha⟩
  rename_i hint
  rw [if_neg hint]
  split at hcall
  · rename_i hexc
    rw [Option.some.injEq] at hcall
    exact ⟨_, if_pos hexc, hcall ▸ h₁.recvException hl hwords₁ ha⟩
  rename_i hexc
  rw [if_neg hexc]
  exact h₁.recvQuened hl hi₁ ha hn hcall

/-! ### Notifications -/

theorem sendInterruptMsg (hl : Laid w m₀ dirs) (h : Represents w m₀ dirs s k) (hi : IpcInv w k)
    (hn : n < hwIrqCount) :
    Represents w m₀ dirs (MessageBytes.sendInterruptMsg s n p) (k.sendInterruptMsg n p) := by
  rw [MessageBytes.sendInterruptMsg, Kernel.sendInterruptMsg]
  by_cases hwait : k.WaitsForNotice p
  · have hb := live_buf hi (Or.inr hwait.1)
    have hnotice : messageAt (writeWord (setType (writeWord s.bytes (k.buf p) procInterrupt) (k.buf p) msgInterrupt)
        (k.buf p + 12) n) (k.buf p) =
        { k.pending p with sender := procInterrupt, type := msgInterrupt, major := n } := by
      rw [messageAt_writeMajor (lt_trans hn (by decide)), messageAt_setType (by decide),
        messageAt_writeSender (by decide), ← h.memory _ hb]
      rfl
    have hwrite := h.write hl hb (fun x hx => by
      rw [store_out hx (by decide), setType_out hx, head_out hx]) hnotice
    rw [if_pos ((h.waitsForNotice_iff hi).mpr hwait), if_pos hwait, h.buf]
    exact hwrite.table (Kernel.blind_setStatus p fun st => drop st procStatusReceving)
  · rw [if_neg fun hw => hwait ((h.waitsForNotice_iff hi).mp hw), if_neg hwait]
    exact h.table ((Kernel.blind_setStatus p fun st => raise st procStatusGotint).comp
      (Kernel.blind_setInterruptData n { avail := true, data := n }))

theorem sendExceptionMsg (hl : Laid w m₀ dirs) (h : Represents w m₀ dirs s k) (hi : IpcInv w k)
    (hn : n < exceptionCount) (hv : v < 2 ^ 32) :
    Represents w m₀ dirs (MessageBytes.sendExceptionMsg s n v p) (k.sendExceptionMsg n v p) := by
  rw [MessageBytes.sendExceptionMsg, Kernel.sendExceptionMsg]
  by_cases hwait : k.WaitsForNotice p
  · have hb := live_buf hi (Or.inr hwait.1)
    have hnotice : messageAt (writeWord (writeWord (setType (writeWord s.bytes (k.buf p) procInterrupt) (k.buf p)
        msgException) (k.buf p + 12) n) (k.buf p + 16) v) (k.buf p) =
        { k.pending p with
          sender := procInterrupt, type := msgException, major := n, data := { (k.pending p).data with d1 := v } } := by
      rw [messageAt_writeData hv, messageAt_writeMajor (lt_trans hn (by decide)), messageAt_setType (by decide),
        messageAt_writeSender (by decide), ← h.memory _ hb]
      rfl
    have hwrite := h.write hl hb (fun x hx => by
      rw [store_out hx (by decide), store_out hx (by decide), setType_out hx, head_out hx]) hnotice
    rw [if_pos ((h.waitsForNotice_iff hi).mpr hwait), if_pos hwait, h.buf]
    exact hwrite.table (Kernel.blind_setStatus p fun st => drop st procStatusReceving)
  · rw [if_neg fun hw => hwait ((h.waitsForNotice_iff hi).mp hw), if_neg hwait]
    exact h.table ((Kernel.blind_setStatus p fun st => raise st procStatusGotexc).comp
      (Kernel.blind_setExceptionData n { avail := true, data := v }))

end Represents

/-! ### Runs -/

namespace MessageBytes

/-- The entries on the way of a walk are the same if their bytes are. -/
theorem walkByte_congr {dir : PageDir} (h : ∀ x, WalkByte m dir va x → m' x = m x) :
    WalkByte m' dir va x ↔ WalkByte m dir va x := by
  have hpde : readWord m' (dir + 4 * (va / 2 ^ 22 % 2 ^ 10)) = readWord m (dir + 4 * (va / 2 ^ 22 % 2 ^ 10)) := by
    apply readWord_congr
    intro i hi
    exact h _ (Or.inl ⟨Nat.le_add_right _ _, by omega⟩)
  rw [WalkByte, WalkByte, hpde]

/-- A process stores in the buffer at `a` and in bytes of no other buffer; the page tables are out of its
reach. -/
structure Store (w : World) (s : Machine) (a : PAddr) (m : Memory) : Prop where
  buffers : ∀ b : ℕ, w.live (w.owner b) → b ≠ a → ∀ i < messageSize, m (b + i) = s.bytes (b + i)
  tables : ∀ p va x, WalkByte s.bytes (s.kernel.pageDir p) va x → m x = s.bytes x

/-- The steps of `Step`, with bytes. -/
inductive ByteStep (w : World) : Machine → Event → Machine → Prop
  | user {s : Machine} {p : Pid} {a : PAddr} {m : Memory} (hlive : w.live p) (hawake : s.kernel.Awake p)
      (hown : w.owner a = p) (hstore : Store w s a m) :
      ByteStep w s (.user p a (messageAt m a)) { s with bytes := m }
  | send {s s' : Machine} {fuel : ℕ} {p : Pid} {va : VAddr} (hlive : w.live p) (hawake : s.kernel.Awake p)
      (hbuf : w.OwnBuffer s.view p va) (hto : w.live (messageAt s.bytes (s.view.msgAddr p va)).receiver)
      (hcall : sendMsg fuel s p va = some s') : ByteStep w s (.send fuel p va) s'
  | recv {s s' : Machine} {fuel : ℕ} {p : Pid} {va : VAddr} {f : ℕ} (hlive : w.live p)
      (hawake : s.kernel.Awake p) (hbuf : w.OwnBuffer s.view p va) (hfilter : w.ValidFilter f)
      (hcall : recvMsg fuel s p va f = some s') : ByteStep w s (.recv fuel p va f) s'
  | interrupt {s : Machine} {irq : ℕ} {pid : Pid} (hlive : w.live pid) (hirq : irq < hwIrqCount) :
      ByteStep w s (.interrupt irq pid) (sendInterruptMsg s irq pid)
  | exception {s : Machine} {exc data : ℕ} {pid : Pid} (hlive : w.live pid) (hexc : exc < exceptionCount)
      (hdata : data < 2 ^ 32) : ByteStep w s (.exception exc data pid) (sendExceptionMsg s exc data pid)

end MessageBytes

open MessageBytes

theorem World.ValidFilter.lt (h : w.ValidFilter n) : n < 2 ^ 32 := by
  rcases h with rfl | rfl | rfl | hlive
  · decide
  · decide
  · decide
  · exact lt_trans (w.live_lt n hlive) (by decide)

namespace Represents

/-- A store of a process is a store in one cell. -/
theorem store (h : Represents w m₀ dirs s k) (hstore : Store w s a m) :
    Represents w m₀ dirs { s with bytes := m } (k.writeMsg a (messageAt m a)) := by
  refine ⟨?_, h.sameDirs, fun b hb => ?_, fun p va x hx => ?_, h.walk⟩
  · have htables := h.tables
    rw [Kernel.withMemory] at htables ⊢
    rw [Kernel.writeMsg, htables]
  · have hmem : (k.writeMsg a (messageAt m a)).memory = Function.update k.memory a (messageAt m a) := rfl
    rw [hmem]
    by_cases hba : b = a
    · rw [hba, Function.update_self]
    · rw [Function.update_of_ne hba, h.memory b hb]
      exact (messageAt_congr (hstore.buffers b hb hba)).symm
  · rw [← h.kept p va x hx]
    apply hstore.tables p va x
    rw [h.sameDirs]
    exact (walkByte_congr fun y hy => h.kept p va y hy).mpr hx

/-- What is pending stays a word. -/
theorem words_step (hi : IpcInv w k) (hwords : Words k) (hstep : Step w k e k')
    (hdata : ∀ exc data pid, e = .exception exc data pid → data < 2 ^ 32) : Words k' := by
  have hkept : ExceptionsKept k k' → Words k' := by
    intro h i
    rw [h.slots]
    exact hwords i
  cases hi.noticeEffect hstep with
  | quiet _ _ hexc _ => exact hkept hexc
  | takeInterrupt _ _ hexc _ _ => exact hkept hexc
  | wakeInterrupt _ _ hexc _ _ => exact hkept hexc
  | wakeException _ _ hexc _ _ => exact hkept hexc
  | postInterrupt _ _ hexc _ => exact hkept hexc
  | takeException _ _ _ hexc _ _ =>
    intro i havail
    rw [hexc.slots, Function.update_apply] at havail ⊢
    split at havail
    · cases havail
    · rename_i hne
      rw [if_neg hne]
      exact hwords i havail
  | postException _ _ hexc _ =>
    intro i havail
    rw [hexc.slots, Function.update_apply] at havail ⊢
    split
    · exact hdata _ _ _ rfl
    · rename_i hne
      rw [if_neg hne] at havail
      exact hwords i havail

theorem ownBuffer (h : Represents w m₀ dirs s k) (hbuf : w.OwnBuffer s.view p va) : w.OwnBuffer k p va := by
  rw [World.OwnBuffer, h.msgAddr] at hbuf
  exact hbuf

theorem awake (h : Represents w m₀ dirs s k) (hawake : s.kernel.Awake p) : k.Awake p :=
  ⟨fun hs => hawake.1 (h.kernel_is_iff.mpr hs), fun hr => hawake.2 (h.kernel_is_iff.mpr hr)⟩

/-- **Each step of the bytes is a step of the cells.** -/
theorem step (hl : Laid w m₀ dirs) (h : Represents w m₀ dirs s k) (hi : IpcInv w k) (hwords : Words k)
    (hstep : ByteStep w s e t) :
    ∃ k', Step w k e k' ∧ Represents w m₀ dirs t k' ∧ Words k' := by
  have hdata : ∀ exc data pid, e = .exception exc data pid → data < 2 ^ 32 := by
    intro exc data pid he
    cases hstep with
    | exception hlive hexc hdata =>
      injection he with _ hd _
      exact hd ▸ hdata
    | user => cases he
    | send => cases he
    | recv => cases he
    | interrupt => cases he
  suffices hmatch : ∃ k', Step w k e k' ∧ Represents w m₀ dirs t k' by
    obtain ⟨k', hstep', hrep⟩ := hmatch
    exact ⟨k', hstep', hrep, words_step hi hwords hstep' hdata⟩
  cases hstep with
  | user hlive hawake hown hstore => exact ⟨_, .user hlive (h.awake hawake) hown, h.store hstore⟩
  | send hlive hawake hbuf hto hcall =>
    have hown := h.ownBuffer hbuf
    obtain ⟨k', hk', hrep⟩ := h.sendMsg hl hi hlive (h.awake hawake) hown hcall
    rw [h.msgAddr, ← h.memory _ (live_own hlive hown)] at hto
    exact ⟨k', .send hlive (h.awake hawake) hown hto hk', hrep⟩
  | recv hlive hawake hbuf hfilter hcall =>
    have hown := h.ownBuffer hbuf
    obtain ⟨k', hk', hrep⟩ := h.recvMsg hl hi hwords hlive (h.awake hawake) hown hfilter.lt hcall
    exact ⟨k', .recv hlive (h.awake hawake) hown hfilter hk', hrep⟩
  | interrupt hlive hirq => exact ⟨_, .interrupt hlive hirq, h.sendInterruptMsg hl hi hirq⟩
  | exception hlive hexc hlt => exact ⟨_, .exception hlive hexc, h.sendExceptionMsg hl hi hexc hlt⟩

/-- A machine represents its own view. -/
theorem view (s : Machine) : Represents w s.bytes s.kernel.pageDir s s.view where
  tables := by
    rw [Kernel.withMemory, view_memory, view_vir2phy, Machine.view]
  sameDirs := rfl
  memory a _ := by rw [view_memory]
  kept _ _ _ _ := rfl
  walk p va := by rw [view_vir2phy]

end Represents

/-- **Every run of the bytes is a run of the cells** with the same events, and in every state it reaches the
buffers have the bytes of the cells. -/
theorem byteRun_refines (w : World) (s₀ s : Machine) (tr : List (Transition Machine Event))
    (hl : Laid w s₀.bytes s₀.kernel.pageDir) (h₀ : Boot w s₀.view) (hrun : Run (ByteStep w) s₀ tr s) :
    ∃ tr' k, Run (Step w) s₀.view tr' k ∧ tr'.map Transition.label = tr.map Transition.label ∧
      Represents w s₀.bytes s₀.kernel.pageDir s k := by
  have hwords : Represents.Words s₀.view := by
    intro i havail
    rw [h₀.noExcData i] at havail
    cases havail
  obtain ⟨tr', k, hrun', hlabels, hrep, -, -⟩ := hrun.simulated (C := fun _ _ _ => True)
    (R := fun s k => Represents w s₀.bytes s₀.kernel.pageDir s k ∧ IpcInv w k ∧ Represents.Words k)
    ⟨Represents.view s₀, h₀.ipcInv, hwords⟩
    (fun s e t k hR hstep _ => by
      obtain ⟨hrep, hi, hwords⟩ := hR
      obtain ⟨k', hstep', hrep', hwords'⟩ := hrep.step hl hi hwords hstep
      exact ⟨k', hstep', hrep', hi.step hstep', hwords'⟩)
    (fun _ _ => trivial)
  exact ⟨tr', k, hrun', hlabels, hrep⟩

/-- Two live processes with one buffer each. -/
def demoPair : World where
  live p := p = 1 ∨ p = 2
  owner a := if a = 0x3000 then 1 else if a = 0x4000 then 2 else 0
  live_lt p hp := by
    rcases hp with rfl | rfl
    · decide
    · decide

theorem demoPair_buffer (h : demoPair.live (demoPair.owner a)) : a = 0x3000 ∨ a = 0x4000 := by
  by_contra hno
  rw [not_or] at hno
  have howner : demoPair.owner a = 0 := by
    show (if a = 0x3000 then 1 else if a = 0x4000 then 2 else 0) = 0
    rw [if_neg hno.1, if_neg hno.2]
  rw [howner] at h
  rcases h with h | h
  · exact absurd h (by decide)
  · exact absurd h (by decide)

theorem demo_laid : Laid demoPair (demoMachine false).bytes (demoMachine false).kernel.pageDir where
  apart a b ha hb hne := by
    have ha' := demoPair_buffer ha
    have hb' := demoPair_buffer hb
    rw [messageSize]
    omega
  below a ha := by
    have ha' := demoPair_buffer ha
    rw [messageSize]
    omega
  tables x hcell p va hwalk := by
    obtain ⟨a, ha, hle, -⟩ := hcell
    have ha' := demoPair_buffer ha
    have hdir : (demoMachine false).kernel.pageDir p = 0x1000 ∨ (demoMachine false).kernel.pageDir p = 0x2000 := by
      show (if p = 2 then 0x2000 else 0x1000) = 0x1000 ∨ (if p = 2 then 0x2000 else 0x1000) = 0x2000
      split
      · exact Or.inr rfl
      · exact Or.inl rfl
    have hlow := demo_walkByte hdir hwalk
    omega

theorem demo_boot : Boot demoPair (demoMachine false).view := by
  have hstatus : ∀ p mask, ¬ BitFlags.Has procStatusRunning mask → ¬ (demoMachine false).view.Is p mask := by
    intro p mask hnot
    rw [Kernel.Is, Kernel.status, view_procTable]
    exact hnot
  constructor
  case pid_eq => exact fun p _ => by rw [Kernel.pid, view_procTable]; rfl
  case quiet => exact fun p => ⟨hstatus p _ (by decide), hstatus p _ (by decide)⟩
  case queneHead => exact fun p => by rw [Kernel.queneHead, view_procTable]; rfl
  case noInterrupt => exact fun p => hstatus p _ (by decide)
  case noException => exact fun p => hstatus p _ (by decide)
  case noIrqData => exact fun _ => rfl
  case noExcData => exact fun _ => rfl

/-- Process 2 waits for any message. -/
def demoListening : Machine := (recvMsg 1 (demoMachine false) 2 0x4000 procAny).getD (demoMachine false)

/-- The receive of process 2, and then a send of process 1. -/
theorem byteRun_refines_demo : ∃ s tr' k, Run (Step demoPair) (demoMachine false).view tr' k ∧
    tr'.map Transition.label = [.recv 1 2 0x4000 procAny, .send 1 1 0x3000] ∧
      Represents demoPair demoBytes (demoMachine false).kernel.pageDir s k := by
  have hrecv : recvMsg 1 (demoMachine false) 2 0x4000 procAny = some demoListening := by
    have hsome : (recvMsg 1 (demoMachine false) 2 0x4000 procAny).isSome := by decide +kernel
    obtain ⟨s, hs⟩ := Option.isSome_iff_exists.mp hsome
    rw [demoListening, hs, Option.getD_some]
  have hsend : (sendMsg 1 demoListening 1 0x3000).isSome := by decide +kernel
  obtain ⟨s, hs⟩ := Option.isSome_iff_exists.mp hsend
  have hto : (messageAt demoListening.bytes (demoListening.view.msgAddr 1 0x3000)).receiver = 2 := by decide +kernel
  have hstep₁ : ByteStep demoPair (demoMachine false) (.recv 1 2 0x4000 procAny) demoListening :=
    .recv (Or.inr rfl) (by decide +kernel) (by decide +kernel) (Or.inr (Or.inl rfl)) hrecv
  have hstep₂ : ByteStep demoPair demoListening (.send 1 1 0x3000) s :=
    .send (Or.inl rfl) (by decide +kernel) (by decide +kernel) (Or.inr hto) hs
  obtain ⟨tr', k, hrun, hlabels, hrep⟩ := byteRun_refines demoPair (demoMachine false) s _ demo_laid demo_boot
    ((Run.start.extend hstep₁).extend hstep₂)
  exact ⟨s, tr', k, hrun, hlabels, hrep⟩

end OmochaOS
