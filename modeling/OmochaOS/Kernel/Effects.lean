import OmochaOS.Kernel.Interrupt

/-!
# What each branch of a system call changes

One specification for each branch of `__send_msg`, `__recv_msg`, `send_interrupt_msg` and
`send_exception_msg`: the memory cell written, the `p_msg` and queue links written, and which status
tests change.  Later proofs cite these and never look inside a branch again.
-/

namespace OmochaOS

open IntrusiveList BitFlags

namespace Kernel

variable {k k' : Kernel} {fuel : ℕ} {p q r s : Pid} {va : VAddr} {f : ℕ} {msg : PAddr}
  {mask : BitVec 32}

/-! ### Buffers -/

theorem buf_congr (hmap : k'.vir2phy = k.vir2phy) (hdir : k'.pageDir = k.pageDir)
    (hmsg : k'.pMsg q = k.pMsg q) : k'.buf q = k.buf q := by
  unfold buf msgAddr
  rw [hmap, hdir, hmsg]

theorem msgAddr_congr (hmap : k'.vir2phy = k.vir2phy) (hdir : k'.pageDir = k.pageDir) :
    k'.msgAddr q va = k.msgAddr q va := by
  unfold msgAddr
  rw [hmap, hdir]

/-- A buffer is read as before when neither its address nor its cell was written. -/
theorem pending_congr (hbuf : k'.buf q = k.buf q)
    (hmem : k'.memory (k.buf q) = k.memory (k.buf q)) : k'.pending q = k.pending q := by
  unfold pending
  rw [hbuf, hmem]

/-! ### The parts every branch leaves alone -/

/-- The fields no system call writes. -/
structure Fixed (k k' : Kernel) : Prop where
  pid : k'.pid = k.pid
  pageDir : k'.pageDir = k.pageDir
  next : k'.next = k.next
  vir2phy : k'.vir2phy = k.vir2phy
  suscribed : k'.interruptSuscribed = k.interruptSuscribed

theorem Fixed.refl : Fixed k k := ⟨rfl, rfl, rfl, rfl, rfl⟩

theorem Fixed.trans {k₁ k₂ k₃ : Kernel} (h : Fixed k₁ k₂) (h' : Fixed k₂ k₃) : Fixed k₁ k₃ :=
  ⟨h'.pid.trans h.pid, h'.pageDir.trans h.pageDir, h'.next.trans h.next,
    h'.vir2phy.trans h.vir2phy, h'.suscribed.trans h.suscribed⟩

theorem Fixed.buf (h : Fixed k k') (hmsg : k'.pMsg q = k.pMsg q) : k'.buf q = k.buf q :=
  buf_congr h.vir2phy h.pageDir hmsg

theorem Fixed.msgAddr (h : Fixed k k') : k'.msgAddr q va = k.msgAddr q va :=
  msgAddr_congr h.vir2phy h.pageDir

theorem fixed_modProc {g : Process → Process} (hpid : (g (k.procTable p)).pid = k.pid p)
    (hdir : (g (k.procTable p)).pageDir = k.pageDir p)
    (hnext : (g (k.procTable p)).next = k.next p) : Fixed k (k.modProc p g) :=
  ⟨procTable_modProc_of_eq _ hpid, procTable_modProc_of_eq _ hdir,
    procTable_modProc_of_eq _ hnext, rfl, rfl⟩

theorem fixed_setStatus {st : BitVec 32} : Fixed k (k.setStatus p st) := fixed_modProc rfl rfl rfl

theorem fixed_setPMsg : Fixed k (k.setPMsg p va) := fixed_modProc rfl rfl rfl

theorem fixed_setQueneHead {h : Option Pid} : Fixed k (k.setQueneHead p h) :=
  fixed_modProc rfl rfl rfl

theorem fixed_setQueneBody {b : Option Pid} : Fixed k (k.setQueneBody p b) :=
  fixed_modProc rfl rfl rfl

theorem fixed_writeMsg {m : Message} : Fixed k (k.writeMsg msg m) := ⟨rfl, rfl, rfl, rfl, rfl⟩

theorem fixed_scheduler : Fixed k (k.scheduler fuel) := by
  obtain ⟨r, hr⟩ := scheduler_eq (k := k) fuel
  rw [hr]
  exact ⟨rfl, rfl, rfl, rfl, rfl⟩

/-- The scheduler leaves every reader of the table as it was. -/
theorem scheduler_readers (fuel : ℕ) :
    (k.scheduler fuel).status = k.status ∧ (k.scheduler fuel).pMsg = k.pMsg ∧
    (k.scheduler fuel).queneHead = k.queneHead ∧ (k.scheduler fuel).queneBody = k.queneBody ∧
    (k.scheduler fuel).memory = k.memory := by
  obtain ⟨r, hr⟩ := scheduler_eq (k := k) fuel
  rw [hr]
  exact ⟨rfl, rfl, rfl, rfl, rfl⟩

/-- The two tables of pending slots are the same. -/
def SameSlots (k k' : Kernel) : Prop :=
  k'.interruptSuscribedData = k.interruptSuscribedData ∧
    k'.exceptionSuscribedData = k.exceptionSuscribedData

theorem SameSlots.trans {k₁ k₂ k₃ : Kernel} (h : SameSlots k₁ k₂) (h' : SameSlots k₂ k₃) :
    SameSlots k₁ k₃ := ⟨h'.1.trans h.1, h'.2.trans h.2⟩

theorem sameSlots_scheduler : SameSlots k (k.scheduler fuel) := by
  obtain ⟨r, hr⟩ := scheduler_eq (k := k) fuel
  rw [hr]
  exact ⟨rfl, rfl⟩

/-! ### Delivery into a waiting buffer -/

/-- The effect of waking a blocked receiver with a message in its buffer. -/
structure Woken (k k' : Kernel) (r : Pid) (m : Message) : Prop where
  fixed : Fixed k k'
  memory : k'.memory = Function.update k.memory (k.buf r) m
  pMsg : k'.pMsg = k.pMsg
  queneHead : k'.queneHead = k.queneHead
  queneBody : k'.queneBody = k.queneBody
  receving : ∀ q, k'.Is q procStatusReceving ↔ q ≠ r ∧ k.Is q procStatusReceving
  is_other : ∀ q mask, procStatusReceving &&& mask = 0 → procStatusRunning &&& mask = 0 →
    (k'.Is q mask ↔ k.Is q mask)
  slots : SameSlots k k'

theorem woken_deliver :
    Woken k (k.deliver r msg) r { k.memory msg with ready := false } := by
  have hbuf : (k.writeMsg (k.buf r) (k.memory msg)).memory (k.buf r) = k.memory msg := by simp
  have hmem : ((k.writeMsg (k.buf r) (k.memory msg)).wake r procStatusReceving).memory (k.buf r)
      = k.memory msg := hbuf
  constructor
  case fixed =>
    exact (fixed_writeMsg.trans fixed_setStatus).trans fixed_writeMsg
  case memory =>
    unfold deliver
    simp only [writeMsg_frame, hmem]
    show Function.update (Function.update k.memory (k.buf r) (k.memory msg)) (k.buf r) _ = _
    rw [Function.update_idem]
  case pMsg => simp [deliver, wake]
  case queneHead => simp [deliver, wake]
  case queneBody => simp [deliver, wake]
  case receving =>
    intro q
    unfold deliver
    rw [is_writeMsg, is_wake_self (by decide), is_writeMsg]
  case is_other =>
    intro q mask hb hr
    unfold deliver
    rw [is_writeMsg, is_wake_of_disjoint hb hr, is_writeMsg]
  case slots => exact ⟨rfl, rfl⟩

theorem woken_wakeWith {m : Message} : Woken k (k.wakeWith r m) r m := by
  constructor
  case fixed => exact fixed_writeMsg.trans fixed_setStatus
  case memory => simp [wakeWith]
  case pMsg => simp [wakeWith]
  case queneHead => simp [wakeWith]
  case queneBody => simp [wakeWith]
  case receving =>
    intro q
    unfold wakeWith
    rw [is_setStatus]
    by_cases hq : q = r
    · simp [hq, not_has_drop_self]
    · simp [hq]
  case is_other =>
    intro q mask hb _
    unfold wakeWith
    rw [is_setStatus]
    by_cases hq : q = r
    · rw [if_pos hq, has_drop_of_disjoint hb, hq]
      rfl
    · rw [if_neg hq, is_writeMsg]
  case slots => exact ⟨rfl, rfl⟩

/-! ### Blocking in a send -/

/-- What the append writes in the queue links: the head of an empty queue, or the link of the last
element; the link of the new element is cleared. -/
inductive Appended (fuel : ℕ) (k k' : Kernel) (r s : Pid) : Prop
  | empty (hhead : k.queneHead r = none)
      (hhead' : k'.queneHead = Function.update k.queneHead r (some s))
      (hbody' : k'.queneBody = Function.update k.queneBody s none)
  | tail (h t : Pid) (hhead : k.queneHead r = some h)
      (hwalk : walkToLast k.queneBody fuel h = some t) (hhead' : k'.queneHead = k.queneHead)
      (hbody' : k'.queneBody =
        Function.update (Function.update k.queneBody t (some s)) s none)

/-- The effect of blocking `s` in a send to `r` with its message at `va`. -/
structure Quened (fuel : ℕ) (k k' : Kernel) (s : Pid) (va : VAddr) (r : Pid) : Prop where
  fixed : Fixed k k'
  memory : k'.memory = k.memory
  pMsg : k'.pMsg = Function.update k.pMsg s va
  links : Appended fuel k k' r s
  sending : ∀ q, k'.Is q procStatusSending ↔ q = s ∨ k.Is q procStatusSending
  is_other : ∀ q mask, procStatusSending &&& mask = 0 → (k'.Is q mask ↔ k.Is q mask)
  slots : SameSlots k k'

theorem quened_queneSender (h : queneSender fuel k s va r = some k') :
    Quened fuel k k' s va r := by
  unfold queneSender at h
  obtain ⟨k₂, hk₂, rfl⟩ := Option.map_eq_some_iff.mp h
  obtain ⟨hst, hpm, hhd, hbd, hmm⟩ :=
    scheduler_readers (k := k₂.setQueneBody s none) fuel
  set k₁ := (k.setPMsg s va).block s procStatusNormal procStatusSending with hk₁
  have hfix₁ : Fixed k k₁ := fixed_setPMsg.trans fixed_setStatus
  have hhd₁ : k₁.queneHead = k.queneHead := by simp [hk₁, block]
  have hbd₁ : k₁.queneBody = k.queneBody := by simp [hk₁, block]
  have hpm₁ : k₁.pMsg = Function.update k.pMsg s va := by simp [hk₁, block]
  have hmm₁ : k₁.memory = k.memory := by simp [hk₁, block]
  -- the append writes one head or one link and nothing else
  have happ : Fixed k₁ k₂ ∧ SameSlots k₁ k₂ ∧ k₂.memory = k₁.memory ∧ k₂.pMsg = k₁.pMsg ∧
      k₂.status = k₁.status ∧
      ((k₁.queneHead r = none ∧ k₂.queneHead = Function.update k₁.queneHead r (some s) ∧
          k₂.queneBody = k₁.queneBody) ∨
        ∃ h t, k₁.queneHead r = some h ∧ walkToLast k₁.queneBody fuel h = some t ∧
          k₂.queneHead = k₁.queneHead ∧
          k₂.queneBody = Function.update k₁.queneBody t (some s)) := by
    unfold appendQuene at hk₂
    split at hk₂
    · rename_i p hh
      obtain ⟨t, ht, rfl⟩ := Option.map_eq_some_iff.mp hk₂
      refine ⟨fixed_setQueneBody, ⟨rfl, rfl⟩, by simp, by simp, by simp,
        Or.inr ⟨p, t, hh, ht, ?_, ?_⟩⟩ <;> simp
    · rename_i hh
      obtain rfl := Option.some.inj hk₂
      refine ⟨fixed_setQueneHead, ⟨rfl, rfl⟩, by simp, by simp, by simp,
        Or.inl ⟨hh, ?_, ?_⟩⟩ <;> simp
  obtain ⟨hfix₂, hslots₂, hmm₂, hpm₂, hst₂, hlinks⟩ := happ
  have hstat : ((k₂.setQueneBody s none).scheduler fuel).status = k₁.status := by
    rw [hst]
    simp [hst₂]
  constructor
  case fixed => exact ((hfix₁.trans hfix₂).trans fixed_setQueneBody).trans fixed_scheduler
  case memory =>
    rw [hmm]
    simp [hmm₂, hmm₁]
  case pMsg =>
    rw [hpm]
    simp [hpm₂, hpm₁]
  case links =>
    rw [hhd₁, hbd₁] at hlinks
    rcases hlinks with ⟨hh, hh', hb'⟩ | ⟨h, t, hh, ht, hh', hb'⟩
    · refine Appended.empty hh ?_ ?_
      · rw [hhd]
        simp [hh']
      · rw [hbd]
        simp [hb']
    · refine Appended.tail h t hh ht ?_ ?_
      · rw [hhd]
        simp [hh']
      · rw [hbd]
        simp [hb']
  case sending =>
    intro q
    rw [is_congr hstat, hk₁, is_block_self (by decide), is_setPMsg]
  case is_other =>
    intro q mask hm
    have hn : procStatusNormal &&& mask = 0 := by simp [procStatusNormal]
    rw [is_congr hstat, hk₁, is_block_of_disjoint hn hm, is_setPMsg]
  case slots =>
    have hslots₁ : SameSlots k k₁ := ⟨rfl, rfl⟩
    have hslots₃ : SameSlots k₂ (k₂.setQueneBody s none) := ⟨rfl, rfl⟩
    exact ((hslots₁.trans hslots₂).trans hslots₃).trans sameSlots_scheduler

/-! ### Blocking in a receive -/

/-- The effect of blocking `r` in a receive with filter `f` and buffer `va`. -/
structure Asleep (k k' : Kernel) (r : Pid) (va : VAddr) (f : ℕ) : Prop where
  fixed : Fixed k k'
  memory : k'.memory = Function.update k.memory (k.msgAddr r va)
    { k.memory (k.msgAddr r va) with ready := true, sender := f }
  pMsg : k'.pMsg = Function.update k.pMsg r va
  queneHead : k'.queneHead = k.queneHead
  queneBody : k'.queneBody = k.queneBody
  receving : ∀ q, k'.Is q procStatusReceving ↔ q = r ∨ k.Is q procStatusReceving
  is_other : ∀ q mask, procStatusRunning &&& mask = 0 → procStatusReceving &&& mask = 0 →
    (k'.Is q mask ↔ k.Is q mask)
  slots : SameSlots k k'

theorem asleep_blockReceiver : Asleep k (blockReceiver fuel k r va f) r va f := by
  unfold blockReceiver
  set k₁ := ((k.writeMsg (k.msgAddr r va)
    { k.memory (k.msgAddr r va) with ready := true, sender := f }).setPMsg r va) with hk₁
  obtain ⟨hst, hpm, hhd, hbd, hmm⟩ :=
    scheduler_readers (k := k₁.block r procStatusRunning procStatusReceving) fuel
  constructor
  case fixed =>
    exact ((fixed_writeMsg.trans fixed_setPMsg).trans fixed_setStatus).trans fixed_scheduler
  case memory =>
    rw [hmm]
    simp [hk₁, block]
  case pMsg =>
    rw [hpm]
    simp [hk₁, block]
  case queneHead =>
    rw [hhd]
    simp [hk₁, block]
  case queneBody =>
    rw [hbd]
    simp [hk₁, block]
  case receving =>
    intro q
    rw [is_congr hst, is_block_self (by decide), hk₁, is_setPMsg, is_writeMsg]
  case is_other =>
    intro q mask hoff hon
    rw [is_congr hst, is_block_of_disjoint hoff hon, hk₁, is_setPMsg, is_writeMsg]
  case slots =>
    have hslots : SameSlots k (k₁.block r procStatusRunning procStatusReceving) := ⟨rfl, rfl⟩
    exact hslots.trans sameSlots_scheduler

/-! ### Taking a parked message -/

/-- The effect of copying the parked message of `s` to `msg` and waking `s`. -/
structure Taken (k k' : Kernel) (msg : PAddr) (s : Pid) : Prop where
  fixed : Fixed k k'
  memory : k'.memory = Function.update k.memory msg (k.pending s)
  pMsg : k'.pMsg = Function.update k.pMsg s 0
  queneHead : k'.queneHead = k.queneHead
  queneBody : k'.queneBody = k.queneBody
  sending : ∀ q, k'.Is q procStatusSending ↔ q ≠ s ∧ k.Is q procStatusSending
  is_other : ∀ q mask, procStatusSending &&& mask = 0 → procStatusRunning &&& mask = 0 →
    (k'.Is q mask ↔ k.Is q mask)
  slots : SameSlots k k'

theorem taken_takeMsg : Taken k (k.takeMsg msg s) msg s := by
  unfold takeMsg
  constructor
  case fixed => exact (fixed_writeMsg.trans fixed_setPMsg).trans fixed_setStatus
  case memory => simp [wake]
  case pMsg => simp [wake]
  case queneHead => simp [wake]
  case queneBody => simp [wake]
  case sending =>
    intro q
    rw [is_wake_self (by decide), is_setPMsg, is_writeMsg]
  case is_other =>
    intro q mask hb hr
    rw [is_wake_of_disjoint hb hr, is_setPMsg, is_writeMsg]
  case slots => exact ⟨rfl, rfl⟩

/-! ### Taking a pending notification -/

/-- The effect of storing the notification `m` at `msg` for `r`, whose bit `bit` is dropped unless a
second notification was met. -/
structure Noticed (k k' : Kernel) (r : Pid) (msg : PAddr) (m : Message) (bit : BitVec 32)
    (second : Bool) : Prop where
  fixed : Fixed k k'
  memory : k'.memory = Function.update k.memory msg m
  pMsg : k'.pMsg = k.pMsg
  queneHead : k'.queneHead = k.queneHead
  queneBody : k'.queneBody = k.queneBody
  is_bit : ∀ q, k'.Is q bit ↔ k.Is q bit ∧ (q = r → second = true)
  is_other : ∀ q mask, bit &&& mask = 0 → (k'.Is q mask ↔ k.Is q mask)

/-- Storing a notification and then maybe dropping a bit. -/
theorem noticed_of_parts {m : Message} {bit : BitVec 32} {second : Bool} {k₂ : Kernel}
    (h₂ : k₂ = if second then k.writeMsg msg m
      else (k.writeMsg msg m).setStatus r (drop ((k.writeMsg msg m).status r) bit)) :
    Noticed k k₂ r msg m bit second := by
  cases second with
  | true =>
    obtain rfl : k₂ = k.writeMsg msg m := h₂
    exact ⟨fixed_writeMsg, rfl, rfl, rfl, rfl, fun q => by simp, fun q mask _ => Iff.rfl⟩
  | false =>
    obtain rfl : k₂ = (k.writeMsg msg m).setStatus r (drop ((k.writeMsg msg m).status r) bit) := h₂
    refine ⟨fixed_writeMsg.trans fixed_setStatus, by simp, by simp, by simp, by simp, ?_, ?_⟩
    · intro q
      rw [is_setStatus]
      by_cases hq : q = r
      · simp [hq, not_has_drop_self]
      · simp [hq]
    · intro q mask hb
      rw [is_setStatus]
      by_cases hq : q = r
      · rw [if_pos hq, has_drop_of_disjoint hb, hq]
        rfl
      · rw [if_neg hq, is_writeMsg]

/-- The slots are no part of what `Noticed` speaks of. -/
theorem Noticed.of_slots {k₂ : Kernel} {m : Message} {bit : BitVec 32} {second : Bool}
    (h : Noticed k k₂ r msg m bit second) (htab : k'.procTable = k₂.procTable)
    (hmem : k'.memory = k₂.memory) (hmap : k'.vir2phy = k₂.vir2phy)
    (hsus : k'.interruptSuscribed = k₂.interruptSuscribed) :
    Noticed k k' r msg m bit second := by
  cases k₂
  cases k'
  simp only at htab hmem hmap hsus
  subst htab
  subst hmem
  subst hmap
  subst hsus
  exact ⟨⟨h.fixed.pid, h.fixed.pageDir, h.fixed.next, h.fixed.vir2phy, h.fixed.suscribed⟩,
    h.memory, h.pMsg, h.queneHead, h.queneBody, h.is_bit, h.is_other⟩

/-- The message the interrupt branch of a receive stores. -/
def interruptNotice (k : Kernel) (msg : PAddr) : Message :=
  { k.memory msg with
    type := msgInterrupt, major := (scan k.interruptSuscribedData hwIrqCount).1.1,
    sender := procInterrupt }

/-- The message the exception branch of a receive stores. -/
def exceptionNotice (k : Kernel) (msg : PAddr) : Message :=
  { k.memory msg with
    type := msgException, major := (scan k.exceptionSuscribedData exceptionCount).1.1,
    data := { (k.memory msg).data with d1 := (scan k.exceptionSuscribedData exceptionCount).1.2 },
    sender := procInterrupt }

theorem noticed_recvInterrupt :
    Noticed k (k.recvInterrupt r msg) r msg (k.interruptNotice msg) procStatusGotint
      (scan k.interruptSuscribedData hwIrqCount).2 :=
  (noticed_of_parts rfl).of_slots rfl rfl rfl rfl

theorem noticed_recvException :
    Noticed k (k.recvException r msg) r msg (k.exceptionNotice msg) procStatusGotexc
      (scan k.exceptionSuscribedData exceptionCount).2 :=
  (noticed_of_parts rfl).of_slots rfl rfl rfl rfl

/-! ### Removal from a queue -/

/-- What the removal of a sender from a queue leaves alone. -/
structure Unlinked (k k' : Kernel) : Prop where
  fixed : Fixed k k'
  memory : k'.memory = k.memory
  pMsg : k'.pMsg = k.pMsg
  status : k'.status = k.status
  slots : SameSlots k k'

theorem unlinked_setQueneHead {h : Option Pid} : Unlinked k (k.setQueneHead p h) :=
  ⟨fixed_setQueneHead, by simp, by simp, by simp, rfl, rfl⟩

theorem unlinked_setQueneBody {b : Option Pid} : Unlinked k (k.setQueneBody p b) :=
  ⟨fixed_setQueneBody, by simp, by simp, by simp, rfl, rfl⟩

theorem Unlinked.trans {k₁ k₂ k₃ : Kernel} (h : Unlinked k₁ k₂) (h' : Unlinked k₂ k₃) :
    Unlinked k₁ k₃ :=
  ⟨h.fixed.trans h'.fixed, h'.memory.trans h.memory, h'.pMsg.trans h.pMsg,
    h'.status.trans h.status, h.slots.trans h'.slots⟩

/-- **Inversion of the removal.**  It writes links only, and which ones depends on where the search
found the sender. -/
theorem unlinkSender_cases (h : unlinkSender fuel k r s = some k') :
    Unlinked k k' ∧
    ((queneSearch fuel k r s = .head ∧
        k'.queneHead = Function.update k.queneHead r (k.queneBody s) ∧
        k'.queneBody = Function.update k.queneBody s none) ∨
      (∃ prev, queneSearch fuel k r s = .middle prev ∧ k'.queneHead = k.queneHead ∧
        k'.queneBody =
          Function.update (Function.update k.queneBody prev (k.queneBody s)) s none) ∨
      (queneSearch fuel k r s = .missing ∧ k'.queneHead = k.queneHead ∧
        k'.queneBody = Function.update k.queneBody s none)) := by
  unfold unlinkSender at h
  split at h
  · rename_i hq
    obtain rfl := Option.some.inj h
    refine ⟨unlinked_setQueneHead.trans unlinked_setQueneBody, Or.inl ⟨hq, ?_, ?_⟩⟩ <;> simp
  · rename_i prev hq
    obtain rfl := Option.some.inj h
    refine ⟨unlinked_setQueneBody.trans unlinked_setQueneBody,
      Or.inr (Or.inl ⟨prev, hq, ?_, ?_⟩)⟩ <;> simp
  · rename_i hq
    obtain rfl := Option.some.inj h
    refine ⟨unlinked_setQueneBody, Or.inr (Or.inr ⟨hq, ?_, ?_⟩)⟩ <;> simp
  · simp at h
  · simp at h

end Kernel

end OmochaOS
