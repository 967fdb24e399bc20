import OmochaOS.Ipc.ByteSystem

/-!
# Message passing on the bytes of memory

Here a process owns bytes, and may pass any address behind which all 32 bytes of a message are its own.
`__send_msg` and `__recv_msg` translate the first byte and copy 32 bytes of physical memory, so the calls are
right only where the bytes of the buffer follow each other there (`Machine.Plain`).

* `MemStep` — the steps, with bytes that have owners;
* `MemInv` — what holds as long as every call is plain: the invariant of the messages, and a contiguous buffer
  of its own behind each blocked process;
* `MemInv.call` — a plain call, or a notification, is a step of the cells in which just the buffers in use are
  cells.
-/

namespace OmochaOS

open ByteMemory Paging BitFlags TransitionRun MessageBytes Kernel

variable {w w' : World} {k k' : Kernel} {s s' t : Machine} {m m₀ : Memory} {dirs : Pid → PageDir}
  {fuel : ℕ} {p q r : Pid} {va a x f : ℕ} {e : Event} {B : PAddr → Prop}

/-! ### The steps -/

/-- Every byte of the message of `p` at `va` is mapped, and to a byte of `p`. -/
def World.OwnMessage (w : World) (s : Machine) (p : Pid) (va : VAddr) : Prop :=
  ∀ i < messageSize, (Paging.translate (readWord s.bytes) (s.kernel.pageDir p) (va + i)).map w.owner = some p

instance (w : World) (s : Machine) (p : Pid) (va : VAddr) : Decidable (w.OwnMessage s p va) :=
  inferInstanceAs (Decidable (∀ i < messageSize, _))

instance (m : Memory) (dir va : ℕ) : Decidable (Contiguous m dir va) :=
  inferInstanceAs (Decidable (∀ i < messageSize, _))

/-- The steps of the system.  A process stores in its own bytes. -/
inductive MemStep (w : World) : Machine → Event → Machine → Prop
  | user {s : Machine} {p : Pid} {a : PAddr} {m : Memory} (hlive : w.live p) (hawake : s.kernel.Awake p)
      (hstore : ∀ x, w.owner x ≠ p → m x = s.bytes x) :
      MemStep w s (.user p a (messageAt m a)) { s with bytes := m }
  | send {s s' : Machine} {fuel : ℕ} {p : Pid} {va : VAddr} (hlive : w.live p) (hawake : s.kernel.Awake p)
      (hbuf : w.OwnMessage s p va) (hto : w.live (messageAt s.bytes (s.view.msgAddr p va)).receiver)
      (hcall : sendMsg fuel s p va = some s') : MemStep w s (.send fuel p va) s'
  | recv {s s' : Machine} {fuel : ℕ} {p : Pid} {va : VAddr} {f : ℕ} (hlive : w.live p)
      (hawake : s.kernel.Awake p) (hbuf : w.OwnMessage s p va) (hfilter : w.ValidFilter f)
      (hcall : recvMsg fuel s p va f = some s') : MemStep w s (.recv fuel p va f) s'
  | interrupt {s : Machine} {irq : ℕ} {pid : Pid} (hlive : w.live pid) (hirq : irq < hwIrqCount) :
      MemStep w s (.interrupt irq pid) (sendInterruptMsg s irq pid)
  | exception {s : Machine} {exc data : ℕ} {pid : Pid} (hlive : w.live pid) (hexc : exc < exceptionCount)
      (hdata : data < 2 ^ 32) : MemStep w s (.exception exc data pid) (sendExceptionMsg s exc data pid)

/-- Who passes which buffer in an event. -/
def Event.buffer : Event → Option (Pid × VAddr)
  | .send _ p va => some (p, va)
  | .recv _ p va _ => some (p, va)
  | _ => none

/-- The buffer of the call is contiguous in physical memory. -/
def MessageBytes.Machine.Plain (s : Machine) (e : Event) : Prop :=
  ∀ p va, e.buffer = some (p, va) → Contiguous s.bytes (s.kernel.pageDir p) va

/-- The page tables are in no process's memory, and nor is the null pointer. -/
structure Guarded (w : World) (m₀ : Memory) (dirs : Pid → PageDir) : Prop where
  null : ¬ w.live (w.owner 0)
  tables : ∀ p va x, WalkByte m₀ (dirs p) va x → ¬ w.live (w.owner x)

/-- `p` has a message at `va`: contiguous, and its own. -/
structure Buffer (w : World) (m₀ : Memory) (dirs : Pid → PageDir) (p : Pid) (va : VAddr) : Prop where
  contiguous : Contiguous m₀ (dirs p) va
  owned : ∀ i < messageSize, w.owner (vir2phy (readWord m₀) (dirs p) va + i) = p

/-- The page tables are those of `m₀`, the messages are as they should be, and every blocked process waits with
a contiguous buffer of its own. -/
structure MemInv (w : World) (m₀ : Memory) (dirs : Pid → PageDir) (s : Machine) : Prop where
  sameDirs : s.kernel.pageDir = dirs
  kept : ∀ p va x, WalkByte m₀ (dirs p) va x → s.bytes x = m₀ x
  ipc : IpcInv w s.view
  words : Represents.Words s.view
  buffers : ∀ p, s.view.Sending p ∨ s.view.Receving p → Buffer w m₀ dirs p (s.kernel.pMsg p)

/-! ### The same messages -/

/-- `k'` has the tables of `k`, and the messages of the blocked processes. -/
structure Like (k k' : Kernel) : Prop where
  table : k'.procTable = k.procTable
  buf : ∀ q, k.Sending q ∨ k.Receving q → k'.buf q = k.buf q
  pending : ∀ q, k.Sending q ∨ k.Receving q → k'.pending q = k.pending q

namespace Like

theorem is_iff (h : Like k k') {mask : BitVec 32} : k'.Is p mask ↔ k.Is p mask := by
  rw [Kernel.Is, Kernel.Is, Kernel.status, Kernel.status, h.table]

theorem blocked_iff (h : Like k k') : k'.Sending p ∨ k'.Receving p ↔ k.Sending p ∨ k.Receving p :=
  or_congr h.is_iff h.is_iff

theorem pid (h : Like k k') : k'.pid = k.pid := by
  funext q
  rw [Kernel.pid, Kernel.pid, h.table]

theorem queneHead (h : Like k k') : k'.queneHead = k.queneHead := by
  funext q
  rw [Kernel.queneHead, Kernel.queneHead, h.table]

theorem queneBody (h : Like k k') : k'.queneBody = k.queneBody := by
  funext q
  rw [Kernel.queneBody, Kernel.queneBody, h.table]

theorem sendingTo_iff (h : Like k k') : k'.SendingTo p r ↔ k.SendingTo p r :=
  SendingTo_congr h.is_iff fun hs => h.pending p (Or.inl hs)

theorem queneOf (h : Like k k') {l : List Pid} (hl : QueneOf k r l) : QueneOf k' r l where
  chain := by
    rw [h.queneBody, h.queneHead]
    exact hl.chain
  nodup := hl.nodup
  mem_iff s := (hl.mem_iff s).trans h.sendingTo_iff.symm

/-- The invariant of the messages, with the owners of another world for the buffers in use. -/
theorem ipcInv (h : Like k k') (hi : IpcInv w k) (hlive : w'.live = w.live)
    (hown : ∀ q, k.Sending q ∨ k.Receving q → w'.owner (k.buf q) = q) : IpcInv w' k' where
  pid_eq p hp := by
    rw [h.pid]
    exact hi.pid_eq p (hlive ▸ hp)
  notBoth p hp := hi.notBoth p ⟨h.is_iff.mp hp.1, h.is_iff.mp hp.2⟩
  own p hp := by
    have hp' := h.blocked_iff.mp hp
    rw [h.buf p hp']
    exact ⟨(hi.own p hp').1, hown p hp'⟩
  sending p hp := by
    have hp' := h.is_iff.mp hp
    rw [h.pending p (Or.inl hp'), hlive]
    exact hi.sending p hp'
  receving p hp := by
    have hp' := h.is_iff.mp hp
    rw [h.pending p (Or.inr hp'), hlive]
    exact hi.receving p hp'
  quene r := (hi.quene r).imp fun l hl => h.queneOf hl
  rendezvous r p hr hp := by
    have hr' := h.is_iff.mp hr
    rw [h.pending r (Or.inr hr')]
    exact hi.rendezvous r p hr' (h.sendingTo_iff.mp hp)

end Like

/-! ### The buffers in use as cells -/

open Classical in
/-- Only the cells of `B` belong to anybody. -/
noncomputable def World.restrict (w : World) (B : PAddr → Prop) : World :=
  { w with owner := fun a => if B a then w.owner a else procAny }

theorem owner_restrict (h : B a) : (w.restrict B).owner a = w.owner a := if_pos h

theorem mem_of_live_restrict (h : w.live ((w.restrict B).owner a)) : B a := by
  by_contra hno
  have howner : (w.restrict B).owner a = procAny := if_neg hno
  rw [howner] at h
  exact absurd (w.live_lt _ h) (Nat.lt_irrefl _)

/-- The buffers in use at an event: those of the blocked processes and that of the caller. -/
def MessageBytes.Machine.Uses (s : Machine) (e : Event) (p : Pid) (va : VAddr) : Prop :=
  (s.view.Sending p ∨ s.view.Receving p) ∧ va = s.kernel.pMsg p ∨ e.buffer = some (p, va)

/-- The cells of these buffers. -/
def MessageBytes.Machine.Cells (s : Machine) (m₀ : Memory) (dirs : Pid → PageDir) (e : Event) (a : PAddr) : Prop :=
  ∃ p va, s.Uses e p va ∧ a = vir2phy (readWord m₀) (dirs p) va

namespace MemInv

theorem walk (h : MemInv w m₀ dirs s) (p : Pid) (va : VAddr) :
    Paging.translate (readWord s.bytes) (dirs p) va = Paging.translate (readWord m₀) (dirs p) va ∧
      vir2phy (readWord s.bytes) (dirs p) va = vir2phy (readWord m₀) (dirs p) va :=
  walk_congr fun x hx => h.kept p va x hx

theorem msgAddr (h : MemInv w m₀ dirs s) : s.view.msgAddr p va = vir2phy (readWord m₀) (dirs p) va := by
  rw [view_msgAddr, h.sameDirs]
  exact (h.walk p va).2

theorem buf (h : MemInv w m₀ dirs s) : s.view.buf p = vir2phy (readWord m₀) (dirs p) (s.kernel.pMsg p) := by
  rw [Kernel.buf, h.msgAddr, view_pMsg]

theorem contiguous_iff (h : MemInv w m₀ dirs s) :
    Contiguous s.bytes (s.kernel.pageDir p) va ↔ Contiguous m₀ (dirs p) va := by
  rw [h.sameDirs, Contiguous, Contiguous, (h.walk p va).2]
  refine forall₂_congr fun i _ => ?_
  rw [(h.walk p (va + i)).1]

/-- A contiguous message of one's own. -/
theorem buffer (h : MemInv w m₀ dirs s) (hbuf : w.OwnMessage s p va)
    (hcont : Contiguous s.bytes (s.kernel.pageDir p) va) : Buffer w m₀ dirs p va := by
  have hcont' := h.contiguous_iff.mp hcont
  refine ⟨hcont', fun i hi => ?_⟩
  have howner := hbuf i hi
  rw [h.sameDirs, (h.walk p (va + i)).1, hcont' i hi, Option.map_some, Option.some.injEq] at howner
  exact howner

end MemInv

theorem Buffer.owner (h : Buffer w m₀ dirs p va) : w.owner (vir2phy (readWord m₀) (dirs p) va) = p := by
  have hfirst := h.owned 0 (by decide)
  rw [Nat.add_zero] at hfirst
  exact hfirst

/-- A buffer of a live process is an address of its own in the sense of the cells. -/
theorem Buffer.ne_zero (h : Buffer w m₀ dirs p va) (hg : Guarded w m₀ dirs) (hp : w.live p) :
    vir2phy (readWord m₀) (dirs p) va ≠ 0 := by
  intro hzero
  have howner := h.owner
  rw [hzero] at howner
  exact hg.null (howner ▸ hp)

/-- Blocks of different owners are apart. -/
theorem blocks_apart {owner : PAddr → Pid} {y n : ℕ} (hmine : ∀ i < n, owner (x + i) = p)
    (hyours : ∀ i < n, owner (y + i) = q) (hne : p ≠ q) : x + n ≤ y ∨ y + n ≤ x := by
  by_contra hno
  rw [not_or, Nat.not_le, Nat.not_le] at hno
  rcases Nat.le_total x y with hle | hle
  · have h₁ := hmine (y - x) (by omega)
    have h₂ := hyours 0 (by omega)
    rw [Nat.add_sub_cancel' hle] at h₁
    exact hne (h₁.symm.trans h₂)
  · have h₁ := hmine 0 (by omega)
    have h₂ := hyours (x - y) (by omega)
    rw [Nat.add_sub_cancel' hle] at h₂
    exact hne (h₁.symm.trans h₂)

/-- What holds before a plain call or a notification of a live process. -/
structure MemInv.Ready (w : World) (m₀ : Memory) (dirs : Pid → PageDir) (s : Machine) (e : Event) : Prop where
  inv : MemInv w m₀ dirs s
  buffer : ∀ p va, e.buffer = some (p, va) → w.live p ∧ s.view.Awake p ∧ Buffer w m₀ dirs p va

namespace MemInv.Ready

theorem uses (h : Ready w m₀ dirs s e) (hu : s.Uses e p va) : w.live p ∧ Buffer w m₀ dirs p va := by
  rcases hu with ⟨hp, rfl⟩ | hcall
  · refine ⟨?_, h.inv.buffers p hp⟩
    rcases hp with hs | hr
    · exact (h.inv.ipc.sending p hs).1
    · exact (h.inv.ipc.receving p hr).1
  · exact ⟨(h.buffer p va hcall).1, (h.buffer p va hcall).2.2⟩

/-- A process has one buffer in use. -/
theorem uses_unique (h : Ready w m₀ dirs s e) {b : VAddr} (hu : s.Uses e p va) (hu' : s.Uses e p b) : va = b := by
  rcases hu with ⟨hp, rfl⟩ | hcall
  · rcases hu' with ⟨-, rfl⟩ | hcall'
    · rfl
    · exact absurd rfl ((h.buffer p b hcall').2.1.ne hp)
  · rcases hu' with ⟨hp, rfl⟩ | hcall'
    · exact absurd rfl ((h.buffer p va hcall).2.1.ne hp)
    · rw [hcall, Option.some.injEq, Prod.mk.injEq] at hcall'
      exact hcall'.2

theorem owner (h : Ready w m₀ dirs s e) (hu : s.Uses e p va) :
    (w.restrict (s.Cells m₀ dirs e)).owner (vir2phy (readWord m₀) (dirs p) va) = p :=
  (owner_restrict ⟨p, va, hu, rfl⟩).trans (h.uses hu).2.owner

theorem laid (hg : Guarded w m₀ dirs) (h : Ready w m₀ dirs s e) : Laid (w.restrict (s.Cells m₀ dirs e)) m₀ dirs where
  apart a b ha hb hne := by
    obtain ⟨p, va, hu, rfl⟩ := mem_of_live_restrict ha
    obtain ⟨q, vb, hu', rfl⟩ := mem_of_live_restrict hb
    refine blocks_apart (h.uses hu).2.owned (h.uses hu').2.owned fun hpq => hne ?_
    subst hpq
    rw [h.uses_unique hu hu']
  below a ha := by
    obtain ⟨p, va, hu, rfl⟩ := mem_of_live_restrict ha
    exact (h.uses hu).2.contiguous.end_le
  tables x hcell p va hwalk := by
    obtain ⟨a, ha, hle, hlt⟩ := hcell
    obtain ⟨q, vb, hu, rfl⟩ := mem_of_live_restrict ha
    have howned := (h.uses hu).2.owned (x - vir2phy (readWord m₀) (dirs q) vb) (by omega)
    rw [Nat.add_sub_cancel' hle] at howned
    refine hg.tables p va x hwalk ?_
    rw [howned]
    exact (h.uses hu).1

/-- The machine has the bytes of its own view. -/
theorem represents (h : Ready w m₀ dirs s e) : Represents (w.restrict (s.Cells m₀ dirs e)) m₀ dirs s s.view where
  tables := by
    rw [Kernel.withMemory, view_memory, view_vir2phy, Machine.view]
  sameDirs := h.inv.sameDirs
  memory a _ := by rw [view_memory]
  kept := h.inv.kept
  walk p va := by
    rw [view_vir2phy]
    exact (h.inv.walk p va).2

theorem ipcInv (h : Ready w m₀ dirs s e) : IpcInv (w.restrict (s.Cells m₀ dirs e)) s.view := by
  refine Like.ipcInv ⟨rfl, fun _ _ => rfl, fun _ _ => rfl⟩ h.inv.ipc rfl fun q hq => ?_
  rw [h.inv.buf]
  exact h.owner (Or.inl ⟨hq, rfl⟩)

theorem ownBuffer (hg : Guarded w m₀ dirs) (h : Ready w m₀ dirs s e) (hcall : e.buffer = some (p, va)) :
    (w.restrict (s.Cells m₀ dirs e)).OwnBuffer s.view p va := by
  rw [World.OwnBuffer, h.inv.msgAddr]
  obtain ⟨hp, hbuf⟩ := h.uses (Or.inr hcall)
  exact ⟨hbuf.ne_zero hg hp, h.owner (Or.inr hcall)⟩

end MemInv.Ready

/-! ### Where the blocked processes have their messages -/

/-- `q` waits in `k'` where it waited in `k`. -/
def Stays (k k' : Kernel) (q : Pid) : Prop := (k.Sending q ∨ k.Receving q) ∧ k'.pMsg q = k.pMsg q

/-- Stores do not matter. -/
theorem Stays.of_table {k₁ : Kernel} (h : Stays k₁ k' q) (htab : k₁.procTable = k.procTable) : Stays k k' q := by
  obtain ⟨hblocked, hmsg⟩ := h
  have his : ∀ mask, k₁.Is q mask ↔ k.Is q mask := by
    intro mask
    rw [Kernel.Is, Kernel.Is, Kernel.status, Kernel.status, htab]
  refine ⟨hblocked.imp (his _).mp (his _).mp, hmsg.trans ?_⟩
  rw [Kernel.pMsg, Kernel.pMsg, htab]

theorem stays_woken {msg : Message} (h : Kernel.Woken k k' r msg) (hq : k'.Sending q ∨ k'.Receving q) : Stays k k' q :=
  ⟨hq.imp (h.is_other q _ (by decide) (by decide)).mp fun hr => ((h.receving q).mp hr).2, by rw [h.pMsg]⟩

theorem stays_noticed {msg : Message} {bit : BitVec 32} {second : Bool} (h : Kernel.Noticed k k' r a msg bit second)
    (hs : bit &&& procStatusSending = 0) (hr : bit &&& procStatusReceving = 0)
    (hq : k'.Sending q ∨ k'.Receving q) : Stays k k' q :=
  ⟨hq.imp (h.is_other q _ hs).mp (h.is_other q _ hr).mp, by rw [h.pMsg]⟩

theorem stays_setStatus {st : BitVec 32} (hs : Has st procStatusSending ↔ k.Sending p)
    (hr : Has st procStatusReceving ↔ k.Receving p) (htab : k'.procTable = (k.setStatus p st).procTable)
    (hq : k'.Sending q ∨ k'.Receving q) : Stays k k' q := by
  have hst : k'.status = Function.update k.status p st := by
    rw [← status_setStatus]
    exact congrArg (fun t => fun q => (t q).status) htab
  have his : ∀ mask, (Has st mask ↔ k.Is p mask) → (k'.Is q mask ↔ k.Is q mask) := by
    intro mask hm
    rw [Kernel.Is, hst, Function.update_apply]
    split
    · rename_i hqp
      rw [hm, hqp]
    · rfl
  refine ⟨hq.imp (his _ hs).mp (his _ hr).mp, ?_⟩
  rw [Kernel.pMsg, htab]
  exact congrFun (Kernel.setStatus_frame st).2.2.1 q

theorem stays_sendMsg (hcall : Kernel.sendMsg fuel k p va = some k') (hq : k'.Sending q ∨ k'.Receving q) :
    Stays k k' q ∨ (p, va) = (q, k'.pMsg q) := by
  obtain ⟨names, -, hcases⟩ := sendMsg_cases hcall
  have htab : ((k.stampSender p va).print names).procTable = k.procTable := rfl
  generalize (k.stampSender p va).print names = k₁ at hcases htab
  rcases hcases with ⟨-, rfl⟩ | ⟨-, hquened⟩
  · have hstays : Stays k₁ _ q := stays_woken woken_deliver hq
    exact Or.inl (hstays.of_table htab)
  · have hqu := quened_queneSender hquened
    by_cases hqp : q = p
    · right
      rw [hqp, hqu.pMsg, Function.update_self]
    · left
      have hstays : Stays k₁ k' q :=
        ⟨hq.imp (fun hs => ((hqu.sending q).mp hs).resolve_left hqp) (hqu.is_other q _ (by decide)).mp, by
          rw [hqu.pMsg, Function.update_of_ne hqp]⟩
      exact hstays.of_table htab

/-- The message of a blocked sender is taken, and the sender wakes. -/
theorem IpcInv.stays_taken {k₁ k₂ : Kernel} (hi : IpcInv w k) (hu : Unlinked k k₁) (ht : Taken k₁ k₂ a p)
    (hs : k.Sending p) (hq : k₂.Sending q ∨ k₂.Receving q) : Stays k k₂ q := by
  have hrecv : k₂.Receving q → k.Receving q := fun h =>
    (is_congr hu.status).mp ((ht.is_other q _ (by decide) (by decide)).mp h)
  have hqp : q ≠ p := by
    rintro rfl
    rcases hq with hq | hq
    · exact ((ht.sending q).mp hq).1 rfl
    · exact hi.notBoth q ⟨hs, hrecv hq⟩
  refine ⟨hq.imp (fun h => (is_congr hu.status).mp ((ht.sending q).mp h).2) hrecv, ?_⟩
  rw [ht.pMsg, Function.update_of_ne hqp, hu.pMsg]

theorem IpcInv.stays_recvQuened (hi : IpcInv w k)
    (hcall : Kernel.recvQuened fuel k p va f = some k') (hq : k'.Sending q ∨ k'.Receving q) :
    Stays k k' q ∨ (p, va) = (q, k'.pMsg q) := by
  rcases recvQuened_cases hcall with ⟨rfl, -⟩ | ⟨-, s, hhead, rfl⟩ | ⟨-, -, hparked, k₁, hk₁, rfl⟩
  · have ha : Asleep k (Kernel.blockReceiver fuel k p va f) p va f := asleep_blockReceiver
    by_cases hqp : q = p
    · right
      rw [hqp, ha.pMsg, Function.update_self]
    · left
      refine ⟨hq.imp (ha.is_other q _ (by decide) (by decide)).mp
        fun hr => ((ha.receving q).mp hr).resolve_left hqp, ?_⟩
      rw [ha.pMsg, Function.update_of_ne hqp]
  · exact Or.inl (hi.stays_taken unlinked_setQueneHead taken_takeMsg (hi.chain_pop hhead).1.1 hq)
  · exact Or.inl (hi.stays_taken (unlinkSender_cases hk₁).1 taken_takeMsg hparked.2.1 hq)

theorem IpcInv.stays_recvMsg (hi : IpcInv w k) (hawake : k.Awake p) (hbuf : w.OwnBuffer k p va)
    (hcall : Kernel.recvMsg fuel k p va f = some k') (hq : k'.Sending q ∨ k'.Receving q) :
    Stays k k' q ∨ (p, va) = (q, k'.pMsg q) := by
  have hi₁ : IpcInv w (k.stampReceiver p va) := hi.writeOwn hawake hbuf.2 _
  have htab : (k.stampReceiver p va).procTable = k.procTable := rfl
  have hcases := recvMsg_cases hcall
  generalize k.stampReceiver p va = k₁ at hcases hi₁ htab
  rcases hcases with ⟨-, rfl⟩ | ⟨-, -, -, rfl⟩ | ⟨-, -, -, -, rfl⟩ | ⟨-, -, -, hquened⟩
  · have hstays : Stays k' k' q := ⟨hq, rfl⟩
    exact Or.inl (hstays.of_table htab)
  · have hstays : Stays k₁ _ q := stays_noticed noticed_recvInterrupt (by decide) (by decide) hq
    exact Or.inl (hstays.of_table htab)
  · have hstays : Stays k₁ _ q := stays_noticed noticed_recvException (by decide) (by decide) hq
    exact Or.inl (hstays.of_table htab)
  · exact (hi₁.stays_recvQuened hquened hq).imp (fun h => h.of_table htab) id

/-- A notification wakes a process or sets one bit. -/
theorem stays_notified {msg : Message} {st : BitVec 32} {d : Kernel → Kernel} [Decidable (k.WaitsForNotice p)]
    (hs : Has st procStatusSending ↔ k.Sending p) (hr : Has st procStatusReceving ↔ k.Receving p)
    (hd : ∀ k, (d k).procTable = k.procTable)
    (hk : k' = if k.WaitsForNotice p then k.wakeWith p msg else d (k.setStatus p st))
    (hq : k'.Sending q ∨ k'.Receving q) : Stays k k' q := by
  subst hk
  split at hq
  · rename_i hwait
    rw [if_pos hwait]
    exact stays_woken woken_wakeWith hq
  · rename_i hwait
    rw [if_neg hwait]
    exact stays_setStatus hs hr (hd _) hq

/-- **Who is blocked after a step** was blocked before it, with its message at the same address, or blocks in this
step where its call says. -/
theorem IpcInv.stays (hi : IpcInv w k) (hstep : Step w k e k') (hq : k'.Sending q ∨ k'.Receving q) :
    Stays k k' q ∨ e.buffer = some (q, k'.pMsg q) := by
  cases hstep with
  | user hlive hawake hown => exact Or.inl ⟨hq, rfl⟩
  | send hlive hawake hbuf hto hcall => exact (stays_sendMsg hcall hq).imp id (congrArg some)
  | recv hlive hawake hbuf hfilter hcall =>
    exact (hi.stays_recvMsg hawake hbuf hcall hq).imp id (congrArg some)
  | interrupt hlive hirq =>
    exact Or.inl (stays_notified (d := fun k => k.setInterruptData _ _) (has_raise_of_disjoint (by decide))
      (has_raise_of_disjoint (by decide)) (fun _ => rfl) rfl hq)
  | exception hlive hexc =>
    exact Or.inl (stays_notified (d := fun k => k.setExceptionData _ _) (has_raise_of_disjoint (by decide))
      (has_raise_of_disjoint (by decide)) (fun _ => rfl) rfl hq)

/-! ### One step -/

/-- The step is one of the cells, but for a store. -/
structure Matched (w : World) (m₀ : Memory) (dirs : Pid → PageDir) (s : Machine) (e : Event) (t : Machine)
    (k : Kernel) : Prop where
  step : Step (w.restrict (s.Cells m₀ dirs e)) s.view e k
  represents : Represents (w.restrict (s.Cells m₀ dirs e)) m₀ dirs t k
  words : Represents.Words k

theorem view_awake (h : s.kernel.Awake p) : s.view.Awake p := by
  rw [Kernel.Awake, Kernel.Sending, Kernel.Receving, Kernel.Is, Kernel.Is, Kernel.status, view_procTable]
  exact h

theorem view_is_iff {mask : BitVec 32} : s.view.Is p mask ↔ s.kernel.Is p mask := by
  rw [Kernel.Is, Kernel.Is, Kernel.status, Kernel.status, view_procTable]

namespace MemInv

/-- **A plain call or a notification** is a step of the cells in use. -/
theorem call (hg : Guarded w m₀ dirs) (h : MemInv w m₀ dirs s) (hstep : MemStep w s e t) (hplain : s.Plain e)
    (hcall : ∀ p a m, e ≠ .user p a m) : Ready w m₀ dirs s e ∧ ∃ k, Matched w m₀ dirs s e t k := by
  have hready : Ready w m₀ dirs s e := by
    refine ⟨h, fun q vb he => ?_⟩
    have hcont := hplain q vb he
    cases hstep with
    | user => cases he
    | send hlive hawake hbuf hto =>
      obtain ⟨rfl, rfl⟩ := Prod.mk.inj (Option.some.inj he)
      exact ⟨hlive, view_awake hawake, h.buffer hbuf hcont⟩
    | recv hlive hawake hbuf hfilter =>
      obtain ⟨rfl, rfl⟩ := Prod.mk.inj (Option.some.inj he)
      exact ⟨hlive, view_awake hawake, h.buffer hbuf hcont⟩
    | interrupt => cases he
    | exception => cases he
  have hbyte : ByteStep (w.restrict (s.Cells m₀ dirs e)) s e t := by
    cases hstep with
    | @user p a m hlive hawake hstore => exact absurd rfl (hcall p a _)
    | send hlive hawake hbuf hto hrun => exact .send hlive hawake (hready.ownBuffer hg rfl) hto hrun
    | recv hlive hawake hbuf hfilter hrun => exact .recv hlive hawake (hready.ownBuffer hg rfl) hfilter hrun
    | interrupt hlive hirq => exact .interrupt hlive hirq
    | exception hlive hexc hdata => exact .exception hlive hexc hdata
  obtain ⟨k, hk, hrep, hwords⟩ := hready.represents.step (hready.laid hg) hready.ipcInv h.words hbyte
  exact ⟨hready, k, hk, hrep, hwords⟩

end MemInv

namespace Matched

theorem ipcInv (h : Matched w m₀ dirs s e t k) (hready : MemInv.Ready w m₀ dirs s e) :
    IpcInv (w.restrict (s.Cells m₀ dirs e)) k :=
  hready.ipcInv.step h.step

/-- The bytes have what the cells have. -/
theorem like (h : Matched w m₀ dirs s e t k) (hready : MemInv.Ready w m₀ dirs s e) : Like k t.view where
  table := by rw [view_procTable, h.represents.procTable]
  buf q _ := h.represents.buf
  pending q hq := h.represents.pending (Represents.live_buf (h.ipcInv hready) hq)

theorem exceptions (h : Matched w m₀ dirs s e t k) : Represents.Words t.view := by
  have hdata : t.view.exceptionSuscribedData = k.exceptionSuscribedData := by
    rw [h.represents.exceptionSuscribedData, Machine.view]
  rw [Represents.Words, hdata]
  exact h.words

/-- Whoever is blocked then uses a buffer that was in use. -/
theorem uses (h : Matched w m₀ dirs s e t k) (hready : MemInv.Ready w m₀ dirs s e)
    (hq : k.Sending q ∨ k.Receving q) : s.Uses e q (t.kernel.pMsg q) := by
  have hmsg : t.kernel.pMsg q = k.pMsg q := by
    rw [← view_pMsg, h.represents.pMsg]
  rw [hmsg]
  rcases hready.ipcInv.stays h.step hq with ⟨hblocked, hsame⟩ | hcall
  · exact Or.inl ⟨hblocked, by rw [hsame, view_pMsg]⟩
  · exact Or.inr hcall

/-- **A matched step keeps the invariant.** -/
theorem memInv (h : Matched w m₀ dirs s e t k) (hready : MemInv.Ready w m₀ dirs s e) : MemInv w m₀ dirs t where
  sameDirs := h.represents.sameDirs
  kept := h.represents.kept
  ipc := by
    refine (h.like hready).ipcInv (h.ipcInv hready) rfl fun q hq => ?_
    have hu := h.uses hready hq
    have hbuf : k.buf q = vir2phy (readWord m₀) (dirs q) (t.kernel.pMsg q) := by
      rw [Kernel.buf, Kernel.msgAddr, h.represents.pageDir, h.represents.walk, ← view_pMsg, h.represents.pMsg]
    rw [hbuf]
    exact (hready.uses hu).2.owner
  words := h.exceptions
  buffers q hq := (hready.uses (h.uses hready ((h.like hready).blocked_iff.mp hq))).2

end Matched

namespace MemInv

/-- A store of an awake process in its own bytes. -/
theorem like_store (h : MemInv w m₀ dirs s) (hawake : s.kernel.Awake p) (hstore : ∀ x, w.owner x ≠ p → m x = s.bytes x)
    (hkept : ∀ q va x, WalkByte m₀ (dirs q) va x → m x = m₀ x) :
    Like s.view (Machine.view { s with bytes := m }) where
  table := rfl
  buf q _ := by
    rw [view_buf, view_buf, h.sameDirs]
    exact (walk_congr fun x hx => hkept q _ x hx).2.trans (h.walk q _).2.symm
  pending q hq := by
    have hne : q ≠ p := (view_awake hawake).ne hq
    have hbuf : (Machine.view { s with bytes := m }).buf q = s.view.buf q := by
      rw [view_buf, view_buf, h.sameDirs]
      exact (walk_congr fun x hx => hkept q _ x hx).2.trans (h.walk q _).2.symm
    rw [Kernel.pending, Kernel.pending, hbuf, view_memory, view_memory]
    refine messageAt_congr fun i hi => hstore _ ?_
    rw [h.buf, (h.buffers q hq).owned i hi]
    exact hne

/-- The page tables are out of reach. -/
theorem kept_store (hg : Guarded w m₀ dirs) (h : MemInv w m₀ dirs s) (hlive : w.live p)
    (hstore : ∀ x, w.owner x ≠ p → m x = s.bytes x) (q : Pid) (va x : ℕ) (hx : WalkByte m₀ (dirs q) va x) :
    m x = m₀ x := by
  rw [← h.kept q va x hx]
  refine hstore x fun howner => hg.tables q va x hx ?_
  rw [howner]
  exact hlive

theorem store (hg : Guarded w m₀ dirs) (h : MemInv w m₀ dirs s) (hlive : w.live p) (hawake : s.kernel.Awake p)
    (hstore : ∀ x, w.owner x ≠ p → m x = s.bytes x) : MemInv w m₀ dirs { s with bytes := m } := by
  have hkept := h.kept_store hg hlive hstore
  have hlike := h.like_store hawake hstore hkept
  constructor
  case sameDirs => exact h.sameDirs
  case kept => exact hkept
  case ipc => exact hlike.ipcInv h.ipc rfl fun q hq => (h.ipc.own q hq).2
  case words =>
    have hdata : (Machine.view { s with bytes := m }).exceptionSuscribedData = s.view.exceptionSuscribedData := by
      rw [Machine.view, Machine.view]
    rw [Represents.Words, hdata]
    exact h.words
  case buffers =>
    intro q hq
    exact h.buffers q (hlike.blocked_iff.mp hq)

/-- **Every step with a plain buffer keeps the invariant.** -/
theorem step (hg : Guarded w m₀ dirs) (h : MemInv w m₀ dirs s) (hstep : MemStep w s e t) (hplain : s.Plain e) :
    MemInv w m₀ dirs t := by
  by_cases hcall : ∀ p a msg, e ≠ .user p a msg
  · obtain ⟨hready, k, hmatch⟩ := h.call hg hstep hplain hcall
    exact hmatch.memInv hready
  · cases hstep with
    | user hlive hawake hstore => exact h.store hg hlive hawake hstore
    | send => exact absurd (fun _ _ _ he => by cases he) hcall
    | recv => exact absurd (fun _ _ _ he => by cases he) hcall
    | interrupt => exact absurd (fun _ _ _ he => by cases he) hcall
    | exception => exact absurd (fun _ _ _ he => by cases he) hcall

/-- A booted machine. -/
theorem of_boot (h₀ : Boot w s.view) : MemInv w s.bytes s.kernel.pageDir s where
  sameDirs := rfl
  kept _ _ _ _ := rfl
  ipc := h₀.ipcInv
  words i havail := by
    rw [h₀.noExcData i] at havail
    cases havail
  buffers p hp := by
    rcases hp with hs | hr
    · exact absurd hs (h₀.quiet p).1
    · exact absurd hr (h₀.quiet p).2

/-- **A run of plain calls** keeps the invariant. -/
theorem of_run {s₀ : Machine} {tr : List (Transition Machine Event)} (hg : Guarded w s₀.bytes s₀.kernel.pageDir)
    (h₀ : Boot w s₀.view) (hrun : Run (MemStep w) s₀ tr s) (hplain : ∀ x ∈ tr, x.source.Plain x.label) :
    MemInv w s₀.bytes s₀.kernel.pageDir s :=
  hrun.invariant_of_forall (P := fun s e _ => s.Plain e) (of_boot h₀)
    (fun _ _ _ h hstep hok => h.step hg hstep hok) hplain

end MemInv

end OmochaOS
