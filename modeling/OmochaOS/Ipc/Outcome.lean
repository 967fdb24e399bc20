import OmochaOS.Ipc.Preservation

/-!
# What one step does to the messages in flight

Every step of the system has one of five effects on the blocked processes and their messages:
nothing, a message handed to a waiting receiver, a message parked with its blocked sender, a receiver
that goes to sleep, or a parked message fetched.  `IpcInv.outcome` says which steps have which effect.
Everything said here is about what is observable — status bits, buffers, queue order — so the later
proofs about message delivery need not look at the system calls again.
-/

namespace OmochaOS

open IntrusiveList TransitionRun BitFlags Kernel

variable {w : World} {k k' : Kernel} {p q r s : Pid} {va : VAddr} {f fuel : ℕ} {m : Message}

/-! ### What a step can be seen to do -/

/-- The message a sender hands over: its own, with the kernel's stamp on the sender field. -/
def Kernel.stamped (k : Kernel) (p : Pid) (va : VAddr) : Message :=
  { k.memory (k.msgAddr p va) with sender := p }

/-- The receive of `r` that returns in the step to `k'`, if `r` was asleep and is not any more. -/
def Kernel.wokenWith (k k' : Kernel) (r : Pid) : List (Pid × Message) :=
  if k.Receving r ∧ ¬ k'.Receving r then [(r, k'.memory (k.buf r))] else []

/-- The receives that return in a step, each with the message then in its buffer.  Filter 0 only
reflects and hands over nothing. -/
def Kernel.returns (k : Kernel) (e : Event) (k' : Kernel) : List (Pid × Message) :=
  match e with
  | .user _ _ _ => []
  | .send _ p va => k.wokenWith k' (k.stamped p va).receiver
  | .recv _ p va f => if f ≠ 0 ∧ ¬ k'.Receving p then [(p, k'.memory (k.msgAddr p va))] else []
  | .interrupt _ pid => k.wokenWith k' pid
  | .exception _ _ pid => k.wokenWith k' pid

/-! ### The five effects -/

/-- Nobody blocks or wakes and no message in flight changes. -/
structure Undisturbed (k k' : Kernel) : Prop where
  sending : ∀ q, k'.Sending q ↔ k.Sending q
  receving : ∀ q, k'.Receving q ↔ k.Receving q
  pending : ∀ q, k.Sending q ∨ k.Receving q → k'.pending q = k.pending q
  quene : ∀ q l, QueneOf k q l → QueneOf k' q l

/-- `r` was waiting and wakes with `m` in its buffer. -/
structure Handed (k k' : Kernel) (r : Pid) (m : Message) : Prop where
  waited : k.Receving r
  memory : k'.memory (k.buf r) = m
  sending : ∀ q, k'.Sending q ↔ k.Sending q
  receving : ∀ q, k'.Receving q ↔ q ≠ r ∧ k.Receving q
  pending : ∀ q, k.Sending q ∨ k.Receving q → q ≠ r → k'.pending q = k.pending q
  quene : ∀ q l, QueneOf k q l → QueneOf k' q l

/-- `s` blocks with `m` for `r` at the tail of its queue. -/
structure Parked (k k' : Kernel) (s r : Pid) (m : Message) : Prop where
  parked : k'.pending s = m
  sending : ∀ q, k'.Sending q ↔ q = s ∨ k.Sending q
  receving : ∀ q, k'.Receving q ↔ k.Receving q
  pending : ∀ q, k.Sending q ∨ k.Receving q → k'.pending q = k.pending q
  quene : ∀ q l, QueneOf k q l → QueneOf k' q (if q = r then l ++ [s] else l)

/-- `r` goes to sleep with filter `f`. -/
structure Rested (k k' : Kernel) (r : Pid) (f : ℕ) : Prop where
  filter : (k'.pending r).sender = f
  addressed : (k'.pending r).receiver = r
  sending : ∀ q, k'.Sending q ↔ k.Sending q
  receving : ∀ q, k'.Receving q ↔ q = r ∨ k.Receving q
  pending : ∀ q, k.Sending q ∨ k.Receving q → k'.pending q = k.pending q
  quene : ∀ q l, QueneOf k q l → QueneOf k' q l

/-- `r` takes the message of `s` into `msg`, and `s` wakes. -/
structure Fetched (k k' : Kernel) (r s : Pid) (msg : PAddr) : Prop where
  parked : k.SendingTo s r
  memory : k'.memory msg = k.pending s
  sending : ∀ q, k'.Sending q ↔ q ≠ s ∧ k.Sending q
  receving : ∀ q, k'.Receving q ↔ k.Receving q
  pending : ∀ q, k.Sending q ∨ k.Receving q → q ≠ s → k'.pending q = k.pending q
  quene : ∀ q l, QueneOf k q l → QueneOf k' q (if q = r then l.erase s else l)

/-- The chain of a queue is its list of blocked senders. -/
theorem IpcInv.queneOf_of_chain (hi : IpcInv w k) {l : List Pid}
    (hc : Chain k.queneBody (k.queneHead r) l) : QueneOf k r l := by
  obtain ⟨l', hl'⟩ := hi.quene r
  obtain rfl := hc.unique hl'.chain
  exact hl'

/-- Queues whose links are untouched are the same queues. -/
theorem IpcInv.quene_of_links (hi : IpcInv w k') (hhead : k'.queneHead = k.queneHead)
    (hbody : k'.queneBody = k.queneBody) (q : Pid) (l : List Pid) (hl : QueneOf k q l) :
    QueneOf k' q l := by
  apply hi.queneOf_of_chain
  rw [hhead, hbody]
  exact hl.chain

/-- The receive of a process handed `m` returns with `m`. -/
theorem Handed.wokenWith (h : Handed k k' r m) : k.wokenWith k' r = [(r, m)] := by
  have hr : k.Receving r ∧ ¬ k'.Receving r :=
    ⟨h.waited, fun hr' => ((h.receving r).mp hr').1 rfl⟩
  rw [Kernel.wokenWith, if_pos hr, h.memory]

/-- Nothing returns to a process whose status is unchanged. -/
theorem wokenWith_of_kept (hr : k'.Receving r ↔ k.Receving r) : k.wokenWith k' r = [] :=
  if_neg fun hc => hc.2 (hr.mpr hc.1)

/-! ### The effect of each branch -/

theorem IpcInv.undisturbed_writeOwn (hi : IpcInv w k) (hp : k.Awake p) {a : PAddr}
    (ha : w.owner a = p) : Undisturbed k (k.writeMsg a m) where
  sending _ := Iff.rfl
  receving _ := Iff.rfl
  pending _ hq := hi.pending_writeMsg ha hq (hp.ne hq)
  quene q l hl := (hi.writeOwn hp ha m).quene_of_links (k := k) rfl rfl q l hl

theorem Undisturbed.trans {k₁ k₂ k₃ : Kernel} (h : Undisturbed k₁ k₂) (h' : Undisturbed k₂ k₃) :
    Undisturbed k₁ k₃ where
  sending q := (h'.sending q).trans (h.sending q)
  receving q := (h'.receving q).trans (h.receving q)
  pending q hq := by
    have hq₂ : k₂.Sending q ∨ k₂.Receving q := hq.imp (h.sending q).mpr (h.receving q).mpr
    rw [h'.pending q hq₂, h.pending q hq]
  quene q l hl := h'.quene q l (h.quene q l hl)

theorem undisturbed_print {names : List (List UInt8)} : Undisturbed k (k.print names) where
  sending _ := Iff.rfl
  receving _ := Iff.rfl
  pending _ _ := rfl
  quene _ _ hl := ⟨hl.chain, hl.nodup, hl.mem_iff⟩

theorem IpcInv.handed_woken (hi : IpcInv w k) (hw : Woken k k' r m) (hr : k.Receving r) :
    Handed k k' r m where
  waited := hr
  memory := by rw [hw.memory, Function.update_self]
  sending q := hw.is_other q _ (by decide) (by decide)
  receving := hw.receving
  pending q hq hne := hi.pending_woken hw hr hq hne
  quene q l hl := (hi.wake hw hr).quene_of_links hw.queneHead hw.queneBody q l hl

theorem IpcInv.undisturbed_noticed (hi : IpcInv w k) {msg : PAddr} {bit : BitVec 32}
    {second : Bool} (hn : Noticed k k' r msg m bit second) (hawake : k.Awake r)
    (hmsg : w.owner msg = r) (hs : bit &&& procStatusSending = 0)
    (hr : bit &&& procStatusReceving = 0) : Undisturbed k k' where
  sending q := hn.is_other q _ hs
  receving q := hn.is_other q _ hr
  pending _ hq := hi.pending_noticed hn hmsg hq (hawake.ne hq)
  quene q l hl :=
    (hi.noticed hn hawake hmsg hs hr).quene_of_links hn.queneHead hn.queneBody q l hl

/-- Setting status bits other than the two blocking ones disturbs nothing. -/
theorem IpcInv.undisturbed_setStatus (hi : IpcInv w k) {st : BitVec 32}
    (hs : Has st procStatusSending ↔ k.Sending p)
    (hr : Has st procStatusReceving ↔ k.Receving p)
    (htab : k'.procTable = (k.setStatus p st).procTable)
    (hmem : k'.memory = (k.setStatus p st).memory)
    (hmap : k'.vir2phy = (k.setStatus p st).vir2phy) : Undisturbed k k' := by
  have hi' : IpcInv w k' := (hi.setStatus st hs hr).of_same htab hmem hmap
  have hst : k'.status = Function.update k.status p st := by
    rw [← status_setStatus]
    exact congrArg (fun t => fun q => (t q).status) htab
  have hbuf : ∀ q, k'.buf q = k.buf q := by
    intro q
    show k'.vir2phy (k'.procTable q).pageDir (k'.procTable q).pMsg = k.buf q
    rw [htab, hmap]
    show (k.setStatus p st).buf q = k.buf q
    exact buf_congr (by simp) (by simp) (by simp)
  have his : ∀ mask, (Has st mask ↔ k.Is p mask) → ∀ q, k'.Is q mask ↔ k.Is q mask := by
    intro mask hm q
    rw [Is, hst, Function.update_apply]
    split
    · rename_i hq
      rw [hm, hq]
    · rfl
  constructor
  case sending => exact his _ hs
  case receving => exact his _ hr
  case pending =>
    intro q _
    apply pending_congr (hbuf q)
    rw [hmem]
    simp
  case quene =>
    intro q l hl
    refine hi'.quene_of_links ?_ ?_ q l hl
    · rw [show k'.queneHead = (k.setStatus p st).queneHead from
        congrArg (fun t => fun q => (t q).queneHeadSendingToThisProcess) htab]
      simp
    · rw [show k'.queneBody = (k.setStatus p st).queneBody from
        congrArg (fun t => fun q => (t q).queneBody) htab]
      simp

/-- What a notification does: it wakes a waiting subscriber, or disturbs nothing. -/
theorem IpcInv.outcome_interrupt (hi : IpcInv w k) (irq : ℕ) (pid : Pid) :
    Undisturbed k (k.sendInterruptMsg irq pid) ∨
    ∃ m, Handed k (k.sendInterruptMsg irq pid) pid m ∧ m.sender = procInterrupt ∧
      m.receiver = (k.pending pid).receiver ∧ ((k.pending pid).sender = procAny ∨
        (k.pending pid).sender = procInterrupt) := by
  unfold Kernel.sendInterruptMsg
  split
  · rename_i hw
    exact Or.inr ⟨_, hi.handed_woken woken_wakeWith hw.1, rfl, rfl, hw.2⟩
  · exact Or.inl (hi.undisturbed_setStatus (has_raise_of_disjoint (by decide))
      (has_raise_of_disjoint (by decide)) rfl rfl rfl)

theorem IpcInv.outcome_exception (hi : IpcInv w k) (exc data : ℕ) (pid : Pid) :
    Undisturbed k (k.sendExceptionMsg exc data pid) ∨
    ∃ m, Handed k (k.sendExceptionMsg exc data pid) pid m ∧ m.sender = procInterrupt ∧
      m.receiver = (k.pending pid).receiver ∧ ((k.pending pid).sender = procAny ∨
        (k.pending pid).sender = procInterrupt) := by
  unfold Kernel.sendExceptionMsg
  split
  · rename_i hw
    exact Or.inr ⟨_, hi.handed_woken woken_wakeWith hw.1, rfl, rfl, hw.2⟩
  · exact Or.inl (hi.undisturbed_setStatus (has_raise_of_disjoint (by decide))
      (has_raise_of_disjoint (by decide)) rfl rfl rfl)

/-- **What a send does**: the message reaches a receiver that waits for it, or is parked. -/
theorem IpcInv.outcome_send (hi : IpcInv w k) (hlive : w.live p) (hawake : k.Awake p)
    (hbuf : w.OwnBuffer k p va) (hto : w.live (k.stamped p va).receiver)
    (hcall : Kernel.sendMsg fuel k p va = some k') :
    (Handed k k' (k.stamped p va).receiver { k.stamped p va with ready := false } ∧
      Admits (k.pending (k.stamped p va).receiver).sender p) ∨
    Parked k k' p (k.stamped p va).receiver (k.stamped p va) := by
  have hi' := hi.sendMsg hlive hawake hbuf hto hcall
  obtain ⟨names, -, hcases⟩ := sendMsg_cases hcall
  have hpid := hi.pid_eq p hlive
  have hmsg : (k.stampSender p va).memory (k.msgAddr p va) = k.stamped p va := by
    show Function.update k.memory (k.msgAddr p va) _ (k.msgAddr p va) = _
    rw [Function.update_self, hpid]
    rfl
  have hund : Undisturbed k ((k.stampSender p va).print names) :=
    (hi.undisturbed_writeOwn hawake hbuf.2).trans undisturbed_print
  set k₁ := (k.stampSender p va).print names with hk₁
  have hi₁ : IpcInv w k₁ := (hi.writeOwn hawake hbuf.2 _).of_same rfl rfl rfl
  rw [hpid] at hcases
  set r := (k.stamped p va).receiver with hr
  have hr' : (k.memory (k.msgAddr p va)).receiver = r := rfl
  rw [hr'] at hcases
  rcases hcases with ⟨hready, rfl⟩ | ⟨hready, hquened⟩
  · left
    have hwait : k.Receving r := (hund.receving r).mp hready.1
    have hpend : k₁.pending r = k.pending r := hund.pending r (Or.inr hwait)
    have hw : Woken k₁ (k₁.deliver r (k.msgAddr p va)) r
        { k₁.memory (k.msgAddr p va) with ready := false } := woken_deliver
    have hh := hi₁.handed_woken hw hready.1
    refine ⟨⟨hwait, ?_, ?_, ?_, ?_, ?_⟩, ?_⟩
    · rw [show k.buf r = k₁.buf r from rfl, hh.memory]
      show { (k.stampSender p va).memory (k.msgAddr p va) with ready := false } = _
      rw [hmsg]
    · exact fun q => (hh.sending q).trans (hund.sending q)
    · exact fun q => (hh.receving q).trans (and_congr_right fun _ => hund.receving q)
    · intro q hq hne
      have hq₁ := hq.imp (hund.sending q).mpr (hund.receving q).mpr
      rw [hh.pending q hq₁ hne, hund.pending q hq]
    · exact fun q l hl => hh.quene q l (hund.quene q l hl)
    · rw [← hpend]
      exact hready.2.2
  · right
    have hq := quened_queneSender hquened
    have hbufs : k'.buf p = k.msgAddr p va := by
      unfold buf
      rw [hq.pMsg, Function.update_self, hq.fixed.msgAddr]
      rfl
    refine ⟨?_, ?_, ?_, ?_, ?_⟩
    · unfold Kernel.pending
      rw [hbufs, hq.memory]
      exact hmsg
    · exact fun q => (hq.sending q).trans (or_congr_right (hund.sending q))
    · exact fun q => (hq.is_other q _ (by decide)).trans (hund.receving q)
    · intro q hqb
      rw [pending_quened hq (hawake.ne hqb), hund.pending q hqb]
    · intro q l hl
      apply hi'.queneOf_of_chain
      exact hi₁.chain_appended hq.links hawake (hund.quene q l hl)

/-- **What a receive does**: it reflects, takes a notification, goes to sleep, or fetches the message
of the sender it asked for or of the head of its queue. -/
theorem IpcInv.outcome_recv (hi : IpcInv w k) (hlive : w.live p) (hawake : k.Awake p)
    (hbuf : w.OwnBuffer k p va) (hcall : Kernel.recvMsg fuel k p va f = some k') :
    (Undisturbed k k' ∧ (f = 0 ∨ (AcceptsNotice f ∧
      (k.Is p procStatusGotint ∨ k.Is p procStatusGotexc) ∧
      (k'.memory (k.msgAddr p va)).sender = procInterrupt ∧
      (k'.memory (k.msgAddr p va)).receiver = p))) ∨
    Rested k k' p f ∨
    (f ≠ 0 ∧ ∃ s, Fetched k k' p s (k.msgAddr p va) ∧
      ((f = procAny ∧ k.queneHead p = some s) ∨ f = s)) := by
  have hi' := hi.recvMsg hlive hawake hbuf hcall
  have hund : Undisturbed k (k.stampReceiver p va) := hi.undisturbed_writeOwn hawake hbuf.2
  have hi₁ : IpcInv w (k.stampReceiver p va) := hi.writeOwn hawake hbuf.2 _
  have hpid := hi₁.pid_eq p hlive
  have hstamp : ((k.stampReceiver p va).memory (k.msgAddr p va)).receiver = p := by
    show (Function.update k.memory (k.msgAddr p va) _ (k.msgAddr p va)).receiver = p
    rw [Function.update_self]
    exact hpid
  -- the two notification branches differ in the bit and the message only
  have hnotice : ∀ {m : Message} {bit : BitVec 32} {second : Bool},
      Noticed (k.stampReceiver p va) k' p (k.msgAddr p va) m bit second →
      bit &&& procStatusSending = 0 → bit &&& procStatusReceving = 0 →
      m.sender = procInterrupt → m.receiver = p →
      Undisturbed k k' ∧ (k'.memory (k.msgAddr p va)).sender = procInterrupt ∧
        (k'.memory (k.msgAddr p va)).receiver = p := by
    intro m bit second hn hs hr hms hmr
    refine ⟨hund.trans (hi₁.undisturbed_noticed hn hawake hbuf.2 hs hr), ?_, ?_⟩ <;>
      rw [hn.memory, Function.update_self]
    · exact hms
    · exact hmr
  rcases recvMsg_cases hcall with
    ⟨h0, rfl⟩ | ⟨-, hgot, hf, rfl⟩ | ⟨-, -, hgot, hf, rfl⟩ | ⟨hf0, -, -, hq⟩
  · exact Or.inl ⟨hund, Or.inl h0⟩
  · obtain ⟨hu, hmem⟩ := hnotice noticed_recvInterrupt (by decide) (by decide) rfl hstamp
    exact Or.inl ⟨hu, Or.inr ⟨hf, Or.inl hgot, hmem⟩⟩
  · obtain ⟨hu, hmem⟩ := hnotice noticed_recvException (by decide) (by decide) rfl hstamp
    exact Or.inl ⟨hu, Or.inr ⟨hf, Or.inr hgot, hmem⟩⟩
  right
  -- fetching, once the links are known to lose the sender
  have hfetch : ∀ {k₁ : Kernel} {s : Pid}, (k.stampReceiver p va).SendingTo s p →
      Unlinked (k.stampReceiver p va) k₁ → k' = k₁.takeMsg (k.msgAddr p va) s →
      (∀ q l, QueneOf (k.stampReceiver p va) q l →
        Chain k₁.queneBody (k₁.queneHead q) (if q = p then l.erase s else l)) →
      Fetched k k' p s (k.msgAddr p va) := by
    intro k₁ s hsr hunl he hquene
    subst he
    have ht : Taken k₁ (k₁.takeMsg (k.msgAddr p va) s) (k.msgAddr p va) s := taken_takeMsg
    have hs : k.Sending s := (hund.sending s).mp hsr.1
    have hpend : k₁.pending s = k.pending s := by
      rw [pending_congr (hunl.fixed.buf (by rw [hunl.pMsg])) (by rw [hunl.memory]),
        hund.pending s (Or.inl hs)]
    refine ⟨⟨hs, ?_⟩, ?_, ?_, ?_, ?_, ?_⟩
    · rw [← hund.pending s (Or.inl hs)]
      exact hsr.2
    · rw [ht.memory, Function.update_self, hpend]
    · intro q
      exact (ht.sending q).trans
        (and_congr_right fun _ => (is_congr hunl.status).trans (hund.sending q))
    · intro q
      exact (ht.is_other q _ (by decide) (by decide)).trans
        ((is_congr hunl.status).trans (hund.receving q))
    · intro q hqb hne
      have hqb₁ := hqb.imp (hund.sending q).mpr (hund.receving q).mpr
      rw [hi₁.pending_taken hunl ht hbuf.2 hqb₁ (hawake.ne hqb) hne, hund.pending q hqb]
    · intro q l hl
      apply hi'.queneOf_of_chain
      rw [ht.queneBody, ht.queneHead]
      exact hquene q l (hund.quene q l hl)
  rcases recvQuened_cases hq with ⟨rfl, -⟩ | ⟨hany, s, hhead, he⟩ | ⟨-, -, hparked, k₁, hk₁, he⟩
  · left
    have ha : Asleep (k.stampReceiver p va) (blockReceiver fuel (k.stampReceiver p va) p va f)
        p va f := asleep_blockReceiver
    have hbufp : (blockReceiver fuel (k.stampReceiver p va) p va f).buf p = k.msgAddr p va := by
      unfold buf
      rw [ha.pMsg, Function.update_self, ha.fixed.msgAddr]
      rfl
    have hpendp : (blockReceiver fuel (k.stampReceiver p va) p va f).pending p =
        { (k.stampReceiver p va).memory (k.msgAddr p va) with ready := true, sender := f } := by
      unfold Kernel.pending
      rw [hbufp, ha.memory, show (k.stampReceiver p va).msgAddr p va = k.msgAddr p va from rfl,
        Function.update_self]
    refine ⟨?_, ?_, ?_, ?_, ?_, ?_⟩
    · rw [hpendp]
    · rw [hpendp]
      exact hstamp
    · exact fun q => (ha.is_other q _ (by decide) (by decide)).trans (hund.sending q)
    · exact fun q => (ha.receving q).trans (or_congr_right (hund.receving q))
    · intro q hqb
      have hqb₁ := hqb.imp (hund.sending q).mpr (hund.receving q).mpr
      rw [hi₁.pending_asleep ha hbuf hqb₁ (hawake.ne hqb), hund.pending q hqb]
    · intro q l hl
      exact hi'.quene_of_links ha.queneHead ha.queneBody q l (hund.quene q l hl)
  · obtain ⟨hsr, hquene⟩ := hi₁.chain_pop hhead
    refine Or.inr ⟨hf0, s, hfetch hsr unlinked_setQueneHead he ?_, Or.inl ⟨hany, hhead⟩⟩
    intro q l hl
    simpa using hquene q l hl
  · have hsr : (k.stampReceiver p va).SendingTo f p :=
      ⟨hparked.2.1, by rw [hparked.2.2]; exact hpid⟩
    obtain ⟨hunl, hquene⟩ := hi₁.chain_unlink hsr hk₁
    exact Or.inr ⟨hf0, f, hfetch hsr hunl he hquene, Or.inr rfl⟩

end OmochaOS
