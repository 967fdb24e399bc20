import OmochaOS.Ipc.Invariant
import OmochaOS.Kernel.Effects

/-!
# Every event keeps the invariant

The branches of the system calls, one at a time, against `IpcInv`; then `__send_msg`, `__recv_msg`,
`send_interrupt_msg` and `send_exception_msg`; then a step; then a run.
-/

namespace OmochaOS

open IntrusiveList TransitionRun BitFlags Kernel

variable {w : World} {k k' : Kernel} {p q r s : Pid} {va : VAddr} {f fuel : ℕ}

/-! ### A step leaves the messages of the other blocked processes alone -/

theorem IpcInv.pending_woken (hi : IpcInv w k) {m : Message} (hw : Woken k k' r m)
    (hr : k.Receving r) (hq : k.Sending q ∨ k.Receving q) (hne : q ≠ r) :
    k'.pending q = k.pending q := by
  apply pending_congr (hw.fixed.buf (by rw [hw.pMsg]))
  rw [hw.memory]
  exact Function.update_of_ne (hi.buf_ne_of_owner (hi.own r (Or.inr hr)).2 hq hne) _ _

theorem IpcInv.pending_noticed (hi : IpcInv w k) {msg : PAddr} {m : Message} {bit : BitVec 32}
    {second : Bool} (hn : Noticed k k' r msg m bit second) (hmsg : w.owner msg = r)
    (hq : k.Sending q ∨ k.Receving q) (hne : q ≠ r) : k'.pending q = k.pending q := by
  apply pending_congr (hn.fixed.buf (by rw [hn.pMsg]))
  rw [hn.memory]
  exact Function.update_of_ne (hi.buf_ne_of_owner hmsg hq hne) _ _

theorem IpcInv.pending_asleep (hi : IpcInv w k) (ha : Asleep k k' r va f)
    (hown : w.OwnBuffer k r va) (hq : k.Sending q ∨ k.Receving q) (hne : q ≠ r) :
    k'.pending q = k.pending q := by
  apply pending_congr (ha.fixed.buf (by rw [ha.pMsg, Function.update_of_ne hne]))
  rw [ha.memory]
  exact Function.update_of_ne (hi.buf_ne_of_owner hown.2 hq hne) _ _

theorem pending_quened (hq : Quened fuel k k' s va r) (hne : q ≠ s) :
    k'.pending q = k.pending q :=
  pending_congr (hq.fixed.buf (by rw [hq.pMsg, Function.update_of_ne hne])) (by rw [hq.memory])

theorem IpcInv.pending_taken {k₁ : Kernel} (hi : IpcInv w k) (hu : Unlinked k k₁) {msg : PAddr}
    (ht : Taken k₁ k' msg s) (hmsg : w.owner msg = r) (hq : k.Sending q ∨ k.Receving q)
    (hr : q ≠ r) (hne : q ≠ s) : k'.pending q = k.pending q := by
  have hp : k'.pMsg q = k.pMsg q := by rw [ht.pMsg, Function.update_of_ne hne, hu.pMsg]
  apply pending_congr ((hu.fixed.trans ht.fixed).buf hp)
  rw [ht.memory, Function.update_of_ne (hi.buf_ne_of_owner hmsg hq hr), hu.memory]

/-! ### Stores, deliveries and wake-ups -/

/-- An awake process may store anything in its own memory. -/
theorem IpcInv.writeOwn (hi : IpcInv w k) (hp : k.Awake p) {a : PAddr} (ha : w.owner a = p)
    (m : Message) : IpcInv w (k.writeMsg a m) :=
  hi.shrink rfl rfl rfl (fun _ => Iff.rfl) (fun _ h => h) (fun _ _ => rfl)
    (fun _ hq => hi.pending_writeMsg ha hq (hp.ne hq))

/-- Waking a blocked receiver with any message keeps the invariant. -/
theorem IpcInv.wake (hi : IpcInv w k) {m : Message} (hw : Woken k k' r m)
    (hr : k.Receving r) : IpcInv w k' := by
  have hsend : ∀ q, k'.Sending q ↔ k.Sending q :=
    fun q => hw.is_other q procStatusSending (by decide) (by decide)
  -- what is still blocked is not `r`
  have hne : ∀ q, k.Sending q ∨ k'.Receving q → q ≠ r ∧ (k.Sending q ∨ k.Receving q) := by
    intro q hq
    rcases hq with hq | hq
    · exact ⟨fun he => hi.notBoth r ⟨he ▸ hq, hr⟩, Or.inl hq⟩
    · exact ⟨((hw.receving q).mp hq).1, Or.inr ((hw.receving q).mp hq).2⟩
  refine hi.shrink hw.fixed.pid hw.queneHead hw.queneBody hsend
    (fun q hq => ((hw.receving q).mp hq).2) (fun q _ => hw.fixed.buf (by rw [hw.pMsg])) ?_
  intro q hq
  obtain ⟨hqr, hq'⟩ := hne q hq
  exact hi.pending_woken hw hr hq' hqr

/-- Changing status bits other than the two blocking ones keeps the invariant. -/
theorem IpcInv.setStatus (hi : IpcInv w k) (st : BitVec 32)
    (hs : Has st procStatusSending ↔ k.Sending p)
    (hr : Has st procStatusReceving ↔ k.Receving p) : IpcInv w (k.setStatus p st) := by
  have his : ∀ mask, (Has st mask ↔ k.Is p mask) →
      ∀ q, (k.setStatus p st).Is q mask ↔ k.Is q mask := by
    intro mask hm q
    rw [is_setStatus]
    split
    · rename_i hq
      rw [hm, hq]
    · rfl
  have hbuf : ∀ q, (k.setStatus p st).buf q = k.buf q := fun q => buf_congr (by simp) (by simp)
    (by simp)
  refine hi.shrink (by simp) (by simp) (by simp) (his _ hs) (fun q hq => (his _ hr q).mp hq)
    (fun q _ => hbuf q) (fun q _ => ?_)
  exact pending_congr (hbuf q) (by simp)

theorem IpcInv.sendInterruptMsg (hi : IpcInv w k) (irq : ℕ) :
    IpcInv w (k.sendInterruptMsg irq p) := by
  unfold Kernel.sendInterruptMsg
  split
  · rename_i hw
    exact hi.wake woken_wakeWith hw.1
  · have h₁ := hi.setStatus (p := p) (raise (k.status p) procStatusGotint)
      (has_raise_of_disjoint (by decide)) (has_raise_of_disjoint (by decide))
    exact h₁.of_same rfl rfl rfl

theorem IpcInv.sendExceptionMsg (hi : IpcInv w k) (exc data : ℕ) :
    IpcInv w (k.sendExceptionMsg exc data p) := by
  unfold Kernel.sendExceptionMsg
  split
  · rename_i hw
    exact hi.wake woken_wakeWith hw.1
  · have h₁ := hi.setStatus (p := p) (raise (k.status p) procStatusGotexc)
      (has_raise_of_disjoint (by decide)) (has_raise_of_disjoint (by decide))
    exact h₁.of_same rfl rfl rfl

/-- The notification branches of `__recv_msg` store in the caller's buffer and drop at most a
notification bit. -/
theorem IpcInv.noticed (hi : IpcInv w k) {msg : PAddr} {m : Message} {bit : BitVec 32}
    {second : Bool} (hn : Noticed k k' r msg m bit second) (hawake : k.Awake r)
    (hmsg : w.owner msg = r) (hs : bit &&& procStatusSending = 0)
    (hr : bit &&& procStatusReceving = 0) : IpcInv w k' := by
  have hrecv : ∀ q, k'.Receving q → k.Receving q := fun q => (hn.is_other q _ hr).mp
  refine hi.shrink hn.fixed.pid hn.queneHead hn.queneBody (fun q => hn.is_other q _ hs) hrecv
    (fun q _ => hn.fixed.buf (by rw [hn.pMsg])) (fun q hq => ?_)
  have hq' : k.Sending q ∨ k.Receving q := hq.imp id (hrecv q)
  exact hi.pending_noticed hn hmsg hq' (hawake.ne hq')

/-! ### Blocking -/

/-- Blocking in a receive is safe when no sender the filter admits is already waiting. -/
theorem IpcInv.asleep (hi : IpcInv w k) (ha : Asleep k k' r va f) (hlive : w.live r)
    (hawake : k.Awake r) (hown : w.OwnBuffer k r va)
    (hfilter : ∀ s, k.SendingTo s r → ¬ Admits f s) : IpcInv w k' := by
  have hbufr : k'.buf r = k.msgAddr r va := by
    unfold buf
    rw [ha.pMsg, Function.update_self, ha.fixed.msgAddr]
  have hbuf : ∀ q, q ≠ r → k'.buf q = k.buf q := by
    intro q hq
    apply ha.fixed.buf
    rw [ha.pMsg, Function.update_of_ne hq]
  have hpendr : k'.pending r =
      { k.memory (k.msgAddr r va) with ready := true, sender := f } := by
    unfold pending
    rw [hbufr, ha.memory, Function.update_self]
  refine hi.sleep hlive hawake ha.fixed.pid ha.queneHead ha.queneBody
    (fun q => ha.is_other q _ (by decide) (by decide)) ha.receving hbuf
    (fun q hq => hi.pending_asleep ha hown hq (hawake.ne hq)) ?_ ?_ ?_
  · rw [hbufr]
    exact hown
  · rw [hpendr]
  · intro s hs
    rw [hpendr]
    exact hfilter s hs

/-- The links written by an append extend the receiver's queue and leave every other queue alone. -/
theorem IpcInv.chain_appended (hi : IpcInv w k) (ha : Appended fuel k k' r s)
    (hs : k.Awake s) {l : List Pid} (hl : QueneOf k q l) :
    Chain k'.queneBody (k'.queneHead q) (if q = r then l ++ [s] else l) := by
  have hsl : s ∉ l := fun h => hs.1 ((hl.mem_iff s).mp h).1
  cases ha with
  | empty hhead hhead' hbody' =>
    rw [hhead', hbody']
    by_cases hqr : q = r
    · subst hqr
      obtain rfl := hl.chain.eq_nil_iff.mpr hhead
      rw [if_pos rfl, Function.update_self]
      apply Chain.cons
      rw [Function.update_self]
      exact Chain.nil
    · rw [if_neg hqr, Function.update_of_ne hqr]
      exact hl.chain.update_of_notMem hsl
  | tail h t hhead hwalk hhead' hbody' =>
    rw [hhead', hbody']
    obtain ⟨lr, hlr⟩ := hi.quene r
    have hchain := hlr.chain
    rw [hhead] at hchain
    obtain ⟨l', hl'⟩ := hchain.walkToLast_eq hwalk
    by_cases hqr : q = r
    · subst hqr
      rw [if_pos rfl]
      obtain rfl : l = l' ++ [t] := by
        rw [← hl']
        exact hl.chain.unique hlr.chain
      exact hl.chain.snoc hl.nodup hsl
    · rw [if_neg hqr]
      -- the last element of the queue of `r` waits for `r`, so it is not in the queue of `q`
      have htl : t ∉ l := by
        intro ht
        have h₁ := ((hl.mem_iff t).mp ht).2
        have h₂ := ((hlr.mem_iff t).mp (by rw [hl']; simp)).2
        exact hqr (h₁.symm.trans h₂)
      exact (hl.chain.update_of_notMem htl).update_of_notMem hsl

/-- Blocking in a send is safe when the receiver is not already waiting for this sender. -/
theorem IpcInv.quened (hi : IpcInv w k) (hq : Quened fuel k k' s va r) (hlive : w.live s)
    (hawake : k.Awake s) (hto : w.live r) (hown : w.OwnBuffer k s va)
    (hps : (k.memory (k.msgAddr s va)).sender = s)
    (hpr : (k.memory (k.msgAddr s va)).receiver = r)
    (hfilter : k.Receving r → ¬ Admits (k.pending r).sender s) : IpcInv w k' := by
  have hbufs : k'.buf s = k.msgAddr s va := by
    unfold buf
    rw [hq.pMsg, Function.update_self, hq.fixed.msgAddr]
  have hbuf : ∀ q, q ≠ s → k'.buf q = k.buf q := by
    intro q hqs
    apply hq.fixed.buf
    rw [hq.pMsg, Function.update_of_ne hqs]
  have hpends : k'.pending s = k.memory (k.msgAddr s va) := by
    unfold pending
    rw [hbufs, hq.memory]
  refine hi.quenePush hlive hto hawake hq.fixed.pid hq.sending
    (fun q => hq.is_other q _ (by decide)) hbuf
    (fun q hqb => pending_quened hq (hawake.ne hqb)) ?_ ?_ ?_
    (fun q l hl => hi.chain_appended hq.links hawake hl) hfilter
  · rw [hbufs]
    exact hown
  · rw [hpends]
    exact hps
  · rw [hpends]
    exact hpr

/-! ### Taking a parked message -/

/-- Removing `s` from the queue of `r` and taking its message keeps the invariant, whichever links the
removal wrote, as long as they take `s` out of the queue of `r` and leave the other queues alone. -/
theorem IpcInv.taken {k₁ : Kernel} (hi : IpcInv w k) (hu : Unlinked k k₁) {msg : PAddr}
    (ht : Taken k₁ k' msg s) (hawake : k.Awake r) (hmsg : w.owner msg = r)
    (hsr : k.SendingTo s r)
    (hquene : ∀ q l, QueneOf k q l →
      Chain k₁.queneBody (k₁.queneHead q) (if q = r then l.erase s else l)) : IpcInv w k' := by
  have hbuf : ∀ q, q ≠ s → k'.buf q = k.buf q := by
    intro q hqs
    apply (hu.fixed.trans ht.fixed).buf
    rw [ht.pMsg, Function.update_of_ne hqs, hu.pMsg]
  refine hi.quenePop hsr (hu.fixed.trans ht.fixed).pid ?_ ?_ hbuf ?_ ?_
  · intro q
    exact (ht.sending q).trans (and_congr_right fun _ => is_congr hu.status)
  · intro q
    exact (ht.is_other q _ (by decide) (by decide)).trans (is_congr hu.status)
  · intro q hqs hq
    exact hi.pending_taken hu ht hmsg hq (hawake.ne hq) hqs
  · intro q l hl
    rw [ht.queneBody, ht.queneHead]
    exact hquene q l hl

/-- The queue a blocked sender is in. -/
theorem IpcInv.quene_of_sendingTo (hi : IpcInv w k) (h : k.SendingTo s r) :
    ∃ l, QueneOf k r l ∧ s ∈ l := by
  obtain ⟨l, hl⟩ := hi.quene r
  exact ⟨l, hl, (hl.mem_iff s).mpr h⟩

/-- Writing the link of `x` does not disturb a queue `x` is not in. -/
theorem QueneOf.update_of_ne {l : List Pid} (hl : QueneOf k q l) (hx : k.SendingTo p r)
    (hqr : q ≠ r) (v : Option Pid) :
    Chain (Function.update k.queneBody p v) (k.queneHead q) l := by
  apply hl.chain.update_of_notMem
  intro hm
  exact hqr (((hl.mem_iff p).mp hm).2.symm.trans hx.2)

/-- **The head of the queue** is a process blocked with a message for the queue's owner, and moving
the head pointer to its link takes it out. -/
theorem IpcInv.chain_pop (hi : IpcInv w k) (hh : k.queneHead r = some s) :
    k.SendingTo s r ∧ ∀ q l, QueneOf k q l →
      Chain k.queneBody (Function.update k.queneHead r (k.queneBody s) q)
        (if q = r then l.erase s else l) := by
  obtain ⟨lr, hlr⟩ := hi.quene r
  have hchain := hlr.chain
  rw [hh] at hchain
  obtain ⟨t, rfl, htail⟩ := chain_some_iff.mp hchain
  refine ⟨(hlr.mem_iff s).mp (by simp), ?_⟩
  intro q l hl
  by_cases hqr : q = r
  · subst hqr
    obtain rfl := hl.chain.unique hlr.chain
    rw [if_pos rfl, Function.update_self, List.erase_cons_head]
    exact htail
  · rw [if_neg hqr, Function.update_of_ne hqr]
    exact hl.chain

/-- **The search succeeds.**  A blocked sender is found in its receiver's queue: the assertion, the
panic and the null dereference of the source are not reached. -/
theorem IpcInv.queneSearch_found (hi : IpcInv w k) (fuel : ℕ) (hsr : k.SendingTo s r) :
    queneSearch fuel k r s = .head ∨ (∃ prev, queneSearch fuel k r s = .middle prev) ∨
      queneSearch fuel k r s = .spinning := by
  obtain ⟨l, hl, hsl⟩ := hi.quene_of_sendingTo hsr
  unfold queneSearch
  cases hh : k.queneHead r with
  | none =>
    have hnil := hl.chain.eq_nil_iff.mpr hh
    rw [hnil] at hsl
    simp at hsl
  | some h =>
    by_cases he : h = s
    · exact Or.inl (by simp [he])
    · simp only [he, if_false]
      have hchain := hl.chain
      rw [hh] at hchain
      obtain ⟨t, rfl, -⟩ := chain_some_iff.mp hchain
      have hst : s ∈ t := by
        rcases List.mem_cons.mp hsl with e | e
        · exact absurd e.symm he
        · exact e
      cases hsearch : searchAfter k.queneBody s fuel h with
      | found prev => exact Or.inr (Or.inl ⟨prev, rfl⟩)
      | spinning => exact Or.inr (Or.inr rfl)
      | missing =>
        obtain ⟨p, -, -, hp, -⟩ := hchain.searchAfter_of_mem hst (by rw [hsearch]; simp)
        rw [hsearch] at hp
        cases hp

/-- With at least as much fuel as the queue is long the search ends. -/
theorem IpcInv.queneSearch_ends (hi : IpcInv w k) :
    ∃ n, ∀ fuel, n ≤ fuel → queneSearch fuel k r s ≠ .spinning := by
  obtain ⟨l, hl⟩ := hi.quene r
  refine ⟨l.length, fun fuel hf => ?_⟩
  unfold queneSearch
  cases hh : k.queneHead r with
  | none => simp
  | some h =>
    by_cases he : h = s
    · simp [he]
    · simp only [he, if_false]
      have hchain := hl.chain
      rw [hh] at hchain
      have hne := hchain.searchAfter_ne_spinning (x := s) hf
      cases hsearch : searchAfter k.queneBody s fuel h with
      | found prev => simp
      | missing => simp
      | spinning => exact absurd hsearch hne

/-- **The removal takes the sender out of the queue** and leaves the other queues alone. -/
theorem IpcInv.chain_unlink {k₁ : Kernel} (hi : IpcInv w k) (hsr : k.SendingTo s r)
    (hu : unlinkSender fuel k r s = some k₁) :
    Unlinked k k₁ ∧ ∀ q l, QueneOf k q l →
      Chain k₁.queneBody (k₁.queneHead q) (if q = r then l.erase s else l) := by
  obtain ⟨hunl, hcases⟩ := unlinkSender_cases hu
  refine ⟨hunl, fun q l hl => ?_⟩
  rcases hcases with ⟨hsearch, hhead, hbody⟩ | ⟨prev, hsearch, hhead, hbody⟩ | ⟨hsearch, -, -⟩
  · -- the sender is the head
    have hh : k.queneHead r = some s := by
      unfold queneSearch at hsearch
      split at hsearch
      · simp at hsearch
      · rename_i h hh
        split at hsearch
        · rename_i he
          rw [hh, he]
        · split at hsearch <;> simp at hsearch
    rw [hhead, hbody]
    by_cases hqr : q = r
    · have hpop := (hi.chain_pop hh).2 q l hl
      apply hpop.update_of_notMem
      rw [if_pos hqr, hl.nodup.mem_erase_iff]
      simp
    · rw [if_neg hqr, Function.update_of_ne hqr]
      exact hl.update_of_ne hsr hqr none
  · -- the sender is linked from `prev`
    rw [hhead, hbody]
    obtain ⟨lr, hlr, hslr⟩ := hi.quene_of_sendingTo hsr
    have hsplit : ∃ l₁ l₂, lr = l₁ ++ prev :: s :: l₂ := by
      unfold queneSearch at hsearch
      split at hsearch
      · simp at hsearch
      · rename_i h hh
        split at hsearch
        · simp at hsearch
        · rename_i he
          have hchain := hlr.chain
          rw [hh] at hchain
          obtain ⟨t, rfl, -⟩ := chain_some_iff.mp hchain
          have hst : s ∈ t := by
            rcases List.mem_cons.mp hslr with e | e
            · exact absurd e.symm he
            · exact e
          cases hfound : searchAfter k.queneBody s fuel h with
          | found p =>
            rw [hfound] at hsearch
            simp only [QueneSearch.middle.injEq] at hsearch
            subst hsearch
            obtain ⟨p', l₁, l₂, hp', hl'⟩ :=
              hchain.searchAfter_of_mem hst (by rw [hfound]; simp)
            rw [hfound] at hp'
            obtain rfl : p = p' := by simpa using hp'
            exact ⟨l₁, l₂, hl'⟩
          | missing => simp [hfound] at hsearch
          | spinning => simp [hfound] at hsearch
    obtain ⟨l₁, l₂, rfl⟩ := hsplit
    by_cases hqr : q = r
    · subst hqr
      obtain rfl := hl.chain.unique hlr.chain
      rw [if_pos rfl]
      have hnot : s ∉ l₁ ++ [prev] := by
        have hnd := hl.nodup
        rw [show l₁ ++ prev :: s :: l₂ = (l₁ ++ [prev]) ++ s :: l₂ by simp] at hnd
        intro hm
        exact (List.nodup_append.mp hnd).2.2 s hm s (by simp) rfl
      have herase : (l₁ ++ prev :: s :: l₂).erase s = l₁ ++ prev :: l₂ := by
        rw [show l₁ ++ prev :: s :: l₂ = (l₁ ++ [prev]) ++ s :: l₂ by simp,
          List.erase_append_right _ hnot, List.erase_cons_head]
        simp
      rw [herase]
      exact hl.chain.unlink hl.nodup
    · rw [if_neg hqr]
      have hprev : k.SendingTo prev r := (hlr.mem_iff prev).mp (by simp)
      apply Chain.update_of_notMem (hl.update_of_ne hprev hqr _)
      intro hm
      exact hqr (((hl.mem_iff s).mp hm).2.symm.trans hsr.2)
  · -- the end of the queue is never reached
    rcases hi.queneSearch_found fuel hsr with h | ⟨prev, h⟩ | h <;>
      rw [h] at hsearch <;> cases hsearch

/-! ### The two system calls -/

/-- **`__send_msg` keeps the invariant.** -/
theorem IpcInv.sendMsg (hi : IpcInv w k) (hlive : w.live p) (hawake : k.Awake p)
    (hbuf : w.OwnBuffer k p va) (hto : w.live (k.memory (k.msgAddr p va)).receiver)
    (hcall : Kernel.sendMsg fuel k p va = some k') : IpcInv w k' := by
  obtain ⟨names, -, hcases⟩ := sendMsg_cases hcall
  have hpid := hi.pid_eq p hlive
  set k₁ := (k.stampSender p va).print names with hk₁
  have hi₁ : IpcInv w k₁ := (hi.writeOwn hawake hbuf.2 _).of_same rfl rfl rfl
  have hmsg : k₁.memory (k.msgAddr p va) = { k.memory (k.msgAddr p va) with sender := p } := by
    show Function.update k.memory (k.msgAddr p va) _ (k.msgAddr p va) = _
    rw [Function.update_self, hpid]
  rw [hpid] at hcases
  rcases hcases with ⟨hready, rfl⟩ | ⟨hready, hquened⟩
  · exact hi₁.wake woken_deliver hready.1
  · refine hi₁.quened (quened_queneSender hquened) hlive hawake hto hbuf ?_ ?_ ?_
    · show (k₁.memory (k.msgAddr p va)).sender = p
      rw [hmsg]
    · show (k₁.memory (k.msgAddr p va)).receiver = _
      rw [hmsg]
    · intro hrecv hadmits
      exact hready ⟨hrecv, (hi₁.receving _ hrecv).2, hadmits⟩

/-- The queue part of `__recv_msg` keeps the invariant: it blocks only when no sender that the filter
admits is waiting. -/
theorem IpcInv.recvQuened (hi : IpcInv w k) (hlive : w.live p) (hawake : k.Awake p)
    (hbuf : w.OwnBuffer k p va)
    (hcall : Kernel.recvQuened fuel k p va f = some k') : IpcInv w k' := by
  have hpid := hi.pid_eq p hlive
  rcases recvQuened_cases hcall with ⟨rfl, hwhy⟩ | ⟨-, s, hhead, rfl⟩ | ⟨-, -, hparked, k₁, hk₁, rfl⟩
  · refine hi.asleep asleep_blockReceiver hlive hawake hbuf ?_
    intro s hs hadmits
    have hlt := w.live_lt s (hi.sending s hs.1).1
    rcases hwhy with rfl | ⟨rfl, hnone⟩ | ⟨-, hany, hparked⟩
    · -- a notification filter is no pid
      rcases hadmits with h | h
      · simp [procInterrupt, procAny] at h
      · rw [← h] at hlt
        simp [procInterrupt, procAny] at hlt
    · obtain ⟨l, hl, hsl⟩ := hi.quene_of_sendingTo hs
      have hnil := hl.chain.eq_nil_iff.mpr hnone
      rw [hnil] at hsl
      simp at hsl
    · rcases hadmits with h | h
      · exact hany h
      · subst h
        apply hparked
        exact ⟨(hi.own f (Or.inl hs.1)).1, hs.1, by rw [hpid]; exact hs.2⟩
  · obtain ⟨hsr, hquene⟩ := hi.chain_pop hhead
    refine hi.taken unlinked_setQueneHead taken_takeMsg hawake hbuf.2 hsr ?_
    intro q l hl
    have hq := hquene q l hl
    simpa using hq
  · have hsr : k.SendingTo f p := ⟨hparked.2.1, by rw [← hpid]; exact hparked.2.2⟩
    obtain ⟨hunl, hquene⟩ := hi.chain_unlink hsr hk₁
    exact hi.taken hunl taken_takeMsg hawake hbuf.2 hsr hquene

/-- **`__recv_msg` keeps the invariant.** -/
theorem IpcInv.recvMsg (hi : IpcInv w k) (hlive : w.live p) (hawake : k.Awake p)
    (hbuf : w.OwnBuffer k p va) (hcall : Kernel.recvMsg fuel k p va f = some k') :
    IpcInv w k' := by
  have hi₁ : IpcInv w (k.stampReceiver p va) := hi.writeOwn hawake hbuf.2 _
  rcases recvMsg_cases hcall with ⟨-, rfl⟩ | ⟨-, -, -, rfl⟩ | ⟨-, -, -, -, rfl⟩ | ⟨-, -, -, h⟩
  · exact hi₁
  · exact hi₁.noticed noticed_recvInterrupt hawake hbuf.2 (by decide) (by decide)
  · exact hi₁.noticed noticed_recvException hawake hbuf.2 (by decide) (by decide)
  · exact hi₁.recvQuened hlive hawake hbuf h

/-! ### Steps and runs -/

/-- **Every event keeps the invariant.** -/
theorem IpcInv.step {e : Event} (hi : IpcInv w k) (h : Step w k e k') : IpcInv w k' := by
  cases h with
  | user hlive hawake hown => exact hi.writeOwn hawake hown _
  | send hlive hawake hbuf hto hcall => exact hi.sendMsg hlive hawake hbuf hto hcall
  | recv hlive hawake hbuf hfilter hcall => exact hi.recvMsg hlive hawake hbuf hcall
  | interrupt hlive hirq => exact hi.sendInterruptMsg _
  | exception hlive hexc => exact hi.sendExceptionMsg _ _

end OmochaOS
