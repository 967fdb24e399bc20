import OmochaOS.Ipc.System

/-!
# The invariant of message passing

`IpcInv` ties together what the system calls keep in four places: the two status bits, the sender
queue threaded through the process table, the buffer each blocked process left behind, and the filter
and `ready` flag inside a blocked receiver's buffer.

Each event changes the state in one of five ways, and there is one preservation lemma for each:

* `IpcInv.shrink` — nobody new blocks and the blocked processes' buffers are untouched (stores of an
  awake process, deliveries, wake-ups, pending notifications);
* `IpcInv.sleep` — one awake process blocks in a receive;
* `IpcInv.quene` — one awake process blocks in a send and goes to the tail of a queue;
* `IpcInv.unquene` — one blocked sender leaves its queue and wakes;
* `IpcInv.of_same` — the message-passing part of the state is untouched.
-/

namespace OmochaOS

open IntrusiveList TransitionRun BitFlags

/-- `l` is the queue of `r`: the links lead through it, it has no duplicates, and it holds exactly
the processes blocked with a message for `r`. -/
structure QueneOf (k : Kernel) (r : Pid) (l : List Pid) : Prop where
  chain : Chain k.queneBody (k.queneHead r) l
  nodup : l.Nodup
  mem_iff : ∀ s, s ∈ l ↔ k.SendingTo s r

structure IpcInv (w : World) (k : Kernel) : Prop where
  pid_eq : ∀ p, w.live p → k.pid p = p
  notBoth : ∀ p, ¬ (k.Sending p ∧ k.Receving p)
  /-- a blocked process left a buffer of its own -/
  own : ∀ p, k.Sending p ∨ k.Receving p → k.buf p ≠ 0 ∧ w.owner (k.buf p) = p
  sending : ∀ s, k.Sending s → w.live s ∧ w.live (k.pending s).receiver ∧ (k.pending s).sender = s
  receving : ∀ r, k.Receving r → w.live r ∧ (k.pending r).ready = true
  quene : ∀ r, ∃ l, QueneOf k r l
  rendezvous : ∀ r s, k.Receving r → k.SendingTo s r → ¬ Admits (k.pending r).sender s

variable {w : World} {k k' : Kernel} {p q r s : Pid}

theorem Boot.ipcInv (h : Boot w k) : IpcInv w k where
  pid_eq := h.pid_eq
  notBoth p hp := (h.quiet p).1 hp.1
  own p hp := by
    rcases hp with hp | hp
    · exact absurd hp (h.quiet p).1
    · exact absurd hp (h.quiet p).2
  sending s hs := absurd hs (h.quiet s).1
  receving r hr := absurd hr (h.quiet r).2
  quene r := by
    refine ⟨[], ?_, List.nodup_nil, ?_⟩
    · rw [h.queneHead r]
      exact Chain.nil
    · intro s
      have hs : ¬ k.SendingTo s r := fun hs => (h.quiet s).1 hs.1
      simp [hs]
  rendezvous r _ hr _ := absurd hr (h.quiet r).2

/-! ### Buffers of different processes are different cells -/

/-- A buffer a blocked process left behind is not a cell of somebody else. -/
theorem IpcInv.buf_ne_of_owner (hi : IpcInv w k) {a : PAddr} (ha : w.owner a = p)
    (hq : k.Sending q ∨ k.Receving q) (hne : q ≠ p) : k.buf q ≠ a := by
  intro he
  have hown := (hi.own q hq).2
  rw [he, ha] at hown
  exact hne hown.symm

/-- An awake process can store in its own memory without touching a blocked process's message. -/
theorem IpcInv.pending_writeMsg (hi : IpcInv w k) {a : PAddr} {m : Message}
    (ha : w.owner a = p) (hq : k.Sending q ∨ k.Receving q) (hne : q ≠ p) :
    (k.writeMsg a m).pending q = k.pending q := by
  have hbuf := hi.buf_ne_of_owner ha hq hne
  show Function.update k.memory a m (k.buf q) = k.memory (k.buf q)
  exact Function.update_of_ne hbuf _ _

/-- A process that is awake is not a blocked one. -/
theorem Kernel.Awake.ne (hp : k.Awake p) (hq : k.Sending q ∨ k.Receving q) : q ≠ p := by
  intro he
  subst he
  rcases hq with hq | hq
  · exact hp.1 hq
  · exact hp.2 hq

theorem SendingTo_congr (hs : k'.Sending s ↔ k.Sending s)
    (hp : k.Sending s → k'.pending s = k.pending s) : k'.SendingTo s r ↔ k.SendingTo s r := by
  unfold Kernel.SendingTo
  constructor
  · intro h
    have hk := hs.mp h.1
    exact ⟨hk, by rw [← hp hk]; exact h.2⟩
  · intro h
    exact ⟨hs.mpr h.1, by rw [hp h.1]; exact h.2⟩

/-! ### Preservation -/

/-- **Nobody new blocks.**  The invariant survives when the senders stay the same, receivers may only
wake, and what is left of the blocked processes keeps its buffer and its message. -/
theorem IpcInv.shrink (hi : IpcInv w k) (hpid : k'.pid = k.pid)
    (hhead : k'.queneHead = k.queneHead) (hbody : k'.queneBody = k.queneBody)
    (hsend : ∀ q, k'.Sending q ↔ k.Sending q) (hrecv : ∀ q, k'.Receving q → k.Receving q)
    (hbuf : ∀ q, k.Sending q ∨ k'.Receving q → k'.buf q = k.buf q)
    (hpend : ∀ q, k.Sending q ∨ k'.Receving q → k'.pending q = k.pending q) : IpcInv w k' where
  pid_eq p hp := by rw [hpid]; exact hi.pid_eq p hp
  notBoth p hp := hi.notBoth p ⟨(hsend p).mp hp.1, hrecv p hp.2⟩
  own p hp := by
    have hp' : k.Sending p ∨ k'.Receving p := hp.imp (hsend p).mp id
    rw [hbuf p hp']
    exact hi.own p (hp'.imp id (hrecv p))
  sending s hs := by
    have hs' := (hsend s).mp hs
    rw [hpend s (Or.inl hs')]
    exact hi.sending s hs'
  receving r hr := by
    rw [hpend r (Or.inr hr)]
    exact hi.receving r (hrecv r hr)
  quene r := by
    obtain ⟨l, hl⟩ := hi.quene r
    refine ⟨l, ?_, hl.nodup, ?_⟩
    · rw [hbody, hhead]
      exact hl.chain
    · intro s
      rw [SendingTo_congr (hsend s) (fun h => hpend s (Or.inl h))]
      exact hl.mem_iff s
  rendezvous r s hr hs := by
    rw [hpend r (Or.inr hr)]
    rw [SendingTo_congr (hsend s) (fun h => hpend s (Or.inl h))] at hs
    exact hi.rendezvous r s (hrecv r hr) hs

/-- The invariant speaks of the process table, the memory and the translation only. -/
theorem IpcInv.of_same (hi : IpcInv w k) (htab : k'.procTable = k.procTable)
    (hmem : k'.memory = k.memory) (hmap : k'.vir2phy = k.vir2phy) : IpcInv w k' := by
  cases k
  cases k'
  simp only at htab hmem hmap
  subst htab
  subst hmem
  subst hmap
  exact ⟨hi.pid_eq, hi.notBoth, hi.own, hi.sending, hi.receving,
    fun r => (hi.quene r).imp fun l hl => ⟨hl.chain, hl.nodup, hl.mem_iff⟩, hi.rendezvous⟩

/-- **An awake process blocks in a receive.** -/
theorem IpcInv.sleep (hi : IpcInv w k) (hr : w.live r) (hawake : k.Awake r)
    (hpid : k'.pid = k.pid) (hhead : k'.queneHead = k.queneHead)
    (hbody : k'.queneBody = k.queneBody) (hsend : ∀ q, k'.Sending q ↔ k.Sending q)
    (hrecv : ∀ q, k'.Receving q ↔ q = r ∨ k.Receving q)
    (hbuf : ∀ q, q ≠ r → k'.buf q = k.buf q)
    (hpend : ∀ q, k.Sending q ∨ k.Receving q → k'.pending q = k.pending q)
    (hown : k'.buf r ≠ 0 ∧ w.owner (k'.buf r) = r) (hready : (k'.pending r).ready = true)
    (hfilter : ∀ s, k.SendingTo s r → ¬ Admits (k'.pending r).sender s) : IpcInv w k' where
  pid_eq p hp := by rw [hpid]; exact hi.pid_eq p hp
  notBoth p hp := by
    have hs := (hsend p).mp hp.1
    rcases (hrecv p).mp hp.2 with he | hp'
    · exact hawake.ne (Or.inl hs) he
    · exact hi.notBoth p ⟨hs, hp'⟩
  own p hp := by
    by_cases he : p = r
    · rw [he]
      exact hown
    · have hp' : k.Sending p ∨ k.Receving p :=
        hp.imp (hsend p).mp (fun h => ((hrecv p).mp h).resolve_left he)
      rw [hbuf p he]
      exact hi.own p hp'
  sending s hs := by
    have hs' := (hsend s).mp hs
    rw [hpend s (Or.inl hs')]
    exact hi.sending s hs'
  receving q hq := by
    rcases (hrecv q).mp hq with he | hq'
    · rw [he]
      exact ⟨hr, hready⟩
    · rw [hpend q (Or.inr hq')]
      exact hi.receving q hq'
  quene q := by
    obtain ⟨l, hl⟩ := hi.quene q
    refine ⟨l, ?_, hl.nodup, ?_⟩
    · rw [hbody, hhead]
      exact hl.chain
    · intro s
      rw [SendingTo_congr (hsend s) (fun h => hpend s (Or.inl h))]
      exact hl.mem_iff s
  rendezvous q s hq hs := by
    rw [SendingTo_congr (hsend s) (fun h => hpend s (Or.inl h))] at hs
    rcases (hrecv q).mp hq with he | hq'
    · rw [he] at hs ⊢
      exact hfilter s hs
    · rw [hpend q (Or.inr hq')]
      exact hi.rendezvous q s hq' hs

/-- **An awake process blocks in a send and joins the tail of a queue.**  `r` is the receiver its
message names. -/
theorem IpcInv.quenePush (hi : IpcInv w k) (hs : w.live s) (hto : w.live r) (hawake : k.Awake s)
    (hpid : k'.pid = k.pid) (hsend : ∀ q, k'.Sending q ↔ q = s ∨ k.Sending q)
    (hrecv : ∀ q, k'.Receving q ↔ k.Receving q) (hbuf : ∀ q, q ≠ s → k'.buf q = k.buf q)
    (hpend : ∀ q, k.Sending q ∨ k.Receving q → k'.pending q = k.pending q)
    (hown : k'.buf s ≠ 0 ∧ w.owner (k'.buf s) = s) (hps : (k'.pending s).sender = s)
    (hpr : (k'.pending s).receiver = r)
    (hquene : ∀ q l, QueneOf k q l →
      Chain k'.queneBody (k'.queneHead q) (if q = r then l ++ [s] else l))
    (hfilter : k.Receving r → ¬ Admits (k.pending r).sender s) : IpcInv w k' where
  pid_eq p hp := by rw [hpid]; exact hi.pid_eq p hp
  notBoth p hp := by
    have hp' := (hrecv p).mp hp.2
    rcases (hsend p).mp hp.1 with he | hsp
    · exact hawake.ne (Or.inr hp') he
    · exact hi.notBoth p ⟨hsp, hp'⟩
  own p hp := by
    by_cases he : p = s
    · rw [he]
      exact hown
    · have hp' : k.Sending p ∨ k.Receving p :=
        hp.imp (fun h => ((hsend p).mp h).resolve_left he) (hrecv p).mp
      rw [hbuf p he]
      exact hi.own p hp'
  sending q hq := by
    rcases (hsend q).mp hq with he | hq'
    · rw [he, hpr]
      exact ⟨hs, hto, hps⟩
    · rw [hpend q (Or.inl hq')]
      exact hi.sending q hq'
  receving q hq := by
    have hq' := (hrecv q).mp hq
    rw [hpend q (Or.inr hq')]
    exact hi.receving q hq'
  quene q := by
    obtain ⟨l, hl⟩ := hi.quene q
    have hmem : ∀ x, k'.SendingTo x q ↔ (x = s ∧ q = r) ∨ k.SendingTo x q := by
      intro x
      unfold Kernel.SendingTo
      rw [hsend x]
      by_cases hx : x = s
      · have hns : ¬ k.Sending x := by rw [hx]; exact hawake.1
        rw [hx, hpr] at *
        simp [hns, eq_comm]
      · simp only [hx, false_or, false_and]
        refine and_congr_right fun hsx => ?_
        rw [hpend x (Or.inl hsx)]
    have hsl : s ∉ l := fun h => hawake.1 ((hl.mem_iff s).mp h).1
    refine ⟨if q = r then l ++ [s] else l, hquene q l hl, ?_, ?_⟩
    · split
      · rw [List.nodup_append]
        refine ⟨hl.nodup, by simp, ?_⟩
        intro a ha b hb
        obtain rfl := List.mem_singleton.mp hb
        exact fun e => hsl (e ▸ ha)
      · exact hl.nodup
    · intro x
      rw [hmem x]
      split
      · rename_i hqr
        rw [List.mem_append, hl.mem_iff x, List.mem_singleton]
        simp [hqr, or_comm]
      · rename_i hqr
        rw [hl.mem_iff x]
        simp [hqr]
  rendezvous q x hq hx := by
    have hq' := (hrecv q).mp hq
    rw [hpend q (Or.inr hq')]
    by_cases hxs : x = s
    · have hqr : q = r := by
        rw [hxs] at hx
        exact hx.2.symm.trans hpr
      rw [hqr] at hq' ⊢
      rw [hxs]
      exact hfilter hq'
    · have hx' : k.Sending x := ((hsend x).mp hx.1).resolve_left hxs
      refine hi.rendezvous q x hq' ⟨hx', ?_⟩
      rw [← hpend x (Or.inl hx')]
      exact hx.2

/-- **A blocked sender leaves its queue and wakes.** -/
theorem IpcInv.quenePop (hi : IpcInv w k) (hsr : k.SendingTo s r) (hpid : k'.pid = k.pid)
    (hsend : ∀ q, k'.Sending q ↔ q ≠ s ∧ k.Sending q) (hrecv : ∀ q, k'.Receving q ↔ k.Receving q)
    (hbuf : ∀ q, q ≠ s → k'.buf q = k.buf q)
    (hpend : ∀ q, q ≠ s → k.Sending q ∨ k.Receving q → k'.pending q = k.pending q)
    (hquene : ∀ q l, QueneOf k q l →
      Chain k'.queneBody (k'.queneHead q) (if q = r then l.erase s else l)) : IpcInv w k' := by
  -- a receiver is not the sender that leaves
  have hne : ∀ {q}, k.Receving q → q ≠ s := by
    intro q hq he
    rw [he] at hq
    exact hi.notBoth s ⟨hsr.1, hq⟩
  have hmem : ∀ x q, k'.SendingTo x q ↔ x ≠ s ∧ k.SendingTo x q := by
    intro x q
    unfold Kernel.SendingTo
    rw [hsend x]
    constructor
    · intro h
      refine ⟨h.1.1, h.1.2, ?_⟩
      rw [← hpend x h.1.1 (Or.inl h.1.2)]
      exact h.2
    · intro h
      refine ⟨⟨h.1, h.2.1⟩, ?_⟩
      rw [hpend x h.1 (Or.inl h.2.1)]
      exact h.2.2
  constructor
  case pid_eq =>
    intro p hp
    rw [hpid]
    exact hi.pid_eq p hp
  case notBoth =>
    intro p hp
    exact hi.notBoth p ⟨((hsend p).mp hp.1).2, (hrecv p).mp hp.2⟩
  case own =>
    intro p hp
    have hp' : p ≠ s ∧ (k.Sending p ∨ k.Receving p) := by
      rcases hp with h | h
      · exact ⟨((hsend p).mp h).1, Or.inl ((hsend p).mp h).2⟩
      · exact ⟨hne ((hrecv p).mp h), Or.inr ((hrecv p).mp h)⟩
    rw [hbuf p hp'.1]
    exact hi.own p hp'.2
  case sending =>
    intro q hq
    obtain ⟨hqs, hq'⟩ := (hsend q).mp hq
    rw [hpend q hqs (Or.inl hq')]
    exact hi.sending q hq'
  case receving =>
    intro q hq
    have hq' := (hrecv q).mp hq
    rw [hpend q (hne hq') (Or.inr hq')]
    exact hi.receving q hq'
  case quene =>
    intro q
    obtain ⟨l, hl⟩ := hi.quene q
    refine ⟨if q = r then l.erase s else l, hquene q l hl, ?_, ?_⟩
    · split
      · exact hl.nodup.erase s
      · exact hl.nodup
    · intro x
      rw [hmem x q]
      split
      · rw [hl.nodup.mem_erase_iff, hl.mem_iff x]
      · rename_i hqr
        rw [hl.mem_iff x]
        refine ⟨fun hx => ⟨?_, hx⟩, fun hx => hx.2⟩
        intro he
        rw [he] at hx
        exact hqr (hx.2.symm.trans hsr.2)
  case rendezvous =>
    intro q x hq hx
    have hq' := (hrecv q).mp hq
    rw [hpend q (hne hq') (Or.inr hq')]
    exact hi.rendezvous q x hq' ((hmem x q).mp hx).2

end OmochaOS
