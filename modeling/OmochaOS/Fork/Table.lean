import OmochaOS.Fork.Tasks

/-!
# A new entry in the process table

`ALLOC_PROC` clears an entry that no process uses, and `fork_proc` makes a process of it.  Nobody sends
to an entry without a process and nobody's buffer is in it, so message passing goes on as before:
`IpcInv.admit` is the common part, `Kernel.EntryTaken.ipcInv` and `IpcInv.forkCopy` are the two uses.

`IpcInv.settle` is the other direction: a process that is in nobody's way may leave, or be marked as gone,
and whatever else is stored outside of message passing changes nothing.
-/

namespace OmochaOS

open IntrusiveList TransitionRun BitFlags Kernel

variable {w w' : World} {k k' : Kernel} {p q c pid parent child : Pid} {o : Option Pid} {va : VAddr}
  {dir : PageDir} {frame : ℕ → ℕ} {a : PAddr} {pages : List ℕ}

/-- **Rewriting the entry of nobody.**  The other processes keep everything message passing looks at;
if the entry is that of a process from now on, the process is not blocked in a send. -/
theorem IpcInv.admit (hi : IpcInv w k) (hdead : ¬ w.live c)
    (hlive : ∀ q, q ≠ c → (w'.live q ↔ w.live q))
    (hpid : ∀ q, q ≠ c → k'.pid q = k.pid q) (hpidc : w'.live c → k'.pid c = c)
    (hsend : ∀ q, q ≠ c → (k'.Sending q ↔ k.Sending q))
    (hrecv : ∀ q, q ≠ c → (k'.Receving q ↔ k.Receving q))
    (hkept : ∀ q, k.Sending q ∨ k.Receving q → k'.buf q = k.buf q ∧ k'.pending q = k.pending q ∧
      w'.owner (k.buf q) = w.owner (k.buf q))
    (hhead : ∀ q, q ≠ c → k'.queneHead q = k.queneHead q) (hheadc : k'.queneHead c = none)
    (hbody : ∀ q, q ≠ c → k'.queneBody q = k.queneBody q) (hns : ¬ k'.Sending c)
    (hrc : k'.Receving c → w'.live c ∧ (k'.pending c).ready = true ∧ k'.buf c ≠ 0 ∧
      w'.owner (k'.buf c) = c) : IpcInv w' k' := by
  -- the blocked processes of old are live, so none of them is `c`
  have hne : ∀ {q}, k.Sending q ∨ k.Receving q → q ≠ c := by
    rintro q hq rfl
    rcases hq with h | h
    · exact hdead (hi.sending q h).1
    · exact hdead (hi.receving q h).1
  have hsend' : ∀ {q}, k'.Sending q → q ≠ c ∧ k.Sending q := by
    intro q hq
    have hqc : q ≠ c := by
      rintro rfl
      exact hns hq
    exact ⟨hqc, (hsend q hqc).mp hq⟩
  have hto : ∀ {s r}, k'.SendingTo s r ↔ k.SendingTo s r := by
    intro s r
    constructor
    · intro h
      have hs := (hsend' h.1).2
      exact ⟨hs, by rw [← (hkept s (Or.inl hs)).2.1]; exact h.2⟩
    · intro h
      refine ⟨(hsend s (hne (Or.inl h.1))).mpr h.1, ?_⟩
      rw [(hkept s (Or.inl h.1)).2.1]
      exact h.2
  have hnobody : ∀ {s}, ¬ k.SendingTo s c := fun h => hdead (h.2 ▸ (hi.sending _ h.1).2.1)
  constructor
  case pid_eq =>
    intro q hq
    by_cases hqc : q = c
    · subst hqc
      exact hpidc hq
    · rw [hpid q hqc]
      exact hi.pid_eq q ((hlive q hqc).mp hq)
  case notBoth =>
    intro q hq
    obtain ⟨hqc, hs⟩ := hsend' hq.1
    exact hi.notBoth q ⟨hs, (hrecv q hqc).mp hq.2⟩
  case own =>
    intro q hq
    by_cases hqc : q = c
    · subst hqc
      exact (hrc (hq.resolve_left hns)).2.2
    · have hq₀ : k.Sending q ∨ k.Receving q := hq.imp (hsend q hqc).mp (hrecv q hqc).mp
      obtain ⟨hb, -, ho⟩ := hkept q hq₀
      rw [hb, ho]
      exact hi.own q hq₀
  case sending =>
    intro q hq
    obtain ⟨hqc, hs⟩ := hsend' hq
    obtain ⟨hq₁, hq₂, hq₃⟩ := hi.sending q hs
    rw [(hkept q (Or.inl hs)).2.1]
    have hrne : (k.pending q).receiver ≠ c := fun he => hdead (he ▸ hq₂)
    exact ⟨(hlive q hqc).mpr hq₁, (hlive _ hrne).mpr hq₂, hq₃⟩
  case receving =>
    intro q hq
    by_cases hqc : q = c
    · subst hqc
      exact ⟨(hrc hq).1, (hrc hq).2.1⟩
    · have hr := (hrecv q hqc).mp hq
      rw [(hkept q (Or.inr hr)).2.1]
      exact ⟨(hlive q hqc).mpr (hi.receving q hr).1, (hi.receving q hr).2⟩
  case quene =>
    intro r
    obtain ⟨l, hl⟩ := hi.quene r
    refine ⟨l, ?_, hl.nodup, fun s => (hl.mem_iff s).trans hto.symm⟩
    by_cases hrc' : r = c
    · subst hrc'
      have hnil : l = [] := List.eq_nil_iff_forall_not_mem.mpr fun s hs =>
        hnobody ((hl.mem_iff s).mp hs)
      rw [hnil, hheadc]
      exact Chain.nil
    · rw [hhead r hrc']
      exact hl.chain.congr fun s hs => hbody s (hne (Or.inl ((hl.mem_iff s).mp hs).1))
  case rendezvous =>
    intro r s hr hs
    have hs₀ := hto.mp hs
    by_cases hrc' : r = c
    · subst hrc'
      exact absurd hs₀ hnobody
    · have hr₀ := (hrecv r hrc').mp hr
      rw [(hkept r (Or.inr hr₀)).2.1]
      exact hi.rendezvous r s hr₀ hs₀

/-- The status tests of the others do not see the entry. -/
theorem is_congr_of_ne {mask : BitVec 32} (h : k'.status q = k.status q) :
    k'.Is q mask ↔ k.Is q mask := by
  rw [Is, Is, h]

/-! ### `ALLOC_PROC` -/

theorem Kernel.EntryTaken.buf (h : EntryTaken k k' c) (hq : q ≠ c) : k'.buf q = k.buf q := by
  unfold Kernel.buf msgAddr
  rw [h.vir2phy, h.pageDir q hq, h.pMsg q hq]

theorem Kernel.EntryTaken.is_of_ne {mask : BitVec 32} (h : EntryTaken k k' c) (hq : q ≠ c) :
    k'.Is q mask ↔ k.Is q mask :=
  is_congr_of_ne (by rw [h.status, Function.update_of_ne hq])

theorem Kernel.EntryTaken.ipcInv (h : EntryTaken k k' c) (hi : IpcInv w k) (hdead : ¬ w.live c) :
    IpcInv w k' := by
  have hst : k'.status c = procStatusStop := by rw [h.status, Function.update_self]
  have hno : ∀ mask, procStatusStop &&& mask = 0 → ¬ k'.Is c mask := by
    intro mask hm his
    rw [Is, hst] at his
    exact his hm
  have hpend : ∀ q, q ≠ c → k'.pending q = k.pending q := fun q hq =>
    pending_congr (h.buf hq) (congrFun h.memory _)
  have hne : ∀ {q}, k.Sending q ∨ k.Receving q → q ≠ c := by
    rintro q hq rfl
    rcases hq with hq | hq
    · exact hdead (hi.sending q hq).1
    · exact hdead (hi.receving q hq).1
  refine hi.admit hdead (fun _ _ => Iff.rfl) ?_ (fun hl => absurd hl hdead)
    (fun q hq => h.is_of_ne hq) (fun q hq => h.is_of_ne hq)
    (fun q hq => ⟨h.buf (hne hq), hpend q (hne hq), rfl⟩) ?_ ?_ ?_ (hno _ (by decide))
    (fun hr => absurd hr (hno _ (by decide)))
  · intro q hq
    rw [h.pid, Function.update_of_ne hq]
  · intro q hq
    rw [h.queneHead, Function.update_of_ne hq]
  · rw [h.queneHead, Function.update_self]
  · intro q hq
    rw [h.queneBody, Function.update_of_ne hq]

theorem Kernel.EntryTaken.taskKept (h : EntryTaken k k' c) (hp : p ≠ c) : TaskKept k k' p va := by
  have haddr : k'.msgAddr p va = k.msgAddr p va := by
    unfold msgAddr
    rw [h.vir2phy, h.pageDir p hp]
  refine ⟨h.is_of_ne hp, h.is_of_ne hp,
    fun _ => pending_congr (h.buf hp) (congrFun h.memory _), fun _ => h.buf hp, haddr, ?_⟩
  unfold Kernel.msgAt
  rw [haddr, h.memory]

/-! ### Processes that leave -/

/-- **Nobody new blocks and no queue changes.**  Processes may leave that nobody is blocked in a send to,
receivers may wake, and what is left of the blocked processes stays where it is. -/
theorem IpcInv.settle (hi : IpcInv w k) (hlive : ∀ q, w'.live q → w.live q)
    (hpid : ∀ q, w'.live q → k'.pid q = k.pid q) (hsend : ∀ q, k'.Sending q ↔ k.Sending q)
    (hrecv : ∀ q, k'.Receving q → k.Receving q ∧ w'.live q)
    (hstay : ∀ q, k.Sending q → w'.live q ∧ w'.live (k.pending q).receiver)
    (hkept : ∀ q, k.Sending q ∨ k'.Receving q → k'.buf q = k.buf q ∧ k'.pending q = k.pending q ∧
      w'.owner (k.buf q) = w.owner (k.buf q))
    (hhead : ∀ r, k'.queneHead r = k.queneHead r)
    (hbody : ∀ q, k.Sending q → k'.queneBody q = k.queneBody q) : IpcInv w' k' := by
  have hto : ∀ {s r}, k'.SendingTo s r ↔ k.SendingTo s r := fun {s r} =>
    SendingTo_congr (hsend s) fun hs => (hkept s (Or.inl hs)).2.1
  constructor
  case pid_eq =>
    intro q hq
    rw [hpid q hq]
    exact hi.pid_eq q (hlive q hq)
  case notBoth => exact fun q hq => hi.notBoth q ⟨(hsend q).mp hq.1, (hrecv q hq.2).1⟩
  case own =>
    intro q hq
    have hq' : k.Sending q ∨ k'.Receving q := hq.imp (hsend q).mp id
    obtain ⟨hb, -, ho⟩ := hkept q hq'
    rw [hb, ho]
    exact hi.own q (hq'.imp id fun hr => (hrecv q hr).1)
  case sending =>
    intro q hq
    have hs := (hsend q).mp hq
    rw [(hkept q (Or.inl hs)).2.1]
    exact ⟨(hstay q hs).1, (hstay q hs).2, (hi.sending q hs).2.2⟩
  case receving =>
    intro q hq
    rw [(hkept q (Or.inr hq)).2.1]
    exact ⟨(hrecv q hq).2, (hi.receving q (hrecv q hq).1).2⟩
  case quene =>
    intro r
    obtain ⟨l, hl⟩ := hi.quene r
    refine ⟨l, ?_, hl.nodup, fun s => (hl.mem_iff s).trans hto.symm⟩
    rw [hhead r]
    exact hl.chain.congr fun s hs => hbody s ((hl.mem_iff s).mp hs).1
  case rendezvous =>
    intro r s hr hs
    rw [(hkept r (Or.inr hr)).2.1]
    exact hi.rendezvous r s (hrecv r hr).1 (hto.mp hs)

theorem Process.Spares.refl {proc : Process} : proc.Spares proc :=
  ⟨rfl, rfl, rfl, rfl, rfl, Iff.rfl, Iff.rfl, Iff.rfl⟩

/-- Stores in entries, without a store in a message. -/
structure Kernel.Stored (k k' : Kernel) (c : Option Pid) : Prop where
  spares : ∀ q, c ≠ some q → (k.procTable q).Spares (k'.procTable q)
  memory : k'.memory = k.memory
  vir2phy : k'.vir2phy = k.vir2phy

theorem Kernel.Stored.msgAddr (h : k.Stored k' o) (hq : o ≠ some q) : k'.msgAddr q va = k.msgAddr q va := by
  have hdir : k'.pageDir q = k.pageDir q := (h.spares q hq).pageDir
  unfold Kernel.msgAddr
  rw [h.vir2phy, hdir]

theorem Kernel.Stored.buf (h : k.Stored k' o) (hq : o ≠ some q) : k'.buf q = k.buf q := by
  have hmsg : k'.pMsg q = k.pMsg q := (h.spares q hq).pMsg
  unfold Kernel.buf
  rw [hmsg, h.msgAddr hq]

theorem Kernel.Stored.pending (h : k.Stored k' o) (hq : o ≠ some q) : k'.pending q = k.pending q :=
  pending_congr (h.buf hq) (congrFun h.memory _)

theorem Kernel.Stored.taskKept (h : k.Stored k' o) (hq : o ≠ some q) : TaskKept k k' q va := by
  refine ⟨(h.spares q hq).sending, (h.spares q hq).receving, fun _ => h.pending hq, fun _ => h.buf hq,
    h.msgAddr hq, ?_⟩
  unfold Kernel.msgAt
  rw [h.msgAddr hq, h.memory]

/-- **Stores in entries keep message passing intact.** -/
theorem Kernel.Stored.ipcInv (h : k.Stored k' none) (hi : IpcInv w k) : IpcInv w k' :=
  have hno : ∀ q : Pid, (none : Option Pid) ≠ some q := fun _ => nofun
  hi.settle (fun _ hq => hq) (fun q _ => (h.spares q (hno q)).pid) (fun q => (h.spares q (hno q)).sending)
    (fun q hq => ⟨(h.spares q (hno q)).receving.mp hq, (hi.receving q ((h.spares q (hno q)).receving.mp hq)).1⟩)
    (fun q hq => ⟨(hi.sending q hq).1, (hi.sending q hq).2.1⟩)
    (fun q _ => ⟨h.buf (hno q), h.pending (hno q), rfl⟩) (fun r => (h.spares r (hno r)).queneHead)
    fun q _ => (h.spares q (hno q)).queneBody

/-- Nobody is blocked in a send to a process with an empty queue. -/
theorem IpcInv.not_sendingTo (hi : IpcInv w k) (hnone : k.queneHead c = none) : ¬ k.SendingTo q c := by
  intro hq
  obtain ⟨l, hl⟩ := hi.quene c
  have hchain := hl.chain
  rw [hnone] at hchain
  have hmem : q ∈ l := (hl.mem_iff q).mpr hq
  rw [chain_none_iff.mp hchain] at hmem
  exact absurd hmem List.not_mem_nil

/-- **So does a process that goes**, when it is not blocked in a send: in the entry it has left, nobody is
blocked any more, and the queue is what it was. -/
theorem Kernel.Stored.ipcInv_gone (h : k.Stored k' (some c)) (hi : IpcInv w k) (howner : w'.owner = w.owner)
    (hlive : ∀ q, w'.live q → w.live q) (hstay : ∀ q, q ≠ c → w.live q → w'.live q)
    (hpid : w'.live c → k'.pid c = k.pid c) (hto : ∀ q, k.SendingTo q c → w'.live c)
    (hs : ¬ k.Sending c) (hs' : ¬ k'.Sending c) (hr' : ¬ k'.Receving c)
    (hhead : k'.queneHead c = k.queneHead c) : IpcInv w' k' := by
  have hne : ∀ {q}, q ≠ c → some c ≠ some q := fun hq he => hq (Option.some.inj he).symm
  have hsne : ∀ {q}, k.Sending q → q ≠ c := by
    rintro q hq rfl
    exact hs hq
  have hrne : ∀ {q}, k'.Receving q → q ≠ c := by
    rintro q hq rfl
    exact hr' hq
  have hrecv : ∀ {q}, k'.Receving q → k.Receving q := fun {q} hq =>
    (h.spares q (hne (hrne hq))).receving.mp hq
  refine hi.settle hlive ?_ ?_ ?_ ?_ ?_ ?_ ?_
  · intro q hq
    by_cases hqc : q = c
    · subst hqc
      exact hpid hq
    · exact (h.spares q (hne hqc)).pid
  · intro q
    by_cases hqc : q = c
    · subst hqc
      exact iff_of_false hs' hs
    · exact (h.spares q (hne hqc)).sending
  · intro q hq
    exact ⟨hrecv hq, hstay q (hrne hq) (hi.receving q (hrecv hq)).1⟩
  · intro q hq
    obtain ⟨hl, hlto, -⟩ := hi.sending q hq
    refine ⟨hstay q (hsne hq) hl, ?_⟩
    by_cases hqc : (k.pending q).receiver = c
    · rw [hqc]
      exact hto q ⟨hq, hqc⟩
    · exact hstay _ hqc hlto
  · intro q hq
    have hqc : q ≠ c := hq.elim hsne hrne
    exact ⟨h.buf (hne hqc), h.pending (hne hqc), by rw [howner]⟩
  · intro r
    by_cases hrc : r = c
    · subst hrc
      exact hhead
    · exact (h.spares r (hne hrc)).queneHead
  · exact fun q hq => (h.spares q (hne (hsne hq))).queneBody

/-- The effect of `EXIT_PROC`: the entry is cleared, one link may change, and a bit. -/
theorem ProcTable.exitProc_stored {table table' : ProcTable} {fuel : ℕ}
    (hcall : ProcTable.exitProc fuel table c = some table') :
    table.kernel.Stored table'.kernel (some c) ∧ table'.kernel.procTable c = default ∧
      table'.procBitmap = clearBit table.procBitmap c := by
  unfold ProcTable.exitProc at hcall
  obtain ⟨k₁, hk₁, rfl⟩ := Option.map_eq_some_iff.mp hcall
  -- up to here only a link of the list has changed
  have hlink : (∀ q, (table.kernel.procTable q).Spares (k₁.procTable q)) ∧
      k₁.memory = table.kernel.memory ∧ k₁.vir2phy = table.kernel.vir2phy := by
    have hsame : k₁ = unsuscribe table.kernel c ∨
        ∃ ff n, k₁ = (unsuscribe table.kernel c).setNext ff n := by
      cases hhead : (unsuscribe table.kernel c).procList with
      | none =>
        simp only [hhead, Option.some.injEq] at hk₁
        exact Or.inl hk₁.symm
      | some p =>
        simp only [hhead] at hk₁
        split at hk₁
        · exact Or.inl (Option.some.inj hk₁).symm
        · split at hk₁
          · exact Or.inr ⟨_, _, (Option.some.inj hk₁).symm⟩
          · exact Or.inl (Option.some.inj hk₁).symm
          · cases hk₁
    rcases hsame with rfl | ⟨ff, n, rfl⟩
    · exact ⟨fun q => .refl, rfl, rfl⟩
    · refine ⟨fun q => ?_, rfl, rfl⟩
      by_cases hq : q = ff
      · subst hq
        rw [Kernel.setNext, ProcTable.entry_modProc_self]
        exact ⟨rfl, rfl, rfl, rfl, rfl, Iff.rfl, Iff.rfl, Iff.rfl⟩
      · rw [Kernel.setNext, ProcTable.entry_modProc_of_ne hq]
        exact .refl
  have hleft : (k₁.modProc c fun _ => default).procTable c = default := ProcTable.entry_modProc_self
  refine ⟨⟨fun q hq => ?_, hlink.2.1, hlink.2.2⟩, hleft, rfl⟩
  have hqc : q ≠ c := fun he => hq (congrArg some he.symm)
  show (table.kernel.procTable q).Spares ((k₁.modProc c fun _ => default).procTable q)
  rw [ProcTable.entry_modProc_of_ne hqc]
  exact hlink.1 q

/-! ### `fork_proc` -/

/-- What `fork_proc` changes: the entry of the child, and memory nobody owned. -/
structure Kernel.Forked (w : World) (k k' : Kernel) (parent child : Pid) (dir : PageDir) : Prop where
  table : ∀ q, q ≠ child → k'.procTable q = k.procTable q
  pid_eq : k'.pid child = k.pid child
  status : k'.status child = k.status parent
  pMsg : k'.pMsg child = k.pMsg parent
  queneHead : k'.queneHead child = none
  vir2phy : ∀ d, d ≠ dir → k'.vir2phy d = k.vir2phy d
  memory : ∀ a, w.live (w.owner a) → k'.memory a = k.memory a

/-- The pages of a message include the one it starts in. -/
theorem mem_msgPages {msgVa : VAddr} (h : msgVa ≠ 0) : msgVa / pgSize ∈ msgPages msgVa := by
  unfold msgPages
  rw [if_neg h]
  split <;> simp

theorem forkCopy_child :
    (k.forkCopy pid parent child dir frame).procTable child =
      { k.procTable child with
        parentPid := pid
        stack := (k.procTable parent).stack
        pstack := (k.procTable parent).pstack
        pstackSize := (k.procTable parent).pstackSize
        queneBody := none
        queneHeadSendingToThisProcess := none
        pMsg := (k.procTable parent).pMsg
        pageDir := dir
        progInfo := (k.procTable parent).progInfo
        status := (k.procTable parent).status } :=
  Function.update_self _ _ _

/-- An address outside the new pages keeps what it holds. -/
theorem forkCopy_memory_of_none
    (hnone : (msgPages (k.pMsg parent)).find? (fun pg => frame pg = a / pgSize) = none) :
    (k.forkCopy pid parent child dir frame).memory a = k.memory a := by
  simp only [Kernel.forkCopy, Kernel.modProc, Kernel.copyParent, hnone]

/-- An address in a new page holds what the page of the parent does. -/
theorem forkCopy_memory_of_some {pg : ℕ}
    (hfind : (msgPages (k.pMsg parent)).find? (fun pg => frame pg = a / pgSize) = some pg) :
    (k.forkCopy pid parent child dir frame).memory a =
      k.memory (k.vir2phy (k.pageDir parent) (pgSize * pg + a % pgSize)) := by
  simp only [Kernel.forkCopy, Kernel.modProc, Kernel.copyParent, hfind]

theorem forked_forkCopy (hf : FreshPages w k (msgPages (k.pMsg parent)) dir frame) :
    Kernel.Forked w k (k.forkCopy pid parent child dir frame) parent child dir where
  table q hq := by
    show Function.update _ child _ q = _
    rw [Function.update_of_ne hq]
    rfl
  pid_eq := by
    show ((k.forkCopy pid parent child dir frame).procTable child).pid = _
    rw [forkCopy_child]
    rfl
  status := by
    show ((k.forkCopy pid parent child dir frame).procTable child).status = _
    rw [forkCopy_child]
    rfl
  pMsg := by
    show ((k.forkCopy pid parent child dir frame).procTable child).pMsg = _
    rw [forkCopy_child]
    rfl
  queneHead := by
    show ((k.forkCopy pid parent child dir frame).procTable child).queneHeadSendingToThisProcess = _
    rw [forkCopy_child]
  vir2phy d hd := Function.update_of_ne hd _ _
  memory a ha := by
    have hnone : (msgPages (k.pMsg parent)).find? (fun pg => frame pg = a / pgSize) = none := by
      rw [List.find?_eq_none]
      intro pg hpg he
      exact hf.free pg hpg a (of_decide_eq_true he) ha
    exact forkCopy_memory_of_none hnone

/-- **The child's message is a copy of the parent's**, in a page of its own. -/
theorem child_message (pid child : Pid) (hf : FreshPages w k (msgPages (k.pMsg parent)) dir frame)
    (hmsg : k.pMsg parent ≠ 0) :
    let k' := k.forkCopy pid parent child dir frame
    let w' := w.spawn child (msgPages (k.pMsg parent)) frame
    k'.pending child = k.pending parent ∧ k'.buf child ≠ 0 ∧ w'.owner (k'.buf child) = child := by
  intro k' w'
  set va := k.pMsg parent with hva
  have hpg : va / pgSize ∈ msgPages va := mem_msgPages hmsg
  have hpos : 0 < pgSize := by decide
  have hbuf : k'.buf child = pgSize * frame (va / pgSize) + va % pgSize := by
    show k'.vir2phy (k'.procTable child).pageDir (k'.procTable child).pMsg = _
    rw [forkCopy_child]
    show (Function.update k.vir2phy dir _ dir) va = _
    rw [Function.update_self, if_pos hpg]
  have hdiv : k'.buf child / pgSize = frame (va / pgSize) := by
    rw [hbuf, Nat.mul_add_div hpos, Nat.div_eq_of_lt (Nat.mod_lt _ hpos), Nat.add_zero]
  have hmod : k'.buf child % pgSize = va % pgSize := by
    rw [hbuf, Nat.mul_add_mod, Nat.mod_mod]
  refine ⟨?_, ?_, ?_⟩
  · have hfind : (msgPages va).find? (fun pg => frame pg = k'.buf child / pgSize) =
        some (va / pgSize) := by
      rw [hdiv]
      cases hfd : (msgPages va).find? (fun pg => frame pg = frame (va / pgSize)) with
      | none =>
        have := List.find?_eq_none.mp hfd _ hpg
        simp at this
      | some pg =>
        have hmem := List.mem_of_find?_eq_some hfd
        have heq : frame pg = frame (va / pgSize) := by simpa using List.find?_some hfd
        rw [hf.injective pg hmem _ hpg heq]
    have hcopy : k'.memory (k'.buf child) = _ := forkCopy_memory_of_some hfind
    rw [hmod, Nat.div_add_mod] at hcopy
    exact hcopy
  · have hne := hf.ne_zero _ hpg
    have h1 : 1 ≤ frame (va / pgSize) := Nat.one_le_iff_ne_zero.mpr hne
    have h2 : pgSize ≤ pgSize * frame (va / pgSize) := Nat.le_mul_of_pos_right _ h1
    rw [hbuf]
    exact Nat.ne_of_gt (Nat.lt_of_lt_of_le hpos (h2.trans (Nat.le_add_right _ _)))
  · exact if_pos ⟨va / pgSize, hpg, hdiv.symm⟩

theorem Kernel.Forked.taskKept (h : Kernel.Forked w k k' parent child dir) (hp : p ≠ child)
    (hdir : k.pageDir p ≠ dir) (hown : w.live (w.owner (k.msgAddr p va)))
    (hbufs : k.Sending p ∨ k.Receving p → w.live (w.owner (k.buf p))) : TaskKept k k' p va := by
  have htab := h.table p hp
  have hst : k'.status p = k.status p := congrArg Process.status htab
  have hdir' : k'.pageDir p = k.pageDir p := congrArg Process.pageDir htab
  have hpm : k'.pMsg p = k.pMsg p := congrArg Process.pMsg htab
  have haddr : ∀ va, k'.msgAddr p va = k.msgAddr p va := by
    intro va
    unfold msgAddr
    rw [hdir', h.vir2phy _ hdir]
  have hbuf : k'.buf p = k.buf p := by
    unfold Kernel.buf
    rw [hpm, haddr]
  refine ⟨is_congr_of_ne hst, is_congr_of_ne hst,
    fun hb => pending_congr hbuf (h.memory _ (hbufs hb)), fun _ => hbuf, haddr va, ?_⟩
  unfold Kernel.msgAt
  rw [haddr, h.memory _ hown]

/-- Whoever owned a cell that belonged to a live process owns it still. -/
theorem owner_spawn (hf : FreshPages w k pages dir frame) (ha : w.live (w.owner a)) :
    (w.spawn child pages frame).owner a = w.owner a := by
  refine if_neg ?_
  rintro ⟨pg, hpg, he⟩
  exact hf.free pg hpg a he ha

/-- **`fork_proc` of a parent that is asleep keeps message passing intact.** -/
theorem IpcInv.forkCopy (hi : IpcInv w k) (hdead : ¬ w.live child) (hlt : child < procAny)
    (hpid : k.pid child = child) (hr : k.Receving parent) (hmsg : k.pMsg parent ≠ 0)
    (hf : FreshPages w k (msgPages (k.pMsg parent)) dir frame) :
    IpcInv (w.spawn child (msgPages (k.pMsg parent)) frame)
      (k.forkCopy pid parent child dir frame) := by
  have hfk : Kernel.Forked w k (k.forkCopy pid parent child dir frame) parent child dir :=
    forked_forkCopy hf
  obtain ⟨hpend, hb0, hbown⟩ := child_message pid child hf hmsg
  have hlivec : (w.spawn child (msgPages (k.pMsg parent)) frame).live child := ⟨Or.inr rfl, hlt⟩
  have hchild : ∀ {mask}, (k.forkCopy pid parent child dir frame).Is child mask ↔ k.Is parent mask := by
    intro mask
    rw [Is, Is, hfk.status]
  have hblk : ∀ {q}, k.Sending q ∨ k.Receving q → w.live q ∧ w.live (w.owner (k.buf q)) := by
    intro q hq
    have hl : w.live q := hq.elim (fun h => (hi.sending q h).1) (fun h => (hi.receving q h).1)
    exact ⟨hl, by rw [(hi.own q hq).2]; exact hl⟩
  have hkept : ∀ {q}, q ≠ child → w.live q → (k.Sending q ∨ k.Receving q) →
      TaskKept k (k.forkCopy pid parent child dir frame) q (k.pMsg q) := fun hq hl hb =>
    hfk.taskKept hq (hf.dir_ne _ hl) (hblk hb).2 fun _ => (hblk hb).2
  refine hi.admit hdead ?_ ?_ ?_ ?_ ?_ ?_ ?_ hfk.queneHead ?_ ?_ ?_
  · intro q hq
    exact ⟨fun h => h.1.resolve_right hq, fun h => ⟨Or.inl h, w.live_lt q h⟩⟩
  · intro q hq
    exact congrArg Process.pid (hfk.table q hq)
  · intro _
    exact hfk.pid_eq.trans hpid
  · intro q hq
    exact is_congr_of_ne (congrArg Process.status (hfk.table q hq))
  · intro q hq
    exact is_congr_of_ne (congrArg Process.status (hfk.table q hq))
  · intro q hq
    have hqc : q ≠ child := fun he => hdead (he ▸ (hblk hq).1)
    have hk := hkept hqc (hblk hq).1 hq
    refine ⟨?_, hk.pending hq, owner_spawn hf (hblk hq).2⟩
    have hpm : (k.forkCopy pid parent child dir frame).pMsg q = k.pMsg q :=
      congrArg Process.pMsg (hfk.table q hqc)
    unfold Kernel.buf
    rw [hpm]
    exact hk.addr
  · intro q hq
    exact congrArg Process.queneHeadSendingToThisProcess (hfk.table q hq)
  · intro q hq
    exact congrArg Process.queneBody (hfk.table q hq)
  · intro hs
    exact hi.notBoth parent ⟨hchild.mp hs, hr⟩
  · intro _
    refine ⟨hlivec, ?_, hb0, hbown⟩
    rw [hpend]
    exact (hi.receving parent hr).2

end OmochaOS
