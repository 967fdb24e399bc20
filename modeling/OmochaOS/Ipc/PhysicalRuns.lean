import OmochaOS.Ipc.Deadlock
import OmochaOS.Ipc.Delivery
import OmochaOS.Ipc.PhysicalSteps

/-!
# Queues, rendezvous, circles and delivery on the bytes of memory

What every run of plain calls has, in every state it reaches:

* `quenes_of_plain` — the sender queues are exact;
* `rendezvous_of_plain` — a sender and a receiver that accept each other are never both asleep;
* `circles_of_plain` — there is no circular wait exactly as long as no send closes one;
* `delivery_of_plain` — messages arrive once and in order, as the processes see them.

A call whose buffer goes over into a page that is elsewhere in physical memory breaks all four: the message
that is delivered runs into the bytes behind the first page, which may be the message of a blocked process
(`strayed` below).
-/

namespace OmochaOS

open ByteMemory Paging BitFlags TransitionRun MessageBytes Kernel IntrusiveList AcyclicRelation Relation

variable {w w' : World} {k k' : Kernel} {s t s₀ : Machine} {m₀ : Memory} {dirs : Pid → PageDir}
  {fuel : ℕ} {p q r : Pid} {va f : ℕ} {e : Event} {tr : List (Transition Machine Event)}

/-! ### A buffer over two pages -/

/-- Five processes: number 1 has the frames `0x4000` and `0x8000`, the others one each. -/
def strayWorld : World where
  live p := 1 ≤ p ∧ p ≤ 5
  owner a := [0, 0, 0, 0, 1, 3, 2, 4, 1, 5].getD (a / 4096) 0
  live_lt _ hp := lt_of_le_of_lt hp.2 (by decide)

instance (p : Pid) : Decidable (strayWorld.live p) := inferInstanceAs (Decidable (1 ≤ p ∧ p ≤ 5))

/-- Number 1 has a page table, in which the page at `0x5000` is not the frame behind that at `0x4000`; the others
have the first four megabytes as they are.  Number 3 has a message for 2 at `0x5000`, number 4 one for 1 at `0x7000`
with the data 3, 5, 0 and 9, and numbers 5 and 2 have messages for 3 at `0x9000` and `0x6000`. -/
def strayBytes : Memory := fun x =>
  if x = 0x1000 then 0x83
  else if x = 0x2000 ∨ x = 0x3010 ∨ x = 0x3014 then 7
  else if x = 0x2001 then 0x30
  else if x = 0x3011 then 0x40
  else if x = 0x3015 then 0x80
  else if x = 0x5004 then 2
  else if x = 0x7004 then 1
  else if x = 0x7010 ∨ x = 0x9004 ∨ x = 0x6004 then 3
  else if x = 0x7014 then 5
  else if x = 0x701C then 9
  else 0

def strayStart : Machine where
  kernel :=
    { procTable := fun p =>
        { (default : Process) with
          pid := p
          pageDir := if p = 1 then 0x2000 else 0x1000
          status := procStatusRunning }
      procList := none
      procRunning := none
      memory := fun _ => default
      vir2phy := fun _ _ => 0
      interruptSuscribed := fun _ => 0
      interruptSuscribedData := fun _ => default
      exceptionSuscribed := fun _ => 0
      exceptionSuscribedData := fun _ => default
      screen := [] }
  bytes := strayBytes

theorem stray_byte {dir i j : ℕ} (hdir : dir = 0x1000 ∨ dir = 0x2000) (hi : i < 2 ^ 10) (hne : i ≠ 0) (hj : j < 4) :
    strayBytes (dir + 4 * i + j) = 0 := by
  simp only [strayBytes]
  rw [if_neg (by omega), if_neg (by omega), if_neg (by omega), if_neg (by omega), if_neg (by omega),
    if_neg (by omega), if_neg (by omega), if_neg (by omega), if_neg (by omega), if_neg (by omega)]

/-- Each directory has one entry. -/
theorem stray_word {dir i : ℕ} (hdir : dir = 0x1000 ∨ dir = 0x2000) (hi : i < 2 ^ 10) (hne : i ≠ 0) :
    readWord strayBytes (dir + 4 * i) = 0 := by
  have h₀ := stray_byte hdir hi hne (show 0 < 4 by decide)
  rw [Nat.add_zero] at h₀
  rw [readWord, h₀, stray_byte hdir hi hne (show 1 < 4 by decide), stray_byte hdir hi hne (show 2 < 4 by decide),
    stray_byte hdir hi hne (show 3 < 4 by decide)]
  rfl

theorem stray_walkByte {dir x : ℕ} (hdir : dir = 0x1000 ∨ dir = 0x2000) (h : WalkByte strayBytes dir va x) :
    x < 0x4000 := by
  have hindex : va / 2 ^ 22 % 2 ^ 10 < 2 ^ 10 := Nat.mod_lt _ (by decide)
  have hpage : va / 2 ^ 12 % 2 ^ 10 < 2 ^ 10 := Nat.mod_lt _ (by decide)
  rcases h with ⟨-, hx⟩ | ⟨hpresent, hlarge, -, hx⟩
  · omega
  by_cases hzero : va / 2 ^ 22 % 2 ^ 10 = 0
  · rw [hzero] at hx hlarge
    rcases hdir with rfl | rfl
    · exact absurd hlarge (by decide)
    · have htable : pageOf (readWord strayBytes (0x2000 + 4 * 0)) = 0x3000 := by decide
      rw [htable] at hx
      omega
  · rw [stray_word hdir hindex hzero] at hpresent
    exact absurd hpresent (by decide)

theorem stray_guarded : Guarded strayWorld strayStart.bytes strayStart.kernel.pageDir where
  null := by decide
  tables p va x hwalk hlive := by
    have hdir : (if p = 1 then 0x2000 else 0x1000) = 0x1000 ∨ (if p = 1 then 0x2000 else 0x1000) = 0x2000 := by
      split
      · exact Or.inr rfl
      · exact Or.inl rfl
    have hlow := stray_walkByte hdir hwalk
    have hframe : x / 4096 < 4 := by omega
    have hnone : ∀ i < 4, ¬ strayWorld.live ([0, 0, 0, 0, 1, 3, 2, 4, 1, 5].getD i 0) := by decide
    exact hnone _ hframe hlive

theorem stray_boot : Boot strayWorld strayStart.view := by
  have hstatus : ∀ p mask, ¬ Has procStatusRunning mask → ¬ strayStart.view.Is p mask := by
    intro p mask hnot
    rw [Kernel.Is, Kernel.status, view_procTable]
    exact hnot
  constructor
  case pid_eq => exact fun p _ => by rw [Kernel.pid, view_procTable]; rfl
  case quiet => exact fun p => ⟨hstatus p _ (by decide), hstatus p _ (by decide)⟩
  case queneHead => exact fun p => by rw [Kernel.queneHead, view_procTable]; rfl
  case noInterrupt => exact fun p => hstatus p _ (by decide)
  case noException => exact fun p => hstatus p _ (by decide)
  case noIrqData => exact fun _ => rfl
  case noExcData => exact fun _ => rfl

/-- After a send. -/
def MessageBytes.Machine.afterSend (s : Machine) (p : Pid) (va : VAddr) : Machine := (sendMsg 6 s p va).getD s

/-- After a receive. -/
def MessageBytes.Machine.afterRecv (s : Machine) (p : Pid) (va : VAddr) (f : ℕ) : Machine :=
  (recvMsg 6 s p va f).getD s

theorem stray_send (hlive : strayWorld.live p) (hawake : s.kernel.Awake p) (hbuf : strayWorld.OwnMessage s p va)
    (hto : strayWorld.live (messageAt s.bytes (s.view.msgAddr p va)).receiver) (hsome : (sendMsg 6 s p va).isSome) :
    MemStep strayWorld s (.send 6 p va) (s.afterSend p va) := by
  obtain ⟨t, ht⟩ := Option.isSome_iff_exists.mp hsome
  have hafter : s.afterSend p va = t := by rw [Machine.afterSend, ht, Option.getD_some]
  rw [hafter]
  exact .send hlive hawake hbuf hto ht

theorem stray_recv (hlive : strayWorld.live p) (hawake : s.kernel.Awake p) (hbuf : strayWorld.OwnMessage s p va)
    (hfilter : strayWorld.ValidFilter f) (hsome : (recvMsg 6 s p va f).isSome) :
    MemStep strayWorld s (.recv 6 p va f) (s.afterRecv p va f) := by
  obtain ⟨t, ht⟩ := Option.isSome_iff_exists.mp hsome
  have hafter : s.afterRecv p va f = t := by rw [Machine.afterRecv, ht, Option.getD_some]
  rw [hafter]
  exact .recv hlive hawake hbuf hfilter ht

theorem plain_of_buffer (he : e.buffer = some (p, va)) (hcont : Contiguous s.bytes (s.kernel.pageDir p) va) :
    s.Plain e := by
  intro q vb hq
  obtain ⟨rfl, rfl⟩ := Prod.mk.inj (Option.some.inj (he.symm.trans hq))
  exact hcont

theorem validFilter_any : strayWorld.ValidFilter procAny := Or.inr (Or.inl rfl)

/-- Number 3 is blocked in a send to 2. -/
def strayParked : Machine := strayStart.afterSend 3 0x5000

/-- Number 1 waits with a buffer at the end of its first page, and number 4 sends to it: the second half of the
message is copied behind the frame of that page, over the message of 3. -/
def MessageBytes.Machine.strayed (s : Machine) : Machine := (s.afterRecv 1 0x4FF0 procAny).afterSend 4 0x7000

theorem strayParked_step : MemStep strayWorld strayStart (.send 6 3 0x5000) strayParked :=
  stray_send (by decide) (by decide) (by decide +kernel) (by decide +kernel) (by decide +kernel)

/-! ### Queues -/

/-- The queue of every process is a finite list without duplicates of exactly the processes blocked with a message
for it; a blocked sender is in one queue only; nobody is blocked both ways; and no receive into a contiguous buffer
reaches the assertion or the panic about a sender missing from the queue. -/
structure QuenesExact (w : World) (s : Machine) : Prop where
  list : ∀ r, w.live r → ∃ l, Chain s.kernel.queneBody (s.kernel.queneHead r) l ∧ l.Nodup ∧
    ∀ q, q ∈ l ↔ s.kernel.Sending q ∧ (s.view.pending q).receiver = s.kernel.pid r
  one : ∀ q, s.kernel.Sending q → ∃! r, ∃ l, Chain s.kernel.queneBody (s.kernel.queneHead r) l ∧ q ∈ l
  notBoth : ∀ p, ¬ (s.kernel.Sending p ∧ s.kernel.Receving p)
  found : ∀ r va f, w.live r → s.kernel.Awake r → w.OwnMessage s r va →
    Contiguous s.bytes (s.kernel.pageDir r) va →
    (stampReceiver s r (s.view.msgAddr r va)).view.HasParked r f →
    (∀ fuel, queneSearch fuel s.kernel r f ≠ .missing ∧ queneSearch fuel s.kernel r f ≠ .nullHead) ∧
      ∃ n, ∀ fuel, n ≤ fuel → queneSearch fuel s.kernel r f ≠ .spinning

theorem view_queneHead : s.view.queneHead = s.kernel.queneHead := by
  funext q
  rw [Kernel.queneHead, Kernel.queneHead, view_procTable]

theorem view_queneBody : s.view.queneBody = s.kernel.queneBody := by
  funext q
  rw [Kernel.queneBody, Kernel.queneBody, view_procTable]

theorem view_pid : s.view.pid = s.kernel.pid := by
  funext q
  rw [Kernel.pid, Kernel.pid, view_procTable]

theorem view_sending_iff : s.view.Sending p ↔ s.kernel.Sending p := view_is_iff

theorem view_receving_iff : s.view.Receving p ↔ s.kernel.Receving p := view_is_iff

/-- The search looks at the links only. -/
theorem queneSearch_congr (h : k'.procTable = k.procTable) (fuel : ℕ) :
    queneSearch fuel k' r f = queneSearch fuel k r f := by
  have hhead : k'.queneHead = k.queneHead := by
    funext q
    rw [Kernel.queneHead, Kernel.queneHead, h]
  have hbody : k'.queneBody = k.queneBody := by
    funext q
    rw [Kernel.queneBody, Kernel.queneBody, h]
  rw [queneSearch, queneSearch, hhead, hbody]

theorem procTable_stampReceiver (k : Kernel) (p : Pid) (va : VAddr) : (k.stampReceiver p va).procTable = k.procTable := rfl

namespace MemInv

/-- An awake process with a contiguous buffer of its own can call. -/
theorem ready (h : MemInv w m₀ dirs s) (hlive : w.live p) (hawake : s.kernel.Awake p)
    (hbuf : w.OwnMessage s p va) (hcont : Contiguous s.bytes (s.kernel.pageDir p) va) (he : e.buffer = some (p, va)) :
    Ready w m₀ dirs s e := by
  refine ⟨h, fun q vb hq => ?_⟩
  obtain ⟨rfl, rfl⟩ := Prod.mk.inj (Option.some.inj (he.symm.trans hq))
  exact ⟨hlive, view_awake hawake, h.buffer hbuf hcont⟩

theorem quenesExact (hg : Guarded w m₀ dirs) (h : MemInv w m₀ dirs s) : QuenesExact w s where
  list r hr := by
    obtain ⟨l, hl⟩ := h.ipc.quene r
    have hmem := hl.mem_iff
    have hchain := hl.chain
    simp only [Kernel.SendingTo, view_sending_iff] at hmem
    rw [view_queneBody, view_queneHead] at hchain
    refine ⟨l, hchain, hl.nodup, fun q => ?_⟩
    rw [← view_pid, h.ipc.pid_eq r hr]
    exact hmem q
  one q hq := by
    have hone := h.ipc.unique_quene (view_sending_iff.mpr hq)
    rw [view_queneBody, view_queneHead] at hone
    exact hone
  notBoth p hp := h.ipc.notBoth p ⟨view_sending_iff.mpr hp.1, view_receving_iff.mpr hp.2⟩
  found r va f hr hawake hbuf hcont hparked := by
    have hready := h.ready (e := .recv 0 r va f) hr hawake hbuf hcont rfl
    have hown := hready.ownBuffer hg (rfl : Event.buffer (.recv 0 r va f) = some (r, va))
    have hrep := hready.represents.stampReceiver (hready.laid hg) hready.ipcInv hr hown
    have hi : IpcInv _ (s.view.stampReceiver r va) := hready.ipcInv.writeOwn (view_awake hawake) hown.2 _
    obtain ⟨hfound, n, hends⟩ := hready.ipcInv.search_succeeds hr (view_awake hawake) hown
      ((hrep.hasParked_iff hi).mp hparked)
    have htab := (procTable_stampReceiver s.view r va).trans view_procTable
    simp only [queneSearch_congr htab] at hfound hends
    exact ⟨hfound, n, hends⟩

end MemInv

/-- **Sender queues are exact** in every run of plain calls. -/
theorem quenes_of_plain (w : World) (s₀ s : Machine) (tr : List (Transition Machine Event))
    (hg : Guarded w s₀.bytes s₀.kernel.pageDir) (h₀ : Boot w s₀.view) (hrun : Run (MemStep w) s₀ tr s)
    (hplain : ∀ x ∈ tr, x.source.Plain x.label) : QuenesExact w s :=
  (MemInv.of_run hg h₀ hrun hplain).quenesExact hg

/-- Number 3 sends to 2 and has to wait. -/
theorem quenes_of_plain_demo : strayParked.kernel.Sending 3 ∧ QuenesExact strayWorld strayParked := by
  refine ⟨by decide +kernel, quenes_of_plain strayWorld strayStart strayParked _ stray_guarded stray_boot
    (Run.start.extend strayParked_step) fun x hx => ?_⟩
  obtain rfl := List.mem_singleton.mp hx
  exact plain_of_buffer rfl (by decide +kernel)

theorem stray_run : ∃ tr, Run (MemStep strayWorld) strayStart tr strayParked.strayed := by
  have hwait : MemStep strayWorld strayParked (.recv 6 1 0x4FF0 procAny) (strayParked.afterRecv 1 0x4FF0 procAny) :=
    stray_recv (by decide) (by decide +kernel) (by decide +kernel) validFilter_any (by decide +kernel)
  have hstray : MemStep strayWorld (strayParked.afterRecv 1 0x4FF0 procAny) (.send 6 4 0x7000) strayParked.strayed :=
    stray_send (by decide) (by decide +kernel) (by decide +kernel) (by decide +kernel) (by decide +kernel)
  exact ⟨_, ((Run.start.extend strayParked_step).extend hwait).extend hstray⟩

/-- **A queue with a message for somebody else.**  The message of 3, which is in the queue of 2, is now for 5. -/
theorem quene_strayed : ∃ tr s, Guarded strayWorld strayStart.bytes strayStart.kernel.pageDir ∧
    Boot strayWorld strayStart.view ∧ Run (MemStep strayWorld) strayStart tr s ∧ ¬ QuenesExact strayWorld s := by
  obtain ⟨tr, hrun⟩ := stray_run
  refine ⟨tr, _, stray_guarded, stray_boot, hrun, fun h => ?_⟩
  obtain ⟨l, hchain, -, hmem⟩ := h.list 2 (by decide)
  have hhead : strayParked.strayed.kernel.queneHead 2 = some 3 := by decide +kernel
  rw [hhead] at hchain
  obtain ⟨l', rfl, -⟩ := chain_some_iff.mp hchain
  have hto := ((hmem 3).mp List.mem_cons_self).2
  exact absurd hto (by decide +kernel)

/-! ### Rendezvous -/

/-- A process blocked in a receive left its buffer marked `ready`, and no process blocked in a send to it is one
its filter admits. -/
def NoneMissed (s : Machine) : Prop :=
  ∀ r, s.kernel.Receving r → (s.view.pending r).ready = true ∧
    ∀ q, s.kernel.Sending q → (s.view.pending q).receiver = s.kernel.pid r →
      ¬ ((s.view.pending r).sender = procAny ∨ (s.view.pending r).sender = s.kernel.pid q)

/-- **No missed rendezvous** in any run of plain calls. -/
theorem rendezvous_of_plain (w : World) (s₀ s : Machine) (tr : List (Transition Machine Event))
    (hg : Guarded w s₀.bytes s₀.kernel.pageDir) (h₀ : Boot w s₀.view) (hrun : Run (MemStep w) s₀ tr s)
    (hplain : ∀ x ∈ tr, x.source.Plain x.label) : NoneMissed s := by
  have h := MemInv.of_run hg h₀ hrun hplain
  intro r hr
  obtain ⟨hlive, hready⟩ := h.ipc.receving r (view_receving_iff.mpr hr)
  refine ⟨hready, fun q hq hto => ?_⟩
  have hq' : s.view.Sending q := view_sending_iff.mpr hq
  rw [← view_pid, h.ipc.pid_eq q (h.ipc.sending q hq').1]
  rw [← view_pid, h.ipc.pid_eq r hlive] at hto
  exact h.ipc.rendezvous r q (view_receving_iff.mpr hr) ⟨hq', hto⟩

/-- Number 3 sends to 2, and then 2 asks for a message of 4 and goes on waiting for it. -/
theorem rendezvous_of_plain_demo : ∃ tr s, Run (MemStep strayWorld) strayStart tr s ∧ s.kernel.Sending 3 ∧
    s.kernel.Receving 2 ∧ NoneMissed s := by
  have hask : MemStep strayWorld strayParked (.recv 6 2 0x6020 4) (strayParked.afterRecv 2 0x6020 4) :=
    stray_recv (by decide) (by decide +kernel) (by decide +kernel) (Or.inr (Or.inr (Or.inr (by decide))))
      (by decide +kernel)
  have hrun := (Run.start.extend strayParked_step).extend hask
  refine ⟨_, _, hrun, by decide +kernel, by decide +kernel,
    rendezvous_of_plain strayWorld strayStart _ _ stray_guarded stray_boot hrun fun x hx => ?_⟩
  rcases List.mem_cons.mp hx with rfl | hx
  · exact plain_of_buffer rfl (by decide +kernel)
  · obtain rfl := List.mem_singleton.mp hx
    exact plain_of_buffer rfl (by decide +kernel)

/-- Number 5 waits for anybody, and number 3 is blocked in a send to 2. -/
def strayWaiting : Machine := (strayStart.afterRecv 5 0x9020 procAny).afterSend 3 0x5000

/-- **A rendezvous missed.**  The message of 3 is now for 5, which waits for a message of anybody. -/
theorem rendezvous_strayed : ∃ tr s, Guarded strayWorld strayStart.bytes strayStart.kernel.pageDir ∧
    Boot strayWorld strayStart.view ∧ Run (MemStep strayWorld) strayStart tr s ∧ ¬ NoneMissed s := by
  have hask : MemStep strayWorld strayStart (.recv 6 5 0x9020 procAny) (strayStart.afterRecv 5 0x9020 procAny) :=
    stray_recv (by decide) (by decide +kernel) (by decide +kernel) validFilter_any (by decide +kernel)
  have hpark : MemStep strayWorld (strayStart.afterRecv 5 0x9020 procAny) (.send 6 3 0x5000) strayWaiting :=
    stray_send (by decide) (by decide +kernel) (by decide +kernel) (by decide +kernel) (by decide +kernel)
  have hwait : MemStep strayWorld strayWaiting (.recv 6 1 0x4FF0 procAny) (strayWaiting.afterRecv 1 0x4FF0 procAny) :=
    stray_recv (by decide) (by decide +kernel) (by decide +kernel) validFilter_any (by decide +kernel)
  have hstray : MemStep strayWorld (strayWaiting.afterRecv 1 0x4FF0 procAny) (.send 6 4 0x7000) strayWaiting.strayed :=
    stray_send (by decide) (by decide +kernel) (by decide +kernel) (by decide +kernel) (by decide +kernel)
  refine ⟨_, _, stray_guarded, stray_boot, (((Run.start.extend hask).extend hpark).extend hwait).extend hstray,
    fun h => ?_⟩
  exact (h 5 (by decide +kernel)).2 3 (by decide +kernel) (by decide +kernel) (Or.inl (by decide +kernel))

/-! ### Circular waits -/

/-- The walk of the deadlock check ends for every send with a contiguous message that can come next. -/
def CheckEnds (w : World) (s : Machine) : Prop :=
  ∀ p va, w.live p → s.kernel.Awake p → w.OwnMessage s p va → Contiguous s.bytes (s.kernel.pageDir p) va →
    w.live (messageAt s.bytes (s.view.msgAddr p va)).receiver →
    ∃ n, ∀ fuel, n ≤ fuel → (isDeadLock fuel (MessageBytes.stampSender s p (s.view.msgAddr p va)).view (s.kernel.pid p)
      (messageAt s.bytes (s.view.msgAddr p va)).receiver).isSome

/-- No process waits for itself, directly or through others, and the deadlock check ends. -/
def NoCircle (w : World) (s : Machine) : Prop := Acyclic s.view.SendingTo ∧ CheckEnds w s

namespace MemInv

theorem checkEnds (hg : Guarded w m₀ dirs) (h : MemInv w m₀ dirs s) (hac : Acyclic s.view.SendingTo) :
    CheckEnds w s := by
  intro p va hlive hawake hbuf hcont hto
  have hready := h.ready (e := .send 0 p va) hlive hawake hbuf hcont rfl
  have hown := hready.ownBuffer hg (rfl : Event.buffer (.send 0 p va) = some (p, va))
  have hrep := hready.represents.stampSender (hready.laid hg) hready.ipcInv hlive hown
  have hi : IpcInv _ (s.view.stampSender p va) := hready.ipcInv.writeOwn (view_awake hawake) hown.2 _
  have hreceiver : (s.view.stamped p va).receiver = (messageAt s.bytes (s.view.msgAddr p va)).receiver := by
    rw [Kernel.stamped, view_memory]
  rw [← hreceiver] at hto
  have hends := hready.ipcInv.walkEnds hac p va hlive (view_awake hawake) hown hto
  rw [h.ipc.pid_eq p hlive, hreceiver] at hends
  obtain ⟨n, hn⟩ := hends
  rw [← view_pid, h.ipc.pid_eq p hlive]
  refine ⟨n, fun fuel hf => ?_⟩
  rw [hrep.isDeadLock hi hlive]
  exact hn fuel hf

/-- **One step.**  A step out of a state without circles leads to one with a circle exactly when it is a send that
closes one. -/
theorem acyclic_step_iff (hg : Guarded w m₀ dirs) (h : MemInv w m₀ dirs s) (hac : Acyclic s.view.SendingTo)
    (hstep : MemStep w s e t) (hplain : s.Plain e) : Acyclic t.view.SendingTo ↔ ¬ s.view.ClosesCircle e := by
  by_cases hcall : ∀ p a msg, e ≠ .user p a msg
  · obtain ⟨hready, k, hmatch⟩ := h.call hg hstep hplain hcall
    rw [← hready.ipcInv.acyclic_step_iff hac hmatch.step]
    exact acyclic_congr fun q r => (hmatch.like hready).sendingTo_iff
  · cases hstep with
    | user hlive hawake hstore =>
      have hlike := h.like_store hawake hstore (h.kept_store hg hlive hstore)
      exact iff_of_true ((acyclic_congr fun q r => hlike.sendingTo_iff).mpr hac) id
    | send => exact absurd (fun _ _ _ he => by cases he) hcall
    | recv => exact absurd (fun _ _ _ he => by cases he) hcall
    | interrupt => exact absurd (fun _ _ _ he => by cases he) hcall
    | exception => exact absurd (fun _ _ _ he => by cases he) hcall

end MemInv

/-- **When there is no circular wait.**  The boot state has none, and a run of plain calls stays without one, and with
a deadlock check that ends, exactly when none of its sends closes a circle. -/
theorem circles_of_plain (w : World) (s₀ s : Machine) (tr : List (Transition Machine Event))
    (hg : Guarded w s₀.bytes s₀.kernel.pageDir) (h₀ : Boot w s₀.view) (hrun : Run (MemStep w) s₀ tr s)
    (hplain : ∀ x ∈ tr, x.source.Plain x.label) :
    NoCircle w s₀ ∧ ((∀ x ∈ tr, NoCircle w x.target) ↔ ∀ x ∈ tr, ¬ x.source.view.ClosesCircle x.label) := by
  have hstart : MemInv w s₀.bytes s₀.kernel.pageDir s₀ := MemInv.of_boot h₀
  refine ⟨⟨h₀.acyclic, hstart.checkEnds hg h₀.acyclic⟩, ?_⟩
  refine Run.forall_iff (fun s => MemInv w s₀.bytes s₀.kernel.pageDir s ∧ Acyclic s.view.SendingTo)
    (fun _ _ t => NoCircle w t) (fun s e _ => ¬ s.view.ClosesCircle e) (hrun.restrict hplain) ⟨hstart, h₀.acyclic⟩ ?_ ?_
  · intro s e t ⟨h, hac⟩ ⟨hstep, hok⟩
    rw [← h.acyclic_step_iff hg hac hstep hok]
    exact ⟨And.left, fun hac' => ⟨hac', (h.step hg hstep hok).checkEnds hg hac'⟩⟩
  · intro s e t ⟨h, _⟩ ⟨hstep, hok⟩ hfree
    exact ⟨h.step hg hstep hok, hfree.1⟩

/-- Number 3 sends to 2, which closes no circle. -/
theorem circles_of_plain_demo : ∃ tr s, Run (MemStep strayWorld) strayStart tr s ∧ s.kernel.Sending 3 ∧
    ∀ x ∈ tr, NoCircle strayWorld x.target := by
  have hrun := Run.start.extend strayParked_step
  refine ⟨_, _, hrun, by decide +kernel,
    (circles_of_plain strayWorld strayStart _ _ stray_guarded stray_boot hrun fun x hx => ?_).2.mpr fun x hx => ?_⟩
  · obtain rfl := List.mem_singleton.mp hx
    exact plain_of_buffer rfl (by decide +kernel)
  · obtain rfl := List.mem_singleton.mp hx
    -- nobody is blocked yet, so nothing leads on from number 2
    intro hpath
    rcases hpath.cases_head with he | ⟨q, hq, -⟩
    · exact absurd he (by decide +kernel)
    · exact stray_boot.quiet _ |>.1 hq.1

/-- Numbers 3 and 2 send to each other. -/
def strayCrossed : Machine := strayParked.afterSend 2 0x6000

/-- Number 5 is blocked in a send to 3, and 3 in one to 2. -/
def strayChain : Machine := strayParked.afterSend 5 0x9000

theorem strayCrossed_run : ∃ tr, Run (MemStep strayWorld) strayStart tr strayCrossed ∧
    ∀ x ∈ tr, x.source.Plain x.label := by
  have hback : MemStep strayWorld strayParked (.send 6 2 0x6000) strayCrossed :=
    stray_send (by decide) (by decide +kernel) (by decide +kernel) (by decide +kernel) (by decide +kernel)
  refine ⟨_, (Run.start.extend strayParked_step).extend hback, fun x hx => ?_⟩
  rcases List.mem_cons.mp hx with rfl | hx
  · exact plain_of_buffer rfl (by decide +kernel)
  · obtain rfl := List.mem_singleton.mp hx
    exact plain_of_buffer rfl (by decide +kernel)

theorem strayCrossed_spins : ¬ CheckEnds strayWorld strayCrossed := by
  intro h
  obtain ⟨n, hn⟩ := h 5 0x9000 (by decide) (by decide +kernel) (by decide +kernel) (by decide +kernel) (by decide +kernel)
  have h₁ : (MessageBytes.stampSender strayCrossed 5 (strayCrossed.view.msgAddr 5 0x9000)).view.SendingTo 3 2 := by
    decide +kernel
  have h₂ : (MessageBytes.stampSender strayCrossed 5 (strayCrossed.view.msgAddr 5 0x9000)).view.SendingTo 2 3 := by
    decide +kernel
  have hpid : strayCrossed.kernel.pid 5 = 5 := by decide +kernel
  have hto : (messageAt strayCrossed.bytes (strayCrossed.view.msgAddr 5 0x9000)).receiver = 3 := by decide +kernel
  have hends := hn n (Nat.le_refl n)
  rw [hpid, hto, isDeadLock, (deadLockWalk_spins h₁ h₂ (by decide) (by decide) n 3 n).1] at hends
  cases hends

/-- Nothing leads on from a process that is not blocked in a send. -/
theorem not_reaches (hs : ¬ k.Sending r) (hne : r ≠ p) : ¬ ReflTransGen k.SendingTo r p := by
  intro hpath
  rcases hpath.cases_head with he | ⟨q, hq, -⟩
  · exact hne he
  · exact hs hq.1

theorem strayChain_run : ∃ tr, Run (MemStep strayWorld) strayStart tr strayChain.strayed ∧
    ∀ x ∈ tr, ¬ x.source.view.ClosesCircle x.label := by
  have hchain : MemStep strayWorld strayParked (.send 6 5 0x9000) strayChain :=
    stray_send (by decide) (by decide +kernel) (by decide +kernel) (by decide +kernel) (by decide +kernel)
  have hwait : MemStep strayWorld strayChain (.recv 6 1 0x4FF0 procAny) (strayChain.afterRecv 1 0x4FF0 procAny) :=
    stray_recv (by decide) (by decide +kernel) (by decide +kernel) validFilter_any (by decide +kernel)
  have hstray : MemStep strayWorld (strayChain.afterRecv 1 0x4FF0 procAny) (.send 6 4 0x7000) strayChain.strayed :=
    stray_send (by decide) (by decide +kernel) (by decide +kernel) (by decide +kernel) (by decide +kernel)
  refine ⟨_, (((Run.start.extend strayParked_step).extend hchain).extend hwait).extend hstray, fun x hx => ?_⟩
  rcases List.mem_append.mp hx with hx | hx
  · rcases List.mem_append.mp hx with hx | hx
    · rcases List.mem_cons.mp hx with rfl | hx
      · exact not_reaches (by decide +kernel) (by decide +kernel)
      · obtain rfl := List.mem_singleton.mp hx
        -- number 3 leads to 2, which is not blocked
        intro hpath
        rcases hpath.cases_head with he | ⟨q, hq, hrest⟩
        · exact absurd he (by decide +kernel)
        · have hsecond : (strayParked.view.pending (strayParked.view.stamped 5 0x9000).receiver).receiver = 2 := by
            decide +kernel
          rw [← hq.2, hsecond] at hrest
          exact not_reaches (by decide +kernel) (by decide) hrest
    · obtain rfl := List.mem_singleton.mp hx
      exact id
  · obtain rfl := List.mem_singleton.mp hx
    exact not_reaches (by decide +kernel) (by decide +kernel)

/-- **Circles.**  The send of 2 back to 3 closes one, and the check for a send of 5 to 3 then never ends.  And in a
run in which no send closes one, the message of 3 becomes one for 5, which waits for 3. -/
theorem circle_strayed : Guarded strayWorld strayStart.bytes strayStart.kernel.pageDir ∧
    Boot strayWorld strayStart.view ∧
    (∃ tr s, Run (MemStep strayWorld) strayStart tr s ∧ (∀ x ∈ tr, x.source.Plain x.label) ∧
      ¬ Acyclic s.view.SendingTo ∧ ¬ CheckEnds strayWorld s) ∧
    ∃ tr s, Run (MemStep strayWorld) strayStart tr s ∧ (∀ x ∈ tr, ¬ x.source.view.ClosesCircle x.label) ∧
      ¬ Acyclic s.view.SendingTo := by
  refine ⟨stray_guarded, stray_boot, ?_, ?_⟩
  · obtain ⟨tr, hrun, hplain⟩ := strayCrossed_run
    have h₁ : strayCrossed.view.SendingTo 3 2 := by decide +kernel
    have h₂ : strayCrossed.view.SendingTo 2 3 := by decide +kernel
    exact ⟨tr, _, hrun, hplain, fun hac => hac 3 ((TransGen.single h₁).tail h₂), strayCrossed_spins⟩
  · obtain ⟨tr, hrun, hopen⟩ := strayChain_run
    have h₁ : strayChain.strayed.view.SendingTo 3 5 := by decide +kernel
    have h₂ : strayChain.strayed.view.SendingTo 5 3 := by decide +kernel
    exact ⟨tr, _, hrun, hopen, fun hac => hac 3 ((TransGen.single h₁).tail h₂)⟩

/-! ### What the processes see -/

namespace MessageBytes

/-- The bytes that `p` reads at its own addresses. -/
def Machine.reads (s : Machine) (p : Pid) : Memory := fun va =>
  ((Paging.translate (readWord s.bytes) (s.kernel.pageDir p) va).map s.bytes).getD 0

/-- The message that `p` has at an address of its own. -/
def Machine.seen (s : Machine) (p : Pid) (va : VAddr) : Message := messageAt (s.reads p) va

/-- The receive of `r` that returns in the step to `t`, if `r` was asleep and is not any more. -/
def Machine.wokenWith (s t : Machine) (r : Pid) : List (Pid × Message) :=
  if s.kernel.Receving r ∧ ¬ t.kernel.Receving r then [(r, t.seen r (s.kernel.pMsg r))] else []

/-- The receives that return in a step, each with the message its process then sees. -/
def Machine.returns (s : Machine) (e : Event) (t : Machine) : List (Pid × Message) :=
  match e with
  | .user _ _ _ => []
  | .send _ p va => s.wokenWith t (s.seen p va).receiver
  | .recv _ p va f => if f ≠ 0 ∧ ¬ t.kernel.Receving p then [(p, t.seen p va)] else []
  | .interrupt _ pid => s.wokenWith t pid
  | .exception _ _ pid => s.wokenWith t pid

/-- What is sent in a step: the message its process sees, with its own number on it. -/
def Machine.posted (s : Machine) : Event → List Sent
  | .send _ p va => [⟨p, (s.seen p va).receiver, { (s.seen p va).letter with sender := p }⟩]
  | _ => []

/-- Who joins the processes blocked on `r` in a step. -/
def Machine.blockedOn (s : Machine) (e : Event) (t : Machine) (r : Pid) : List Pid :=
  match e with
  | .send _ p va => if (s.seen p va).receiver = r ∧ t.kernel.Sending p then [p] else []
  | _ => []

end MessageBytes

/-- The history after a step, written from what the processes see. -/
def History.recordSeen (h : History) (s : Machine) (e : Event) (t : Machine) : History where
  kernel := t.view
  sent := h.sent ++ s.posted e
  received := h.received ++ (s.returns e t).map fun x => ⟨x.1, h.asked e x.1, x.2⟩
  filter := h.asked e
  waiting r := (h.waiting r ++ s.blockedOn e t r).filter fun q => t.kernel.Sending q

/-- A step of the system, recorded. -/
inductive MemLogStep (w : World) : Machine × History → Event → Machine × History → Prop
  | record {s t : Machine} {h : History} {e : Event} (hstep : MemStep w s e t) :
      MemLogStep w (s, h) e (t, h.recordSeen s e t)

theorem Like.deliveryInv {h : History} (hd : DeliveryInv w h) (hlike : Like h.kernel k') (hi' : IpcInv w' k')
    (hlive : w'.live = w.live) : DeliveryInv w' { h with kernel := k' } where
  ipc := hi'
  filter r hr := by
    have hr' := hlike.is_iff.mp hr
    show (k'.pending r).sender = h.filter r
    rw [hlike.pending r (Or.inr hr')]
    exact hd.filter r hr'
  stamped r hr := by
    have hr' := hlike.is_iff.mp hr
    show (k'.pending r).receiver = r
    rw [hlike.pending r (Or.inr hr')]
    exact hd.stamped r hr'
  exact s hs := by
    have hout : History.outstanding { h with kernel := k' } s = h.outstanding s := by
      show (if k'.Sending s then [((k'.pending s).receiver, (k'.pending s).letter)] else []) =
        if h.kernel.Sending s then [((h.kernel.pending s).receiver, (h.kernel.pending s).letter)] else []
      by_cases hk : h.kernel.Sending s
      · rw [if_pos (hlike.is_iff.mpr hk), if_pos hk, hlike.pending s (Or.inl hk)]
      · rw [if_neg fun hc => hk (hlike.is_iff.mp hc), if_neg hk]
    rw [hout]
    exact hd.exact s (hlive ▸ hs)
  addressed := hd.addressed
  filtered := hd.filtered
  waiting r := hlike.queneOf (hd.waiting r)

/-- In a contiguous buffer a process sees what is behind its first byte. -/
theorem MessageBytes.seen_of_contiguous {p : Pid} (h : Contiguous s.bytes (s.kernel.pageDir p) va) :
    s.seen p va = messageAt s.bytes (vir2phy (readWord s.bytes) (s.kernel.pageDir p) va) := by
  refine messageAt_congr fun i hi => ?_
  rw [Machine.reads, h i hi, Option.map_some, Option.getD_some]

theorem MemInv.seen (h : MemInv w m₀ dirs s) (hb : Buffer w m₀ dirs p va) :
    s.seen p va = messageAt s.bytes (vir2phy (readWord m₀) (dirs p) va) := by
  rw [seen_of_contiguous (h.contiguous_iff.mpr hb.contiguous), h.sameDirs, (h.walk p va).2]

namespace Matched

variable {h : History}

/-- A buffer in use has the bytes of its cell after the step. -/
theorem seen_after (hmatch : Matched w m₀ dirs s e t k) (hready : MemInv.Ready w m₀ dirs s e) (hu : s.Uses e p va) :
    t.seen p va = k.memory (s.view.msgAddr p va) := by
  have hlive : (w.restrict (s.Cells m₀ dirs e)).live
      ((w.restrict (s.Cells m₀ dirs e)).owner (vir2phy (readWord m₀) (dirs p) va)) := by
    rw [hready.owner hu]
    exact (hready.uses hu).1
  rw [(hmatch.memInv hready).seen (hready.uses hu).2, hready.inv.msgAddr, hmatch.represents.memory _ hlive]

theorem wokenWith (hmatch : Matched w m₀ dirs s e t k) (hready : MemInv.Ready w m₀ dirs s e) :
    s.wokenWith t r = s.view.wokenWith k r := by
  have hrecv : t.kernel.Receving r ↔ k.Receving r := view_receving_iff.symm.trans (hmatch.like hready).is_iff
  rw [Machine.wokenWith, Kernel.wokenWith]
  simp only [hrecv, view_receving_iff]
  split
  · rename_i hwoken
    have hseen := hmatch.seen_after hready (Or.inl ⟨Or.inr (view_receving_iff.mpr hwoken.1), rfl⟩)
    rw [hseen, Kernel.buf, view_pMsg]
  · rfl

theorem stamped (hready : MemInv.Ready w m₀ dirs s e) (he : e.buffer = some (p, va)) :
    s.view.stamped p va = { s.seen p va with sender := p } := by
  rw [Kernel.stamped, view_memory, hready.inv.msgAddr, hready.inv.seen (hready.buffer p va he).2.2]

/-- What the processes see is in the cells. -/
theorem returns (hmatch : Matched w m₀ dirs s e t k) (hready : MemInv.Ready w m₀ dirs s e) :
    s.returns e t = s.view.returns e k := by
  cases e with
  | send fuel p va => rw [Machine.returns, Kernel.returns, hmatch.wokenWith hready, stamped hready rfl]
  | recv fuel p va f =>
    have hrecv : t.kernel.Receving p ↔ k.Receving p := view_receving_iff.symm.trans (hmatch.like hready).is_iff
    rw [Machine.returns, Kernel.returns, hmatch.seen_after hready (Or.inr rfl)]
    simp only [hrecv]
  | user => rfl
  | interrupt irq pid => exact hmatch.wokenWith hready
  | exception exc data pid => exact hmatch.wokenWith hready

/-- **The record of a matched step** is that of the cells. -/
theorem recordSeen (hmatch : Matched w m₀ dirs s e t k) (hready : MemInv.Ready w m₀ dirs s e)
    (hk : h.kernel = s.view) : h.recordSeen s e t = { h.record e k with kernel := t.view } := by
  have hsending : ∀ q, t.kernel.Sending q ↔ k.Sending q := fun q =>
    view_sending_iff.symm.trans (hmatch.like hready).is_iff
  have hposted : s.posted e = h.posted e := by
    cases e with
    | send fuel p va => rw [Machine.posted, History.posted, hk, stamped hready rfl, Message.letter, Message.letter]
    | user => rfl
    | recv => rfl
    | interrupt => rfl
    | exception => rfl
  have hblocked : ∀ r, s.blockedOn e t r = h.blockedOn e k r := by
    intro r
    cases e with
    | send fuel p va =>
      rw [Machine.blockedOn, History.blockedOn, hk, stamped hready rfl]
      simp only [hsending]
    | user => rfl
    | recv => rfl
    | interrupt => rfl
    | exception => rfl
  rw [History.recordSeen, History.record, hposted, hmatch.returns hready, ← hk]
  simp only [hblocked, hsending]
  rfl

end Matched

/-- What holds of a recorded run of plain calls. -/
structure LogInv (w : World) (m₀ : Memory) (dirs : Pid → PageDir) (x : Machine × History) : Prop where
  inv : MemInv w m₀ dirs x.1
  kernel : x.2.kernel = x.1.view
  delivery : DeliveryInv w x.2

namespace LogInv

variable {x y : Machine × History}

/-- With just the buffers in use as cells. -/
theorem restricted (h : LogInv w m₀ dirs x) (hready : MemInv.Ready w m₀ dirs x.1 e) :
    DeliveryInv (w.restrict (x.1.Cells m₀ dirs e)) x.2 := by
  have hlike : Like x.2.kernel x.2.kernel := ⟨rfl, fun _ _ => rfl, fun _ _ => rfl⟩
  refine hlike.deliveryInv h.delivery ?_ rfl
  rw [h.kernel]
  exact hready.ipcInv

/-- A store in one's own bytes. -/
theorem store {p : Pid} {m : Memory} (hg : Guarded w m₀ dirs) (h : LogInv w m₀ dirs x) (hlive : w.live p)
    (hawake : x.1.kernel.Awake p) (hstore : ∀ a, w.owner a ≠ p → m a = x.1.bytes a) {a : PAddr} {msg : Message} :
    LogInv w m₀ dirs ({ x.1 with bytes := m }, x.2.recordSeen x.1 (.user p a msg) { x.1 with bytes := m }) := by
  have hinv := h.inv.store hg hlive hawake hstore
  have hlike := h.inv.like_store hawake hstore (h.inv.kept_store hg hlive hstore)
  rw [← h.kernel] at hlike
  refine ⟨hinv, rfl, ?_⟩
  have hwaiting : ∀ r, ((x.2.waiting r ++ []).filter fun q => x.1.kernel.Sending q) = x.2.waiting r := by
    intro r
    rw [List.append_nil, List.filter_eq_self]
    intro q hq
    have hs := ((h.delivery.waiting r).mem_iff q).mp hq
    rw [h.kernel] at hs
    exact decide_eq_true (view_sending_iff.mp hs.1)
  have hrecord : x.2.recordSeen x.1 (.user p a msg) { x.1 with bytes := m } =
      { x.2 with kernel := Machine.view { x.1 with bytes := m } } := by
    rw [History.recordSeen]
    simp only [Machine.posted, Machine.returns, Machine.blockedOn, History.asked, List.append_nil, List.map_nil]
    congr 1
    funext r
    rw [← hwaiting r, List.append_nil]
    simp only [List.filter_filter, Bool.and_self]
  rw [hrecord]
  exact hlike.deliveryInv h.delivery hinv.ipc rfl

/-- **A recorded step with a plain buffer keeps it.** -/
theorem step (hg : Guarded w m₀ dirs) (h : LogInv w m₀ dirs x) (hstep : MemLogStep w x e y) (hplain : x.1.Plain e) :
    LogInv w m₀ dirs y := by
  obtain ⟨hstep⟩ := hstep
  rename_i s t g
  by_cases hcall : ∀ p a msg, e ≠ .user p a msg
  · obtain ⟨hready, k, hmatch⟩ := h.inv.call hg hstep hplain hcall
    refine ⟨hmatch.memInv hready, rfl, ?_⟩
    have hkernel : g.kernel = s.view := h.kernel
    have hd : DeliveryInv _ (g.record e k) := (h.restricted hready).step (.record (by
      show Step _ g.kernel e k
      rw [hkernel]
      exact hmatch.step))
    show DeliveryInv w (g.recordSeen s e t)
    rw [hmatch.recordSeen hready hkernel]
    exact (hmatch.like hready).deliveryInv hd (hmatch.memInv hready).ipc rfl
  · cases hstep with
    | user hlive hawake hstore => exact h.store hg hlive hawake hstore
    | send => exact absurd (fun _ _ _ he => by cases he) hcall
    | recv => exact absurd (fun _ _ _ he => by cases he) hcall
    | interrupt => exact absurd (fun _ _ _ he => by cases he) hcall
    | exception => exact absurd (fun _ _ _ he => by cases he) hcall

theorem of_run {tr : List (Transition (Machine × History) Event)} (hg : Guarded w s₀.bytes s₀.kernel.pageDir)
    (h₀ : Boot w s₀.view) (hrun : Run (MemLogStep w) (s₀, History.start s₀.view) tr x)
    (hplain : ∀ y ∈ tr, y.source.1.Plain y.label) : LogInv w s₀.bytes s₀.kernel.pageDir x :=
  hrun.invariant_of_forall (P := fun x e _ => x.1.Plain e) ⟨MemInv.of_boot h₀, rfl, h₀.deliveryInv⟩
    (fun _ _ _ h hstep hok => h.step hg hstep hok) hplain

/-- An unfiltered receive that is not answered by a notification takes the sender that has been blocked longest. -/
theorem head_of_returned {m : Message} (hg : Guarded w m₀ dirs) (h : LogInv w m₀ dirs x)
    (hstep : MemLogStep w x (.recv fuel p va procAny) y) (hplain : x.1.Plain (.recv fuel p va procAny))
    (hret : (p, m) ∈ x.1.returns (.recv fuel p va procAny) y.1) (hm : m.sender ≠ procInterrupt) :
    (x.2.waiting p).head? = some m.sender := by
  obtain ⟨hstep⟩ := hstep
  rename_i s t g
  obtain ⟨hready, k, hmatch⟩ := h.inv.call hg hstep hplain fun _ _ _ he => by cases he
  have hkernel : g.kernel = s.view := h.kernel
  have hlog : LogStep (w.restrict (s.Cells m₀ dirs (.recv fuel p va procAny))) g (.recv fuel p va procAny)
      (g.record (.recv fuel p va procAny) k) := .record (by
    rw [hkernel]
    exact hmatch.step)
  refine (h.restricted hready).head_of_returned hlog ?_ hm
  have hreturns : g.kernel.returns (.recv fuel p va procAny) k = s.returns (.recv fuel p va procAny) t := by
    rw [hkernel]
    exact (hmatch.returns hready).symm
  rw [History.returned]
  refine List.mem_map.mpr ⟨(p, m), hreturns ▸ hret, ?_⟩
  show (⟨p, Function.update g.filter p procAny p, m⟩ : Received) = _
  rw [Function.update_self]

end LogInv

/-- **Exactly-once, in-order delivery** in every run of plain calls, of the messages that the processes see; and
unfiltered receives take the blocked senders in the order in which they blocked. -/
theorem delivery_of_plain (w : World) (s₀ : Machine) (x : Machine × History)
    (tr : List (Transition (Machine × History) Event)) (hg : Guarded w s₀.bytes s₀.kernel.pageDir)
    (h₀ : Boot w s₀.view) (hrun : Run (MemLogStep w) (s₀, History.start s₀.view) tr x)
    (hplain : ∀ y ∈ tr, y.source.1.Plain y.label) :
    Delivered w x.2 ∧
    ∀ y ∈ tr, ∀ fuel p va m, y.label = .recv fuel p va procAny →
      (p, m) ∈ y.source.1.returns y.label y.target.1 → m.sender ≠ procInterrupt →
      (y.source.2.waiting p).head? = some m.sender := by
  refine ⟨(LogInv.of_run hg h₀ hrun hplain).delivery.delivered, ?_⟩
  intro y hy fuel p va m hlabel hret hm
  have hok := hplain y hy
  have hstep := (hrun.step_of_mem hy).1
  have hinv := (hrun.invariant_of_forall_mem (P := fun x e _ => x.1.Plain e)
    (⟨MemInv.of_boot h₀, rfl, h₀.deliveryInv⟩ : LogInv w s₀.bytes s₀.kernel.pageDir _)
    (fun _ _ _ h hstep hok => h.step hg hstep hok) hplain hy).1
  rw [hlabel] at hok hstep hret
  exact hinv.head_of_returned hg hstep hok hret hm

theorem stray_log {h : History} (hstep : MemStep strayWorld s e t) :
    MemLogStep strayWorld (s, h) e (t, h.recordSeen s e t) := .record hstep

theorem strayTaken_step : MemStep strayWorld strayParked (.recv 6 2 0x6020 procAny)
    (strayParked.afterRecv 2 0x6020 procAny) :=
  stray_recv (by decide) (by decide +kernel) (by decide +kernel) validFilter_any (by decide +kernel)

/-- Number 3 sends to 2, and 2 receives. -/
theorem delivery_of_plain_demo : ∃ tr x, Run (MemLogStep strayWorld) (strayStart, History.start strayStart.view) tr x ∧
    x.2.received.length = 1 ∧ Delivered strayWorld x.2 := by
  have hrun := (Run.start.extend (stray_log (h := History.start strayStart.view) strayParked_step)).extend
    (stray_log strayTaken_step)
  refine ⟨_, _, hrun, by decide +kernel,
    (delivery_of_plain strayWorld strayStart _ _ stray_guarded stray_boot hrun fun x hx => ?_).1⟩
  rcases List.mem_cons.mp hx with rfl | hx
  · exact plain_of_buffer rfl (by decide +kernel)
  · obtain rfl := List.mem_singleton.mp hx
    exact plain_of_buffer rfl (by decide +kernel)

/-- Number 2 has received from anybody after the delivery that strayed. -/
def strayTaken : Machine := strayParked.strayed.afterRecv 2 0x6020 procAny

/-- The record before that receive. -/
def strayRecord : History :=
  ((History.start strayStart.view).recordSeen strayStart (.send 6 3 0x5000) strayParked |>.recordSeen strayParked
    (.recv 6 1 0x4FF0 procAny) (strayParked.afterRecv 1 0x4FF0 procAny)).recordSeen
    (strayParked.afterRecv 1 0x4FF0 procAny) (.send 6 4 0x7000) strayParked.strayed

theorem strayRecord_run : ∃ tr, Run (MemLogStep strayWorld) (strayStart, History.start strayStart.view) tr
    (strayTaken, strayRecord.recordSeen strayParked.strayed (.recv 6 2 0x6020 procAny) strayTaken) := by
  have hwait : MemStep strayWorld strayParked (.recv 6 1 0x4FF0 procAny) (strayParked.afterRecv 1 0x4FF0 procAny) :=
    stray_recv (by decide) (by decide +kernel) (by decide +kernel) validFilter_any (by decide +kernel)
  have hstray : MemStep strayWorld (strayParked.afterRecv 1 0x4FF0 procAny) (.send 6 4 0x7000) strayParked.strayed :=
    stray_send (by decide) (by decide +kernel) (by decide +kernel) (by decide +kernel) (by decide +kernel)
  have htake : MemStep strayWorld strayParked.strayed (.recv 6 2 0x6020 procAny) strayTaken :=
    stray_recv (by decide) (by decide +kernel) (by decide +kernel) validFilter_any (by decide +kernel)
  exact ⟨_, (((Run.start.extend (stray_log strayParked_step)).extend (stray_log hwait)).extend
    (stray_log hstray)).extend (stray_log htake)⟩

/-- Two messages have been sent, with the majors of their senders. -/
theorem strayRecord_sent {z : Sent} (hz : z ∈ strayRecord.sent) : z.letter.major = 0 := by
  have h₃ : (strayStart.seen 3 0x5000).major = 0 := by decide +kernel
  have h₄ : ((strayParked.afterRecv 1 0x4FF0 procAny).seen 4 0x7000).major = 0 := by decide +kernel
  rcases List.mem_append.mp hz with hz | hz
  · rcases List.mem_append.mp hz with hz | hz
    · obtain rfl := List.mem_singleton.mp hz
      exact h₃
    · cases hz
  · obtain rfl := List.mem_singleton.mp hz
    exact h₄

theorem strayTaken_returns : strayParked.strayed.returns (.recv 6 2 0x6020 procAny) strayTaken =
    [(2, strayTaken.seen 2 0x6020)] := by
  have hawake : ¬ strayTaken.kernel.Receving 2 := by decide +kernel
  have hfilter : procAny ≠ 0 := by decide
  rw [Machine.returns, if_pos ⟨hfilter, hawake⟩]

/-- **A message to somebody else.**  Number 2 receives a message of 3 that is for 5, with a letter nobody sent. -/
theorem delivery_strayed : ∃ tr x, Guarded strayWorld strayStart.bytes strayStart.kernel.pageDir ∧
    Boot strayWorld strayStart.view ∧ Run (MemLogStep strayWorld) (strayStart, History.start strayStart.view) tr x ∧
    (∃ y ∈ x.2.received, y.dst = 2 ∧ y.message.sender = 3 ∧ y.message.receiver = 5 ∧
      ∀ z ∈ x.2.sent, z.letter ≠ y.message.letter) ∧ ¬ Delivered strayWorld x.2 := by
  obtain ⟨tr, hrun⟩ := strayRecord_run
  have hreceiver : (strayTaken.seen 2 0x6020).receiver = 5 := by decide +kernel
  have hmajor : (strayTaken.seen 2 0x6020).major = 9 := by decide +kernel
  have hsender : (strayTaken.seen 2 0x6020).sender = 3 := by decide +kernel
  have hmem : (⟨2, procAny, strayTaken.seen 2 0x6020⟩ : Received) ∈
      (strayRecord.recordSeen strayParked.strayed (.recv 6 2 0x6020 procAny) strayTaken).received := by
    refine List.mem_append_right _ (List.mem_map.mpr ⟨(2, strayTaken.seen 2 0x6020), ?_, ?_⟩)
    · rw [strayTaken_returns]
      exact List.mem_singleton_self _
    · show (⟨2, Function.update strayRecord.filter 2 procAny 2, _⟩ : Received) = _
      rw [Function.update_self]
  refine ⟨tr, _, stray_guarded, stray_boot, hrun, ⟨_, hmem, rfl, hsender, hreceiver, fun z hz he => ?_⟩, fun h => ?_⟩
  · rcases List.mem_append.mp hz with hz | hz
    · have hzero := strayRecord_sent hz
      rw [he] at hzero
      exact absurd (hmajor.symm.trans hzero) (by decide)
    · cases hz
  · have haddressed := h.addressed _ hmem
    exact absurd (hreceiver.symm.trans haddressed) (by decide)

end OmochaOS
