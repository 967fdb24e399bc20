import OmochaOS.Ipc.Notice
import OmochaOS.Ipc.Rendezvous

/-!
# Interrupts and their subscribers

Pending interrupts sit in one table for all processes; a process with one of its own pending carries
the `GOTINT` bit.  A receive that finds the bit set takes the lowest pending interrupt of the table,
whoever subscribed it, and drops the bit unless it met a second one, whoever subscribed that.

An `IrqLog` adds to the kernel state how often each interrupt has been raised since it was last
delivered.  `interruptsSound_iff` says when a run delivers interrupts to their subscribers only, and
only raised ones, and keeps `GOTINT` exact: when every receive that takes a pending interrupt finds
one of the caller's own lowest, and another interrupt pending only together with another of the
caller's own.
-/

namespace OmochaOS

open TransitionRun BitFlags Kernel

variable {w : World} {k k' k₀ : Kernel} {p q r : Pid} {va : VAddr} {f fuel i : ℕ} {m : Message}
  {e : Event}

/-- Interrupt `i` is pending and `r` has subscribed it. -/
def Kernel.Own (k : Kernel) (r : Pid) (i : ℕ) : Prop :=
  i ∈ pendingSlots k.interruptSuscribedData hwIrqCount ∧ k.interruptSuscribed i = k.pid r

/-- Some interrupt subscribed by `r` is pending. -/
def Kernel.HasOwn (k : Kernel) (r : Pid) : Prop := ∃ i, k.Own r i

/-- The interrupts delivered in a step, each with its receiver. -/
def Kernel.interruptsDelivered (k : Kernel) (e : Event) (k' : Kernel) : List (Pid × ℕ) :=
  ((k.returns e k').filter fun x => x.2.sender = procInterrupt ∧ x.2.type = msgInterrupt).map
    fun x => (x.1, x.2.major)

structure IrqLog where
  kernel : Kernel
  /-- how often each interrupt has been raised since it was last delivered -/
  raised : ℕ → ℕ

namespace IrqLog

/-- The counts once the event has happened, before anything is delivered. -/
def counts (h : IrqLog) : Event → ℕ → ℕ
  | .interrupt irq _ => Function.update h.raised irq (h.raised irq + 1)
  | _ => h.raised

def record (h : IrqLog) (e : Event) (k' : Kernel) : IrqLog where
  kernel := k'
  raised i :=
    if i ∈ (h.kernel.interruptsDelivered e k').map Prod.snd then 0 else h.counts e i

end IrqLog

/-- Only a subscribed interrupt from 1 up is forwarded, and to its subscriber. -/
def Kernel.ForwardsSuscribed (k : Kernel) : Event → Prop
  | .interrupt irq pid => 1 ≤ irq ∧ k.interruptSuscribed irq ≠ 0 ∧ k.interruptSuscribed irq = pid
  | _ => True

inductive IrqStep (w : World) : IrqLog → Event → IrqLog → Prop
  | record {h : IrqLog} {e : Event} {k' : Kernel} (hstep : Step w h.kernel e k')
      (hsus : h.kernel.ForwardsSuscribed e) : IrqStep w h e (h.record e k')

/-- `GOTINT` says exactly who has an interrupt of its own pending. -/
def GotintExact (w : World) (k : Kernel) : Prop := ∀ r, w.live r → (k.Gotint r ↔ k.HasOwn r)

/-- **One step.**  What is delivered goes to the subscriber and has been raised, and
`GOTINT` is exact afterwards. -/
def InterruptsSound (w : World) (h : IrqLog) (e : Event) (h' : IrqLog) : Prop :=
  (∀ x ∈ h.kernel.interruptsDelivered e h'.kernel,
    h.kernel.interruptSuscribed x.2 = h.kernel.pid x.1 ∧ 0 < h.counts e x.2) ∧
  GotintExact w h'.kernel

/-- **The condition on one step.**  A receive that takes a pending interrupt finds one of the caller's
own lowest; and if another one is pending, another of the caller's own is. -/
def Kernel.FindsOwn (k : Kernel) : Event → Prop
  | .recv _ p _ f => AcceptsNotice f → k.Gotint p →
      ∀ i rest, pendingSlots k.interruptSuscribedData hwIrqCount = i :: rest →
        k.interruptSuscribed i = k.pid p ∧
          (rest ≠ [] → ∃ j ∈ rest, k.interruptSuscribed j = k.pid p)
  | _ => True

structure IrqInv (w : World) (h : IrqLog) : Prop where
  ipc : IpcInv w h.kernel
  exact : GotintExact w h.kernel
  /-- a pending interrupt has been raised -/
  raised : ∀ i, (h.kernel.interruptSuscribedData i).avail = true → 0 < h.raised i
  zero : (h.kernel.interruptSuscribedData 0).avail = false
  /-- whoever waits for a notification has none pending -/
  waits : ∀ r, h.kernel.WaitsForNotice r → ¬ h.kernel.Gotint r

variable {h h' : IrqLog}

/-! ### What is delivered -/

theorem interruptsDelivered_of_interrupt {irq : ℕ} (hret : k.returns e k' = [(p, m)])
    (hm : m.IsInterrupt irq) : k.interruptsDelivered e k' = [(p, irq)] := by
  obtain ⟨hs, ht, hmaj⟩ := hm
  rw [Kernel.interruptsDelivered, hret]
  simp [hs, ht, hmaj]

theorem interruptsDelivered_of_exception {exc data : ℕ} (hret : k.returns e k' = [(p, m)])
    (hm : m.IsException exc data) : k.interruptsDelivered e k' = [] := by
  have ht : m.type ≠ msgInterrupt := by
    rw [hm.2.1]
    decide
  rw [Kernel.interruptsDelivered, hret]
  simp [ht]

theorem interruptsDelivered_of_quiet (hret : ∀ x ∈ k.returns e k', x.2.sender ≠ procInterrupt) :
    k.interruptsDelivered e k' = [] := by
  rw [Kernel.interruptsDelivered, List.map_eq_nil_iff, List.filter_eq_nil_iff]
  intro x hx hc
  exact hret x hx (of_decide_eq_true hc).1

/-! ### What a step keeps -/

/-- Who has an interrupt of its own pending depends on the slots and the subscriptions only. -/
theorem own_congr (hfix : Fixed k k') (hslots : k'.interruptSuscribedData = k.interruptSuscribedData) :
    k'.Own r i ↔ k.Own r i := by
  rw [Kernel.Own, Kernel.Own, hslots, hfix.suscribed, hfix.pid]

theorem hasOwn_congr (hfix : Fixed k k')
    (hslots : k'.interruptSuscribedData = k.interruptSuscribedData) : k'.HasOwn r ↔ k.HasOwn r :=
  exists_congr fun _ => own_congr hfix hslots

theorem GotintExact.of_kept (hx : GotintExact w k) (hfix : Fixed k k') (hk : InterruptsKept k k') :
    GotintExact w k' := by
  intro r hr
  rw [hasOwn_congr hfix hk.slots]
  exact (hk.bits r).trans (hx r hr)

/-- The invariant after a step in which the interrupt part of the state stays as it is and nothing is
delivered. -/
theorem IrqInv.of_kept (hv : IrqInv w h) (hstep : Step w h.kernel e k')
    (hk : InterruptsKept h.kernel k') (hdel : h.kernel.interruptsDelivered e k' = [])
    (hcounts : h.counts e = h.raised) : IrqInv w (h.record e k') where
  ipc := hv.ipc.step hstep
  exact := hv.exact.of_kept hstep.fixed hk
  raised i hi := by
    show 0 < if i ∈ (h.kernel.interruptsDelivered e k').map Prod.snd then 0 else h.counts e i
    rw [hdel, hcounts, if_neg (by simp)]
    apply hv.raised
    rw [← hk.slots]
    exact hi
  zero := by
    show (k'.interruptSuscribedData 0).avail = false
    rw [hk.slots]
    exact hv.zero
  waits r hr hg := by
    rcases hv.ipc.waits_step hstep hr with hw | hn
    · exact hv.waits r hw ((hk.bits r).mp hg)
    · exact hn.1 hg

/-- Posting interrupt `irq` makes it pending for its subscriber. -/
theorem own_filled {irq data : ℕ} (hfix : Fixed k k')
    (hs : k'.interruptSuscribedData =
      Function.update k.interruptSuscribedData irq { avail := true, data := data })
    (h1 : 1 ≤ irq) (hlt : irq < hwIrqCount) :
    k'.Own r i ↔ (i = irq ∧ k.interruptSuscribed irq = k.pid r) ∨ k.Own r i := by
  rw [Kernel.Own, Kernel.Own, hs, hfix.suscribed, hfix.pid, mem_pendingSlots, mem_pendingSlots]
  by_cases hi : i = irq
  · subst hi
    simp only [Function.update_self, true_and]
    constructor
    · intro h
      exact Or.inl h.2
    · rintro (h | h)
      · exact ⟨⟨h1, hlt, trivial⟩, h⟩
      · exact ⟨⟨h1, hlt, trivial⟩, h.2⟩
  · simp only [Function.update_of_ne hi, hi, false_and, false_or]

/-- Taking interrupt `j` makes it pending no more. -/
theorem own_taken {j data : ℕ} (hfix : Fixed k k')
    (hs : k'.interruptSuscribedData =
      Function.update k.interruptSuscribedData j { avail := false, data := data }) :
    k'.Own r i ↔ i ≠ j ∧ k.Own r i := by
  rw [Kernel.Own, Kernel.Own, hs, hfix.suscribed, hfix.pid, mem_pendingSlots, mem_pendingSlots]
  by_cases hi : i = j
  · subst hi
    simp
  · simp [hi]

/-! ### One lemma for each effect -/

/-- A subscriber waits and is woken. -/
theorem IrqInv.wake {irq : ℕ} (hv : IrqInv w h) (hstep : Step w h.kernel (.interrupt irq p) k')
    (hsus : h.kernel.ForwardsSuscribed (.interrupt irq p)) (hwait : h.kernel.WaitsForNotice p)
    (hk : InterruptsKept h.kernel k')
    (hdel : h.kernel.interruptsDelivered (.interrupt irq p) k' = [(p, irq)]) :
    InterruptsSound w h (.interrupt irq p) (h.record (.interrupt irq p) k') ∧
      IrqInv w (h.record (.interrupt irq p) k') := by
  obtain ⟨hlive, hlt⟩ : w.live p ∧ irq < hwIrqCount := by
    cases hstep with
    | interrupt hlive hirq => exact ⟨hlive, hirq⟩
  have hpid := hv.ipc.pid_eq p hlive
  have hx : GotintExact w k' := hv.exact.of_kept hstep.fixed hk
  -- the subscriber has nothing pending, so this interrupt is not pending
  have hfree : (h.kernel.interruptSuscribedData irq).avail ≠ true := by
    intro ha
    apply hv.waits p hwait
    rw [hv.exact p hlive]
    exact ⟨irq, mem_pendingSlots.mpr ⟨hsus.1, hlt, ha⟩, hsus.2.2.trans hpid.symm⟩
  refine ⟨⟨?_, hx⟩, hv.ipc.step hstep, hx, ?_, ?_, ?_⟩
  · intro x hmem
    have hmem' : x ∈ h.kernel.interruptsDelivered (.interrupt irq p) k' := hmem
    rw [hdel] at hmem'
    obtain rfl := List.mem_singleton.mp hmem'
    refine ⟨hsus.2.2.trans hpid.symm, ?_⟩
    show 0 < Function.update h.raised irq (h.raised irq + 1) irq
    rw [Function.update_self]
    omega
  · intro i hi
    have hi' : (h.kernel.interruptSuscribedData i).avail = true := by
      rw [← hk.slots]
      exact hi
    have hne : i ≠ irq := fun he => hfree (he ▸ hi')
    show 0 < if i ∈ (h.kernel.interruptsDelivered (.interrupt irq p) k').map Prod.snd then 0
      else Function.update h.raised irq (h.raised irq + 1) i
    rw [hdel, if_neg (by simpa using hne), Function.update_of_ne hne]
    exact hv.raised i hi'
  · show (k'.interruptSuscribedData 0).avail = false
    rw [hk.slots]
    exact hv.zero
  · intro r hr hg
    rcases hv.ipc.waits_step hstep hr with hw | hn
    · exact hv.waits r hw ((hk.bits r).mp hg)
    · exact hn.1 hg

/-- The subscriber does not wait and the interrupt is posted. -/
theorem IrqInv.post {irq : ℕ} (hv : IrqInv w h) (hstep : Step w h.kernel (.interrupt irq p) k')
    (hsus : h.kernel.ForwardsSuscribed (.interrupt irq p)) (hwait : ¬ h.kernel.WaitsForNotice p)
    (hf : SlotFilled h.kernel.interruptSuscribedData k'.interruptSuscribedData h.kernel.Gotint
      k'.Gotint irq irq p)
    (hdel : h.kernel.interruptsDelivered (.interrupt irq p) k' = []) :
    InterruptsSound w h (.interrupt irq p) (h.record (.interrupt irq p) k') ∧
      IrqInv w (h.record (.interrupt irq p) k') := by
  obtain ⟨hlive, hlt⟩ : w.live p ∧ irq < hwIrqCount := by
    cases hstep with
    | interrupt hlive hirq => exact ⟨hlive, hirq⟩
  have hpid := hv.ipc.pid_eq p hlive
  have hx : GotintExact w k' := by
    intro r hr
    have hown : ∀ i, k'.Own r i ↔ (i = irq ∧ h.kernel.interruptSuscribed irq = h.kernel.pid r) ∨
        h.kernel.Own r i := fun i => own_filled hstep.fixed hf.slots hsus.1 hlt
    have hto : h.kernel.interruptSuscribed irq = h.kernel.pid r ↔ r = p := by
      rw [hsus.2.2, hv.ipc.pid_eq r hr]
      exact eq_comm
    rw [hf.bits r, hv.exact r hr, Kernel.HasOwn, Kernel.HasOwn]
    simp only [hown, hto]
    constructor
    · rintro (he | ⟨i, hi⟩)
      · exact ⟨irq, Or.inl ⟨rfl, he⟩⟩
      · exact ⟨i, Or.inr hi⟩
    · rintro ⟨i, ⟨-, he⟩ | hi⟩
      · exact Or.inl he
      · exact Or.inr ⟨i, hi⟩
  refine ⟨⟨?_, hx⟩, hv.ipc.step hstep, hx, ?_, ?_, ?_⟩
  · intro x hmem
    have hmem' : x ∈ h.kernel.interruptsDelivered (.interrupt irq p) k' := hmem
    rw [hdel] at hmem'
    cases hmem'
  · intro i hi
    show 0 < if i ∈ (h.kernel.interruptsDelivered (.interrupt irq p) k').map Prod.snd then 0
      else Function.update h.raised irq (h.raised irq + 1) i
    rw [hdel, if_neg (by simp), Function.update_apply]
    split
    · omega
    · rename_i hne
      apply hv.raised
      have hi' : (k'.interruptSuscribedData i).avail = true := hi
      rw [hf.slots, Function.update_of_ne hne] at hi'
      exact hi'
  · have hne : (0 : ℕ) ≠ irq := by
      have h1 := hsus.1
      omega
    show (k'.interruptSuscribedData 0).avail = false
    rw [hf.slots, Function.update_of_ne hne]
    exact hv.zero
  · intro r hr hg
    rcases hv.ipc.waits_step hstep hr with hw | hn
    · rcases (hf.bits r).mp hg with he | hg'
      · exact hwait (he ▸ hw)
      · exact hv.waits r hw hg'
    · exact hn.1 hg

/-- **A process takes a pending interrupt.** -/
theorem IrqInv.take (hv : IrqInv w h) (hstep : Step w h.kernel (.recv fuel p va f) k')
    (hacc : AcceptsNotice f)
    (ht : SlotTaken hwIrqCount h.kernel.interruptSuscribedData k'.interruptSuscribedData
      h.kernel.Gotint k'.Gotint p)
    (hdel : h.kernel.interruptsDelivered (.recv fuel p va f) k' =
      [(p, (scan h.kernel.interruptSuscribedData hwIrqCount).1.1)]) :
    (InterruptsSound w h (.recv fuel p va f) (h.record (.recv fuel p va f) k') ↔
      h.kernel.FindsOwn (.recv fuel p va f)) ∧
    (InterruptsSound w h (.recv fuel p va f) (h.record (.recv fuel p va f) k') →
      IrqInv w (h.record (.recv fuel p va f) k')) := by
  have hlive : w.live p := by
    cases hstep with
    | recv hlive hawake hbuf hfilter hcall => exact hlive
  obtain ⟨j, hj, -⟩ := (hv.exact p hlive).mp ht.announced
  -- so the list of pending interrupts is not empty, and the scan returns its head
  obtain ⟨i, rest, hpend⟩ : ∃ i rest,
      pendingSlots h.kernel.interruptSuscribedData hwIrqCount = i :: rest := by
    cases hp : pendingSlots h.kernel.interruptSuscribedData hwIrqCount with
    | nil => rw [hp] at hj; cases hj
    | cons i rest => exact ⟨i, rest, rfl⟩
  have hscan : scan h.kernel.interruptSuscribedData hwIrqCount =
      ((i, (h.kernel.interruptSuscribedData i).data), decide (rest ≠ [])) := by
    rw [scan_eq (by decide), hpend]
  have hnd : i ∉ rest := by
    have hnd := nodup_pendingSlots h.kernel.interruptSuscribedData hwIrqCount
    rw [hpend] at hnd
    exact (List.nodup_cons.mp hnd).1
  have hslots := ht.slots
  have hbits := ht.bits
  simp only [hscan, decide_eq_true_eq] at hslots hbits
  rw [hscan] at hdel
  have hown : ∀ q x, k'.Own q x ↔ x ∈ rest ∧ h.kernel.interruptSuscribed x = h.kernel.pid q := by
    intro q x
    rw [own_taken hstep.fixed hslots, Kernel.Own, hpend, List.mem_cons, ← and_assoc]
    refine and_congr_left fun _ => ?_
    constructor
    · rintro ⟨hne, he | hx⟩
      · exact absurd he hne
      · exact hx
    · intro hx
      exact ⟨fun he => hnd (he ▸ hx), Or.inr hx⟩
  have hraised : 0 < h.raised i := by
    apply hv.raised
    have hi : i ∈ pendingSlots h.kernel.interruptSuscribedData hwIrqCount := by rw [hpend]; simp
    exact (mem_pendingSlots.mp hi).2.2
  have hsound : InterruptsSound w h (.recv fuel p va f) (h.record (.recv fuel p va f) k') ↔
      h.kernel.interruptSuscribed i = h.kernel.pid p ∧ GotintExact w k' := by
    refine and_congr_left fun _ => ?_
    show (∀ x ∈ h.kernel.interruptsDelivered (.recv fuel p va f) k', _) ↔ _
    rw [hdel]
    simp only [List.mem_singleton, forall_eq]
    exact and_iff_left hraised
  constructor
  · rw [hsound]
    have hcond : h.kernel.FindsOwn (.recv fuel p va f) ↔
        h.kernel.interruptSuscribed i = h.kernel.pid p ∧
          (rest ≠ [] → ∃ j ∈ rest, h.kernel.interruptSuscribed j = h.kernel.pid p) := by
      constructor
      · intro hc
        exact hc hacc ht.announced i rest hpend
      · rintro hc - - i' rest' hpend'
        rw [hpend] at hpend'
        obtain ⟨rfl, rfl⟩ := List.cons.inj hpend'
        exact hc
    rw [hcond]
    refine and_congr_right fun hi => ?_
    constructor
    · intro hx hne
      have hg : k'.Gotint p := (hbits p).mpr ⟨ht.announced, fun _ => hne⟩
      obtain ⟨x, hxo⟩ := (hx p hlive).mp hg
      exact ⟨x, ((hown p x).mp hxo).1, ((hown p x).mp hxo).2⟩
    · intro hc q hq
      rw [hbits q, hv.exact q hq]
      by_cases hqp : q = p
      · subst hqp
        constructor
        · rintro ⟨-, hne⟩
          obtain ⟨x, hx, hxo⟩ := hc (hne rfl)
          exact ⟨x, (hown q x).mpr ⟨hx, hxo⟩⟩
        · rintro ⟨x, hxo⟩
          have hx := ((hown q x).mp hxo).1
          refine ⟨(hv.exact q hq).mp ht.announced, fun _ he => ?_⟩
          rw [he] at hx
          cases hx
      · -- nothing of another process's was taken
        have hpid : h.kernel.pid q ≠ h.kernel.pid p := by
          rw [hv.ipc.pid_eq q hq, hv.ipc.pid_eq p hlive]
          exact hqp
        simp only [hqp, false_implies, and_true]
        refine exists_congr fun x => ?_
        rw [hown q x, Kernel.Own, hpend, List.mem_cons]
        refine and_congr_left fun hxo => (or_iff_right ?_)
        rintro rfl
        exact hpid (hxo.symm.trans hi)
  · intro hs
    refine ⟨hv.ipc.step hstep, (hsound.mp hs).2, ?_, ?_, ?_⟩
    · intro x hx
      have hx' : (k'.interruptSuscribedData x).avail = true := hx
      rw [hslots] at hx'
      have hne : x ≠ i := by
        rintro rfl
        rw [Function.update_self] at hx'
        cases hx'
      rw [Function.update_of_ne hne] at hx'
      show 0 < if x ∈ (h.kernel.interruptsDelivered (.recv fuel p va f) k').map Prod.snd then 0
        else h.raised x
      rw [hdel, if_neg (by simpa using hne)]
      exact hv.raised x hx'
    · show (k'.interruptSuscribedData 0).avail = false
      rw [hslots, Function.update_apply]
      split
      · rfl
      · exact hv.zero
    · intro r hr hg
      rcases hv.ipc.waits_step hstep hr with hw | hn
      · exact hv.waits r hw ((hbits r).mp hg).1
      · exact hn.1 hg

/-! ### Steps and runs -/

/-- **One step.** -/
theorem IrqInv.step (hv : IrqInv w h) (hstep : IrqStep w h e h') :
    (InterruptsSound w h e h' ↔ h.kernel.FindsOwn e) ∧ (InterruptsSound w h e h' → IrqInv w h') := by
  obtain ⟨hstep, hsus⟩ := hstep
  rename_i k'
  -- where nothing is delivered and the interrupt part stays as it is
  have hkept : InterruptsKept h.kernel k' → h.kernel.interruptsDelivered e k' = [] →
      h.counts e = h.raised → h.kernel.FindsOwn e →
      (InterruptsSound w h e (h.record e k') ↔ h.kernel.FindsOwn e) ∧
        (InterruptsSound w h e (h.record e k') → IrqInv w (h.record e k')) := by
    intro hk hdel hcounts hfinds
    refine ⟨iff_of_true ⟨?_, hv.exact.of_kept hstep.fixed hk⟩ hfinds,
      fun _ => hv.of_kept hstep hk hdel hcounts⟩
    intro x hx
    have hx' : x ∈ h.kernel.interruptsDelivered e k' := hx
    rw [hdel] at hx'
    cases hx'
  cases hv.ipc.noticeEffect hstep with
  | quiet he hint hexc hret =>
    refine hkept hint (interruptsDelivered_of_quiet hret) ?_ ?_
    · cases e with
      | interrupt irq pid => exact he.elim
      | _ => rfl
    · cases e with
      | recv fuel p va f => exact fun hacc hg => absurd hg (he hacc).1
      | _ => trivial
  | takeInterrupt hf hint hexc hret hm =>
    exact hv.take hstep hf hint (interruptsDelivered_of_interrupt hret hm)
  | takeException hf hno hint hexc hret hm =>
    exact hkept hint (interruptsDelivered_of_exception hret hm) rfl fun _ hg => absurd hg hno
  | wakeInterrupt hwait hint hexc hret hm =>
    obtain ⟨hs, hi⟩ := hv.wake hstep hsus hwait hint (interruptsDelivered_of_interrupt hret hm)
    exact ⟨iff_of_true hs trivial, fun _ => hi⟩
  | wakeException hwait hint hexc hret hm =>
    exact hkept hint (interruptsDelivered_of_exception hret hm) rfl trivial
  | @postInterrupt irq pid _ hwait hint hexc hret =>
    have hdel : h.kernel.interruptsDelivered (.interrupt irq pid) k' = [] := by
      apply interruptsDelivered_of_quiet
      rw [hret]
      simp
    obtain ⟨hs, hi⟩ := hv.post hstep hsus hwait hint hdel
    exact ⟨iff_of_true hs trivial, fun _ => hi⟩
  | @postException exc data pid _ hwait hint hexc hret =>
    refine hkept hint ?_ rfl trivial
    apply interruptsDelivered_of_quiet
    rw [hret]
    simp

/-- The log at boot. -/
def IrqLog.start (k : Kernel) : IrqLog := ⟨k, fun _ => 0⟩

theorem Boot.irqInv (h₀ : Boot w k₀) : IrqInv w (IrqLog.start k₀) where
  ipc := h₀.ipcInv
  exact r _ := by
    refine iff_of_false (h₀.noInterrupt r) ?_
    rintro ⟨i, hi, -⟩
    have ha := (mem_pendingSlots.mp hi).2.2
    rw [show ((IrqLog.start k₀).kernel.interruptSuscribedData i).avail = false from
      h₀.noIrqData i] at ha
    cases ha
  raised i hi := by
    rw [show ((IrqLog.start k₀).kernel.interruptSuscribedData i).avail = false from
      h₀.noIrqData i] at hi
    cases hi
  zero := h₀.noIrqData 0
  waits r hr := absurd hr.1 (h₀.quiet r).2

/-- **When interrupts reach their subscribers only.**  In every run, what is delivered throughout goes
to its subscriber and has been raised since its last delivery, with `GOTINT` exact in every state,
exactly when every receive that takes a pending interrupt finds one of the caller's own lowest, and
another interrupt pending only together with another of the caller's own. -/
theorem interruptsSound_iff {tr : List (Transition IrqLog Event)} (h₀ : Boot w k₀)
    (hrun : Run (IrqStep w) (IrqLog.start k₀) tr h) :
    GotintExact w k₀ ∧ ((∀ x ∈ tr, InterruptsSound w x.source x.label x.target) ↔
      ∀ x ∈ tr, x.source.kernel.FindsOwn x.label) :=
  ⟨h₀.irqInv.exact, Run.forall_iff (IrqInv w) (InterruptsSound w)
    (fun h e _ => h.kernel.FindsOwn e) hrun h₀.irqInv
    (fun _ _ _ hv hstep => (hv.step hstep).1) (fun _ _ _ hv hstep => (hv.step hstep).2)⟩

/-! ### Two subscribers -/

/-- Number 1 has subscribed the keyboard, number 2 the disk. -/
def irqKernel : Kernel :=
  { Kernel.booted 4 with
    interruptSuscribed := fun i => if i = 1 then 1 else if i = 14 then 2 else 0 }

theorem boot_irqKernel : Boot demoWorld irqKernel where
  pid_eq _ _ := rfl
  quiet := (boot_booted (by decide)).quiet
  queneHead _ := rfl
  noInterrupt := (boot_booted (by decide)).noInterrupt
  noException := (boot_booted (by decide)).noException
  noIrqData _ := rfl
  noExcData _ := rfl

/-- The disk is done. -/
def irqDisk : IrqLog :=
  (IrqLog.start irqKernel).record (.interrupt 14 2) (irqKernel.sendInterruptMsg 14 2)

/-- Then a key is hit. -/
def irqBoth : IrqLog :=
  irqDisk.record (.interrupt 1 1) (irqDisk.kernel.sendInterruptMsg 1 1)

/-- Number 2 asks for its interrupt. -/
def irqStolen : Kernel := (Kernel.recvMsg 4 irqBoth.kernel 2 16 procInterrupt).get (by decide)

theorem irq_disk : IrqStep demoWorld (IrqLog.start irqKernel) (.interrupt 14 2) irqDisk :=
  .record (Step.interrupt (by decide) (by decide)) ⟨by decide, by decide, by decide⟩

theorem irq_both : IrqStep demoWorld irqDisk (.interrupt 1 1) irqBoth :=
  .record (Step.interrupt (by decide) (by decide)) ⟨by decide, by decide, by decide⟩

theorem irq_stolen : IrqStep demoWorld irqBoth (.recv 4 2 16 procInterrupt)
    (irqBoth.record (.recv 4 2 16 procInterrupt) irqStolen) :=
  .record (Step.recv (by decide) (by decide) (by decide) (Or.inr (Or.inr (Or.inl rfl)))
    (Option.some_get _).symm) trivial

/-- **The keyboard interrupt goes to the disk driver.**  With both pending, number 2 is handed
interrupt 1, which number 1 has subscribed; number 1 is left with `GOTINT` and nothing pending. -/
theorem interrupt_stolen :
    Reachable (IrqStep demoWorld) (IrqLog.start irqKernel)
      (irqBoth.record (.recv 4 2 16 procInterrupt) irqStolen) ∧
    (2, 1) ∈ irqBoth.kernel.interruptsDelivered (.recv 4 2 16 procInterrupt) irqStolen ∧
    irqBoth.kernel.interruptSuscribed 1 ≠ irqBoth.kernel.pid 2 ∧
    irqStolen.Gotint 1 ∧ ¬ irqStolen.HasOwn 1 := by
  refine ⟨((Reachable.refl.extend irq_disk).extend irq_both).extend irq_stolen, by decide, by decide,
    by decide, ?_⟩
  rintro ⟨i, hi, hown⟩
  have hp : pendingSlots irqStolen.interruptSuscribedData hwIrqCount = [14] := by decide
  rw [hp] at hi
  obtain rfl := List.mem_singleton.mp hi
  exact absurd hown (by decide)

/-- With only the disk interrupt pending, number 2 gets it. -/
theorem interruptsSound_iff_demo :
    ∃ tr h, Run (IrqStep demoWorld) (IrqLog.start irqKernel) tr h ∧ ¬ h.kernel.Gotint 2 ∧
      ∀ x ∈ tr, InterruptsSound demoWorld x.source x.label x.target := by
  have hstart : Run (IrqStep demoWorld) (IrqLog.start irqKernel) [] _ := Run.start
  have h₂ : IrqStep demoWorld irqDisk (.recv 4 2 16 procAny)
      (irqDisk.record (.recv 4 2 16 procAny)
        ((Kernel.recvMsg 4 irqDisk.kernel 2 16 procAny).get (by decide))) :=
    .record (Step.recv (by decide) (by decide) (by decide) (Or.inr (Or.inl rfl))
      (Option.some_get _).symm) trivial
  have hrun := (hstart.extend irq_disk).extend h₂
  refine ⟨_, _, hrun, by decide, (interruptsSound_iff boot_irqKernel hrun).2.mpr ?_⟩
  intro x hx
  rcases List.mem_cons.mp hx with rfl | hx
  · trivial
  · obtain rfl := List.mem_singleton.mp hx
    intro _ _ i rest hpend
    have hp : pendingSlots irqDisk.kernel.interruptSuscribedData hwIrqCount = [14] := by decide
    rw [hp] at hpend
    obtain ⟨rfl, rfl⟩ := List.cons.inj hpend
    exact ⟨by decide, fun h => absurd rfl h⟩

end OmochaOS
