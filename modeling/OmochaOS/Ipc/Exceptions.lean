import OmochaOS.Ipc.Notice
import OmochaOS.Ipc.Rendezvous

/-!
# Exception notifications

An exception number has one pending slot, shared by all faulting processes.  `send_exception_msg`
writes the slot without looking whether it is full, and the scan of a receive takes slot 0 for "none
found".  Either can lose a notification: the first overwrites it, the second drops the `GOTEXC` bit
that announces it.

An `ExcLog` adds to the kernel state the pairs sent to the one subscriber and the pairs delivered to
it.  `exceptionsSound_iff` says when a run loses none: when every notification that is not handed over
at once finds its slot free, and no receive takes a notification while slot 0 and exactly one other
slot are pending.
-/

namespace OmochaOS

open TransitionRun BitFlags Kernel

variable {w : World} {sub : Pid} {k k' k₀ : Kernel} {p q : Pid} {va : VAddr} {f fuel i : ℕ}
  {m : Message} {e : Event}

/-- The exceptions delivered to `sub` in a step, each with its data. -/
def Kernel.exceptionsDelivered (k : Kernel) (sub : Pid) (e : Event) (k' : Kernel) :
    Multiset (ℕ × ℕ) :=
  (((k.returns e k').filter fun x =>
    x.1 = sub ∧ x.2.sender = procInterrupt ∧ x.2.type = msgException).map
      fun x => (x.2.major, x.2.data.d1) : List (ℕ × ℕ))

/-- The exceptions that wait in the slots. -/
def Kernel.pendingExceptions (k : Kernel) : Multiset (ℕ × ℕ) :=
  pendingNotices k.exceptionSuscribedData exceptionCount

/-- What `send_exception_msg` is called with. -/
def raisedExceptions : Event → Multiset (ℕ × ℕ)
  | .exception exc data _ => {(exc, data)}
  | _ => 0

structure ExcLog where
  kernel : Kernel
  sent : Multiset (ℕ × ℕ)
  delivered : Multiset (ℕ × ℕ)

namespace ExcLog

def start (k : Kernel) : ExcLog := ⟨k, 0, 0⟩

def record (h : ExcLog) (sub : Pid) (e : Event) (k' : Kernel) : ExcLog where
  kernel := k'
  sent := h.sent + raisedExceptions e
  delivered := h.delivered + h.kernel.exceptionsDelivered sub e k'

end ExcLog

/-- `sub` has subscribed every exception. -/
def NotifiesSub (sub : Pid) : Event → Prop
  | .exception _ _ pid => pid = sub
  | _ => True

inductive ExcStep (w : World) (sub : Pid) : ExcLog → Event → ExcLog → Prop
  | record {h : ExcLog} {e : Event} {k' : Kernel} (hstep : Step w h.kernel e k')
      (hsub : NotifiesSub sub e) : ExcStep w sub h e (h.record sub e k')

/-- **One state.**  What was delivered and what is pending is what was sent, and
`GOTEXC` is set while anything is pending. -/
def ExceptionsSound (sub : Pid) (h : ExcLog) : Prop :=
  h.delivered + h.kernel.pendingExceptions = h.sent ∧
  (h.kernel.pendingExceptions ≠ 0 → h.kernel.Gotexc sub)

/-- **The condition on one step.**  A notification that is not handed over at once finds its slot free,
and no receive takes a notification while slot 0 and exactly one other slot are pending. -/
def Kernel.LosesNothing (k : Kernel) : Event → Prop
  | .exception exc _ pid => k.WaitsForNotice pid ∨ (k.exceptionSuscribedData exc).avail = false
  | .recv _ p _ f => AcceptsNotice f → ¬ k.Gotint p → k.Gotexc p →
      (k.exceptionSuscribedData 0).avail = true →
      (pendingSlots k.exceptionSuscribedData exceptionCount).length ≠ 1
  | _ => True

structure ExcInv (w : World) (sub : Pid) (h : ExcLog) : Prop where
  ipc : IpcInv w h.kernel
  sound : ExceptionsSound sub h
  /-- only the subscriber is announced anything, and then something is pending -/
  announced : ∀ q, h.kernel.Gotexc q → q = sub ∧ h.kernel.pendingExceptions ≠ 0

variable {h h' : ExcLog}

/-! ### What is delivered -/

theorem exceptionsDelivered_of_exception {exc data : ℕ} (hret : k.returns e k' = [(sub, m)])
    (hm : m.IsException exc data) : k.exceptionsDelivered sub e k' = {(exc, data)} := by
  obtain ⟨hs, ht, hmaj, hdata⟩ := hm
  rw [Kernel.exceptionsDelivered, hret]
  simp [hs, ht, hmaj, hdata]

theorem exceptionsDelivered_of_interrupt {irq : ℕ} (hret : k.returns e k' = [(p, m)])
    (hm : m.IsInterrupt irq) : k.exceptionsDelivered sub e k' = 0 := by
  have ht : m.type ≠ msgException := by
    rw [hm.2.1]
    decide
  rw [Kernel.exceptionsDelivered, hret]
  simp [ht]

theorem exceptionsDelivered_of_quiet (hret : ∀ x ∈ k.returns e k', x.2.sender ≠ procInterrupt) :
    k.exceptionsDelivered sub e k' = 0 := by
  rw [Kernel.exceptionsDelivered, Multiset.coe_eq_zero, List.map_eq_nil_iff,
    List.filter_eq_nil_iff]
  intro x hx hc
  exact hret x hx (of_decide_eq_true hc).2.1

/-! ### One lemma for each effect -/

theorem pendingExceptions_of_kept (hk : ExceptionsKept k k') :
    k'.pendingExceptions = k.pendingExceptions := by
  rw [Kernel.pendingExceptions, hk.slots]
  rfl

/-- The exception part of the state stays as it is, and what is raised is handed over at once. -/
theorem ExcInv.of_kept (hv : ExcInv w sub h) (hstep : Step w h.kernel e k')
    (hk : ExceptionsKept h.kernel k')
    (hdel : h.kernel.exceptionsDelivered sub e k' = raisedExceptions e) :
    ExcInv w sub (h.record sub e k') := by
  have hpend := pendingExceptions_of_kept hk
  refine ⟨hv.ipc.step hstep, ⟨?_, ?_⟩, ?_⟩
  · show h.delivered + h.kernel.exceptionsDelivered sub e k' + k'.pendingExceptions
      = h.sent + raisedExceptions e
    rw [hdel, hpend, add_right_comm, hv.sound.1]
  · show k'.pendingExceptions ≠ 0 → k'.Gotexc sub
    rw [hpend]
    exact fun hne => (hk.bits sub).mpr (hv.sound.2 hne)
  · intro q hq
    show q = sub ∧ k'.pendingExceptions ≠ 0
    rw [hpend]
    exact hv.announced q ((hk.bits q).mp hq)

/-- **A notification is posted.** -/
theorem ExcInv.post {exc data : ℕ} (hv : ExcInv w sub h)
    (hstep : Step w h.kernel (.exception exc data sub) k')
    (hwait : ¬ h.kernel.WaitsForNotice sub)
    (hf : SlotFilled h.kernel.exceptionSuscribedData k'.exceptionSuscribedData h.kernel.Gotexc
      k'.Gotexc exc data sub)
    (hdel : h.kernel.exceptionsDelivered sub (.exception exc data sub) k' = 0) :
    (ExceptionsSound sub (h.record sub (.exception exc data sub) k') ↔
      h.kernel.LosesNothing (.exception exc data sub)) ∧
    (ExceptionsSound sub (h.record sub (.exception exc data sub) k') →
      ExcInv w sub (h.record sub (.exception exc data sub) k')) := by
  have hlt : exc < exceptionCount := by
    cases hstep with
    | exception hlive hexc => exact hexc
  have hon : (k'.exceptionSuscribedData exc).avail = true := by rw [hf.slots, Function.update_self]
  have hdata : (k'.exceptionSuscribedData exc).data = data := by
    rw [hf.slots, Function.update_self]
  have hrest : ∀ j, j ≠ exc → k'.exceptionSuscribedData j = h.kernel.exceptionSuscribedData j := by
    intro j hj
    rw [hf.slots, Function.update_of_ne hj]
  have hne : k'.pendingExceptions ≠ 0 := by
    intro hz
    rw [Kernel.pendingExceptions, pendingNotices_eq_zero] at hz
    rw [hz exc hlt] at hon
    cases hon
  have hgot : k'.Gotexc sub := (hf.bits sub).mpr (Or.inl rfl)
  have hsound : ExceptionsSound sub (h.record sub (.exception exc data sub) k') ↔
      h.delivered + k'.pendingExceptions = h.sent + {(exc, data)} := by
    show (h.delivered + h.kernel.exceptionsDelivered sub (.exception exc data sub) k' +
      k'.pendingExceptions = h.sent + {(exc, data)} ∧ _) ↔ _
    rw [hdel, add_zero]
    exact and_iff_left fun _ => hgot
  refine ⟨?_, fun hs => ⟨hv.ipc.step hstep, hs, ?_⟩⟩
  · rw [hsound, ← hv.sound.1, add_assoc, add_right_inj]
    show _ ↔ (h.kernel.WaitsForNotice sub ∨ _)
    rw [or_iff_right hwait]
    constructor
    · intro heq
      by_contra hfull
      -- a full slot is overwritten: as many are pending as before
      have hcard := card_pendingNotices_of_full exceptionCount (by simpa using hfull) hon hrest
      have hcard' := congrArg Multiset.card heq
      rw [Multiset.card_add, Multiset.card_singleton] at hcard'
      rw [Kernel.pendingExceptions, Kernel.pendingExceptions, hcard] at hcard'
      omega
    · intro hoff
      rw [Kernel.pendingExceptions, pendingNotices_cons hlt hoff hon hrest, hdata,
        ← Multiset.singleton_add, add_comm]
      rfl
  · intro q hq
    refine ⟨?_, hne⟩
    rcases (hf.bits q).mp hq with he | hq'
    · exact he
    · exact (hv.announced q hq').1

/-- **A pending notification is taken.** -/
theorem ExcInv.take (hv : ExcInv w sub h) (hstep : Step w h.kernel (.recv fuel p va f) k')
    (hacc : AcceptsNotice f) (hno : ¬ h.kernel.Gotint p)
    (ht : SlotTaken exceptionCount h.kernel.exceptionSuscribedData k'.exceptionSuscribedData
      h.kernel.Gotexc k'.Gotexc p)
    (hdel : p = sub → h.kernel.exceptionsDelivered sub (.recv fuel p va f) k' =
      {(scan h.kernel.exceptionSuscribedData exceptionCount).1}) :
    (ExceptionsSound sub (h.record sub (.recv fuel p va f) k') ↔
      h.kernel.LosesNothing (.recv fuel p va f)) ∧
    (ExceptionsSound sub (h.record sub (.recv fuel p va f) k') →
      ExcInv w sub (h.record sub (.recv fuel p va f) k')) := by
  obtain ⟨rfl, hne⟩ := hv.announced p ht.announced
  have hdel := hdel rfl
  set table := h.kernel.exceptionSuscribedData with htable
  obtain ⟨i, second, hscan, hlt, ha, hsecond, hlost⟩ := scan_of_pending (by decide)
    (show pendingNotices table exceptionCount ≠ 0 from hne)
  have hslots := ht.slots
  have hbits := ht.bits
  simp only [hscan] at hslots hbits
  rw [hscan] at hdel
  have hpend : h.kernel.pendingExceptions = (i, (table i).data) ::ₘ k'.pendingExceptions := by
    refine pendingNotices_cons hlt ?_ ha fun j hj => ?_
    · rw [hslots, Function.update_self]
    · rw [hslots, Function.update_of_ne hj]
  -- what is pending afterwards is what was pending in the other slots
  have hother : k'.pendingExceptions ≠ 0 ↔
      ∃ j, j < exceptionCount ∧ j ≠ i ∧ (table j).avail = true := by
    rw [Kernel.pendingExceptions, pendingNotices_ne_zero]
    refine exists_congr fun j => and_congr_right fun _ => ?_
    rw [hslots, Function.update_apply]
    split
    · rename_i hj
      simp [hj]
    · rename_i hj
      simp [hj]
  have hgot : k'.Gotexc p ↔ second = true := by
    rw [hbits p]
    simp [ht.announced]
  have hsound : ExceptionsSound p (h.record p (.recv fuel p va f) k') ↔
      (k'.pendingExceptions ≠ 0 → second = true) := by
    show (h.delivered + h.kernel.exceptionsDelivered p (.recv fuel p va f) k' +
      k'.pendingExceptions = h.sent + 0 ∧ (k'.pendingExceptions ≠ 0 → k'.Gotexc p)) ↔ _
    rw [hgot, hdel, add_zero, add_assoc, Multiset.singleton_add, ← hpend]
    exact and_iff_right hv.sound.1
  refine ⟨?_, fun hs => ⟨hv.ipc.step hstep, hs, ?_⟩⟩
  · rw [hsound, hother, hlost]
    exact ⟨fun hc _ _ _ => hc, fun hc => hc hacc hno ht.announced⟩
  · intro q hq
    obtain ⟨hq', hq''⟩ := (hbits q).mp hq
    obtain ⟨rfl, -⟩ := hv.announced q hq'
    exact ⟨rfl, hother.mpr (hsecond (hq'' rfl))⟩

/-! ### Steps and runs -/

/-- **One step.** -/
theorem ExcInv.step (hv : ExcInv w sub h) (hstep : ExcStep w sub h e h') :
    (ExceptionsSound sub h' ↔ h.kernel.LosesNothing e) ∧
      (ExceptionsSound sub h' → ExcInv w sub h') := by
  obtain ⟨hstep, hsub⟩ := hstep
  rename_i k'
  have hkept : ExceptionsKept h.kernel k' →
      h.kernel.exceptionsDelivered sub e k' = raisedExceptions e → h.kernel.LosesNothing e →
      (ExceptionsSound sub (h.record sub e k') ↔ h.kernel.LosesNothing e) ∧
        (ExceptionsSound sub (h.record sub e k') → ExcInv w sub (h.record sub e k')) := by
    intro hk hdel hloses
    have hv' := hv.of_kept hstep hk hdel
    exact ⟨iff_of_true hv'.sound hloses, fun _ => hv'⟩
  cases hv.ipc.noticeEffect hstep with
  | quiet he hint hexc hret =>
    have hdel : h.kernel.exceptionsDelivered sub e k' = 0 := exceptionsDelivered_of_quiet hret
    cases e with
    | user p a m => exact hkept hexc hdel trivial
    | send fuel p va => exact hkept hexc hdel trivial
    | recv fuel p va f => exact hkept hexc hdel fun hacc _ hg => absurd hg (he hacc).2
    | interrupt irq pid => exact he.elim
    | exception exc data pid => exact he.elim
  | takeInterrupt hf hint hexc hret hm =>
    exact hkept hexc (exceptionsDelivered_of_interrupt hret hm)
      fun _ hno => absurd hint.announced hno
  | takeException hf hno hint hexc hret hm =>
    refine hv.take hstep hf hno hexc fun hp => ?_
    subst hp
    exact exceptionsDelivered_of_exception hret hm
  | wakeInterrupt hwait hint hexc hret hm =>
    exact hkept hexc (exceptionsDelivered_of_interrupt hret hm) trivial
  | @wakeException exc data pid _ m hwait hint hexc hret hm =>
    obtain rfl : pid = sub := hsub
    exact hkept hexc (exceptionsDelivered_of_exception hret hm) (Or.inl hwait)
  | postInterrupt hwait hint hexc hret =>
    refine hkept hexc (exceptionsDelivered_of_quiet ?_) trivial
    rw [hret]
    simp
  | @postException exc data pid _ hwait hint hexc hret =>
    obtain rfl : pid = sub := hsub
    refine hv.post hstep hwait hexc (exceptionsDelivered_of_quiet ?_)
    rw [hret]
    simp

theorem Boot.excInv (h₀ : Boot w k₀) : ExcInv w sub (ExcLog.start k₀) := by
  have hz : (ExcLog.start k₀).kernel.pendingExceptions = 0 :=
    pendingNotices_eq_zero.mpr fun i _ => h₀.noExcData i
  refine ⟨h₀.ipcInv, ⟨?_, fun hne => absurd hz hne⟩, fun q hq => absurd hq (h₀.noException q)⟩
  show 0 + (ExcLog.start k₀).kernel.pendingExceptions = 0
  rw [hz, add_zero]

/-- **When no exception notification is lost.**  In every run in which the notifications go to one
subscriber, in every state what was delivered and what is pending is what was sent, with `GOTEXC` set
while anything is pending, exactly when every notification that is not handed over at once finds its
slot free and no receive takes one while slot 0 and exactly one other slot are pending. -/
theorem exceptionsSound_iff {tr : List (Transition ExcLog Event)} (h₀ : Boot w k₀)
    (hrun : Run (ExcStep w sub) (ExcLog.start k₀) tr h) :
    ExceptionsSound sub (ExcLog.start k₀) ∧ ((∀ x ∈ tr, ExceptionsSound sub x.target) ↔
      ∀ x ∈ tr, x.source.kernel.LosesNothing x.label) :=
  ⟨h₀.excInv.sound, Run.forall_iff (ExcInv w sub) (fun _ _ h' => ExceptionsSound sub h')
    (fun h e _ => h.kernel.LosesNothing e) hrun h₀.excInv
    (fun _ _ _ hv hstep => (hv.step hstep).1) (fun _ _ _ hv hstep => (hv.step hstep).2)⟩

/-! ### Two faults before one receive -/

/-- The log after one more notification, sent to number 1. -/
def excPosted (h : ExcLog) (exc data : ℕ) : ExcLog :=
  h.record 1 (.exception exc data 1) (h.kernel.sendExceptionMsg exc data 1)

theorem exc_posted {h : ExcLog} (exc data : ℕ) (hexc : exc < exceptionCount) :
    ExcStep demoWorld 1 h (.exception exc data 1) (excPosted h exc data) :=
  .record (Step.exception (by decide) hexc) rfl

/-- Two processes fault on a page. -/
def excTwoFaults : ExcLog := excPosted (excPosted (ExcLog.start (Kernel.booted 4)) 14 100) 14 200

/-- One process divides by zero, another faults on a page. -/
def excZero : ExcLog := excPosted (excPosted (ExcLog.start (Kernel.booted 4)) 0 100) 14 200

/-- Number 1 then receives. -/
def excTaken : Kernel := (Kernel.recvMsg 4 excZero.kernel 1 16 procAny).get (by decide)

/-- **Notifications are lost.**  After two page faults only the second is pending.  And after a
division by zero and a page fault, one receive drops `GOTEXC` with the division still pending. -/
theorem exceptions_lost :
    (Reachable (ExcStep demoWorld 1) (ExcLog.start (Kernel.booted 4)) excTwoFaults ∧
      excTwoFaults.sent = {(14, 100), (14, 200)} ∧
      excTwoFaults.delivered + excTwoFaults.kernel.pendingExceptions = {(14, 200)}) ∧
    (Reachable (ExcStep demoWorld 1) (ExcLog.start (Kernel.booted 4))
        (excZero.record 1 (.recv 4 1 16 procAny) excTaken) ∧
      excTaken.pendingExceptions = {(0, 100)} ∧ ¬ excTaken.Gotexc 1) := by
  have htake : ExcStep demoWorld 1 excZero (.recv 4 1 16 procAny)
      (excZero.record 1 (.recv 4 1 16 procAny) excTaken) :=
    .record (Step.recv (by decide) (by decide) (by decide) (Or.inr (Or.inl rfl))
      (Option.some_get _).symm) trivial
  refine ⟨⟨?_, by decide, by decide⟩, ⟨?_, by decide, by decide⟩⟩
  · exact (Reachable.refl.extend (exc_posted _ 100 (by decide))).extend (exc_posted _ 200 (by decide))
  · exact ((Reachable.refl.extend (exc_posted _ 100 (by decide))).extend
      (exc_posted _ 200 (by decide))).extend htake

/-- A single page fault is pending until it is received. -/
theorem exceptionsSound_iff_demo :
    ∃ tr h, Run (ExcStep demoWorld 1) (ExcLog.start (Kernel.booted 4)) tr h ∧
      h.kernel.pendingExceptions = {(14, 100)} ∧ ∀ x ∈ tr, ExceptionsSound 1 x.target := by
  have hstart : Run (ExcStep demoWorld 1) (ExcLog.start (Kernel.booted 4)) [] _ := Run.start
  have hrun := hstart.extend (exc_posted 14 100 (by decide))
  refine ⟨_, _, hrun, by decide, (exceptionsSound_iff (boot_booted (by decide)) hrun).2.mpr ?_⟩
  intro x hx
  obtain rfl := List.mem_singleton.mp hx
  exact Or.inr (by decide)

end OmochaOS
