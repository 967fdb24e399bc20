import OmochaOS.Ipc.Outcome
import OmochaOS.Ipc.Rendezvous
import OmochaOS.Lib.AcyclicRelation

/-!
# Circular waits

`__is_dead_lock` walks from the receiver of a new message along the receivers of blocked senders.  It
is meant to keep the wait-for graph free of circles, and relies on that to end.  What it finds is only
printed: in this build `panic` and `assert` are empty, and the send goes on and blocks.

* `IpcInv.acyclic_step_iff` — a step closes a circle exactly when it is a send to a process from which
  the blocked senders lead back to the caller;
* `IpcInv.walkEnds` — where there are no circles the walk of every send that can come next ends;
* `deadLockWalk_spins` — round a circle that the caller is not on it goes for ever.
-/

namespace OmochaOS

open TransitionRun Kernel AcyclicRelation Relation

variable {w : World} {k k' k₀ : Kernel} {p q r s : Pid} {va : VAddr} {f : ℕ} {m : Message}
  {e : Event}

/-- The blocked senders lead from the receiver of the message back to the caller. -/
def Kernel.ClosesCircle (k : Kernel) : Event → Prop
  | .send _ p va => ReflTransGen k.SendingTo (k.stamped p va).receiver p
  | _ => False

/-- The walk of the deadlock check ends for every send that can come next. -/
def WalkEnds (w : World) (k : Kernel) : Prop :=
  ∀ p va, w.live p → k.Awake p → w.OwnBuffer k p va → w.live (k.stamped p va).receiver →
    ∃ n, ∀ fuel, n ≤ fuel →
      (isDeadLock fuel (k.stampSender p va) (k.pid p) (k.stamped p va).receiver).isSome

/-! ### The wait-for graph under each effect -/

theorem Undisturbed.sendingTo (h : Undisturbed k k') : k'.SendingTo s r ↔ k.SendingTo s r :=
  SendingTo_congr (h.sending s) fun hs => h.pending s (Or.inl hs)

theorem IpcInv.sendingTo_handed (hi : IpcInv w k) (h : Handed k k' q m) :
    k'.SendingTo s r ↔ k.SendingTo s r :=
  SendingTo_congr (h.sending s) fun hs =>
    h.pending s (Or.inl hs) fun he => hi.notBoth s ⟨hs, he ▸ h.waited⟩

theorem Rested.sendingTo (h : Rested k k' p f) : k'.SendingTo s r ↔ k.SendingTo s r :=
  SendingTo_congr (h.sending s) fun hs => h.pending s (Or.inl hs)

theorem Parked.sendingTo (h : Parked k k' p m.receiver m) (hawake : k.Awake p) :
    k'.SendingTo s r ↔ insertEdge k.SendingTo p m.receiver s r := by
  show k'.Sending s ∧ (k'.pending s).receiver = r ↔ (s = p ∧ r = m.receiver) ∨ k.SendingTo s r
  by_cases hsp : s = p
  · have hns : ¬ k.SendingTo p r := fun hc => hawake.1 hc.1
    have hps : k'.Sending p := (h.sending p).mpr (Or.inl rfl)
    rw [hsp, h.parked]
    simp [hns, hps, eq_comm]
  · have hs : k'.Sending s ↔ k.Sending s := by
      rw [h.sending s]
      exact or_iff_right hsp
    have hc := SendingTo_congr (r := r) hs fun hs => h.pending s (Or.inl hs)
    simp only [hsp, false_and, false_or]
    exact hc

theorem Fetched.sendingTo {msg : PAddr} (h : Fetched k k' p q msg) (hs : k'.SendingTo s r) :
    k.SendingTo s r := by
  obtain ⟨hne, hs'⟩ := (h.sending s).mp hs.1
  refine ⟨hs', ?_⟩
  rw [← h.pending s (Or.inl hs') hne]
  exact hs.2

/-- A process that waits in a receive is not on a path of blocked senders to an awake process. -/
theorem IpcInv.not_closes (hi : IpcInv w k) (hr : k.Receving r) (hp : k.Awake p) :
    ¬ ReflTransGen k.SendingTo r p := by
  intro h
  rcases h.cases_head with he | ⟨q, hrq, -⟩
  · exact hp.2 (he ▸ hr)
  · exact hi.notBoth r ⟨hrq.1, hr⟩

/-- **One step.**  A step out of a state without circles leads to one with a circle exactly when it is
a send that closes one. -/
theorem IpcInv.acyclic_step_iff (hi : IpcInv w k) (hac : Acyclic k.SendingTo)
    (hstep : Step w k e k') : Acyclic k'.SendingTo ↔ ¬ k.ClosesCircle e := by
  have hkept : (∀ s r, k'.SendingTo s r → k.SendingTo s r) → Acyclic k'.SendingTo :=
    fun h => hac.mono h
  cases hstep with
  | @user p a m hlive hawake hown =>
    have hu : Undisturbed k (k.writeMsg a m) := hi.undisturbed_writeOwn hawake hown
    exact iff_of_true (hkept fun s r => hu.sendingTo.mp) id
  | @send k' fuel p va hlive hawake hbuf hto hcall =>
    rcases hi.outcome_send hlive hawake hbuf hto hcall with ⟨hh, -⟩ | hp
    · exact iff_of_true (hkept fun s r => (hi.sendingTo_handed hh).mp)
        (hi.not_closes hh.waited hawake)
    · rw [acyclic_congr fun s r => hp.sendingTo hawake, acyclic_insertEdge_iff]
      exact and_iff_right hac
  | recv hlive hawake hbuf hfilter hcall =>
    rcases hi.outcome_recv hlive hawake hbuf hcall with ⟨hu, -⟩ | hr | ⟨-, s, hf, -⟩
    · exact iff_of_true (hkept fun s r => hu.sendingTo.mp) id
    · exact iff_of_true (hkept fun s r => hr.sendingTo.mp) id
    · exact iff_of_true (hkept fun s r => hf.sendingTo) id
  | @interrupt irq pid hlive hirq =>
    rcases hi.outcome_interrupt irq pid with hu | ⟨m, hh, -⟩
    · exact iff_of_true (hkept fun s r => hu.sendingTo.mp) id
    · exact iff_of_true (hkept fun s r => (hi.sendingTo_handed hh).mp) id
  | @exception exc data pid hlive hexc =>
    rcases hi.outcome_exception exc data pid with hu | ⟨m, hh, -⟩
    · exact iff_of_true (hkept fun s r => hu.sendingTo.mp) id
    · exact iff_of_true (hkept fun s r => (hi.sendingTo_handed hh).mp) id

/-! ### The walk ends where there are no circles -/

/-- The print loop ends on a path that leads to a process sending to `src`. -/
theorem printSendChain_ends (hpid : k.pid q = q) (hlast : k.SendingTo s q)
    (hpath : ReflTransGen k.SendingTo p s) :
    ∃ n, ∀ fuel, n ≤ fuel → (printSendChain k q fuel p).isSome := by
  induction hpath using ReflTransGen.head_induction_on with
  | refl =>
    refine ⟨1, fun fuel hf => ?_⟩
    obtain ⟨fuel, rfl⟩ := Nat.exists_eq_add_of_le' hf
    have hto : k.pid (k.pending s).receiver = q := by rw [hlast.2, hpid]
    simp [printSendChain, hto]
  | @head p x hpx hxs ih =>
    obtain ⟨n, hn⟩ := ih
    refine ⟨n + 1, fun fuel hf => ?_⟩
    obtain ⟨fuel, rfl⟩ := Nat.exists_eq_add_of_le' (Nat.le_of_add_left_le hf)
    have hto : (k.pending p).receiver = x := hpx.2
    simp only [printSendChain, hto]
    split
    · rfl
    · rw [Option.isSome_map]
      exact hn _ (by omega)

/-- The loop of the deadlock check ends, from every process the walk can reach. -/
theorem IpcInv.deadLockWalk_ends (hi : IpcInv w k) (hac : Acyclic k.SendingTo) (hq : w.live q)
    (r p : Pid) (hpath : ReflTransGen k.SendingTo r p) :
    ∃ n, ∀ m fuel, n ≤ m → n ≤ fuel → (deadLockWalk k fuel q r m p).isSome := by
  have hfin : {p | w.live p}.Finite := (Set.finite_lt_nat procAny).subset w.live_lt
  have hlive : ∀ a b, k.SendingTo a b → a ∈ {p | w.live p} ∧ b ∈ {p | w.live p} := by
    intro a b hab
    obtain ⟨ha, hb, -⟩ := hi.sending a hab.1
    exact ⟨ha, hab.2 ▸ hb⟩
  induction p using hac.induction hfin hlive with
  | hstep p ih =>
    by_cases hs : k.Is p procStatusSending
    · have hpx : k.SendingTo p (k.pending p).receiver := ⟨hs, rfl⟩
      by_cases hsrc : (k.pending p).receiver = q
      · -- the caller itself is reached: the chain is printed
        rw [hsrc] at hpx
        obtain ⟨n, hn⟩ := printSendChain_ends (hi.pid_eq q hq) hpx hpath
        refine ⟨n + 1, fun m fuel hm hf => ?_⟩
        obtain ⟨m, rfl⟩ := Nat.exists_eq_add_of_le' (Nat.le_of_add_left_le hm)
        simp only [deadLockWalk, if_pos hs, if_pos hsrc, Option.isSome_map]
        exact hn fuel (by omega)
      · obtain ⟨n, hn⟩ := ih _ hpx (hpath.tail hpx)
        refine ⟨n + 1, fun m fuel hm hf => ?_⟩
        obtain ⟨m, rfl⟩ := Nat.exists_eq_add_of_le' (Nat.le_of_add_left_le hm)
        simp only [deadLockWalk, if_pos hs, if_neg hsrc]
        exact hn m fuel (by omega) (by omega)
    · refine ⟨1, fun m fuel hm _ => ?_⟩
      obtain ⟨m, rfl⟩ := Nat.exists_eq_add_of_le' hm
      simp only [deadLockWalk, if_neg hs]
      rfl

theorem IpcInv.walkEnds (hi : IpcInv w k) (hac : Acyclic k.SendingTo) : WalkEnds w k := by
  intro p va hlive hawake hbuf hto
  have hi₁ : IpcInv w (k.stampSender p va) := hi.writeOwn hawake hbuf.2 _
  have hac₁ : Acyclic (k.stampSender p va).SendingTo :=
    hac.mono fun s r => (hi.undisturbed_writeOwn hawake hbuf.2).sendingTo.mp
  rw [hi.pid_eq p hlive]
  obtain ⟨n, hn⟩ := hi₁.deadLockWalk_ends hac₁ hlive _ _ ReflTransGen.refl
  exact ⟨n, fun fuel hf => hn fuel fuel hf hf⟩

theorem Boot.acyclic (h₀ : Boot w k₀) : Acyclic k₀.SendingTo := by
  intro p hp
  obtain ⟨q, hpq, -⟩ := TransGen.head'_iff.mp hp
  exact (h₀.quiet p).1 hpq.1

/-! ### Round a circle -/

/-- While `p` and `q` wait for each other, the check for a send of another process goes round. -/
theorem deadLockWalk_spins (h₁ : k.SendingTo p q) (h₂ : k.SendingTo q p) (hp : p ≠ s) (hq : q ≠ s) (fuel : ℕ)
    (r : Pid) (n : ℕ) : deadLockWalk k fuel s r n p = none ∧ deadLockWalk k fuel s r n q = none := by
  induction n with
  | zero => exact ⟨rfl, rfl⟩
  | succ n ih =>
    constructor
    · simp only [deadLockWalk, if_pos h₁.1, h₁.2, if_neg hq]
      exact ih.2
    · simp only [deadLockWalk, if_pos h₂.1, h₂.2, if_neg hp]
      exact ih.1

def demoReply : Message := { (default : Message) with receiver := 1 }

/-- Number 1 waits for number 2, which has a message for number 1. -/
def demoCrossed : Kernel := demoSent.writeMsg 9000 demoReply

end OmochaOS
