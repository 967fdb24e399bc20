import OmochaOS.Ipc.Preservation

/-!
# Queues and rendezvous

What `IpcInv` means for the sender queues.

* `IpcInv.unique_quene` — a blocked sender is in the queue of its receiver and in no other.
* `IpcInv.search_succeeds` — the removal in `__recv_msg` finds the sender it looks for.
-/

namespace OmochaOS

open IntrusiveList TransitionRun Kernel

variable {w : World} {k k₀ : Kernel} {p r s : Pid} {va : VAddr} {f : ℕ}

/-- A blocked sender is in the queue of its receiver and in no other. -/
theorem IpcInv.unique_quene (hi : IpcInv w k) (hs : k.Sending s) :
    ∃! r, ∃ l, Chain k.queneBody (k.queneHead r) l ∧ s ∈ l := by
  obtain ⟨l, hl, hsl⟩ := hi.quene_of_sendingTo (s := s) ⟨hs, rfl⟩
  refine ⟨(k.pending s).receiver, ⟨l, hl.chain, hsl⟩, ?_⟩
  rintro q ⟨l', hchain, hsl'⟩
  obtain ⟨lq, hlq⟩ := hi.quene q
  obtain rfl := hchain.unique hlq.chain
  exact ((hlq.mem_iff s).mp hsl').2.symm

/-- After the caller stamped its buffer, the queue search for a parked sender neither falls off the
end of the queue nor starts from an empty one, and it ends. -/
theorem IpcInv.search_succeeds (hi : IpcInv w k) (hlive : w.live r) (hawake : k.Awake r)
    (hbuf : w.OwnBuffer k r va) (hparked : (k.stampReceiver r va).HasParked r f) :
    (∀ fuel, queneSearch fuel (k.stampReceiver r va) r f ≠ .missing ∧
      queneSearch fuel (k.stampReceiver r va) r f ≠ .nullHead) ∧
    ∃ n, ∀ fuel, n ≤ fuel → queneSearch fuel (k.stampReceiver r va) r f ≠ .spinning := by
  have hi₁ : IpcInv w (k.stampReceiver r va) := hi.writeOwn hawake hbuf.2 _
  have hsr : (k.stampReceiver r va).SendingTo f r := by
    refine ⟨hparked.2.1, ?_⟩
    rw [hparked.2.2]
    exact hi₁.pid_eq r hlive
  refine ⟨fun fuel => ?_, hi₁.queneSearch_ends⟩
  rcases hi₁.queneSearch_found fuel hsr with h | ⟨prev, h⟩ | h <;> rw [h] <;> simp

/-! ### A sender that has to wait -/

/-- Four processes, of which number 1 wants to send to number 2. -/
abbrev demoWorld : World := World.isolated 4 (by decide)

def demoMessage : Message := { (default : Message) with receiver := 2 }

/-- Number 1 has written its message. -/
def demoKernel : Kernel := (Kernel.booted 4).writeMsg 5000 demoMessage

/-- Number 1 has blocked. -/
def demoSent : Kernel := (Kernel.sendMsg 4 demoKernel 1 904).get (by decide)

end OmochaOS
