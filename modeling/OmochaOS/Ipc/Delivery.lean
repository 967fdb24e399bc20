import OmochaOS.Ipc.Outcome
import OmochaOS.Ipc.Rendezvous

/-!
# Exactly-once, in-order delivery

A `History` is a kernel state together with a record of the run so far: what was sent, what every
returning receive handed over, the filter each process last asked with, and, for each process, the
senders blocked on it in the order in which they blocked.  The record is written from what can be
observed of a step (arguments, status bits before and after, buffer contents after), not from the
branch the kernel took.

`DeliveryInv` says that whatever a process has sent is what has been received from it, in order,
followed by the one message it is blocked with, if it is blocked.  `DeliveryInv.delivered` draws the
conclusions.
-/

namespace OmochaOS

open IntrusiveList TransitionRun BitFlags Kernel

/-- The part of a message a process can rely on. -/
structure Letter where
  sender : ℕ
  type : ℕ
  major : ℕ
  data : MessageData
deriving DecidableEq

def Message.letter (m : Message) : Letter := ⟨m.sender, m.type, m.major, m.data⟩

/-- `src` has called `__send_msg` with a message for `dst`. -/
structure Sent where
  src : Pid
  dst : Pid
  letter : Letter

/-- A receive of `dst` with filter `filter` has returned with `message` in the buffer. -/
structure Received where
  dst : Pid
  filter : ℕ
  message : Message

structure History where
  kernel : Kernel
  sent : List Sent
  received : List Received
  /-- the filter of each process's last receive -/
  filter : Pid → ℕ
  /-- the processes blocked in a send to each process, in the order in which they blocked -/
  waiting : Pid → List Pid

namespace History

variable (h : History)

/-- Nothing has happened yet. -/
def start (k : Kernel) : History := ⟨k, [], [], fun _ => 0, fun _ => []⟩

/-- What is sent in a step. -/
def posted : Event → List Sent
  | .send _ p va => [⟨p, (h.kernel.stamped p va).receiver, (h.kernel.stamped p va).letter⟩]
  | _ => []

/-- Who joins the processes blocked on `r` in a step. -/
def blockedOn (e : Event) (k' : Kernel) (r : Pid) : List Pid :=
  match e with
  | .send _ p va => if (h.kernel.stamped p va).receiver = r ∧ k'.Sending p then [p] else []
  | _ => []

/-- The filters after a step. -/
def asked : Event → Pid → ℕ
  | .recv _ p _ f => Function.update h.filter p f
  | _ => h.filter

/-- The receives that return in a step, with their filters. -/
def returned (e : Event) (k' : Kernel) : List Received :=
  (h.kernel.returns e k').map fun x => ⟨x.1, h.asked e x.1, x.2⟩

/-- The history after a step to `k'`. -/
def record (e : Event) (k' : Kernel) : History where
  kernel := k'
  sent := h.sent ++ h.posted e
  received := h.received ++ h.returned e k'
  filter := h.asked e
  waiting r := (h.waiting r ++ h.blockedOn e k' r).filter fun s => k'.Sending s

/-- What `s` has sent, with the process each message was for. -/
def sentBy (s : Pid) : List (Pid × Letter) :=
  (h.sent.filter fun x => x.src = s).map fun x => (x.dst, x.letter)

/-- What has been received from `s`, with the process that received it. -/
def receivedFrom (s : Pid) : List (Pid × Letter) :=
  (h.received.filter fun x => x.message.sender = s).map fun x => (x.dst, x.message.letter)

/-- The message `s` is blocked with. -/
def outstanding (s : Pid) : List (Pid × Letter) :=
  if h.kernel.Sending s then [((h.kernel.pending s).receiver, (h.kernel.pending s).letter)] else []

end History

/-- The letters for `r`. -/
def lettersTo (r : Pid) (l : List (Pid × Letter)) : List Letter :=
  (l.filter fun x => x.1 = r).map Prod.snd

/-- A step of the system, recorded. -/
inductive LogStep (w : World) : History → Event → History → Prop
  | record {h : History} {e : Event} {k' : Kernel} (hstep : Step w h.kernel e k') :
      LogStep w h e (h.record e k')

/-! ### The invariant -/

structure DeliveryInv (w : World) (h : History) : Prop where
  ipc : IpcInv w h.kernel
  filter : ∀ r, h.kernel.Receving r → (h.kernel.pending r).sender = h.filter r
  stamped : ∀ r, h.kernel.Receving r → (h.kernel.pending r).receiver = r
  exact : ∀ s, w.live s → h.sentBy s = h.receivedFrom s ++ h.outstanding s
  addressed : ∀ x ∈ h.received, x.message.receiver = x.dst
  filtered : ∀ x ∈ h.received, x.filter = procAny ∨ x.message.sender = x.filter
  waiting : ∀ r, QueneOf h.kernel r (h.waiting r)

variable {w : World} {h h' : History} {k₀ k' : Kernel} {p r s : Pid} {e : Event}

theorem Boot.deliveryInv (h₀ : Boot w k₀) : DeliveryInv w (History.start k₀) where
  ipc := h₀.ipcInv
  filter r hr := absurd hr (h₀.quiet r).2
  stamped r hr := absurd hr (h₀.quiet r).2
  exact s _ := by
    have hs : ¬ k₀.Sending s := (h₀.quiet s).1
    show [] = [] ++ (if k₀.Sending s then _ else [])
    rw [if_neg hs]
    rfl
  addressed x hx := by cases hx
  filtered x hx := by cases hx
  waiting r := by
    apply h₀.ipcInv.queneOf_of_chain
    rw [h₀.queneHead r]
    exact Chain.nil

/-! ### How a step extends the record -/

theorem History.sentBy_record :
    (h.record e k').sentBy s =
      h.sentBy s ++ ((h.posted e).filter fun x => x.src = s).map fun x => (x.dst, x.letter) := by
  show ((h.sent ++ h.posted e).filter _).map _ = _
  rw [List.filter_append, List.map_append]
  rfl

theorem History.receivedFrom_record :
    (h.record e k').receivedFrom s = h.receivedFrom s ++
      ((h.returned e k').filter fun x => x.message.sender = s).map
        fun x => (x.dst, x.message.letter) := by
  show ((h.received ++ h.returned e k').filter _).map _ = _
  rw [List.filter_append, List.map_append]
  rfl

/-- Nothing is outstanding of a process that is not blocked in a send. -/
theorem History.outstanding_of_not (hs : ¬ h.kernel.Sending s) : h.outstanding s = [] := if_neg hs

/-- A sender whose status and message are unchanged has the same message outstanding. -/
theorem History.outstanding_congr (hs : k'.Sending s ↔ h.kernel.Sending s)
    (hp : h.kernel.Sending s → k'.pending s = h.kernel.pending s) :
    (h.record e k').outstanding s = h.outstanding s := by
  show (if k'.Sending s then [((k'.pending s).receiver, (k'.pending s).letter)] else []) = _
  by_cases hk : h.kernel.Sending s
  · rw [if_pos (hs.mpr hk), hp hk]
    exact (if_pos hk).symm
  · rw [if_neg fun h' => hk (hs.mp h')]
    exact (if_neg hk).symm

/-- The bookkeeping of a step in which nobody sends and what returns is no message of a process. -/
theorem DeliveryInv.exact_of_quiet (hd : DeliveryInv w h) (hpost : h.posted e = [])
    (hret : ∀ x ∈ h.returned e k', x.message.sender = procInterrupt)
    (hsend : ∀ s, k'.Sending s ↔ h.kernel.Sending s)
    (hpend : ∀ s, h.kernel.Sending s → k'.pending s = h.kernel.pending s) (hs : w.live s) :
    (h.record e k').sentBy s = (h.record e k').receivedFrom s ++ (h.record e k').outstanding s := by
  have hno : ((h.returned e k').filter fun x => x.message.sender = s) = [] := by
    rw [List.filter_eq_nil_iff]
    intro x hx hxs
    have hlt := w.live_lt s hs
    have hxs' : x.message.sender = s := of_decide_eq_true hxs
    rw [← hxs', hret x hx] at hlt
    simp [procInterrupt, procAny] at hlt
  rw [History.sentBy_record, History.receivedFrom_record, hno, hpost,
    History.outstanding_congr (hsend s) (hpend s)]
  simpa using hd.exact s hs

/-- Waiting lists only lose processes that are no longer blocked. -/
theorem History.waiting_of_kept {l : List Pid}
    (hq : QueneOf k' r (h.waiting r ++ l)) (hb : h.blockedOn e k' r = l) :
    QueneOf k' r ((h.record e k').waiting r) := by
  have hall : ∀ x ∈ h.waiting r ++ l, decide (k'.Sending x) = true :=
    fun x hx => decide_eq_true ((hq.mem_iff x).mp hx).1
  have heq : (h.record e k').waiting r = h.waiting r ++ l := by
    show (h.waiting r ++ h.blockedOn e k' r).filter _ = _
    rw [hb]
    exact List.filter_eq_self.mpr hall
  rw [heq]
  exact hq

/-! ### One lemma for each effect -/

/-- What is recorded of a process handed `m`. -/
theorem History.returned_of_handed {m : Message} (hh : Handed h.kernel k' r m)
    (hasked : h.asked e = h.filter) (hret : h.kernel.returns e k' = h.kernel.wokenWith k' r) :
    h.returned e k' = [⟨r, h.filter r, m⟩] := by
  rw [History.returned, hret, hh.wokenWith, hasked]
  rfl

theorem History.returned_of_none (hret : h.kernel.returns e k' = []) : h.returned e k' = [] := by
  rw [History.returned, hret]
  rfl

/-- A step that disturbs nobody, sends nothing, and returns notifications at most. -/
theorem DeliveryInv.undisturbed (hd : DeliveryInv w h) (hi' : IpcInv w k')
    (hu : Undisturbed h.kernel k') (hpost : h.posted e = []) (hblk : ∀ r, h.blockedOn e k' r = [])
    (hasked : ∀ r, h.kernel.Receving r → h.asked e r = h.filter r)
    (hret : ∀ x ∈ h.returned e k', x.message.sender = procInterrupt ∧ x.message.receiver = x.dst ∧
      AcceptsNotice x.filter) : DeliveryInv w (h.record e k') where
  ipc := hi'
  filter r hr := by
    have hr' := (hu.receving r).mp hr
    show (k'.pending r).sender = h.asked e r
    rw [hu.pending r (Or.inr hr'), hasked r hr']
    exact hd.filter r hr'
  stamped r hr := by
    have hr' := (hu.receving r).mp hr
    show (k'.pending r).receiver = r
    rw [hu.pending r (Or.inr hr')]
    exact hd.stamped r hr'
  exact s hs := hd.exact_of_quiet hpost (fun x hx => (hret x hx).1) hu.sending
    (fun s hs => hu.pending s (Or.inl hs)) hs
  addressed x hx := by
    rcases List.mem_append.mp hx with hx | hx
    · exact hd.addressed x hx
    · exact (hret x hx).2.1
  filtered x hx := by
    rcases List.mem_append.mp hx with hx | hx
    · exact hd.filtered x hx
    · obtain ⟨hsender, -, hf | hf⟩ := hret x hx
      · exact Or.inr (hsender.trans hf.symm)
      · exact Or.inl hf
  waiting r := by
    refine History.waiting_of_kept (l := []) ?_ (hblk r)
    rw [List.append_nil]
    exact hu.quene r _ (hd.waiting r)

/-- A process is woken with a message, sent in this step or a notification. -/
theorem DeliveryInv.handed {m : Message} (hd : DeliveryInv w h) (hi' : IpcInv w k')
    (hh : Handed h.kernel k' r m) (hasked : h.asked e = h.filter)
    (hret : h.kernel.returns e k' = h.kernel.wokenWith k' r) (hblk : ∀ q, h.blockedOn e k' q = [])
    (hexact : ∀ s, w.live s → (h.record e k').sentBy s =
      (h.record e k').receivedFrom s ++ (h.record e k').outstanding s)
    (hto : m.receiver = r)
    (hfilter : (h.kernel.pending r).sender = procAny ∨ (h.kernel.pending r).sender = m.sender) :
    DeliveryInv w (h.record e k') where
  ipc := hi'
  filter q hq := by
    obtain ⟨hne, hq'⟩ := (hh.receving q).mp hq
    show (k'.pending q).sender = h.asked e q
    rw [hh.pending q (Or.inr hq') hne, hasked]
    exact hd.filter q hq'
  stamped q hq := by
    obtain ⟨hne, hq'⟩ := (hh.receving q).mp hq
    show (k'.pending q).receiver = q
    rw [hh.pending q (Or.inr hq') hne]
    exact hd.stamped q hq'
  exact := hexact
  addressed x hx := by
    rcases List.mem_append.mp hx with hx | hx
    · exact hd.addressed x hx
    · rw [History.returned_of_handed hh hasked hret] at hx
      obtain rfl := List.mem_singleton.mp hx
      exact hto
  filtered x hx := by
    rcases List.mem_append.mp hx with hx | hx
    · exact hd.filtered x hx
    · rw [History.returned_of_handed hh hasked hret] at hx
      obtain rfl := List.mem_singleton.mp hx
      rw [hd.filter r hh.waited] at hfilter
      exact hfilter.imp id Eq.symm
  waiting q := by
    refine History.waiting_of_kept (l := []) ?_ (hblk q)
    rw [List.append_nil]
    exact hh.quene q _ (hd.waiting q)

/-- A notification wakes a process. -/
theorem DeliveryInv.handed_notice {m : Message} (hd : DeliveryInv w h) (hi' : IpcInv w k')
    (hh : Handed h.kernel k' r m) (hpost : h.posted e = []) (hasked : h.asked e = h.filter)
    (hret : h.kernel.returns e k' = h.kernel.wokenWith k' r) (hblk : ∀ q, h.blockedOn e k' q = [])
    (hms : m.sender = procInterrupt) (hto : m.receiver = r)
    (hfilter : (h.kernel.pending r).sender = procAny ∨
      (h.kernel.pending r).sender = procInterrupt) : DeliveryInv w (h.record e k') := by
  refine hd.handed hi' hh hasked hret hblk ?_ hto (by rw [hms]; exact hfilter)
  have hne : ∀ {s}, h.kernel.Sending s → s ≠ r := fun hs he => hd.ipc.notBoth r ⟨he ▸ hs, hh.waited⟩
  refine fun s hs => hd.exact_of_quiet hpost ?_ hh.sending
    (fun s hs => hh.pending s (Or.inl hs) (hne hs)) hs
  intro x hx
  rw [History.returned_of_handed hh hasked hret] at hx
  obtain rfl := List.mem_singleton.mp hx
  exact hms

section Send

variable {fuel : ℕ} {va : VAddr}

/-- A message goes straight to a process that waits for it. -/
theorem DeliveryInv.handed_letter (hd : DeliveryInv w h) (hi' : IpcInv w k')
    (hawake : h.kernel.Awake p)
    (hh : Handed h.kernel k' (h.kernel.stamped p va).receiver
      { h.kernel.stamped p va with ready := false })
    (hadm : Admits (h.kernel.pending (h.kernel.stamped p va).receiver).sender p) :
    DeliveryInv w (h.record (.send fuel p va) k') := by
  set r := (h.kernel.stamped p va).receiver with hr
  have hns : ¬ k'.Sending p := fun hs => hawake.1 ((hh.sending p).mp hs)
  have hblk : ∀ q, h.blockedOn (.send fuel p va) k' q = [] := fun q => if_neg fun hc => hns hc.2
  refine hd.handed hi' hh rfl rfl hblk ?_ rfl hadm
  intro s hs
  have hne : ∀ {s}, h.kernel.Sending s → s ≠ r := fun hs he => hd.ipc.notBoth r ⟨he ▸ hs, hh.waited⟩
  have hout : (h.record (.send fuel p va) k').outstanding s = h.outstanding s :=
    History.outstanding_congr (hh.sending s) fun hk => hh.pending s (Or.inl hk) (hne hk)
  rw [History.sentBy_record, History.receivedFrom_record, hout, hd.exact s hs,
    History.returned_of_handed hh rfl rfl]
  show _ ++ List.map _ (List.filter _ [_]) = _
  by_cases hsp : p = s
  · -- the caller was not blocked, so it had nothing outstanding
    subst hsp
    rw [History.outstanding_of_not hawake.1]
    simp [Kernel.stamped, Message.letter, hr]
  · simp [Kernel.stamped, hsp]

/-- A message is parked with its sender. -/
theorem DeliveryInv.parked (hd : DeliveryInv w h) (hi' : IpcInv w k') (hawake : h.kernel.Awake p)
    (hp : Parked h.kernel k' p (h.kernel.stamped p va).receiver (h.kernel.stamped p va)) :
    DeliveryInv w (h.record (.send fuel p va) k') := by
  set r := (h.kernel.stamped p va).receiver with hr
  have hps : k'.Sending p := (hp.sending p).mpr (Or.inl rfl)
  have hret : h.returned (.send fuel p va) k' = [] :=
    History.returned_of_none (wokenWith_of_kept (hp.receving r))
  constructor
  case ipc => exact hi'
  case filter =>
    intro q hq
    have hq' := (hp.receving q).mp hq
    show (k'.pending q).sender = h.filter q
    rw [hp.pending q (Or.inr hq')]
    exact hd.filter q hq'
  case stamped =>
    intro q hq
    have hq' := (hp.receving q).mp hq
    show (k'.pending q).receiver = q
    rw [hp.pending q (Or.inr hq')]
    exact hd.stamped q hq'
  case exact =>
    intro s hs
    rw [History.sentBy_record, History.receivedFrom_record, hret, hd.exact s hs]
    show _ ++ List.map _ (List.filter _ [_]) = _
    by_cases hsp : p = s
    · subst hsp
      have hout : (h.record (.send fuel p va) k').outstanding p =
          [((k'.pending p).receiver, (k'.pending p).letter)] := if_pos hps
      rw [History.outstanding_of_not hawake.1, hout, hp.parked]
      simp
    · have hout : (h.record (.send fuel p va) k').outstanding s = h.outstanding s := by
        refine History.outstanding_congr ?_ fun hk => hp.pending s (Or.inl hk)
        rw [hp.sending s]
        exact or_iff_right (Ne.symm hsp)
      rw [hout]
      simp [hsp]
  case addressed =>
    intro x hx
    have hx' : x ∈ h.received ++ h.returned (.send fuel p va) k' := hx
    rw [hret, List.append_nil] at hx'
    exact hd.addressed x hx'
  case filtered =>
    intro x hx
    have hx' : x ∈ h.received ++ h.returned (.send fuel p va) k' := hx
    rw [hret, List.append_nil] at hx'
    exact hd.filtered x hx'
  case waiting =>
    intro q
    have hq := hp.quene q _ (hd.waiting q)
    by_cases hqr : q = r
    · rw [if_pos hqr] at hq
      exact History.waiting_of_kept hq (if_pos ⟨hqr.symm, hps⟩)
    · rw [if_neg hqr] at hq
      refine History.waiting_of_kept (l := []) ?_ (if_neg fun hc => hqr hc.1.symm)
      rw [List.append_nil]
      exact hq

end Send

section Receive

variable {fuel f : ℕ} {va : VAddr}

/-- A process goes to sleep. -/
theorem DeliveryInv.rested (hd : DeliveryInv w h) (hi' : IpcInv w k')
    (hr : Rested h.kernel k' p f) : DeliveryInv w (h.record (.recv fuel p va f) k') := by
  have hret : h.returned (.recv fuel p va f) k' = [] :=
    History.returned_of_none (if_neg fun hc => hc.2 ((hr.receving p).mpr (Or.inl rfl)))
  constructor
  case ipc => exact hi'
  case filter =>
    intro q hq
    show (k'.pending q).sender = Function.update h.filter p f q
    by_cases hqp : q = p
    · rw [hqp, Function.update_self]
      exact hr.filter
    · have hq' := ((hr.receving q).mp hq).resolve_left hqp
      rw [Function.update_of_ne hqp, hr.pending q (Or.inr hq')]
      exact hd.filter q hq'
  case stamped =>
    intro q hq
    show (k'.pending q).receiver = q
    by_cases hqp : q = p
    · rw [hqp]
      exact hr.addressed
    · have hq' := ((hr.receving q).mp hq).resolve_left hqp
      rw [hr.pending q (Or.inr hq')]
      exact hd.stamped q hq'
  case exact =>
    intro s hs
    refine hd.exact_of_quiet rfl ?_ hr.sending (fun s hs => hr.pending s (Or.inl hs)) hs
    rw [hret]
    simp
  case addressed =>
    intro x hx
    have hx' : x ∈ h.received ++ h.returned (.recv fuel p va f) k' := hx
    rw [hret, List.append_nil] at hx'
    exact hd.addressed x hx'
  case filtered =>
    intro x hx
    have hx' : x ∈ h.received ++ h.returned (.recv fuel p va f) k' := hx
    rw [hret, List.append_nil] at hx'
    exact hd.filtered x hx'
  case waiting =>
    intro q
    refine History.waiting_of_kept (l := []) ?_ rfl
    rw [List.append_nil]
    exact hr.quene q _ (hd.waiting q)

/-- A process fetches the message of a blocked sender. -/
theorem DeliveryInv.fetched (hd : DeliveryInv w h) (hi' : IpcInv w k') (hawake : h.kernel.Awake p)
    (hf0 : f ≠ 0) (hf : Fetched h.kernel k' p s (h.kernel.msgAddr p va))
    (hfrom : f = procAny ∨ f = s) : DeliveryInv w (h.record (.recv fuel p va f) k') := by
  have hs := hf.parked.1
  have hpend := hd.ipc.sending s hs
  have hnr : ¬ k'.Receving p := fun hr => hawake.2 ((hf.receving p).mp hr)
  have hret : h.returned (.recv fuel p va f) k' = [⟨p, f, h.kernel.pending s⟩] := by
    have hk : h.kernel.returns (.recv fuel p va f) k' = [(p, h.kernel.pending s)] := by
      rw [← hf.memory]
      exact if_pos ⟨hf0, hnr⟩
    rw [History.returned, hk]
    show [(⟨p, Function.update h.filter p f p, h.kernel.pending s⟩ : Received)] = _
    rw [Function.update_self]
  constructor
  case ipc => exact hi'
  case filter =>
    intro q hq
    have hq' := (hf.receving q).mp hq
    have hqp : q ≠ p := hawake.ne (Or.inr hq')
    have hqs : q ≠ s := fun he => hd.ipc.notBoth s ⟨hs, he ▸ hq'⟩
    show (k'.pending q).sender = Function.update h.filter p f q
    rw [Function.update_of_ne hqp, hf.pending q (Or.inr hq') hqs]
    exact hd.filter q hq'
  case stamped =>
    intro q hq
    have hq' := (hf.receving q).mp hq
    have hqs : q ≠ s := fun he => hd.ipc.notBoth s ⟨hs, he ▸ hq'⟩
    show (k'.pending q).receiver = q
    rw [hf.pending q (Or.inr hq') hqs]
    exact hd.stamped q hq'
  case exact =>
    intro q hq
    rw [History.sentBy_record, History.receivedFrom_record, hret, hd.exact q hq]
    by_cases hqs : q = s
    · -- the outstanding message becomes the last one received
      subst hqs
      have hns : ¬ k'.Sending q := fun hq' => ((hf.sending q).mp hq').1 rfl
      have hold : h.outstanding q =
          [((h.kernel.pending q).receiver, (h.kernel.pending q).letter)] := if_pos hs
      rw [hold, hf.parked.2]
      rw [show (h.record (.recv fuel p va f) k').outstanding q = [] from if_neg hns]
      simp [History.posted, hpend.2.2]
    · have hout : (h.record (.recv fuel p va f) k').outstanding q = h.outstanding q := by
        refine History.outstanding_congr ?_ fun hk => hf.pending q (Or.inl hk) hqs
        rw [hf.sending q]
        exact and_iff_right hqs
      have hsq : ¬ s = q := fun he => hqs he.symm
      rw [hout]
      simp [History.posted, hpend.2.2, hsq]
  case addressed =>
    intro x hx
    rcases List.mem_append.mp hx with hx | hx
    · exact hd.addressed x hx
    · rw [hret] at hx
      obtain rfl := List.mem_singleton.mp hx
      exact hf.parked.2
  case filtered =>
    intro x hx
    rcases List.mem_append.mp hx with hx | hx
    · exact hd.filtered x hx
    · rw [hret] at hx
      obtain rfl := List.mem_singleton.mp hx
      exact hfrom.imp id fun he => hpend.2.2.trans he.symm
  case waiting =>
    intro q
    have hq := hd.waiting q
    have hq' := hf.quene q _ hq
    have heq : (h.record (.recv fuel p va f) k').waiting q =
        if q = p then (h.waiting q).erase s else h.waiting q := by
      show (h.waiting q ++ []).filter _ = _
      rw [List.append_nil]
      split
      · rw [hq.nodup.erase_eq_filter]
        apply List.filter_congr
        intro x hx
        have hxs : k'.Sending x ↔ x ≠ s :=
          (hf.sending x).trans (and_iff_left ((hq.mem_iff x).mp hx).1)
        rw [Bool.eq_iff_iff]
        simp [hxs]
      · rename_i hqp
        rw [List.filter_eq_self]
        intro x hx
        have hxq := (hq.mem_iff x).mp hx
        refine decide_eq_true ((hf.sending x).mpr ⟨fun he => hqp ?_, hxq.1⟩)
        rw [he] at hxq
        exact hxq.2.symm.trans hf.parked.2
    rw [heq]
    exact hq'

end Receive

/-! ### Steps -/

/-- **Every recorded step keeps the invariant.** -/
theorem DeliveryInv.step (hd : DeliveryInv w h) (hstep : LogStep w h e h') : DeliveryInv w h' := by
  obtain ⟨hstep⟩ := hstep
  have hi' := hd.ipc.step hstep
  cases hstep with
  | user hlive hawake hown =>
    exact hd.undisturbed hi' (hd.ipc.undisturbed_writeOwn hawake hown) rfl (fun _ => rfl)
      (fun _ _ => rfl) (fun x hx => by cases hx)
  | @send k' fuel p va hlive hawake hbuf hto hcall =>
    rcases hd.ipc.outcome_send hlive hawake hbuf hto hcall with ⟨hh, hadm⟩ | hp
    · exact hd.handed_letter hi' hawake hh hadm
    · exact hd.parked hi' hawake hp
  | @recv k' fuel p va f hlive hawake hbuf hfilter hcall =>
    rcases hd.ipc.outcome_recv hlive hawake hbuf hcall with ⟨hu, hf⟩ | hr | ⟨hf0, s, hf, hfrom⟩
    · refine hd.undisturbed hi' hu rfl (fun _ => rfl) ?_ ?_
      · intro q hq
        exact Function.update_of_ne (hawake.ne (Or.inr hq)) _ _
      · intro x hx
        simp only [History.returned, Kernel.returns] at hx
        split at hx
        · rename_i hc
          obtain rfl := List.mem_singleton.mp hx
          obtain ⟨hacc, -, hsender, hto⟩ := hf.resolve_left hc.1
          refine ⟨hsender, hto, ?_⟩
          show AcceptsNotice (Function.update h.filter p f p)
          rw [Function.update_self]
          exact hacc
        · cases hx
    · exact hd.rested hi' hr
    · exact hd.fetched hi' hawake hf0 hf (hfrom.imp And.left id)
  | @interrupt irq pid hlive hirq =>
    rcases hd.ipc.outcome_interrupt irq pid with hu | ⟨m, hh, hms, hto, hf⟩
    · have hret : h.returned (.interrupt irq pid) (h.kernel.sendInterruptMsg irq pid) = [] :=
        History.returned_of_none (wokenWith_of_kept (hu.receving pid))
      refine hd.undisturbed hi' hu rfl (fun _ => rfl) (fun _ _ => rfl) ?_
      rw [hret]
      simp
    · exact hd.handed_notice hi' hh rfl rfl rfl (fun _ => rfl) hms
        (hto.trans (hd.stamped pid hh.waited)) hf
  | @exception exc data pid hlive hexc =>
    rcases hd.ipc.outcome_exception exc data pid with hu | ⟨m, hh, hms, hto, hf⟩
    · have hret : h.returned (.exception exc data pid) (h.kernel.sendExceptionMsg exc data pid)
          = [] := History.returned_of_none (wokenWith_of_kept (hu.receving pid))
      refine hd.undisturbed hi' hu rfl (fun _ => rfl) (fun _ _ => rfl) ?_
      rw [hret]
      simp
    · exact hd.handed_notice hi' hh rfl rfl rfl (fun _ => rfl) hms
        (hto.trans (hd.stamped pid hh.waited)) hf

/-! ### Delivery -/

theorem lettersTo_append {l l' : List (Pid × Letter)} :
    lettersTo r (l ++ l') = lettersTo r l ++ lettersTo r l' := by
  show ((l ++ l').filter _).map _ = _
  rw [List.filter_append, List.map_append]
  rfl

/-- What has been received from a process is a prefix of what it has sent. -/
theorem DeliveryInv.receivedFrom_prefix (hd : DeliveryInv w h) (hs : w.live s) :
    h.receivedFrom s <+: h.sentBy s := by
  rw [hd.exact s hs]
  exact List.prefix_append _ _

/-- A process has at most one message in flight. -/
theorem DeliveryInv.length_sentBy (hd : DeliveryInv w h) (hs : w.live s) :
    (h.sentBy s).length ≤ (h.receivedFrom s).length + 1 := by
  have hlen : (h.outstanding s).length ≤ 1 := by
    unfold History.outstanding
    split <;> simp
  rw [hd.exact s hs, List.length_append]
  omega

/-- An unfiltered receive that is not answered by a notification takes the sender that has been
blocked longest. -/
theorem DeliveryInv.head_of_returned {fuel : ℕ} {va : VAddr} {m : Message}
    (hd : DeliveryInv w h) (hstep : LogStep w h (.recv fuel p va procAny) h')
    (hret : ⟨p, procAny, m⟩ ∈ h.returned (.recv fuel p va procAny) h'.kernel)
    (hm : m.sender ≠ procInterrupt) : (h.waiting p).head? = some m.sender := by
  obtain ⟨hstep⟩ := hstep
  rename_i k'
  simp only [History.returned, Kernel.returns] at hret
  split at hret
  · rename_i hc
    obtain ⟨-, -, rfl⟩ := Received.mk.inj (List.mem_singleton.mp hret)
    cases hstep with
    | recv hlive hawake hbuf hfilter hcall =>
      rcases hd.ipc.outcome_recv hlive hawake hbuf hcall with
        ⟨-, hf | hf⟩ | hr | ⟨-, s, hf, hfrom⟩
      · cases hf
      · exact absurd hf.2.2.1 hm
      · exact absurd ((hr.receving p).mpr (Or.inl rfl)) hc.2
      · have hsend := hd.ipc.sending s hf.parked.1
        have hlt := w.live_lt s hsend.1
        rcases hfrom with ⟨-, hhead⟩ | he
        · have hchain := (hd.waiting p).chain
          rw [hhead] at hchain
          obtain ⟨t, ht, -⟩ := chain_some_iff.mp hchain
          have hm' : (k'.memory (h.kernel.msgAddr p va)).sender = s := by
            rw [hf.memory, hsend.2.2]
          rw [ht]
          exact congrArg some hm'.symm
        · exact absurd he (Nat.ne_of_gt hlt)
  · cases hret

/-- For every pair of processes, the letters `r` has received from `s` are a prefix of those `s` has sent to `r`;
across all receivers, at most one message of `s` is outstanding; a message reaches only the process it names and
one its sender sent to it; and a receive filtered on one process returns only messages of that process. -/
structure Delivered (w : World) (h : History) : Prop where
  ordered : ∀ s r, w.live s → lettersTo r (h.receivedFrom s) <+: lettersTo r (h.sentBy s)
  outstanding : ∀ s, w.live s → (h.sentBy s).length ≤ (h.receivedFrom s).length + 1
  addressed : ∀ x ∈ h.received, x.message.receiver = x.dst
  sent : ∀ x ∈ h.received, w.live x.message.sender → (x.dst, x.message.letter) ∈ h.sentBy x.message.sender
  filtered : ∀ x ∈ h.received, x.filter ≠ procAny → x.message.sender = x.filter

/-- **Exactly-once, in-order delivery** follows from the invariant. -/
theorem DeliveryInv.delivered (hd : DeliveryInv w h) : Delivered w h where
  ordered s r hs := by
    rw [hd.exact s hs, lettersTo_append]
    exact List.prefix_append _ _
  outstanding s hs := hd.length_sentBy hs
  addressed := hd.addressed
  sent x hx hlive := by
    apply (hd.receivedFrom_prefix hlive).subset
    exact List.mem_map.mpr ⟨x, List.mem_filter.mpr ⟨hx, decide_eq_true rfl⟩, rfl⟩
  filtered x hx hany := (hd.filtered x hx).resolve_left hany

end OmochaOS
