import OmochaOS.Device.Requests

/-!
# Requests that wait (`modules/device/dev.c`)

A request that the implementing process answers with `DEV_STATUS_WAIT` is put on the wait list of its
device, and a `DEV_UPD` of that process takes it off again and answers the application.  The search for
it goes through the used entries, of which only the last is linked, so it gets to the wait list of the
device that was registered last and to no other.

`DevInv` is what holds in every state; what a round does to the wait lists follows from it.
-/

namespace OmochaOS.Device

open IntrusiveList TransitionRun OmochaOS.Rbtree

/-- A request that waits. -/
structure Deferred where
  appPid : ℕ
  implPid : ℕ
  type : ℕ

def deferredOf (r : DeviceRequest) : Deferred := ⟨r.appPid, r.implPid, r.type⟩

/-- The requests on the wait list of a device, the last one first. -/
def Waiting (d : Dev) (i : ℕ) (w : List Deferred) : Prop :=
  ∃ l, Chain d.requestNext (d.implList i).waitList l ∧ w = l.map fun a => deferredOf (d.request a)

/-- The application has a request waiting for the process at the device. -/
def WaitsFor (d : Dev) (i implPid appPid : ℕ) : Prop :=
  ∃ w, Waiting d i w ∧ ∃ p ∈ w, p.implPid = implPid ∧ p.appPid = appPid

/-- What `Task_DEV` receives, what others contribute, and what it does. -/
structure DevEvent where
  msg : Message
  others : Others
  round : Round

/-- A message other than `DEV_UNREG`, for a device of the table, and memory from `kmalloc` that is on no
wait list. -/
structure Admitted (n : ℕ) (d : Dev) (e : DevEvent) : Prop where
  kept : caseOf e.msg.type ≠ some .devUnreg
  inside : ∀ o ∈ [Operation.devWrite, .devOpen, .devClose, .devRead],
    caseOf e.msg.type = some o → e.msg.major ≤ n
  fresh : ∀ i ≤ n, ∀ l, Chain d.requestNext (d.implList i).waitList l → e.others.block ∉ l

structure DevStep (n : ℕ) (d : Dev) (e : DevEvent) (d' : Dev) : Prop where
  admitted : Admitted n d e
  returns : Returns (fun fuel => taskDev fuel d e.msg e.others) e.round
  target : d' = e.round.dev

/-! ### What is asked of a round -/

/-- A `DEV_UPD` takes a request of its sender for the application off its list, and sends the completion
there; where there is none, or with `DEV_STATUS_WAIT`, nothing happens. -/
structure UpdEffect (n : ℕ) (e : DevEvent) (W W' : ℕ → List Deferred) : Prop where
  completes : e.msg.major ≠ devStatusWait →
    (∃ i ≤ n, ∃ p ∈ W i, p.implPid = e.msg.sender ∧ p.appPid = e.msg.data.d4) →
    ∃ i ≤ n, ∃ l₁ p l₂, W i = l₁ ++ p :: l₂ ∧ p.implPid = e.msg.sender ∧ p.appPid = e.msg.data.d4 ∧
      (∀ j ≤ n, W' j = if j = i then l₁ ++ l₂ else W j) ∧
      ∃ m, e.round.answered = [m] ∧ m.receiver = p.appPid ∧ m.type = p.type
  ignores : (e.msg.major = devStatusWait ∨
      ¬ ∃ i ≤ n, ∃ p ∈ W i, p.implPid = e.msg.sender ∧ p.appPid = e.msg.data.d4) →
    (∀ j ≤ n, W' j = W j) ∧ e.round.answered = []

/-- A request that was passed on and answered with `DEV_STATUS_WAIT` waits from now on. -/
structure RequestEffect (n : ℕ) (e : DevEvent) (W W' : ℕ → List Deferred) : Prop where
  waits : ∀ m, e.round.forwarded = some m → e.others.reply.major = devStatusWait →
    ∀ j ≤ n, W' j = if j = e.msg.major then ⟨e.msg.sender, m.receiver, e.msg.type⟩ :: W j else W j
  others : (e.round.forwarded = none ∨ e.others.reply.major ≠ devStatusWait) → ∀ j ≤ n, W' j = W j

/-- What the round does to the requests that wait is what it should do. -/
def DeferredSound (n : ℕ) (d : Dev) (e : DevEvent) : Prop :=
  ∃ W W', (∀ i ≤ n, Waiting d i (W i)) ∧ (∀ i ≤ n, Waiting e.round.dev i (W' i)) ∧
    if caseOf e.msg.type = some .devUpd then UpdEffect n e W W' else RequestEffect n e W W'

/-- The condition: a completion finds its request, if there is one, at the device registered last. -/
def ReachesLast (n : ℕ) (d : Dev) (e : DevEvent) : Prop :=
  caseOf e.msg.type = some .devUpd → e.msg.major ≠ devStatusWait →
    (∃ i ≤ n, WaitsFor d i e.msg.sender e.msg.data.d4) →
    ∃ x, d.implUseList = some x ∧ WaitsFor d x e.msg.sender e.msg.data.d4

/-! ### The invariant -/

variable {d d' : Dev} {n i j fuel app : ℕ} {F : List ℕ} {A : ℕ → List ℕ} {e : DevEvent}

/-- The requests on the wait lists are those of `A`, each on one list only, and belong to the process of
their device. -/
structure DevInv (n : ℕ) (d : Dev) (F : List ℕ) (A : ℕ → List ℕ) : Prop where
  kept : Kept n d F
  waits : ∀ i ≤ n, Chain d.requestNext (d.implList i).waitList (A i)
  nodup : ∀ i ≤ n, (A i).Nodup
  apart : ∀ i ≤ n, ∀ j ≤ n, i ≠ j → ∀ a ∈ A i, a ∉ A j
  owner : ∀ i ≤ n, ∀ a ∈ A i, (d.request a).implPid = (d.implList i).PID
  permitted : ∀ i ≤ n, ∀ a ∈ A i, (d.implList i).hasPermissionToWriteDirectly = true
  type : ∀ i ≤ n, ∀ a ∈ A i, (d.request a).type < 2 ^ 31
  free : ∀ i ∈ F, A i = []

/-- The requests that wait, as the round sees them. -/
def waitingOf (d : Dev) (A : ℕ → List ℕ) (i : ℕ) : List Deferred :=
  (A i).map fun a => deferredOf (d.request a)

theorem DevInv.waiting (h : DevInv n d F A) (hi : i ≤ n) : Waiting d i (waitingOf d A i) :=
  ⟨A i, h.waits i hi, rfl⟩

theorem Waiting.unique {w w' : List Deferred} (h : Waiting d i w) (h' : Waiting d i w') : w = w' := by
  obtain ⟨l, hl, rfl⟩ := h
  obtain ⟨l', hl', rfl⟩ := h'
  rw [hl.unique hl']

theorem initImplList_inv (hd : Blank d) :
    DevInv n (initImplList n d) (List.range (n + 1)) fun _ => [] := by
  have hnil : Chain d.next d.implFreeList [] := by
    rw [hd.free]
    exact Chain.nil
  obtain ⟨-, hlow, -⟩ := initLoop_spec (i := n) hnil (by simp)
  refine ⟨initImplList_kept hd, fun i hi => ?_, ?_, ?_, ?_, ?_, ?_, fun _ _ => rfl⟩
  · obtain ⟨p, hp⟩ := hlow i hi
    rw [initImplList, hp]
    exact Chain.nil
  all_goals simp

/-- Only these fields of an entry matter to the lists. -/
theorem Kept.congr (h : Kept n d F) (hnext : d'.next = d.next)
    (huse : ∀ i, (d'.implList i).inUse = (d.implList i).inUse)
    (hid : ∀ i, (d'.implList i).deviceID = (d.implList i).deviceID)
    (hfree : d'.implFreeList = d.implFreeList) (hlast : d'.implUseList = d.implUseList) :
    Kept n d' F where
  free := by
    rw [hnext, hfree]
    exact h.free
  nodup := h.nodup
  mem i := by
    rw [huse]
    exact h.mem i
  last i hi := by
    rw [huse, hnext]
    exact h.last i (hlast ▸ hi)
  id i hi := by
    rw [hid]
    exact h.id i hi

/-! ### Requests are put on a list -/

variable {id block src type : ℕ} {msg : Message} {others : Others}

theorem appendRequest_eq : appendRequest d id block src type =
    { d with
      implList := Function.update d.implList id { d.implList id with waitList := some block }
      request := Function.update d.request block
        ⟨src, (d.implList id).PID, type, (d.implList id).waitList⟩ } := by
  cases hw : (d.implList id).waitList <;>
    simp [appendRequest, Dev.modImpl, Dev.modRequest, hw]

theorem DevInv.append (h : DevInv n d F A) (hid : id ≤ n) (huse : (d.implList id).inUse = true)
    (hperm : (d.implList id).hasPermissionToWriteDirectly = true) (htype : type < 2 ^ 31)
    (hfresh : ∀ i ≤ n, block ∉ A i) :
    DevInv n (appendRequest d id block src type) F (Function.update A id (block :: A id)) := by
  rw [appendRequest_eq]
  have hentry : ∀ {β : Type} (g : DeviceImpl → β) (i : ℕ),
      g { d.implList id with waitList := some block } = g (d.implList id) →
      g (Function.update d.implList id { d.implList id with waitList := some block } i) =
        g (d.implList i) := by
    intro β g i hg
    by_cases hi : i = id
    · subst hi
      rw [Function.update_self, hg]
    · rw [Function.update_of_ne hi]
  have hmem : ∀ i a, a ∈ Function.update A id (block :: A id) i ↔ i = id ∧ a = block ∨ a ∈ A i := by
    intro i a
    by_cases hi : i = id
    · subst hi
      rw [Function.update_self, List.mem_cons]
      simp
    · rw [Function.update_of_ne hi]
      simp [hi]
  have hrequest : ∀ i ≤ n, ∀ a ∈ A i, Function.update d.request block
      ⟨src, (d.implList id).PID, type, (d.implList id).waitList⟩ a = d.request a := by
    intro i hi a ha
    have hne : a ≠ block := by
      rintro rfl
      exact hfresh i hi ha
    exact Function.update_of_ne hne _ _
  have hchain : ∀ i ≤ n, Chain (fun a => (Function.update d.request block
      ⟨src, (d.implList id).PID, type, (d.implList id).waitList⟩ a).next)
      (d.implList i).waitList (A i) := by
    intro i hi
    apply (h.waits i hi).congr
    intro a ha
    rw [hrequest i hi a ha]
    rfl
  refine ⟨h.kept.congr ?_ (fun i => hentry _ i rfl) (fun i => hentry _ i rfl) rfl rfl,
    fun i hi => ?_, fun i hi => ?_, fun i hi j hj hij a ha => ?_, fun i hi a ha => ?_,
    fun i hi a ha => ?_, fun i hi a ha => ?_, fun i hi => ?_⟩
  · funext i
    exact hentry DeviceImpl.next i rfl
  · by_cases hne : i = id
    · subst hne
      simp only [Function.update_self]
      apply Chain.cons
      show Chain _ (Function.update d.request block _ block).next _
      rw [Function.update_self]
      exact hchain i hi
    · simp only [Function.update_of_ne hne]
      exact hchain i hi
  · by_cases hne : i = id
    · subst hne
      rw [Function.update_self]
      exact List.nodup_cons.mpr ⟨hfresh i hi, h.nodup i hi⟩
    · rw [Function.update_of_ne hne]
      exact h.nodup i hi
  · rcases (hmem i a).mp ha with ⟨rfl, rfl⟩ | ha
    · rw [hmem, not_or]
      exact ⟨fun hc => hij hc.1.symm, hfresh j hj⟩
    · rw [hmem, not_or]
      exact ⟨fun hc => hfresh i hi (hc.2 ▸ ha), h.apart i hi j hj hij a ha⟩
  · rw [hentry DeviceImpl.PID i rfl]
    rcases (hmem i a).mp ha with ⟨rfl, rfl⟩ | ha
    · simp only [Function.update_self]
    · simp only [hrequest i hi a ha]
      exact h.owner i hi a ha
  · rw [hentry (fun e => e.hasPermissionToWriteDirectly) i rfl]
    rcases (hmem i a).mp ha with ⟨rfl, rfl⟩ | ha
    · exact hperm
    · exact h.permitted i hi a ha
  · rcases (hmem i a).mp ha with ⟨rfl, rfl⟩ | ha
    · simp only [Function.update_self]
      exact htype
    · simp only [hrequest i hi a ha]
      exact h.type i hi a ha
  · have hne : i ≠ id := by
      rintro rfl
      rw [((h.kept.mem i).mp hi).2] at huse
      cases huse
    rw [Function.update_of_ne hne]
    exact h.free i hi

theorem waitingOf_append (hfresh : ∀ i ≤ n, block ∉ A i) (hj : j ≤ n) :
    waitingOf (appendRequest d id block src type) (Function.update A id (block :: A id)) j =
      if j = id then ⟨src, (d.implList id).PID, type⟩ :: waitingOf d A j else waitingOf d A j := by
  have hold : (A j).map (fun a => deferredOf ((appendRequest d id block src type).request a)) =
      waitingOf d A j := by
    apply List.map_congr_left
    intro a ha
    have hne : a ≠ block := by
      rintro rfl
      exact hfresh j hj ha
    rw [appendRequest_eq]
    simp only [Function.update_of_ne hne]
  rw [waitingOf]
  by_cases hid : j = id
  · subst hid
    rw [if_pos rfl, Function.update_self, List.map_cons, hold, appendRequest_eq]
    simp only [Function.update_self]
    rfl
  · rw [if_neg hid, Function.update_of_ne hid, hold]

/-! ### Requests are taken off a list -/

theorem findRequest_spec {l : List ℕ} {req : Option ℕ} (hc : Chain d.requestNext req l) (app : ℕ) :
    (∃ l₁ a l₂, l = l₁ ++ a :: l₂ ∧ (d.request a).appPid = app ∧
      ∀ fuel preq, l.length < fuel →
        findRequest d app fuel preq req = .found (l₁.getLast?.or preq, a)) ∨
      (∀ a ∈ l, (d.request a).appPid ≠ app) ∧
        ∀ fuel preq, l.length < fuel → findRequest d app fuel preq req = .missing := by
  induction hc with
  | nil =>
    refine Or.inr ⟨by simp, fun fuel preq hfuel => ?_⟩
    obtain ⟨m, rfl⟩ : ∃ m, fuel = m + 1 := ⟨fuel - 1, by omega⟩
    rfl
  | @cons a l tail ih =>
    by_cases happ : (d.request a).appPid = app
    · refine Or.inl ⟨[], a, l, rfl, happ, fun fuel preq hfuel => ?_⟩
      obtain ⟨m, rfl⟩ : ∃ m, fuel = m + 1 := ⟨fuel - 1, by omega⟩
      rw [findRequest, if_pos happ]
      rfl
    · rcases ih with ⟨l₁, b, l₂, rfl, hb, hfound⟩ | ⟨hnone, hmissing⟩
      · refine Or.inl ⟨a :: l₁, b, l₂, rfl, hb, fun fuel preq hfuel => ?_⟩
        obtain ⟨m, rfl⟩ : ∃ m, fuel = m + 1 := ⟨fuel - 1, by omega⟩
        rw [findRequest, if_neg happ, hfound m (some a) (Nat.lt_of_succ_lt_succ hfuel),
          List.getLast?_cons]
        cases l₁.getLast? <;> rfl
      · refine Or.inr ⟨fun b hb => ?_, fun fuel preq hfuel => ?_⟩
        · rcases List.mem_cons.mp hb with rfl | hb
          · exact happ
          · exact hnone b hb
        · obtain ⟨m, rfl⟩ : ∃ m, fuel = m + 1 := ⟨fuel - 1, by omega⟩
          rw [findRequest, if_neg happ, hmissing m (some a) (Nat.lt_of_succ_lt_succ hfuel)]

/-- The lists after a removal: `x` has lost one request, and the requests themselves are the same. -/
theorem DevInv.shrink {x a : ℕ} {l₁ l₂ : List ℕ} (h : DevInv n d F A) (hx : x ≤ n)
    (hA : A x = l₁ ++ a :: l₂) (hkept : Kept n d' F)
    (hpid : ∀ i, (d'.implList i).PID = (d.implList i).PID)
    (hperm : ∀ i, (d'.implList i).hasPermissionToWriteDirectly =
      (d.implList i).hasPermissionToWriteDirectly)
    (hdata : ∀ b, deferredOf (d'.request b) = deferredOf (d.request b))
    (hchain : Chain d'.requestNext (d'.implList x).waitList (l₁ ++ l₂))
    (hothers : ∀ i ≤ n, i ≠ x → Chain d'.requestNext (d'.implList i).waitList (A i)) :
    DevInv n d' F (Function.update A x (l₁ ++ l₂)) := by
  have hsub : ∀ i b, b ∈ Function.update A x (l₁ ++ l₂) i → b ∈ A i := by
    intro i b hb
    by_cases hi : i = x
    · subst hi
      rw [Function.update_self] at hb
      rw [hA, List.mem_append, List.mem_cons]
      rcases List.mem_append.mp hb with hb | hb
      · exact Or.inl hb
      · exact Or.inr (Or.inr hb)
    · rw [Function.update_of_ne hi] at hb
      exact hb
  have himpl : ∀ b, (d'.request b).implPid = (d.request b).implPid := by
    intro b
    exact congrArg Deferred.implPid (hdata b)
  have htype : ∀ b, (d'.request b).type = (d.request b).type := by
    intro b
    exact congrArg Deferred.type (hdata b)
  refine ⟨hkept, fun i hi => ?_, fun i hi => ?_, fun i hi j hj hij b hb => ?_, fun i hi b hb => ?_,
    fun i hi b hb => ?_, fun i hi b hb => ?_, fun i hi => ?_⟩
  · by_cases hne : i = x
    · subst hne
      rw [Function.update_self]
      exact hchain
    · rw [Function.update_of_ne hne]
      exact hothers i hi hne
  · by_cases hne : i = x
    · subst hne
      rw [Function.update_self]
      have hnodup := h.nodup i hi
      rw [hA] at hnodup
      exact hnodup.sublist (List.Sublist.append_left (List.sublist_cons_self a l₂) l₁)
    · rw [Function.update_of_ne hne]
      exact h.nodup i hi
  · exact fun hc => h.apart i hi j hj hij b (hsub i b hb) (hsub j b hc)
  · rw [himpl, hpid]
    exact h.owner i hi b (hsub i b hb)
  · rw [hperm]
    exact h.permitted i hi b (hsub i b hb)
  · rw [htype]
    exact h.type i hi b (hsub i b hb)
  · have hnil := h.free i hi
    by_cases hne : i = x
    · subst hne
      rw [hA] at hnil
      simp at hnil
    · rw [Function.update_of_ne hne]
      exact hnil

theorem unlinkRequest_spec {x a : ℕ} {l₁ l₂ : List ℕ} (h : DevInv n d F A) (hx : x ≤ n)
    (hA : A x = l₁ ++ a :: l₂) :
    ∃ d', unlinkRequest d x (l₁.getLast?.or (d.implList x).waitList) a = .ok d' ∧
      DevInv n d' F (Function.update A x (l₁ ++ l₂)) ∧
      ∀ b, deferredOf (d'.request b) = deferredOf (d.request b) := by
  have hwaits := h.waits x hx
  have hnodup := h.nodup x hx
  rw [hA] at hwaits hnodup
  rcases List.eq_nil_or_concat l₁ with rfl | ⟨l₀, p, rfl⟩
  · -- the first of the list
    obtain ⟨hhead, htail⟩ := hwaits.head_eq
    have hentry : ∀ {β : Type} (g : DeviceImpl → β) (i : ℕ),
        g { d.implList x with waitList := d.requestNext a } = g (d.implList x) →
        g ((d.modImpl x fun e => { e with waitList := d.requestNext a }).implList i) =
          g (d.implList i) := by
      intro β g i hg
      rw [implList_modImpl]
      by_cases hi : i = x
      · subst hi
        rw [if_pos rfl, hg]
      · rw [if_neg hi]
    refine ⟨d.modImpl x fun e => { e with waitList := d.requestNext a }, ?_, ?_, fun _ => rfl⟩
    · simp [unlinkRequest, hhead]
    apply h.shrink hx hA
    · exact h.kept.congr (funext fun i => hentry DeviceImpl.next i rfl) (fun i => hentry _ i rfl)
        (fun i => hentry _ i rfl) rfl rfl
    · exact fun i => hentry _ i rfl
    · exact fun i => hentry (fun e => e.hasPermissionToWriteDirectly) i rfl
    · exact fun _ => rfl
    · rw [implList_modImpl, if_pos rfl]
      exact htail
    · intro i hi hne
      rw [implList_modImpl, if_neg hne]
      exact h.waits i hi
  · -- behind `p`
    rw [List.concat_eq_append] at hA hwaits hnodup
    rw [List.concat_eq_append]
    have hjoin : l₀ ++ [p] ++ a :: l₂ = l₀ ++ p :: a :: l₂ := by simp
    rw [hjoin] at hwaits hnodup
    have hne : (d.implList x).waitList ≠ some a := by
      intro hhead
      rw [hhead] at hwaits
      cases l₀ with
      | nil =>
        obtain rfl := Option.some.inj hwaits.head_eq.1
        simp at hnodup
      | cons b l₀ =>
        obtain rfl := Option.some.inj hwaits.head_eq.1
        simp at hnodup
    have hout : a ∉ l₀ ++ p :: l₂ := by
      have hmid : (l₀ ++ [p] ++ a :: l₂).Nodup := hjoin ▸ hnodup
      have hout := (List.nodup_middle.mp hmid).notMem
      simpa using hout
    have hnext : (d.modRequest p fun r => { r with next := d.requestNext a }).requestNext =
        Function.update d.requestNext p (d.requestNext a) := by
      funext b
      by_cases hb : b = p
      · subst hb
        simp [Dev.modRequest, Dev.requestNext]
      · simp [Dev.modRequest, Dev.requestNext, hb]
    have hdata : ∀ b, deferredOf ((d.modRequest p fun r => { r with next := d.requestNext a }).request b) =
        deferredOf (d.request b) := by
      intro b
      by_cases hb : b = p
      · subst hb
        simp [Dev.modRequest, deferredOf]
      · simp [Dev.modRequest, hb]
    refine ⟨d.modRequest p fun r => { r with next := d.requestNext a }, ?_, ?_, hdata⟩
    · simp [unlinkRequest, hne]
    apply h.shrink hx hA
    · exact h.kept.congr rfl (fun _ => rfl) (fun _ => rfl) rfl rfl
    · exact fun _ => rfl
    · exact fun _ => rfl
    · exact hdata
    · rw [hnext]
      have hchain := hwaits.unlink hnodup
      rw [List.append_assoc]
      apply hchain.congr
      intro b hb
      have hne : b ≠ a := fun he => hout (he ▸ hb)
      rw [Function.update_of_ne hne]
    · intro i hi hne
      rw [hnext]
      apply (h.waits i hi).update_of_notMem
      apply h.apart x hx i hi (Ne.symm hne)
      rw [hA]
      simp

/-- The search of `DEV_UPD` gets to the device registered last, and no further. -/
theorem DevInv.findWaiting (h : DevInv n d F A) (src app : ℕ) :
    (∃ x l₁ a l₂, d.implUseList = some x ∧ x ≤ n ∧ A x = l₁ ++ a :: l₂ ∧
      (d.implList x).PID = src ∧ (d.request a).appPid = app ∧
      ∀ fuel, Device.findWaiting d src app (fuel + ((A x).length + 2)) d.implUseList =
        .found (x, l₁.getLast?.or (d.implList x).waitList, a)) ∨
    ((∀ x, d.implUseList = some x → (d.implList x).PID = src →
        ∀ a ∈ A x, (d.request a).appPid ≠ app) ∧
      ∃ bound, ∀ fuel, Device.findWaiting d src app (fuel + bound) d.implUseList = .missing) := by
  cases hlast : d.implUseList with
  | none =>
    right
    refine ⟨fun x hx => ?_, 1, fun fuel => rfl⟩
    cases hx
  | some x =>
    obtain ⟨hx, -, hnext⟩ := h.kept.last x hlast
    by_cases hpid : (d.implList x).PID = src
    · rcases findRequest_spec (h.waits x hx) app with
        ⟨l₁, a, l₂, hA, happ, hfound⟩ | ⟨hnone, hmissing⟩
      · refine Or.inl ⟨x, l₁, a, l₂, rfl, hx, hA, hpid, happ, fun fuel => ?_⟩
        rw [← Nat.add_assoc]
        simp only [Device.findWaiting, if_pos hpid]
        rw [hfound _ _ (by omega)]
      · refine Or.inr ⟨fun y hy _ => ?_, (A x).length + 2, fun fuel => ?_⟩
        · obtain rfl := Option.some.inj hy
          exact hnone
        · rw [← Nat.add_assoc]
          simp only [Device.findWaiting, if_pos hpid, hnext]
          rw [hmissing _ _ (by omega)]
    · right
      refine ⟨fun y hy hyp => ?_, 2, fun fuel => ?_⟩
      · obtain rfl := Option.some.inj hy
        exact absurd hyp hpid
      · simp only [Device.findWaiting, if_neg hpid, hnext]

/-! ### What a round does -/

theorem code_of_caseOf {t : ℕ} {o : Operation} (h : caseOf t = some o) : o.code = t := by
  have hmem := List.find?_some h
  simpa using hmem

/-- A message is a completion or not. -/
theorem deferredSound_of_upd (h : DevInv n d F A) {A' : ℕ → List ℕ} {F' : List ℕ}
    (h' : DevInv n e.round.dev F' A') (hupd : caseOf e.msg.type = some .devUpd)
    (heffect : UpdEffect n e (waitingOf d A) (waitingOf e.round.dev A')) : DeferredSound n d e := by
  refine ⟨_, _, fun i hi => h.waiting hi, fun i hi => h'.waiting hi, ?_⟩
  rw [if_pos hupd]
  exact heffect

theorem deferredSound_of_request (h : DevInv n d F A) {A' : ℕ → List ℕ} {F' : List ℕ}
    (h' : DevInv n e.round.dev F' A') (hupd : caseOf e.msg.type ≠ some .devUpd)
    (heffect : RequestEffect n e (waitingOf d A) (waitingOf e.round.dev A')) :
    DeferredSound n d e := by
  refine ⟨_, _, fun i hi => h.waiting hi, fun i hi => h'.waiting hi, ?_⟩
  rw [if_neg hupd]
  exact heffect

theorem UpdEffect.congr {W W' V V' : ℕ → List Deferred} (h : UpdEffect n e W W')
    (hW : ∀ i ≤ n, W i = V i) (hW' : ∀ i ≤ n, W' i = V' i) : UpdEffect n e V V' := by
  have hex : (∃ i ≤ n, ∃ p ∈ V i, p.implPid = e.msg.sender ∧ p.appPid = e.msg.data.d4) ↔
      ∃ i ≤ n, ∃ p ∈ W i, p.implPid = e.msg.sender ∧ p.appPid = e.msg.data.d4 := by
    constructor
    · rintro ⟨i, hi, hp⟩
      exact ⟨i, hi, by rwa [hW i hi]⟩
    · rintro ⟨i, hi, hp⟩
      exact ⟨i, hi, by rwa [← hW i hi]⟩
  constructor
  · intro hmajor hwaits
    obtain ⟨i, hi, l₁, p, l₂, hsplit, hpid, happ, hleft, hm⟩ := h.completes hmajor (hex.mp hwaits)
    refine ⟨i, hi, l₁, p, l₂, ?_, hpid, happ, fun j hj => ?_, hm⟩
    · rw [← hW i hi, hsplit]
    · rw [← hW' j hj, ← hW j hj, hleft j hj]
  · intro hnot
    rw [hex] at hnot
    obtain ⟨hleft, hnone⟩ := h.ignores hnot
    refine ⟨fun j hj => ?_, hnone⟩
    rw [← hW' j hj, ← hW j hj, hleft j hj]

theorem DevInv.waitsFor_iff (h : DevInv n d F A) (hi : i ≤ n) {implPid : ℕ} :
    WaitsFor d i implPid app ↔ ∃ a ∈ A i, (d.implList i).PID = implPid ∧ (d.request a).appPid = app := by
  constructor
  · rintro ⟨w, hw, p, hp, hpid, happ⟩
    obtain rfl := hw.unique (h.waiting hi)
    obtain ⟨a, ha, rfl⟩ := List.mem_map.mp hp
    refine ⟨a, ha, ?_, happ⟩
    rw [← h.owner i hi a ha]
    exact hpid
  · rintro ⟨a, ha, hpid, happ⟩
    refine ⟨_, h.waiting hi, _, List.mem_map.mpr ⟨a, ha, rfl⟩, ?_, happ⟩
    rw [← hpid]
    exact h.owner i hi a ha

/-- A device is registered: nothing that waits is touched. -/
theorem DevInv.register {reg : DeviceImplRegisterStruct} {pid : ℕ} (h : DevInv n d F A)
    (hcall : registerDeviceImpl d reg pid = .ok (d', id)) :
    (∃ F', DevInv n d' F' A) ∧ waitingOf d' A = waitingOf d A := by
  obtain ⟨F', rfl, hkept, -, hwait, hothers, hrequest, -⟩ := h.kept.register hcall
  have hnil : A id = [] := h.free id List.mem_cons_self
  have hne : ∀ i a, a ∈ A i → i ≠ id := by
    rintro i a ha rfl
    rw [hnil] at ha
    cases ha
  have hnext : d'.requestNext = d.requestNext := by
    funext a
    rw [Dev.requestNext, hrequest]
    rfl
  refine ⟨⟨F', hkept, fun i hi => ?_, h.nodup, h.apart, fun i hi a ha => ?_, fun i hi a ha => ?_,
    fun i hi a ha => ?_, fun i hi => h.free i (List.mem_cons_of_mem _ hi)⟩, ?_⟩
  · rw [hnext]
    by_cases hid : i = id
    · subst hid
      rw [hwait]
      exact h.waits i hi
    · rw [hothers i hid]
      exact h.waits i hi
  · rw [hrequest, hothers i (hne i a ha)]
    exact h.owner i hi a ha
  · rw [hothers i (hne i a ha)]
    exact h.permitted i hi a ha
  · rw [hrequest]
    exact h.type i hi a ha
  · funext i
    rw [waitingOf, waitingOf, hrequest]

/-- A request that is told to wait. -/
theorem requestRound_wait {o : Operation}
    (hin : ¬ ((d.implList msg.major).inUse = false ∨ (d.implList msg.major).PID = 0))
    (hperm : (d.implList msg.major).hasPermissionToWriteDirectly = true)
    (hwait : others.reply.major = devStatusWait) :
    requestRound d msg o others =
      ⟨appendRequest d msg.major others.block msg.sender o.code,
        some (forwardMsg (d.implList msg.major) msg o), [], some others.block, [msg.major]⟩ := by
  simp only [requestRound, if_neg hin, if_pos hperm, hwait, ne_eq, not_true_eq_false, if_false]

/-- A request for a device. -/
theorem DevInv.request {o : Operation} (h : DevInv n d F A) (hid : msg.major ≤ n)
    (hfresh : ∀ i ≤ n, others.block ∉ A i) (hcode : o.code = msg.type)
    (hround : e = ⟨msg, others, requestRound d msg o others⟩) :
    ∃ A', DevInv n e.round.dev F A' ∧
      RequestEffect n e (waitingOf d A) (waitingOf e.round.dev A') := by
  subst hround
  by_cases hout : (d.implList msg.major).inUse = false ∨ (d.implList msg.major).PID = 0
  · simp only [requestRound, if_pos hout]
    refine ⟨A, h, fun m hm => ?_, fun _ _ _ => rfl⟩
    cases hm
  · by_cases hperm : (d.implList msg.major).hasPermissionToWriteDirectly = true
    · by_cases hwait : others.reply.major = devStatusWait
      · have huse : (d.implList msg.major).inUse = true := by
          cases hu : (d.implList msg.major).inUse with
          | false => exact absurd (Or.inl hu) hout
          | true => rfl
        have htype : o.code < 2 ^ 31 := by
          cases o <;> simp [Operation.code]
        rw [requestRound_wait hout hperm hwait]
        refine ⟨_, h.append hid huse hperm htype hfresh, ⟨fun m hm _ j hj => ?_, fun hnot => ?_⟩⟩
        · obtain rfl := Option.some.inj hm
          rw [waitingOf_append hfresh hj, hcode]
          rfl
        · rcases hnot with hnone | hnot
          · cases hnone
          · exact absurd hwait hnot
      · simp only [requestRound, if_neg hout, if_pos hperm, ne_eq, hwait, not_false_eq_true, if_true]
        refine ⟨A, h, fun m _ hmajor => ?_, fun _ _ _ => rfl⟩
        exact absurd hmajor hwait
    · simp only [requestRound, if_neg hout, if_neg hperm]
      refine ⟨A, h, fun m hm => ?_, fun _ _ _ => rfl⟩
      cases hm

theorem waitingOf_shrink {x : ℕ} {l : List ℕ}
    (hdata : ∀ b, deferredOf (d'.request b) = deferredOf (d.request b)) :
    waitingOf d' (Function.update A x l) j =
      if j = x then l.map fun a => deferredOf (d.request a) else waitingOf d A j := by
  have hmap : ∀ l : List ℕ, (l.map fun a => deferredOf (d'.request a)) =
      l.map fun a => deferredOf (d.request a) := fun l => List.map_congr_left fun a _ => hdata a
  rw [waitingOf, hmap]
  by_cases hj : j = x
  · subst hj
    rw [if_pos rfl, Function.update_self]
  · rw [if_neg hj, Function.update_of_ne hj]
    rfl

/-- A completion that finds its request. -/
theorem DevInv.complete {x a : ℕ} {l₁ l₂ : List ℕ} (h : DevInv n d F A) (hx : x ≤ n)
    (hA : A x = l₁ ++ a :: l₂) (hpid : (d.implList x).PID = msg.sender)
    (happ : (d.request a).appPid = msg.data.d4)
    (hfound : ∃ bound, ∀ fuel, Device.findWaiting d msg.sender msg.data.d4 (fuel + bound)
      d.implUseList = .found (x, l₁.getLast?.or (d.implList x).waitList, a))
    (hmajor : msg.major ≠ devStatusWait) :
    ∃ r A', Returns (fun fuel => updRound fuel d msg) r ∧ DevInv n r.dev F A' ∧
      UpdEffect n ⟨msg, others, r⟩ (waitingOf d A) (waitingOf r.dev A') := by
  obtain ⟨d', hunlink, h', hdata⟩ := unlinkRequest_spec h hx hA
  obtain ⟨bound, hfound⟩ := hfound
  have hmem : a ∈ A x := by
    rw [hA]
    exact List.mem_append_right _ List.mem_cons_self
  have hperm := h.permitted x hx a hmem
  have hwait : waitingOf d A x =
      (l₁.map fun a => deferredOf (d.request a)) ++ deferredOf (d.request a) ::
        l₂.map fun a => deferredOf (d.request a) := by
    rw [waitingOf, hA, List.map_append, List.map_cons]
  have himpl : (deferredOf (d.request a)).implPid = msg.sender := by
    rw [← hpid]
    exact h.owner x hx a hmem
  refine ⟨⟨d', none, [setType { msg with receiver := msg.data.d4 } (d.request a).type], none, []⟩, _,
    Returns.of_add bound fun fuel => ?_, h', ⟨fun _ _ => ?_, fun hnot => ?_⟩⟩
  · rw [updRound, if_neg hmajor, hfound]
    show (unlinkRequest d x (l₁.getLast?.or (d.implList x).waitList) a >>= fun d' => _) = _
    rw [hunlink]
    show (if _ then _ else _ : Except Fault Round) = _
    rw [if_pos hperm]
    rfl
  · refine ⟨x, hx, _, _, _, hwait, himpl, happ, fun j hj => ?_, _, rfl, happ.symm, ?_⟩
    · rw [waitingOf_shrink hdata, List.map_append]
    · exact Nat.mod_eq_of_lt (h.type x hx a hmem)
  · rcases hnot with hwait | hnone
    · exact absurd hwait hmajor
    · refine absurd ⟨x, hx, deferredOf (d.request a), ?_, himpl, happ⟩ hnone
      rw [hwait]
      simp

/-- `DEV_UPD`. -/
theorem DevInv.upd {r : Round} (h : DevInv n d F A)
    (hreturns : Returns (fun fuel => updRound fuel d msg) r) :
    ∃ A', DevInv n r.dev F A' ∧
      (UpdEffect n ⟨msg, others, r⟩ (waitingOf d A) (waitingOf r.dev A') ↔
        (msg.major ≠ devStatusWait → (∃ i ≤ n, WaitsFor d i msg.sender msg.data.d4) →
          ∃ x, d.implUseList = some x ∧ WaitsFor d x msg.sender msg.data.d4)) := by
  by_cases hmajor : msg.major = devStatusWait
  · have hskip : Returns (fun fuel => updRound fuel d msg) ⟨d, none, [], none, []⟩ :=
      Returns.of_add 0 fun fuel => if_pos hmajor
    obtain rfl := hreturns.unique hskip
    refine ⟨A, h, fun _ hnot => absurd hmajor hnot, fun _ => ⟨fun hnot => absurd hmajor hnot, ?_⟩⟩
    exact fun _ => ⟨fun _ _ => rfl, rfl⟩
  · rcases h.findWaiting msg.sender msg.data.d4 with
      ⟨x, l₁, a, l₂, hlast, hx, hA, hpid, happ, hfound⟩ | ⟨hnone, bound, hmissing⟩
    · obtain ⟨r', A', hreturns', h', heffect⟩ :=
        @DevInv.complete d n F A msg others x a l₁ l₂ h hx hA hpid happ ⟨_, hfound⟩ hmajor
      obtain rfl := hreturns.unique hreturns'
      refine ⟨A', h', fun _ _ _ => ⟨x, hlast, ?_⟩, fun _ => heffect⟩
      rw [h.waitsFor_iff hx]
      refine ⟨a, ?_, hpid, happ⟩
      rw [hA]
      exact List.mem_append_right _ List.mem_cons_self
    · have hskip : Returns (fun fuel => updRound fuel d msg) ⟨d, none, [], none, []⟩ := by
        refine Returns.of_add bound fun fuel => ?_
        rw [updRound, if_neg hmajor, hmissing]
      obtain rfl := hreturns.unique hskip
      -- nothing is found, so the condition says that nothing waits
      have hlast : ¬ ∃ x, d.implUseList = some x ∧ WaitsFor d x msg.sender msg.data.d4 := by
        rintro ⟨x, hx, hwaits⟩
        obtain ⟨a, ha, hpid, happ⟩ := (h.waitsFor_iff (h.kept.last x hx).1).mp hwaits
        exact hnone x hx hpid a ha happ
      refine ⟨A, h, fun heffect _ hwaits => ?_, fun hreach => ⟨fun _ hwaits => ?_, fun _ => ?_⟩⟩
      · obtain ⟨i, hi, w, hw, p, hp, hpid, happ⟩ := hwaits
        obtain rfl := hw.unique (h.waiting hi)
        obtain ⟨-, -, -, -, -, -, -, -, -, m, hm, -⟩ :=
          heffect.completes hmajor ⟨i, hi, p, hp, hpid, happ⟩
        cases hm
      · obtain ⟨i, hi, p, hp, hpid, happ⟩ := hwaits
        exact absurd (hreach hmajor ⟨i, hi, _, h.waiting hi, p, hp, hpid, happ⟩) hlast
      · exact ⟨fun _ _ => rfl, rfl⟩

/-- A completion is always handled. -/
theorem DevInv.upd_returns (h : DevInv n d F A) (msg : Message) :
    ∃ r, Returns (fun fuel => updRound fuel d msg) r := by
  by_cases hmajor : msg.major = devStatusWait
  · exact ⟨_, Returns.of_add 0 fun fuel => if_pos hmajor⟩
  · rcases h.findWaiting msg.sender msg.data.d4 with
      ⟨x, l₁, a, l₂, -, hx, hA, hpid, happ, hfound⟩ | ⟨-, bound, hmissing⟩
    · obtain ⟨r, -, hreturns, -⟩ :=
        @DevInv.complete d n F A msg ⟨default, default, 0⟩ x a l₁ l₂ h hx hA hpid happ ⟨_, hfound⟩ hmajor
      exact ⟨r, hreturns⟩
    · refine ⟨⟨d, none, [], none, []⟩, Returns.of_add bound fun fuel => ?_⟩
      rw [updRound, if_neg hmajor, hmissing]

/-! ### Runs -/

/-- A round that leaves everything as it was. -/
theorem DevInv.idle (h : DevInv n d F A) (hr : e.round = ⟨d, none, [], none, []⟩) :
    DevInv n e.round.dev F A ∧ RequestEffect n e (waitingOf d A) (waitingOf e.round.dev A) := by
  have hdev : e.round.dev = d := by
    rw [hr]
  rw [hdev]
  refine ⟨h, fun m hm => ?_, fun _ _ _ => rfl⟩
  rw [hr] at hm
  cases hm

/-- What one round keeps, and when it is as it should be. -/
theorem DevInv.step (h : DevInv n d F A) (hstep : DevStep n d e d') :
    (∃ F' A', DevInv n d' F' A') ∧ (DeferredSound n d e ↔ ReachesLast n d e) := by
  obtain ⟨⟨hkept, hinside, hfresh⟩, hreturns, rfl⟩ := hstep
  have hblock : ∀ i ≤ n, e.others.block ∉ A i := by
    intro i hi
    exact hfresh i hi _ (h.waits i hi)
  -- a round that is not for `DEV_UPD` is as it should be
  have hrequest : ∀ {F' A'}, caseOf e.msg.type ≠ some .devUpd → DevInv n e.round.dev F' A' →
      RequestEffect n e (waitingOf d A) (waitingOf e.round.dev A') →
      (∃ F' A', DevInv n e.round.dev F' A') ∧ (DeferredSound n d e ↔ ReachesLast n d e) := by
    intro F' A' hupd h' heffect
    refine ⟨⟨F', A', h'⟩, fun _ hcase => absurd hcase hupd, fun _ => ?_⟩
    exact deferredSound_of_request h h' hupd heffect
  have hreach : ∀ o ∈ [Operation.devWrite, .devOpen, .devClose, .devRead],
      caseOf e.msg.type = some o → e.round = requestRound d e.msg o e.others →
      (∃ F' A', DevInv n e.round.dev F' A') ∧ (DeferredSound n d e ↔ ReachesLast n d e) := by
    intro o ho hcase hround
    have he : e = ⟨e.msg, e.others, requestRound d e.msg o e.others⟩ := by
      rw [← hround]
    obtain ⟨A', h', heffect⟩ := h.request (hinside o ho hcase) hblock (code_of_caseOf hcase) he
    refine hrequest ?_ h' heffect
    rw [hcase]
    rintro hupd
    obtain rfl := Option.some.inj hupd
    simp at ho
  have hidle : caseOf e.msg.type ≠ some .devUpd → e.round = ⟨d, none, [], none, []⟩ →
      (∃ F' A', DevInv n e.round.dev F' A') ∧ (DeferredSound n d e ↔ ReachesLast n d e) := by
    intro hupd hround
    obtain ⟨h', heffect⟩ := h.idle hround
    exact hrequest hupd h' heffect
  cases hcase : caseOf e.msg.type with
  | none =>
    have hround : ∀ fuel, taskDev (fuel + 0) d e.msg e.others = .ok ⟨d, none, [], none, []⟩ := by
      intro fuel
      simp only [taskDev, hcase]
    exact hidle (by simp [hcase]) (hreturns.unique (Returns.of_add 0 hround))
  | some o =>
    have hfixed : ∀ {r}, (∀ fuel, taskDev (fuel + 0) d e.msg e.others = .ok r) → e.round = r :=
      fun hr => hreturns.unique (Returns.of_add 0 hr)
    cases o with
    | devWrite => exact hreach .devWrite (by simp) hcase (hfixed fun fuel => by simp only [taskDev, hcase])
    | devOpen => exact hreach .devOpen (by simp) hcase (hfixed fun fuel => by simp only [taskDev, hcase])
    | devClose => exact hreach .devClose (by simp) hcase (hfixed fun fuel => by simp only [taskDev, hcase])
    | devRead => exact hreach .devRead (by simp) hcase (hfixed fun fuel => by simp only [taskDev, hcase])
    | devInfo => exact hidle (by simp [hcase]) (hfixed fun fuel => by simp only [taskDev, hcase])
    | devList => exact hidle (by simp [hcase]) (hfixed fun fuel => by simp only [taskDev, hcase])
    | devUnreg => exact absurd hcase hkept
    | devReg =>
      cases hreg : registerDeviceImpl d e.others.reg e.msg.sender with
      | error fault =>
        obtain ⟨bound, hr⟩ := hreturns
        have hok := hr bound (Nat.le_refl bound)
        simp only [taskDev, hcase, hreg] at hok
        cases hok
      | ok p =>
        have hround := hfixed (r := ⟨p.1, none, [sendBack { e.msg with major := p.2 }], none, []⟩)
          fun fuel => by
            simp only [taskDev, hcase, hreg]
            rfl
        obtain ⟨⟨F', h'⟩, hsame⟩ := h.register hreg
        have hdev : e.round.dev = p.1 := by
          rw [hround]
        rw [← hdev] at h' hsame
        refine hrequest (by simp [hcase]) h' ⟨fun m hm => ?_, fun _ j _ => ?_⟩
        · rw [hround] at hm
          cases hm
        · rw [hsame]
    | devUpd =>
      have hupd : Returns (fun fuel => updRound fuel d e.msg) e.round := by
        obtain ⟨bound, hr⟩ := hreturns
        refine ⟨bound, fun fuel hfuel => ?_⟩
        have hok := hr fuel hfuel
        simp only [taskDev, hcase] at hok
        exact hok
      obtain ⟨A', h', hiff⟩ := @DevInv.upd d n F A e.msg e.others e.round h hupd
      refine ⟨⟨F, A', h'⟩, fun hsound _ => ?_, fun hreach => ?_⟩
      · obtain ⟨W, W', hW, hW', heffect⟩ := hsound
        rw [if_pos hcase] at heffect
        refine hiff.mp (heffect.congr (fun i hi => ?_) fun i hi => ?_)
        · exact (hW i hi).unique (h.waiting hi)
        · exact (hW' i hi).unique (h'.waiting hi)
      · exact deferredSound_of_upd h h' hcase (hiff.mpr (hreach hcase))

/-- **Requests that wait.**  In a run, every round treats them as it should just when every completion
of a request that waits finds one at the device registered last. -/
theorem deferred_sound_iff {d₀ s : Dev} {tr : List (Transition Dev DevEvent)} (hd : Blank d₀)
    (hrun : Run (DevStep n) (initImplList n d₀) tr s) :
    (∀ x ∈ tr, DeferredSound n x.source x.label) ↔ ∀ x ∈ tr, ReachesLast n x.source x.label := by
  apply hrun.forall_iff (fun s => ∃ F A, DevInv n s F A) (fun s e _ => DeferredSound n s e)
    fun s e _ => ReachesLast n s e
  · exact ⟨_, _, initImplList_inv hd⟩
  · rintro s e t ⟨F, A, h⟩ hstep
    exact (h.step hstep).2
  · rintro s e t ⟨F, A, h⟩ hstep -
    exact (h.step hstep).1

/-! ### One device and two -/

/-- A process registers a device. -/
def demoRegister (d' : Dev) (pid id : ℕ) : DevEvent where
  msg := clientMessage 4 pid .devReg 0 0 0 0
  others := ⟨demoReg, default, 0x9000⟩
  round := ⟨d', none, [sendBack { clientMessage 4 pid .devReg 0 0 0 0 with major := id }], none, []⟩

/-- Application 20 reads from device 0, and is told to wait. -/
def demoRead (d : Dev) : DevEvent where
  msg := clientMessage 4 20 .devRead 0 0x8000 0 512
  others := ⟨demoReg, { (default : Message) with major := devStatusWait }, 0x9000⟩
  round := requestRound d (clientMessage 4 20 .devRead 0 0x8000 0 512) .devRead
    ⟨demoReg, { (default : Message) with major := devStatusWait }, 0x9000⟩

/-- Process 5 is done with the request of application 20. -/
def demoUpdMsg : Message := { clientMessage 4 5 .devUpd 0 0 0 0 with data := ⟨0, 0, 0, 20⟩ }

def demoUpd (r : Round) : DevEvent where
  msg := demoUpdMsg
  others := ⟨demoReg, default, 0x9010⟩
  round := r

theorem DevInv.admitted (h : DevInv n d F A) (hkept : caseOf e.msg.type ≠ some .devUnreg)
    (hinside : e.msg.major ≤ n) (hblock : ∀ i ≤ n, e.others.block ∉ A i) : Admitted n d e where
  kept := hkept
  inside _ _ _ := hinside
  fresh i hi l hl := by
    rw [hl.unique (h.waits i hi)]
    exact hblock i hi

theorem demoRegister_step {pid : ℕ} (h : DevInv n d F A) (hblock : ∀ i ≤ n, 0x9000 ∉ A i)
    (hcall : registerDeviceImpl d demoReg pid = .ok (d', id)) :
    DevStep n d (demoRegister d' pid id) d' := by
  refine ⟨h.admitted (by simp [demoRegister, clientMessage, Operation.code, caseOf, outerCases])
    (Nat.zero_le n) hblock, Returns.of_add 0 fun fuel => ?_, rfl⟩
  show (registerDeviceImpl d demoReg pid >>= _) = _
  rw [hcall]
  rfl

theorem demoRead_step (h : DevInv n d F A) (hblock : ∀ i ≤ n, 0x9000 ∉ A i) :
    DevStep n d (demoRead d) (demoRead d).round.dev :=
  ⟨h.admitted (by simp [demoRead, clientMessage, Operation.code, caseOf, outerCases])
    (Nat.zero_le n) hblock, Returns.of_add 0 fun _ => rfl, rfl⟩

theorem demoUpd_step {r : Round} (h : DevInv n d F A) (hblock : ∀ i ≤ n, 0x9010 ∉ A i)
    (hround : Returns (fun fuel => updRound fuel d demoUpdMsg) r) :
    DevStep n d (demoUpd r) r.dev :=
  ⟨h.admitted (by simp [demoUpd, demoUpdMsg, clientMessage, Operation.code, caseOf, outerCases])
    (Nat.zero_le n) hblock, hround, rfl⟩

/-- The read is noted on the wait list of device 0. -/
theorem demoRead_dev (huse : (d.implList 0).inUse = true) (hpid : (d.implList 0).PID = 5)
    (hreg : (d.implList 0).toDeviceImplRegisterStruct = demoReg) :
    (demoRead d).round.dev = appendRequest d 0 0x9000 20 1 := by
  have hperm : (d.implList 0).hasPermissionToWriteDirectly = true := by
    rw [hreg]
    rfl
  have hin : ¬ ((d.implList 0).inUse = false ∨ (d.implList 0).PID = 0) := by
    rw [huse, hpid]
    decide
  exact congrArg Round.dev (requestRound_wait hin hperm rfl)

/-- Process 5 registers device 0. -/
theorem demo_first : ∃ d₁ F₁, DevStep 256 (initImplList 256 demoDev) (demoRegister d₁ 5 0) d₁ ∧
    DevInv 256 d₁ F₁ (fun _ => []) ∧ F₁ ≠ [] ∧ 0 ∉ F₁ ∧ d₁.implUseList = some 0 ∧
      (d₁.implList 0).inUse = true ∧ (d₁.implList 0).PID = 5 ∧
        (d₁.implList 0).toDeviceImplRegisterStruct = demoReg := by
  have h₀ : DevInv 256 (initImplList 256 demoDev) _ _ := initImplList_inv demoDev_blank
  rw [List.range_succ_eq_map] at h₀
  obtain ⟨d₁, id₁, hcall⟩ := h₀.kept.register_returns (List.cons_ne_nil _ _) demoReg 5
  obtain ⟨F₁, hF, hkept, hlast, -, -, -, hreg, hpid⟩ := h₀.kept.register hcall
  obtain ⟨rfl, rfl⟩ := List.cons.inj hF
  obtain ⟨⟨F₁', h₁⟩, -⟩ := h₀.register hcall
  obtain rfl := h₁.kept.free.unique hkept.free
  refine ⟨d₁, _, demoRegister_step h₀ (by simp) hcall, h₁, by simp, ?_, hlast,
    (hkept.last 0 hlast).2.1, hpid, hreg⟩
  exact (List.nodup_cons.mp h₀.kept.nodup).1

/-- After the read application 20 waits for process 5 at device 0. -/
theorem demoRead_inv (h : DevInv 256 d F fun _ => []) (huse : (d.implList 0).inUse = true)
    (hpid : (d.implList 0).PID = 5) (hreg : (d.implList 0).toDeviceImplRegisterStruct = demoReg) :
    DevInv 256 (demoRead d).round.dev F (Function.update (fun _ => []) 0 [0x9000]) ∧
      (demoRead d).round.dev.implUseList = d.implUseList ∧
        WaitsFor (demoRead d).round.dev 0 5 20 := by
  have hperm : (d.implList 0).hasPermissionToWriteDirectly = true := by
    rw [hreg]
    rfl
  rw [demoRead_dev huse hpid hreg]
  have h' : DevInv 256 (appendRequest d 0 0x9000 20 1) F
      (Function.update (fun _ => []) 0 [0x9000]) :=
    h.append (Nat.zero_le _) huse hperm (by decide) (by simp)
  refine ⟨h', by rw [appendRequest_eq], (h'.waitsFor_iff (Nat.zero_le _)).mpr ?_⟩
  refine ⟨0x9000, by simp, ?_, ?_⟩
  · simpa [appendRequest_eq] using hpid
  · simp [appendRequest_eq]

theorem demoUpd_fresh :
    ∀ i ≤ 256, 0x9010 ∉ Function.update (fun _ => ([] : List ℕ)) 0 [0x9000] i := by
  intro i _
  by_cases h : i = 0
  · subst h
    simp
  · simp [h]

/-- One device: the read waits, and is completed. -/
theorem deferred_sound_demo : ∃ tr s, Run (DevStep 256) (initImplList 256 demoDev) tr s ∧
    tr.length = 3 ∧ ∀ x ∈ tr, DeferredSound 256 x.source x.label := by
  obtain ⟨d₁, F₁, hstep₁, h₁, -, -, hlast, huse, hpid, hreg⟩ := demo_first
  obtain ⟨h₂, hsame, hwaits⟩ := demoRead_inv h₁ huse hpid hreg
  obtain ⟨r, hr⟩ := h₂.upd_returns demoUpdMsg
  have hrun := ((Run.start.extend hstep₁).extend (demoRead_step h₁ (by simp))).extend
    (demoUpd_step h₂ demoUpd_fresh hr)
  refine ⟨_, _, hrun, rfl, (deferred_sound_iff demoDev_blank hrun).mpr fun x hx => ?_⟩
  simp only [List.nil_append, List.cons_append, List.mem_cons, List.not_mem_nil, or_false] at hx
  rcases hx with rfl | rfl | rfl
  · intro hcase
    cases hcase
  · intro hcase
    cases hcase
  · exact fun _ _ _ => ⟨0, hsame.trans hlast, hwaits⟩

/-- Two devices: the request at the first is not found, and its application is not answered. -/
theorem first_device_waits_on : ∃ tr s, Run (DevStep 256) (initImplList 256 demoDev) tr s ∧
    ∃ x ∈ tr, caseOf x.label.msg.type = some .devUpd ∧
      WaitsFor x.source 0 x.label.msg.sender x.label.msg.data.d4 ∧
        ¬ DeferredSound 256 x.source x.label := by
  obtain ⟨d₁, F₁, hstep₁, h₁, hne, hout, hlast₁, huse, hpid, hreg⟩ := demo_first
  obtain ⟨d₂, id, hcall⟩ := h₁.kept.register_returns hne demoReg 6
  obtain ⟨F₂, rfl, -, hlast, -, hkeep, -⟩ := h₁.kept.register hcall
  obtain ⟨⟨F₂', h₂⟩, -⟩ := h₁.register hcall
  have hid : 0 ≠ id := fun h => hout (h ▸ List.mem_cons_self)
  rw [← hkeep 0 hid] at huse hpid hreg
  obtain ⟨h₃, hsame, hwaits⟩ := demoRead_inv h₂ huse hpid hreg
  obtain ⟨r, hr⟩ := h₃.upd_returns demoUpdMsg
  have hupd := demoUpd_step h₃ demoUpd_fresh hr
  have hrun := (((Run.start.extend hstep₁).extend (demoRegister_step h₁ (by simp) hcall)).extend
    (demoRead_step h₂ (by simp))).extend hupd
  refine ⟨_, _, hrun, _, List.mem_append_right _ List.mem_cons_self, rfl, hwaits, fun hsound => ?_⟩
  -- the search looks at the second device only, where nothing waits
  obtain ⟨x, hx, hfound⟩ := (h₃.step hupd).2.mp hsound rfl Nat.zero_ne_one
    ⟨0, Nat.zero_le _, hwaits⟩
  rw [hsame, hlast] at hx
  obtain rfl := Option.some.inj hx
  have hle := (h₂.kept.last id hlast).1
  obtain ⟨a, ha, -⟩ := (h₃.waitsFor_iff hle).mp hfound
  simp [hid.symm] at ha

end OmochaOS.Device
