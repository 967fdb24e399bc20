import OmochaOS.Systask.Replies

/-!
# Whose subscriptions they are (`modules/systask/systask.c`)

An entry of `interrupt_methods`, `interrupt_suscribed` or `exception_suscribed` is given to the process
that asks for it.  The checks for an entry that is taken, for the clock and for a number that is too
large come back from `panic`, so what keeps the entries with their owners are the requests themselves:
`owned_iff` says which sequences of requests do.
-/

namespace OmochaOS.Systask

open TransitionRun

variable {env env' : CoreEnv} {msg : Message} {b : Build} {fuel i : ℕ} {p : Pid} {req : Request}

/-- The requests about the three tables. -/
def tableRequests : List Request :=
  [.regIntFunc, .unregIntFunc, .regIntMsg, .unregIntMsg, .regExcMsg, .unregExcMsg, .exitProc]

/-- SysTask is sent one of these, by anybody.  What there is after an access outside of a table is not known;
the entry of the process that exits is in a table too. -/
inductive TableStep (b : Build) (env : CoreEnv) (msg : Message) : CoreEnv → Prop
  | served {env' : CoreEnv} {req : Request} (hreq : caseOf msg.type = some req)
      (hmem : req ∈ tableRequests) (hstep : ServeStep b env msg env') : TableStep b env msg env'
  | wild {env' : CoreEnv} {req : Request} (hreq : caseOf msg.type = some req)
      (hmem : req ∈ tableRequests) (hwild : ¬ InBounds env msg req) : TableStep b env msg env'

/-- The owner has asked for it: with his own request for entry `i`, or at his exit. -/
def ByOwner (msg : Message) (unreg : Request) (i : ℕ) (p : Pid) : Prop :=
  (caseOf msg.type = some unreg ∧ msg.sender = p ∧ msg.major = i) ∨
    (caseOf msg.type = some .exitProc ∧ msg.major = p)

/-- The accesses are inside the tables, the clock keeps its entries, and what changes of the entries
that are given out is what their owners ask for. -/
structure Owned (env : CoreEnv) (msg : Message) (env' : CoreEnv) : Prop where
  inside : ∀ req, caseOf msg.type = some req → InBounds env msg req
  clock : env'.interruptMethods 0 = env.interruptMethods 0 ∧
    env'.kernel.interruptSuscribed 0 = env.kernel.interruptSuscribed 0
  methods : ∀ i < hwIrqCount, (env.interruptMethods i).avail = true →
    env'.interruptMethods i ≠ env.interruptMethods i →
      ByOwner msg .unregIntFunc i (env.interruptMethods i).pid
  interrupts : ∀ i < hwIrqCount, env.kernel.interruptSuscribed i ≠ 0 →
    env'.kernel.interruptSuscribed i ≠ env.kernel.interruptSuscribed i →
      ByOwner msg .unregIntMsg i (env.kernel.interruptSuscribed i)
  exceptions : ∀ i < exceptionCount, env.kernel.exceptionSuscribed i ≠ 0 →
    env'.kernel.exceptionSuscribed i ≠ env.kernel.exceptionSuscribed i →
      ByOwner msg .unregExcMsg i (env.kernel.exceptionSuscribed i)

/-- The entry that `REG_INT_FUNC` writes. -/
def newMethod (env : CoreEnv) (msg : Message) : InterruptMethod :=
  { avail := true, pid := msg.sender, func := env.kernel.msgAddr msg.sender msg.data.d1,
    data := env.kernel.msgAddr msg.sender msg.data.d2 }

/-- The condition on a request: its entry is in the table, and free or the sender's already; it is not
the clock's for a registration.  Who exits has an entry in the process table. -/
def Rightful (env : CoreEnv) (msg : Message) : Request → Prop
  | .regIntFunc => msg.major < hwIrqCount ∧ msg.major ≠ 0 ∧
      ((env.interruptMethods msg.major).avail = false ∨
        env.interruptMethods msg.major = newMethod env msg)
  | .unregIntFunc => msg.major < hwIrqCount ∧ ((env.interruptMethods msg.major).avail = false ∨
      (env.interruptMethods msg.major).pid = msg.sender)
  | .regIntMsg => msg.major < hwIrqCount ∧
      (msg.major ≠ 0 ∧ env.kernel.interruptSuscribed msg.major = 0 ∨
        env.kernel.interruptSuscribed msg.major = msg.sender)
  | .unregIntMsg => msg.major < hwIrqCount ∧ (env.kernel.interruptSuscribed msg.major = 0 ∨
      env.kernel.interruptSuscribed msg.major = msg.sender)
  | .regExcMsg => msg.major < exceptionCount ∧ (env.kernel.exceptionSuscribed msg.major = 0 ∨
      env.kernel.exceptionSuscribed msg.major = msg.sender)
  | .unregExcMsg => msg.major < exceptionCount ∧ (env.kernel.exceptionSuscribed msg.major = 0 ∨
      env.kernel.exceptionSuscribed msg.major = msg.sender)
  | .exitProc => msg.major < env.procMax
  | _ => True

/-- The clock's entries are those of `core_main`. -/
structure ClockKept (env : CoreEnv) : Prop where
  methods : env.interruptMethods 0 = { avail := false, pid := 0, func := 0, data := 0 }
  interrupts : env.kernel.interruptSuscribed 0 = 0

theorem ClockKept.of_owned (h : ClockKept env) (ho : Owned env msg env') : ClockKept env' :=
  ⟨ho.clock.1.trans h.methods, ho.clock.2.trans h.interrupts⟩

theorem Rightful.inBounds (h : Rightful env msg req) (hmem : req ∈ tableRequests) :
    InBounds env msg req := by
  cases req <;> first | exact h.1 | exact h | exact trivial | simp [tableRequests] at hmem

/-! ### One entry is written -/

/-- Only the entry that is written can be one that changes against the will of its owner. -/
theorem update_kept_iff {β : Type} {old : ℕ → β} {j count : ℕ} {v : β} (given : β → Prop)
    (asked : ℕ → β → Prop) :
    (∀ i < count, given (old i) → Function.update old j v i ≠ old i → asked i (old i)) ↔
      (j < count → given (old j) → v ≠ old j → asked j (old j)) := by
  constructor
  · intro h hj hgiven hv
    apply h j hj hgiven
    rw [Function.update_self]
    exact hv
  · intro h i hi hgiven hne
    by_cases hij : i = j
    · subst hij
      rw [Function.update_self] at hne
      exact h hi hgiven hne
    · exact absurd (Function.update_of_ne hij v old) hne

theorem update_zero_iff {β : Type} {old : ℕ → β} {j : ℕ} {v : β} :
    Function.update old j v 0 = old 0 ↔ (j = 0 → v = old 0) := by
  by_cases hj : j = 0
  · subst hj
    simp
  · rw [Function.update_of_ne (Ne.symm hj)]
    simp [hj]

theorem inside_iff (hreq : caseOf msg.type = some req) :
    (∀ req', caseOf msg.type = some req' → InBounds env msg req') ↔ InBounds env msg req := by
  rw [hreq]
  simp

theorem owned_setInterruptMethod_iff {m : InterruptMethod} (hreq : caseOf msg.type = some req) :
    Owned env msg (setInterruptMethod env msg.major m) ↔ InBounds env msg req ∧
      (msg.major = 0 → m = env.interruptMethods 0) ∧
      (msg.major < hwIrqCount → (env.interruptMethods msg.major).avail = true →
        m ≠ env.interruptMethods msg.major →
          ByOwner msg .unregIntFunc msg.major (env.interruptMethods msg.major).pid) := by
  rw [← inside_iff hreq, ← update_zero_iff, ← update_kept_iff (fun m : InterruptMethod => m.avail = true)
    fun i m => ByOwner msg .unregIntFunc i m.pid]
  constructor
  · rintro ⟨hin, ⟨hclock, -⟩, hkept, -, -⟩
    exact ⟨hin, hclock, hkept⟩
  · rintro ⟨hin, hclock, hkept⟩
    exact ⟨hin, ⟨hclock, rfl⟩, hkept, fun _ _ _ hne => absurd rfl hne, fun _ _ _ hne => absurd rfl hne⟩

theorem owned_setInterruptSuscribed_iff {p : Pid} (hreq : caseOf msg.type = some req) :
    Owned env msg (setInterruptSuscribed env msg.major p) ↔ InBounds env msg req ∧
      (msg.major = 0 → p = env.kernel.interruptSuscribed 0) ∧
      (msg.major < hwIrqCount → env.kernel.interruptSuscribed msg.major ≠ 0 →
        p ≠ env.kernel.interruptSuscribed msg.major →
          ByOwner msg .unregIntMsg msg.major (env.kernel.interruptSuscribed msg.major)) := by
  rw [← inside_iff hreq, ← update_zero_iff, ← update_kept_iff (fun q : Pid => q ≠ 0)
    fun i q => ByOwner msg .unregIntMsg i q]
  constructor
  · rintro ⟨hin, ⟨-, hclock⟩, -, hkept, -⟩
    exact ⟨hin, hclock, hkept⟩
  · rintro ⟨hin, hclock, hkept⟩
    exact ⟨hin, ⟨rfl, hclock⟩, fun _ _ _ hne => absurd rfl hne, hkept, fun _ _ _ hne => absurd rfl hne⟩

theorem owned_setExceptionSuscribed_iff {p : Pid} (hreq : caseOf msg.type = some req) :
    Owned env msg (setExceptionSuscribed env msg.major p) ↔ InBounds env msg req ∧
      (msg.major < exceptionCount → env.kernel.exceptionSuscribed msg.major ≠ 0 →
        p ≠ env.kernel.exceptionSuscribed msg.major →
          ByOwner msg .unregExcMsg msg.major (env.kernel.exceptionSuscribed msg.major)) := by
  rw [← inside_iff hreq, ← update_kept_iff (fun q : Pid => q ≠ 0)
    fun i q => ByOwner msg .unregExcMsg i q]
  constructor
  · rintro ⟨hin, -, -, -, hkept⟩
    exact ⟨hin, hkept⟩
  · rintro ⟨hin, hkept⟩
    exact ⟨hin, ⟨rfl, rfl⟩, fun _ _ _ hne => absurd rfl hne, fun _ _ _ hne => absurd rfl hne, hkept⟩

/-- Who asks for a change, in a request that is no exit. -/
theorem byOwner_iff {unreg : Request} (hreq : caseOf msg.type = some req) (hexit : req ≠ .exitProc) :
    ByOwner msg unreg msg.major p ↔ req = unreg ∧ msg.sender = p := by
  simp [ByOwner, hreq, hexit]

/-- What an exit does to the tables. -/
theorem exitProc_tables (hcall : exitProc fuel env p = some env') :
    env'.interruptMethods = dropMethods env.interruptMethods p ∧
      env'.kernel.interruptSuscribed = (ProcTable.unsuscribe env.kernel p).interruptSuscribed ∧
      env'.kernel.exceptionSuscribed = env.kernel.exceptionSuscribed := by
  obtain ⟨-, t, ht, rfl⟩ := exitProc_eq_some hcall
  obtain ⟨k, hk, rfl⟩ := Option.map_eq_some_iff.mp ht
  refine ⟨rfl, ?_⟩
  show k.interruptSuscribed = _ ∧ k.exceptionSuscribed = _
  split at hk
  · obtain rfl := Option.some.inj hk
    exact ⟨rfl, rfl⟩
  · split at hk
    · obtain rfl := Option.some.inj hk
      exact ⟨rfl, rfl⟩
    · split at hk
      · obtain rfl := Option.some.inj hk
        exact ⟨rfl, rfl⟩
      · obtain rfl := Option.some.inj hk
        exact ⟨rfl, rfl⟩
      · cases hk

/-- An exit takes nothing from others, and nothing from the clock. -/
theorem owned_exitProc (hclock : ClockKept env) (hreq : caseOf msg.type = some .exitProc)
    (hcall : exitProc fuel env msg.major = some env') : Owned env msg env' := by
  obtain ⟨hmethods, hinterrupts, hexceptions⟩ := exitProc_tables hcall
  refine ⟨fun req he => ?_, ⟨?_, ?_⟩, fun i _ _ hne => ?_, fun i _ _ hne => ?_, fun i _ _ hne => ?_⟩
  · rw [hreq] at he
    obtain rfl := Option.some.inj he
    exact (exitProc_eq_some hcall).1
  · rw [hmethods, dropMethods]
    split
    · rw [hclock.methods]
    · rfl
  · rw [hinterrupts, ProcTable.unsuscribe]
    simp only [hclock.interrupts, ite_self]
  · rw [hmethods, dropMethods] at hne
    split at hne
    · rename_i hpid
      exact Or.inr ⟨hreq, hpid.2.symm⟩
    · exact absurd rfl hne
  · rw [hinterrupts, ProcTable.unsuscribe] at hne
    simp only at hne
    split at hne
    · rename_i hpid
      exact Or.inr ⟨hreq, hpid.2.symm⟩
    · exact absurd rfl hne
  · rw [hexceptions] at hne
    exact absurd rfl hne

/-! ### Sequences of requests -/

theorem ServeStep.effect_of (hstep : ServeStep b env msg env') (hreq : caseOf msg.type = some req) :
    ∃ fuel, Effect fuel env msg req env' := by
  obtain ⟨fuel, r, hr, rfl⟩ := hstep
  rw [serve_eq hreq] at hr
  exact ⟨fuel, serveCase_effect hr⟩

theorem not_tableRequest (h : req ∈ [Request.getTicks, .regProc, .queryProc, .peekMsg, .queryEnv,
    .getProc, .getProcListHead, .procVir2phy]) : req ∉ tableRequests := by
  revert h
  cases req <;> decide

/-- **One request** leaves the entries with their owners just when it is rightful. -/
theorem TableStep.inside_iff_owned (hclock : ClockKept env) (hstep : TableStep b env msg env') :
    Owned env msg env' ↔ ∀ req, caseOf msg.type = some req → Rightful env msg req := by
  have hgoal : ∀ {req : Request}, caseOf msg.type = some req →
      ((∀ req', caseOf msg.type = some req' → Rightful env msg req') ↔ Rightful env msg req) := by
    intro req hreq
    rw [hreq]
    simp
  cases hstep with
  | wild hreq hmem hwild =>
    refine iff_of_false (fun ho => hwild (ho.inside _ hreq)) fun h => hwild ?_
    exact (h _ hreq).inBounds hmem
  | served hreq hmem hstep =>
    obtain ⟨fuel, he⟩ := hstep.effect_of hreq
    rw [hgoal hreq]
    cases he with
    | regIntFunc hirq =>
      rw [owned_setInterruptMethod_iff hreq, byOwner_iff hreq (by decide)]
      constructor
      · rintro ⟨-, hzero, hkept⟩
        refine ⟨hirq, fun h0 => ?_, ?_⟩
        · have hnew := hzero h0
          rw [hclock.methods] at hnew
          simp at hnew
        · by_contra hnot
          rw [not_or, Bool.not_eq_false] at hnot
          exact absurd (hkept hirq hnot.1 (Ne.symm hnot.2)).1 (by decide)
      · rintro ⟨-, hne, hfree⟩
        refine ⟨hirq, fun h0 => absurd h0 hne, fun _ havail hnew => ?_⟩
        rcases hfree with hfree | hsame
        · rw [hfree] at havail
          cases havail
        · exact absurd hsame.symm hnew
    | unregIntFunc hirq =>
      rw [owned_setInterruptMethod_iff hreq, byOwner_iff hreq (by decide)]
      constructor
      · rintro ⟨-, -, hkept⟩
        refine ⟨hirq, ?_⟩
        by_cases havail : (env.interruptMethods msg.major).avail = true
        · refine Or.inr (hkept hirq havail fun hsame => ?_).2.symm
          rw [← hsame] at havail
          cases havail
        · exact Or.inl (by simpa using havail)
      · rintro ⟨-, hown⟩
        refine ⟨hirq, fun _ => hclock.methods.symm, fun _ havail _ => ⟨rfl, ?_⟩⟩
        rcases hown with hfree | hown
        · rw [hfree] at havail
          cases havail
        · exact hown.symm
    | regIntMsg hirq =>
      rw [owned_setInterruptSuscribed_iff hreq, byOwner_iff hreq (by decide), hclock.interrupts]
      constructor
      · rintro ⟨-, hzero, hkept⟩
        refine ⟨hirq, ?_⟩
        by_cases hown : env.kernel.interruptSuscribed msg.major = msg.sender
        · exact Or.inr hown
        · left
          have hfree : env.kernel.interruptSuscribed msg.major = 0 := by
            by_contra hgiven
            exact absurd (hkept hirq hgiven (Ne.symm hown)).1 (by decide)
          refine ⟨fun h0 => hown ?_, hfree⟩
          rw [hfree, hzero h0]
      · rintro ⟨-, hfree⟩
        refine ⟨hirq, fun h0 => ?_, fun _ hgiven hnew => ?_⟩
        · rcases hfree with ⟨hne, -⟩ | hown
          · exact absurd h0 hne
          · rw [← hown, h0, hclock.interrupts]
        · rcases hfree with ⟨-, hfree⟩ | hown
          · exact absurd hfree hgiven
          · exact absurd hown.symm hnew
    | unregIntMsg hirq =>
      rw [owned_setInterruptSuscribed_iff hreq, byOwner_iff hreq (by decide), hclock.interrupts]
      constructor
      · rintro ⟨-, -, hkept⟩
        refine ⟨hirq, ?_⟩
        by_cases hfree : env.kernel.interruptSuscribed msg.major = 0
        · exact Or.inl hfree
        · exact Or.inr (hkept hirq hfree (Ne.symm hfree)).2.symm
      · rintro ⟨-, hown⟩
        exact ⟨hirq, fun _ => rfl, fun _ hgiven _ => ⟨rfl, (hown.resolve_left hgiven).symm⟩⟩
    | regExcMsg hexc =>
      rw [owned_setExceptionSuscribed_iff hreq, byOwner_iff hreq (by decide)]
      constructor
      · rintro ⟨-, hkept⟩
        refine ⟨hexc, ?_⟩
        by_contra hnot
        rw [not_or] at hnot
        exact absurd (hkept hexc hnot.1 (Ne.symm hnot.2)).1 (by decide)
      · rintro ⟨-, hfree⟩
        refine ⟨hexc, fun _ hgiven hnew => ?_⟩
        exact absurd (hfree.resolve_left hgiven).symm hnew
    | unregExcMsg hexc =>
      rw [owned_setExceptionSuscribed_iff hreq, byOwner_iff hreq (by decide)]
      constructor
      · rintro ⟨-, hkept⟩
        refine ⟨hexc, ?_⟩
        by_cases hfree : env.kernel.exceptionSuscribed msg.major = 0
        · exact Or.inl hfree
        · exact Or.inr (hkept hexc hfree (Ne.symm hfree)).2.symm
      · rintro ⟨-, hown⟩
        exact ⟨hexc, fun _ hgiven _ => ⟨rfl, (hown.resolve_left hgiven).symm⟩⟩
    | exitProc hcall => exact iff_of_true (owned_exitProc hclock hreq hcall) (exitProc_eq_some hcall).1
    | kept hkept => exact absurd hmem (not_tableRequest hkept)
    | regProc _ _ => simp [tableRequests] at hmem
    | unregProc => simp [tableRequests] at hmem
    | switchPrivRing3 => simp [tableRequests] at hmem
    | switchPrivRing1 => simp [tableRequests] at hmem
    | allocProc _ => simp [tableRequests] at hmem

/-- **Whose subscriptions they are.**  In a sequence of requests, from tables in which the clock has no
entry, all accesses are inside and all entries stay with their owners just when every request is
rightful. -/
theorem owned_iff {tr : List (Transition CoreEnv Message)} (h₀ : ClockKept env)
    (hrun : Run (TableStep b) env tr env') :
    (∀ x ∈ tr, Owned x.source x.label x.target) ↔
      ∀ x ∈ tr, ∀ req, caseOf x.label.type = some req → Rightful x.source x.label req := by
  apply hrun.forall_iff ClockKept Owned
    fun env msg _ => ∀ req, caseOf msg.type = some req → Rightful env msg req
  · exact h₀
  · exact fun env msg env' hclock hstep => hstep.inside_iff_owned hclock
  · exact fun env msg env' hclock _ ho => hclock.of_owned ho

/-! ### Two drivers -/

theorem demoEnv_clockKept : ClockKept demoEnv := ⟨rfl, by decide +kernel⟩

@[simp] theorem interruptSuscribed_set {j : ℕ} :
    (setInterruptSuscribed env i p).kernel.interruptSuscribed j =
      if j = i then p else env.kernel.interruptSuscribed j :=
  Function.update_apply _ _ _ _

theorem one_lt_hwIrqCount : 1 < hwIrqCount := by decide

theorem tableHandler_step {count : ℕ} {before after : List Bool} {change : CoreEnv}
    (hreq : caseOf msg.type = some req) (hmem : req ∈ tableRequests) (hcount : msg.major < count)
    (hcase : serveCase b 0 env msg req = tableHandler b count before after change msg) :
    TableStep b env msg change := by
  refine TableStep.served hreq hmem ⟨0, answer change { msg with major := 0 }, ?_, rfl⟩
  rw [serve_eq hreq, hcase, tableHandler_eq, if_pos hcount]

theorem regIntMsg_step (hreq : caseOf msg.type = some .regIntMsg) (hirq : msg.major < hwIrqCount) :
    TableStep b env msg (setInterruptSuscribed env msg.major msg.sender) :=
  tableHandler_step hreq (by decide) hirq rfl

theorem unregIntMsg_step (hreq : caseOf msg.type = some .unregIntMsg)
    (hirq : msg.major < hwIrqCount) :
    TableStep b env msg (setInterruptSuscribed env msg.major 0) :=
  tableHandler_step hreq (by decide) hirq rfl

theorem keyboard_step (env : CoreEnv) (p : Pid) : TableStep .configured env
    (demoRequest p .regIntMsg 1) (setInterruptSuscribed env 1 p) :=
  regIntMsg_step (caseOf_demoRequest p .regIntMsg 1) one_lt_hwIrqCount

/-- Process 5 subscribes the keyboard, and gives it up. -/
theorem owned_iff_demo : ∃ tr env, Run (TableStep .configured) demoEnv tr env ∧ tr.length = 2 ∧
    ∀ x ∈ tr, Owned x.source x.label x.target := by
  have hrun := (Run.start.extend (keyboard_step demoEnv 5)).extend
    (unregIntMsg_step (caseOf_demoRequest 5 .unregIntMsg 1) one_lt_hwIrqCount)
  refine ⟨_, _, hrun, rfl, (owned_iff demoEnv_clockKept hrun).mpr fun x hx req hreq => ?_⟩
  simp only [List.nil_append, List.cons_append, List.mem_cons, List.not_mem_nil, or_false] at hx
  rcases hx with rfl | rfl
  · rw [caseOf_demoRequest] at hreq
    obtain rfl := Option.some.inj hreq
    refine ⟨one_lt_hwIrqCount, Or.inl ⟨Nat.one_ne_zero, ?_⟩⟩
    show demoEnv.kernel.interruptSuscribed 1 = 0
    decide +kernel
  · rw [caseOf_demoRequest] at hreq
    obtain rfl := Option.some.inj hreq
    refine ⟨one_lt_hwIrqCount, Or.inr ?_⟩
    show (setInterruptSuscribed demoEnv 1 5).kernel.interruptSuscribed 1 = 5
    simp

/-- Process 6 takes the keyboard from process 5. -/
theorem keyboard_taken_over : ∃ tr env, Run (TableStep .configured) demoEnv tr env ∧ tr.length = 2 ∧
    ∃ x ∈ tr, x.source.kernel.interruptSuscribed 1 = 5 ∧ x.target.kernel.interruptSuscribed 1 = 6 ∧
      x.label.sender = 6 ∧ ¬ Owned x.source x.label x.target := by
  have hrun := (Run.start.extend (keyboard_step demoEnv 5)).extend (keyboard_step _ 6)
  refine ⟨_, _, hrun, rfl, _, List.mem_append_right _ List.mem_cons_self, by simp, by simp, rfl,
    fun ho => ?_⟩
  rcases ho.interrupts 1 (by decide) (by simp) (by simp) with ⟨hcase, -⟩ | ⟨hcase, -⟩
  · cases hcase
  · cases hcase

end OmochaOS.Systask
