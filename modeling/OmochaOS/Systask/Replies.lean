import OmochaOS.Systask.Dispatcher

/-!
# The answers of SysTask (`modules/systask/systask.c`, `modules/systask.h`)

Except `exit_proc` every client of `modules/systask.h` waits for an answer after it has sent its request.
`ListEnds` holds in every state that SysTask gets to, so its loops over the processes end; `comes_iff`
says when it gets to its next `recv_msg`, and `answeredOnce_iff` when it has answered by then.
-/

namespace OmochaOS.Systask

open IntrusiveList TransitionRun

variable {env env' : CoreEnv} {msg : Message} {b : Build} {fuel : ℕ} {p q c : Pid} {l : List Pid}
  {r : Served} {req : Request}

/-- `proc_list` leads to the null pointer. -/
def ListEnds (env : CoreEnv) : Prop := ∃ l, Chain env.kernel.next env.kernel.procList l

theorem ListEnds.of_eq (h : ListEnds env) (hnext : env'.kernel.next = env.kernel.next)
    (hlist : env'.kernel.procList = env.kernel.procList) : ListEnds env' := by
  obtain ⟨l, hc⟩ := h
  refine ⟨l, ?_⟩
  rw [hnext, hlist]
  exact hc

theorem ListEnds.setName {name : List UInt8} (h : ListEnds env) : ListEnds (setName env p name) := by
  apply h.of_eq
  · exact Kernel.procTable_modProc_of_eq (f := fun pr => { pr with name := name }) Process.next rfl
  · rfl

/-! ### The loops end -/

theorem queryProc_returns {k : Kernel} {h : Option Pid} (hc : Chain k.next h l)
    (name : List UInt8) : ∃ pid, queryProc k name (l.length + 1) h = some pid := by
  induction hc with
  | nil => exact ⟨0, rfl⟩
  | @cons a l tail ih =>
    by_cases hname : k.name a = name
    · exact ⟨k.pid a, by rw [List.length_cons, queryProc, if_pos hname]⟩
    · rw [List.length_cons, queryProc, if_neg hname]
      exact ih

theorem appendProc_returns {k : Kernel} (hc : Chain k.next k.procList l) :
    ∃ k', k.appendProc l.length c = some k' := by
  unfold Kernel.appendProc
  cases hp : k.procList with
  | none => exact ⟨_, rfl⟩
  | some p =>
    rw [hp] at hc
    obtain ⟨f, hf⟩ := Option.isSome_iff_exists.mp (hc.walkToLast_isSome (Nat.le_refl l.length))
    simp only [hf, Option.map_some]
    exact ⟨_, rfl⟩

/-- The cleared entry ends the list, if it is on it. -/
theorem listEnds_clear {k : Kernel} {f : Process → Process} (hc : Chain k.next k.procList l)
    (hnext : (f (k.procTable c)).next = none) :
    ∃ l', Chain (k.modProc c f).next (k.modProc c f).procList l' := by
  rw [ProcTable.next_modProc, hnext]
  exact hc.cut c

theorem allocProc_returns (h : ListEnds env) :
    ∃ fuel x, ProcTable.allocProc fuel env.toProcTable = some x := by
  obtain ⟨l, hc⟩ := h
  by_cases hfull : findFirstUnsetBit env.procBitmap = 0xFFFFFFFF
  · refine ⟨0, ?_⟩
    simp only [ProcTable.allocProc, Kernel.allocProc, if_pos hfull, Option.map_some]
    exact ⟨_, rfl⟩
  · obtain ⟨l', hc'⟩ := listEnds_clear (c := findFirstUnsetBit env.procBitmap)
      (f := fun _ => { (default : Process) with status := procStatusStop }) hc rfl
    obtain ⟨k', hk'⟩ := appendProc_returns (c := findFirstUnsetBit env.procBitmap) hc'
    refine ⟨l'.length, ?_⟩
    simp only [ProcTable.allocProc, Kernel.allocProc, if_neg hfull, hk', Option.map_some]
    exact ⟨_, rfl⟩

theorem queryProcCase_returns (h : ListEnds env) (msg : Message) :
    ∃ fuel r, queryProcCase fuel env msg = some r := by
  obtain ⟨l, hc⟩ := h
  obtain ⟨pid, hpid⟩ := queryProc_returns hc (nameIn env msg)
  refine ⟨l.length + 1, ?_⟩
  rw [queryProcCase, hpid]
  exact ⟨_, rfl⟩

/-! ### When SysTask comes back -/

/-- The offsets at which the answer to a key of `QUERY_ENV` is stored. -/
def envOffsets (env : CoreEnv) (key : ℕ) : List ℕ :=
  if key = envKeyMmap then List.range (mmapSize env)
  else if key = envKeyBootInfo then List.range bootInfoSize
  else if key = envKeyMemoryUsage then memoryUsageOffsets
  else []

/-- The size of that answer. -/
def envSize (env : CoreEnv) (key : ℕ) : ℕ :=
  if key = envKeyMmap then mmapSize env
  else if key = envKeyBootInfo then bootInfoSize
  else if key = envKeyMemoryUsage then memoryUsageSize
  else 0

/-- What is answered when the buffer is large enough. -/
def envResult (env : CoreEnv) (key : ℕ) : ℕ :=
  if key = envKeyMemoryLower then env.memLower
  else if key = envKeyMemoryUpper then env.memUpper
  else if key = envKeyMmap then env.memoryZoneCount
  else 0

def envKeys : List ℕ :=
  [envKeyMemoryLower, envKeyMemoryUpper, envKeyBootInfo, envKeyMmap, envKeyMemoryUsage]

/-- The buffer is too small for the answer, or the answer can be stored there without harm. -/
def StoresHarmless (env : CoreEnv) (msg : Message) : Prop :=
  msg.data.d2 < envSize env msg.major ∨
    ∀ a ∈ stores (bufOf env msg) (envOffsets env msg.major), harmless env a = true

/-- The request stays inside the tables and strings, and does no harm to the kernel and to SysTask. -/
def InBounds (env : CoreEnv) (msg : Message) : Request → Prop
  | .regProc => NameTaken env msg.sender (nameIn env msg) ∨ (nameIn env msg).length < nameSize
  | .regIntFunc => msg.major < hwIrqCount
  | .unregIntFunc => msg.major < hwIrqCount
  | .regIntMsg => msg.major < hwIrqCount
  | .unregIntMsg => msg.major < hwIrqCount
  | .regExcMsg => msg.major < exceptionCount
  | .unregExcMsg => msg.major < exceptionCount
  | .queryEnv => StoresHarmless env msg
  | .procVir2phy => msg.major < env.procMax
  | .exitProc => msg.major < env.procMax
  | _ => True

theorem tableHandler_eq {count : ℕ} {before after : List Bool} {change : CoreEnv} :
    tableHandler b count before after change msg =
      if msg.major < count then some (answer change { msg with major := 0 }) else none := by
  by_cases h : msg.major < count
  · simp [tableHandler, access, h]
  · simp [tableHandler, access, h]

theorem tableHandler_some {count : ℕ} {before after : List Bool} {change : CoreEnv}
    (hr : tableHandler b count before after change msg = some r) :
    msg.major < count ∧ r = answer change { msg with major := 0 } := by
  rw [tableHandler_eq] at hr
  split at hr
  · rename_i h
    exact ⟨h, (Option.some.inj hr).symm⟩
  · cases hr

/-- What is stored, and when SysTask comes back from it. -/
theorem answerStored_eq {stored : List ℕ} : answerStored env msg stored =
    if ∀ a ∈ stored, harmless env a = true then some ⟨env, [sendBack msg], stored⟩ else none := by
  simp only [answerStored, List.all_eq_true]

/-- The cases of `QUERY_ENV` differ in the size, the offsets and the result only. -/
theorem queryEnv_eq : queryEnv b env msg =
    if msg.major ∈ envKeys then
      if msg.data.d2 < envSize env msg.major then
        some (answer env { msg with major := 0xFFFFFFFF })
      else answerStored env { msg with major := envResult env msg.major }
        (stores (bufOf env msg) (envOffsets env msg.major))
    else some ⟨env, [], []⟩ := by
  have hnone : ∀ m : Message, answerStored env m (stores (bufOf env msg) []) =
      some (answer env m) := by
    intro m
    rw [answerStored_eq, if_pos (by simp [stores])]
    rfl
  have hcopy : ∀ size result, copyOut b env msg size result =
      if msg.data.d2 < size then some (answer env { msg with major := 0xFFFFFFFF })
      else answerStored env { msg with major := result } (stores (bufOf env msg) (List.range size)) := by
    intro size result
    simp only [copyOut, panicIf_eq, Option.bind_some]
  have husageEq : memoryUsage b env msg =
      if msg.data.d2 < memoryUsageSize then some (answer env { msg with major := 0xFFFFFFFF })
      else answerStored env { msg with major := 0 } (stores (bufOf env msg) memoryUsageOffsets) := by
    rw [memoryUsage]
    by_cases h : msg.data.d2 < memoryUsageSize
    · rw [if_pos h, if_pos h]
    · rw [if_neg h, if_neg h, panicIf_eq, Option.bind_some]
  -- what is stored nowhere fits
  have hsmall : ∀ key : ℕ, envSize env key = 0 → envOffsets env key = [] → key ∈ envKeys →
      (if key ∈ envKeys then
        if msg.data.d2 < envSize env key then some (answer env { msg with major := 0xFFFFFFFF })
        else answerStored env { msg with major := envResult env key }
          (stores (bufOf env msg) (envOffsets env key))
      else some ⟨env, [], []⟩) = some (answer env { msg with major := envResult env key }) := by
    intro key hsize hoffsets hkey
    rw [if_pos hkey, hsize, if_neg (Nat.not_lt_zero _), hoffsets, hnone]
  have hlarge : ∀ (key : ℕ) {size : ℕ} {offsets : List ℕ} {result : ℕ}, envSize env key = size →
      envOffsets env key = offsets → envResult env key = result → key ∈ envKeys →
      (if msg.data.d2 < size then some (answer env { msg with major := 0xFFFFFFFF })
        else answerStored env { msg with major := result } (stores (bufOf env msg) offsets)) =
      if key ∈ envKeys then
        if msg.data.d2 < envSize env key then some (answer env { msg with major := 0xFFFFFFFF })
        else answerStored env { msg with major := envResult env key }
          (stores (bufOf env msg) (envOffsets env key))
      else some ⟨env, [], []⟩ := by
    rintro key size offsets result rfl rfl rfl hkey
    rw [if_pos hkey]
  by_cases hlower : msg.major = envKeyMemoryLower
  · rw [queryEnv, if_pos hlower, hlower]
    exact (hsmall envKeyMemoryLower rfl rfl (by decide)).symm
  by_cases hupper : msg.major = envKeyMemoryUpper
  · rw [queryEnv, if_neg hlower, if_pos hupper, hupper]
    exact (hsmall envKeyMemoryUpper rfl rfl (by decide)).symm
  by_cases hmmap : msg.major = envKeyMmap
  · rw [queryEnv, if_neg hlower, if_neg hupper, if_pos hmmap, hcopy, hmmap]
    exact hlarge envKeyMmap (if_pos rfl) (if_pos rfl) rfl (by decide)
  by_cases hboot : msg.major = envKeyBootInfo
  · rw [queryEnv, if_neg hlower, if_neg hupper, if_neg hmmap, if_pos hboot, hcopy, hboot]
    exact hlarge envKeyBootInfo rfl rfl rfl (by decide)
  by_cases husage : msg.major = envKeyMemoryUsage
  · rw [queryEnv, if_neg hlower, if_neg hupper, if_neg hmmap, if_neg hboot, if_pos husage, husage]
    rw [husageEq]
    exact hlarge envKeyMemoryUsage rfl rfl rfl (by decide)
  · rw [queryEnv, if_neg hlower, if_neg hupper, if_neg hmmap, if_neg hboot, if_neg husage]
    simp [envKeys, hlower, hupper, hmmap, hboot, husage]

theorem queryEnv_isSome : (∃ r, queryEnv b env msg = some r) ↔ StoresHarmless env msg := by
  rw [queryEnv_eq, StoresHarmless]
  by_cases hkey : msg.major ∈ envKeys
  · by_cases hsmall : msg.data.d2 < envSize env msg.major
    · simp [hkey, hsmall]
    · simp [hkey, hsmall, answerStored_eq]
  · rw [if_neg hkey]
    refine iff_of_true ⟨_, rfl⟩ (Or.inr ?_)
    have hoffsets : envOffsets env msg.major = [] := by
      simp only [envKeys, List.mem_cons, List.not_mem_nil, or_false, not_or] at hkey
      simp [envOffsets, hkey]
    simp [hoffsets, stores]

theorem serve_eq (hreq : caseOf msg.type = some req) :
    serve b fuel env msg = serveCase b fuel env msg req := by
  rw [serve, hreq]

/-- **When SysTask gets to its next `recv_msg`.** -/
theorem comes_iff (h : ListEnds env) (hexit : req ≠ .exitProc) :
    (∃ fuel r, serveCase b fuel env msg req = some r) ↔ InBounds env msg req := by
  have hfree : ∀ {o : Option Served}, (∀ fuel, serveCase b fuel env msg req = o) →
      ((∃ fuel r, serveCase b fuel env msg req = some r) ↔ ∃ r, o = some r) := by
    intro o ho
    constructor
    · rintro ⟨fuel, r, hr⟩
      exact ⟨r, (ho fuel).symm.trans hr⟩
    · rintro ⟨r, hr⟩
      exact ⟨0, r, (ho 0).trans hr⟩
  have htable : ∀ {count : ℕ} {before after : List Bool} {change : CoreEnv},
      (∃ r, tableHandler b count before after change msg = some r) ↔ msg.major < count := by
    intro count before after change
    rw [tableHandler_eq]
    split <;> simp_all
  have hcome : ∀ fuel : ℕ, (∃ r, serveCase b fuel env msg req = some r) → InBounds env msg req →
      ((∃ fuel r, serveCase b fuel env msg req = some r) ↔ InBounds env msg req) :=
    fun fuel hr hin => iff_of_true ⟨fuel, hr⟩ hin
  cases req with
  | exitProc => exact absurd rfl hexit
  | getTicks => exact hcome 0 ⟨_, rfl⟩ trivial
  | peekMsg => exact hcome 0 ⟨_, rfl⟩ trivial
  | getProc => exact hcome 0 (by simp [serveCase, getProc]) trivial
  | getProcListHead => exact hcome 0 (by simp [serveCase, getProcListHead]) trivial
  | switchPrivRing1 => exact hcome 0 (by simp [serveCase, switchPrivRing1]) trivial
  | switchPrivRing3 => exact hcome 0 (by simp [serveCase, switchPrivRing3]) trivial
  | regIntFunc => exact (hfree fun _ => rfl).trans htable
  | unregIntFunc => exact (hfree fun _ => rfl).trans htable
  | regIntMsg => exact (hfree fun _ => rfl).trans htable
  | unregIntMsg => exact (hfree fun _ => rfl).trans htable
  | regExcMsg => exact (hfree fun _ => rfl).trans htable
  | unregExcMsg => exact (hfree fun _ => rfl).trans htable
  | queryEnv => exact (hfree fun _ => rfl).trans queryEnv_isSome
  | procVir2phy =>
    refine (hfree fun _ => rfl).trans ?_
    simp only [access, InBounds]
    split <;> simp_all
  | regProc =>
    refine (hfree fun _ => rfl).trans ?_
    simp only [regProc, InBounds]
    by_cases htaken : NameTaken env msg.sender (nameIn env msg)
    · simp [htaken]
    · by_cases hlen : (nameIn env msg).length < nameSize
      · simp [htaken, hlen]
      · simp [htaken, hlen]
  | unregProc =>
    have h' : ListEnds (unregProc env msg.sender) := h.setName
    obtain ⟨fuel, r, hr⟩ := queryProcCase_returns h' (sendBack { msg with major := 0 })
    refine hcome fuel ?_ trivial
    simp only [serveCase, hr, Option.map_some]
    exact ⟨_, rfl⟩
  | queryProc =>
    obtain ⟨fuel, r, hr⟩ := queryProcCase_returns h msg
    exact hcome fuel ⟨r, hr⟩ trivial
  | allocProc =>
    obtain ⟨fuel, x, hx⟩ := allocProc_returns h
    refine hcome fuel ?_ trivial
    simp only [serveCase, allocProc, panicIf_eq, hx]
    exact ⟨_, rfl⟩

/-! ### Answers -/

/-- SysTask gets to its next `recv_msg`, has sent one message by then, to the sender, and none to
itself. -/
def AnsweredOnce (b : Build) (env : CoreEnv) (msg : Message) : Prop :=
  ∃ fuel r, serve b fuel env msg = some r ∧ (∃ m, r.sent = [m] ∧ m.receiver = msg.sender) ∧
    ∀ m ∈ r.sent, m.receiver ≠ systaskPid

/-- The condition: the request is not `UNREG_PROC`, `QUERY_ENV` has a key that there is a case for, and
nothing happens out of bounds. -/
structure Answerable (env : CoreEnv) (msg : Message) (req : Request) : Prop where
  unreg : req ≠ .unregProc
  key : req = .queryEnv → msg.major ∈ envKeys
  bounds : InBounds env msg req

/-- One answer, to the sender. -/
def Answers (msg : Message) (r : Served) : Prop := ∃ m, r.sent = [m] ∧ m.receiver = msg.sender

theorem answers_answer {m : Message} (hm : m.sender = msg.sender) : Answers msg (answer env m) :=
  ⟨sendBack m, rfl, hm⟩

/-- Every case but two ends with one `SEND_BACK`. -/
theorem serveCase_answers (hunreg : req ≠ .unregProc) (hexit : req ≠ .exitProc)
    (hkey : req = .queryEnv → msg.major ∈ envKeys) (hr : serveCase b fuel env msg req = some r) :
    Answers msg r := by
  cases req with
  | unregProc => exact absurd rfl hunreg
  | exitProc => exact absurd rfl hexit
  | getTicks =>
    obtain rfl := Option.some.inj hr
    exact answers_answer rfl
  | peekMsg =>
    obtain rfl := Option.some.inj hr
    exact answers_answer rfl
  | regProc =>
    obtain ⟨x, -, rfl⟩ := Option.map_eq_some_iff.mp hr
    exact answers_answer rfl
  | queryProc =>
    obtain ⟨x, -, rfl⟩ := Option.map_eq_some_iff.mp hr
    exact answers_answer rfl
  | regIntFunc =>
    obtain ⟨-, rfl⟩ := tableHandler_some hr
    exact answers_answer rfl
  | unregIntFunc =>
    obtain ⟨-, rfl⟩ := tableHandler_some hr
    exact answers_answer rfl
  | regIntMsg =>
    obtain ⟨-, rfl⟩ := tableHandler_some hr
    exact answers_answer rfl
  | unregIntMsg =>
    obtain ⟨-, rfl⟩ := tableHandler_some hr
    exact answers_answer rfl
  | regExcMsg =>
    obtain ⟨-, rfl⟩ := tableHandler_some hr
    exact answers_answer rfl
  | unregExcMsg =>
    obtain ⟨-, rfl⟩ := tableHandler_some hr
    exact answers_answer rfl
  | getProc =>
    obtain ⟨x, -, rfl⟩ := Option.map_eq_some_iff.mp hr
    exact answers_answer rfl
  | getProcListHead =>
    obtain ⟨x, -, rfl⟩ := Option.map_eq_some_iff.mp hr
    exact answers_answer rfl
  | procVir2phy =>
    obtain ⟨x, -, rfl⟩ := Option.map_eq_some_iff.mp hr
    exact answers_answer rfl
  | switchPrivRing1 =>
    obtain ⟨x, -, rfl⟩ := Option.map_eq_some_iff.mp hr
    exact answers_answer rfl
  | switchPrivRing3 =>
    obtain ⟨x, -, rfl⟩ := Option.map_eq_some_iff.mp hr
    exact answers_answer rfl
  | allocProc =>
    simp only [serveCase, allocProc, panicIf_eq, Option.bind_some] at hr
    obtain ⟨x, -, rfl⟩ := Option.map_eq_some_iff.mp hr
    exact answers_answer rfl
  | queryEnv =>
    have hq : queryEnv b env msg = some r := hr
    rw [queryEnv_eq, if_pos (hkey rfl), answerStored_eq] at hq
    split at hq
    · obtain rfl := Option.some.inj hq
      exact answers_answer rfl
    · split at hq
      · obtain rfl := Option.some.inj hq
        exact ⟨_, rfl, rfl⟩
      · cases hq

/-- `UNREG_PROC` sends two messages, the second one to SysTask. -/
theorem unregProc_sends (hr : serveCase b fuel env msg .unregProc = some r) :
    ∃ m₁ m₂, r.sent = [m₁, m₂] ∧ m₁.receiver = msg.sender ∧ m₂.receiver = systaskPid := by
  obtain ⟨r', hr', rfl⟩ := Option.map_eq_some_iff.mp hr
  obtain ⟨pid, -, rfl⟩ := Option.map_eq_some_iff.mp hr'
  exact ⟨_, _, rfl, rfl, rfl⟩

/-- **One answer.**  A request that the client waits for an answer to is answered, once, just when it
is answerable. -/
theorem answeredOnce_iff (h : ListEnds env) (hsrc : msg.sender ≠ systaskPid)
    (hreq : caseOf msg.type = some req) (hexit : req ≠ .exitProc) (b : Build) :
    AnsweredOnce b env msg ↔ Answerable env msg req := by
  constructor
  · rintro ⟨fuel, r, hr, ⟨m, hsent, -⟩, -⟩
    rw [serve_eq hreq] at hr
    refine ⟨?_, ?_, (comes_iff h hexit).mp ⟨fuel, r, hr⟩⟩
    · rintro rfl
      obtain ⟨m₁, m₂, htwo, -⟩ := unregProc_sends hr
      rw [htwo] at hsent
      simp at hsent
    · rintro rfl
      by_contra hkey
      have hq : queryEnv b env msg = some r := hr
      rw [queryEnv_eq, if_neg hkey] at hq
      obtain rfl := Option.some.inj hq
      cases hsent
  · rintro ⟨hunreg, hkey, hbounds⟩
    obtain ⟨fuel, r, hr⟩ := (comes_iff (b := b) h hexit).mpr hbounds
    obtain ⟨m, hsent, hto⟩ := serveCase_answers hunreg hexit hkey hr
    refine ⟨fuel, r, (serve_eq hreq).trans hr, ⟨m, hsent, hto⟩, fun m' hm' => ?_⟩
    rw [hsent, List.mem_singleton] at hm'
    rw [hm', hto]
    exact hsrc

/-! ### The list ends in every state -/

theorem listEnds_allocProc {t : ProcTable} {a : ℕ} (h : ListEnds env)
    (hcall : ProcTable.allocProc fuel env.toProcTable = some (t, a)) :
    ∃ l, Chain t.kernel.next t.kernel.procList l := by
  rcases ProcTable.allocProc_inv hcall with ⟨-, rfl, -⟩ | ⟨c, k₁, -, -, -, -, happend, rfl⟩
  · exact h
  · obtain ⟨l, hc⟩ := h
    have hclear := listEnds_clear (c := c)
      (f := fun _ => { (default : Process) with status := procStatusStop }) hc rfl
    set k := env.kernel.modProc c fun _ => { (default : Process) with status := procStatusStop }
    obtain ⟨l', hc'⟩ := hclear
    rw [ProcTable.next_modProc]
    unfold Kernel.appendProc at happend
    split at happend
    · rename_i p hp
      obtain ⟨f, hf, rfl⟩ := Option.map_eq_some_iff.mp happend
      rw [hp] at hc'
      obtain ⟨l'', rfl⟩ := hc'.walkToLast_eq hf
      have hnext : (k.setNext f (some c)).next = Function.update k.next f (some c) :=
        ProcTable.next_modProc
      have hlist : (k.setNext f (some c)).procList = some p := hp
      obtain ⟨l₁, hl₁⟩ := hc'.snoc_ends c
      refine ⟨l₁, ?_⟩
      rw [hnext]
      show Chain _ (k.setNext f (some c)).procList l₁
      rw [hlist]
      exact hl₁
    · obtain rfl := Option.some.inj happend
      refine ⟨[c], Chain.cons ?_⟩
      rw [Function.update_self]
      exact Chain.nil

theorem exitProc_eq_some (hcall : exitProc fuel env p = some env') : p < env.procMax ∧
    ∃ t, ProcTable.exitProc fuel env.toProcTable p = some t ∧ env' =
      { env with
        toProcTable := { t with procCount := (env.procCount + (2 ^ 32 - 1)) % 2 ^ 32 }
        interruptMethods := dropMethods env.interruptMethods p } := by
  by_cases hin : p < env.procMax
  · simp only [exitProc, access, if_pos hin, Option.bind_some] at hcall
    obtain ⟨t, ht, rfl⟩ := Option.map_eq_some_iff.mp hcall
    exact ⟨hin, t, ht, rfl⟩
  · simp only [exitProc, access, if_neg hin, Option.bind_none] at hcall
    cases hcall

theorem listEnds_exitProc (h : ListEnds env) (hcall : exitProc fuel env p = some env') :
    ListEnds env' := by
  obtain ⟨-, t, ht, rfl⟩ := exitProc_eq_some hcall
  obtain ⟨k, hk, rfl⟩ := Option.map_eq_some_iff.mp ht
  obtain ⟨l, hc⟩ := h
  show ∃ l, Chain (k.modProc p fun _ => default).next k.procList l
  rw [ProcTable.next_modProc]
  have hlist : (ProcTable.unsuscribe env.kernel p).procList = env.kernel.procList := rfl
  have hnext : (ProcTable.unsuscribe env.kernel p).next = env.kernel.next := rfl
  rw [hlist] at hk
  cases hhead : env.kernel.procList with
  | none =>
    simp only [hhead] at hk
    obtain rfl := Option.some.inj hk
    rw [hlist, hnext]
    exact hc.cut p
  | some a =>
    simp only [hhead] at hk
    split at hk
    · obtain rfl := Option.some.inj hk
      rw [hlist, hnext]
      exact hc.cut p
    · rw [hnext] at hk
      rw [hhead] at hc
      obtain ⟨l₀, rfl, -⟩ := chain_some_iff.mp hc
      cases hs : searchAfter env.kernel.next p fuel a with
      | missing =>
        rw [hs] at hk
        obtain rfl := Option.some.inj hk
        rw [hlist, hnext, hhead]
        exact hc.cut p
      | spinning =>
        rw [hs] at hk
        cases hk
      | found ff =>
        rw [hs] at hk
        obtain rfl := Option.some.inj hk
        have hmem := hc.mem_of_searchAfter hs
        obtain ⟨ff', l₁, l₂, hfound, hsplit⟩ := hc.searchAfter_of_mem hmem (by rw [hs]; simp)
        rw [hs] at hfound
        obtain rfl := Search.found.inj hfound
        have hset : ((ProcTable.unsuscribe env.kernel p).setNext ff (env.kernel.next p)).next =
            Function.update env.kernel.next ff (env.kernel.next p) := ProcTable.next_modProc
        have hnd := hc.nodup
        rw [hsplit] at hc hnd
        refine ⟨l₁ ++ ff :: l₂, ?_⟩
        rw [hset]
        show Chain _ env.kernel.procList _
        rw [hhead]
        exact hc.unlink hnd

/-- What becomes of `core_env`. -/
inductive Effect (fuel : ℕ) (env : CoreEnv) (msg : Message) : Request → CoreEnv → Prop
  | kept {req : Request} (hreq : req ∈ [.getTicks, .regProc, .queryProc, .peekMsg, .queryEnv, .getProc,
      .getProcListHead, .procVir2phy]) : Effect fuel env msg req env
  | regProc (hfree : ¬ NameTaken env msg.sender (nameIn env msg))
      (hlen : (nameIn env msg).length < nameSize) :
      Effect fuel env msg .regProc (setName env msg.sender (nameIn env msg))
  | unregProc : Effect fuel env msg .unregProc (unregProc env msg.sender)
  | regIntFunc (hirq : msg.major < hwIrqCount) :
      Effect fuel env msg .regIntFunc (setInterruptMethod env msg.major
        { avail := true, pid := msg.sender, func := env.kernel.msgAddr msg.sender msg.data.d1,
          data := env.kernel.msgAddr msg.sender msg.data.d2 })
  | unregIntFunc (hirq : msg.major < hwIrqCount) :
      Effect fuel env msg .unregIntFunc (setInterruptMethod env msg.major
        { avail := false, pid := 0, func := 0, data := 0 })
  | regIntMsg (hirq : msg.major < hwIrqCount) :
      Effect fuel env msg .regIntMsg (setInterruptSuscribed env msg.major msg.sender)
  | unregIntMsg (hirq : msg.major < hwIrqCount) :
      Effect fuel env msg .unregIntMsg (setInterruptSuscribed env msg.major 0)
  | regExcMsg (hexc : msg.major < exceptionCount) :
      Effect fuel env msg .regExcMsg (setExceptionSuscribed env msg.major msg.sender)
  | unregExcMsg (hexc : msg.major < exceptionCount) :
      Effect fuel env msg .unregExcMsg (setExceptionSuscribed env msg.major 0)
  | switchPrivRing3 :
      Effect fuel env msg .switchPrivRing3 (setCs env msg.sender ProcTable.selCodeDpl3)
  | switchPrivRing1 :
      Effect fuel env msg .switchPrivRing1 (setCs env msg.sender ProcTable.selCodeDpl1)
  | allocProc {t : ProcTable} {a : ℕ} (hcall : ProcTable.allocProc fuel env.toProcTable = some (t, a)) :
      Effect fuel env msg .allocProc { env with toProcTable := t }
  | exitProc {env' : CoreEnv} (hcall : exitProc fuel env msg.major = some env') :
      Effect fuel env msg .exitProc env'

theorem queryProcCase_env (hr : queryProcCase fuel env msg = some r) : r.env = env := by
  obtain ⟨pid, -, rfl⟩ := Option.map_eq_some_iff.mp hr
  rfl

theorem queryEnv_env (hr : queryEnv b env msg = some r) : r.env = env := by
  rw [queryEnv_eq, answerStored_eq] at hr
  split at hr
  · split at hr
    · obtain rfl := Option.some.inj hr
      rfl
    · split at hr
      · obtain rfl := Option.some.inj hr
        rfl
      · cases hr
  · obtain rfl := Option.some.inj hr
    rfl

/-- **Inversion of a request.** -/
theorem serveCase_effect (hr : serveCase b fuel env msg req = some r) :
    Effect fuel env msg req r.env := by
  cases req with
  | getTicks =>
    obtain rfl := Option.some.inj hr
    exact .kept (by simp)
  | peekMsg =>
    obtain rfl := Option.some.inj hr
    exact .kept (by simp)
  | regProc =>
    obtain ⟨x, hx, rfl⟩ := Option.map_eq_some_iff.mp hr
    rw [regProc] at hx
    split at hx
    · obtain rfl := Option.some.inj hx
      exact .kept (by simp)
    · rename_i hfree
      split at hx
      · rename_i hlen
        obtain rfl := Option.some.inj hx
        exact .regProc hfree hlen
      · cases hx
  | unregProc =>
    obtain ⟨r', hr', rfl⟩ := Option.map_eq_some_iff.mp hr
    show Effect fuel env msg .unregProc r'.env
    rw [queryProcCase_env hr']
    exact .unregProc
  | queryProc =>
    rw [queryProcCase_env hr]
    exact .kept (by simp)
  | regIntFunc =>
    obtain ⟨hirq, rfl⟩ := tableHandler_some hr
    exact .regIntFunc hirq
  | unregIntFunc =>
    obtain ⟨hirq, rfl⟩ := tableHandler_some hr
    exact .unregIntFunc hirq
  | regIntMsg =>
    obtain ⟨hirq, rfl⟩ := tableHandler_some hr
    exact .regIntMsg hirq
  | unregIntMsg =>
    obtain ⟨hirq, rfl⟩ := tableHandler_some hr
    exact .unregIntMsg hirq
  | regExcMsg =>
    obtain ⟨hexc, rfl⟩ := tableHandler_some hr
    exact .regExcMsg hexc
  | unregExcMsg =>
    obtain ⟨hexc, rfl⟩ := tableHandler_some hr
    exact .unregExcMsg hexc
  | getProc =>
    obtain ⟨x, -, rfl⟩ := Option.map_eq_some_iff.mp hr
    exact .kept (by simp)
  | getProcListHead =>
    obtain ⟨x, -, rfl⟩ := Option.map_eq_some_iff.mp hr
    exact .kept (by simp)
  | procVir2phy =>
    obtain ⟨x, -, rfl⟩ := Option.map_eq_some_iff.mp hr
    exact .kept (by simp)
  | switchPrivRing1 =>
    obtain ⟨x, -, rfl⟩ := Option.map_eq_some_iff.mp hr
    exact .switchPrivRing1
  | switchPrivRing3 =>
    obtain ⟨x, -, rfl⟩ := Option.map_eq_some_iff.mp hr
    exact .switchPrivRing3
  | exitProc =>
    obtain ⟨env', hcall, rfl⟩ := Option.map_eq_some_iff.mp hr
    exact .exitProc hcall
  | allocProc =>
    simp only [serveCase, allocProc, panicIf_eq, Option.bind_some] at hr
    obtain ⟨x, hx, rfl⟩ := Option.map_eq_some_iff.mp hr
    exact .allocProc hx
  | queryEnv =>
    rw [queryEnv_env hr]
    exact .kept (by simp)

theorem Effect.listEnds (he : Effect fuel env msg req env') (h : ListEnds env) : ListEnds env' := by
  have hcs : ∀ cs, ListEnds (setCs env msg.sender cs) := by
    intro cs
    apply h.of_eq
    · exact Kernel.procTable_modProc_of_eq
        (f := fun pr => { pr with stack := { pr.stack with cs := cs } }) Process.next rfl
    · rfl
  cases he with
  | kept _ => exact h
  | regProc _ _ => exact h.setName
  | unregProc => exact h.setName
  | regIntFunc _ => exact h.of_eq rfl rfl
  | unregIntFunc _ => exact h.of_eq rfl rfl
  | regIntMsg _ => exact h.of_eq rfl rfl
  | unregIntMsg _ => exact h.of_eq rfl rfl
  | regExcMsg _ => exact h.of_eq rfl rfl
  | unregExcMsg _ => exact h.of_eq rfl rfl
  | switchPrivRing3 => exact hcs _
  | switchPrivRing1 => exact hcs _
  | allocProc hcall => exact listEnds_allocProc h hcall
  | exitProc hcall => exact listEnds_exitProc h hcall

/-- SysTask has served a message. -/
def ServeStep (b : Build) (env : CoreEnv) (msg : Message) (env' : CoreEnv) : Prop :=
  ∃ fuel r, serve b fuel env msg = some r ∧ r.env = env'

theorem ServeStep.effect (hstep : ServeStep b env msg env') :
    env' = env ∨ ∃ fuel req, caseOf msg.type = some req ∧ Effect fuel env msg req env' := by
  obtain ⟨fuel, r, hr, rfl⟩ := hstep
  cases hreq : caseOf msg.type with
  | none =>
    rw [serve, hreq] at hr
    obtain rfl := Option.some.inj hr
    exact Or.inl rfl
  | some req =>
    rw [serve_eq hreq] at hr
    exact Or.inr ⟨fuel, req, rfl, serveCase_effect hr⟩

/-- **The process list ends in every state** that SysTask gets to after the boot. -/
theorem listEnds_of_run {words bootFuel : ℕ} {k : Kernel} {pstack : Pid → VAddr} {entry : ℕ → VAddr}
    {pageDir : Pid → PageDir} {progInfo : ProgInfo} {tr : List (Transition CoreEnv Message)}
    (hboot : ProcTable.booted bootFuel k (words + 1) pstack entry pageDir progInfo =
      some env.toProcTable)
    (hrun : Run (ServeStep b) env tr env') : ListEnds env' := by
  have hkeep : ∀ env msg env', ListEnds env → ServeStep b env msg env' → ListEnds env' := by
    intro env msg env' h hstep
    rcases hstep.effect with rfl | ⟨fuel, req, -, he⟩
    · exact h
    · exact he.listEnds h
  exact hrun.invariant ⟨_, (ProcTable.booted_exact hboot).chain⟩ hkeep

/-! ### A client -/

/-- After the boot, with no subscriptions. -/
def demoEnv : CoreEnv where
  toProcTable := ProcTable.demoTable
  interruptMethods _ := default
  beats := 17
  memLower := 640
  memUpper := 0x1F000
  memoryZoneCount := 6
  memoryEnd := 0x2000000
  coreVend := 0x80180000
  procMax := 80000
  behindMsg := [0]
  system a := 0x100000 ≤ a ∧ a < 0x1000000

theorem demoEnv_listEnds : ListEnds demoEnv :=
  ⟨_, (ProcTable.booted_exact ProcTable.demoTable_booted).chain⟩

/-- A request of process `src`. -/
def demoRequest (src : Pid) (req : Request) (major : ℕ) : Message :=
  { sender := src, receiver := systaskPid, ready := false, type := req.code, major := major,
    data := ⟨0, 0, 0, 0⟩ }

theorem caseOf_demoRequest (src : Pid) (req : Request) (major : ℕ) :
    caseOf (demoRequest src req major).type = some req := by
  cases req <;> rfl

theorem answeredOnce_iff_demo : AnsweredOnce .configured demoEnv (demoRequest 5 .getTicks 0) :=
  (answeredOnce_iff demoEnv_listEnds (by decide) (caseOf_demoRequest 5 .getTicks 0) (by decide)
    .configured).mpr ⟨by decide, by decide, trivial⟩

/-- `UNREG_PROC` is answered with two messages, and the second one makes SysTask wait for itself. -/
theorem unregProc_answers_itself : ¬ AnsweredOnce .configured demoEnv (demoRequest 5 .unregProc 0) := by
  rintro ⟨fuel, r, hr, -, hself⟩
  rw [serve_eq (caseOf_demoRequest 5 .unregProc 0)] at hr
  obtain ⟨m₁, m₂, hsent, -, hto⟩ := unregProc_sends hr
  apply hself m₂
  · rw [hsent]
    simp
  · exact hto

end OmochaOS.Systask
