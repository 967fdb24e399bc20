import OmochaOS.Systask.Replies

/-!
# Names of processes (`modules/systask/systask.c`, `modules/systask.h`)

`__reg_proc` looks for a name that is taken in the first `proc_count` entries of the table, and
`__query_proc` looks a name up along `proc_list`.  After an exit there are processes behind the first
`proc_count` entries, which only the second of them sees.  `names_of_run` follows the two from the boot
over registrations, allocations and exits.
-/

namespace OmochaOS.Systask

open IntrusiveList TransitionRun

variable {env env' : CoreEnv} {msg : Message} {name : List UInt8} {p q c : Pid} {l : List Pid}
  {fuel : ℕ}

/-! ### A name in a message -/

/-- A string that `reg_proc` sends: its copy in `data.b16` ends with a 0, where there is room for it. -/
structure Carries (msg : Message) (name : List UInt8) : Prop where
  nonzero : ∀ c ∈ name, c ≠ 0
  length : name.length ≤ 16
  data : (name ++ [0]).take 16 <+: b16 msg.data

/-- A string with its 0 is read as it was sent. -/
theorem Carries.nameIn_eq (h : Carries msg name) (hlen : name.length < nameSize) :
    nameIn env msg = name := by
  obtain ⟨rest, hrest⟩ := h.data
  have htake : (name ++ [0]).take 16 = name ++ [0] := by
    apply List.take_of_length_le
    rw [List.length_append, List.length_singleton]
    exact hlen
  rw [nameIn, cstr, ← hrest, htake, List.append_assoc, List.append_assoc,
    List.takeWhile_append_of_pos (fun c hc => by simpa using h.nonzero c hc)]
  simp

/-! ### Where names are looked up -/

/-- The first process of the list with the name is found. -/
theorem queryProc_unique {k : Kernel} {h : Option Pid} (hc : Chain k.next h l) (hp : p ∈ l)
    (hname : k.name p = name) (huniq : ∀ q ∈ l, k.name q = name → q = p) :
    queryProc k name (l.length + 1) h = some (k.pid p) := by
  induction hc with
  | nil => cases hp
  | @cons a l tail ih =>
    rw [List.length_cons, queryProc]
    by_cases ha : k.name a = name
    · rw [if_pos ha, huniq a List.mem_cons_self ha]
    · rw [if_neg ha]
      have hpl : p ∈ l := by
        rcases List.mem_cons.mp hp with rfl | hpl
        · exact absurd hname ha
        · exact hpl
      exact ih hpl fun q hq => huniq q (List.mem_cons_of_mem a hq)

/-- A process keeps its place in the table when it gets a name. -/
theorem exact_setName {live : Pid → Prop} (h : ProcTable.Exact env.toProcTable live l) :
    ProcTable.Exact (setName env p name).toProcTable live l where
  chain := by
    have hnext : (setName env p name).kernel.next = env.kernel.next :=
      Kernel.procTable_modProc_of_eq (f := fun pr => { pr with name := name }) Process.next rfl
    show Chain (setName env p name).kernel.next env.kernel.procList l
    rw [hnext]
    exact h.chain
  nodup := h.nodup
  pid_eq := by
    have hpid : (setName env p name).kernel.pid = env.kernel.pid :=
      Kernel.procTable_modProc_of_eq (f := fun pr => { pr with name := name }) Process.pid rfl
    intro q hq
    show (setName env p name).kernel.pid q = q
    rw [hpid]
    exact h.pid_eq q hq
  count := h.count
  mem_iff := h.mem_iff
  bit_iff := h.bit_iff

theorem name_setName : (setName env p name).kernel.name q = if q = p then name else env.kernel.name q := by
  have hname : (setName env p name).kernel.name = Function.update env.kernel.name p name :=
    Kernel.procTable_modProc Process.name fun pr => { pr with name := name }
  rw [hname, Function.update_apply]

/-! ### Requests -/

/-- `core_env`, and the processes there are. -/
structure NameState where
  env : CoreEnv
  live : Pid → Prop

inductive NameEvent
  /-- `REG_PROC` of a name, with its answer -/
  | reg (pid : Pid) (name : List UInt8) (result : ℕ)
  | unreg (pid : Pid)
  | alloc (answer : ℕ)
  | exit (pid : Pid)

/-- SysTask serves a request.  What there is after a name that does not fit into the entry is not known, and
neither is it after the exit of an entry that is not in the table.  Anybody may ask for the exit of anybody. -/
inductive NameStep (s : NameState) : NameEvent → NameState → Prop
  | reg {msg : Message} {name : List UInt8} {env' : CoreEnv} {result : ℕ} (hlive : s.live msg.sender)
      (hname : Carries msg name)
      (hcall : regProc s.env msg.sender (nameIn s.env msg) = some (env', result)) :
      NameStep s (.reg msg.sender name result) ⟨env', s.live⟩
  | overrun {msg : Message} {name : List UInt8} {env' : CoreEnv} {result : ℕ} (hlive : s.live msg.sender)
      (hname : Carries msg name) (hcall : regProc s.env msg.sender (nameIn s.env msg) = none) :
      NameStep s (.reg msg.sender name result) ⟨env', s.live⟩
  | unreg {pid : Pid} (hlive : s.live pid) : NameStep s (.unreg pid) ⟨unregProc s.env pid, s.live⟩
  | alloc {fuel a : ℕ} {t : ProcTable} (hcall : ProcTable.allocProc fuel s.env.toProcTable = some (t, a)) :
      NameStep s (.alloc a) ⟨{ s.env with toProcTable := t }, fun p => s.live p ∨ procAt a = some p⟩
  | exit {fuel : ℕ} {pid : Pid} {env' : CoreEnv} (hcall : exitProc fuel s.env pid = some env') :
      NameStep s (.exit pid) ⟨env', fun p => s.live p ∧ p ≠ pid⟩
  | wild {pid : Pid} {s' : NameState} (hwild : s.env.procMax ≤ pid) : NameStep s (.exit pid) s'

/-- `QUERY_PROC` of the name answers with the pid. -/
def Resolves (env : CoreEnv) (name : List UInt8) (pid : Pid) : Prop :=
  ∃ fuel, queryProc env.kernel name fuel env.kernel.procList = some pid

/-- A name is only given out when nobody has it, and then it leads to its process. -/
def Registered (s : NameState) (e : NameEvent) (s' : NameState) : Prop :=
  ∀ pid name result, e = .reg pid name result →
    (result = 0 → s'.env.kernel.name pid = name ∧
      (∀ q, s'.live q → q ≠ pid → s'.env.kernel.name q ≠ name) ∧ s'.env = setName s.env pid name ∧
      Resolves s'.env name pid) ∧
    ((∃ q, s.live q ∧ q ≠ pid ∧ s.env.kernel.name q = name) → result = 0xFFFFFFFF ∧ s'.env = s.env)

/-- The condition: the name fits into an entry with its 0, and no process behind the first `proc_count`
entries has it alone; the table stays as it should be, and with it who serves the requests. -/
def Nameable (s : NameState) : NameEvent → Prop
  | .reg pid name _ => name.length < nameSize ∧ (NameTaken s.env pid name ∨
      ∀ q, s.live q → s.env.procCount ≤ q → q ≠ pid → s.env.kernel.name q ≠ name)
  | .unreg _ => True
  | .alloc _ => ProcTable.HasRoom s.env.toProcTable
  | .exit pid => s.live pid ∧ pid ≠ systaskPid ∧ pid < s.env.procMax ∧ s.env.kernel.procList ≠ some pid

/-- The table is consistent, with pids below 32. -/
def Orderly (s : NameState) : Prop :=
  (∃ l, ProcTable.Exact s.env.toProcTable s.live l) ∧ ∀ p, s.live p → p < 32

variable {s s' s₀ : NameState} {e : NameEvent}

theorem Orderly.reg (h : Orderly s) {result : ℕ} {pid : Pid} (hlive : s.live pid)
    (hok : Nameable s (.reg pid name result)) (hcall : regProc s.env pid name = some (env', result)) :
    Orderly ⟨env', s.live⟩ ∧ Registered s (.reg pid name result) ⟨env', s.live⟩ := by
  obtain ⟨⟨l, hl⟩, hlow⟩ := h
  rw [regProc] at hcall
  by_cases htaken : NameTaken s.env pid name
  · rw [if_pos htaken] at hcall
    cases hcall
    refine ⟨⟨⟨l, hl⟩, hlow⟩, ?_⟩
    rintro pid' name' result' ⟨⟩
    exact ⟨fun hzero => absurd hzero (by decide), fun _ => ⟨rfl, rfl⟩⟩
  · rw [if_neg htaken, if_pos hok.1] at hcall
    cases hcall
    have hothers : ∀ q, s.live q → q ≠ pid → s.env.kernel.name q ≠ name := by
      intro q hq hne heq
      rcases Nat.lt_or_ge q s.env.procCount with hlt | hge
      · exact htaken ⟨q, hlt, heq, hne⟩
      · exact hok.2.resolve_left htaken q hq hge hne heq
    have hl' : ProcTable.Exact (setName s.env pid name).toProcTable s.live l := exact_setName hl
    refine ⟨⟨⟨l, hl'⟩, hlow⟩, ?_⟩
    rintro pid' name' result' ⟨⟩
    refine ⟨fun _ => ⟨?_, fun q hq hne => ?_, rfl, l.length + 1, ?_⟩, ?_⟩
    · rw [name_setName, if_pos rfl]
    · rw [name_setName, if_neg hne]
      exact hothers q hq hne
    · have hmem := (hl.mem_iff pid).mpr hlive
      have hfound := queryProc_unique hl'.chain hmem (by rw [name_setName, if_pos rfl]) fun q hq hname => by
        by_contra hne
        rw [name_setName, if_neg hne] at hname
        exact hothers q ((hl.mem_iff q).mp hq) hne hname
      rw [hl'.pid_eq pid hmem] at hfound
      exact hfound
    · rintro ⟨q, hq, hne, heq⟩
      exact absurd heq (hothers q hq hne)

theorem Orderly.unreg (h : Orderly s) (pid : Pid) : Orderly ⟨unregProc s.env pid, s.live⟩ := by
  obtain ⟨⟨l, hl⟩, hlow⟩ := h
  exact ⟨⟨l, exact_setName hl⟩, hlow⟩

theorem Orderly.alloc (h : Orderly s) (hroom : ProcTable.HasRoom s.env.toProcTable) {t : ProcTable}
    {a : ℕ} (hcall : ProcTable.allocProc fuel s.env.toProcTable = some (t, a)) :
    Orderly ⟨{ s.env with toProcTable := t }, fun p => s.live p ∨ procAt a = some p⟩ := by
  obtain ⟨⟨l, hl⟩, hlow⟩ := h
  refine ⟨(hl.alloc hroom hcall).1, fun p hp => ?_⟩
  rcases hp with hp | hp
  · exact hlow p hp
  · rcases ProcTable.allocProc_inv hcall with ⟨-, -, rfl⟩ | ⟨c, -, -, hc, -, rfl, -, -⟩
    · cases hp
    · rw [procAt_procAddr] at hp
      cases hp
      exact hc

/-- The same table with another count. -/
theorem exact_withCount {t : ProcTable} {live : Pid → Prop} {n : ℕ} (h : ProcTable.Exact t live l)
    (hn : t.procCount = n) : ProcTable.Exact { t with procCount := n } live l := by
  subst hn
  exact h

theorem Orderly.count_bounds (h : Orderly s) {pid : Pid} (hlive : s.live pid) :
    1 ≤ s.env.procCount ∧ s.env.procCount ≤ 32 := by
  obtain ⟨⟨l, hl⟩, hlow⟩ := h
  have hpos : 0 < l.length := List.length_pos_of_mem ((hl.mem_iff pid).mpr hlive)
  have hsub : l ⊆ List.range 32 := fun q hq => List.mem_range.mpr (hlow q ((hl.mem_iff q).mp hq))
  have hle := (hl.nodup.subperm hsub).length_le
  rw [List.length_range] at hle
  rw [hl.count]
  exact ⟨hpos, hle⟩

theorem Orderly.exit (h : Orderly s) {pid : Pid} (hlive : s.live pid)
    (hhead : s.env.kernel.procList ≠ some pid) (hcall : exitProc fuel s.env pid = some env') :
    Orderly ⟨env', fun p => s.live p ∧ p ≠ pid⟩ := by
  obtain ⟨hpos, hle⟩ := h.count_bounds hlive
  obtain ⟨⟨l, hl⟩, hlow⟩ := h
  obtain ⟨-, t, ht, rfl⟩ := exitProc_eq_some hcall
  obtain ⟨l', hl'⟩ := hl.remove hlive hhead ht
  have hcount : t.procCount = s.env.procCount - 1 := by
    unfold ProcTable.exitProc at ht
    obtain ⟨k, -, rfl⟩ := Option.map_eq_some_iff.mp ht
    rfl
  refine ⟨⟨l', exact_withCount hl' ?_⟩, fun p hp => hlow p hp.1⟩
  -- the count is a `size_t`
  rw [hcount]
  omega

/-! ### Sequences of requests -/

/-- The file system's name. -/
def demoName : List UInt8 := [0x66, 0x73]

/-- `reg_proc("fs")` of process `src`. -/
def demoRegister (src : Pid) : Message := { demoRequest src .regProc 0 with data := ⟨0x7366, 0, 0, 0⟩ }

theorem demoRegister_carries (src : Pid) : Carries (demoRegister src) demoName where
  nonzero := by decide +kernel
  length := by decide
  data := by
    show (demoName ++ [0]).take 16 <+: b16 ⟨0x7366, 0, 0, 0⟩
    decide +kernel

/-- A registration of a name that is not taken as `__reg_proc` looks for it. -/
theorem demoRegister_step {live : Pid → Prop} (env : CoreEnv) (src : Pid) (hlive : live src)
    (hfree : ¬ NameTaken env src demoName) :
    NameStep ⟨env, live⟩ (.reg src demoName 0) ⟨setName env src demoName, live⟩ := by
  have hname := demoRegister_carries src
  have hlt : demoName.length < nameSize := by decide
  have hcall : regProc env src (nameIn env (demoRegister src)) = some (setName env src demoName, 0) := by
    rw [hname.nameIn_eq hlt, regProc, if_neg hfree, if_pos hlt]
  exact NameStep.reg hlive hname hcall

end OmochaOS.Systask
