import OmochaOS.Kernel.Systask
import OmochaOS.Lib.TransitionRun

/-!
# The process table (`core/core.c`, `core/process.c`, `modules/systask/systask.c`)

Which processes there are is kept in three places: the bits of `proc_bitmap`, the list that starts at
`proc_list`, and `proc_count`.  `core_main` and `start_up_init` fill them, `ALLOC_PROC` adds a process
and `EXIT_PROC` takes one away.  `Consistent` says that the three agree; it is followed here from the
boot over every sequence of requests.

The bitmap has any number of words.  Of the entry of a process the fields that the rest of the
development reads are kept; the stack pages of the processes are not.
-/

namespace OmochaOS

open IntrusiveList TransitionRun BitFlags

/-- The part of `core_env` that says which processes there are. -/
structure ProcTable where
  kernel : Kernel
  procBitmap : List (BitVec 32)
  procCount : ℕ

namespace ProcTable

variable {t t' : ProcTable} {p q c : Pid} {l : List Pid} {fuel : ℕ}

/-! ### Boot -/

def selCodeDpl1 : ℕ := 33
def selCodeDpl3 : ℕ := 51

def procStackSize : ℕ := 8192

def kernBase : ℕ := 0x80000000

/-- `init_proc(pid, entry, page_dir)`, with `pstack` the page from `kalloc_pages`.  The panics about a
full bit set and a full table do nothing. -/
def initProc (fuel : ℕ) (t : ProcTable) (pid : Pid) (entry : VAddr) (pstack : VAddr)
    (pageDir : PageDir) : Option ProcTable :=
  let pid := if pid = procInterrupt ∨ pid = procAny ∨ checkBit t.procBitmap pid = true then
      findFirstUnsetBit t.procBitmap
    else pid
  let k := t.kernel.modProc pid fun proc =>
    { proc with
      pstack := pstack
      pstackSize := 4096
      stack := { proc.stack with cs := selCodeDpl1, eip := entry, esp := pstack + 4096 }
      pageDir := pageDir
      status := procStatusRunning ||| procStatusNormal
      pid := pid
      parentPid := if pid = 1 ∨ pid = 0 then 0 else 1 }
  (k.appendProc fuel pid).map fun k =>
    { kernel := k.setNext pid none
      procBitmap := setBit t.procBitmap pid
      procCount := t.procCount + 1 }

/-- The processes of the modules, in the order of `modules_preferred_pid`. -/
def initModules (fuel : ℕ) (pstack : Pid → VAddr) (entry : ℕ → VAddr) (pageDir : PageDir) :
    List (ℕ × Pid) → ProcTable → Option ProcTable
  | [], t => some t
  | (i, pid) :: rest, t =>
    (initProc fuel t pid (entry i) (pstack i) pageDir).bind
      (initModules fuel pstack entry pageDir rest)

/-- `__MODULES_PREFERRED_PID__`. -/
def modulesPreferredPid : List Pid :=
  [2, 0xFFFFFFFE, 0xFFFFFFFE, 0xFFFFFFFE, 0xFFFFFFFE, 0xFFFFFFFE, 0xFFFFFFFE]

/-- What `core_main` does to the table: the idle process, the bit of pid 1, then the modules that prefer
a pid and the modules that do not. -/
def coreMain (fuel : ℕ) (t : ProcTable) (pstack : Pid → VAddr) (entry : ℕ → VAddr)
    (pageDir : PageDir) : Option ProcTable :=
  (initProc fuel t 0 (entry 7) (pstack 7) pageDir).bind fun t =>
    let t := { t with procBitmap := setBit t.procBitmap 1 }
    let modules := modulesPreferredPid.mapIdx fun i pid => (i, pid)
    (initModules fuel pstack entry pageDir (modules.filter fun m => m.2 < 0xFFFF) t).bind
      (initModules fuel pstack entry pageDir (modules.filter fun m => 0xFFFF ≤ m.2))

/-- What `start_up_init` writes in the entry of pid 1 before it is linked. -/
def initEntry (pageDir : PageDir) (entry : VAddr) (progInfo : ProgInfo) (proc : Process) : Process :=
  { proc with
    status := procStatusStop
    stack := { proc.stack with cs := selCodeDpl3, esp := kernBase, eip := entry }
    pstack := kernBase - procStackSize
    pstackSize := procStackSize
    pageDir := pageDir
    name := "init".toUTF8.toList
    progInfo := some progInfo
    pid := 1
    parentPid := 0
    next := none }

/-- `start_up_init`, with the page directory, the entry point and the program it has loaded. -/
def startUpInit (fuel : ℕ) (t : ProcTable) (pageDir : PageDir) (entry : VAddr)
    (progInfo : ProgInfo) : Option ProcTable :=
  let k := t.kernel.modProc 1 (initEntry pageDir entry progInfo)
  (k.procList.bind fun p => (walkToLast k.next fuel p).map fun f => k.setNext f (some 1)).map fun k =>
    { t with
      kernel := k.setStatus 1 (procStatusRunning ||| procStatusNormal)
      procCount := t.procCount + 1 }

/-! ### Requests -/

/-- The `ALLOC_PROC` request: the table and the pointer answered. -/
def allocProc (fuel : ℕ) (t : ProcTable) : Option (ProcTable × ℕ) :=
  (Kernel.allocProc fuel t.kernel t.procBitmap).map fun (k, procBitmap, a) =>
    ({ kernel := k
       procBitmap := procBitmap
       procCount := if a = 0 then t.procCount else t.procCount + 1 }, a)

/-- The subscriptions of `pid` are dropped. -/
def unsuscribe (k : Kernel) (pid : Pid) : Kernel :=
  { k with interruptSuscribed := fun irq =>
      if irq < hwIrqCount ∧ k.interruptSuscribed irq = pid then 0 else k.interruptSuscribed irq }

/-- The `EXIT_PROC` request, of any entry of the table.  It does not come back from a list without an end. -/
def exitProc (fuel : ℕ) (t : ProcTable) (pid : Pid) : Option ProcTable :=
  let k := unsuscribe t.kernel pid
  let unlinked := match k.procList with
    | none => some k
    | some p =>
      -- `core_env.proc_list = target`
      if pid = p then some k
      else
        match searchAfter k.next pid fuel p with
        | .found ff => some (k.setNext ff (k.next pid))
        -- on no list: `ff` is null, and what is written through it goes to page 0
        | .missing => some k
        | .spinning => none
  unlinked.map fun k =>
    { kernel := k.modProc pid fun _ => default
      procBitmap := clearBit t.procBitmap pid
      procCount := t.procCount - 1 }

/-! ### Consistency -/

/-- The list of `t` is `l`, and its entries have the right pids and are counted. -/
structure Listed (t : ProcTable) (l : List Pid) : Prop where
  chain : Chain t.kernel.next t.kernel.procList l
  nodup : l.Nodup
  pid_eq : ∀ p ∈ l, t.kernel.pid p = p
  count : t.procCount = l.length

/-- The processes of the list are `live`, and the bitmap has their bits and no others. -/
structure Exact (t : ProcTable) (live : Pid → Prop) (l : List Pid) : Prop extends Listed t l where
  mem_iff : ∀ p, p ∈ l ↔ live p
  bit_iff : ∀ p, checkBit t.procBitmap p = true ↔ live p

variable {live : Pid → Prop} {k k' : Kernel}

theorem next_modProc {f : Process → Process} :
    (k.modProc p f).next = Function.update k.next p (f (k.procTable p)).next :=
  Kernel.procTable_modProc Process.next _

theorem entry_modProc_self {f : Process → Process} :
    (k.modProc p f).procTable p = f (k.procTable p) := by
  show Function.update k.procTable p (f (k.procTable p)) p = f (k.procTable p)
  rw [Function.update_self]

theorem entry_modProc_of_ne {f : Process → Process} (hq : q ≠ p) :
    (k.modProc p f).procTable q = k.procTable q := by
  show Function.update k.procTable p (f (k.procTable p)) q = k.procTable q
  rw [Function.update_of_ne hq]

theorem pid_modProc_of_ne {f : Process → Process} (hq : q ≠ p) :
    (k.modProc p f).pid q = k.pid q := by
  have h : (k.modProc p f).pid = Function.update k.pid p (f (k.procTable p)).pid :=
    Kernel.procTable_modProc Process.pid _
  rw [h, Function.update_of_ne hq]

/-- The append of `c` to the list, once its own link is cleared. -/
theorem chain_appendProc (hc : Chain k.next k.procList l) (hnd : l.Nodup) (hcl : c ∉ l)
    (h : k.appendProc fuel c = some k') :
    Chain (Function.update k'.next c none) k'.procList (l ++ [c]) := by
  unfold Kernel.appendProc at h
  split at h
  · rename_i p hp
    obtain ⟨f, hf, rfl⟩ := Option.map_eq_some_iff.mp h
    rw [hp] at hc
    obtain ⟨l', rfl⟩ := hc.walkToLast_eq hf
    have hnext : (k.setNext f (some c)).next = Function.update k.next f (some c) := next_modProc
    rw [hnext]
    show Chain _ k.procList _
    rw [hp]
    exact hc.snoc hnd hcl
  · rename_i hp
    obtain rfl := Option.some.inj h
    rw [hp] at hc
    obtain rfl := chain_none_iff.mp hc
    apply Chain.cons
    rw [Function.update_self]
    exact Chain.nil

/-- **A new entry.**  An entry that is not on the list is written, linked at the end and given its
pid, and the count goes up. -/
theorem Listed.add (h : Listed t l) (hcl : c ∉ l) {f g : Process → Process} {k₁ : Kernel}
    {bits : List (BitVec 32)} (happend : (t.kernel.modProc c f).appendProc fuel c = some k₁)
    (hnext : (g (k₁.procTable c)).next = none) (hpid : (g (k₁.procTable c)).pid = c) :
    Listed ⟨k₁.modProc c g, bits, t.procCount + 1⟩ (l ++ [c]) := by
  have hchain₀ : Chain (t.kernel.modProc c f).next (t.kernel.modProc c f).procList l := by
    rw [next_modProc]
    exact h.chain.update_of_notMem hcl
  have hfields := Kernel.appendProc_fields happend
  constructor
  case chain =>
    have hchain := chain_appendProc hchain₀ h.nodup hcl happend
    rw [next_modProc, hnext]
    exact hchain
  case nodup =>
    rw [List.nodup_append]
    refine ⟨h.nodup, List.nodup_singleton c, fun p hp q hq => ?_⟩
    rw [List.mem_singleton] at hq
    rintro rfl
    exact hcl (hq ▸ hp)
  case pid_eq =>
    intro p hp
    by_cases hpc : p = c
    · subst hpc
      show ((k₁.modProc p g).procTable p).pid = p
      rw [entry_modProc_self]
      exact hpid
    · have hpl : p ∈ l := by
        rcases List.mem_append.mp hp with hpl | hpc'
        · exact hpl
        · exact absurd (List.mem_singleton.mp hpc') hpc
      show (k₁.modProc c g).pid p = p
      rw [pid_modProc_of_ne hpc, hfields.1, pid_modProc_of_ne hpc]
      exact h.pid_eq p hpl
  case count =>
    rw [List.length_append, List.length_singleton, h.count]

/-- With its bit set, the new entry is a process. -/
theorem Exact.add (h : Exact t live l) (hcl : ¬ live c) (hc32 : c / 32 < t.procBitmap.length)
    {f g : Process → Process} {k₁ : Kernel}
    (happend : (t.kernel.modProc c f).appendProc fuel c = some k₁)
    (hnext : (g (k₁.procTable c)).next = none) (hpid : (g (k₁.procTable c)).pid = c) :
    Exact ⟨k₁.modProc c g, setBit t.procBitmap c, t.procCount + 1⟩ (fun p => live p ∨ p = c)
      (l ++ [c]) where
  toListed := h.toListed.add (fun hm => hcl ((h.mem_iff c).mp hm)) happend hnext hpid
  mem_iff p := by rw [List.mem_append, List.mem_singleton, h.mem_iff]
  bit_iff p := by
    rw [checkBit_setBit_of_lt hc32, Bool.or_eq_true, decide_eq_true_iff, h.bit_iff]
    exact or_comm

theorem Exact.congr_live {live' : Pid → Prop} (h : Exact t live l) (hlive : ∀ p, live' p ↔ live p) :
    Exact t live' l := by
  have heq : live' = live := funext fun p => propext (hlive p)
  rw [heq]
  exact h

/-! ### A process less -/

/-- **An entry is taken out.**  Behind its predecessor, a process leaves the list. -/
theorem Exact.remove (h : Exact t live l) (hp : live p) (hhead : t.kernel.procList ≠ some p)
    (hcall : exitProc fuel t p = some t') :
    ∃ l', Exact t' (fun q => live q ∧ q ≠ p) l' := by
  unfold exitProc at hcall
  obtain ⟨k₁, hk₁, rfl⟩ := Option.map_eq_some_iff.mp hcall
  have hmem := (h.mem_iff p).mpr hp
  have hlist : (unsuscribe t.kernel p).procList = t.kernel.procList := rfl
  have hnext : (unsuscribe t.kernel p).next = t.kernel.next := rfl
  rw [hlist] at hk₁
  cases hl : t.kernel.procList with
  | none =>
    have hchain := h.chain
    rw [hl] at hchain
    rw [chain_none_iff.mp hchain] at hmem
    exact absurd hmem List.not_mem_nil
  | some a =>
    rw [hl] at hk₁ hhead
    have hpa : p ≠ a := fun he => hhead (by rw [he])
    simp only [if_neg hpa, hnext] at hk₁
    have hchain := h.chain
    rw [hl] at hchain
    obtain ⟨l₀, rfl, -⟩ := chain_some_iff.mp hchain
    have hmem' : p ∈ l₀ := (List.mem_cons.mp hmem).resolve_left hpa
    have hne : searchAfter t.kernel.next p fuel a ≠ .spinning := by
      intro hs
      simp only [hs] at hk₁
      cases hk₁
    obtain ⟨ff, l₁, l₂, hfound, hsplit⟩ := hchain.searchAfter_of_mem hmem' hne
    simp only [hfound, Option.some.injEq] at hk₁
    subst hk₁
    have hperm : (a :: l₀).Perm (p :: (l₁ ++ ff :: l₂)) := by
      rw [hsplit]
      refine List.Perm.trans ?_ List.perm_middle
      exact List.Perm.append_left l₁ (List.Perm.swap p ff l₂)
    obtain ⟨hnot, hnd⟩ := List.nodup_cons.mp (hperm.nodup_iff.mp h.nodup)
    have hmem_iff : ∀ q, q ∈ l₁ ++ ff :: l₂ ↔ live q ∧ q ≠ p := by
      intro q
      rw [← h.mem_iff, hperm.mem_iff, List.mem_cons]
      constructor
      · intro hq
        exact ⟨Or.inr hq, fun he => hnot (he ▸ hq)⟩
      · rintro ⟨hq, hne⟩
        exact hq.resolve_left hne
    refine ⟨l₁ ++ ff :: l₂, ⟨?_, hnd, ?_, ?_⟩, hmem_iff, ?_⟩
    · have hnd₀ := h.nodup
      rw [hsplit] at hchain hnd₀
      have hset : ((unsuscribe t.kernel p).setNext ff (t.kernel.next p)).next =
          Function.update t.kernel.next ff (t.kernel.next p) := next_modProc
      show Chain _ t.kernel.procList _
      rw [hl, next_modProc, hset]
      exact hchain.unlink hnd₀
    · intro q hq
      have hset : ((unsuscribe t.kernel p).setNext ff (t.kernel.next p)).pid = t.kernel.pid :=
        Kernel.procTable_modProc_of_eq Process.pid rfl
      rw [pid_modProc_of_ne ((hmem_iff q).mp hq).2, hset]
      exact h.pid_eq q (hperm.mem_iff.mpr (List.mem_cons_of_mem p hq))
    · have hlen := hperm.length_eq
      have hcount := h.count
      show t.procCount - 1 = _
      rw [hcount, hlen, List.length_cons, Nat.add_sub_cancel]
    · intro q
      rw [checkBit_clearBit, Bool.and_eq_true, h.bit_iff]
      simp [and_comm]

/-! ### One request -/

/-- What `find_first_unset_bit` finds: nothing in a full bitmap, otherwise a place in a word. -/
theorem findFirstUnsetBit_cases (bits : List (BitVec 32)) :
    (findFirstUnsetBit bits = 0xFFFFFFFF ∧ ∀ word ∈ bits, word = 0xFFFFFFFF#32) ∨
      findFirstUnsetBit bits < 32 ∧ ∃ word ∈ bits, word ≠ 0xFFFFFFFF#32 := by
  induction bits with
  | nil => exact Or.inl ⟨rfl, nofun⟩
  | cons word rest ih =>
    by_cases hw : word = 0xFFFFFFFF#32
    · rw [findFirstUnsetBit, if_pos hw]
      rcases ih with ⟨hfind, hfull⟩ | ⟨hlt, w, hmem, hne⟩
      · exact Or.inl ⟨hfind, List.forall_mem_cons.mpr ⟨hw, hfull⟩⟩
      · exact Or.inr ⟨hlt, w, List.mem_cons_of_mem word hmem, hne⟩
    · rw [findFirstUnsetBit, if_neg hw]
      have hnot : ~~~word ≠ 0 := by
        intro h0
        apply hw
        have := congrArg (fun v => ~~~v) h0
        simpa using this
      exact Or.inr ⟨(bsf_spec hnot).1, word, List.mem_cons_self, hw⟩

/-- **Inversion of `ALLOC_PROC`.** -/
theorem allocProc_inv {a : ℕ} (hcall : allocProc fuel t = some (t', a)) :
    ((∀ word ∈ t.procBitmap, word = 0xFFFFFFFF#32) ∧ t' = t ∧ a = 0) ∨
      ∃ c k₁, c = findFirstUnsetBit t.procBitmap ∧ c < 32 ∧
        (∃ word ∈ t.procBitmap, word ≠ 0xFFFFFFFF#32) ∧ a = procAddr c ∧
        (t.kernel.modProc c fun _ => { (default : Process) with status := procStatusStop }).appendProc
          fuel c = some k₁ ∧
        t' = ⟨k₁.modProc c fun pr => { pr with next := none, parentPid := 1, pid := c },
          setBit t.procBitmap c, t.procCount + 1⟩ := by
  obtain ⟨⟨k', bits', a'⟩, hk, he⟩ := Option.map_eq_some_iff.mp hcall
  obtain ⟨rfl, rfl⟩ := Prod.mk.inj he
  unfold Kernel.allocProc at hk
  rcases findFirstUnsetBit_cases t.procBitmap with ⟨hfind, hfull⟩ | ⟨hlt, hroom⟩
  · rw [if_pos hfind] at hk
    obtain ⟨rfl, rfl, rfl⟩ : _ ∧ _ ∧ _ := by simpa using hk
    exact Or.inl ⟨hfull, by rw [if_pos rfl], rfl⟩
  · rw [if_neg (by omega)] at hk
    obtain ⟨k₁, hk₁, hk₂⟩ := Option.map_eq_some_iff.mp hk
    obtain ⟨rfl, rfl, rfl⟩ : _ ∧ _ ∧ _ := by simpa using hk₂
    refine Or.inr ⟨_, k₁, rfl, hlt, hroom, rfl, hk₁, ?_⟩
    rw [if_neg (show procAddr _ ≠ 0 from Nat.succ_ne_zero _)]

/-- The condition on `ALLOC_PROC`: there is room in the first word, or nowhere. -/
def HasRoom (t : ProcTable) : Prop :=
  (∃ i < 32, checkBit t.procBitmap i = false) ∨ ∀ word ∈ t.procBitmap, word = 0xFFFFFFFF#32

/-- With room in the first word, `ALLOC_PROC` answers with the entry of nobody. -/
theorem Exact.alloc (h : Exact t live l) (hroom : HasRoom t) {a : ℕ}
    (hcall : allocProc fuel t = some (t', a)) :
    (∃ l', Exact t' (fun p => live p ∨ procAt a = some p) l') ∧
      ∀ p, procAt a = some p → ¬ live p := by
  rcases allocProc_inv hcall with ⟨-, rfl, rfl⟩ | ⟨c, k₁, rfl, hlt, ⟨word, hword, hne⟩, rfl, hk₁, rfl⟩
  · exact ⟨⟨l, h.congr_live fun p => or_iff_left nofun⟩, nofun⟩
  · have hnil : t.procBitmap ≠ [] := List.ne_nil_of_mem hword
    have hfree : ∃ i < 32, checkBit t.procBitmap i = false :=
      hroom.resolve_right fun hfull => hne (hfull word hword)
    obtain ⟨i, hi, hbit⟩ := hfree
    obtain ⟨-, hunset⟩ := findFirstUnsetBit_spec hi hnil hbit
    have hdead : ¬ live (findFirstUnsetBit t.procBitmap) := by
      rw [← h.bit_iff, hunset]
      exact Bool.false_ne_true
    have hpos : 0 < t.procBitmap.length := List.length_pos_iff.mpr hnil
    have hdiv : findFirstUnsetBit t.procBitmap / 32 = 0 := Nat.div_eq_of_lt hlt
    have hadd := h.add (g := fun pr => { pr with
      next := none, parentPid := 1, pid := findFirstUnsetBit t.procBitmap }) hdead (hdiv ▸ hpos) hk₁ rfl rfl
    refine ⟨⟨_, hadd.congr_live fun p => ?_⟩, fun p hp => ?_⟩
    · rw [procAt_procAddr, Option.some.injEq]
      exact or_congr_right eq_comm
    · rw [procAt_procAddr, Option.some.injEq] at hp
      exact hp ▸ hdead

inductive Request where
  /-- `ALLOC_PROC`, with its answer -/
  | alloc (answer : ℕ)
  /-- `EXIT_PROC` of a process -/
  | exit (pid : Pid)

/-- The table and the processes there are. -/
structure State where
  table : ProcTable
  live : Pid → Prop

/-- SysTask serves one request. -/
inductive Step (s : State) : Request → State → Prop
  | alloc {fuel a : ℕ} {t' : ProcTable} (hcall : allocProc fuel s.table = some (t', a)) :
      Step s (.alloc a) ⟨t', fun p => s.live p ∨ procAt a = some p⟩
  | exit {fuel : ℕ} {pid : Pid} {t' : ProcTable} (hlive : s.live pid) (hsys : pid ≠ systaskPid)
      (hcall : exitProc fuel s.table pid = some t') :
      Step s (.exit pid) ⟨t', fun p => s.live p ∧ p ≠ pid⟩

/-- The condition: no allocation while the first 32 pids are taken and another one is not, and no exit
of the first process of the list. -/
def Fits (s : State) : Request → Prop
  | .alloc _ => HasRoom s.table
  | .exit pid => s.table.kernel.procList ≠ some pid

/-- `init_proc` of a pid that it picks. -/
theorem Listed.initProc {pid entry pstack : ℕ} {pageDir : PageDir} (h : Listed t l)
    (hcall : initProc fuel t pid entry pstack pageDir = some t')
    (hc : (if pid = procInterrupt ∨ pid = procAny ∨ checkBit t.procBitmap pid = true then
      findFirstUnsetBit t.procBitmap else pid) = c) (hcl : c ∉ l) :
    Listed t' (l ++ [c]) ∧ t'.procBitmap = setBit t.procBitmap c := by
  unfold ProcTable.initProc at hcall
  simp only [hc] at hcall
  obtain ⟨k₁, hk₁, rfl⟩ := Option.map_eq_some_iff.mp hcall
  have hfields := Kernel.appendProc_fields hk₁
  refine ⟨h.add hcl hk₁ rfl ?_, rfl⟩
  show k₁.pid c = c
  rw [hfields.1]
  show ((t.kernel.modProc c _).procTable c).pid = c
  rw [entry_modProc_self]

/-- `init_proc` without a preference, when the lowest bits of the first word are set. -/
theorem Listed.initProc_any {word : BitVec 32} {rest : List (BitVec 32)} {entry pstack : ℕ}
    {pageDir : PageDir} (h : Listed t l) (hbits : t.procBitmap = word :: rest)
    (hcall : ProcTable.initProc fuel t 0xFFFFFFFE entry pstack pageDir = some t')
    (hword : word ≠ 0xFFFFFFFF#32) (hcl : bsf (~~~word) ∉ l) (hlt : bsf (~~~word) < 32) :
    Listed t' (l ++ [bsf (~~~word)]) ∧
      t'.procBitmap = (word ||| 1#32 <<< bsf (~~~word)) :: rest := by
  have hc : findFirstUnsetBit t.procBitmap = bsf (~~~word) := by
    rw [hbits, findFirstUnsetBit, if_neg hword]
  obtain ⟨hl, hb⟩ := h.initProc hcall (if_pos (Or.inr (Or.inl rfl))) (by rw [hc]; exact hcl)
  rw [hc] at hl hb
  refine ⟨hl, ?_⟩
  rw [hb, hbits, setBit, Nat.div_eq_of_lt hlt, Nat.mod_eq_of_lt hlt]
  rfl

/-- The bits of a bitmap with nine processes. -/
theorem checkBit_low {words : ℕ} (p : ℕ) :
    checkBit (0x1FF#32 :: List.replicate words 0) p = true ↔ p < 9 := by
  have hword : ∀ q < 32, (0x1FF#32).getLsbD q = true ↔ q < 9 := by decide
  by_cases hp : p < 32
  · rw [checkBit, Nat.div_eq_of_lt hp, Nat.mod_eq_of_lt hp]
    exact hword p hp
  · have hdiv : p / 32 ≠ 0 := by omega
    obtain ⟨n, hn⟩ := Nat.exists_eq_succ_of_ne_zero hdiv
    have hzero : ((0x1FF#32 :: List.replicate words 0)[p / 32]?).getD 0 = 0#32 := by
      rw [hn, List.getElem?_cons_succ, List.getElem?_replicate]
      split <;> rfl
    have h9 : ¬ p < 9 := by omega
    rw [checkBit, hzero, BitVec.getLsbD_zero]
    exact iff_of_false Bool.false_ne_true h9

/-- The modules take the pids 2 to 8. -/
theorem coreMain_listed {words : ℕ} {pstack : Pid → VAddr} {entry : ℕ → VAddr} {pageDir : PageDir}
    (hlist : t.kernel.procList = none) (hcount : t.procCount = 0)
    (hbits : t.procBitmap = List.replicate (words + 1) 0)
    (h : coreMain fuel t pstack entry pageDir = some t') :
    Listed t' [0, 2, 3, 4, 5, 6, 7, 8] ∧ t'.procBitmap = 0x1FF#32 :: List.replicate words 0 := by
  have hempty : Listed t [] := by
    refine ⟨?_, List.nodup_nil, nofun, hcount⟩
    rw [hlist]
    exact Chain.nil
  have hbits' : t.procBitmap = 0#32 :: List.replicate words 0 := hbits
  obtain ⟨t₀, h₀, h⟩ := Option.bind_eq_some_iff.mp h
  obtain ⟨t₂, h₂, h⟩ := Option.bind_eq_some_iff.mp h
  obtain ⟨l₀, b₀⟩ := hempty.initProc (c := 0) h₀
    (by rw [hbits']; simp [checkBit, procInterrupt, procAny]) List.not_mem_nil
  -- the bit of pid 1 is set
  have b₁ : setBit t₀.procBitmap 1 = 0x3#32 :: List.replicate words 0 := by
    rw [b₀, hbits']
    rfl
  have l₁ : Listed { t₀ with procBitmap := setBit t₀.procBitmap 1 } [0] :=
    ⟨l₀.chain, l₀.nodup, l₀.pid_eq, l₀.count⟩
  have hpreferred : (modulesPreferredPid.mapIdx fun i pid => (i, pid)).filter (fun m => m.2 < 0xFFFF) =
      [(0, 2)] := by decide
  have hothers : (modulesPreferredPid.mapIdx fun i pid => (i, pid)).filter
      (fun m => 0xFFFF ≤ m.2) = [(1, 0xFFFFFFFE), (2, 0xFFFFFFFE), (3, 0xFFFFFFFE),
        (4, 0xFFFFFFFE), (5, 0xFFFFFFFE), (6, 0xFFFFFFFE)] := by decide
  rw [hpreferred] at h₂
  rw [hothers] at h
  obtain ⟨s₂, hs₂, h₂⟩ := Option.bind_eq_some_iff.mp h₂
  obtain rfl := Option.some.inj h₂
  obtain ⟨l₂, b₂⟩ := l₁.initProc (c := 2) hs₂
    (by rw [b₁]; simp [checkBit, procInterrupt, procAny]) (by decide)
  have b₂' : s₂.procBitmap = 0x7#32 :: List.replicate words 0 := by
    rw [b₂, b₁]
    rfl
  obtain ⟨t₃, h₃, h⟩ := Option.bind_eq_some_iff.mp h
  obtain ⟨l₃, b₃⟩ := l₂.initProc_any b₂' h₃ (by decide) (by decide) (by decide)
  obtain ⟨t₄, h₄, h⟩ := Option.bind_eq_some_iff.mp h
  obtain ⟨l₄, b₄⟩ := l₃.initProc_any b₃ h₄ (by decide) (by decide) (by decide)
  obtain ⟨t₅, h₅, h⟩ := Option.bind_eq_some_iff.mp h
  obtain ⟨l₅, b₅⟩ := l₄.initProc_any b₄ h₅ (by decide) (by decide) (by decide)
  obtain ⟨t₆, h₆, h⟩ := Option.bind_eq_some_iff.mp h
  obtain ⟨l₆, b₆⟩ := l₅.initProc_any b₅ h₆ (by decide) (by decide) (by decide)
  obtain ⟨t₇, h₇, h⟩ := Option.bind_eq_some_iff.mp h
  obtain ⟨l₇, b₇⟩ := l₆.initProc_any b₆ h₇ (by decide) (by decide) (by decide)
  obtain ⟨t₈, h₈, h⟩ := Option.bind_eq_some_iff.mp h
  obtain ⟨l₈, b₈⟩ := l₇.initProc_any b₇ h₈ (by decide) (by decide) (by decide)
  obtain rfl := Option.some.inj h
  exact ⟨l₈, b₈⟩

/-- `init` goes to the end of the list. -/
theorem Listed.startUpInit {entry : VAddr} {pageDir : PageDir} {progInfo : ProgInfo}
    (h : Listed t l) (hl : 1 ∉ l)
    (hcall : ProcTable.startUpInit fuel t pageDir entry progInfo = some t') :
    Listed t' (l ++ [1]) ∧ t'.procBitmap = t.procBitmap := by
  unfold ProcTable.startUpInit at hcall
  obtain ⟨k₁, hk₁, rfl⟩ := Option.map_eq_some_iff.mp hcall
  obtain ⟨p, hp, hwalk⟩ := Option.bind_eq_some_iff.mp hk₁
  set k := t.kernel.modProc 1 (initEntry pageDir entry progInfo) with hk
  have happend : k.appendProc fuel 1 = some k₁ := by
    unfold Kernel.appendProc
    rw [hp]
    exact hwalk
  obtain ⟨f, hf, rfl⟩ := Option.map_eq_some_iff.mp hwalk
  -- the last process of the list is not pid 1
  have hchain : Chain k.next (some p) l := by
    rw [← hp, hk, next_modProc]
    exact h.chain.update_of_notMem hl
  obtain ⟨l', rfl⟩ := hchain.walkToLast_eq hf
  have hf1 : 1 ≠ f := by
    rintro rfl
    exact hl (by simp)
  have hentry : (k.setNext f (some 1)).procTable 1 = initEntry pageDir entry progInfo
      (t.kernel.procTable 1) := by
    have hset : (k.setNext f (some 1)).procTable 1 = k.procTable 1 := entry_modProc_of_ne hf1
    rw [hset, hk]
    exact entry_modProc_self
  have hadd : Listed ⟨(k.setNext f (some 1)).setStatus 1 (procStatusRunning ||| procStatusNormal),
      t.procBitmap, t.procCount + 1⟩ (l' ++ [f] ++ [1]) :=
    h.add hl happend (by rw [hentry]; rfl) (by rw [hentry]; rfl)
  exact ⟨hadd, rfl⟩

/-- The table after `core_main` and `start_up_init`, from an empty list and a bitmap of zeros. -/
def booted (fuel : ℕ) (k : Kernel) (words : ℕ) (pstack : Pid → VAddr) (entry : ℕ → VAddr)
    (pageDir : Pid → PageDir) (progInfo : ProgInfo) : Option ProcTable :=
  let empty : ProcTable :=
    { kernel := { k with procList := none }, procBitmap := List.replicate words 0, procCount := 0 }
  (coreMain fuel empty pstack entry (pageDir 0)).bind fun t =>
    startUpInit fuel t (pageDir 1) (entry 8) progInfo

/-- **The boot table is consistent**: its processes are the idle process, the modules and `init`. -/
theorem booted_exact {words : ℕ} {pstack : Pid → VAddr} {entry : ℕ → VAddr}
    {pageDir : Pid → PageDir} {progInfo : ProgInfo}
    (h : booted fuel k (words + 1) pstack entry pageDir progInfo = some t) :
    Exact t (fun p => p < 9) [0, 2, 3, 4, 5, 6, 7, 8, 1] := by
  obtain ⟨t₀, h₀, h₁⟩ := Option.bind_eq_some_iff.mp h
  obtain ⟨hl, hb⟩ := coreMain_listed rfl rfl rfl h₀
  obtain ⟨hl', hb'⟩ := hl.startUpInit (by decide) h₁
  refine ⟨hl', fun p => ?_, fun p => ?_⟩
  · constructor
    · intro hp
      have hall : ∀ q ∈ [0, 2, 3, 4, 5, 6, 7, 8, 1], q < 9 := by decide
      exact hall p hp
    · intro hp
      have hall : ∀ q < 9, q ∈ [0, 2, 3, 4, 5, 6, 7, 8, 1] := by decide
      exact hall p hp
  · rw [hb', hb]
    exact checkBit_low p

/-! ### Sequences of requests -/

/-- A machine before `core_main`. -/
def demoKernel : Kernel where
  procTable _ := default
  procList := none
  procRunning := none
  memory _ := default
  vir2phy _ va := va
  interruptSuscribed _ := 0
  interruptSuscribedData _ := default
  exceptionSuscribed _ := 0
  exceptionSuscribedData _ := default
  screen := []

/-- Its table after the boot. -/
def demoTable : ProcTable :=
  (booted 10 demoKernel 2 (fun p => 4096 * (p + 1)) (fun i => i) (fun p => p) default).getD
    ⟨demoKernel, [], 0⟩

theorem demoTable_booted : booted 10 demoKernel 2 (fun p => 4096 * (p + 1)) (fun i => i)
    (fun p => p) default = some demoTable :=
  some_getD (by decide +kernel)

end ProcTable

end OmochaOS
