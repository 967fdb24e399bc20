import OmochaOS.Kernel.ProcTable

/-!
# The exit of a process (`modules/memory/exit.c`)

`mem_exit_proc` reports a process to its parent when the parent waits, and gives its children to process 1
along the process list.  A report is followed by `EXIT_PROC`, which SysTask does not answer: it clears the
entry when it comes to it, at the latest before it answers the next request, while the walk along the list
still compares with the entry of the process and follows the links of the children.

* `exitWalk_still` — the walk, while SysTask leaves the list alone;
* `exitWalk_report` — the walk up to a child that is reported;
* `memExitProc_reparents_iff` — when all children get their new parent.
-/

namespace OmochaOS.Exit

open IntrusiveList BitFlags ProcTable

/-- The message of `send_exit_to_parent`. -/
structure Report where
  receiver : Pid
  pid : Pid
  exitStatus : ℕ

/-- The table, the `EXIT_PROC` messages that wait for SysTask, what has been reported, and the processes that
the walk has come to. -/
structure ExitState where
  table : ProcTable
  mailbox : List Pid
  reports : List Report
  visited : List Pid

/-- `proc_table[p]`. -/
def ExitState.entry (s : ExitState) (p : Pid) : Process := s.table.kernel.procTable p

def ExitState.Is (s : ExitState) (p : Pid) (mask : BitVec 32) : Prop := s.table.kernel.Is p mask

instance (s : ExitState) (p : Pid) (mask : BitVec 32) : Decidable (s.Is p mask) :=
  inferInstanceAs (Decidable (s.table.kernel.Is p mask))

def ExitState.modProc (s : ExitState) (p : Pid) (f : Process → Process) : ExitState :=
  { s with table := { s.table with kernel := s.table.kernel.modProc p f } }

/-- `p->status |= bit`. -/
def ExitState.raise (s : ExitState) (p : Pid) (bit : BitVec 32) : ExitState :=
  s.modProc p fun proc => { proc with status := BitFlags.raise proc.status bit }

/-- `p->status &= ~bit`. -/
def ExitState.drop (s : ExitState) (p : Pid) (bit : BitVec 32) : ExitState :=
  s.modProc p fun proc => { proc with status := BitFlags.drop proc.status bit }

/-- `p->parent_pid = 1`. -/
def ExitState.adopt (s : ExitState) (p : Pid) : ExitState :=
  s.modProc p fun proc => { proc with parentPid := 1 }

/-- `send_exit_to_parent`. -/
def ExitState.sendExitToParent (s : ExitState) (p : Pid) : ExitState :=
  { s with
    reports := s.reports ++ [⟨(s.entry p).parentPid, (s.entry p).pid, (s.entry p).exitStatus⟩]
    mailbox := s.mailbox ++ [(s.entry p).pid] }

/-- SysTask handles its messages. -/
def ExitState.serve (fuel : ℕ) (s : ExitState) : Option ExitState :=
  (s.mailbox.foldlM (fun t p => ProcTable.exitProc fuel t p) s.table).map fun t =>
    { s with table := t, mailbox := [] }

/-- A place where SysTask may run. -/
def ExitState.interlude (fuel : ℕ) (runs : Bool) (s : ExitState) : Option ExitState :=
  if runs = true then s.serve fuel else some s

/-- The walk comes to a process. -/
def ExitState.visit (s : ExitState) (p : Pid) : ExitState := { s with visited := s.visited ++ [p] }

/-- The body of the loop in `mem_exit_proc`, without the step to the next process. -/
def ExitState.look (proc p : Pid) (s : ExitState) : ExitState :=
  let s := s.visit p
  if (s.entry p).parentPid = (s.entry proc).pid then
    let s := s.adopt p
    if s.Is p procStatusHanging ∧ s.Is 1 procStatusWating then
      (s.drop 1 procStatusWating).sendExitToParent p
    else s
  else s

/-- The loop in `mem_exit_proc`.  SysTask may run before a process is looked at and after. -/
def exitWalk (walkFuel : ℕ) (sched : ℕ → Bool) (proc : Pid) : ℕ → Option Pid → ExitState → Option ExitState
  | 0, _, _ => none
  | _ + 1, none, s => some s
  | fuel + 1, some p, s =>
    (s.interlude walkFuel (sched (2 * s.visited.length))).bind fun s =>
      ((s.look proc p).interlude walkFuel (sched (2 * s.visited.length + 1))).bind fun s =>
        exitWalk walkFuel sched proc fuel (s.entry p).next s

/-- `mem_exit_proc`; the panic for a process without a parent does nothing.  SysTask answers
`get_proc_list_head` and `get_proc` after the messages that it has got before. -/
def memExitProc (fuel : ℕ) (sched : ℕ → Bool) (proc : Pid) (s : ExitState) : Option ExitState :=
  let parent := (s.entry proc).parentPid
  let s := if s.Is parent procStatusWating then
      (s.drop parent procStatusWating).sendExitToParent proc
    else s.raise proc procStatusHanging
  (s.serve fuel).bind fun s => exitWalk fuel sched proc fuel s.table.kernel.procList s

/-! ### What is to hold -/

/-- After the exit of `proc` from the list `L`, with `l'` the list of `s'`. -/
structure ReparentedList (k : Kernel) (L l' : List Pid) (proc : Pid) (s' : ExitState) : Prop where
  childless : ∀ p ∈ l', (s'.entry p).parentPid ≠ proc
  adopted : ∀ p ∈ l', (k.procTable p).parentPid = proc → (s'.entry p).parentPid = 1
  others : ∀ p ∈ l', (k.procTable p).parentPid ≠ proc →
    (s'.entry p).parentPid = (k.procTable p).parentPid
  hanging : ∀ c ∈ L, c ≠ proc → (k.procTable c).parentPid = proc → k.Is c procStatusHanging →
    (c ∈ l' ∧ s'.Is c procStatusHanging) ∨
      (k.Is 1 procStatusWating ∧ ∃ r ∈ s'.reports, r.receiver = 1 ∧ r.pid = c)
  visits : ∀ p ∈ L, (∀ r ∈ s'.reports, r.pid ≠ p) → p ∈ s'.visited

/-- Nobody has `proc` as parent, and no hanging process is lost. -/
def Reparented (k : Kernel) (L : List Pid) (proc : Pid) (s' : ExitState) : Prop :=
  ∃ l', Chain s'.table.kernel.next s'.table.kernel.procList l' ∧ ReparentedList k L l' proc s'

/-- The state before `mem_exit_proc`. -/
def ExitState.start (t : ProcTable) : ExitState := ⟨t, [], [], []⟩

/-- Whenever SysTask runs, the exit of `proc` gives its children to process 1. -/
def Reparents (t : ProcTable) (L : List Pid) (proc : Pid) : Prop :=
  ∀ sched, ∃ fuel s', memExitProc fuel sched proc (.start t) = some s' ∧ Reparented t.kernel L proc s'

/-- The condition. -/
def Adoptable (k : Kernel) (L : List Pid) (proc : Pid) : Prop :=
  if k.Is (k.procTable proc).parentPid procStatusWating then
    ∀ p ∈ L, p ≠ proc → (k.procTable p).parentPid ≠ proc ∧ (k.procTable p).parentPid ≠ 0
  else
    ((∃ p ∈ L, (k.procTable p).parentPid = proc) → proc ≠ 1) ∧
      (k.Is 1 procStatusWating → ∀ c ∈ L, (k.procTable c).parentPid = proc →
        k.Is c procStatusHanging ∨ c = proc → L.getLast? = some c)

variable {t t' : ProcTable} {s s' s₁ s₂ : ExitState} {a c p q proc : Pid} {h : Option Pid}
  {l L M M₁ M₂ : List Pid} {f : Process → Process} {mask : BitVec 32} {fuel walkFuel v : ℕ}
  {sched : ℕ → Bool}

/-! ### Entries -/

theorem ExitState.entry_modProc_self : (s.modProc p f).entry p = f (s.entry p) := by
  show (s.table.kernel.modProc p f).procTable p = _
  exact ProcTable.entry_modProc_self

theorem ExitState.entry_modProc_of_ne (hq : q ≠ p) : (s.modProc p f).entry q = s.entry q :=
  ProcTable.entry_modProc_of_ne hq

theorem ExitState.adopt_frame (s : ExitState) (p q : Pid) :
    ((s.adopt p).entry q).pid = (s.entry q).pid ∧ ((s.adopt p).entry q).next = (s.entry q).next ∧
      ((s.adopt p).entry q).status = (s.entry q).status ∧
      ((s.adopt p).entry q).exitStatus = (s.entry q).exitStatus := by
  by_cases hq : q = p
  · subst hq
    rw [adopt, entry_modProc_self]
    exact ⟨rfl, rfl, rfl, rfl⟩
  · rw [adopt, entry_modProc_of_ne hq]
    exact ⟨rfl, rfl, rfl, rfl⟩

theorem ExitState.parentPid_adopt (s : ExitState) (p q : Pid) :
    ((s.adopt p).entry q).parentPid = if q = p then 1 else (s.entry q).parentPid := by
  by_cases hq : q = p
  · subst hq
    rw [adopt, entry_modProc_self, if_pos rfl]
  · rw [adopt, entry_modProc_of_ne hq, if_neg hq]

theorem ExitState.drop_frame (s : ExitState) (p q : Pid) (bit : BitVec 32) :
    ((s.drop p bit).entry q).pid = (s.entry q).pid ∧ ((s.drop p bit).entry q).next = (s.entry q).next ∧
      ((s.drop p bit).entry q).parentPid = (s.entry q).parentPid ∧
      ((s.drop p bit).entry q).exitStatus = (s.entry q).exitStatus := by
  by_cases hq : q = p
  · subst hq
    rw [drop, entry_modProc_self]
    exact ⟨rfl, rfl, rfl, rfl⟩
  · rw [drop, entry_modProc_of_ne hq]
    exact ⟨rfl, rfl, rfl, rfl⟩

theorem ExitState.is_congr (h : (s.entry q).status = (s'.entry q).status) : s.Is q mask ↔ s'.Is q mask := by
  show Has (s.entry q).status mask ↔ Has (s'.entry q).status mask
  rw [h]

theorem ExitState.is_drop_of_disjoint {bit : BitVec 32} (h : bit &&& mask = 0) :
    (s.drop p bit).Is q mask ↔ s.Is q mask := by
  show Has ((s.drop p bit).entry q).status mask ↔ Has (s.entry q).status mask
  by_cases hq : q = p
  · subst hq
    rw [drop, entry_modProc_self]
    exact has_drop_of_disjoint h
  · rw [drop, entry_modProc_of_ne hq]

theorem ExitState.next_eq (h : ∀ q, (s.entry q).next = (s'.entry q).next) :
    s.table.kernel.next = s'.table.kernel.next := funext h

/-! ### One process of the walk -/

/-- The processes `M` have been looked at, for children of `v`. -/
structure Looked (v : ℕ) (M : List Pid) (s s' : ExitState) : Prop where
  next : s'.table.kernel.next = s.table.kernel.next
  procList : s'.table.kernel.procList = s.table.kernel.procList
  count : s'.table.procCount = s.table.procCount
  pid : ∀ q, (s'.entry q).pid = (s.entry q).pid
  parent : ∀ q, (s'.entry q).parentPid =
    if q ∈ M ∧ (s.entry q).parentPid = v then 1 else (s.entry q).parentPid
  hanging : ∀ q, s'.Is q procStatusHanging ↔ s.Is q procStatusHanging
  visited : s'.visited = s.visited ++ M

/-- Nothing has been reported. -/
structure Quiet (s s' : ExitState) : Prop where
  mailbox : s'.mailbox = s.mailbox
  reports : s'.reports = s.reports
  is_iff : ∀ q mask, s'.Is q mask ↔ s.Is q mask

theorem Looked.refl (v : ℕ) (s : ExitState) : Looked v [] s s where
  next := rfl
  procList := rfl
  count := rfl
  pid _ := rfl
  parent _ := (if_neg fun h => absurd h.1 List.not_mem_nil).symm
  hanging _ := Iff.rfl
  visited := (List.append_nil _).symm

theorem Looked.trans (h₁ : Looked v M₁ s s₁) (h₂ : Looked v M₂ s₁ s₂) (hnd : (M₁ ++ M₂).Nodup) :
    Looked v (M₁ ++ M₂) s s₂ where
  next := h₂.next.trans h₁.next
  procList := h₂.procList.trans h₁.procList
  count := h₂.count.trans h₁.count
  pid q := (h₂.pid q).trans (h₁.pid q)
  parent := by
    intro q
    have happart : q ∈ M₁ → q ∉ M₂ := fun h h' => (List.nodup_append.mp hnd).2.2 q h q h' rfl
    rw [h₂.parent, h₁.parent]
    by_cases hq₁ : q ∈ M₁
    · have hq₂ := happart hq₁
      simp [hq₁, hq₂]
    · simp [hq₁]
  hanging q := (h₂.hanging q).trans (h₁.hanging q)
  visited := by rw [h₂.visited, h₁.visited, List.append_assoc]

theorem Quiet.refl (s : ExitState) : Quiet s s := ⟨rfl, rfl, fun _ _ => Iff.rfl⟩

theorem Quiet.trans (h₁ : Quiet s s₁) (h₂ : Quiet s₁ s₂) : Quiet s s₂ :=
  ⟨h₂.mailbox.trans h₁.mailbox, h₂.reports.trans h₁.reports, fun q m => (h₂.is_iff q m).trans (h₁.is_iff q m)⟩

/-- A child of the process gets its parent. -/
theorem looked_adopt (hv : (s.entry p).parentPid = v) :
    Looked v [p] s ((s.visit p).adopt p) where
  next := ExitState.next_eq fun q => (s.adopt_frame p q).2.1
  procList := rfl
  count := rfl
  pid q := (s.adopt_frame p q).1
  parent q := by
    show ((s.adopt p).entry q).parentPid = _
    rw [s.parentPid_adopt]
    by_cases hq : q = p
    · subst hq
      rw [if_pos rfl, if_pos ⟨List.mem_singleton_self q, hv⟩]
    · rw [if_neg hq, if_neg fun h => hq (List.mem_singleton.mp h.1)]
  hanging q := ExitState.is_congr (s.adopt_frame p q).2.2.1
  visited := rfl

/-- Another process keeps its parent. -/
theorem looked_other (hv : (s.entry p).parentPid ≠ v) :
    Looked v [p] s (s.visit p) where
  next := rfl
  procList := rfl
  count := rfl
  pid _ := rfl
  parent q := by
    have hne : ¬ (q ∈ [p] ∧ (s.entry q).parentPid = v) := by
      intro h
      rw [List.mem_singleton.mp h.1] at h
      exact hv h.2
    rw [if_neg hne]
    rfl
  hanging _ := Iff.rfl
  visited := rfl

theorem Looked.report (h : Looked v M s s₁) (p : Pid) :
    Looked v M s ((s₁.drop 1 procStatusWating).sendExitToParent p) where
  next := (ExitState.next_eq fun q => (s₁.drop_frame 1 q _).2.1).trans h.next
  procList := h.procList
  count := h.count
  pid q := (s₁.drop_frame 1 q _).1.trans (h.pid q)
  parent q := (s₁.drop_frame 1 q _).2.2.1.trans (h.parent q)
  hanging q := (ExitState.is_drop_of_disjoint (by decide)).trans (h.hanging q)
  visited := h.visited

/-- The child `p` of `v` is reported. -/
def Reports (v p : Pid) (s : ExitState) : Prop :=
  (s.entry p).parentPid = v ∧ s.Is p procStatusHanging ∧ s.Is 1 procStatusWating

theorem look_quiet (hv : (s.entry proc).pid = v) (h : ¬ Reports v p s) :
    Looked v [p] s (s.look proc p) ∧ Quiet s (s.look proc p) := by
  subst hv
  by_cases hchild : (s.entry p).parentPid = (s.entry proc).pid
  · have hstatus : ∀ q mask, ((s.visit p).adopt p).Is q mask ↔ s.Is q mask := fun q mask =>
      ExitState.is_congr ((s.visit p).adopt_frame p q).2.2.1
    have hlook : s.look proc p = (s.visit p).adopt p := by
      rw [ExitState.look]
      show (if (s.entry p).parentPid = (s.entry proc).pid then _ else _) = _
      rw [if_pos hchild]
      exact if_neg fun hreport => h ⟨hchild, (hstatus p _).mp hreport.1, (hstatus 1 _).mp hreport.2⟩
    rw [hlook]
    exact ⟨looked_adopt hchild, rfl, rfl, hstatus⟩
  · have hlook : s.look proc p = s.visit p := if_neg hchild
    rw [hlook]
    exact ⟨looked_other hchild, rfl, rfl, fun _ _ => Iff.rfl⟩

theorem look_report (hv : (s.entry proc).pid = v) (h : Reports v p s) :
    Looked v [p] s (s.look proc p) ∧ (s.look proc p).mailbox = s.mailbox ++ [(s.entry p).pid] ∧
      (s.look proc p).reports = s.reports ++ [⟨1, (s.entry p).pid, (s.entry p).exitStatus⟩] := by
  subst hv
  have hstatus : ∀ q mask, ((s.visit p).adopt p).Is q mask ↔ s.Is q mask := fun q mask =>
    ExitState.is_congr ((s.visit p).adopt_frame p q).2.2.1
  have hlook : s.look proc p = (((s.visit p).adopt p).drop 1 procStatusWating).sendExitToParent p := by
    rw [ExitState.look]
    show (if (s.entry p).parentPid = (s.entry proc).pid then _ else _) = _
    rw [if_pos h.1]
    exact if_pos ⟨(hstatus p _).mpr h.2.1, (hstatus 1 _).mpr h.2.2⟩
  have hdrop := ((s.visit p).adopt p).drop_frame 1 p procStatusWating
  have hadopt := (s.visit p).adopt_frame p p
  have hpid := hdrop.1.trans hadopt.1
  have hparent : ((((s.visit p).adopt p).drop 1 procStatusWating).entry p).parentPid = 1 := by
    rw [hdrop.2.2.1, ExitState.parentPid_adopt, if_pos rfl]
  rw [hlook]
  refine ⟨(looked_adopt h.1).report p, ?_, ?_⟩
  · show s.mailbox ++ [_] = _
    rw [hpid]
    rfl
  · show s.reports ++ [⟨_, _, _⟩] = _
    rw [hparent, hpid, hdrop.2.2.2, hadopt.2.2.2]
    rfl

theorem Looked.reports_iff (h : Looked v M s s') (hquiet : Quiet s s') (hq : q ∉ M) :
    Reports v q s' ↔ Reports v q s := by
  rw [Reports, Reports, h.parent, if_neg fun hm => hq hm.1, hquiet.is_iff, hquiet.is_iff]

/-! ### SysTask -/

theorem ExitState.serve_nil (hmail : s.mailbox = []) : s.serve fuel = some s := by
  cases s with
  | mk table mailbox reports visited =>
    subst hmail
    rfl

theorem ExitState.interlude_nil (hmail : s.mailbox = []) (runs : Bool) : s.interlude fuel runs = some s := by
  cases runs with
  | false => rfl
  | true => exact serve_nil hmail

theorem ExitState.serve_one (hmail : s.mailbox = [c]) :
    s.serve fuel = (ProcTable.exitProc fuel s.table c).map fun t => { s with table := t, mailbox := [] } := by
  rw [serve, hmail, List.foldlM_cons]
  cases ProcTable.exitProc fuel s.table c with
  | none => rfl
  | some t => rfl

/-- `EXIT_PROC` of a process behind the first one: its entry is cleared, and the others keep all but a link. -/
theorem exitProc_spec (hl : Listed t (a :: l)) (hp : c ∈ l)
    (hcall : ProcTable.exitProc fuel t c = some t') :
    Chain t'.kernel.next t'.kernel.procList ((a :: l).erase c) ∧ t'.kernel.procTable c = default ∧
      ∀ q ≠ c, t'.kernel.procTable q =
        { t.kernel.procTable q with next := (t'.kernel.procTable q).next } := by
  have hhead : t.kernel.procList = some a := (hl.chain.head_eq).1
  have hne : c ≠ a := fun he => (List.nodup_cons.mp hl.nodup).1 (he ▸ hp)
  have hchain := hl.chain
  rw [hhead] at hchain
  unfold ProcTable.exitProc at hcall
  obtain ⟨k₁, hk₁, rfl⟩ := Option.map_eq_some_iff.mp hcall
  have hlist : (unsuscribe t.kernel c).procList = some a := hhead
  have hnext : (unsuscribe t.kernel c).next = t.kernel.next := rfl
  rw [hlist] at hk₁
  simp only [if_neg hne, hnext] at hk₁
  have hspin : searchAfter t.kernel.next c fuel a ≠ .spinning := by
    intro hs
    simp only [hs] at hk₁
    cases hk₁
  obtain ⟨ff, l₁, l₂, hfound, hsplit⟩ := hchain.searchAfter_of_mem hp hspin
  simp only [hfound, Option.some.injEq] at hk₁
  subst hk₁
  have hnd := hl.nodup
  rw [hsplit] at hnd hchain
  have herase : (a :: l).erase c = l₁ ++ ff :: l₂ := by
    have hfront : c ∉ l₁ ++ [ff] := by
      intro hm
      have hnd' : ((l₁ ++ [ff]) ++ c :: l₂).Nodup := by
        rw [List.append_assoc]
        exact hnd
      exact (List.nodup_append.mp hnd').2.2 c hm c List.mem_cons_self rfl
    have hparts : l₁ ++ ff :: c :: l₂ = (l₁ ++ [ff]) ++ c :: l₂ := by rw [List.append_assoc]; rfl
    rw [hsplit, hparts, List.erase_append_right _ hfront, List.erase_cons_head, List.append_assoc]
    rfl
  refine ⟨?_, ?_, fun q hq => ?_⟩
  · have hset : ((unsuscribe t.kernel c).setNext ff (t.kernel.next c)).next =
        Function.update t.kernel.next ff (t.kernel.next c) := next_modProc
    rw [herase]
    show Chain _ t.kernel.procList _
    rw [hhead, next_modProc, hset]
    exact hchain.unlink hnd
  · show (((unsuscribe t.kernel c).setNext ff (t.kernel.next c)).modProc c fun _ => default).procTable c = _
    rw [entry_modProc_self]
  · have hkeep := entry_modProc_of_ne (k := (unsuscribe t.kernel c).setNext ff (t.kernel.next c))
      (f := fun _ => default) hq
    have hset : ((unsuscribe t.kernel c).setNext ff (t.kernel.next c)).procTable q =
        { t.kernel.procTable q with
          next := (((unsuscribe t.kernel c).setNext ff (t.kernel.next c)).procTable q).next } := by
      rw [Kernel.setNext]
      by_cases hff : q = ff
      · subst hff
        rw [entry_modProc_self]
        rfl
      · rw [entry_modProc_of_ne hff]
        rfl
    show _ = { t.kernel.procTable q with next := ((((unsuscribe t.kernel c).setNext ff (t.kernel.next c)).modProc c
      fun _ => default).procTable q).next }
    rw [hkeep]
    exact hset

theorem exitProc_returns (hl : Listed t (a :: l)) (hp : c ∈ l) (hfuel : l.length < fuel) :
    ∃ t', ProcTable.exitProc fuel t c = some t' := by
  have hhead : t.kernel.procList = some a := (hl.chain.head_eq).1
  have hne : c ≠ a := fun he => (List.nodup_cons.mp hl.nodup).1 (he ▸ hp)
  have hchain := hl.chain
  rw [hhead] at hchain
  have hspin : searchAfter t.kernel.next c fuel a ≠ .spinning :=
    hchain.searchAfter_ne_spinning hfuel
  obtain ⟨ff, l₁, l₂, hfound, -⟩ := hchain.searchAfter_of_mem hp hspin
  have hlist : (unsuscribe t.kernel c).procList = some a := hhead
  have hnext : (unsuscribe t.kernel c).next = t.kernel.next := rfl
  rw [ProcTable.exitProc]
  simp only [hlist, if_neg hne, hnext, hfound, Option.map_some]
  exact ⟨_, rfl⟩

/-! ### The walk -/

theorem Looked.listed (h : Looked v M s s') (hl : Listed s.table L) : Listed s'.table L where
  chain := by
    rw [h.next, h.procList]
    exact hl.chain
  nodup := hl.nodup
  pid_eq p hp := (h.pid p).trans (hl.pid_eq p hp)
  count := h.count.trans hl.count

/-- **The walk while SysTask leaves the list alone**: it does not run, or has nothing to do. -/
theorem exitWalk_still (walkFuel : ℕ) (sched : ℕ → Bool) (hv : (s.entry proc).pid = v)
    (hstill : (∀ i, sched i = false) ∨ (s.mailbox = [] ∧ ∀ p ∈ M, ¬ Reports v p s))
    (hc : Chain s.table.kernel.next h M) (hnd : M.Nodup) :
    ∃ s', (∀ fuel, exitWalk walkFuel sched proc fuel h s = if M.length < fuel then some s' else none) ∧
      Looked v M s s' ∧ ((∀ p ∈ M, ¬ Reports v p s) → Quiet s s') := by
  induction M generalizing s h with
  | nil =>
    obtain rfl := hc.eq_nil_iff.mp rfl
    refine ⟨s, fun fuel => ?_, Looked.refl v s, fun _ => Quiet.refl s⟩
    cases fuel with
    | zero => rfl
    | succ n => exact (if_pos (Nat.succ_pos n)).symm
  | cons p M ih =>
    obtain ⟨rfl, htail⟩ := hc.head_eq
    obtain ⟨hpM, hndM⟩ := List.nodup_cons.mp hnd
    have hlooked : Looked v [p] s (s.look proc p) := by
      by_cases hr : Reports v p s
      · exact (look_report hv hr).1
      · exact (look_quiet hv hr).1
    have hquiet : ¬ Reports v p s → Quiet s (s.look proc p) := fun hr => (look_quiet hv hr).2
    have hrest : ∀ q ∈ M, q ∉ [p] := fun q hq hm => hpM (List.mem_singleton.mp hm ▸ hq)
    have hbefore : ∀ i, s.interlude walkFuel (sched i) = some s := by
      intro i
      rcases hstill with hnever | ⟨hmail, -⟩
      · rw [hnever i]
        rfl
      · exact ExitState.interlude_nil hmail _
    have hafter : ∀ i, (s.look proc p).interlude walkFuel (sched i) = some (s.look proc p) := by
      intro i
      rcases hstill with hnever | ⟨hmail, hnone⟩
      · rw [hnever i]
        rfl
      · exact ExitState.interlude_nil ((hquiet (hnone p List.mem_cons_self)).mailbox.trans hmail) _
    have hstill' : (∀ i, sched i = false) ∨
        ((s.look proc p).mailbox = [] ∧ ∀ q ∈ M, ¬ Reports v q (s.look proc p)) := by
      refine hstill.imp_right fun ⟨hmail, hnone⟩ => ?_
      have hq := hquiet (hnone p List.mem_cons_self)
      refine ⟨hq.mailbox.trans hmail, fun q hqM => ?_⟩
      rw [hlooked.reports_iff hq (hrest q hqM)]
      exact hnone q (List.mem_cons_of_mem p hqM)
    have hnext : ((s.look proc p).entry p).next = s.table.kernel.next p := congrFun hlooked.next p
    have hc' : Chain (s.look proc p).table.kernel.next (s.table.kernel.next p) M := by
      rw [hlooked.next]
      exact htail
    obtain ⟨s', hrun, hlooked', hquiet'⟩ := ih ((hlooked.pid proc).trans hv) hstill' hc' hndM
    refine ⟨s', fun fuel => ?_, hlooked.trans hlooked' hnd, fun hnone => ?_⟩
    · cases fuel with
      | zero => rfl
      | succ n =>
        rw [exitWalk, hbefore, Option.bind_some, hafter, Option.bind_some, hnext, hrun n, List.length_cons]
        simp only [Nat.succ_lt_succ_iff]
    · have hq := hquiet (hnone p List.mem_cons_self)
      refine hq.trans (hquiet' fun q hqM => ?_)
      rw [hlooked.reports_iff hq (hrest q hqM)]
      exact hnone q (List.mem_cons_of_mem p hqM)

/-- **The walk up to a child that is reported**, the first one. -/
theorem exitWalk_report (walkFuel : ℕ) (sched : ℕ → Bool) (hv : (s.entry proc).pid = v) (hmail : s.mailbox = [])
    (hc : Chain s.table.kernel.next h (M ++ c :: l)) (hnd : (M ++ c :: l).Nodup)
    (hnone : ∀ p ∈ M, ¬ Reports v p s) (hreport : Reports v c s) :
    ∃ s₁ i e, Looked v (M ++ [c]) s s₁ ∧ s₁.mailbox = [(s.entry c).pid] ∧
      s₁.reports = s.reports ++ [⟨1, (s.entry c).pid, e⟩] ∧
      ∀ fuel, exitWalk walkFuel sched proc fuel h s = if M.length < fuel then
        (s₁.interlude walkFuel (sched i)).bind fun s' =>
          exitWalk walkFuel sched proc (fuel - (M.length + 1)) (s'.entry c).next s'
        else none := by
  induction M generalizing s h with
  | nil =>
    obtain ⟨rfl, -⟩ := hc.head_eq
    obtain ⟨hlooked, hmail₁, hreports⟩ := look_report hv hreport
    rw [hmail, List.nil_append] at hmail₁
    refine ⟨s.look proc c, 2 * s.visited.length + 1, _, hlooked, hmail₁, hreports, fun fuel => ?_⟩
    cases fuel with
    | zero => rfl
    | succ n =>
      rw [exitWalk, ExitState.interlude_nil hmail, Option.bind_some]
      exact (if_pos (Nat.succ_pos n)).symm
  | cons p M ih =>
    obtain ⟨rfl, htail⟩ := hc.head_eq
    obtain ⟨hpM, hndM⟩ := List.nodup_cons.mp hnd
    obtain ⟨hlooked, hquiet⟩ := look_quiet hv (hnone p List.mem_cons_self)
    have hrest : ∀ q ∈ M ++ c :: l, q ∉ [p] := fun q hq hm => hpM (List.mem_singleton.mp hm ▸ hq)
    have hnext : ((s.look proc p).entry p).next = s.table.kernel.next p := congrFun hlooked.next p
    have hc' : Chain (s.look proc p).table.kernel.next (s.table.kernel.next p) (M ++ c :: l) := by
      rw [hlooked.next]
      exact htail
    have hnone' : ∀ q ∈ M, ¬ Reports v q (s.look proc p) := by
      intro q hqM
      rw [hlooked.reports_iff hquiet (hrest q (List.mem_append_left _ hqM))]
      exact hnone q (List.mem_cons_of_mem p hqM)
    have hreport' : Reports v c (s.look proc p) :=
      (hlooked.reports_iff hquiet (hrest c (List.mem_append_right _ List.mem_cons_self))).mpr hreport
    obtain ⟨s₁, i, e, hlooked₁, hmail₁, hreports, hrun⟩ :=
      ih ((hlooked.pid proc).trans hv) (hquiet.mailbox.trans hmail) hc' hndM hnone' hreport'
    have hall : ([p] ++ (M ++ [c])).Nodup := by
      have hparts : p :: M ++ c :: l = ([p] ++ (M ++ [c])) ++ l := by
        rw [List.append_assoc, List.append_assoc]
        rfl
      rw [hparts] at hnd
      exact (List.nodup_append.mp hnd).1
    refine ⟨s₁, i, e, hlooked.trans hlooked₁ hall, ?_, ?_, fun fuel => ?_⟩
    · rw [hmail₁, hlooked.pid]
    · rw [hreports, hquiet.reports, hlooked.pid]
    · cases fuel with
      | zero => rfl
      | succ n =>
        rw [exitWalk, ExitState.interlude_nil hmail, Option.bind_some,
          ExitState.interlude_nil (hquiet.mailbox.trans hmail), Option.bind_some, hnext, hrun n, List.length_cons]
        simp only [Nat.succ_lt_succ_iff, Nat.succ_sub_succ]

/-! ### The process is reported at once -/

/-- The state when the walk begins, after the report of the process itself. -/
structure Cleared (t : ProcTable) (L : List Pid) (proc : Pid) (s : ExitState) : Prop where
  chain : Chain s.table.kernel.next s.table.kernel.procList (L.erase proc)
  pid_eq : (s.entry proc).pid = 0
  parent : ∀ q ≠ proc, (s.entry q).parentPid = (t.kernel.procTable q).parentPid
  mailbox : s.mailbox = []
  reports : ∃ r, s.reports = [r] ∧ r.pid = proc
  visited : s.visited = []

theorem memExitProc_waiting (hl : Listed t (a :: l)) (hp : proc ∈ l)
    (hwait : t.kernel.Is (t.kernel.procTable proc).parentPid procStatusWating) :
    (∀ sched s', memExitProc fuel sched proc (.start t) = some s' →
      ∃ s, Cleared t (a :: l) proc s ∧
        exitWalk fuel sched proc fuel s.table.kernel.procList s = some s') ∧
    (l.length < fuel → ∃ s, Cleared t (a :: l) proc s ∧ ∀ sched,
      memExitProc fuel sched proc (.start t) = exitWalk fuel sched proc fuel s.table.kernel.procList s) := by
  set s₁ := ((ExitState.start t).drop (t.kernel.procTable proc).parentPid procStatusWating).sendExitToParent proc
    with hs₁
  have hframe := fun q => (ExitState.start t).drop_frame (t.kernel.procTable proc).parentPid q procStatusWating
  have hpid : (s₁.entry proc).pid = proc := (hframe proc).1.trans (hl.pid_eq proc (List.mem_cons_of_mem a hp))
  have hl₁ : Listed s₁.table (a :: l) := by
    refine ⟨?_, hl.nodup, fun q hq => (hframe q).1.trans (hl.pid_eq q hq), hl.count⟩
    have hnext : s₁.table.kernel.next = t.kernel.next := funext fun q => (hframe q).2.1
    rw [hnext]
    exact hl.chain
  have hmail : s₁.mailbox = [proc] := congrArg (fun x => [x]) hpid
  have hrun : ∀ sched, memExitProc fuel sched proc (.start t) = (s₁.serve fuel).bind fun s =>
      exitWalk fuel sched proc fuel s.table.kernel.procList s := by
    intro sched
    have hwait' : (ExitState.start t).Is ((ExitState.start t).entry proc).parentPid procStatusWating := hwait
    rw [memExitProc]
    simp only [if_pos hwait']
    rfl
  have hcleared : ∀ t₂, ProcTable.exitProc fuel s₁.table proc = some t₂ →
      Cleared t (a :: l) proc { s₁ with table := t₂, mailbox := [] } := by
    intro t₂ ht₂
    obtain ⟨hchain, hdefault, hothers⟩ := exitProc_spec hl₁ hp ht₂
    refine ⟨hchain, congrArg Process.pid hdefault, fun q hq => ?_, rfl, ⟨_, rfl, hpid⟩, rfl⟩
    exact (congrArg Process.parentPid (hothers q hq)).trans (hframe q).2.2.1
  constructor
  · intro sched s' hs'
    rw [hrun, ExitState.serve_one hmail] at hs'
    cases ht₂ : ProcTable.exitProc fuel s₁.table proc with
    | none =>
      rw [ht₂] at hs'
      cases hs'
    | some t₂ =>
      rw [ht₂] at hs'
      exact ⟨_, hcleared t₂ ht₂, hs'⟩
  · intro hfuel
    obtain ⟨t₂, ht₂⟩ := exitProc_returns hl₁ hp hfuel
    refine ⟨_, hcleared t₂ ht₂, fun sched => ?_⟩
    rw [hrun, ExitState.serve_one hmail, ht₂]
    rfl

theorem reparents_of_waiting (hl : Listed t (a :: l)) (hp : proc ∈ l)
    (hwait : t.kernel.Is (t.kernel.procTable proc).parentPid procStatusWating)
    (hnone : ∀ p ∈ a :: l, p ≠ proc → (t.kernel.procTable p).parentPid ≠ proc ∧
      (t.kernel.procTable p).parentPid ≠ 0) : Reparents t (a :: l) proc := by
  intro sched
  have hfuel : ((a :: l).erase proc).length < l.length + 2 :=
    Nat.lt_of_le_of_lt List.length_erase_le (Nat.lt_succ_self _)
  obtain ⟨s, hs, hrun⟩ := (memExitProc_waiting hl hp hwait).2 (show l.length < l.length + 2 by omega)
  have hnd := hl.nodup.erase proc
  have hmem : ∀ q ∈ (a :: l).erase proc, q ≠ proc ∧ q ∈ a :: l := fun q hq => (hl.nodup.mem_erase_iff).mp hq
  have hcalm : ∀ q ∈ (a :: l).erase proc, ¬ Reports 0 q s := by
    intro q hq hr
    obtain ⟨hne, hq⟩ := hmem q hq
    exact (hnone q hq hne).2 ((hs.parent q hne).symm.trans hr.1)
  obtain ⟨s', hwalk, hlooked, hquiet⟩ := exitWalk_still (l.length + 2) sched hs.pid_eq
    (Or.inr ⟨hs.mailbox, hcalm⟩) hs.chain hnd
  have hparent : ∀ q ∈ (a :: l).erase proc, (s'.entry q).parentPid = (t.kernel.procTable q).parentPid := by
    intro q hq
    obtain ⟨hne, hqL⟩ := hmem q hq
    rw [hlooked.parent, hs.parent q hne, if_neg fun h => (hnone q hqL hne).2 h.2]
  refine ⟨l.length + 2, s', (hrun sched).trans ((hwalk _).trans (if_pos hfuel)), (a :: l).erase proc, ?_, ?_, ?_, ?_, ?_, ?_⟩
  · rw [hlooked.next, hlooked.procList]
    exact hs.chain
  · intro q hq
    obtain ⟨hne, hqL⟩ := hmem q hq
    rw [hparent q hq]
    exact (hnone q hqL hne).1
  · intro q hq hchild
    obtain ⟨hne, hqL⟩ := hmem q hq
    exact absurd hchild (hnone q hqL hne).1
  · exact fun q hq _ => hparent q hq
  · exact fun c hc hne hchild => absurd hchild (hnone c hc hne).1
  · intro q hqL hreported
    obtain ⟨r, hr, hpid⟩ := hs.reports
    have hne : q ≠ proc := by
      rintro rfl
      refine hreported r ?_ hpid
      rw [(hquiet hcalm).reports, hr]
      exact List.mem_singleton_self r
    rw [hlooked.visited]
    exact List.mem_append_right _ ((hl.nodup.mem_erase_iff).mpr ⟨hne, hqL⟩)

theorem not_reparents_of_waiting (hl : Listed t (a :: l)) (hp : proc ∈ l) (hne0 : proc ≠ 0)
    (hwait : t.kernel.Is (t.kernel.procTable proc).parentPid procStatusWating) (hq : q ∈ a :: l)
    (hqp : q ≠ proc) (hparent : (t.kernel.procTable q).parentPid = proc ∨ (t.kernel.procTable q).parentPid = 0) :
    ¬ Reparents t (a :: l) proc := by
  intro hall
  obtain ⟨fuel, s', hs', l', hchain, hlist⟩ := hall fun _ => false
  obtain ⟨s, hs, hrun⟩ := (memExitProc_waiting hl hp hwait).1 _ s' hs'
  obtain ⟨s'', hwalk, hlooked, -⟩ := exitWalk_still fuel (fun _ => false) hs.pid_eq
    (Or.inl fun _ => rfl) hs.chain (hl.nodup.erase proc)
  rw [hwalk fuel] at hrun
  obtain rfl : s'' = s' := by
    split at hrun
    · exact Option.some.inj hrun
    · cases hrun
  rw [hlooked.next, hlooked.procList] at hchain
  obtain rfl := hs.chain.unique hchain
  have hmem : q ∈ (a :: l).erase proc := (hl.nodup.mem_erase_iff).mpr ⟨hqp, hq⟩
  have hparent' := hlooked.parent q
  rw [hs.parent q hqp] at hparent'
  rcases hparent with hchild | hzero
  · rw [hchild, if_neg fun h => hne0 h.2] at hparent'
    exact hlist.childless q hmem hparent'
  · rw [hzero, if_pos ⟨hmem, rfl⟩] at hparent'
    have hkept := hlist.others q hmem (hzero ▸ Ne.symm hne0)
    rw [hparent', hzero] at hkept
    exact absurd hkept (by decide)

/-! ### The process waits to be reported -/

/-- The state when the walk begins, with the process hanging. -/
structure Raised (t : ProcTable) (L : List Pid) (proc : Pid) (s : ExitState) : Prop where
  listed : Listed s.table L
  parent : ∀ q, (s.entry q).parentPid = (t.kernel.procTable q).parentPid
  hanging : ∀ q, s.Is q procStatusHanging ↔ t.kernel.Is q procStatusHanging ∨ q = proc
  waiting : ∀ q, s.Is q procStatusWating ↔ t.kernel.Is q procStatusWating
  mailbox : s.mailbox = []
  reports : s.reports = []
  visited : s.visited = []

theorem memExitProc_raised (hl : Listed t L)
    (hwait : ¬ t.kernel.Is (t.kernel.procTable proc).parentPid procStatusWating) :
    ∃ s, Raised t L proc s ∧ ∀ fuel sched, memExitProc fuel sched proc (.start t) =
      exitWalk fuel sched proc fuel s.table.kernel.procList s := by
  have hself : ((ExitState.start t).raise proc procStatusHanging).entry proc =
      { t.kernel.procTable proc with
        status := BitFlags.raise (t.kernel.procTable proc).status procStatusHanging } :=
    ExitState.entry_modProc_self
  have hother : ∀ q ≠ proc, ((ExitState.start t).raise proc procStatusHanging).entry q = t.kernel.procTable q :=
    fun q hq => ExitState.entry_modProc_of_ne hq
  have hkeep : ∀ {β : Type} (g : Process → β), (∀ pr st, g { pr with status := st } = g pr) → ∀ q,
      g (((ExitState.start t).raise proc procStatusHanging).entry q) = g (t.kernel.procTable q) := by
    intro β g hg q
    by_cases hq : q = proc
    · rw [hq, hself, hg]
    · rw [hother q hq]
  have hstatus : ∀ q mask, ((ExitState.start t).raise proc procStatusHanging).Is q mask ↔
      t.kernel.Is q mask ∨ (q = proc ∧ Has procStatusHanging mask) := by
    intro q mask
    show Has (((ExitState.start t).raise proc procStatusHanging).entry q).status mask ↔ _
    by_cases hq : q = proc
    · subst hq
      rw [hself]
      show Has (BitFlags.raise _ _) mask ↔ _
      rw [has_raise_iff]
      exact or_congr_right (iff_and_self.mpr fun _ => rfl)
    · rw [hother q hq, or_iff_left fun h => hq h.1]
      rfl
  have hwait' : ¬ (ExitState.start t).Is ((ExitState.start t).entry proc).parentPid procStatusWating := hwait
  refine ⟨(ExitState.start t).raise proc procStatusHanging, ?_, fun fuel sched => ?_⟩
  · refine ⟨⟨?_, hl.nodup, fun q hq => ?_, hl.count⟩, fun q => ?_, fun q => ?_, fun q => ?_, rfl, rfl, rfl⟩
    · have hnext : ((ExitState.start t).raise proc procStatusHanging).table.kernel.next = t.kernel.next :=
        funext fun q => hkeep Process.next (fun _ _ => rfl) q
      rw [hnext]
      exact hl.chain
    · exact (hkeep Process.pid (fun _ _ => rfl) q).trans (hl.pid_eq q hq)
    · exact hkeep Process.parentPid (fun _ _ => rfl) q
    · rw [hstatus]
      exact or_congr_right (and_iff_left (by decide))
    · rw [hstatus]
      exact or_iff_left fun h => absurd h.2 (by decide)
  · rw [memExitProc]
    simp only [if_neg hwait']
    rw [ExitState.serve_nil rfl]
    rfl

/-- The exit is complete when every process of the new list has got its parent. -/
theorem reparented_of_parent {k : Kernel} {l' : List Pid}
    (hchain : Chain s'.table.kernel.next s'.table.kernel.procList l')
    (hparent : ∀ q ∈ l', (s'.entry q).parentPid =
      if (k.procTable q).parentPid = proc then 1 else (k.procTable q).parentPid)
    (hone : ∀ q ∈ l', (k.procTable q).parentPid = proc → proc ≠ 1)
    (hhanging : ∀ c ∈ L, c ≠ proc → (k.procTable c).parentPid = proc → k.Is c procStatusHanging →
      (c ∈ l' ∧ s'.Is c procStatusHanging) ∨
        (k.Is 1 procStatusWating ∧ ∃ r ∈ s'.reports, r.receiver = 1 ∧ r.pid = c))
    (hvisited : ∀ q ∈ L, q ∈ s'.visited) : Reparented k L proc s' := by
  refine ⟨l', hchain, fun q hq => ?_, fun q hq hchild => ?_, fun q hq hchild => ?_, hhanging, fun q hq _ => hvisited q hq⟩
  · rw [hparent q hq]
    split
    · next hchild => exact (hone q hq hchild).symm
    · next hchild => exact hchild
  · rw [hparent q hq, if_pos hchild]
  · rw [hparent q hq, if_neg hchild]

theorem Raised.reports_iff {s : ExitState} (h : Raised t L proc s) (c : Pid) : Reports proc c s ↔
    (t.kernel.procTable c).parentPid = proc ∧ (t.kernel.Is c procStatusHanging ∨ c = proc) ∧
      t.kernel.Is 1 procStatusWating := by
  rw [Reports, h.parent, h.hanging, h.waiting]

/-- Nobody is reported on the way. -/
theorem reparented_of_calm (hs : Raised t L proc s) (hlooked : Looked proc L s s')
    (hone : (∃ p ∈ L, (t.kernel.procTable p).parentPid = proc) → proc ≠ 1) :
    Reparented t.kernel L proc s' := by
  refine reparented_of_parent (?_ : Chain _ _ L) (fun q hq => ?_) (fun q hq hchild => hone ⟨q, hq, hchild⟩)
    (fun c hc _ _ hhang => Or.inl ⟨hc, ?_⟩) (fun q hq => ?_)
  · rw [hlooked.next, hlooked.procList]
    exact hs.listed.chain
  · rw [hlooked.parent, hs.parent]
    simp only [hq, true_and]
  · rw [hlooked.hanging, hs.hanging]
    exact Or.inl hhang
  · rw [hlooked.visited]
    exact List.mem_append_right _ hq

/-- The last process of the list is reported, and SysTask has taken it out or not. -/
theorem reparented_of_last {l' : List Pid} {e : ℕ} (hs : Raised t L proc s) (hL : L = M ++ [c])
    (hlooked : Looked proc L s s₁) (hreport : Reports proc c s) (hreports : s₁.reports = [⟨1, c, e⟩])
    (hone : (∃ p ∈ L, (t.kernel.procTable p).parentPid = proc) → proc ≠ 1)
    (hchain : Chain s'.table.kernel.next s'.table.kernel.procList l')
    (hmem : ∀ q ∈ l', q ∈ L) (hrest : ∀ q ∈ M, q ∈ l')
    (hentry : ∀ q ∈ l', (s'.entry q).parentPid = (s₁.entry q).parentPid ∧
      (s'.entry q).status = (s₁.entry q).status)
    (hreports' : s'.reports = s₁.reports) (hvisited : s'.visited = s₁.visited) :
    Reparented t.kernel L proc s' := by
  refine reparented_of_parent hchain (fun q hq => ?_) (fun q hq hchild => hone ⟨q, hmem q hq, hchild⟩)
    (fun q hq _ hchild hhang => ?_) (fun q hq => ?_)
  · rw [(hentry q hq).1, hlooked.parent, hs.parent]
    simp only [hmem q hq, true_and]
  · by_cases hqc : q = c
    · refine Or.inr ⟨((hs.reports_iff c).mp hreport).2.2, ⟨1, c, e⟩, ?_, rfl, hqc.symm⟩
      rw [hreports', hreports]
      exact List.mem_singleton_self _
    · have hqM : q ∈ M := by
        rw [hL] at hq
        exact (List.mem_append.mp hq).resolve_right fun h => hqc (List.mem_singleton.mp h)
      refine Or.inl ⟨hrest q hqM, ?_⟩
      rw [ExitState.is_congr (hentry q (hrest q hqM)).2, hlooked.hanging, hs.hanging]
      exact Or.inl hhang
  · rw [hvisited, hlooked.visited]
    exact List.mem_append_right _ hq

theorem reparents_of_raised (hl : Listed t (a :: l)) (hp : proc ∈ l)
    (hwait : ¬ t.kernel.Is (t.kernel.procTable proc).parentPid procStatusWating)
    (hone : (∃ p ∈ a :: l, (t.kernel.procTable p).parentPid = proc) → proc ≠ 1)
    (hlast : t.kernel.Is 1 procStatusWating → ∀ c ∈ a :: l, (t.kernel.procTable c).parentPid = proc →
      t.kernel.Is c procStatusHanging ∨ c = proc → (a :: l).getLast? = some c) :
    Reparents t (a :: l) proc := by
  intro sched
  obtain ⟨s, hs, hrun⟩ := memExitProc_raised hl hwait
  have hv : (s.entry proc).pid = proc := hs.listed.pid_eq proc (List.mem_cons_of_mem a hp)
  by_cases hr : ∃ c ∈ a :: l, Reports proc c s
  · obtain ⟨c, hc, hreport⟩ := hr
    have hlast' : ∀ q ∈ a :: l, Reports proc q s → (a :: l).getLast? = some q := by
      intro q hq hrq
      obtain ⟨hchild, hhang, hinit⟩ := (hs.reports_iff q).mp hrq
      exact hlast hinit q hq hchild hhang
    obtain ⟨M, hM⟩ := List.getLast?_eq_some_iff.mp (hlast' c hc hreport)
    have hnd := hl.nodup
    have hchain := hs.listed.chain
    rw [hM] at hnd hchain
    have hnone : ∀ p ∈ M, ¬ Reports proc p s := by
      intro p hpM hrp
      have hpL : p ∈ a :: l := by
        rw [hM]
        exact List.mem_append_left _ hpM
      have heq : some p = some c := (hlast' p hpL hrp).symm.trans (hlast' c hc hreport)
      exact (List.nodup_append.mp hnd).2.2 p hpM c (List.mem_singleton_self c) (Option.some.inj heq)
    obtain ⟨s₁, i, e, hlooked, hmail, hreports, hwalk⟩ := exitWalk_report (l.length + 2) sched hv hs.mailbox hchain hnd hnone hreport
    have hpid : (s.entry c).pid = c := hs.listed.pid_eq c hc
    rw [hpid] at hmail hreports
    rw [hs.reports, List.nil_append] at hreports
    have hnext : s.table.kernel.next c = none := hchain.suffix.tail.eq_nil_iff.mp rfl
    have hlength : l.length = M.length := by
      have h := congrArg List.length hM
      rw [List.length_cons, List.length_append, List.length_singleton] at h
      exact Nat.succ.inj h
    have hone' : l.length + 2 - (M.length + 1) = 1 := by omega
    have hwalk' := hwalk (l.length + 2)
    rw [if_pos (by omega), hone'] at hwalk'
    rw [← hM] at hlooked
    cases hi : sched i with
    | false =>
      have hnext₁ : (s₁.entry c).next = none := (congrFun hlooked.next c).trans hnext
      rw [hi] at hwalk'
      refine ⟨l.length + 2, s₁, (hrun _ _).trans (hwalk'.trans ?_), ?_⟩
      · show exitWalk _ sched proc 1 (s₁.entry c).next s₁ = some s₁
        rw [hnext₁]
        rfl
      · refine reparented_of_last hs hM hlooked hreport hreports hone (?_ : Chain _ _ (a :: l)) (fun _ => id)
          (fun q hq => ?_) (fun _ _ => ⟨rfl, rfl⟩) rfl rfl
        · rw [hlooked.next, hlooked.procList]
          exact hs.listed.chain
        · rw [hM]
          exact List.mem_append_left _ hq
    | true =>
      have hcl : c ∈ l := by
        have h := hlast' c hc hreport
        cases l with
        | nil => exact absurd hp List.not_mem_nil
        | cons b l =>
          rw [List.getLast?_cons_cons] at h
          exact List.mem_of_getLast? h
      obtain ⟨t₂, ht₂⟩ := exitProc_returns (hlooked.listed hs.listed) hcl (show l.length < l.length + 2 by omega)
      obtain ⟨hchain₂, hdefault, hothers⟩ := exitProc_spec (hlooked.listed hs.listed) hcl ht₂
      have hserve : s₁.serve (l.length + 2) = some { s₁ with table := t₂, mailbox := [] } := by
        rw [ExitState.serve_one hmail, ht₂]
        rfl
      have hmem : ∀ q ∈ (a :: l).erase c, q ≠ c ∧ q ∈ a :: l := fun q hq => (hl.nodup.mem_erase_iff).mp hq
      rw [hi] at hwalk'
      refine ⟨l.length + 2, { s₁ with table := t₂, mailbox := [] }, (hrun _ _).trans (hwalk'.trans ?_), ?_⟩
      · have hnext₂ : (({ s₁ with table := t₂, mailbox := [] } : ExitState).entry c).next = none :=
          congrArg Process.next hdefault
        show (s₁.serve (l.length + 2)).bind _ = _
        rw [hserve, Option.bind_some, hnext₂]
        rfl
      · refine reparented_of_last hs hM hlooked hreport hreports hone hchain₂ (fun q hq => (hmem q hq).2)
          (fun q hq => ?_) (fun q hq => ?_) rfl rfl
        · refine (hl.nodup.mem_erase_iff).mpr ⟨fun he => ?_, ?_⟩
          · exact (List.nodup_append.mp hnd).2.2 q hq c (List.mem_singleton_self c) he
          · rw [hM]
            exact List.mem_append_left _ hq
        · have hkept := hothers q (hmem q hq).1
          constructor
          · show (t₂.kernel.procTable q).parentPid = _
            rw [hkept]
            rfl
          · show (t₂.kernel.procTable q).status = _
            rw [hkept]
            rfl
  · have hnone : ∀ c ∈ a :: l, ¬ Reports proc c s := fun c hc h => hr ⟨c, hc, h⟩
    obtain ⟨s', hwalk, hlooked, -⟩ := exitWalk_still (l.length + 2) sched hv
      (Or.inr ⟨hs.mailbox, hnone⟩) hs.listed.chain hl.nodup
    exact ⟨l.length + 2, s', (hrun _ _).trans ((hwalk _).trans (if_pos (Nat.lt_succ_self _))),
      reparented_of_calm hs hlooked hone⟩

/-- A walk in which SysTask does not run. -/
theorem raised_never (hl : Listed t (a :: l)) (hp : proc ∈ l)
    (hwait : ¬ t.kernel.Is (t.kernel.procTable proc).parentPid procStatusWating)
    (hrun : memExitProc fuel (fun _ => false) proc (.start t) = some s') :
    Chain s'.table.kernel.next s'.table.kernel.procList (a :: l) ∧ ∀ q ∈ a :: l,
      (s'.entry q).parentPid =
        if (t.kernel.procTable q).parentPid = proc then 1 else (t.kernel.procTable q).parentPid := by
  obtain ⟨s, hs, hwalk⟩ := memExitProc_raised hl hwait
  have hv : (s.entry proc).pid = proc := hs.listed.pid_eq proc (List.mem_cons_of_mem a hp)
  obtain ⟨s'', hstill, hlooked, -⟩ := exitWalk_still fuel (fun _ => false) hv
    (Or.inl fun _ => rfl) hs.listed.chain hl.nodup
  rw [hwalk, hstill] at hrun
  obtain rfl : s'' = s' := by
    split at hrun
    · exact Option.some.inj hrun
    · cases hrun
  refine ⟨?_, fun q hq => ?_⟩
  · rw [hlooked.next, hlooked.procList]
    exact hs.listed.chain
  · rw [hlooked.parent, hs.parent]
    simp only [hq, true_and]

theorem not_reparents_one (hl : Listed t (a :: l)) (hp : proc ∈ l)
    (hwait : ¬ t.kernel.Is (t.kernel.procTable proc).parentPid procStatusWating) (hone : proc = 1)
    (hq : q ∈ a :: l) (hchild : (t.kernel.procTable q).parentPid = proc) : ¬ Reparents t (a :: l) proc := by
  intro hall
  obtain ⟨fuel, s', hs', l', hchain, hlist⟩ := hall fun _ => false
  obtain ⟨hchain', hparent⟩ := raised_never hl hp hwait hs'
  obtain rfl := hchain'.unique hchain
  refine hlist.childless q hq ?_
  rw [hparent q hq, if_pos hchild, hone]

/-- The first one of a list. -/
theorem exists_first {P : Pid → Prop} (hex : ∃ c ∈ L, P c) :
    ∃ M c M₂, L = M ++ c :: M₂ ∧ P c ∧ ∀ p ∈ M, ¬ P p := by
  induction L with
  | nil =>
    obtain ⟨c, hc, -⟩ := hex
    exact absurd hc List.not_mem_nil
  | cons b L ih =>
    by_cases hb : P b
    · exact ⟨[], b, L, rfl, hb, fun p hp => absurd hp List.not_mem_nil⟩
    · obtain ⟨c, hc, hPc⟩ := hex
      have hcL : c ∈ L := (List.mem_cons.mp hc).resolve_left fun he => hb (he ▸ hPc)
      obtain ⟨M, d, M₂, rfl, hPd, hnone⟩ := ih ⟨c, hcL, hPc⟩
      exact ⟨b :: M, d, M₂, rfl, hPd, List.forall_mem_cons.mpr ⟨hb, hnone⟩⟩

theorem entry_exitProc (hcall : ProcTable.exitProc fuel t c = some t') :
    t'.kernel.procTable c = default := by
  unfold ProcTable.exitProc at hcall
  obtain ⟨k, -, rfl⟩ := Option.map_eq_some_iff.mp hcall
  show (k.modProc c fun _ => default).procTable c = _
  rw [entry_modProc_self]

theorem not_reparents_early (hl : Listed t (a :: l)) (hp : proc ∈ l)
    (hwait : ¬ t.kernel.Is (t.kernel.procTable proc).parentPid procStatusWating)
    (hinit : t.kernel.Is 1 procStatusWating) (hc : c ∈ a :: l)
    (hchild : (t.kernel.procTable c).parentPid = proc)
    (hhang : t.kernel.Is c procStatusHanging ∨ c = proc) (hlast : (a :: l).getLast? ≠ some c) :
    ¬ Reparents t (a :: l) proc := by
  intro hall
  obtain ⟨fuel, s', hs', l', -, hlist⟩ := hall fun _ => true
  obtain ⟨s, hs, hwalk⟩ := memExitProc_raised hl hwait
  have hv : (s.entry proc).pid = proc := hs.listed.pid_eq proc (List.mem_cons_of_mem a hp)
  obtain ⟨M, d, M₂, hM, hreport, hnone⟩ :=
    exists_first (P := fun c => Reports proc c s) ⟨c, hc, (hs.reports_iff c).mpr ⟨hchild, hhang, hinit⟩⟩
  have hnd := hl.nodup
  have hchain := hs.listed.chain
  have hpid : (s.entry d).pid = d := by
    refine hs.listed.pid_eq d ?_
    rw [hM]
    exact List.mem_append_right _ List.mem_cons_self
  rw [hM] at hnd hchain hlast hc
  cases M₂ with
  | nil =>
    -- the first child that is reported is the last process
    have hcd : c = d := by
      rcases List.mem_append.mp hc with hcM | hcd
      · exact absurd ((hs.reports_iff c).mpr ⟨hchild, hhang, hinit⟩) (hnone c hcM)
      · exact List.mem_singleton.mp hcd
    rw [hcd] at hlast
    exact hlast List.getLast?_concat
  | cons b M₂ =>
    obtain ⟨s₁, i, e, hlooked, hmail, hreports, hrun⟩ := exitWalk_report fuel (fun _ => true) hv hs.mailbox hchain hnd hnone hreport
    rw [hpid] at hmail hreports
    rw [hwalk, hrun] at hs'
    split at hs'
    · have hserve : (s₁.interlude fuel true) = (ProcTable.exitProc fuel s₁.table d).map fun t =>
          { s₁ with table := t, mailbox := [] } := ExitState.serve_one hmail
      rw [hserve] at hs'
      cases ht₂ : ProcTable.exitProc fuel s₁.table d with
      | none =>
        rw [ht₂] at hs'
        cases hs'
      | some t₂ =>
        have hnext : (({ s₁ with table := t₂, mailbox := [] } : ExitState).entry d).next = none :=
          congrArg Process.next (entry_exitProc ht₂)
        rw [ht₂, Option.map_some, Option.bind_some, hnext] at hs'
        have hfinal : { s₁ with table := t₂, mailbox := [] } = s' := by
          cases hfuel : fuel - (M.length + 1) with
          | zero =>
            rw [hfuel] at hs'
            cases hs'
          | succ n =>
            rw [hfuel] at hs'
            exact Option.some.inj hs'
        subst hfinal
        have hdb : ∀ q ∈ M ++ [d], q ≠ b := by
          intro q hq
          have hparts : M ++ d :: b :: M₂ = (M ++ [d]) ++ b :: M₂ := by rw [List.append_assoc]; rfl
          rw [hparts] at hnd
          exact (List.nodup_append.mp hnd).2.2 q hq b List.mem_cons_self
        have hbL : b ∈ a :: l := by
          rw [hM]
          exact List.mem_append_right _ (List.mem_cons_of_mem d List.mem_cons_self)
        have hvisited : b ∈ s₁.visited := by
          refine hlist.visits b hbL fun r hr => ?_
          have hr' : r ∈ s₁.reports := hr
          rw [hreports, hs.reports, List.nil_append] at hr'
          rw [List.mem_singleton.mp hr']
          exact hdb d (List.mem_append_right _ (List.mem_singleton_self d))
        rw [hlooked.visited, hs.visited, List.nil_append] at hvisited
        exact hdb b hvisited rfl
    · cases hs'

/-! ### The condition -/

/-- **When all children of a process that exits get their new parent**, whenever SysTask runs. -/
theorem memExitProc_reparents_iff (t : ProcTable) (l : List Pid) (proc : Pid) (hl : Listed t (0 :: l))
    (hp : proc ∈ l) : Reparents t (0 :: l) proc ↔ Adoptable t.kernel (0 :: l) proc := by
  have hne0 : proc ≠ 0 := fun he => (List.nodup_cons.mp hl.nodup).1 (he ▸ hp)
  rw [Adoptable]
  by_cases hwait : t.kernel.Is (t.kernel.procTable proc).parentPid procStatusWating
  · rw [if_pos hwait]
    refine ⟨fun hall q hq hqp => ?_, fun hnone => reparents_of_waiting hl hp hwait hnone⟩
    by_contra hparent
    refine not_reparents_of_waiting hl hp hne0 hwait hq hqp ?_ hall
    by_contra hno
    exact hparent ⟨fun h => hno (Or.inl h), fun h => hno (Or.inr h)⟩
  · rw [if_neg hwait]
    refine ⟨fun hall => ⟨?_, ?_⟩, fun h => reparents_of_raised hl hp hwait h.1 h.2⟩
    · rintro ⟨q, hq, hchild⟩ hone
      exact not_reparents_one hl hp hwait hone hq hchild hall
    · intro hinit c hc hchild hhang
      by_contra hlast
      exact not_reparents_early hl hp hwait hinit hc hchild hhang hlast hall

/-- Four processes, each the parent of the next one; process 1 has the status `w`. -/
def family (w : BitVec 32) : ProcTable where
  kernel :=
    { procTable p :=
        { (default : Process) with
          pid := p
          parentPid := p - 1
          status := if p = 1 then w else procStatusRunning
          next := if p < 3 then some (p + 1) else none }
      procList := some 0
      procRunning := some 0
      memory _ := default
      vir2phy _ va := va
      interruptSuscribed _ := 0
      interruptSuscribedData _ := default
      exceptionSuscribed _ := 0
      exceptionSuscribedData _ := default
      screen := [] }
  procBitmap := [0xF#32]
  procCount := 4

theorem listed_family (w : BitVec 32) : Listed (family w) (0 :: [1, 2, 3]) where
  chain := Chain.cons (Chain.cons (Chain.cons (Chain.cons Chain.nil)))
  nodup := by decide
  pid_eq _ _ := rfl
  count := rfl

theorem memExitProc_reparents_iff_family :
    Reparents (family procStatusRunning) (0 :: [1, 2, 3]) 2 :=
  (memExitProc_reparents_iff (family procStatusRunning) [1, 2, 3] 2 (listed_family _) (by decide)).mpr
    (by rw [Adoptable, if_neg (by decide)]; decide)

/-- **A waiting parent.**  Its child 2 is reported, and process 3 keeps a parent that is no more. -/
theorem child_of_reported_lost : ¬ Reparents (family procStatusWating) (0 :: [1, 2, 3]) 2 :=
  not_reparents_of_waiting (q := 3) (listed_family _) (by decide) (by decide) (by decide) (by decide) (by decide)
    (Or.inl rfl)

end OmochaOS.Exit
