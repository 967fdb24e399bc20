import OmochaOS.Systask.Replies

/-!
# Requests of unprivileged processes (`modules/systask/systask.c`)

`ALLOC_PROC`, `GET_PROC` and `GET_PROC_LIST_HEAD` are for processes of ring 1, and their checks panic for
others.  Since SysTask comes back from `panic`, the ring of the sender makes no difference; `EXIT_PROC`
does not look at it.  `contained_iff` says which requests leave the other processes alone all the same.
-/

namespace OmochaOS.Systask

open IntrusiveList

variable {env env' : CoreEnv} {msg : Message} {b : Build} {fuel : ℕ} {s : Pid} {r : Served}
  {req : Request}

/-- The entries of the other processes, the bitmap, the list and the count are as they were. -/
structure Untouched (env env' : CoreEnv) (s : Pid) : Prop where
  others : ∀ q, q ≠ s → env'.kernel.procTable q = env.kernel.procTable q
  bitmap : env'.procBitmap = env.procBitmap
  list : env'.kernel.procList = env.kernel.procList
  count : env'.procCount = env.procCount

/-- The requests with a check of the ring that says "NO Permission". -/
def guarded : List Request := [.allocProc, .getProc, .getProcListHead]

/-- No effect, and no pointer for an answer. -/
def Refused (env : CoreEnv) (r : Served) : Prop := r.env = env ∧ ∀ m ∈ r.sent, m.major = 0

/-- SysTask gets to its next `recv_msg`, has left the other processes alone and has refused what the
sender has no permission for. -/
def Contained (b : Build) (env : CoreEnv) (msg : Message) : Prop :=
  ∃ fuel r, serve b fuel env msg = some r ∧ Untouched env r.env msg.sender ∧
    ∀ req ∈ guarded, caseOf msg.type = some req → Refused env r

/-- The condition: there is no process to give out or to answer with, nobody exits, and nothing happens
out of bounds. -/
def Confined (env : CoreEnv) (msg : Message) : Request → Prop
  | .exitProc => False
  | .allocProc => ∀ word ∈ env.procBitmap, word = 0xFFFFFFFF#32
  | .getProc => False
  | .getProcListHead => env.kernel.procList = none
  | req => InBounds env msg req

theorem Confined.inBounds (h : Confined env msg req) : InBounds env msg req := by
  cases req <;> first | exact h | trivial

theorem Untouched.refl (env : CoreEnv) (s : Pid) : Untouched env env s :=
  ⟨fun _ _ => rfl, rfl, rfl, rfl⟩

theorem untouched_modProc (env : CoreEnv) (s : Pid) (f : Process → Process) :
    Untouched env { env with kernel := env.kernel.modProc s f } s :=
  ⟨fun _ hq => ProcTable.entry_modProc_of_ne hq, rfl, rfl, rfl⟩

/-- With a full bitmap nothing is given out. -/
theorem allocProc_full {t : ProcTable} {a : ℕ} (hfull : ∀ word ∈ env.procBitmap, word = 0xFFFFFFFF#32)
    (hcall : ProcTable.allocProc fuel env.toProcTable = some (t, a)) : t = env.toProcTable ∧ a = 0 := by
  rcases ProcTable.allocProc_inv hcall with ⟨-, ht, ha⟩ | ⟨c, k₁, -, -, ⟨word, hword, hne⟩, -⟩
  · exact ⟨ht, ha⟩
  · exact absurd (hfull word hword) hne

theorem Effect.untouched (he : Effect fuel env msg req env') (h : Confined env msg req) :
    Untouched env env' msg.sender := by
  cases he with
  | kept _ => exact Untouched.refl env msg.sender
  | regProc _ _ => exact untouched_modProc env msg.sender _
  | unregProc => exact untouched_modProc env msg.sender _
  | regIntFunc _ => exact ⟨fun _ _ => rfl, rfl, rfl, rfl⟩
  | unregIntFunc _ => exact ⟨fun _ _ => rfl, rfl, rfl, rfl⟩
  | regIntMsg _ => exact ⟨fun _ _ => rfl, rfl, rfl, rfl⟩
  | unregIntMsg _ => exact ⟨fun _ _ => rfl, rfl, rfl, rfl⟩
  | regExcMsg _ => exact ⟨fun _ _ => rfl, rfl, rfl, rfl⟩
  | unregExcMsg _ => exact ⟨fun _ _ => rfl, rfl, rfl, rfl⟩
  | switchPrivRing3 => exact untouched_modProc env msg.sender _
  | switchPrivRing1 => exact untouched_modProc env msg.sender _
  | allocProc hcall =>
    obtain ⟨rfl, -⟩ := allocProc_full h hcall
    exact Untouched.refl env msg.sender
  | exitProc _ => exact h.elim

/-- The count of a process less is another one. -/
theorem exitProc_count (hcall : exitProc fuel env s = some env') : env'.procCount ≠ env.procCount := by
  obtain ⟨-, t, -, rfl⟩ := exitProc_eq_some hcall
  show (env.procCount + (2 ^ 32 - 1)) % 2 ^ 32 ≠ env.procCount
  omega

/-- What is refused has not been let through. -/
theorem confined_of_refused (hr : serveCase b fuel env msg req = some r) (hg : req ∈ guarded)
    (hrefused : Refused env r) : Confined env msg req := by
  obtain ⟨henv, hmajor⟩ := hrefused
  cases req with
  | allocProc =>
    simp only [serveCase, allocProc, panicIf_eq, Option.bind_some] at hr
    obtain ⟨⟨t, a⟩, hcall, rfl⟩ := Option.map_eq_some_iff.mp hr
    rcases ProcTable.allocProc_inv hcall with ⟨hfull, -⟩ | ⟨c, k₁, -, -, -, rfl, -⟩
    · exact hfull
    · have hzero : procAddr c = 0 := hmajor _ List.mem_cons_self
      cases hzero
  | getProc =>
    obtain ⟨x, -, rfl⟩ := Option.map_eq_some_iff.mp hr
    have hzero : procAddr msg.major = 0 := hmajor _ List.mem_cons_self
    cases hzero
  | getProcListHead =>
    obtain ⟨x, -, rfl⟩ := Option.map_eq_some_iff.mp hr
    have hzero : ptrOf env.kernel.procList = 0 := hmajor _ List.mem_cons_self
    show env.kernel.procList = none
    cases hlist : env.kernel.procList with
    | none => rfl
    | some p =>
      rw [hlist] at hzero
      cases hzero
  | _ => simp [guarded] at hg

theorem refused_of_confined (hr : serveCase b fuel env msg req = some r) (hg : req ∈ guarded)
    (h : Confined env msg req) : Refused env r := by
  cases req with
  | allocProc =>
    simp only [serveCase, allocProc, panicIf_eq, Option.bind_some] at hr
    obtain ⟨⟨t, a⟩, hcall, rfl⟩ := Option.map_eq_some_iff.mp hr
    obtain ⟨rfl, rfl⟩ := allocProc_full h hcall
    refine ⟨rfl, fun m hm => ?_⟩
    obtain rfl := List.mem_singleton.mp hm
    rfl
  | getProc => exact h.elim
  | getProcListHead =>
    obtain ⟨x, -, rfl⟩ := Option.map_eq_some_iff.mp hr
    refine ⟨rfl, fun m hm => ?_⟩
    obtain rfl := List.mem_singleton.mp hm
    show ptrOf env.kernel.procList = 0
    rw [show env.kernel.procList = none from h]
    rfl
  | _ => simp [guarded] at hg

/-- **Requests and other processes.**  In both builds, a request of any process is contained just when
it is confined. -/
theorem contained_iff (h : ListEnds env) (b : Build) (msg : Message) :
    Contained b env msg ↔ ∀ req, caseOf msg.type = some req → Confined env msg req := by
  constructor
  · rintro ⟨fuel, r, hr, huntouched, hrefused⟩ req hreq
    rw [serve_eq hreq] at hr
    by_cases hg : req ∈ guarded
    · exact confined_of_refused hr hg (hrefused req hg hreq)
    · by_cases hexit : req = .exitProc
      · subst hexit
        obtain ⟨env', hcall, rfl⟩ := Option.map_eq_some_iff.mp hr
        exact absurd huntouched.count (exitProc_count hcall)
      · have hbounds := (comes_iff (b := b) h hexit).mp ⟨fuel, r, hr⟩
        cases req <;> first | exact hbounds | exact absurd rfl hexit | simp [guarded] at hg
  · intro hconf
    cases hreq : caseOf msg.type with
    | none =>
      refine ⟨0, ⟨env, [], []⟩, by rw [serve, hreq], Untouched.refl env msg.sender, fun req _ he => ?_⟩
      rw [hreq] at he
      cases he
    | some req =>
      have hc := hconf req hreq
      have hexit : req ≠ .exitProc := by
        rintro rfl
        exact hc
      obtain ⟨fuel, r, hr⟩ := (comes_iff (b := b) h hexit).mpr hc.inBounds
      refine ⟨fuel, r, (serve_eq hreq).trans hr, (serveCase_effect hr).untouched hc,
        fun req' hg he => ?_⟩
      rw [hreq] at he
      obtain rfl := Option.some.inj he
      exact refused_of_confined hr hg hc

theorem contained_iff_demo : Contained .debug demoEnv (demoRequest 1 .peekMsg 0) := by
  refine (contained_iff demoEnv_listEnds .debug _).mpr fun req hreq => ?_
  rw [caseOf_demoRequest] at hreq
  obtain rfl := Option.some.inj hreq
  trivial

/-- `init`, which runs in ring 3, ends another process, in both builds. -/
theorem init_exits_another : ringOf demoEnv 1 = 3 ∧
    ∀ b, ¬ Contained b demoEnv (demoRequest 1 .exitProc 5) := by
  refine ⟨by decide +kernel, ?_⟩
  rintro b ⟨fuel, r, hr, huntouched, -⟩
  rw [serve_eq (caseOf_demoRequest 1 .exitProc 5)] at hr
  obtain ⟨env', hcall, rfl⟩ := Option.map_eq_some_iff.mp hr
  exact exitProc_count hcall huntouched.count

end OmochaOS.Systask
