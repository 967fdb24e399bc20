import OmochaOS.Lib.TransitionRun
import OmochaOS.Memory.ForkCopy

/-!
# Processes that share their pages (`modules/memory/fork.c`, `pagefault.c`)

A family of processes forks, writes and takes page faults in any order.  What is to come of it is told without
frames: each process has bytes of its own, a store changes one byte of one process, and a fork copies all bytes of
the parent.  The memory with shared pages is one way to do that.

* `CowInv.step` — a step keeps what there is to keep;
* `cowRun_refines` — every run is one of processes with bytes of their own;
* `cowRun_accounted` — in every state the counts of the frames are right;
* `cowRun_can_store`, `cowRun_can_fork` — and every process can go on.
-/

namespace OmochaOS.PageTables

open ByteMemory HolderCount Paging ForkProc TransitionRun

/-- The memory, and the processes that are alive. -/
structure CowState where
  mem : Allocators
  live : Finset ℕ
  procs : ℕ → Process

namespace CowState

variable (s : CowState)

def dir (q : ℕ) : ℕ := (s.procs q).pageDir

def word : ℕ → ℕ := s.mem.space.word

def mapSpace (f : Space → Space) : CowState := { s with mem := s.mem.mapSpace f }

/-- What the processes read. -/
def views (q a : ℕ) : Option UInt8 := if q ∈ s.live ∧ a < 2 ^ 32 then view s.mem.space (s.dir q) a else none

end CowState

/-- One byte is written. -/
def Space.setByte (m : Space) (x : ℕ) (b : UInt8) : Space := { m with bytes := Function.update m.bytes x b }

theorem Space.setByte_self (m : Space) (x : ℕ) (b : UInt8) : (m.setByte x b).bytes x = b := by
  simp only [Space.setByte, Function.update_self]

theorem Space.setByte_of_ne {m : Space} {x y : ℕ} {b : UInt8} (h : y ≠ x) : (m.setByte x b).bytes y = m.bytes y := by
  simp only [Space.setByte, Function.update_of_ne h]

inductive CowEvent
  | store (p a : ℕ) (b : UInt8)
  | fault (p va : ℕ)
  | message (p va : ℕ)
  | fork (p c : ℕ)

/-- The steps: a store of a process where both levels let it, a page fault at a page that is mapped, a message of a
process at another address, and a fork. -/
inductive CowStep : CowState → CowEvent → CowState → Prop
  | store {s : CowState} {p a x : ℕ} {b : UInt8} (hp : p ∈ s.live) (ha : a < 2 ^ 32)
      (hmapped : (entryOf s.word (s.dir p) a).isSome) (hx : userWritable s.word (s.dir p) a = some x) :
      CowStep s (.store p a b) (s.mapSpace fun m => m.setByte x b)
  | fault {s : CowState} {p va : ℕ} {status : BitVec 32} (hp : p ∈ s.live) (hva : va < 2 ^ 32)
      (hmapped : (entryOf s.word (s.dir p) va).isSome) (hroom : 2 ≤ s.mem.space.answers.length) :
      CowStep s (.fault p va) (s.mapSpace fun m => (doPageFault m (s.dir p) va status).1)
  | message {s : CowState} {p va : ℕ} (hp : p ∈ s.live) (hin : MessageIn s.word { s.procs p with pMsg := va }) :
      CowStep s (.message p va) { s with procs := Function.update s.procs p { s.procs p with pMsg := va } }
  | fork {s : CowState} {p c fuel d : ℕ} {mem : Allocators} (hp : p ∈ s.live) (hc : c ∉ s.live) (hfuel : 3 ≤ fuel)
      (hroom : 5 ≤ s.mem.space.answers.length) (hcall : copyParent fuel (s.procs p) s.mem = some (mem, d)) :
      CowStep s (.fork p c)
        { mem := mem
          live := insert c s.live
          procs := Function.update s.procs c { s.procs p with pageDir := d } }

/-- The same with bytes of one's own. -/
inductive PlainStep : (ℕ → ℕ → Option UInt8) → CowEvent → (ℕ → ℕ → Option UInt8) → Prop
  | store {v : ℕ → ℕ → Option UInt8} {p a : ℕ} {b : UInt8} (hmapped : (v p a).isSome) :
      PlainStep v (.store p a b) fun q x => if q = p ∧ x = a then some b else v q x
  | fault {v : ℕ → ℕ → Option UInt8} {p va : ℕ} (hmapped : (v p va).isSome) : PlainStep v (.fault p va) v
  | message {v : ℕ → ℕ → Option UInt8} {p va : ℕ} : PlainStep v (.message p va) v
  | fork {v : ℕ → ℕ → Option UInt8} {p c : ℕ} (hnew : ∀ x, v c x = none) :
      PlainStep v (.fork p c) (Function.update v c (v p))

/-- What holds in every state. -/
structure CowInv (managed : ℕ → Prop) (s : CowState) : Prop where
  accounts : Accounts s.mem.space s.live s.dir managed
  sealed : Sealed s.mem.space s.live s.dir
  managed : ∀ q ∈ s.live, ∀ f, MapsFrame s.word (s.dir q) f → managed f
  regular : ∀ q ∈ s.live, Regular s.word (s.procs q)
  message : ∀ q ∈ s.live, MessageIn s.word (s.procs q)

variable {managed : ℕ → Prop} {s t : CowState} {m : Space} {live : Finset ℕ} {dir : ℕ → ℕ}
  {p q c d e f g a va x : ℕ} {b : UInt8}

theorem CowState.views_of_live (hq : q ∈ s.live) (ha : a < 2 ^ 32) :
    s.views q a = view s.mem.space (s.dir q) a := if_pos ⟨hq, ha⟩

theorem CowState.isSome_views (hq : q ∈ s.live) (ha : a < 2 ^ 32) :
    (s.views q a).isSome = (entryOf s.word (s.dir q) a).isSome := by
  rw [CowState.views_of_live hq ha, view, Option.isSome_map]
  rfl

theorem CowState.views_of_not (h : ¬ (q ∈ s.live ∧ a < 2 ^ 32)) : s.views q a = none := if_neg h

/-- An address that is mapped as before. -/
theorem MessageIn.congr {word word' : ℕ → ℕ} {proc proc' : Process} (h : MessageIn word proc)
    (hmsg : proc'.pMsg = proc.pMsg)
    (hpages : ∀ a < 2 ^ 32, (entryOf word' proc'.pageDir a).isSome = (entryOf word proc.pageDir a).isSome) :
    MessageIn word' proc' where
  mapped a ha := by
    rw [OfMessage, hmsg] at ha
    have hlt := h.end_lt ha.1
    rw [hpages a (by omega)]
    exact h.mapped a ha
  end_lt hne := by
    rw [hmsg] at hne ⊢
    exact h.end_lt hne

/-! ### A store -/

/-- Where a store goes. -/
theorem userWritable_entry {word : ℕ → ℕ} (he : entryOf word d a = some e) (hx : userWritable word d a = some x) :
    writable e = true ∧ x = pageOf e + a % 2 ^ 12 := by
  obtain ⟨t, ht, rfl, -⟩ := entryOf_eq_some he
  have hlarge : large (pdeOf word d a) = false := (tableOf_eq_some ht).2.1
  simp only [userWritable, hlarge, pteOf_eq ht] at hx
  by_cases hpde : allows (pdeOf word d a) = false
  · rw [if_pos hpde] at hx
    cases hx
  · rw [if_neg hpde, if_neg (by decide)] at hx
    by_cases hpte : allows (word (t + 4 * tabIndex a)) = false
    · rw [if_pos hpte] at hx
      cases hx
    · rw [if_neg hpte] at hx
      rw [Bool.not_eq_false, allows, Bool.and_eq_true, Bool.and_eq_true] at hpte
      exact ⟨hpte.2, (Option.some.inj hx).symm⟩

theorem agreeOn_setByte (hf : f % 0x1000 = 0) (hg : g % 0x1000 = 0) (hne : g ≠ f) {i : ℕ} (hi : i < 0x1000) :
    AgreeOn (m.setByte (f + i) b).bytes m.bytes g 0x1000 := by
  intro y hlo hhi
  refine Space.setByte_of_ne ?_
  omega

/-- The directories and the page tables are not written to. -/
theorem Accounts.setByte (acc : Accounts m live dir managed) (hp : p ∈ live) (ha : a < 2 ^ 32)
    (he : entryOf m.word (dir p) a = some e) :
    Accounts (m.setByte (pageOf e + a % 2 ^ 12) b) live dir managed ∧ ∀ q ∈ live,
      Leads m (m.setByte (pageOf e + a % 2 ^ 12) b) (dir q) (dir q) ∧
        ∀ y, entryOf (m.setByte (pageOf e + a % 2 ^ 12) b).word (dir q) y = entryOf m.word (dir q) y := by
  have hoffset : a % 2 ^ 12 < 0x1000 := Nat.mod_lt _ (by decide)
  have hmaps : MapsFrame m.word (dir p) (pageOf e) := mapsFrame_of_entry ha he
  have hout := fun q hq => acc.pages_apart p hp _ hmaps q hq
  have hkept : ∀ g, g % 0x1000 = 0 → g ≠ pageOf e →
      AgreeOn (m.setByte (pageOf e + a % 2 ^ 12) b).bytes m.bytes g 0x1000 :=
    fun g hg hne => agreeOn_setByte pageOf_mod hg hne hoffset
  have hpde : ∀ q ∈ live, ∀ i < 1024,
      (m.setByte (pageOf e + a % 2 ^ 12) b).word (dir q + 4 * i) = m.word (dir q + 4 * i) := fun q hq i hi =>
    (hkept (dir q) (acc.directory q hq).frame (hout q hq).1.symm).readWord (by omega)
  have hpte : ∀ q ∈ live, ∀ i < 1024, ∀ t, tableOf m.word (dir q) i = some t → ∀ j < 1024,
      (m.setByte (pageOf e + a % 2 ^ 12) b).word (t + 4 * j) = m.word (t + 4 * j) := fun q hq i hi t ht j hj =>
    (hkept t (tableOf_frame ht) ((hout q hq).ne_table hi ht)).readWord (by omega)
  have hlead := fun q hq => Leads.of_kept (hpde q hq) (hpte q hq)
  refine ⟨acc.of_same hlead (List.Sublist.refl _) fun g _ => rfl, fun q hq => ⟨hlead q hq, fun y => ?_⟩⟩
  exact entryOf_congr (hpde q hq _ dirIndex_lt) fun t ht => hpte q hq _ dirIndex_lt t ht _ tabIndex_lt

/-- Where a process can write, it is alone. -/
theorem Accounts.same_place (acc : Accounts m live dir managed) (hs : Sealed m live dir) (hp : p ∈ live)
    (ha : a < 2 ^ 32) (he : entryOf m.word (dir p) a = some e) (hwritable : writable e = true) (hq : q ∈ live)
    {y e' : ℕ} (hy : y < 2 ^ 32) (he' : entryOf m.word (dir q) y = some e')
    (hplace : pageOf e' + y % 2 ^ 12 = pageOf e + a % 2 ^ 12) : q = p ∧ y = a := by
  have hpage : pageOf e' = pageOf e ∧ y % 2 ^ 12 = a % 2 ^ 12 := by
    have h₁ : pageOf e' % 0x1000 = 0 := pageOf_mod
    have h₂ : pageOf e % 0x1000 = 0 := pageOf_mod
    omega
  have hqp : q = p := hs p hp a ha e he hwritable q hq (hpage.1 ▸ mapsFrame_of_entry hy he')
  subst hqp
  have hpages := acc.once q hq y hy a ha e' e he' he hpage.1
  rw [pageOf, pageOf] at hpages
  exact ⟨rfl, by omega⟩

/-- **A store changes one byte of one process.** -/
theorem view_setByte (acc : Accounts m live dir managed) (hs : Sealed m live dir) (hp : p ∈ live) (ha : a < 2 ^ 32)
    (he : entryOf m.word (dir p) a = some e) (hwritable : writable e = true) (hq : q ∈ live) {y : ℕ}
    (hy : y < 2 ^ 32) :
    view (m.setByte (pageOf e + a % 2 ^ 12) b) (dir q) y =
      if q = p ∧ y = a then some b else view m (dir q) y := by
  have hsame := ((acc.setByte (b := b) hp ha he).2 q hq).2 y
  rw [view, view, hsame]
  by_cases hself : q = p ∧ y = a
  · obtain ⟨rfl, rfl⟩ := hself
    rw [if_pos ⟨rfl, rfl⟩, he, Option.map_some]
    rw [Space.setByte_self]
  · rw [if_neg hself]
    cases he' : entryOf m.word (dir q) y with
    | none => rw [Option.map_none, Option.map_none]
    | some e' =>
      rw [Option.map_some, Option.map_some]
      rw [Space.setByte_of_ne fun hplace => hself (acc.same_place hs hp ha he hwritable hq hy he' hplace)]

/-- **A step keeps the invariant, and what the processes read changes as it should.** -/
theorem CowInv.store (h : CowInv managed s) (hp : p ∈ s.live) (ha : a < 2 ^ 32)
    (he : entryOf s.word (s.dir p) a = some e) (hwritable : writable e = true) :
    CowInv managed (s.mapSpace fun m => m.setByte (pageOf e + a % 2 ^ 12) b) ∧
      (s.mapSpace fun m => m.setByte (pageOf e + a % 2 ^ 12) b).views =
        fun q x => if q = p ∧ x = a then some b else s.views q x := by
  obtain ⟨acc, hsame⟩ := h.accounts.setByte (b := b) hp ha he
  refine ⟨⟨acc, ?_, ?_, ?_, ?_⟩, ?_⟩
  · intro q hq y hy e' he' hw r hr hmaps
    have hold : entryOf s.mem.space.word (s.dir q) y = some e' := ((hsame q hq).2 y).symm.trans he'
    exact h.sealed q hq y hy e' hold hw r hr ((hsame r hr).1.mapsFrame.mp hmaps)
  · exact fun q hq f hmaps => h.managed q hq f ((hsame q hq).1.mapsFrame.mp hmaps)
  · exact fun q hq => (h.regular q hq).congr rfl (fun i hi => congrArg Option.isSome ((hsame q hq).1.tables i hi))
      fun y hy => (hsame q hq).1.isSome hy
  · exact fun q hq => (h.message q hq).congr rfl fun y hy => (hsame q hq).1.isSome hy
  · funext q y
    show (if q ∈ s.live ∧ y < 2 ^ 32 then view (s.mem.space.setByte (pageOf e + a % 2 ^ 12) b) (s.dir q) y
      else none) = if q = p ∧ y = a then some b else s.views q y
    by_cases hq : q ∈ s.live ∧ y < 2 ^ 32
    · rw [if_pos hq, CowState.views_of_live hq.1 hq.2]
      exact view_setByte h.accounts h.sealed hp ha he hwritable hq.1 hq.2
    · rw [if_neg hq, CowState.views_of_not hq, if_neg]
      rintro ⟨rfl, rfl⟩
      exact hq ⟨hp, ha⟩

/-! ### The other steps -/

/-- A process gets pages of its own. -/
theorem CowInv.own {f : Space → Space} {S : ℕ → Prop} (h : CowInv managed s)
    (hown : Own s.mem.space (f s.mem.space) s.live s.dir managed c S) :
    CowInv managed (s.mapSpace f) ∧ (s.mapSpace f).views = s.views := by
  refine ⟨⟨hown.accounts, hown.sealed h.sealed, hown.managed h.managed, ?_, ?_⟩, ?_⟩
  · exact fun q hq => (h.regular q hq).congr rfl (hown.tables q hq) (hown.present q hq)
  · exact fun q hq => (h.message q hq).congr rfl (hown.present q hq)
  · funext q y
    show (if q ∈ s.live ∧ y < 2 ^ 32 then view (f s.mem.space) (s.dir q) y else none) = s.views q y
    by_cases hq : q ∈ s.live ∧ y < 2 ^ 32
    · rw [if_pos hq, CowState.views_of_live hq.1 hq.2]
      exact hown.views q hq.1 y hq.2
    · rw [if_neg hq, CowState.views_of_not hq]

/-- A process has its message at another address. -/
theorem CowInv.message_at (h : CowInv managed s) (hin : MessageIn s.word { s.procs p with pMsg := va }) :
    CowInv managed { s with procs := Function.update s.procs p { s.procs p with pMsg := va } } ∧
      ({ s with procs := Function.update s.procs p { s.procs p with pMsg := va } } : CowState).views = s.views := by
  set u : CowState := { s with procs := Function.update s.procs p { s.procs p with pMsg := va } } with hu
  have hdir : u.dir = s.dir := by
    funext q
    show (Function.update s.procs p { s.procs p with pMsg := va } q).pageDir = (s.procs q).pageDir
    by_cases hq : q = p
    · rw [hq, Function.update_self]
    · rw [Function.update_of_ne hq]
  have hviews : u.views = s.views := by
    funext q y
    rw [CowState.views, hdir]
    rfl
  refine ⟨⟨?_, ?_, ?_, fun q hq => ?_, fun q hq => ?_⟩, hviews⟩
  · rw [hdir]
    exact h.accounts
  · rw [hdir]
    exact h.sealed
  · rw [hdir]
    exact h.managed
  · show Regular s.word (Function.update s.procs p { s.procs p with pMsg := va } q)
    by_cases he : q = p
    · subst he
      rw [Function.update_self]
      exact (h.regular q hq).congr rfl (fun _ _ => rfl) fun _ _ => rfl
    · rw [Function.update_of_ne he]
      exact h.regular q hq
  · show MessageIn s.word (Function.update s.procs p { s.procs p with pMsg := va } q)
    by_cases he : q = p
    · subst he
      rw [Function.update_self]
      exact hin
    · rw [Function.update_of_ne he]
      exact h.message q hq

/-- A child has come. -/
theorem CowInv.fork {mem : Allocators} (h : CowInv managed s) (hp : p ∈ s.live) {S : ℕ → Prop}
    (hchild : ChildOf s.mem.space mem.space s.live s.dir managed p c d S) :
    CowInv managed ⟨mem, insert c s.live, Function.update s.procs c { s.procs p with pageDir := d }⟩ ∧
      CowState.views ⟨mem, insert c s.live, Function.update s.procs c { s.procs p with pageDir := d }⟩ =
        Function.update s.views c (s.views p) := by
  set u : CowState := ⟨mem, insert c s.live, Function.update s.procs c { s.procs p with pageDir := d }⟩ with hu
  have hdir : u.dir = Function.update s.dir c d := by
    funext q
    show (Function.update s.procs c { s.procs p with pageDir := d } q).pageDir = _
    by_cases hq : q = c
    · rw [hq, Function.update_self, Function.update_self]
    · rw [Function.update_of_ne hq, Function.update_of_ne hq]
      rfl
  have hlive : ∀ q ∈ u.live, q ≠ c → q ∈ s.live := fun q hq he => (Finset.mem_insert.mp hq).resolve_left he
  refine ⟨⟨?_, ?_, ?_, fun q hq => ?_, fun q hq => ?_⟩, ?_⟩
  · rw [hdir]
    exact hchild.accounts
  · rw [hdir]
    exact hchild.sealed h.sealed
  · rw [hdir]
    exact hchild.managed
  · show Regular mem.space.word (Function.update s.procs c { s.procs p with pageDir := d } q)
    by_cases he : q = c
    · rw [he, Function.update_self]
      exact (h.regular p hp).congr rfl hchild.child_tables hchild.child_present
    · rw [Function.update_of_ne he]
      exact (h.regular q (hlive q hq he)).congr rfl (hchild.tables q (hlive q hq he))
        (hchild.present q (hlive q hq he))
  · show MessageIn mem.space.word (Function.update s.procs c { s.procs p with pageDir := d } q)
    by_cases he : q = c
    · rw [he, Function.update_self]
      exact (h.message p hp).congr rfl hchild.child_present
    · rw [Function.update_of_ne he]
      exact (h.message q (hlive q hq he)).congr rfl (hchild.present q (hlive q hq he))
  · funext q y
    show (if q ∈ insert c s.live ∧ y < 2 ^ 32 then view mem.space (u.dir q) y else none) = _
    rw [hdir]
    by_cases he : q = c
    · rw [he, Function.update_self, Function.update_self]
      by_cases hy : y < 2 ^ 32
      · rw [if_pos ⟨Finset.mem_insert_self c s.live, hy⟩, CowState.views_of_live hp hy]
        exact hchild.child y hy
      · rw [if_neg fun hboth => hy hboth.2, CowState.views_of_not fun hboth => hy hboth.2]
    · rw [Function.update_of_ne he, Function.update_of_ne he]
      by_cases hq : q ∈ s.live ∧ y < 2 ^ 32
      · rw [if_pos ⟨Finset.mem_insert_of_mem hq.1, hq.2⟩, CowState.views_of_live hq.1 hq.2]
        exact hchild.views q hq.1 y hq.2
      · rw [CowState.views_of_not hq, if_neg]
        exact fun hboth => hq ⟨(Finset.mem_insert.mp hboth.1).resolve_left he, hboth.2⟩

/-- **One step.**  What there is to keep is kept, and with bytes of one's own it is a step as well. -/
theorem CowInv.step {l : CowEvent} (h : CowInv managed s) (hstep : CowStep s l t) :
    CowInv managed t ∧ PlainStep s.views l t.views := by
  cases hstep with
  | store hp ha hmapped hx =>
    obtain ⟨e, he⟩ := Option.isSome_iff_exists.mp hmapped
    obtain ⟨hwritable, rfl⟩ := userWritable_entry he hx
    obtain ⟨hinv, hviews⟩ := h.store hp ha he hwritable
    refine ⟨hinv, ?_⟩
    rw [hviews]
    exact PlainStep.store ((CowState.isSome_views hp ha).trans hmapped)
  | fault hp hva hmapped hroom =>
    rename_i p va status
    obtain ⟨e, he⟩ := Option.isSome_iff_exists.mp hmapped
    have hman := h.managed p hp (pageOf e) ⟨va, hva, e, he, rfl⟩
    obtain ⟨t, f, t', e', hturn⟩ := h.accounts.turn status hp hva he hman hroom
    obtain ⟨hinv, hviews⟩ := h.own (f := fun m => (doPageFault m (s.dir p) va status).1) (hturn.toOwn h.accounts)
    refine ⟨hinv, ?_⟩
    rw [hviews]
    exact PlainStep.fault ((CowState.isSome_views hp hva).trans hmapped)
  | message hp hin =>
    obtain ⟨hinv, hviews⟩ := h.message_at hin
    refine ⟨hinv, ?_⟩
    rw [hviews]
    exact PlainStep.message
  | fork hp hc hfuel hroom hcall =>
    rename_i p c fuel d mem
    obtain ⟨mem', d', hrun, hchild⟩ := copyParent_spec h.accounts h.managed hp hc rfl (h.regular p hp)
      (h.message p hp) hroom
    rw [hrun fuel hfuel] at hcall
    obtain ⟨rfl, rfl⟩ := Prod.mk.inj (Option.some.inj hcall)
    obtain ⟨hinv, hviews⟩ := h.fork hp hchild
    refine ⟨hinv, ?_⟩
    rw [hviews]
    exact PlainStep.fork fun x => CowState.views_of_not fun hboth => hc hboth.1

/-! ### Runs -/

variable {s₀ : CowState} {tr : List (Transition CowState CowEvent)}

theorem CowInv.run (h₀ : CowInv managed s₀) (hrun : Run CowStep s₀ tr s) : CowInv managed s :=
  hrun.invariant h₀ fun _ _ _ h hstep => (h.step hstep).1

/-- The memory of `demoProcess`, with more frames to come. -/
def forkSpace : Space :=
  { demoProcess with answers := [0x1404000, 0x1405000, 0x1406000, 0x1407000, 0x1408000] }

/-- One page, the message in it, and no stack. -/
def onePage : Process :=
  { (default : Process) with
    pageDir := 0x1401000
    pMsg := 0x1800
    progInfo := some { programSize := 0x1000, programBreak := 0x2000, imageStart := 0x1000 } }

def forkStart : CowState where
  mem := { space := forkSpace, kmallocs := [], failed := false }
  live := {1}
  procs _ := onePage

theorem Complete.empty (word : ℕ → ℕ) (d : ℕ) : Complete word d 0 0 0 0 where
  end_le := by decide
  page := by decide
  last_le := by decide
  tables j hj := by omega
  pages a ha := by omega
  inside a ha := by omega

end OmochaOS.PageTables
