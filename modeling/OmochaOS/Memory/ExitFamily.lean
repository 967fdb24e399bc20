import Mathlib.Algebra.Order.Group.Multiset
import Mathlib.Data.Finset.Card
import OmochaOS.Memory.ExitProc

/-!
# A family of processes and its accounts

What forks, exits and waits are about, without the process table: who is there, whose child he is, who hangs
with which exit status, who waits, who has been reported and is about to be cleared.  `Accounts` is what was
asked for, and `Even` says that it is even with what was reported:

* what was exited with is what was reported and what hangs, each once;
* a process has waited as often as it was answered, and once more while it waits;
* a report goes to the process that forked or to process 1, and no process waits while a child of it hangs.

Each operation keeps this.  A step of the kernel may need two of them, and in between there may be a process
whose parent still waits: that is what the set `x` is for.
-/

namespace OmochaOS.Exit

variable {x y : Pid → Prop} {c p q r : Pid} {n : ℕ}

@[ext] structure Family where
  live : Finset Pid
  parent : Pid → Pid
  exitStatus : Pid → ℕ
  hanging : Pid → Bool
  waiting : Pid → Bool
  /-- reported, and not yet cleared -/
  leaving : List Pid
  reports : List Report

/-- An exit: who, with what status, and by whom it had been forked. -/
structure ExitRecord where
  pid : Pid
  exitStatus : ℕ
  forker : Pid

structure Accounts where
  exits : List ExitRecord
  waits : List Pid
  refusals : List Pid
  forker : Pid → Pid

namespace Family

variable (F : Family)

/-- Who hangs and has not been reported. -/
def unreportedSet : Finset Pid := F.live.filter fun p => F.hanging p = true ∧ p ∉ F.leaving

/-- What hangs and has not been reported. -/
def unreported : Multiset (Pid × ℕ) := F.unreportedSet.val.map fun p => (p, F.exitStatus p)

/-- What has been reported. -/
def reported : Multiset (Pid × ℕ) := (F.reports.map fun r => (r.pid, r.exitStatus) : List (Pid × ℕ))

/-- How many reports `p` has got. -/
def answered (p : Pid) : ℕ := (F.reports.filter fun r => r.receiver = p).length

/-- The entry of a reported process is cleared. -/
def clear (c : Pid) : Family :=
  { F with
    live := F.live.erase c
    parent := Function.update F.parent c 0
    exitStatus := Function.update F.exitStatus c 0
    hanging := Function.update F.hanging c false
    waiting := Function.update F.waiting c false
    leaving := F.leaving.tail }

/-- `p` exits. -/
def mark (p : Pid) (n : ℕ) : Family :=
  { F with
    exitStatus := Function.update F.exitStatus p n
    hanging := Function.update F.hanging p true
    waiting := Function.update F.waiting p false }

/-- `p` becomes a child of process 1. -/
def adopt (p : Pid) : Family := { F with parent := Function.update F.parent p 1 }

/-- `p` waits for a child. -/
def await (p : Pid) : Family := { F with waiting := Function.update F.waiting p true }

/-- `p` is reported to its parent, which waits no longer. -/
def answer (p : Pid) : Family :=
  { F with
    waiting := Function.update F.waiting (F.parent p) false
    leaving := F.leaving ++ [p]
    reports := F.reports ++ [⟨F.parent p, p, F.exitStatus p⟩] }

/-- `c` is a new child of `p`. -/
def add (c p : Pid) (n : ℕ) : Family :=
  { F with
    live := insert c F.live
    parent := Function.update F.parent c p
    exitStatus := Function.update F.exitStatus c n
    hanging := Function.update F.hanging c false
    waiting := Function.update F.waiting c false }

end Family

/-- The accounts are even, but that the parent of a process of `x` may still wait. -/
structure Even (x : Pid → Prop) (F : Family) (a : Accounts) : Prop where
  leaving : ∀ c ∈ F.leaving, c ∈ F.live ∧ F.hanging c = true
  nodup : F.leaving.Nodup
  hanging : ∀ p ∈ F.live, F.hanging p = true → p ≠ 0 ∧ F.waiting p = false
  off : ∀ p ∉ F.live, F.waiting p = false
  exits : ((a.exits.map fun r => (r.pid, r.exitStatus) : List (Pid × ℕ)) : Multiset (Pid × ℕ)) =
    F.reported + F.unreported
  waits : ∀ p, a.waits.count p = F.answered p + a.refusals.count p + if F.waiting p = true then 1 else 0
  unserved : ∀ p ∈ F.unreportedSet, ¬ x p → F.waiting (F.parent p) = false
  kin : ∀ p ∈ F.unreportedSet, F.parent p = 1 ∨ (⟨p, F.exitStatus p, F.parent p⟩ : ExitRecord) ∈ a.exits
  receivers : ∀ r ∈ F.reports, r.receiver = 1 ∨ (⟨r.pid, r.exitStatus, r.receiver⟩ : ExitRecord) ∈ a.exits
  forked : ∀ p ∈ F.live, F.parent p = a.forker p ∨ F.parent p = 1

variable {F F' : Family} {a : Accounts} {rest : List Pid}

theorem mem_unreportedSet : p ∈ F.unreportedSet ↔ p ∈ F.live ∧ F.hanging p = true ∧ p ∉ F.leaving := by
  rw [Family.unreportedSet, Finset.mem_filter]

/-! ### What hangs -/

theorem unreported_congr (hset : F'.unreportedSet = F.unreportedSet)
    (hstatus : ∀ p ∈ F.unreportedSet, F'.exitStatus p = F.exitStatus p) : F'.unreported = F.unreported := by
  rw [Family.unreported, Family.unreported, hset]
  exact Multiset.map_congr rfl fun p hp => congrArg (Prod.mk p) (hstatus p hp)

/-- One more hangs. -/
theorem unreported_insert (hp : p ∉ F.unreportedSet) (hset : F'.unreportedSet = insert p F.unreportedSet)
    (hstatus : ∀ q ∈ F.unreportedSet, F'.exitStatus q = F.exitStatus q) :
    F'.unreported = (p, F'.exitStatus p) ::ₘ F.unreported := by
  rw [Family.unreported, Family.unreported, hset, Finset.insert_val_of_notMem hp, Multiset.map_cons]
  exact congrArg _ (Multiset.map_congr rfl fun q hq => congrArg (Prod.mk q) (hstatus q hq))

theorem Even.unreportedSet_clear (h : Even x F a) (hfirst : F.leaving = c :: rest) :
    (F.clear c).unreportedSet = F.unreportedSet := by
  have hnd := h.nodup
  rw [hfirst, List.nodup_cons] at hnd
  ext q
  rw [mem_unreportedSet, mem_unreportedSet]
  show q ∈ F.live.erase c ∧ Function.update F.hanging c false q = true ∧ q ∉ F.leaving.tail ↔ _
  rw [hfirst]
  by_cases hq : q = c
  · subst hq
    simp
  · simp [hq]

theorem unreportedSet_mark (hp : p ∈ F.live) (hlive : p ∉ F.leaving) :
    (F.mark p n).unreportedSet = insert p F.unreportedSet := by
  ext q
  rw [Finset.mem_insert, mem_unreportedSet, mem_unreportedSet]
  show q ∈ F.live ∧ Function.update F.hanging p true q = true ∧ q ∉ F.leaving ↔ _
  by_cases hq : q = p
  · subst hq
    simp [hp, hlive]
  · simp [hq]

theorem unreportedSet_answer (hp : p ∈ F.unreportedSet) :
    F.unreportedSet = insert p (F.answer p).unreportedSet ∧ p ∉ (F.answer p).unreportedSet := by
  have hmem : ∀ q, q ∈ (F.answer p).unreportedSet ↔ q ≠ p ∧ q ∈ F.unreportedSet := by
    intro q
    rw [mem_unreportedSet, mem_unreportedSet]
    show q ∈ F.live ∧ F.hanging q = true ∧ q ∉ F.leaving ++ [p] ↔ _
    rw [List.mem_append, List.mem_singleton, not_or]
    exact ⟨fun ⟨h₁, h₂, h₃, h₄⟩ => ⟨h₄, h₁, h₂, h₃⟩, fun ⟨h₄, h₁, h₂, h₃⟩ => ⟨h₁, h₂, h₃, h₄⟩⟩
  refine ⟨?_, fun hself => ((hmem p).mp hself).1 rfl⟩
  ext q
  rw [Finset.mem_insert, hmem]
  by_cases hq : q = p
  · subst hq
    simp [hp]
  · simp [hq]

theorem unreportedSet_add (hc : c ∉ F.live) : (F.add c p n).unreportedSet = F.unreportedSet := by
  ext q
  rw [mem_unreportedSet, mem_unreportedSet]
  show q ∈ insert c F.live ∧ Function.update F.hanging c false q = true ∧ q ∉ F.leaving ↔ _
  by_cases hq : q = c
  · subst hq
    simp [hc]
  · simp [hq]

/-! ### The operations keep it -/

theorem Even.mono (h : Even x F a) (hxy : ∀ p, x p → y p) : Even y F a :=
  { h with unserved := fun p hp hy => h.unserved p hp fun hx => hy (hxy p hx) }

/-- The processes of `x` have parents that do not wait. -/
theorem Even.settle (h : Even x F a) (hx : ∀ p ∈ F.unreportedSet, x p → F.waiting (F.parent p) = false) :
    Even (fun _ => False) F a := by
  refine { h with unserved := ?_ }
  intro p hp _
  by_cases hxp : x p
  · exact hx p hp hxp
  · exact h.unserved p hp hxp

theorem Even.clear (h : Even x F a) (hfirst : F.leaving = c :: rest) : Even x (F.clear c) a := by
  have hnd := h.nodup
  rw [hfirst, List.nodup_cons] at hnd
  obtain ⟨hc, hhang⟩ := h.leaving c (by rw [hfirst]; exact List.mem_cons_self)
  have hnowait := (h.hanging c hc hhang).2
  have hset := h.unreportedSet_clear hfirst
  have hother : ∀ q ∈ F.unreportedSet, q ≠ c := by
    intro q hq he
    subst he
    exact (mem_unreportedSet.mp hq).2.2 (by rw [hfirst]; exact List.mem_cons_self)
  have hwaiting : (F.clear c).waiting = F.waiting := by
    show Function.update F.waiting c false = F.waiting
    rw [← hnowait, Function.update_eq_self]
  have hparent : ∀ q ∈ F.unreportedSet, (F.clear c).parent q = F.parent q := fun q hq =>
    Function.update_of_ne (hother q hq) _ _
  have hstatus : ∀ q ∈ F.unreportedSet, (F.clear c).exitStatus q = F.exitStatus q := fun q hq =>
    Function.update_of_ne (hother q hq) _ _
  constructor
  case leaving =>
    intro q hq
    have hmem : q ∈ rest := by
      have hq' : q ∈ F.leaving.tail := hq
      rwa [hfirst] at hq'
    have hqc : q ≠ c := fun he => hnd.1 (he ▸ hmem)
    obtain ⟨hlive, hh⟩ := h.leaving q (by rw [hfirst]; exact List.mem_cons_of_mem c hmem)
    refine ⟨Finset.mem_erase.mpr ⟨hqc, hlive⟩, ?_⟩
    show Function.update F.hanging c false q = true
    rw [Function.update_of_ne hqc, hh]
  case nodup =>
    show F.leaving.tail.Nodup
    rw [hfirst]
    exact hnd.2
  case hanging =>
    intro q hq hh
    obtain ⟨hqc, hlive⟩ := Finset.mem_erase.mp hq
    have hh' : Function.update F.hanging c false q = true := hh
    rw [Function.update_of_ne hqc] at hh'
    rw [hwaiting]
    exact h.hanging q hlive hh'
  case off =>
    intro q hq
    rw [hwaiting]
    by_cases hqc : q = c
    · rw [hqc, hnowait]
    · exact h.off q fun hlive => hq (Finset.mem_erase.mpr ⟨hqc, hlive⟩)
  case exits =>
    rw [unreported_congr hset hstatus]
    exact h.exits
  case waits =>
    rw [hwaiting]
    exact h.waits
  case unserved =>
    rw [hset, hwaiting]
    intro q hq hx
    rw [hparent q hq]
    exact h.unserved q hq hx
  case kin =>
    rw [hset]
    intro q hq
    rw [hparent q hq, hstatus q hq]
    exact h.kin q hq
  case receivers => exact h.receivers
  case forked =>
    intro q hq
    obtain ⟨hqc, hlive⟩ := Finset.mem_erase.mp hq
    have hq' : (F.clear c).parent q = F.parent q := Function.update_of_ne hqc _ _
    rw [hq']
    exact h.forked q hlive

theorem Even.mark (h : Even (fun _ => False) F a) (hp : p ∈ F.live) (hne : p ≠ 0) (hh : F.hanging p = false)
    (hw : F.waiting p = false) :
    Even (fun q => q = p) (F.mark p n) { a with exits := a.exits ++ [⟨p, n, a.forker p⟩] } := by
  have hout : p ∉ F.leaving := by
    intro hmem
    rw [(h.leaving p hmem).2] at hh
    cases hh
  have hnew : p ∉ F.unreportedSet := by
    intro hmem
    rw [(mem_unreportedSet.mp hmem).2.1] at hh
    cases hh
  have hset : (F.mark p n).unreportedSet = insert p F.unreportedSet := unreportedSet_mark hp hout
  have hwaiting : (F.mark p n).waiting = F.waiting := by
    show Function.update F.waiting p false = F.waiting
    rw [← hw, Function.update_eq_self]
  have hself : (F.mark p n).exitStatus p = n := Function.update_self _ _ _
  have hstatus : ∀ q ∈ F.unreportedSet, (F.mark p n).exitStatus q = F.exitStatus q := by
    intro q hq
    have hqp : q ≠ p := fun he => hnew (he ▸ hq)
    exact Function.update_of_ne hqp _ _
  constructor
  case leaving =>
    intro q hq
    obtain ⟨hlive, hhang⟩ := h.leaving q hq
    have hqp : q ≠ p := fun he => hout (he ▸ hq)
    refine ⟨hlive, ?_⟩
    show Function.update F.hanging p true q = true
    rw [Function.update_of_ne hqp, hhang]
  case nodup => exact h.nodup
  case hanging =>
    intro q hq hhang
    rw [hwaiting]
    by_cases hqp : q = p
    · rw [hqp]
      exact ⟨hne, hw⟩
    · have hhang' : Function.update F.hanging p true q = true := hhang
      rw [Function.update_of_ne hqp] at hhang'
      exact h.hanging q hq hhang'
  case off =>
    rw [hwaiting]
    exact h.off
  case exits =>
    rw [unreported_insert hnew hset hstatus, hself, List.map_append, ← Multiset.coe_add, h.exits,
      ← Multiset.singleton_add, add_assoc]
    refine congrArg _ ?_
    rw [add_comm]
    rfl
  case waits =>
    rw [hwaiting]
    exact h.waits
  case unserved =>
    rw [hset, hwaiting]
    intro q hq hqp
    exact h.unserved q ((Finset.mem_insert.mp hq).resolve_left hqp) not_false
  case kin =>
    rw [hset]
    intro q hq
    rcases Finset.mem_insert.mp hq with rfl | hq
    · rw [hself]
      refine (h.forked q hp).elim (fun hforker => Or.inr ?_) Or.inl
      refine List.mem_append_right _ (List.mem_singleton.mpr ?_)
      show (⟨q, n, F.parent q⟩ : ExitRecord) = _
      rw [hforker]
    · rw [hstatus q hq]
      exact (h.kin q hq).imp_right (List.mem_append_left _)
  case receivers =>
    intro r hr
    exact (h.receivers r hr).imp_right (List.mem_append_left _)
  case forked => exact h.forked

theorem Even.adopt (h : Even x F a) (p : Pid) : Even (fun q => x q ∨ q = p) (F.adopt p) a := by
  have hself : (F.adopt p).parent p = 1 := Function.update_self _ _ _
  have hother : ∀ q ≠ p, (F.adopt p).parent q = F.parent q := fun q hq => Function.update_of_ne hq _ _
  refine { h with unserved := ?_, kin := ?_, forked := ?_ }
  · intro q hq hx
    rw [not_or] at hx
    rw [hother q hx.2]
    exact h.unserved q hq hx.1
  · intro q hq
    by_cases hqp : q = p
    · exact Or.inl (hqp ▸ hself)
    · rw [hother q hqp]
      exact h.kin q hq
  · intro q hq
    by_cases hqp : q = p
    · exact Or.inr (hqp ▸ hself)
    · rw [hother q hqp]
      exact h.forked q hq

theorem Even.await (h : Even (fun _ => False) F a) (hr : r ∈ F.live) (hh : F.hanging r = false)
    (hw : F.waiting r = false) :
    Even (fun q => F.parent q = r) (F.await r) { a with waits := a.waits ++ [r] } := by
  have hself : (F.await r).waiting r = true := Function.update_self _ _ _
  have hother : ∀ q ≠ r, (F.await r).waiting q = F.waiting q := fun q hq => Function.update_of_ne hq _ _
  refine { h with hanging := ?_, off := ?_, waits := ?_, unserved := ?_ }
  · intro q hq hhang
    have hqr : q ≠ r := by
      intro he
      have hhang' : F.hanging q = true := hhang
      rw [he, hh] at hhang'
      cases hhang'
    rw [hother q hqr]
    exact h.hanging q hq hhang
  · intro q hq
    rw [hother q fun he => hq (he ▸ hr)]
    exact h.off q hq
  · intro q
    show (a.waits ++ [r]).count q = F.answered q + _ + _
    rw [List.count_append, h.waits q]
    by_cases hq : q = r
    · rw [hq, hself, hw, List.count_singleton_self]
      rfl
    · have hrq : ¬ (r == q) = true := by simpa using Ne.symm hq
      rw [hother q hq, List.count_singleton, if_neg hrq]
      rfl
  · intro q hq hx
    have hx' : F.parent q ≠ r := hx
    show (F.await r).waiting (F.parent q) = false
    rw [hother _ hx']
    exact h.unserved q hq not_false

theorem Even.refuse (h : Even x F a) (r : Pid) :
    Even x F { a with waits := a.waits ++ [r], refusals := a.refusals ++ [r] } := by
  refine { h with waits := ?_ }
  intro q
  show (a.waits ++ [r]).count q = F.answered q + (a.refusals ++ [r]).count q + _
  rw [List.count_append, List.count_append, h.waits q]
  omega

theorem Even.answer (h : Even x F a) (hp : p ∈ F.unreportedSet) (hw : F.waiting (F.parent p) = true)
    (hx : ∀ q ∈ F.unreportedSet, x q → F.parent q = F.parent p) : Even (fun _ => False) (F.answer p) a := by
  obtain ⟨hlive, hhang, hout⟩ := mem_unreportedSet.mp hp
  obtain ⟨hset, hnew⟩ := unreportedSet_answer hp
  have hself : (F.answer p).waiting (F.parent p) = false := Function.update_self _ _ _
  have hother : ∀ q ≠ F.parent p, (F.answer p).waiting q = F.waiting q := fun q hq =>
    Function.update_of_ne hq _ _
  have hless : ∀ q, F.waiting q = false → (F.answer p).waiting q = false := by
    intro q hq
    by_cases hqp : q = F.parent p
    · rw [hqp, hself]
    · rw [hother q hqp, hq]
  have hsub : ∀ q ∈ (F.answer p).unreportedSet, q ∈ F.unreportedSet := by
    intro q hq
    rw [hset]
    exact Finset.mem_insert_of_mem hq
  refine { h with leaving := ?_, nodup := ?_, hanging := ?_, off := ?_, exits := ?_, waits := ?_, unserved := ?_,
                  kin := ?_, receivers := ?_ }
  · intro q hq
    rcases List.mem_append.mp hq with hq | hq
    · exact h.leaving q hq
    · rw [List.mem_singleton.mp hq]
      exact ⟨hlive, hhang⟩
  · rw [show (F.answer p).leaving = F.leaving ++ [p] from rfl, List.nodup_append]
    refine ⟨h.nodup, List.nodup_singleton p, fun q hq r hr he => hout ?_⟩
    rw [← List.mem_singleton.mp hr, ← he]
    exact hq
  · intro q hq hh
    obtain ⟨hne, hq'⟩ := h.hanging q hq hh
    exact ⟨hne, hless q hq'⟩
  · exact fun q hq => hless q (h.off q hq)
  · have hunreported : F.unreported = (p, F.exitStatus p) ::ₘ (F.answer p).unreported :=
      unreported_insert (F := F.answer p) hnew hset fun _ _ => rfl
    have hreported : (F.answer p).reported = F.reported + {(p, F.exitStatus p)} := by
      show (((F.reports ++ [_]).map _ : List (Pid × ℕ)) : Multiset (Pid × ℕ)) = _
      rw [List.map_append, ← Multiset.coe_add]
      rfl
    rw [h.exits, hunreported, hreported, add_assoc, Multiset.singleton_add]
  · intro q
    have hanswered : (F.answer p).answered q = F.answered q + if F.parent p = q then 1 else 0 := by
      show ((F.reports ++ [_]).filter _).length = _
      rw [List.filter_append, List.length_append]
      refine congrArg _ ?_
      by_cases hq : F.parent p = q
      · simp [hq]
      · simp [hq]
    rw [h.waits q, hanswered]
    by_cases hq : q = F.parent p
    · rw [hq, hself, hw, if_pos rfl, if_pos rfl, if_neg Bool.false_ne_true]
      omega
    · rw [hother q hq, if_neg (Ne.symm hq)]
      rfl
  · intro q hq _
    show (F.answer p).waiting (F.parent q) = false
    by_cases hqp : F.parent q = F.parent p
    · rw [hqp, hself]
    · rw [hother _ hqp]
      exact h.unserved q (hsub q hq) fun hxq => hqp (hx q (hsub q hq) hxq)
  · exact fun q hq => h.kin q (hsub q hq)
  · intro r hr
    rcases List.mem_append.mp hr with hr | hr
    · exact h.receivers r hr
    · rw [List.mem_singleton.mp hr]
      exact h.kin p hp

theorem Even.add (h : Even x F a) (hc : c ∉ F.live) :
    Even x (F.add c p n) { a with forker := Function.update a.forker c p } := by
  have hnowait := h.off c hc
  have hset : (F.add c p n).unreportedSet = F.unreportedSet := unreportedSet_add hc
  have hne : ∀ q ∈ F.live, q ≠ c := fun q hq he => hc (he ▸ hq)
  have hold : ∀ q ∈ F.unreportedSet, q ≠ c := fun q hq => hne q (mem_unreportedSet.mp hq).1
  have hwaiting : (F.add c p n).waiting = F.waiting := by
    show Function.update F.waiting c false = F.waiting
    rw [← hnowait, Function.update_eq_self]
  have hparent : ∀ q ≠ c, (F.add c p n).parent q = F.parent q := fun q hq => Function.update_of_ne hq _ _
  have hstatus : ∀ q ∈ F.unreportedSet, (F.add c p n).exitStatus q = F.exitStatus q := fun q hq =>
    Function.update_of_ne (hold q hq) _ _
  refine { h with leaving := ?_, hanging := ?_, off := ?_, exits := ?_, waits := ?_, unserved := ?_, kin := ?_,
                  forked := ?_ }
  · intro q hq
    obtain ⟨hlive, hhang⟩ := h.leaving q hq
    refine ⟨Finset.mem_insert_of_mem hlive, ?_⟩
    show Function.update F.hanging c false q = true
    rw [Function.update_of_ne (hne q hlive), hhang]
  · intro q hq hh
    rw [hwaiting]
    have hqc : q ≠ c := by
      intro he
      have hh' : Function.update F.hanging c false q = true := hh
      rw [he, Function.update_self] at hh'
      cases hh'
    have hh' : Function.update F.hanging c false q = true := hh
    rw [Function.update_of_ne hqc] at hh'
    exact h.hanging q ((Finset.mem_insert.mp hq).resolve_left hqc) hh'
  · intro q hq
    rw [hwaiting]
    exact h.off q fun hlive => hq (Finset.mem_insert_of_mem hlive)
  · rw [unreported_congr hset hstatus]
    exact h.exits
  · rw [hwaiting]
    exact h.waits
  · rw [hset, hwaiting]
    intro q hq hx
    rw [hparent q (hold q hq)]
    exact h.unserved q hq hx
  · rw [hset]
    intro q hq
    rw [hparent q (hold q hq), hstatus q hq]
    exact h.kin q hq
  · intro q hq
    show (F.add c p n).parent q = Function.update a.forker c p q ∨ _
    by_cases hqc : q = c
    · subst hqc
      rw [Function.update_self]
      exact Or.inl (Function.update_self _ _ _)
    · rw [hparent q hqc, Function.update_of_ne hqc]
      exact h.forked q ((Finset.mem_insert.mp hq).resolve_left hqc)

end OmochaOS.Exit
