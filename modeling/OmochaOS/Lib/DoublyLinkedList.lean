import Mathlib.Data.List.Basic
import Mathlib.Data.List.Nodup
import Mathlib.Logic.Function.Basic
import Mathlib.Tactic.Common

/-!
# Intrusive doubly linked lists

The links of such a list are two maps `prev` and `next` of its elements, with one element `null` that
stands for no element.  `Linked prev next null back head l` says that following `next` from `head`
visits exactly `l` and then reaches `null`, and that `prev` leads back, from the first element to
`back`.

Code that does not test for `null` writes the links of `null` too.  Nothing is said about them, so
such writes do no harm: `Linked.push` and `Linked.unlink` allow them.
-/

namespace DoublyLinkedList

variable {α : Type*} {prev next prev' next' : α → α} {null back head p : α} {l : List α}

/-- From `head` the links lead along `l` and back. -/
def Linked (prev next : α → α) (null : α) : α → α → List α → Prop
  | _, head, [] => head = null
  | back, head, a :: l => head = a ∧ a ≠ null ∧ prev a = back ∧ Linked prev next null a (next a) l

theorem Linked.ne_null (h : Linked prev next null back head l) : ∀ a ∈ l, a ≠ null := by
  induction l generalizing back head with
  | nil =>
    intro a ha
    exact absurd ha List.not_mem_nil
  | cons b l ih =>
    obtain ⟨-, hb, -, htail⟩ := h
    intro a ha
    rcases List.mem_cons.mp ha with rfl | hmem
    · exact hb
    · exact ih htail a hmem

/-- Links outside the list do not matter. -/
theorem Linked.congr (h : Linked prev next null back head l) (hprev : ∀ a ∈ l, prev' a = prev a)
    (hnext : ∀ a ∈ l, next' a = next a) : Linked prev' next' null back head l := by
  induction l generalizing back head with
  | nil => exact h
  | cons b l ih =>
    obtain ⟨hhead, hb, hback, htail⟩ := h
    have hp : prev' b = prev b := hprev b List.mem_cons_self
    have hn : next' b = next b := hnext b List.mem_cons_self
    refine ⟨hhead, hb, hp.trans hback, ?_⟩
    rw [hn]
    exact ih htail (fun a ha => hprev a (List.mem_cons_of_mem b ha))
      (fun a ha => hnext a (List.mem_cons_of_mem b ha))

theorem Linked.head_eq {a : α} (h : Linked prev next null back head (a :: l)) : head = a := h.1

theorem Linked.eq_nil_of_null (h : Linked prev next null back null l) : l = [] := by
  cases l with
  | nil => rfl
  | cons a l => exact absurd h.1.symm h.2.1

/-- A head leads along one list only. -/
theorem Linked.unique {l' : List α} {back' : α} (h : Linked prev next null back head l)
    (h' : Linked prev next null back' head l') : l = l' := by
  induction l generalizing back back' head l' with
  | nil =>
    obtain rfl : head = null := h
    exact h'.eq_nil_of_null.symm
  | cons a l ih =>
    obtain ⟨rfl, hne, -, htail⟩ := h
    cases l' with
    | nil => exact absurd h' hne
    | cons b l' =>
      obtain ⟨rfl, -, -, htail'⟩ := h'
      rw [ih htail htail']

/-- What comes after an element lies behind the first one. -/
theorem Linked.next_mem {a : α} (h : Linked prev next null back head (a :: l)) (hp : p ∈ a :: l) :
    next p = null ∨ next p ∈ l := by
  induction l generalizing back head a with
  | nil =>
    obtain ⟨-, -, -, hnil⟩ := h
    obtain rfl := List.mem_singleton.mp hp
    exact Or.inl hnil
  | cons b l ih =>
    obtain ⟨-, -, -, htail⟩ := h
    rcases List.mem_cons.mp hp with rfl | hmem
    · right
      rw [htail.head_eq]
      exact List.mem_cons_self
    · rcases ih htail hmem with hnull | hnext
      · exact Or.inl hnull
      · exact Or.inr (List.mem_cons_of_mem b hnext)

/-- What comes before an element that is not the first one is in the list. -/
theorem Linked.prev_mem {a : α} (h : Linked prev next null back head (a :: l)) (hp : p ∈ l) :
    prev p ∈ a :: l := by
  induction l generalizing back head a with
  | nil => exact absurd hp List.not_mem_nil
  | cons b l ih =>
    obtain ⟨-, -, -, htail⟩ := h
    rcases List.mem_cons.mp hp with rfl | hmem
    · rw [htail.2.2.1]
      exact List.mem_cons_self
    · exact List.mem_cons_of_mem a (ih htail hmem)

/-- The first element has nothing before it, and it is the only one. -/
theorem Linked.prev_eq_null_iff (h : Linked prev next null null head l) (hp : p ∈ l)
    (hnodup : l.Nodup) : prev p = null ↔ head = p := by
  cases l with
  | nil => exact absurd hp List.not_mem_nil
  | cons a l =>
    have hmem := h.ne_null
    constructor
    · intro hprev
      rcases List.mem_cons.mp hp with rfl | hpl
      · exact h.1
      · exact absurd hprev (hmem _ (h.prev_mem hpl))
    · rintro rfl
      obtain ⟨rfl, -, hprev, -⟩ := h
      exact hprev

/-- What comes before an element. -/
theorem Linked.prev_eq {a : α} {r : List α} (h : Linked prev next null back head (l ++ a :: r)) :
    prev a = l.getLast?.getD back := by
  induction l generalizing back head with
  | nil =>
    obtain ⟨-, -, hprev, -⟩ := h
    exact hprev
  | cons b l ih =>
    obtain ⟨-, -, -, htail⟩ := h
    rw [ih htail, List.getLast?_cons, Option.getD_some]

/-- Nothing comes after the last element. -/
theorem Linked.next_last {a : α} (h : Linked prev next null back head (l ++ [a])) : next a = null := by
  induction l generalizing back head with
  | nil =>
    obtain ⟨-, -, -, hnil⟩ := h
    exact hnil
  | cons b l ih =>
    obtain ⟨-, -, -, htail⟩ := h
    exact ih htail

/-- The links in the two directions are inverse to each other. -/
theorem Linked.next_eq_iff {q : α} (h : Linked prev next null back head l) (hnodup : l.Nodup)
    (hback : back ∉ l) (hp : p ∈ l) (hq : q ∈ l) : next p = q ↔ prev q = p := by
  induction l generalizing back head with
  | nil => exact absurd hp List.not_mem_nil
  | cons a l ih =>
    have hlist := h
    obtain ⟨-, ha, hprev, htail⟩ := h
    obtain ⟨hnot, hnodup'⟩ := List.nodup_cons.mp hnodup
    have hnext_ne : ∀ b ∈ a :: l, next b ≠ a := by
      intro b hb heq
      rcases hlist.next_mem hb with hnull | hmem
      · exact ha (heq.symm.trans hnull)
      · exact hnot (heq ▸ hmem)
    have hprev_ne : ∀ b ∈ a :: l, prev a ≠ b := by
      intro b hb heq
      exact hback (hprev.symm.trans heq ▸ hb)
    rcases List.mem_cons.mp hq with rfl | hql
    · exact iff_of_false (hnext_ne p hp) (hprev_ne p hp)
    · rcases List.mem_cons.mp hp with rfl | hpl
      · cases l with
        | nil => exact absurd hql List.not_mem_nil
        | cons c l =>
          have hrest := htail
          obtain ⟨hc, -, hcprev, -⟩ := htail
          rcases List.mem_cons.mp hql with rfl | hqr
          · exact iff_of_true hc hcprev
          · refine iff_of_false ?_ ?_
            · intro heq
              have hqc : q = c := heq.symm.trans hc
              exact (List.nodup_cons.mp hnodup').1 (hqc ▸ hqr)
            · intro heq
              have hmem : prev q ∈ c :: l := hrest.prev_mem hqr
              rw [heq] at hmem
              exact hnot hmem
      · exact ih htail hnodup' hnot hpl hql

variable [DecidableEq α]

/-! ### Adding an element -/

/-- **Insert.**  A new element is put behind `a`; where `a` was the last one, the links of `null` are
written. -/
theorem Linked.insert {a : α} {r : List α} (h : Linked prev next null back head (l ++ a :: r))
    (hnodup : (l ++ a :: r).Nodup) (hp : p ∉ l ++ a :: r) (hne : p ≠ null) :
    Linked (Function.update (Function.update prev (next a) p) p a)
      (Function.update (Function.update next p (next a)) a p) null back head (l ++ a :: p :: r) := by
  induction l generalizing back head with
  | nil =>
    obtain ⟨hhead, ha, hprev, htail⟩ := h
    obtain ⟨hnot, hnodup⟩ := List.nodup_cons.mp hnodup
    have hap : a ≠ p := fun he => hp (he ▸ List.mem_cons_self)
    have hanext : a ≠ next a := by
      cases r with
      | nil => exact fun he => ha (he.trans htail)
      | cons b r => exact fun he => hnot (he.trans htail.1 ▸ List.mem_cons_self)
    refine ⟨hhead, ha, ?_, ?_⟩
    · rw [Function.update_of_ne hap, Function.update_of_ne hanext, hprev]
    · rw [Function.update_self]
      refine ⟨rfl, hne, Function.update_self _ _ _, ?_⟩
      rw [Function.update_of_ne hap.symm, Function.update_self]
      cases r with
      | nil => exact htail
      | cons b r =>
        obtain ⟨hb, hbne, -, hrest⟩ := htail
        have hbp : b ≠ p := fun he => hp (he ▸ List.mem_cons_of_mem a List.mem_cons_self)
        have hba : b ≠ a := fun he => hnot (he ▸ List.mem_cons_self)
        refine ⟨hb, hbne, ?_, ?_⟩
        · rw [Function.update_of_ne hbp, hb, Function.update_self]
        · rw [Function.update_of_ne hba, Function.update_of_ne hbp]
          apply hrest.congr
          · intro c hc
            have hcp : c ≠ p := fun he => hp (he ▸ List.mem_cons_of_mem a (List.mem_cons_of_mem b hc))
            have hcb : c ≠ next a := fun he => (List.nodup_cons.mp hnodup).1 (hb ▸ he ▸ hc)
            rw [Function.update_of_ne hcp, Function.update_of_ne hcb]
          · intro c hc
            have hcp : c ≠ p := fun he => hp (he ▸ List.mem_cons_of_mem a (List.mem_cons_of_mem b hc))
            have hca : c ≠ a := fun he => hnot (he ▸ List.mem_cons_of_mem b hc)
            rw [Function.update_of_ne hca, Function.update_of_ne hcp]
  | cons b l ih =>
    have hlist := h
    obtain ⟨hhead, hb, hprev, htail⟩ := h
    obtain ⟨hnot, hnodup⟩ := List.nodup_cons.mp hnodup
    have hbp : b ≠ p := fun he => hp (he ▸ List.mem_cons_self)
    have hba : b ≠ a := fun he => hnot (he ▸ List.mem_append_right l List.mem_cons_self)
    have hbnext : b ≠ next a := by
      intro he
      have hmem : a ∈ b :: (l ++ a :: r) := List.mem_cons_of_mem b (List.mem_append_right l List.mem_cons_self)
      rcases hlist.next_mem hmem with hnull | hin
      · exact hb (he.trans hnull)
      · exact hnot (he ▸ hin)
    refine ⟨hhead, hb, ?_, ?_⟩
    · rw [Function.update_of_ne hbp, Function.update_of_ne hbnext, hprev]
    · rw [Function.update_of_ne hba, Function.update_of_ne hbp]
      exact ih htail hnodup fun hmem => hp (List.mem_cons_of_mem b hmem)

/-- **Push.**  The new element points at the head, and the head points back. -/
theorem Linked.push (h : Linked prev next null null head l) (hnodup : l.Nodup) (hp : p ∉ l)
    (hne : p ≠ null) :
    Linked (Function.update (Function.update prev head p) p null) (Function.update next p head) null
      null p (p :: l) := by
  refine ⟨rfl, hne, Function.update_self _ _ _, ?_⟩
  rw [Function.update_self]
  cases l with
  | nil => exact h
  | cons a l =>
    obtain ⟨rfl, ha, -, htail⟩ := h
    have hpa : head ≠ p := fun he => hp (he ▸ List.mem_cons_self)
    refine ⟨rfl, ha, ?_, ?_⟩
    · rw [Function.update_of_ne hpa, Function.update_self]
    · rw [Function.update_of_ne hpa]
      apply htail.congr
      · intro b hb
        have hbp : b ≠ p := fun he => hp (he ▸ List.mem_cons_of_mem head hb)
        have hba : b ≠ head := fun he => (List.nodup_cons.mp hnodup).1 (he ▸ hb)
        rw [Function.update_of_ne hbp, Function.update_of_ne hba]
      · intro b hb
        have hbp : b ≠ p := fun he => hp (he ▸ List.mem_cons_of_mem head hb)
        rw [Function.update_of_ne hbp]

/-! ### Taking an element out -/

variable (prev next null p)

/-- The links after `p` is taken out: its neighbours are joined and its own links are cleared. -/
def joinPrev : α → α := Function.update (Function.update prev (next p) (prev p)) p null

def joinNext : α → α := Function.update (Function.update next (prev p) (next p)) p null

variable {prev next null p}

/-- The first element is taken out. -/
theorem Linked.unlink_head (h : Linked prev next null null p (p :: l)) (hnodup : (p :: l).Nodup) :
    Linked (Function.update (Function.update prev (next p) null) p null)
      (Function.update next p null) null null (next p) l := by
  obtain ⟨-, -, -, htail⟩ := h
  obtain ⟨hnot, hnodup⟩ := List.nodup_cons.mp hnodup
  cases l with
  | nil => exact htail
  | cons a l =>
    obtain ⟨ha, hne, -, hrest⟩ := htail
    have hap : a ≠ p := fun he => hnot (he ▸ List.mem_cons_self)
    refine ⟨ha, hne, ?_, ?_⟩
    · rw [Function.update_of_ne hap, ha, Function.update_self]
    · rw [Function.update_of_ne hap]
      apply hrest.congr
      · intro b hb
        have hbp : b ≠ p := fun he => hnot (he ▸ List.mem_cons_of_mem a hb)
        have hba : b ≠ next p := fun he => (List.nodup_cons.mp hnodup).1 (ha ▸ he ▸ hb)
        rw [Function.update_of_ne hbp, Function.update_of_ne hba]
      · intro b hb
        have hbp : b ≠ p := fun he => hnot (he ▸ List.mem_cons_of_mem a hb)
        rw [Function.update_of_ne hbp]

/-- **Unlink.**  An element behind the first one is taken out. -/
theorem Linked.unlink {a : α} (h : Linked prev next null back head (a :: l))
    (hnodup : (a :: l).Nodup) (hp : p ∈ l) :
    Linked (joinPrev prev next null p) (joinNext prev next null p) null back head
      (a :: l.erase p) := by
  induction l generalizing back head a with
  | nil => exact absurd hp List.not_mem_nil
  | cons b l ih =>
    have hne := h.ne_null
    have hlist := h
    obtain ⟨hhead, ha, hback, htail⟩ := h
    obtain ⟨hnot, hnodup'⟩ := List.nodup_cons.mp hnodup
    have hap : a ≠ p := fun he => hnot (he ▸ hp)
    have hanext : a ≠ next p := by
      intro he
      rcases htail.next_mem hp with hnull | hmem
      · exact ha (he.trans hnull)
      · exact hnot (List.mem_cons_of_mem b (he ▸ hmem))
    have hprev : joinPrev prev next null p a = back := by
      rw [joinPrev, Function.update_of_ne hap, Function.update_of_ne hanext, hback]
    refine ⟨hhead, ha, hprev, ?_⟩
    by_cases hpb : p = b
    · -- `p` is right behind `a`
      subst hpb
      obtain ⟨-, -, hpprev, hrest⟩ := htail
      have hpl := (List.nodup_cons.mp hnodup').1
      have hnext : joinNext prev next null p a = next p := by
        rw [joinNext, Function.update_of_ne hap, hpprev, Function.update_self]
      rw [List.erase_cons_head, hnext]
      cases l with
      | nil => exact hrest
      | cons c l =>
        obtain ⟨hc, hcne, -, hrest⟩ := hrest
        have hcp : c ≠ p := fun he => hpl (he ▸ List.mem_cons_self)
        have hca : c ≠ a := fun he => hnot (he ▸ List.mem_cons_of_mem p List.mem_cons_self)
        refine ⟨hc, hcne, ?_, ?_⟩
        · rw [joinPrev, Function.update_of_ne hcp, hc, Function.update_self, hpprev]
        · have hnextc : joinNext prev next null p c = next c := by
            rw [joinNext, Function.update_of_ne hcp, hpprev, Function.update_of_ne hca]
          rw [hnextc]
          apply hrest.congr
          · intro d hd
            have hdp : d ≠ p := fun he => hpl (he ▸ List.mem_cons_of_mem c hd)
            have hdc : d ≠ next p := by
              intro he
              have hnodupc := (List.nodup_cons.mp (List.nodup_cons.mp hnodup').2).1
              exact hnodupc (hc ▸ he ▸ hd)
            rw [joinPrev, Function.update_of_ne hdp, Function.update_of_ne hdc]
          · intro d hd
            have hdp : d ≠ p := fun he => hpl (he ▸ List.mem_cons_of_mem c hd)
            have hda : d ≠ a := by
              intro he
              exact hnot (he ▸ List.mem_cons_of_mem p (List.mem_cons_of_mem c hd))
            rw [joinNext, Function.update_of_ne hdp, hpprev, Function.update_of_ne hda]
    · -- `p` is further on
      have hpl : p ∈ l := (List.mem_cons.mp hp).resolve_left hpb
      have haprev : a ≠ prev p := by
        intro he
        exact hnot (he ▸ htail.prev_mem hpl)
      have hnext : joinNext prev next null p a = next a := by
        rw [joinNext, Function.update_of_ne hap, Function.update_of_ne haprev]
      rw [hnext, List.erase_cons_tail (by simpa using fun he => hpb he.symm)]
      exact ih htail hnodup' hpl

end DoublyLinkedList
