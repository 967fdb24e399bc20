import Mathlib.Data.List.Basic
import Mathlib.Data.List.Nodup
import Mathlib.Logic.Function.Basic
import Mathlib.Tactic.Common

/-!
# Intrusive singly linked lists

An intrusive list keeps its links inside the elements: a head pointer and a map `next` from an
element to its successor (`none` is the null pointer).  Nothing stops such links from being stale,
shared or cyclic, so the shape has to be stated.  `Chain next h l` says that following `next` from
the head pointer `h` visits exactly the elements of `l`, in order, and then reaches null.

The file covers what kernel code does to such lists:

* `walkToLast` — the loop `while (p->next) p = p->next`;
* `searchAfter` — the loop that looks for an element while keeping its predecessor;
* `Chain.snoc`, `Chain.unlink` — the pointer writes of an append at the tail and of a removal from
  the middle, on duplicate-free chains;
* `cyclicNext` — the successor on the circular reading of a chain, where the last element wraps round
  to the head; `Chain.cyclicWalk` gets from any element to any other, and `Chain.cyclicPath` lists the
  elements in the order of the circle from a given one.

The loops carry fuel, and running out of it is a result of its own, so that a walk that would never
end is not confused with one that ends without finding anything.
-/

namespace IntrusiveList

variable {α : Type*} {next next' : α → Option α} {h : Option α} {l : List α}

/-- Following `next` from `h` visits exactly `l` and then reaches the null pointer. -/
inductive Chain (next : α → Option α) : Option α → List α → Prop
  | nil : Chain next none []
  | cons {a : α} {l : List α} (tail : Chain next (next a) l) : Chain next (some a) (a :: l)

@[simp] theorem chain_none_iff : Chain next none l ↔ l = [] := by
  constructor
  · intro hc
    cases hc
    rfl
  · rintro rfl
    exact Chain.nil

theorem chain_some_iff {a : α} :
    Chain next (some a) l ↔ ∃ t, l = a :: t ∧ Chain next (next a) t := by
  constructor
  · intro hc
    cases hc with
    | cons tail => exact ⟨_, rfl, tail⟩
  · rintro ⟨t, rfl, tail⟩
    exact Chain.cons tail

/-- A head pointer leads along one list only. -/
theorem Chain.unique {l' : List α} (hc : Chain next h l) (hc' : Chain next h l') : l = l' := by
  induction hc generalizing l' with
  | nil => exact (chain_none_iff.mp hc').symm
  | cons tail ih =>
    obtain ⟨t, rfl, ht⟩ := chain_some_iff.mp hc'
    rw [ih ht]

/-- Links outside the list do not matter. -/
theorem Chain.congr (hc : Chain next h l) (heq : ∀ a ∈ l, next' a = next a) :
    Chain next' h l := by
  induction hc with
  | nil => exact Chain.nil
  | @cons a l tail ih =>
    have ha : next' a = next a := heq a (by simp)
    apply Chain.cons
    rw [ha]
    exact ih (fun b hb => heq b (by simp [hb]))

theorem Chain.eq_nil_iff (hc : Chain next h l) : l = [] ↔ h = none := by
  cases hc <;> simp

/-- The head pointer of a non-empty chain points at its first element. -/
theorem Chain.head_eq {a : α} {t : List α} (hc : Chain next h (a :: t)) :
    h = some a ∧ Chain next (next a) t := by
  cases hc with
  | cons tail => exact ⟨rfl, tail⟩

/-- **Removal of the head.**  The rest of the list starts at the head's old link. -/
theorem Chain.tail {a : α} {t : List α} (hc : Chain next h (a :: t)) : Chain next (next a) t :=
  hc.head_eq.2

/-- The part of a chain from one of its places on. -/
theorem Chain.suffix {a : α} {l₁ l₂ : List α} (hc : Chain next h (l₁ ++ a :: l₂)) :
    Chain next (some a) (a :: l₂) := by
  induction l₁ generalizing h with
  | nil =>
    obtain ⟨rfl, htail⟩ := hc.head_eq
    exact Chain.cons htail
  | cons b l₁ ih => exact ih hc.tail

/-- A chain that ends has no element twice. -/
theorem Chain.nodup (hc : Chain next h l) : l.Nodup := by
  induction hc with
  | nil => exact List.nodup_nil
  | @cons a l tail ih =>
    refine List.nodup_cons.mpr ⟨fun ha => ?_, ih⟩
    obtain ⟨l₁, l₂, rfl⟩ := List.append_of_mem ha
    have heq := (Chain.cons tail).unique tail.suffix
    have hlen := congrArg List.length heq
    simp only [List.length_cons, List.length_append] at hlen
    omega

/-! ### The walk to the last element -/

/-- The loop `while (p->next) p = p->next`; `none` when the fuel runs out. -/
def walkToLast (next : α → Option α) : ℕ → α → Option α
  | 0, _ => none
  | fuel + 1, p =>
    match next p with
    | none => some p
    | some q => walkToLast next fuel q

/-- If the walk ends, it ends at the last element of the chain. -/
theorem Chain.walkToLast_eq {a t : α} {fuel : ℕ} (hc : Chain next (some a) l)
    (ht : walkToLast next fuel a = some t) : ∃ l', l = l' ++ [t] := by
  induction fuel generalizing a l with
  | zero => simp [walkToLast] at ht
  | succ fuel ih =>
    obtain ⟨r, rfl, hr⟩ := chain_some_iff.mp hc
    cases hn : next a with
    | none =>
      simp only [walkToLast, hn, Option.some.injEq] at ht
      subst ht
      rw [hn] at hr
      exact ⟨[], by rw [chain_none_iff.mp hr]; rfl⟩
    | some q =>
      simp only [walkToLast, hn] at ht
      rw [hn] at hr
      obtain ⟨l', rfl⟩ := ih hr ht
      exact ⟨a :: l', rfl⟩

/-- With at least as much fuel as the chain is long, the walk ends. -/
theorem Chain.walkToLast_isSome {a : α} {fuel : ℕ} (hc : Chain next (some a) l)
    (hf : l.length ≤ fuel) : (walkToLast next fuel a).isSome := by
  induction fuel generalizing a l with
  | zero =>
    obtain ⟨r, rfl, -⟩ := chain_some_iff.mp hc
    simp at hf
  | succ fuel ih =>
    obtain ⟨r, rfl, hr⟩ := chain_some_iff.mp hc
    cases hn : next a with
    | none => simp [walkToLast, hn]
    | some q =>
      simp only [walkToLast, hn]
      rw [hn] at hr
      exact ih hr (by simpa using hf)

/-! ### Pointer writes -/

variable [DecidableEq α]

/-- Writing the link of an element outside the list leaves the list alone. -/
theorem Chain.update_of_notMem {x : α} {v : Option α} (hc : Chain next h l) (hx : x ∉ l) :
    Chain (Function.update next x v) h l := by
  apply hc.congr
  intro a ha
  have hne : a ≠ x := fun e => hx (e ▸ ha)
  exact Function.update_of_ne hne _ _

/-- Clearing the link of an element ends the list there. -/
theorem Chain.cut (hc : Chain next h l) (x : α) :
    ∃ l', Chain (Function.update next x none) h l' := by
  induction hc with
  | nil => exact ⟨[], Chain.nil⟩
  | @cons a l tail ih =>
    obtain ⟨l', hl'⟩ := ih
    by_cases hax : a = x
    · subst hax
      refine ⟨[a], Chain.cons ?_⟩
      rw [Function.update_self]
      exact Chain.nil
    · refine ⟨a :: l', Chain.cons ?_⟩
      rw [Function.update_of_ne hax]
      exact hl'

/-- **Append at the tail.**  Linking the last element to a new one, and the new one to null, extends
the list by that element. -/
theorem Chain.snoc {t x : α} (hc : Chain next h (l ++ [t])) (hnd : (l ++ [t]).Nodup)
    (hx : x ∉ l ++ [t]) :
    Chain (Function.update (Function.update next t (some x)) x none) h (l ++ [t] ++ [x]) := by
  induction l generalizing h with
  | nil =>
    obtain ⟨rfl, -⟩ := hc.head_eq
    have hxt : t ≠ x := fun e => hx (by simp [e])
    apply Chain.cons
    rw [Function.update_of_ne hxt, Function.update_self]
    apply Chain.cons
    rw [Function.update_self]
    exact Chain.nil
  | cons b l ih =>
    obtain ⟨rfl, htail⟩ := hc.head_eq
    simp only [List.cons_append, List.nodup_cons] at hnd
    have hbt : b ≠ t := fun e => hnd.1 (by simp [e])
    have hbx : b ≠ x := fun e => hx (by simp [e])
    apply Chain.cons
    rw [Function.update_of_ne hbx, Function.update_of_ne hbt]
    exact ih htail hnd.2 (fun hm => hx (List.mem_cons_of_mem b hm))

/-- The writes of an append leave a list that ends, also when the element is on it already. -/
theorem Chain.snoc_ends {t : α} (hc : Chain next h (l ++ [t])) (x : α) :
    ∃ l', Chain (Function.update (Function.update next t (some x)) x none) h l' := by
  induction l generalizing h with
  | nil =>
    obtain ⟨rfl, -⟩ := hc.head_eq
    by_cases htx : t = x
    · subst htx
      refine ⟨[t], Chain.cons ?_⟩
      rw [Function.update_self]
      exact Chain.nil
    · refine ⟨[t, x], Chain.cons ?_⟩
      rw [Function.update_of_ne htx, Function.update_self]
      apply Chain.cons
      rw [Function.update_self]
      exact Chain.nil
  | cons b l ih =>
    have hnd := hc.nodup
    obtain ⟨rfl, htail⟩ := hc.head_eq
    by_cases hbx : b = x
    · subst hbx
      refine ⟨[b], Chain.cons ?_⟩
      rw [Function.update_self]
      exact Chain.nil
    · have hbt : b ≠ t := by
        rintro rfl
        simp at hnd
      obtain ⟨l', hl'⟩ := ih htail
      refine ⟨b :: l', Chain.cons ?_⟩
      rw [Function.update_of_ne hbx, Function.update_of_ne hbt]
      exact hl'

/-- **Removal behind a predecessor.**  Linking `a` past its successor `x` takes `x` out. -/
theorem Chain.unlink {a x : α} {l₁ l₂ : List α} (hc : Chain next h (l₁ ++ a :: x :: l₂))
    (hnd : (l₁ ++ a :: x :: l₂).Nodup) :
    Chain (Function.update (Function.update next a (next x)) x none) h (l₁ ++ a :: l₂) := by
  induction l₁ generalizing h with
  | nil =>
    obtain ⟨rfl, htail⟩ := hc.head_eq
    obtain ⟨hax, htail⟩ := htail.head_eq
    simp only [List.nil_append, List.nodup_cons, List.mem_cons, not_or] at hnd
    obtain ⟨⟨hne, hal₂⟩, hxl₂, -⟩ := hnd
    apply Chain.cons
    rw [Function.update_of_ne hne, Function.update_self]
    exact (htail.update_of_notMem hal₂).update_of_notMem hxl₂
  | cons b l₁ ih =>
    obtain ⟨rfl, htail⟩ := hc.head_eq
    simp only [List.cons_append, List.nodup_cons, List.mem_append, List.mem_cons, not_or] at hnd
    obtain ⟨⟨-, hba, hbx, -⟩, hnd⟩ := hnd
    apply Chain.cons
    rw [Function.update_of_ne hbx, Function.update_of_ne hba]
    exact ih htail hnd

/-! ### The search for an element behind a predecessor -/

/-- How the search of `searchAfter` ends. -/
inductive Search (α : Type*) where
  /-- The element was found; `prev` links to it. -/
  | found (prev : α)
  /-- The null pointer was reached first. -/
  | missing
  /-- The fuel ran out. -/
  | spinning

/-- The loop that advances `prev` until the element it links to is `x`. -/
def searchAfter (next : α → Option α) (x : α) : ℕ → α → Search α
  | 0, _ => .spinning
  | fuel + 1, prev =>
    match next prev with
    | none => .missing
    | some p => if p = x then .found prev else searchAfter next x fuel p

/-- **The search finds what the chain contains.**  Unless it is cut short, it stops at the element
just before `x`. -/
theorem Chain.searchAfter_of_mem {a x : α} {fuel : ℕ} (hc : Chain next (some a) (a :: l))
    (hx : x ∈ l) (hs : searchAfter next x fuel a ≠ .spinning) :
    ∃ p l₁ l₂, searchAfter next x fuel a = .found p ∧ a :: l = l₁ ++ p :: x :: l₂ := by
  induction fuel generalizing a l with
  | zero => exact absurd rfl hs
  | succ fuel ih =>
    have htail := hc.tail
    cases l with
    | nil => simp at hx
    | cons b l =>
      obtain ⟨hn, hbl⟩ := htail.head_eq
      simp only [searchAfter, hn] at hs ⊢
      by_cases hbx : b = x
      · subst hbx
        exact ⟨a, [], l, by simp, rfl⟩
      · rw [if_neg hbx] at hs ⊢
        have hxl : x ∈ l := by
          rcases List.mem_cons.mp hx with e | e
          · exact absurd e.symm hbx
          · exact e
        rw [hn] at htail
        obtain ⟨p, l₁, l₂, hp, he⟩ := ih htail hxl hs
        exact ⟨p, a :: l₁, l₂, hp, by rw [he]; rfl⟩

/-- The search finds what is on the chain only. -/
theorem Chain.mem_of_searchAfter {a x p : α} {fuel : ℕ} (hc : Chain next (some a) (a :: l))
    (hs : searchAfter next x fuel a = .found p) : x ∈ l := by
  induction fuel generalizing a l with
  | zero => cases hs
  | succ fuel ih =>
    have htail := hc.tail
    cases hn : next a with
    | none =>
      simp only [searchAfter, hn] at hs
      cases hs
    | some b =>
      rw [hn] at htail
      obtain ⟨t, rfl, -⟩ := chain_some_iff.mp htail
      simp only [searchAfter, hn] at hs
      split at hs
      · rename_i hbx
        rw [hbx]
        exact List.mem_cons_self
      · exact List.mem_cons_of_mem b (ih htail hs)

/-- With at least as much fuel as the chain is long, the search ends. -/
theorem Chain.searchAfter_ne_spinning {a x : α} {fuel : ℕ} (hc : Chain next (some a) l)
    (hf : l.length ≤ fuel) : searchAfter next x fuel a ≠ .spinning := by
  induction fuel generalizing a l with
  | zero =>
    obtain ⟨r, rfl, -⟩ := chain_some_iff.mp hc
    simp at hf
  | succ fuel ih =>
    obtain ⟨r, rfl, hr⟩ := chain_some_iff.mp hc
    cases hn : next a with
    | none => simp [searchAfter, hn]
    | some q =>
      simp only [searchAfter, hn]
      split
      · simp
      · rw [hn] at hr
        exact ih hr (by simpa using hf)

/-! ### The circular reading -/

omit [DecidableEq α] in
/-- The successor of `a`, or the head after the last element. -/
def cyclicNext (next : α → Option α) (h : Option α) (a : α) : Option α :=
  match next a with
  | none => h
  | some b => some b

omit [DecidableEq α] in
/-- Links lead from elements to elements. -/
theorem Chain.next_mem {a b : α} (hc : Chain next h l) (ha : a ∈ l) (hb : next a = some b) :
    b ∈ l := by
  induction hc with
  | nil => simp at ha
  | @cons c l tail ih =>
    rcases List.mem_cons.mp ha with rfl | hal
    · rw [hb] at tail
      obtain ⟨t, rfl, -⟩ := chain_some_iff.mp tail
      simp
    · exact List.mem_cons_of_mem c (ih hal)

omit [DecidableEq α] in
theorem Chain.cyclicNext_mem {a b : α} (hc : Chain next h l) (ha : a ∈ l)
    (hb : cyclicNext next h a = some b) : b ∈ l := by
  cases hn : next a with
  | some c =>
    simp only [cyclicNext, hn, Option.some.injEq] at hb
    exact hb ▸ hc.next_mem ha hn
  | none =>
    simp only [cyclicNext, hn] at hb
    subst hb
    obtain ⟨t, rfl, -⟩ := chain_some_iff.mp hc
    simp

/-- Each element of the list is the circular successor of the one before it, the first one of `a`. -/
def CyclicPath (next : α → Option α) (h : Option α) : α → List α → Prop
  | _, [] => True
  | a, b :: l => cyclicNext next h a = some b ∧ CyclicPath next h b l

omit [DecidableEq α] in
/-- A chain reached by a circular step is circled through up to any of its elements. -/
theorem Chain.cyclicPath_to {h' : Option α} {a c : α} {l₁ l₂ : List α}
    (hc : Chain next h' (l₁ ++ a :: l₂)) (hstep : cyclicNext next h c = h') :
    CyclicPath next h c (l₁ ++ [a]) := by
  induction l₁ generalizing h' c with
  | nil =>
    obtain ⟨rfl, -⟩ := hc.head_eq
    exact ⟨hstep, trivial⟩
  | cons b l₁ ih =>
    obtain ⟨rfl, htail⟩ := hc.head_eq
    refine ⟨hstep, ih htail ?_⟩
    cases hn : next b with
    | none =>
      rw [hn] at htail
      exact absurd (chain_none_iff.mp htail) (by simp)
    | some d => simp [cyclicNext, hn]

omit [DecidableEq α] in
/-- After the rest of a chain the circle goes on as it does after a last element. -/
theorem Chain.cyclicPath_append {a : α} {l' : List α} (hc : Chain next (next a) l)
    (hlast : ∀ b, next b = none → CyclicPath next h b l') : CyclicPath next h a (l ++ l') := by
  induction l generalizing a with
  | nil =>
    cases hn : next a with
    | none => exact hlast a hn
    | some b =>
      rw [hn] at hc
      cases hc
  | cons b l ih =>
    obtain ⟨hn, htail⟩ := hc.head_eq
    exact ⟨by simp [cyclicNext, hn], ih htail⟩

omit [DecidableEq α] in
/-- **The circle from an element.**  It goes through the elements after it, then from the head
through those before it, and comes back. -/
theorem Chain.cyclicPath {a : α} {l₁ l₂ : List α} (hc : Chain next h (l₁ ++ a :: l₂)) :
    CyclicPath next h a (l₂ ++ (l₁ ++ [a])) := by
  apply hc.suffix.tail.cyclicPath_append
  intro b hb
  apply hc.cyclicPath_to
  simp [cyclicNext, hb]

/-- `n` circular steps lead from the first element to the second. -/
def CyclicWalk (next : α → Option α) (h : Option α) : ℕ → α → α → Prop
  | 0, a, b => a = b
  | n + 1, a, b => ∃ c, cyclicNext next h a = some c ∧ CyclicWalk next h n c b

omit [DecidableEq α] in
theorem CyclicWalk.trans {m n : ℕ} {a b c : α} (hab : CyclicWalk next h m a b)
    (hbc : CyclicWalk next h n b c) : CyclicWalk next h (m + n) a c := by
  induction m generalizing a with
  | zero =>
    obtain rfl : a = b := hab
    rw [Nat.zero_add]
    exact hbc
  | succ m ih =>
    obtain ⟨d, hd, hdb⟩ := hab
    rw [Nat.succ_add]
    exact ⟨d, hd, ih hdb⟩

omit [DecidableEq α] in
/-- From its first element a chain leads to each of its elements, wherever it wraps round to. -/
theorem Chain.cyclicWalk_to {a b : α} (h' : Option α) (hc : Chain next (some a) l) (hb : b ∈ l) :
    ∃ n, CyclicWalk next h' n a b := by
  induction l generalizing a with
  | nil => simp at hb
  | cons c l ih =>
    obtain ⟨hac, htail⟩ := hc.head_eq
    obtain rfl := Option.some.inj hac
    rcases List.mem_cons.mp hb with rfl | hbl
    · exact ⟨0, rfl⟩
    · cases hn : next a with
      | none =>
        rw [hn] at htail
        rw [chain_none_iff.mp htail] at hbl
        simp at hbl
      | some d =>
        rw [hn] at htail
        obtain ⟨n, hwalk⟩ := ih htail hbl
        exact ⟨n + 1, d, by simp [cyclicNext, hn], hwalk⟩

omit [DecidableEq α] in
/-- The part of a chain that starts at one of its elements is a chain. -/
theorem Chain.from_mem {a : α} (hc : Chain next h l) (ha : a ∈ l) :
    ∃ t, Chain next (some a) t := by
  induction hc with
  | nil => simp at ha
  | @cons c l tail ih =>
    rcases List.mem_cons.mp ha with rfl | hal
    · exact ⟨a :: l, Chain.cons tail⟩
    · exact ih hal

omit [DecidableEq α] in
/-- From its first element a chain wraps round to the element its end leads to. -/
theorem Chain.cyclicWalk_wrap {a b : α} (hc : Chain next (some a) l) :
    ∃ n, CyclicWalk next (some b) (n + 1) a b := by
  induction l generalizing a with
  | nil => cases hc
  | cons c l ih =>
    obtain ⟨hac, htail⟩ := hc.head_eq
    obtain rfl := Option.some.inj hac
    cases hn : next a with
    | none => exact ⟨0, b, by simp [cyclicNext, hn], rfl⟩
    | some d =>
      rw [hn] at htail
      obtain ⟨n, hwalk⟩ := ih htail
      exact ⟨n + 1, d, by simp [cyclicNext, hn], hwalk⟩

omit [DecidableEq α] in
/-- **Going round.**  Circular steps lead from any element of a chain to any other, and back to
itself. -/
theorem Chain.cyclicWalk {a b : α} (hc : Chain next h l) (ha : a ∈ l) (hb : b ∈ l) :
    ∃ n, CyclicWalk next h (n + 1) a b := by
  cases hc with
  | nil => simp at ha
  | @cons c l tail =>
    have hc : Chain next (some c) (c :: l) := Chain.cons tail
    obtain ⟨t, hat⟩ := hc.from_mem ha
    obtain ⟨m, hac⟩ := hat.cyclicWalk_wrap (b := c)
    obtain ⟨n, hcb⟩ := hc.cyclicWalk_to (some c) hb
    refine ⟨m + n, ?_⟩
    rw [show m + n + 1 = m + 1 + n by omega]
    exact hac.trans hcb

omit [DecidableEq α] in
/-- The circular steps along a path. -/
theorem CyclicPath.cyclicWalk {a b : α} {l₁ l₂ : List α} (hp : CyclicPath next h a (l₁ ++ b :: l₂)) :
    CyclicWalk next h (l₁.length + 1) a b := by
  induction l₁ generalizing a with
  | nil => exact ⟨b, hp.1, rfl⟩
  | cons c l₁ ih => exact ⟨c, hp.1, ih hp.2⟩

omit [DecidableEq α] in
/-- Going round takes no more steps than the chain is long. -/
theorem Chain.cyclicWalk_le {a b : α} (hc : Chain next h l) (ha : a ∈ l) (hb : b ∈ l) :
    ∃ n < l.length, CyclicWalk next h (n + 1) a b := by
  obtain ⟨l₁, l₂, rfl⟩ := List.append_of_mem ha
  have hround : b ∈ l₂ ++ (l₁ ++ [a]) := by
    simp only [List.mem_append, List.mem_cons, List.not_mem_nil, or_false] at hb ⊢
    tauto
  obtain ⟨m₁, m₂, hm⟩ := List.append_of_mem hround
  have hpath := hc.cyclicPath
  have hlen := congrArg List.length hm
  rw [hm] at hpath
  refine ⟨m₁.length, ?_, hpath.cyclicWalk⟩
  simp only [List.length_append, List.length_cons, List.length_nil] at hlen ⊢
  omega

end IntrusiveList
