import OmochaOS.Lib.DoublyLinkedList
import OmochaOS.Lib.PointerWalk
import OmochaOS.Lib.StableInsertion
import Mathlib.Algebra.Order.Ring.Int
import Mathlib.Data.List.Induction

/-!
# The order of the drivers (`core/driver.c`)

`core_init_driver` sorts the declarations of the drivers by their level before it calls them.  It builds a
doubly linked list of nodes, one for each declaration, in a page of its own, and puts each new node behind
the last one whose level is not larger.  It looks for that one from the tail back, as long as there is a node
in front: the first node is not looked at.

A node is the position of its declaration counted from one, and 0 is `NULL`.  The loops carry fuel.

* `insertNode_spec` — where a new node is put;
* `initDriver_sorts_iff` — for which levels the drivers are in order.
-/

namespace OmochaOS.Core

open DoublyLinkedList StableInsertion

variable {δ : Type}

/-- The working list: `dlist_block`, `head` and `tail`, over declarations `δ`. -/
structure DriverList (δ : Type) where
  data : ℕ → Option δ
  prev : ℕ → ℕ
  next : ℕ → ℕ
  head : ℕ
  tail : ℕ

/-- `p->data->level`, for a node that has a declaration. -/
def DriverList.level (level : δ → ℤ) (w : DriverList δ) (p : ℕ) : ℤ := (w.data p).elim 0 level

/-- `while (p->prev) { if (p->data->level <= this_level) …; p = p->prev; }`: the node that the new one is put
behind, or none. -/
def searchBack (level : δ → ℤ) (w : DriverList δ) (thisLevel : ℤ) : ℕ → ℕ → Option (Option ℕ)
  | 0, _ => none
  | fuel + 1, p =>
    if w.prev p = 0 then some none
    else if w.level level p ≤ thisLevel then some (some p)
    else searchBack level w thisLevel fuel (w.prev p)

/-- The node `this` with its declaration and no links. -/
def DriverList.withNode (w : DriverList δ) (this : ℕ) (d : δ) : DriverList δ :=
  { w with
    data := Function.update w.data this (some d)
    prev := Function.update w.prev this 0
    next := Function.update w.next this 0 }

/-- `tail->next = this; this->prev = tail; tail = this;`. -/
def DriverList.append (w : DriverList δ) (this : ℕ) : DriverList δ :=
  { w with
    next := Function.update w.next w.tail this
    prev := Function.update w.prev this w.tail
    tail := this }

/-- `p->next->prev = this; this->next = p->next; this->prev = p; p->next = this;`. -/
def DriverList.insertBehind (w : DriverList δ) (p this : ℕ) : DriverList δ :=
  { w with
    prev := Function.update (Function.update w.prev (w.next p) this) this p
    next := Function.update (Function.update w.next this (w.next p)) p this }

/-- `head->prev = this; this->next = head; this->prev = NULL; head = this;`. -/
def DriverList.insertFront (w : DriverList δ) (this : ℕ) : DriverList δ :=
  { w with
    prev := Function.update (Function.update w.prev w.head this) this 0
    next := Function.update w.next this w.head
    head := this }

/-- The new node behind `p`, or in front of all. -/
def DriverList.place (w : DriverList δ) (this : ℕ) : Option ℕ → DriverList δ
  | none => w.insertFront this
  | some p => w.insertBehind p this

/-- The body of the loop over the declarations. -/
def insertNode (level : δ → ℤ) (fuel : ℕ) (w : DriverList δ) (this : ℕ) (d : δ) :
    Option (DriverList δ) := do
  let w := w.withNode this d
  if w.level level w.tail ≤ level d then pure (w.append this)
  else
    let p ← searchBack level w (level d) fuel w.tail
    pure (w.place this p)

/-- The list with the first declaration. -/
def DriverList.single (d : δ) : DriverList δ where
  data := Function.update (fun _ => none) 1 (some d)
  prev := fun _ => 0
  next := fun _ => 0
  head := 1
  tail := 1

/-- `while (current_driver != NULL)`: the declarations from `current` on, with `this` for the next node. -/
def resort (level : δ → ℤ) (next : δ → Option δ) :
    ℕ → Option δ → ℕ → DriverList δ → Option (DriverList δ)
  | 0, _, _, _ => none
  | fuel + 1, current, this, w =>
    match current with
    | none => some w
    | some d => do
      let w ← insertNode level fuel w this d
      resort level next fuel (next d) (this + 1) w

/-- `while (d) { d->data->next = d->next ? d->next->data : NULL; d = d->next; }`. -/
def relink [DecidableEq δ] (w : DriverList δ) : ℕ → ℕ → (δ → Option δ) → Option (δ → Option δ)
  | 0, _, _ => none
  | fuel + 1, p, next =>
    if p = 0 then some next
    else
      match w.data p with
      | none => none
      | some d => relink w fuel (w.next p)
          (Function.update next d (if w.next p = 0 then none else w.data (w.next p)))

/-- The sorting in `core_init_driver`: `drivers->next`, and the `next` fields of the declarations. -/
def sortDrivers [DecidableEq δ] (level : δ → ℤ) (fuel : ℕ) (next : δ → Option δ) (first : δ) :
    Option (Option δ × (δ → Option δ)) := do
  let w ← resort level next fuel (next first) 2 (DriverList.single first)
  let next ← relink w fuel w.head next
  pure (w.data w.head, next)

/-! ### What the list should be -/

/-- From `p` on the declarations are linked as in the list, up to `NULL`. -/
def Visits (next : δ → Option δ) : Option δ → List δ → Prop
  | p, [] => p = none
  | p, d :: ds => p = some d ∧ Visits next (next d) ds

/-- The declarations of some nodes. -/
def DriverList.decls (w : DriverList δ) (nodes : List ℕ) : List δ := nodes.filterMap w.data

/-- The working list has the nodes before `this`, and its links are inverse to each other. -/
structure DriverList.IsList (w : DriverList δ) (nodes : List ℕ) (this : ℕ) : Prop where
  nodup : nodes.Nodup
  length : nodes.length + 1 = this
  head : nodes.head? = some w.head
  tail : nodes.getLast? = some w.tail
  inverse : ∀ p ∈ nodes, ∀ q ∈ nodes, w.next p = q ↔ w.prev q = p
  prev_head : w.prev w.head = 0
  next_tail : w.next w.tail = 0

/-- The states of the loop: the declaration that is next, its node, and the working list. -/
inductive LoopState (level : δ → ℤ) (next : δ → Option δ) (first : δ) :
    Option δ → ℕ → DriverList δ → Prop
  | start : LoopState level next first (next first) 2 (DriverList.single first)
  | step {d : δ} {this fuel : ℕ} {w w' : DriverList δ} (h : LoopState level next first (some d) this w)
      (hrun : insertNode level fuel w this d = some w') :
      LoopState level next first (next d) (this + 1) w'

/-- The declarations `ds` are in order at the end, and the working list was one all the time. -/
structure SortsDrivers [DecidableEq δ] (level : δ → ℤ) (next : δ → Option δ) (first : δ) (ds : List δ) :
    Prop where
  sorted : ∃ N, ∀ fuel ≥ N, ∃ r l, sortDrivers level fuel next first = some r ∧ Visits r.2 r.1 l ∧
    IsStableSort level ds l
  links : ∀ current this w, LoopState level next first current this w → ∃ nodes, w.IsList nodes this

variable {level : δ → ℤ} {next next' : δ → Option δ} {w w' : DriverList δ} {nodes l l' r : List ℕ}
  {x first d : δ} {ds pre rest ds' : List δ} {current : Option δ} {this p fuel : ℕ}

/-! ### Where a declaration is put -/

/-- The place of a declaration: behind the last one, behind another one that is not the first, or in front. -/
inductive Placed (level : δ → ℤ) (x : δ) : List δ → List δ → Prop
  | last {ds : List δ} {a : δ} (ha : level a ≤ level x) : Placed level x (ds ++ [a]) (ds ++ [a, x])
  | behind {h a : δ} {ds rest : List δ} (ha : level a ≤ level x) (hrest : ∀ b ∈ rest, level x < level b) :
      Placed level x (h :: (ds ++ a :: rest)) (h :: (ds ++ a :: x :: rest))
  | front {h : δ} {rest : List δ} (hrest : ∀ b ∈ rest, level x < level b)
      (hone : rest = [] → level x < level h) : Placed level x (h :: rest) (x :: h :: rest)

theorem Placed.perm (h : Placed level x ds ds') : ds'.Perm (x :: ds) := by
  cases h with
  | last _ =>
    rw [List.append_cons]
    exact List.perm_append_singleton _ _
  | @behind h a ds rest _ _ =>
    rw [List.append_cons ds a (x :: rest), ← List.cons_append, List.append_cons ds a rest,
      ← List.cons_append]
    exact List.perm_middle
  | front _ _ => exact List.Perm.refl _

theorem countP_eq_zero_of_lt (h : ∀ b ∈ ds, level x < level b) :
    ds.countP (fun a => level a ≤ level x) = 0 := by
  apply List.countP_eq_zero.mpr
  intro b hb
  simpa using h b hb

/-- No declaration behind the second one has exactly one before it with a level that is not larger. -/
def NeverOne (level : δ → ℤ) (ds : List δ) : Prop :=
  ∀ i, 2 ≤ i → ∀ hi : i < ds.length, (ds.take i).countP (fun a => level a ≤ level ds[i]) ≠ 1

/-- **One declaration.**  It is put in its place unless there are two, and it belongs between the first one and
the others. -/
theorem Placed.stable_iff (h : Placed level x ds ds') (hperm : ds.Perm pre) (hnew : x ∉ pre) :
    IsStableSort level (pre ++ [x]) ds' ↔
      IsStableSort level pre ds ∧ (2 ≤ pre.length → pre.countP (fun a => level a ≤ level x) ≠ 1) := by
  rw [← hperm.length_eq, ← hperm.countP_eq]
  cases h with
  | @last ds a ha =>
    rw [List.append_cons ds a [x], IsStableSort.insert_iff hnew, List.append_nil]
    constructor
    · rintro ⟨hsort, hlow, -⟩
      refine ⟨hsort, fun htwo => ?_⟩
      rw [List.countP_eq_length.mpr fun b hb => by simpa using hlow b hb]
      omega
    · rintro ⟨hsort, -⟩
      refine ⟨hsort, fun b hb => ?_, fun b hb => absurd hb List.not_mem_nil⟩
      rcases List.mem_append.mp hb with hb | hb
      · exact le_trans ((List.pairwise_append.mp hsort.sorted).2.2 b hb a List.mem_cons_self) ha
      · rw [List.mem_singleton.mp hb]
        exact ha
  | @behind h a ds rest ha hrest =>
    have hsplit : h :: (ds ++ a :: x :: rest) = (h :: (ds ++ [a])) ++ x :: rest := by simp
    have hwhole : h :: (ds ++ a :: rest) = (h :: (ds ++ [a])) ++ rest := by simp
    rw [hsplit, hwhole, IsStableSort.insert_iff hnew]
    have hlow : IsStableSort level pre (h :: (ds ++ [a]) ++ rest) →
        ∀ b ∈ h :: (ds ++ [a]), level b ≤ level x := by
      intro hsort b hb
      have hsorted : ((h :: ds) ++ [a]).Pairwise fun a b => level a ≤ level b :=
        (List.pairwise_append.mp hsort.sorted).1
      rw [← List.cons_append] at hb
      rcases List.mem_append.mp hb with hb | hb
      · exact le_trans ((List.pairwise_append.mp hsorted).2.2 b hb a List.mem_cons_self) ha
      · rw [List.mem_singleton.mp hb]
        exact ha
    constructor
    · rintro ⟨hsort, hle, -⟩
      refine ⟨hsort, fun _ => ?_⟩
      rw [List.countP_append, List.countP_eq_length.mpr fun b hb => by simpa using hle b hb,
        List.length_cons, List.length_append, List.length_singleton]
      omega
    · rintro ⟨hsort, -⟩
      exact ⟨hsort, hlow hsort, hrest⟩
  | @front h rest hrest hone =>
    rw [← List.nil_append (x :: h :: rest), IsStableSort.insert_iff hnew, List.nil_append]
    constructor
    · rintro ⟨hsort, -, hhigh⟩
      refine ⟨hsort, fun _ => ?_⟩
      rw [countP_eq_zero_of_lt hhigh]
      exact Nat.zero_ne_one
    · rintro ⟨hsort, hcount⟩
      refine ⟨hsort, fun b hb => absurd hb List.not_mem_nil, fun b hb => ?_⟩
      rcases List.mem_cons.mp hb with rfl | hb
      · by_cases hnil : rest = []
        · exact hone hnil
        · by_contra hle
          have htwo : 2 ≤ (b :: rest).length := by
            rw [List.length_cons]
            exact Nat.succ_le_succ (List.length_pos_iff.mpr hnil)
          apply hcount htwo
          rw [List.countP_cons_of_pos (by simpa using hle), countP_eq_zero_of_lt hrest]
      · exact hrest b hb

theorem neverOne_append : NeverOne level (pre ++ [x]) ↔
    NeverOne level pre ∧ (2 ≤ pre.length → pre.countP (fun a => level a ≤ level x) ≠ 1) := by
  constructor
  · intro h
    constructor
    · intro i hi hlt
      have hbound : i < (pre ++ [x]).length := by
        rw [List.length_append]
        omega
      have hcount := h i hi hbound
      rw [List.take_append_of_le_length (Nat.le_of_lt hlt), List.getElem_append_left hlt] at hcount
      exact hcount
    · intro htwo
      have hbound : pre.length < (pre ++ [x]).length := by
        rw [List.length_append]
        exact Nat.lt_succ_self _
      have hcount := h pre.length htwo hbound
      rw [List.take_left, List.getElem_append_right (Nat.le_refl _)] at hcount
      simpa using hcount
  · rintro ⟨hpre, hlast⟩ i hi hlt
    by_cases hin : i < pre.length
    · rw [List.take_append_of_le_length (Nat.le_of_lt hin), List.getElem_append_left hin]
      exact hpre i hi hin
    · have heq : i = pre.length := by
        rw [List.length_append, List.length_singleton] at hlt
        omega
      subst heq
      rw [List.take_left, List.getElem_append_right (Nat.le_refl _)]
      simpa using hlast hi

/-! ### One node -/

/-- The working list is linked along `nodes`, and each has a declaration. -/
structure DriverList.Represents (w : DriverList δ) (nodes : List ℕ) (this : ℕ) : Prop where
  linked : Linked w.prev w.next 0 0 w.head nodes
  nodup : nodes.Nodup
  length : nodes.length + 1 = this
  tail : nodes.getLast? = some w.tail
  below : ∀ p ∈ nodes, p < this
  data : ∀ p ∈ nodes, ∃ d, w.data p = some d
  null : w.data 0 = none

namespace DriverList

theorem level_eq (level : δ → ℤ) (h : w.data p = some d) : w.level level p = level d := by
  rw [DriverList.level, h, Option.elim_some]

theorem decls_append : w.decls (l ++ r) = w.decls l ++ w.decls r := List.filterMap_append

theorem decls_cons (h : w.data p = some d) : w.decls (p :: l) = d :: w.decls l :=
  List.filterMap_cons_some h

theorem decls_congr (h : ∀ p ∈ l, w'.data p = w.data p) : w'.decls l = w.decls l :=
  List.filterMap_congr h

theorem length_decls (h : ∀ p ∈ l, ∃ d, w.data p = some d) : (w.decls l).length = l.length := by
  induction l with
  | nil => rfl
  | cons p l ih =>
    obtain ⟨d, hd⟩ := h p List.mem_cons_self
    rw [decls_cons hd, List.length_cons, List.length_cons, ih fun q hq => h q (List.mem_cons_of_mem p hq)]

/-- A declaration behind which all have a larger level. -/
theorem lt_of_mem_decls {v : ℤ} (h : ∀ p ∈ l, v < w.level level p) (hd : d ∈ w.decls l) : v < level d := by
  obtain ⟨p, hp, heq⟩ := List.mem_filterMap.mp hd
  rw [← level_eq level heq]
  exact h p hp

namespace Represents

theorem ne_nil (h : w.Represents nodes this) : nodes ≠ [] := by
  rintro rfl
  have htail := h.tail
  cases htail

theorem notMem (h : w.Represents nodes this) : this ∉ nodes := fun hmem =>
  Nat.lt_irrefl this (h.below this hmem)

theorem ne_of_mem (h : w.Represents nodes this) (hp : p ∈ nodes) : p ≠ this :=
  Nat.ne_of_lt (h.below p hp)

theorem this_ne (h : w.Represents nodes this) : this ≠ 0 := by
  have hlength := h.length
  omega

theorem isList (h : w.Represents nodes this) : w.IsList nodes this := by
  have hnull := h.linked.ne_null
  have hback : 0 ∉ nodes := fun hmem => hnull 0 hmem rfl
  obtain ⟨l, hl⟩ := List.getLast?_eq_some_iff.mp h.tail
  have hhead : nodes.head? = some w.head := by
    cases nodes with
    | nil => exact absurd rfl h.ne_nil
    | cons a nodes =>
      rw [List.head?_cons, h.linked.head_eq]
  refine ⟨h.nodup, h.length, hhead, h.tail, fun p hp q hq => h.linked.next_eq_iff h.nodup hback hp hq, ?_, ?_⟩
  · exact (h.linked.prev_eq_null_iff (List.mem_of_mem_head? hhead) h.nodup).mpr rfl
  · have hlinked := h.linked
    rw [hl] at hlinked
    exact hlinked.next_last

/-- A list with the new node in it. -/
theorem insert (h : w.Represents nodes this) (hlinked : Linked w'.prev w'.next 0 0 w'.head l)
    (hperm : l.Perm (this :: nodes)) (htail : l.getLast? = some w'.tail)
    (hdata : w'.data = Function.update w.data this (some d)) : w'.Represents l (this + 1) where
  linked := hlinked
  nodup := hperm.nodup_iff.mpr (List.nodup_cons.mpr ⟨h.notMem, h.nodup⟩)
  length := by rw [hperm.length_eq, List.length_cons, h.length]
  tail := htail
  below := by
    intro p hp
    rcases List.mem_cons.mp (hperm.mem_iff.mp hp) with rfl | hp
    · exact Nat.lt_succ_self p
    · exact Nat.lt_succ_of_lt (h.below p hp)
  data := by
    intro p hp
    rw [hdata]
    by_cases hpt : p = this
    · rw [hpt, Function.update_self]
      exact ⟨d, rfl⟩
    · rw [Function.update_of_ne hpt]
      exact h.data p ((List.mem_cons.mp (hperm.mem_iff.mp hp)).resolve_left hpt)
  null := by rw [hdata, Function.update_of_ne h.this_ne.symm, h.null]

/-- The new node does not disturb the list. -/
theorem withNode_linked (h : w.Represents nodes this) :
    Linked (w.withNode this d).prev (w.withNode this d).next 0 0 w.head nodes := by
  apply h.linked.congr
  · intro p hp
    exact Function.update_of_ne (h.ne_of_mem hp) _ _
  · intro p hp
    exact Function.update_of_ne (h.ne_of_mem hp) _ _

theorem decls_insert (h : w.Represents nodes this) (hdata : w'.data = Function.update w.data this (some d))
    (hl : l ⊆ nodes) : w'.decls l = w.decls l := by
  apply decls_congr
  intro p hp
  rw [hdata]
  exact Function.update_of_ne (h.ne_of_mem (hl hp)) _ _

theorem decls_new (hdata : w'.data = Function.update w.data this (some d)) :
    w'.decls (this :: l) = d :: w'.decls l := by
  apply decls_cons
  rw [hdata, Function.update_self]

/-! ### The loop from the tail back -/

/-- The nodes behind the first one are looked at from the end on. -/
theorem searchBack_spec (level : δ → ℤ) (v : ℤ) {h₀ : ℕ} (hlinked : Linked w.prev w.next 0 0 w.head (h₀ :: l ++ r))
    (hlast : (h₀ :: l).getLast? = some p) (hfuel : l.length < fuel) :
    searchBack level w v fuel p = some (l.reverse.find? fun p => w.level level p ≤ v) := by
  induction l using List.reverseRecOn generalizing r p fuel with
  | nil =>
    obtain ⟨fuel, rfl⟩ := Nat.exists_eq_add_one_of_ne_zero (Nat.ne_of_gt hfuel)
    obtain rfl : h₀ = p := Option.some.inj hlast
    obtain ⟨-, -, hprev, -⟩ := hlinked
    rw [searchBack, if_pos hprev]
    rfl
  | append_singleton l a ih =>
    rw [List.length_append, List.length_singleton] at hfuel
    obtain ⟨fuel, rfl⟩ := Nat.exists_eq_add_one_of_ne_zero (Nat.ne_of_gt (Nat.zero_lt_of_lt hfuel))
    obtain rfl : a = p := by
      rw [← List.cons_append, List.getLast?_concat] at hlast
      exact Option.some.inj hlast
    have hwhole : h₀ :: (l ++ [a]) ++ r = h₀ :: l ++ a :: r := by simp
    rw [hwhole] at hlinked
    obtain ⟨q, hq⟩ : ∃ q, (h₀ :: l).getLast? = some q := ⟨_, List.getLast?_cons⟩
    have hprev : w.prev a = q := by rw [hlinked.prev_eq, hq, Option.getD_some]
    have hne : w.prev a ≠ 0 := by
      rw [hprev]
      exact hlinked.ne_null q (List.mem_append_left _ (List.mem_of_getLast? hq))
    rw [searchBack, if_neg hne, List.reverse_append, List.reverse_singleton, List.singleton_append]
    by_cases hle : w.level level a ≤ v
    · rw [if_pos hle, List.find?_cons_of_pos (by simpa using hle)]
    · rw [if_neg hle, List.find?_cons_of_neg (by simpa using hle), hprev]
      exact ih hlinked hq (Nat.lt_of_succ_lt_succ hfuel)

/-! ### The three places -/

theorem append_spec (h : w.Represents nodes this) (hnodes : nodes = l ++ [w.tail])
    (hle : w.level level w.tail ≤ level d) :
    ((w.withNode this d).append this).Represents (l ++ [w.tail, this]) (this + 1) ∧
      Placed level d (w.decls nodes) (((w.withNode this d).append this).decls (l ++ [w.tail, this])) := by
  have hdata : ((w.withNode this d).append this).data = Function.update w.data this (some d) := rfl
  have hmem : w.tail ∈ nodes := hnodes ▸ List.mem_append_right l List.mem_cons_self
  obtain ⟨a, ha⟩ := h.data _ hmem
  have hlinked := h.withNode_linked (d := d)
  rw [hnodes] at hlinked
  have hinsert := hlinked.insert (hnodes ▸ h.nodup) (hnodes ▸ h.notMem) h.this_ne
  have hnext : (w.withNode this d).next w.tail = 0 := hlinked.next_last
  rw [hnext] at hinsert
  have hlinked' : Linked ((w.withNode this d).append this).prev ((w.withNode this d).append this).next 0 0
      w.head (l ++ [w.tail, this]) := by
    apply hinsert.congr
    · intro q hq
      have hq0 : q ≠ 0 := hinsert.ne_null q hq
      show Function.update (w.withNode this d).prev this w.tail q = _
      by_cases hqt : q = this
      · rw [hqt, Function.update_self, Function.update_self]
      · rw [Function.update_of_ne hqt, Function.update_of_ne hqt, Function.update_of_ne hq0]
    · intro q _
      have hidem : Function.update (w.withNode this d).next this 0 = (w.withNode this d).next :=
        Function.update_idem _ _ _
      rw [hidem]
      rfl
  constructor
  · refine h.insert hlinked' ?_ ?_ hdata
    · rw [hnodes, List.append_cons]
      exact List.perm_append_singleton _ _
    · rw [List.append_cons, List.getLast?_concat]
      rfl
  · have hold : ((w.withNode this d).append this).decls nodes = w.decls nodes :=
      h.decls_insert hdata (List.Subset.refl _)
    rw [List.append_cons, ← hnodes, decls_append, hold, decls_new hdata, hnodes, decls_append, decls_cons ha]
    rw [level_eq level ha] at hle
    have hplaced : Placed level d (w.decls l ++ [a]) (w.decls l ++ [a] ++ [d]) := by
      rw [List.append_assoc]
      exact .last hle
    exact hplaced

theorem insertBehind_spec {h₀ : ℕ} (h : w.Represents nodes this) (hnodes : nodes = h₀ :: (l ++ p :: r))
    (hr : r ≠ []) (hle : w.level level p ≤ level d) (hlt : ∀ q ∈ r, level d < w.level level q) :
    ((w.withNode this d).insertBehind p this).Represents (h₀ :: (l ++ p :: this :: r)) (this + 1) ∧
      Placed level d (w.decls nodes)
        (((w.withNode this d).insertBehind p this).decls (h₀ :: (l ++ p :: this :: r))) := by
  have hdata : ((w.withNode this d).insertBehind p this).data = Function.update w.data this (some d) := rfl
  have hsplit : nodes = (h₀ :: l) ++ p :: r := hnodes
  have hsub : ∀ q ∈ nodes, ((w.withNode this d).insertBehind p this).data q = w.data q := fun q hq =>
    Function.update_of_ne (h.ne_of_mem hq) _ _
  obtain ⟨e, he⟩ := h.data h₀ (hnodes ▸ List.mem_cons_self)
  obtain ⟨a, ha⟩ := h.data p (hsplit ▸ List.mem_append_right _ List.mem_cons_self)
  constructor
  · refine h.insert (d := d) ?_ ?_ ?_ hdata
    · have hlinked := h.withNode_linked (d := d)
      rw [hsplit] at hlinked
      exact hlinked.insert (hsplit ▸ h.nodup) (hsplit ▸ h.notMem) h.this_ne
    · rw [hsplit, ← List.cons_append, List.append_cons (h₀ :: l) p (this :: r),
        List.append_cons (h₀ :: l) p r]
      exact List.perm_middle
    · have htail := h.tail
      rw [hsplit, List.append_cons (h₀ :: l) p r, List.getLast?_append_of_ne_nil _ hr] at htail
      rw [← List.cons_append, List.append_cons (h₀ :: l) p (this :: r),
        List.append_cons (h₀ :: l ++ [p]) this r, List.getLast?_append_of_ne_nil _ hr]
      exact htail
  · have hl : ((w.withNode this d).insertBehind p this).decls l = w.decls l := h.decls_insert hdata fun q hq =>
      hsplit ▸ List.mem_append_left _ (List.mem_cons_of_mem h₀ hq)
    have hrest : ((w.withNode this d).insertBehind p this).decls r = w.decls r := h.decls_insert hdata
      fun q hq => hsplit ▸ List.mem_append_right _ (List.mem_cons_of_mem p hq)
    have he' := (hsub h₀ (hnodes ▸ List.mem_cons_self)).trans he
    have ha' := (hsub p (hsplit ▸ List.mem_append_right _ List.mem_cons_self)).trans ha
    rw [hnodes, decls_cons he, decls_append, decls_cons ha, decls_cons he', decls_append, decls_cons ha',
      decls_new hdata, hl, hrest]
    rw [level_eq level ha] at hle
    exact .behind hle fun b hb => lt_of_mem_decls hlt hb

theorem insertFront_spec {h₀ : ℕ} (h : w.Represents nodes this) (hnodes : nodes = h₀ :: r)
    (hlt : ∀ q ∈ r, level d < w.level level q) (hone : level d < w.level level w.tail) :
    ((w.withNode this d).insertFront this).Represents (this :: nodes) (this + 1) ∧
      Placed level d (w.decls nodes) (((w.withNode this d).insertFront this).decls (this :: nodes)) := by
  have hdata : ((w.withNode this d).insertFront this).data = Function.update w.data this (some d) := rfl
  obtain ⟨e, he⟩ := h.data h₀ (hnodes ▸ List.mem_cons_self)
  constructor
  · refine h.insert (d := d) ?_ (List.Perm.refl _) ?_ hdata
    · exact h.withNode_linked.push h.nodup h.notMem h.this_ne
    · have htail := h.tail
      rw [List.getLast?_cons, htail]
      rfl
  · rw [decls_new hdata, h.decls_insert hdata (List.Subset.refl _), hnodes, decls_cons he]
    refine .front (fun b hb => lt_of_mem_decls hlt hb) fun hnil => ?_
    have htail := h.tail
    cases r with
    | nil =>
      rw [hnodes] at htail
      have heq : h₀ = w.tail := Option.some.inj htail
      rw [← heq, level_eq level he] at hone
      exact hone
    | cons q r =>
      obtain ⟨b, hb⟩ := h.data q (hnodes ▸ List.mem_cons_of_mem h₀ List.mem_cons_self)
      rw [decls_cons hb] at hnil
      cases hnil

end Represents

end DriverList

/-- **A new node.** -/
theorem insertNode_spec (h : w.Represents nodes this) (level : δ → ℤ) (d : δ) (hfuel : nodes.length < fuel) :
    ∃ w' l, insertNode level fuel w this d = some w' ∧ w'.Represents l (this + 1) ∧
      Placed level d (w.decls nodes) (w'.decls l) := by
  have hlevel : ∀ q ∈ nodes, (w.withNode this d).level level q = w.level level q := by
    intro q hq
    rw [DriverList.level, DriverList.level]
    show Option.elim (Function.update w.data this (some d) q) 0 level = _
    rw [Function.update_of_ne (h.ne_of_mem hq)]
  have htail : w.tail ∈ nodes := List.mem_of_getLast? h.tail
  rw [insertNode]
  show ∃ w' l, (if (w.withNode this d).level level w.tail ≤ level d then some ((w.withNode this d).append this)
    else (searchBack level (w.withNode this d) (level d) fuel w.tail).bind fun p =>
      some ((w.withNode this d).place this p)) = some w' ∧ _
  rw [hlevel w.tail htail]
  by_cases hle : w.level level w.tail ≤ level d
  · rw [if_pos hle]
    obtain ⟨l, hl⟩ := List.getLast?_eq_some_iff.mp h.tail
    exact ⟨_, _, rfl, h.append_spec hl hle⟩
  · rw [if_neg hle]
    obtain ⟨h₀, r, hnodes⟩ := List.exists_cons_of_ne_nil h.ne_nil
    have hlinked := h.withNode_linked (d := d)
    have hlast := h.tail
    have hlength : r.length < fuel := by
      rw [hnodes, List.length_cons] at hfuel
      exact Nat.lt_of_succ_lt hfuel
    rw [hnodes] at hlinked hlast
    rw [← List.append_nil r, ← List.cons_append] at hlinked
    rw [DriverList.Represents.searchBack_spec level (level d) hlinked hlast hlength]
    have hlevel' : ∀ q ∈ r, (w.withNode this d).level level q = w.level level q := fun q hq =>
      hlevel q (hnodes ▸ List.mem_cons_of_mem h₀ hq)
    cases hfind : r.reverse.find? fun p => (w.withNode this d).level level p ≤ level d with
    | none =>
      refine ⟨_, _, rfl, h.insertFront_spec hnodes (fun q hq => ?_) (lt_of_not_ge hle)⟩
      have hnot := List.find?_eq_none.mp hfind q (List.mem_reverse.mpr hq)
      rw [hlevel' q hq] at hnot
      simpa using hnot
    | some p =>
      obtain ⟨hp, r', l', hsplit, hbehind⟩ := List.find?_eq_some_iff_append.mp hfind
      have hr : r = l'.reverse ++ p :: r'.reverse := by
        rw [← List.reverse_reverse r, hsplit, List.reverse_append, List.reverse_cons, List.append_assoc,
          List.singleton_append]
      have hpr : p ∈ r := hr ▸ List.mem_append_right _ List.mem_cons_self
      rw [hlevel' p hpr] at hp
      have hne : r'.reverse ≠ [] := by
        intro hnil
        rw [hr, hnil, ← List.cons_append, List.getLast?_concat] at hlast
        exact hle (Option.some.inj hlast ▸ of_decide_eq_true hp)
      refine ⟨_, _, rfl, h.insertBehind_spec (hr ▸ hnodes) hne (of_decide_eq_true hp) fun q hq => ?_⟩
      have hqr : q ∈ r := hr ▸ List.mem_append_right _ (List.mem_cons_of_mem p hq)
      have hnot := hbehind q (List.mem_reverse.mp hq)
      rw [hlevel' q hqr] at hnot
      simpa using hnot

/-! ### The declarations -/

theorem Visits.unique {p : Option δ} (h : Visits next p ds) (h' : Visits next p ds') : ds = ds' := by
  induction ds generalizing p ds' with
  | nil =>
    obtain rfl : p = none := h
    cases ds' with
    | nil => rfl
    | cons d ds' => cases h'.1
  | cons d ds ih =>
    obtain ⟨rfl, hrest⟩ := h
    cases ds' with
    | nil => cases h'
    | cons d' ds' =>
      obtain ⟨heq, hrest'⟩ := h'
      obtain rfl := Option.some.inj heq
      rw [ih hrest hrest']

theorem Visits.trail {p : Option δ} (h : Visits next p ds) :
    PointerWalk.Trail (fun p => p.bind next) (· = none) p (ds.map some) := by
  induction ds generalizing p with
  | nil => exact .done h
  | cons d ds ih =>
    obtain ⟨rfl, hrest⟩ := h
    exact .visit (Option.some_ne_none d) (ih hrest)

/-- A list that ends has no declaration twice. -/
theorem Visits.nodup {p : Option δ} (h : Visits next p ds) : ds.Nodup := h.trail.nodup.of_map

/-- The loop over the declarations that are left. -/
theorem resort_spec (h : w.Represents nodes this) (hvisits : Visits next current rest)
    (hperm : (w.decls nodes).Perm pre) (hnodup : (pre ++ rest).Nodup)
    (hiff : IsStableSort level pre (w.decls nodes) ↔ NeverOne level pre)
    (hfuel : nodes.length + 2 * rest.length < fuel) :
    ∃ w' l this', resort level next fuel current this w = some w' ∧ w'.Represents l this' ∧
      (w'.decls l).Perm (pre ++ rest) ∧
      (IsStableSort level (pre ++ rest) (w'.decls l) ↔ NeverOne level (pre ++ rest)) := by
  induction rest generalizing pre w nodes this current fuel with
  | nil =>
    obtain ⟨fuel, rfl⟩ := Nat.exists_eq_add_one_of_ne_zero (Nat.ne_of_gt (Nat.zero_lt_of_lt hfuel))
    obtain rfl : current = none := hvisits
    rw [List.append_nil]
    exact ⟨w, nodes, this, rfl, h, hperm, hiff⟩
  | cons d rest ih =>
    obtain ⟨fuel, rfl⟩ := Nat.exists_eq_add_one_of_ne_zero (Nat.ne_of_gt (Nat.zero_lt_of_lt hfuel))
    obtain ⟨rfl, hrest⟩ := hvisits
    rw [List.length_cons] at hfuel
    obtain ⟨w', l, hrun, hrep, hplaced⟩ := insertNode_spec h level d (show nodes.length < fuel by omega)
    rw [List.append_cons] at hnodup ⊢
    have hnew : d ∉ pre := by
      have hpre := (List.nodup_append.mp hnodup).1
      exact fun hmem => (List.nodup_append.mp hpre).2.2 d hmem d List.mem_cons_self rfl
    have hlength : l.length = nodes.length + 1 := by
      have hbefore := h.length
      have hafter := hrep.length
      omega
    have hperm' : (w'.decls l).Perm (pre ++ [d]) :=
      (hplaced.perm.trans (hperm.cons d)).trans (List.perm_append_singleton d pre).symm
    have hiff' : IsStableSort level (pre ++ [d]) (w'.decls l) ↔ NeverOne level (pre ++ [d]) := by
      rw [hplaced.stable_iff hperm hnew, neverOne_append, hiff]
    have hfuel' : l.length + 2 * rest.length < fuel := by omega
    obtain ⟨w'', l'', this'', hrun'', hresult⟩ := ih hrep hrest hperm' hnodup hiff' hfuel'
    refine ⟨w'', l'', this'', ?_, hresult⟩
    rw [resort]
    show ((insertNode level fuel w this d).bind fun w => resort level next fuel (next d) (this + 1) w) = _
    rw [hrun]
    exact hrun''

theorem represents_single : (DriverList.single first).Represents [1] 2 where
  linked := ⟨rfl, Nat.one_ne_zero, rfl, rfl⟩
  nodup := List.nodup_singleton 1
  length := rfl
  tail := rfl
  below := by
    intro p hp
    rw [List.mem_singleton.mp hp]
    exact Nat.lt_succ_self 1
  data := by
    intro p hp
    rw [List.mem_singleton.mp hp]
    exact ⟨first, rfl⟩
  null := rfl

theorem decls_single : (DriverList.single first).decls [1] = [first] := rfl

/-! ### The states of the loop -/

theorem searchBack_mono {v : ℤ} {found : Option ℕ} {fuel' : ℕ} (hle : fuel ≤ fuel')
    (h : searchBack level w v fuel p = some found) : searchBack level w v fuel' p = some found := by
  induction fuel generalizing p fuel' with
  | zero => cases h
  | succ fuel ih =>
    obtain ⟨fuel', rfl⟩ : ∃ f, fuel' = f + 1 := ⟨fuel' - 1, by omega⟩
    rw [searchBack] at h ⊢
    by_cases hprev : w.prev p = 0
    · rw [if_pos hprev] at h ⊢
      exact h
    · rw [if_neg hprev] at h ⊢
      by_cases hlevel : w.level level p ≤ v
      · rw [if_pos hlevel] at h ⊢
        exact h
      · rw [if_neg hlevel] at h ⊢
        exact ih (Nat.le_of_succ_le_succ hle) h

theorem insertNode_mono {fuel' : ℕ} (hle : fuel ≤ fuel') (h : insertNode level fuel w this d = some w') :
    insertNode level fuel' w this d = some w' := by
  rw [insertNode] at h ⊢
  replace h : (if (w.withNode this d).level level w.tail ≤ level d then some ((w.withNode this d).append this)
    else (searchBack level (w.withNode this d) (level d) fuel w.tail).bind fun p =>
      some ((w.withNode this d).place this p)) = some w' := h
  show (if (w.withNode this d).level level w.tail ≤ level d then some ((w.withNode this d).append this)
    else (searchBack level (w.withNode this d) (level d) fuel' w.tail).bind fun p =>
      some ((w.withNode this d).place this p)) = some w'
  by_cases hlevel : (w.withNode this d).level level w.tail ≤ level d
  · rw [if_pos hlevel] at h ⊢
    exact h
  · rw [if_neg hlevel] at h ⊢
    obtain ⟨p, hp, h⟩ := Option.bind_eq_some_iff.mp h
    rw [searchBack_mono hle hp]
    exact h

/-- The working list is one in each state of the loop. -/
theorem LoopState.represents (h : LoopState level next first current this w) :
    ∃ nodes, w.Represents nodes this := by
  induction h with
  | start => exact ⟨[1], represents_single⟩
  | @step d this fuel w w' _ hrun ih =>
    obtain ⟨nodes, hnodes⟩ := ih
    obtain ⟨w'', l, hrun', hrep, -⟩ := insertNode_spec hnodes level d
      (show nodes.length < fuel + nodes.length + 1 by omega)
    have hmono := insertNode_mono (show fuel ≤ fuel + nodes.length + 1 by omega) hrun
    obtain rfl := Option.some.inj (hmono.symm.trans hrun')
    exact ⟨l, hrep⟩

/-! ### The order of the declarations -/

section Relink

variable [DecidableEq δ]

/-- The declaration of a node. -/
def DriverList.pointee (w : DriverList δ) (p : ℕ) : Option δ := if p = 0 then none else w.data p

/-- The declarations get the order of their nodes. -/
theorem relink_spec {back : ℕ} (hlinked : Linked w.prev w.next 0 back p nodes)
    (hdata : ∀ q ∈ nodes, ∃ d, w.data q = some d) (hnodup : (w.decls nodes).Nodup)
    (hfuel : nodes.length < fuel) (next : δ → Option δ) :
    ∃ next', relink w fuel p next = some next' ∧ (∀ d ∉ w.decls nodes, next' d = next d) ∧
      Visits next' (w.pointee p) (w.decls nodes) := by
  induction nodes generalizing back p next fuel with
  | nil =>
    obtain ⟨fuel, rfl⟩ := Nat.exists_eq_add_one_of_ne_zero (Nat.ne_of_gt hfuel)
    obtain rfl : p = 0 := hlinked
    exact ⟨next, if_pos rfl, fun _ _ => rfl, if_pos rfl⟩
  | cons a nodes ih =>
    obtain ⟨fuel, rfl⟩ := Nat.exists_eq_add_one_of_ne_zero (Nat.ne_of_gt (Nat.zero_lt_of_lt hfuel))
    obtain ⟨rfl, hne, -, hrest⟩ := hlinked
    obtain ⟨d, hd⟩ := hdata p List.mem_cons_self
    rw [DriverList.decls_cons hd] at hnodup ⊢
    obtain ⟨hnot, hnodup⟩ := List.nodup_cons.mp hnodup
    obtain ⟨next', hrun, hkeep, hvisits⟩ := ih hrest (fun q hq => hdata q (List.mem_cons_of_mem p hq)) hnodup
      (Nat.lt_of_succ_lt_succ hfuel) (Function.update next d (w.pointee (w.next p)))
    have hnext : next' d = w.pointee (w.next p) := by rw [hkeep d hnot, Function.update_self]
    refine ⟨next', ?_, fun e he => ?_, ?_⟩
    · rw [relink, if_neg hne, hd]
      exact hrun
    · have hne' : e ≠ d := fun heq => he (heq ▸ List.mem_cons_self)
      rw [hkeep e (fun hmem => he (List.mem_cons_of_mem d hmem)), Function.update_of_ne hne']
    · refine ⟨?_, ?_⟩
      · rw [DriverList.pointee, if_neg hne, hd]
      · rw [hnext]
        exact hvisits

/-- With fuel the loops end, and the declarations are those of the working list. -/
theorem sortDrivers_spec (hvisits : Visits next (some first) ds) (level : δ → ℤ)
    (hfuel : 2 * ds.length + 1 < fuel) :
    ∃ r l, sortDrivers level fuel next first = some r ∧ Visits r.2 r.1 l ∧
      (IsStableSort level ds l ↔ NeverOne level ds) := by
  cases ds with
  | nil => cases hvisits
  | cons d rest =>
    have hnodup := hvisits.nodup
    obtain ⟨heq, hrest⟩ := hvisits
    obtain rfl := Option.some.inj heq
    have hone : IsStableSort level [first] ((DriverList.single first).decls [1]) ↔ NeverOne level [first] := by
      rw [decls_single]
      refine iff_of_true ⟨List.Perm.refl _, List.pairwise_singleton _ _, fun _ => rfl⟩ ?_
      intro i hi hlt
      rw [List.length_singleton] at hlt
      omega
    have hperm : ((DriverList.single first).decls [1]).Perm [first] := by rw [decls_single]
    rw [List.length_cons] at hfuel
    obtain ⟨w, l, this, hrun, hrep, hperm', hiff⟩ := resort_spec represents_single hrest hperm hnodup hone
      (show [1].length + 2 * rest.length < fuel by rw [List.length_singleton]; omega)
    have hdecls : (w.decls l).Nodup := hperm'.nodup_iff.mpr hnodup
    have hlength : l.length < fuel := by
      rw [← DriverList.length_decls hrep.data, hperm'.length_eq, List.length_append, List.length_singleton]
      omega
    obtain ⟨next', hrelink, -, hresult⟩ := relink_spec hrep.linked hrep.data hdecls hlength next
    refine ⟨(w.data w.head, next'), w.decls l, ?_, ?_, hiff⟩
    · rw [sortDrivers]
      show ((resort level next fuel (next first) 2 (DriverList.single first)).bind fun w => _) = _
      rw [hrun]
      show ((relink w fuel w.head next).bind fun next => some (w.data w.head, next)) = _
      rw [hrelink]
      rfl
    · have hhead : w.pointee w.head = w.data w.head :=
        if_neg (hrep.linked.ne_null _ (List.mem_of_mem_head? hrep.isList.head))
      rw [hhead] at hresult
      exact hresult

theorem SortsDrivers.neverOne (h : SortsDrivers level next first ds) (hvisits : Visits next (some first) ds) :
    NeverOne level ds := by
  obtain ⟨N, hN⟩ := h.sorted
  obtain ⟨r, l, hrun, hl, hsort⟩ := hN (N + 2 * ds.length + 2) (by omega)
  obtain ⟨r', l', hrun', hl', hiff⟩ := sortDrivers_spec hvisits level
    (show 2 * ds.length + 1 < N + 2 * ds.length + 2 by omega)
  obtain rfl := Option.some.inj (hrun.symm.trans hrun')
  rw [← hl.unique hl'] at hiff
  exact hiff.mp hsort

/-- **When the drivers are in order.**  From the third declaration on none may have exactly one before it with
a level that is not larger. -/
theorem sortsDrivers_iff (hvisits : Visits next (some first) ds) :
    SortsDrivers level next first ds ↔
      ∀ i, 2 ≤ i → ∀ hi : i < ds.length, (ds.take i).countP (fun a => level a ≤ level ds[i]) ≠ 1 := by
  constructor
  · intro h
    exact h.neverOne hvisits
  · intro h
    refine ⟨⟨2 * ds.length + 2, fun fuel hfuel => ?_⟩, fun current this w hstate => ?_⟩
    · obtain ⟨r, l, hrun, hl, hiff⟩ := sortDrivers_spec hvisits level (show 2 * ds.length + 1 < fuel by omega)
      exact ⟨r, l, hrun, hl, hiff.mpr h⟩
    · obtain ⟨nodes, hnodes⟩ := hstate.represents
      exact ⟨nodes, hnodes.isList⟩

end Relink

/-- Five declarations, one after the other. -/
def fiveDrivers (d : ℕ) : Option ℕ := if d < 4 then some (d + 1) else none

/-- The third one goes to the head of the list, the fourth one into the middle and the last one to its end. -/
theorem sortsDrivers_iff_five :
    SortsDrivers (fun d => [2, 4, 1, 3, 5].getD d 0) fiveDrivers 0 [0, 1, 2, 3, 4] := by
  have hvisits : Visits fiveDrivers (some 0) [0, 1, 2, 3, 4] := ⟨rfl, rfl, rfl, rfl, rfl, rfl⟩
  refine (sortsDrivers_iff hvisits).mpr ?_
  intro i hi hlt
  have hfive : i < 5 := hlt
  have hhead : ([0, 1].countP fun a => decide (([2, 4, 1, 3, 5].getD a 0 : ℤ) ≤ 1)) ≠ 1 := by decide
  have hmiddle : ([0, 1, 2].countP fun a => decide (([2, 4, 1, 3, 5].getD a 0 : ℤ) ≤ 3)) ≠ 1 := by decide
  have hend : ([0, 1, 2, 3].countP fun a => decide (([2, 4, 1, 3, 5].getD a 0 : ℤ) ≤ 5)) ≠ 1 := by decide
  obtain rfl | rfl | rfl : i = 2 ∨ i = 3 ∨ i = 4 := by omega
  · exact hhead
  · exact hmiddle
  · exact hend

/-- Three declarations, one after the other. -/
def threeDrivers (d : ℕ) : Option ℕ := if d < 2 then some (d + 1) else none

theorem threeDrivers_visits : Visits threeDrivers (some 0) [0, 1, 2] := ⟨rfl, rfl, rfl, rfl⟩

/-- With the levels 1, 3 and 2 the last declaration is put in front of the first one. -/
theorem level_two_first : Visits threeDrivers (some 0) [0, 1, 2] ∧
    ((sortDrivers (fun d => [1, 3, 2].getD d 0) 9 threeDrivers 0).map fun r => r.1) = some (some 2) ∧
    ¬ SortsDrivers (fun d => [1, 3, 2].getD d 0) threeDrivers 0 [0, 1, 2] := by
  refine ⟨threeDrivers_visits, by decide +kernel, fun h => ?_⟩
  exact h.neverOne threeDrivers_visits 2 (Nat.le_refl 2) (by decide) (by decide)

end OmochaOS.Core
