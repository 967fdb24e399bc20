import OmochaOS.Rbtree.Fuel
import OmochaOS.Rbtree.WellFormed

/-!
# The next node and the one before

`rb_succ` and `rb_pred` of `lib/rbtree.c` go down on one side, or up through the parents until they come
from the other one.  What they need of a tree are its links and the order of the keys (`SearchTree`):
colours and balance are not looked at.

* `searchTree_next` — in the list of the nodes, what stands next to a node is what the function returns;
* `traverse` — the loop over the tree that starts at its first node.
-/

namespace OmochaOS.Rbtree

open RedBlack RedBlack.ColorTree

variable {h : RbTree} {t u l r : ColorTree ℕ} {s : Side} {n p q x : ℕ} {fuel : ℕ}

/-- `while (x->L) x = x->L`, or the same with `R`. -/
def farthest (s : Side) : ℕ → RbTree → ℕ → Except Fault ℕ
  | 0, _, _ => .error .fuel
  | fuel + 1, h, x => do
    let y ← deref h x (h.child s x)
    if y = 0 then pure x else farthest s fuel h y

/-- The way up from the node `n` with the parent `p`, as long as it comes from the side `s`. -/
def climb (s : Side) : ℕ → RbTree → ℕ → ℕ → Except Fault ℕ
  | 0, _, _, _ => .error .fuel
  | fuel + 1, h, n, p =>
    if p ≠ 0 ∧ n = h.child s p then climb s fuel h p (h.parent p) else .ok p

/-- The node next to `n` on the side `s`. -/
def rbNext (s : Side) (fuel : ℕ) (h : RbTree) (n : ℕ) : Except Fault ℕ := do
  let x ← deref h n (h.child s n)
  if x ≠ 0 then farthest s.other fuel h x else climb s fuel h n (h.parent n)

/-- `rb_pred`. -/
def rbPred : ℕ → RbTree → ℕ → Except Fault ℕ := rbNext .left

theorem leftmost_eq_farthest : leftmost = farthest .left := by
  funext fuel h x
  induction fuel generalizing x with
  | zero => rfl
  | succ fuel ih =>
    rw [leftmost, farthest]
    congr 1
    funext y
    rw [ih]

theorem firstAbove_eq_climb : firstAbove = climb .right := by
  funext fuel h n p
  induction fuel generalizing n p with
  | zero => rfl
  | succ fuel ih => rw [firstAbove, climb, ih]

/-- `rb_succ` and `rb_pred` are each other's mirror image. -/
theorem rbSucc_eq_rbNext : rbSucc = rbNext .right := by
  funext fuel h n
  rw [rbSucc, rbNext, leftmost_eq_farthest, firstAbove_eq_climb]
  rfl

/-! ### Search trees -/

/-- The nodes of `t` are linked to their children. -/
def Below (h : RbTree) : ColorTree ℕ → Prop
  | .nil => True
  | .node _ l x r => x ≠ 0 ∧ (h.child .left x = addr l ∧ Below h l) ∧ h.child .right x = addr r ∧ Below h r

/-- They are linked to their parents as well, and the root to its parent `p`. -/
def Linked (h : RbTree) : ℕ → ColorTree ℕ → Prop
  | _, .nil => True
  | p, .node _ l x r => (x ≠ 0 ∧ h.parent x = p) ∧
      (h.child .left x = addr l ∧ Linked h x l) ∧ h.child .right x = addr r ∧ Linked h x r

/-- The links down are those of `t`, whatever the colours are, and the keys are in search order. -/
structure KeyTree (h : RbTree) (t : ColorTree ℕ) : Prop where
  root : h.root = addr t
  below : Below h t
  ordered : t.toList.Pairwise fun x y => h.key x < h.key y

/-- The links up are those of `t` too. -/
structure SearchTree (h : RbTree) (t : ColorTree ℕ) : Prop where
  root : h.root = addr t
  linked : Linked h 0 t
  ordered : t.toList.Pairwise fun x y => h.key x < h.key y

/-- A binary search tree with distinct keys. -/
def IsKeyTree (h : RbTree) : Prop := ∃ t, KeyTree h t

/-- A binary search tree with distinct keys and parent links. -/
def IsSearchTree (h : RbTree) : Prop := ∃ t, SearchTree h t

theorem Linked.below (ht : Linked h p t) : Below h t := by
  induction t generalizing p with
  | nil => trivial
  | node c l x r ihl ihr =>
    obtain ⟨⟨hx, -⟩, ⟨hl, hlin⟩, hr, hrin⟩ := ht
    exact ⟨hx, ⟨hl, ihl hlin⟩, hr, ihr hrin⟩

theorem SearchTree.keyTree (ht : SearchTree h t) : KeyTree h t := ⟨ht.root, ht.linked.below, ht.ordered⟩

theorem linked_join {c : Color} : Linked h p (join s c x t u) ↔ (x ≠ 0 ∧ h.parent x = p) ∧
    (h.child s x = addr t ∧ Linked h x t) ∧ h.child s.other x = addr u ∧ Linked h x u := by
  cases s with
  | left => rfl
  | right =>
    simp only [join, Linked, Side.other]
    tauto

theorem Below.ne_zero (ht : Below h t) (hx : x ∈ t.toList) : x ≠ 0 := by
  induction t with
  | nil => cases hx
  | node c l z r ihl ihr =>
    obtain ⟨hz, ⟨-, hl⟩, -, hr⟩ := ht
    rw [toList, List.mem_append, List.mem_cons] at hx
    rcases hx with hx | hx | hx
    · exact ihl hl hx
    · rw [hx]
      exact hz
    · exact ihr hr hx

theorem Below.addr_ne_zero (ht : Below h t) (hne : t ≠ .nil) : addr t ≠ 0 := ht.ne_zero (addr_mem hne)

theorem Below.child_mem (ht : Below h t) (hx : x ∈ t.toList) (hne : h.child s x ≠ 0) :
    h.child s x ∈ t.toList := by
  induction t with
  | nil => cases hx
  | node c l z r ihl ihr =>
    obtain ⟨-, ⟨hl, hlin⟩, hr, hrin⟩ := ht
    rw [toList, List.mem_append, List.mem_cons] at hx ⊢
    rcases hx with hx | hx | hx
    · exact Or.inl (ihl hlin hx)
    · subst hx
      cases s with
      | left =>
        rw [hl] at hne ⊢
        exact Or.inl (addr_mem fun hnil => hne (by rw [hnil]; rfl))
      | right =>
        rw [hr] at hne ⊢
        exact Or.inr (Or.inr (addr_mem fun hnil => hne (by rw [hnil]; rfl)))
    · exact Or.inr (Or.inr (ihr hrin hx))

theorem Below.inTree (ht : Below h t) (hroot : t ≠ .nil → InTree h (addr t)) (hx : x ∈ t.toList) :
    InTree h x := by
  induction t with
  | nil => cases hx
  | node c l z r ihl ihr =>
    obtain ⟨-, ⟨hl, hlin⟩, hr, hrin⟩ := ht
    have hz : InTree h z := hroot node_ne_nil
    rw [toList, List.mem_append, List.mem_cons] at hx
    rcases hx with hx | hx | hx
    · refine ihl hlin (fun hne => ?_) hx
      have hchild := InTree.child .left hz (by rw [hl]; exact hlin.addr_ne_zero hne)
      rwa [hl] at hchild
    · rw [hx]
      exact hz
    · refine ihr hrin (fun hne => ?_) hx
      have hchild := InTree.child .right hz (by rw [hr]; exact hrin.addr_ne_zero hne)
      rwa [hr] at hchild

theorem KeyTree.inTree_iff (ht : KeyTree h t) : InTree h x ↔ x ∈ t.toList := by
  constructor
  · intro hx
    induction hx with
    | root hne =>
      rw [ht.root] at hne ⊢
      exact addr_mem fun hnil => hne (by rw [hnil]; rfl)
    | child s _ hne ih => exact ht.below.child_mem ih hne
  · intro hx
    refine ht.below.inTree (fun hne => ?_) hx
    rw [← ht.root]
    exact InTree.root (by rw [ht.root]; exact ht.below.addr_ne_zero hne)

theorem SearchTree.inTree_iff (ht : SearchTree h t) : InTree h x ↔ x ∈ t.toList :=
  ht.keyTree.inTree_iff

/-! ### The list of the nodes, in one direction -/

/-- The nodes of `t` towards the side `s`. -/
def towards : Side → ColorTree ℕ → List ℕ
  | .right, t => t.toList
  | .left, t => t.toList.reverse

@[simp] theorem towards_nil : towards s .nil = [] := by cases s <;> rfl

theorem towards_join {c : Color} :
    towards s (join s c x t u) = towards s u ++ x :: towards s t := by
  cases s with
  | left => simp [towards, join, toList]
  | right => rfl

@[simp] theorem towards_length : (towards s t).length = t.toList.length := by
  cases s with
  | left => exact List.length_reverse
  | right => rfl

theorem towards_eq_nil : towards s t = [] ↔ t = .nil := by
  rw [← List.length_eq_zero_iff, towards_length, List.length_eq_zero_iff]
  cases t with
  | nil => exact ⟨fun _ => rfl, fun _ => rfl⟩
  | node c l x r => simp [toList]

/-- Down on the other side to the first node. -/
theorem farthest_spec (ht : Linked h p t) (hne : t ≠ .nil) (hfuel : t.toList.length < fuel) :
    farthest s.other fuel h (addr t) = .ok ((towards s t).headD 0) := by
  induction t using joinInduction s generalizing fuel p with
  | hnil => exact absurd rfl hne
  | hjoin c x t u _ ih =>
    obtain ⟨fuel, rfl⟩ : ∃ m, fuel = m + 1 := ⟨fuel - 1, by omega⟩
    obtain ⟨⟨hx, -⟩, -, hu, hlinked⟩ := linked_join.mp ht
    have hlen : (join s c x t u).toList.length = t.toList.length + u.toList.length + 1 := by
      rw [(toList_join_perm s).length_eq, List.length_cons, List.length_append]
    rw [farthest, addr_join, deref_bind hx, hu, towards_join]
    by_cases hnil : u = .nil
    · subst hnil
      rw [towards_nil, addr, if_pos rfl]
      rfl
    · rw [if_neg (hlinked.below.addr_ne_zero hnil), ih hlinked hnil (by omega)]
      cases hlist : towards s u with
      | nil => exact absurd (towards_eq_nil.mp hlist) hnil
      | cons a rest => rfl

/-- What `n` with the nodes `post` behind it comes to inside of `t`, whose parent is `p`: the next node,
or the way up from `t`. -/
def Next (s : Side) (h : RbTree) (p : ℕ) (t : ColorTree ℕ) (n : ℕ) (fuel : ℕ) : List ℕ → Prop
  | q :: _ => rbNext s fuel h n = .ok q
  | [] => ∃ left, fuel ≤ left + t.toList.length ∧ rbNext s fuel h n = climb s left h (addr t) p

theorem linked_next (ht : Linked h p t) (hnodup : t.toList.Nodup) (hfuel : t.toList.length < fuel)
    {pre post : List ℕ} (hlist : towards s t = pre ++ n :: post) : Next s h p t n fuel post := by
  induction t using joinInduction s generalizing p pre post with
  | hnil =>
    rw [towards_nil] at hlist
    cases pre <;> cases hlist
  | hjoin c x t u iht ihu =>
    obtain ⟨⟨hx, hparent⟩, ⟨ht, htlinked⟩, hu, hulinked⟩ := linked_join.mp ht
    have hperm := toList_join_perm s (c := c) (x := x) (t := t) (u := u)
    have hlen : (join s c x t u).toList.length = t.toList.length + u.toList.length + 1 := by
      rw [hperm.length_eq, List.length_cons, List.length_append]
    obtain ⟨-, hnodup⟩ := List.nodup_cons.mp (hperm.nodup_iff.mp hnodup)
    obtain ⟨htnodup, hunodup, hdisjoint⟩ := List.nodup_append.mp hnodup
    have hself : Next s h p (join s c x t u) x fuel (towards s t) := by
      have hrun : rbNext s fuel h x = if addr t ≠ 0 then farthest s.other fuel h (addr t)
          else climb s fuel h x p := by
        rw [rbNext, deref_bind hx, ht, hparent]
      cases htw : towards s t with
      | nil =>
        rw [towards_eq_nil.mp htw, addr, if_neg (by simp)] at hrun
        exact ⟨fuel, by omega, by rw [hrun, addr_join]⟩
      | cons q rest =>
        have hne : t ≠ .nil := fun hnil => by
          rw [hnil, towards_nil] at htw
          cases htw
        rw [if_pos (htlinked.below.addr_ne_zero hne), farthest_spec htlinked hne (by omega), htw] at hrun
        exact hrun
    rw [towards_join] at hlist
    rcases List.append_eq_append_iff.mp hlist with ⟨mid, -, hmid⟩ | ⟨mid, hmid, hpost⟩
    · cases mid with
      | nil =>
        obtain ⟨rfl, rfl⟩ := List.cons.inj hmid
        exact hself
      | cons y mid =>
        -- `n` is in `t`, and the way up goes on from there
        obtain ⟨rfl, htail⟩ := List.cons.inj hmid
        have hnext := iht htlinked htnodup (by omega) htail
        cases post with
        | cons q rest => exact hnext
        | nil =>
          obtain ⟨left, hleft, hrun⟩ := hnext
          obtain ⟨left, rfl⟩ : ∃ m, left = m + 1 := ⟨left - 1, by omega⟩
          refine ⟨left, by omega, ?_⟩
          rw [hrun, climb, if_pos ⟨hx, ht.symm⟩, hparent, addr_join]
    · cases mid with
      | nil =>
        obtain ⟨rfl, rfl⟩ := List.cons.inj hpost
        exact hself
      | cons y mid =>
        -- `n` is in `u`, and `x` is behind the nodes of `u`
        obtain ⟨rfl, rfl⟩ := List.cons.inj hpost
        have hnext := ihu hulinked hunodup (by omega) hmid
        cases mid with
        | cons q rest => exact hnext
        | nil =>
          obtain ⟨left, hleft, hrun⟩ := hnext
          obtain ⟨left, rfl⟩ : ∃ m, left = m + 1 := ⟨left - 1, by omega⟩
          have hune : u ≠ .nil := fun hnil => by
            rw [hnil, towards_nil] at hmid
            cases pre <;> cases hmid
          have hturn : addr u ≠ h.child s x := by
            rw [ht]
            intro heq
            have htne : t ≠ .nil := fun hnil => hulinked.below.addr_ne_zero hune (by rw [heq, hnil]; rfl)
            exact hdisjoint _ (addr_mem htne) _ (addr_mem hune) heq.symm
          show rbNext s fuel h n = .ok x
          rw [hrun, climb, if_neg fun hc => hturn hc.2]

/-- What stands next to a node in the list is what the function returns, and NULL at the end. -/
theorem searchTree_next (ht : SearchTree h t) (hfuel : t.toList.length < fuel) {pre post : List ℕ}
    (hlist : towards s t = pre ++ n :: post) : rbNext s fuel h n = .ok (post.headD 0) := by
  have hnodup : t.toList.Nodup := ht.ordered.imp fun hlt heq => by
    rw [heq] at hlt
    exact Nat.lt_irrefl _ hlt
  have hnext := linked_next ht.linked hnodup hfuel hlist
  cases post with
  | cons q rest => exact hnext
  | nil =>
    obtain ⟨left, hleft, hrun⟩ := hnext
    obtain ⟨left, rfl⟩ : ∃ m, left = m + 1 := ⟨left - 1, by omega⟩
    rw [hrun, climb, if_neg fun hc => hc.1 rfl]
    rfl

theorem SearchTree.succ (ht : SearchTree h t) (hfuel : t.toList.length < fuel) {pre post : List ℕ}
    (hlist : t.toList = pre ++ n :: post) : rbSucc fuel h n = .ok (post.headD 0) := by
  rw [rbSucc_eq_rbNext]
  exact searchTree_next (s := .right) ht hfuel hlist

theorem SearchTree.pred (ht : SearchTree h t) (hfuel : t.toList.length < fuel) {pre post : List ℕ}
    (hlist : t.toList = pre ++ n :: post) : rbPred fuel h n = .ok (pre.getLastD 0) := by
  have hreverse : towards .left t = post.reverse ++ n :: pre.reverse := by
    show t.toList.reverse = _
    rw [hlist, List.reverse_append, List.reverse_cons, List.append_assoc]
    rfl
  have hrun := searchTree_next ht hfuel hreverse
  rwa [List.headD_eq_head?_getD, List.head?_reverse, ← List.getLastD_eq_getLast?] at hrun

/-! ### The whole tree -/

/-- `v` has the least key above that of `n`, or there is none and `v` is NULL. -/
def LeastAbove (h : RbTree) (n v : ℕ) : Prop :=
  (InTree h v ∧ h.key n < h.key v ∧ ∀ y, InTree h y → h.key n < h.key y → h.key v ≤ h.key y) ∨
    v = 0 ∧ ∀ y, InTree h y → h.key y ≤ h.key n

/-- `v` has the greatest key below that of `n`, or there is none and `v` is NULL. -/
def GreatestBelow (h : RbTree) (n v : ℕ) : Prop :=
  (InTree h v ∧ h.key v < h.key n ∧ ∀ y, InTree h y → h.key y < h.key n → h.key y ≤ h.key v) ∨
    v = 0 ∧ ∀ y, InTree h y → h.key n ≤ h.key y

/-- `for (; n; n = rb_succ(n))`, with the nodes that it comes to. -/
def traverse (fuel : ℕ) (h : RbTree) : ℕ → ℕ → Except Fault (List ℕ)
  | 0, _ => .error .fuel
  | steps + 1, n =>
    if n = 0 then pure []
    else do
      let next ← rbSucc fuel h n
      let rest ← traverse fuel h steps next
      pure (n :: rest)

section Order

variable {pre post : List ℕ} (ht : SearchTree h t) (hlist : t.toList = pre ++ n :: post)
include ht hlist

/-- The keys before a node are less than its key, and those behind it greater. -/
theorem SearchTree.split : (∀ y ∈ pre, h.key y < h.key n) ∧ (∀ y ∈ post, h.key n < h.key y) ∧
    pre.Pairwise (fun x y => h.key x < h.key y) ∧ post.Pairwise fun x y => h.key x < h.key y := by
  have hordered := ht.ordered
  rw [hlist, List.pairwise_append, List.pairwise_cons] at hordered
  obtain ⟨hpre, ⟨habove, hpost⟩, hbetween⟩ := hordered
  exact ⟨fun y hy => hbetween y hy n (List.mem_cons_self ..), habove, hpre, hpost⟩

theorem SearchTree.mem_iff {y : ℕ} : InTree h y ↔ y ∈ pre ∨ y = n ∨ y ∈ post := by
  rw [ht.inTree_iff, hlist, List.mem_append, List.mem_cons]

theorem SearchTree.leastAbove : LeastAbove h n (post.headD 0) := by
  obtain ⟨hbelow, habove, -, hordered⟩ := ht.split hlist
  cases post with
  | nil =>
    refine Or.inr ⟨rfl, fun y hy => ?_⟩
    rcases (ht.mem_iff hlist).mp hy with hy | hy | hy
    · exact (hbelow y hy).le
    · rw [hy]
    · cases hy
  | cons q rest =>
    refine Or.inl ⟨(ht.mem_iff hlist).mpr (by simp), habove q (by simp), fun y hy hlt => ?_⟩
    show h.key q ≤ h.key y
    rcases (ht.mem_iff hlist).mp hy with hy | hy | hy
    · have := hbelow y hy
      omega
    · rw [hy] at hlt
      omega
    · rcases List.mem_cons.mp hy with hy | hy
      · rw [hy]
      · exact ((List.pairwise_cons.mp hordered).1 y hy).le

theorem SearchTree.greatestBelow : GreatestBelow h n (pre.getLastD 0) := by
  obtain ⟨hbelow, habove, hordered, -⟩ := ht.split hlist
  rcases List.eq_nil_or_concat pre with hpre | ⟨rest, q, hpre⟩
  · refine Or.inr ⟨by rw [hpre]; rfl, fun y hy => ?_⟩
    rcases (ht.mem_iff hlist).mp hy with hy | hy | hy
    · rw [hpre] at hy
      cases hy
    · rw [hy]
    · exact (habove y hy).le
  · have hlast : pre.getLastD 0 = q := by rw [hpre]; simp
    have hq : q ∈ pre := by rw [hpre]; simp
    rw [hlast]
    refine Or.inl ⟨(ht.mem_iff hlist).mpr (Or.inl hq), hbelow q hq, fun y hy hlt => ?_⟩
    rcases (ht.mem_iff hlist).mp hy with hy | hy | hy
    · rw [hpre, List.concat_eq_append] at hy hordered
      rcases List.mem_append.mp hy with hy | hy
      · exact ((List.pairwise_append.mp hordered).2.2 y hy q (by simp)).le
      · rw [List.mem_singleton.mp hy]
    · rw [hy] at hlt
      omega
    · have := habove y hy
      omega

end Order

/-- From any node on, the loop comes to the nodes behind it in their order. -/
theorem SearchTree.traverse_eq (ht : SearchTree h t) (hfuel : t.toList.length < fuel)
    {pre post : List ℕ} (hlist : t.toList = pre ++ post) {steps : ℕ} (hsteps : post.length < steps) :
    traverse fuel h steps (post.headD 0) = .ok post := by
  induction post generalizing pre steps with
  | nil =>
    obtain ⟨steps, rfl⟩ : ∃ m, steps = m + 1 := ⟨steps - 1, by omega⟩
    rw [traverse, List.headD_nil, if_pos rfl]
    rfl
  | cons x rest ih =>
    rw [List.length_cons] at hsteps
    obtain ⟨steps, rfl⟩ : ∃ m, steps = m + 1 := ⟨steps - 1, by omega⟩
    have hx : x ≠ 0 := ht.linked.below.ne_zero (by rw [hlist]; simp)
    rw [traverse, List.headD_cons, if_neg hx, ht.succ hfuel hlist]
    have hsplit : t.toList = (pre ++ [x]) ++ rest := by rw [hlist]; simp
    show (traverse fuel h steps (rest.headD 0) >>= _) = _
    rw [ih hsplit (by omega)]
    rfl

/-- **`rb_succ` and `rb_pred`** on a search tree: each ends with its neighbour in the order of the keys,
they are inverse to each other, and the loop from the node with the least key comes to every node once,
in the order of the keys. -/
theorem inOrder_traversal (hsearch : IsSearchTree h) :
    (∀ n, InTree h n →
      (∃ v, Returns (fun fuel => rbSucc fuel h n) v ∧ LeastAbove h n v ∧
        (v ≠ 0 → Returns (fun fuel => rbPred fuel h v) n)) ∧
      ∃ v, Returns (fun fuel => rbPred fuel h n) v ∧ GreatestBelow h n v ∧
        (v ≠ 0 → Returns (fun fuel => rbSucc fuel h v) n)) ∧
    ∀ m, InTree h m → (∀ y, InTree h y → h.key m ≤ h.key y) →
      ∃ nodes, Returns (fun fuel => traverse fuel h fuel m) nodes ∧
        (∀ y, y ∈ nodes ↔ InTree h y) ∧ nodes.Nodup ∧
        nodes.Pairwise fun x y => h.key x < h.key y := by
  obtain ⟨t, ht⟩ := hsearch
  constructor
  · intro n hn
    obtain ⟨pre, post, hlist⟩ := List.append_of_mem (ht.inTree_iff.mp hn)
    constructor
    · refine ⟨post.headD 0, ⟨_, fun fuel hfuel => ht.succ hfuel hlist⟩, ht.leastAbove hlist,
        fun hne => ⟨t.toList.length + 1, fun fuel hfuel => ?_⟩⟩
      cases post with
      | nil => exact absurd rfl hne
      | cons q rest =>
        have hsplit : t.toList = (pre ++ [n]) ++ q :: rest := by rw [hlist]; simp
        have hrun := ht.pred hfuel hsplit
        show rbPred fuel h q = .ok n
        rw [hrun, List.getLastD_concat]
    · refine ⟨pre.getLastD 0, ⟨_, fun fuel hfuel => ht.pred hfuel hlist⟩, ht.greatestBelow hlist,
        fun hne => ⟨t.toList.length + 1, fun fuel hfuel => ?_⟩⟩
      rcases List.eq_nil_or_concat pre with hpre | ⟨rest, q, hpre⟩
      · exact absurd (by rw [hpre]; rfl) hne
      · have hlast : pre.getLastD 0 = q := by rw [hpre]; simp
        have hsplit : t.toList = rest ++ q :: n :: post := by rw [hlist, hpre]; simp
        rw [hlast]
        exact ht.succ hfuel hsplit
  · intro m hm hleast
    obtain ⟨pre, post, hlist⟩ := List.append_of_mem (ht.inTree_iff.mp hm)
    have hpre : pre = [] := by
      refine List.eq_nil_iff_forall_not_mem.mpr fun y hy => ?_
      have hbelow := (ht.split hlist).1 y hy
      have := hleast y ((ht.mem_iff hlist).mpr (Or.inl hy))
      omega
    subst hpre
    refine ⟨t.toList, ⟨t.toList.length + 1, fun fuel hfuel => ?_⟩, fun y => ht.inTree_iff.symm, ?_,
      ht.ordered⟩
    · have hrun := ht.traverse_eq hfuel (List.nil_append _).symm hfuel
      rw [hlist] at hrun ⊢
      exact hrun
    · exact ht.ordered.imp fun hlt heq => by
        rw [heq] at hlt
        exact Nat.lt_irrefl _ hlt

/-- Keys 1, 2 and 3, the second at the root. -/
def threeNodes : RbTree where
  node := fun p =>
    if p = 32 then ⟨2, 0, 16, 48⟩ else if p = 16 then ⟨1, 33, 0, 0⟩ else ⟨3, 33, 0, 0⟩
  root := 32
  nullMapped := false

theorem threeNodes_searchTree : SearchTree threeNodes
    (.node .black (.node .red .nil 16 .nil) 32 (.node .red .nil 48 .nil)) where
  root := rfl
  linked := by
    simp only [Linked, addr, and_true]
    decide
  ordered := by decide

theorem inOrder_traversal_threeNodes : ∃ nodes,
    Returns (fun fuel => traverse fuel threeNodes fuel 16) nodes ∧
      (∀ y, y ∈ nodes ↔ InTree threeNodes y) ∧ nodes.Nodup ∧
      nodes.Pairwise fun x y => threeNodes.key x < threeNodes.key y := by
  have hmem : ∀ y, InTree threeNodes y ↔ y ∈ [16, 32, 48] := fun y => threeNodes_searchTree.inTree_iff
  refine (inOrder_traversal ⟨_, threeNodes_searchTree⟩).2 16 ((hmem 16).mpr (by decide)) fun y hy => ?_
  have hall : ∀ y ∈ [16, 32, 48], threeNodes.key 16 ≤ threeNodes.key y := by decide
  exact hall y ((hmem y).mp hy)

end OmochaOS.Rbtree
