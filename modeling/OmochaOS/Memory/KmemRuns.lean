import Mathlib.Data.List.Pairwise
import Mathlib.Data.Set.Lattice
import Mathlib.Order.CompletePartialOrder
import Mathlib.Order.Interval.Set.Basic
import OmochaOS.Lib.TransitionRun
import OmochaOS.Memory.BuddyInvariant
import OmochaOS.Memory.Kmem
import OmochaOS.Rbtree.WellFormed

/-!
# Runs of the kernel heap

A state is memory, the pools of `init_memory_pool`, and what `mem_kmalloc` has returned and `mem_kfree`
has not had back.  Between two calls the owners write what they like into their allocations, and so does
everybody else into memory that is in no pool.

What is recorded as free is read off the tree of a pool and the chains behind its nodes.
-/

namespace OmochaOS.Kmem

open RedBlack OmochaOS.Rbtree OmochaOS.Buddy TransitionRun

/-- A pool: where it lies, and how many pages it has. -/
structure Extent where
  addr : ℕ
  pages : ℕ

/-- The end of a pool. -/
def Extent.finish (P : Extent) : ℕ := P.addr + P.pages * Buddy.pgSize

/-- The bytes of a block. -/
def range (b : ℕ × ℕ) : Set ℕ := Set.Ico b.1 (b.1 + b.2)

/-- Memory, the pools, and the live allocations with the sizes asked for. -/
structure System where
  heap : Heap
  pools : List Extent
  live : List (ℕ × ℕ)

inductive Event
  | kmalloc (size : ℕ)
  | kfree (p : ℕ)
  | use

/-- A word of a pool that no live allocation has a byte of. -/
def System.Owned (s : System) (a : ℕ) : Prop :=
  (∃ P ∈ s.pools, P.addr ≤ a ∧ a < P.finish) ∧ ∀ b ∈ s.live, Disjoint (range b) (range (a, 4))

inductive Step : System → Event → System → Prop
  | kmalloc {s : System} {size p : ℕ} {h : Heap} (hsize : size < 2 ^ 32)
      (hcall : Returns (fun fuel => memKmalloc fuel s.heap size) (h, p)) :
      Step s (.kmalloc size) ⟨h, s.pools, if p = 0 then s.live else (p, size) :: s.live⟩
  | kfree {s : System} {p size : ℕ} {h : Heap} (hlive : (p, size) ∈ s.live)
      (hcall : Returns (fun fuel => memKfree fuel fuel s.heap p) h) :
      Step s (.kfree p) ⟨h, s.pools, s.live.erase (p, size)⟩
  | use {s : System} {h : Heap} (hpool : h.memoryPool = s.heap.memoryPool)
      (hsame : ∀ a, a % 4 = 0 → s.Owned a → h.word a = s.heap.word a) :
      Step s .use ⟨h, s.pools, s.live⟩

/-! ### What is free -/

/-- The blocks of the chain that begins in the header `nodeNext`. -/
inductive InChain (h : Heap) (nodeNext : ℕ) : ℕ → Prop
  | first (hne : h.nextFree nodeNext ≠ 0) : InChain h nodeNext (h.nextFree nodeNext)
  | next {b : ℕ} (hb : InChain h nodeNext b) (hne : h.nextFree b ≠ 0) :
      InChain h nodeNext (h.nextFree b)

/-- The block is recorded as free in the pool. -/
inductive Recorded (h : Heap) (pool : ℕ) : ℕ × ℕ → Prop
  | node {x : ℕ} (hx : InTree (h.freeTree pool) x) : Recorded h pool (x, (h.node x).key)
  | chained {x b : ℕ} (hx : InTree (h.freeTree pool) x)
      (hcookie : h.cookie (nodeAt x sizeofRbNode) = COOKIE_MEM_NEXT_BLOCK)
      (hb : InChain h (nodeAt x sizeofRbNode) b) :
      Recorded h pool (b, addUint (h.blockSize b) kmemBlockHeadSize)

/-- Live allocations lie in pools, apart from each other and from what is recorded as free, and free
blocks lie in their pool. -/
structure HeapSafe (s : System) : Prop where
  inside : ∀ b ∈ s.live, ∃ P ∈ s.pools, P.addr + sizeofKmemPool ≤ b.1 ∧ b.1 + b.2 ≤ P.finish
  apart : s.live.Pairwise fun b c => Disjoint (range b) (range c)
  separate : ∀ b ∈ s.live, ∀ P ∈ s.pools, ∀ f, Recorded s.heap P.addr f → Disjoint (range b) (range f)
  recorded : ∀ P ∈ s.pools, ∀ f, Recorded s.heap P.addr f →
    P.addr + sizeofKmemPool ≤ f.1 ∧ f.1 + f.2 ≤ P.finish

/-- The blocks of the live allocations in a pool, headers included. -/
def System.liveBlocks (s : System) (P : Extent) : List (ℕ × ℕ) :=
  (s.live.filter fun b => P.addr ≤ b.1 ∧ b.1 < P.finish).map fun b =>
    (b.1 - kmemBlockHeadSize, s.heap.blockSize (b.1 - kmemBlockHeadSize))

/-- The free blocks are those of `F`; with the live ones they have every byte of the pool once. -/
structure Conserved (s : System) (P : Extent) (F : List (ℕ × ℕ)) : Prop where
  listed : ∀ f, f ∈ F ↔ Recorded s.heap P.addr f
  nodup : F.Nodup
  total : (F.map Prod.snd).sum + ((s.liveBlocks P).map Prod.snd).sum = P.pages * Buddy.pgSize - sizeofKmemPool
  once : ∀ a, P.addr + sizeofKmemPool ≤ a → a < P.finish → ∃! b, b ∈ F ++ s.liveBlocks P ∧ a ∈ range b
  within : ∀ b ∈ F ++ s.liveBlocks P, ∀ a ∈ range b, P.addr + sizeofKmemPool ≤ a ∧ a < P.finish

/-- With nothing allocated the free blocks have exactly the bytes that were free at first. -/
theorem Conserved.free_iff {s : System} {P : Extent} {F : List (ℕ × ℕ)} (h : Conserved s P F)
    (hempty : s.live = []) (a : ℕ) :
    (∃ f ∈ F, a ∈ range f) ↔ P.addr + sizeofKmemPool ≤ a ∧ a < P.finish := by
  have hblocks : F ++ s.liveBlocks P = F := by
    rw [System.liveBlocks, hempty, List.filter_nil, List.map_nil, List.append_nil]
  constructor
  · rintro ⟨f, hf, ha⟩
    exact h.within f (List.mem_append_left _ hf) a ha
  · rintro ⟨hlow, hhigh⟩
    obtain ⟨f, ⟨hf, ha⟩, -⟩ := h.once a hlow hhigh
    rw [hblocks] at hf
    exact ⟨f, hf, ha⟩

/-! ### The condition -/

/-- The pools that `mem_kmalloc` looks into. -/
inductive Linked (h : Heap) : ℕ → Prop
  | first (hne : h.memoryPool ≠ 0) : Linked h h.memoryPool
  | next {pool : ℕ} (hpool : Linked h pool) (hne : h.nextPool pool ≠ 0) : Linked h (h.nextPool pool)

/-- A node that is large enough, and that the word at NULL does not hide. -/
def Suits (h : Heap) (size x : ℕ) : Prop :=
  (h.node x).key = size ∨ (size < (h.node x).key ∧ (h.node 0).key ≠ size)

/-- No pool has a block that is large enough, or the first one has a block of exactly the size. -/
def WholeOrNone (h : Heap) (size : ℕ) : Prop :=
  (∀ pool, Linked h pool → ∀ x, InTree (h.freeTree pool) x → ¬ Suits h size x) ∨
    h.memoryPool ≠ 0 ∧ ∃ x, InTree (h.freeTree h.memoryPool) x ∧ (h.node x).key = size

/-- Nothing is freed, and blocks are taken whole from the first pool. -/
def Harmless (s : System) : Event → Prop
  | .kmalloc size => WholeOrNone s.heap (neededSize size)
  | .kfree _ => False
  | .use => True

/-! ### A tree of one node -/

theorem ok_bind {β γ : Type} {v : β} {f : β → Except Fault γ} : (Except.ok v >>= f) = f v := rfl

section

variable {t : RbTree} {n k x fuel : ℕ}

/-- A black node that is alone in its tree. -/
def single (k : ℕ) : RbNode := ⟨k, 0, 0, 0⟩

theorem inTree_single (hroot : t.root = n) (hnode : t.node n = single k) (hx : InTree t x) :
    x = n := by
  induction hx with
  | root hne => exact hroot
  | child s hx hne ih =>
    rw [ih] at hne
    cases s <;> simp [RbTree.child, hnode, single] at hne

theorem not_inTree (hroot : t.root = 0) : ¬ InTree t x := by
  intro hx
  induction hx with
  | root hne => exact hne hroot
  | child s hx hne ih => exact ih

theorem rbInsert_single (hroot : t.root = 0) (hn : n ≠ 0) (hnode : t.node n = single k) :
    rbInsert (fuel + 1) t n = .ok (t.setRoot n, 0) := by
  have hred : (((t.setColor n RB_RED).setRoot n).setParent n 0).parent n = 0 := by
    simp [RbTree.parent, RbTree.setParent, RbTree.setRoot, RbTree.setColor, hnode, single, RB_RED,
      pointerMask, colorMask]
  have hend : ((((t.setColor n RB_RED).setRoot n).setParent n 0).setColor n RB_BLACK).setColor n
      RB_BLACK = t.setRoot n := by
    have hsame : (((((t.setColor n RB_RED).setRoot n).setParent n 0).setColor n RB_BLACK).setColor n
        RB_BLACK).node = t.node := by
      funext y
      by_cases hy : y = n
      · subst hy
        simp [RbTree.setParent, RbTree.setRoot, RbTree.setColor, hnode, single, RB_RED, RB_BLACK,
          pointerMask, colorMask]
      · simp [RbTree.setParent, RbTree.setRoot, RbTree.setColor, hy]
    exact congrArg (fun node => RbTree.mk node n t.nullMapped) hsame
  have hfix : rbInsertFixup (fuel + 1) (((t.setColor n RB_RED).setRoot n).setParent n 0) n =
      .ok ((((t.setColor n RB_RED).setRoot n).setParent n 0).setColor n RB_BLACK) := by
    rw [rbInsertFixup, deref_bind hn, if_pos hred]
    rfl
  rw [rbInsert, deref_bind hn, RbTree.root_setColor, if_pos hroot, rbInsertEnd, deref_bind hn, hfix]
  show (deref _ n _ >>= _) = _
  rw [deref_bind hn]
  exact congrArg (fun t => Except.ok (t, 0)) hend

/-- The pointer to the parent is written through NULL. -/
theorem rbRemove_single (hroot : t.root = n) (hn : n ≠ 0) (hnode : t.node n = single k)
    (hnull : t.nullMapped = true) :
    rbRemove (fuel + 1) t n = .ok ((t.setRoot 0).setParent 0 0) := by
  have hcolor : t.color n = RB_BLACK := by simp [RbTree.color, hnode, single, RB_BLACK]
  have hleft : t.child .left n = 0 := by simp [RbTree.child, hnode, single]
  have hright : t.child .right n = 0 := by simp [RbTree.child, hnode, single]
  have hparent : (t.setRoot 0).parent n = 0 := by simp [RbTree.parent, RbTree.setRoot, hnode, single]
  have htransplant : rbTransplant t n 0 = .ok ((t.setRoot 0).setParent 0 0) := by
    rw [rbTransplant, if_pos hroot, setParentLike, deref_bind hn, hparent]
    exact deref_mapped hnull
  rw [rbRemove, deref_bind hn, if_pos hleft, hright]
  show (rbTransplant t n 0 >>= _) = _
  rw [htransplant]
  show (if _ then _ else _) = _
  rw [if_pos hcolor, rbRemoveFixup, if_neg (fun hc => hc.2 rfl)]
  rfl

end

/-! ### Pools with one block or none -/

variable {h h' : Heap} {L : List Extent} {P Q : Extent} {pool size x p n k fuel : ℕ}

@[simp] theorem node_write_self {b : ℕ} {n : RbNode} : (h.write b n).node b = n := by
  simp [Heap.write]

theorem node_write_of_ne {b y : ℕ} {n : RbNode} (hy : y ≠ b) : (h.write b n).node y = h.node y := by
  simp [Heap.write, hy]

/-- The pool has one free block, all of it. -/
structure Fresh (h : Heap) (P : Extent) : Prop where
  root : (h.node P.addr).R = P.addr + sizeofKmemPool
  node : h.node (P.addr + sizeofKmemPool) = single (P.pages * Buddy.pgSize - sizeofKmemPool)
  cookie : h.cookie (P.addr + 272) ≠ COOKIE_MEM_NEXT_BLOCK

/-- The pool has no free block, and one that is in use. -/
structure Taken (h : Heap) (P : Extent) : Prop where
  root : (h.node P.addr).R = 0
  size : h.blockSize (P.addr + sizeofKmemPool) = P.pages * Buddy.pgSize - sizeofKmemPool

/-- What the pages of a pool are to the rest of memory. -/
structure Extent.Fits (P : Extent) : Prop where
  pos : 0 < P.addr
  aligned : P.addr % Buddy.pgSize = 0
  pages : 0 < P.pages
  finish : P.finish ≤ 2 ^ 32

/-- Every pool has pages of its own. -/
structure Placed (L : List Extent) : Prop where
  fits : ∀ P ∈ L, P.Fits
  apart : L.Pairwise fun P Q => P.finish ≤ Q.addr ∨ Q.finish ≤ P.addr

theorem Extent.Fits.finish_ge (hP : P.Fits) : P.addr + Buddy.pgSize ≤ P.finish := by
  have hpages := hP.pages
  have hmul : 1 * Buddy.pgSize ≤ P.pages * Buddy.pgSize := Nat.mul_le_mul_right Buddy.pgSize hpages
  rw [Extent.finish]
  omega

/-- The header of a chain lies 256 bytes behind the first node. -/
theorem Extent.Fits.nodeAt_eq (hP : P.Fits) :
    nodeAt (P.addr + sizeofKmemPool) sizeofRbNode = P.addr + 272 := by
  have hle := hP.finish_ge
  have hfinish := hP.finish
  simp only [nodeAt, addUint, sizeofKmemPool, sizeofRbNode, Buddy.pgSize] at hle ⊢
  omega

theorem insertToPool_single (hroot : (h.node pool).R = 0) (hp : p ≠ 0) (hne : p ≠ pool) :
    insertToPool (fuel + 1) h pool p size =
      .ok ((h.write p (single size)).write pool { h.node pool with R := p }) := by
  have hpool : (h.write p (single size)).node pool = h.node pool := node_write_of_ne hne.symm
  have hroot' : ((h.write p (single size)).freeTree pool).root = 0 := by
    rw [Heap.freeTree, hpool]
    exact hroot
  have hcall : rbInsert (fuel + 1) ((h.write p (single size)).freeTree pool) p = .ok _ :=
    rbInsert_single hroot' hp node_write_self
  have hset : ((h.write p (single size)).setFreeTree pool
      (((h.write p (single size)).freeTree pool).setRoot p)) =
      (h.write p (single size)).write pool { h.node pool with R := p } := by
    rw [← hpool]
    rfl
  rw [insertToPool]
  show (rbInsert _ ((h.write p (single size)).freeTree pool) p >>= _) = _
  rw [hcall, ok_bind, ← hset]
  rfl

/-- The heap after the one node of a pool is removed. -/
def emptied (h : Heap) (pool : ℕ) : Heap :=
  h.setFreeTree pool (((h.freeTree pool).setRoot 0).setParent 0 0)

theorem node_emptied {y : ℕ} (hy : y ≠ pool) (h0 : y ≠ 0) : (emptied h pool).node y = h.node y := by
  have hparent : ((((h.freeTree pool).setRoot 0).setParent 0 0).node) y = h.node y := by
    rw [RbTree.setParent, RbTree.node_write, if_neg h0]
    rfl
  rw [← hparent]
  exact Function.update_of_ne hy _ _

theorem root_emptied : ((emptied h pool).node pool).R = 0 := by
  simp [emptied, Heap.setFreeTree]

theorem removeFromPool_single (hroot : (h.node pool).R = p) (hp : p ≠ 0) (hnode : h.node p = single k)
    (hpool : nodeAt p sizeofRbNode ≠ pool) (hnull : nodeAt p sizeofRbNode ≠ 0)
    (hcookie : h.cookie (nodeAt p sizeofRbNode) ≠ COOKIE_MEM_NEXT_BLOCK) :
    removeFromPool (fuel + 1) h pool p = .ok (emptied h pool) := by
  have hcall : rbRemove (fuel + 1) (h.freeTree pool) p = .ok _ :=
    rbRemove_single hroot hp hnode rfl
  have hread : (emptied h pool).cookie (nodeAt p sizeofRbNode) ≠ COOKIE_MEM_NEXT_BLOCK := by
    rw [Heap.cookie, node_emptied hpool hnull]
    exact hcookie
  rw [removeFromPool]
  show (rbRemove _ _ _ >>= _) = _
  rw [hcall, ok_bind]
  exact if_neg hread

/-! ### The search -/

theorem rbSearchUpper_null : rbSearchUpper (fuel + 1) h 0 size = .ok 0 := by
  rw [rbSearchUpper, searchUpper, if_pos rfl]
  show Except.ok (if _ then _ else _) = _
  rw [ite_self]

theorem rbSearchUpper_single (hx : x ≠ 0) (hnode : h.node x = single k) :
    rbSearchUpper (fuel + 2) h x size =
      .ok (if k = size then x else if size < k ∧ (h.node 0).key ≠ size then x else 0) := by
  have hkey : (h.node x).key = k := by rw [hnode, single]
  have hleft : (h.node x).L = 0 := by rw [hnode, single]
  have hright : (h.node x).R = 0 := by rw [hnode, single]
  rw [rbSearchUpper, searchUpper, if_neg hx, hkey, hleft, hright]
  by_cases heq : k = size
  · rw [if_pos heq, if_pos heq]
    show Except.ok (if _ then _ else _) = _
    rw [hkey, if_pos heq]
  · rw [if_neg heq, if_neg heq, searchUpper, searchUpper, if_pos rfl, if_pos rfl]
    by_cases hlt : size < k
    · rw [if_pos hlt, if_pos (Or.inl rfl)]
      show Except.ok (if _ then _ else _) = _
      by_cases h0 : (h.node 0).key = size
      · rw [if_pos h0, if_neg (fun hc => hc.2 h0)]
      · rw [if_neg h0, if_pos ⟨hlt, h0⟩]
    · rw [if_neg hlt, if_neg (fun hc => hlt hc.1)]
      show Except.ok (if _ then _ else _) = _
      rw [ite_self]

/-- The list of the pools: at most one follows the first. -/
structure Linkage (h : Heap) (L : List Extent) : Prop where
  first : h.memoryPool ≠ 0 → ∃ P ∈ L, P.addr = h.memoryPool
  next : h.memoryPool ≠ 0 → h.nextPool h.memoryPool ≠ 0 →
    (∃ P ∈ L, P.addr = h.nextPool h.memoryPool) ∧ h.nextPool (h.nextPool h.memoryPool) = 0

/-- Before the first allocation, and after it. -/
inductive Good : System → Prop
  | idle {h : Heap} {L : List Extent} (hlink : Linkage h L) (hfresh : ∀ P ∈ L, Fresh h P) :
      Good ⟨h, L, []⟩
  | whole {h : Heap} {L : List Extent} {P : Extent} {size : ℕ} (hlink : Linkage h L) (hP : P ∈ L)
      (hfirst : P.addr = h.memoryPool) (htaken : Taken h P)
      (hsize : size + sizeofKmemPool + kmemBlockHeadSize ≤ P.pages * Buddy.pgSize)
      (hfresh : ∀ Q ∈ L, Q ≠ P → Fresh h Q) :
      Good ⟨h, L, [(P.addr + sizeofKmemPool + kmemBlockHeadSize, size)]⟩

theorem Good.holds {s : System} (hs : Good s) (hP : P ∈ s.pools) : Fresh s.heap P ∨ Taken s.heap P := by
  cases hs with
  | idle hlink hfresh => exact Or.inl (hfresh P hP)
  | @whole h L Q size hlink hQ hfirst htaken hsize hfresh =>
    by_cases hPQ : P = Q
    · subst hPQ
      exact Or.inr htaken
    · exact Or.inl (hfresh P hP hPQ)

theorem Good.linkage {s : System} (hs : Good s) : Linkage s.heap s.pools := by
  cases hs with
  | idle hlink hfresh => exact hlink
  | whole hlink hP hfirst htaken hsize hfresh => exact hlink

theorem Fresh.inTree (hP : Fresh h P) : InTree (h.freeTree P.addr) (P.addr + sizeofKmemPool) := by
  have hroot : (h.freeTree P.addr).root = P.addr + sizeofKmemPool := hP.root
  rw [← hroot]
  apply InTree.root
  rw [hroot, sizeofKmemPool]
  omega

theorem Fresh.eq_of_inTree (hP : Fresh h P) (hx : InTree (h.freeTree P.addr) x) :
    x = P.addr + sizeofKmemPool :=
  inTree_single hP.root hP.node hx

theorem rbSearchUpper_none (hP : Fresh h P ∨ Taken h P)
    (hmiss : ∀ x, InTree (h.freeTree P.addr) x → ¬ Suits h size x) :
    rbSearchUpper (fuel + 2) h (h.freeTree P.addr).root size = .ok 0 := by
  rcases hP with hfresh | htaken
  · have hroot : (h.freeTree P.addr).root = P.addr + sizeofKmemPool := hfresh.root
    have hne : P.addr + sizeofKmemPool ≠ 0 := by
      rw [sizeofKmemPool]
      omega
    have hnot := hmiss _ hfresh.inTree
    simp only [Suits, hfresh.node, single, not_or] at hnot
    rw [hroot, rbSearchUpper_single hne hfresh.node, if_neg hnot.1, if_neg hnot.2]
  · have hroot : (h.freeTree P.addr).root = 0 := htaken.root
    rw [hroot]
    exact rbSearchUpper_null

theorem findNode_none {s : System} (hs : Good s)
    (hmiss : ∀ pool, Linked s.heap pool → ∀ x, InTree (s.heap.freeTree pool) x →
      ¬ Suits s.heap size x) :
    findNode (fuel + 3) (fuel + 3) s.heap s.heap.memoryPool size = .ok (0, 0) := by
  have hlook : ∀ pool, Linked s.heap pool → (∃ P ∈ s.pools, P.addr = pool) →
      rbSearchUpper (fuel + 3) s.heap (s.heap.freeTree pool).root size = .ok 0 := by
    rintro pool hlinked ⟨P, hP, rfl⟩
    exact rbSearchUpper_none (hs.holds hP) (hmiss _ hlinked)
  have hlink := hs.linkage
  rw [findNode]
  by_cases h0 : s.heap.memoryPool = 0
  · rw [if_pos h0]
    rfl
  · rw [if_neg h0, hlook _ (Linked.first h0) (hlink.first h0), ok_bind, if_neg (fun hc => hc rfl),
      findNode]
    by_cases h1 : s.heap.nextPool s.heap.memoryPool = 0
    · rw [if_pos h1]
      rfl
    · obtain ⟨hmem, hlast⟩ := hlink.next h0 h1
      rw [if_neg h1, hlook _ (Linked.next (Linked.first h0) h1) hmem, ok_bind,
        if_neg (fun hc => hc rfl), hlast, findNode, if_pos rfl]
      rfl

theorem memKmalloc_none {s : System} (hs : Good s)
    (hmiss : ∀ pool, Linked s.heap pool → ∀ x, InTree (s.heap.freeTree pool) x →
      ¬ Suits s.heap (neededSize size) x) :
    memKmalloc (fuel + 3) s.heap size = .ok (s.heap, 0) := by
  rw [memKmalloc, findNode_none hs hmiss, ok_bind]
  exact if_pos rfl

theorem le_neededSize (hsize : size < 2 ^ 32) (hlarge : 16 < neededSize size) :
    size + kmemBlockHeadSize ≤ neededSize size := by
  simp only [neededSize, roundUp16, addUint, kmemBlockHeadSize] at hlarge ⊢
  omega

theorem Fresh.remove (hfresh : Fresh h P) (hP : P.Fits) :
    removeFromPool (fuel + 1) h P.addr (P.addr + sizeofKmemPool) = .ok (emptied h P.addr) := by
  have hpos := hP.pos
  apply removeFromPool_single hfresh.root (by omega) hfresh.node
  · rw [hP.nodeAt_eq]
    omega
  · rw [hP.nodeAt_eq]
    omega
  · rw [hP.nodeAt_eq]
    exact hfresh.cookie

theorem addUint_header (hP : P.Fits) : addUint (P.addr + sizeofKmemPool) kmemBlockHeadSize =
    P.addr + sizeofKmemPool + kmemBlockHeadSize := by
  have hle := hP.finish_ge
  have hfinish := hP.finish
  simp only [addUint, sizeofKmemPool, kmemBlockHeadSize, Buddy.pgSize] at hle ⊢
  omega

/-- The heap after the one block of a pool is taken. -/
def wholeTaken (h : Heap) (P : Extent) : Heap :=
  (emptied h P.addr).write (P.addr + sizeofKmemPool)
    (kmemBlock COOKIE_MEM_INUSE_BLOCK P.addr (P.pages * Buddy.pgSize - sizeofKmemPool) 0)

theorem memKmalloc_whole (hP : P.Fits) (hfresh : Fresh h P) (hfirst : P.addr = h.memoryPool)
    (hsize : P.pages * Buddy.pgSize - sizeofKmemPool = neededSize size) :
    memKmalloc (fuel + 3) h size =
      .ok (wholeTaken h P, P.addr + sizeofKmemPool + kmemBlockHeadSize) := by
  have hpos := hP.pos
  have hle := hP.finish_ge
  have hfinish := hP.finish
  have hne : P.addr + sizeofKmemPool ≠ 0 := by omega
  have hroot : (h.freeTree P.addr).root = P.addr + sizeofKmemPool := hfresh.root
  have hfind : findNode (fuel + 3) (fuel + 3) h h.memoryPool (neededSize size) =
      .ok (P.addr, P.addr + sizeofKmemPool) := by
    rw [findNode, ← hfirst, if_neg (by omega), hroot, rbSearchUpper_single hne hfresh.node,
      if_pos hsize, ok_bind, if_pos hne]
    rfl
  have hkey : ((emptied h P.addr).node (P.addr + sizeofKmemPool)).key = neededSize size := by
    rw [node_emptied (by rw [sizeofKmemPool]; omega) hne, hfresh.node, single, hsize]
  have hrest : subUint (neededSize size) (neededSize size) = 0 := by
    rw [subUint]
    omega
  rw [memKmalloc, hfind, ok_bind]
  show (if _ then _ else _) = _
  rw [if_neg hne, takeNode, ← hfirst, hfresh.remove hP, ok_bind]
  simp only [hkey, hrest]
  rw [if_neg (fun hc => hc rfl)]
  show Except.ok (_, _) = _
  rw [addUint_header hP, if_pos (by decide), wholeTaken, hsize]

theorem node_wholeTaken {y : ℕ} (h0 : y ≠ 0) (hpool : y ≠ P.addr)
    (hnode : y ≠ P.addr + sizeofKmemPool) : (wholeTaken h P).node y = h.node y := by
  rw [wholeTaken, node_write_of_ne hnode, node_emptied hpool h0]

theorem wholeTaken_taken : Taken (wholeTaken h P) P where
  root := by
    rw [wholeTaken, node_write_of_ne (by rw [sizeofKmemPool]; omega), root_emptied]
  size := by
    rw [wholeTaken, Heap.blockSize, node_write_self, kmemBlock]

/-! ### Steps -/

theorem Placed.disjoint (hL : Placed L) (hP : P ∈ L) (hQ : Q ∈ L) (hne : P ≠ Q) :
    P.finish ≤ Q.addr ∨ Q.finish ≤ P.addr := by
  have hsymm : Std.Symm fun P Q : Extent => P.finish ≤ Q.addr ∨ Q.finish ≤ P.addr :=
    ⟨fun _ _ => Or.symm⟩
  exact hL.apart.forall hP hQ hne

/-- Only the headers of a pool matter. -/
theorem Fresh.congr (hP : Fresh h P)
    (hsame : ∀ d ∈ [0, sizeofKmemPool, 272], h'.node (P.addr + d) = h.node (P.addr + d)) :
    Fresh h' P where
  root := by
    have h0 : h'.node P.addr = h.node P.addr := hsame 0 (by simp)
    rw [h0]
    exact hP.root
  node := (hsame sizeofKmemPool (by simp)).trans hP.node
  cookie := by
    rw [Heap.cookie, hsame 272 (by simp)]
    exact hP.cookie

theorem Linkage.congr (hlink : Linkage h L) (hpool : h'.memoryPool = h.memoryPool)
    (hnext : ∀ P ∈ L, h'.nextPool P.addr = h.nextPool P.addr) : Linkage h' L where
  first := by
    rw [hpool]
    exact hlink.first
  next := by
    rw [hpool]
    intro h0 h1
    obtain ⟨P, hP, haddr⟩ := hlink.first h0
    have hsame : h'.nextPool h.memoryPool = h.nextPool h.memoryPool := by
      rw [← haddr]
      exact hnext P hP
    rw [hsame] at h1 ⊢
    obtain ⟨⟨Q, hQ, hQaddr⟩, hlast⟩ := hlink.next h0 h1
    refine ⟨⟨Q, hQ, hQaddr⟩, ?_⟩
    rw [← hQaddr, hnext Q hQ, hQaddr]
    exact hlast

theorem nextPool_wholeTaken {y : ℕ} (h0 : y ≠ 0) (hnode : y ≠ P.addr + sizeofKmemPool) :
    (wholeTaken h P).nextPool y = h.nextPool y := by
  by_cases hy : y = P.addr
  · subst hy
    have hlink : ((((h.freeTree P.addr).setRoot 0).setParent 0 0).node P.addr) = h.node P.addr := by
      rw [RbTree.setParent, RbTree.node_write, if_neg h0]
      rfl
    rw [wholeTaken, Heap.nextPool, node_write_of_ne hnode, emptied, Heap.setFreeTree]
    simp only [Function.update_self]
    rw [hlink]
    rfl
  · rw [Heap.nextPool, node_wholeTaken h0 hy hnode]
    rfl

/-- The place of one header does not fall on that of another pool. -/
theorem Placed.addr_ne (hL : Placed L) (hP : P ∈ L) (hQ : Q ∈ L) (hne : P ≠ Q) {c d : ℕ}
    (hc : c < Buddy.pgSize) (hd : d < Buddy.pgSize) : P.addr + c ≠ Q.addr + d := by
  have hPge := (hL.fits P hP).finish_ge
  have hQge := (hL.fits Q hQ).finish_ge
  rcases hL.disjoint hP hQ hne with hlt | hlt <;> omega

/-- What lies inside a pool is not the header of a pool. -/
theorem Placed.inner_ne (hL : Placed L) (hP : P ∈ L) (hQ : Q ∈ L) {d : ℕ} (hpos : 0 < d)
    (hd : d < Buddy.pgSize) : P.addr + d ≠ Q.addr := by
  by_cases hne : P = Q
  · subst hne
    omega
  · exact hL.addr_ne hP hQ hne hd (by decide : 0 < Buddy.pgSize)

theorem Good.kmalloc_whole (hL : Placed L) (hlink : Linkage h L) (hfresh : ∀ P ∈ L, Fresh h P)
    (hP : P ∈ L) (hfirst : P.addr = h.memoryPool) (hsize : size < 2 ^ 32)
    (hwhole : P.pages * Buddy.pgSize - sizeofKmemPool = neededSize size) :
    Good ⟨wholeTaken h P, L, [(P.addr + sizeofKmemPool + kmemBlockHeadSize, size)]⟩ := by
  have hge := (hL.fits P hP).finish_ge
  have hle : size + kmemBlockHeadSize ≤ neededSize size := by
    apply le_neededSize hsize
    rw [← hwhole]
    simp only [Extent.finish, sizeofKmemPool, Buddy.pgSize] at hge ⊢
    omega
  have hnode : ∀ Q ∈ L, Q ≠ P → ∀ d < Buddy.pgSize, (wholeTaken h P).node (Q.addr + d) = h.node (Q.addr + d) := by
    intro Q hQ hne d hd
    have hpos := (hL.fits Q hQ).pos
    apply node_wholeTaken
    · omega
    · exact hL.addr_ne hQ hP hne hd (by decide : 0 < Buddy.pgSize)
    · exact hL.addr_ne hQ hP hne hd (by decide)
  refine Good.whole (hlink.congr rfl fun Q hQ => ?_) hP hfirst wholeTaken_taken ?_ fun Q hQ hne => ?_
  · have hpos := (hL.fits Q hQ).pos
    by_cases hne : Q = P
    · subst hne
      exact nextPool_wholeTaken (by omega) (by rw [sizeofKmemPool]; omega)
    · exact nextPool_wholeTaken (by omega)
        (hL.addr_ne hQ hP hne (by decide : 0 < Buddy.pgSize) (by decide))
  · simp only [sizeofKmemPool, kmemBlockHeadSize, Buddy.pgSize] at hge hwhole hle ⊢
    rw [Extent.finish, Buddy.pgSize] at hge
    omega
  · apply (hfresh Q hQ).congr
    intro d hd
    apply hnode Q hQ hne
    simp only [List.mem_cons, List.not_mem_nil, or_false] at hd
    rcases hd with rfl | rfl | rfl <;> decide

/-- A harmless `mem_kmalloc` returns, and the heap is good afterwards. -/
theorem Good.kmalloc {s : System} (hs : Good s) (hL : Placed s.pools) (hsize : size < 2 ^ 32)
    (hok : WholeOrNone s.heap (neededSize size)) :
    ∃ h p, Returns (fun fuel => memKmalloc fuel s.heap size) (h, p) ∧
      Good ⟨h, s.pools, if p = 0 then s.live else (p, size) :: s.live⟩ := by
  rcases hok with hmiss | ⟨h0, x, hx, hkey⟩
  · exact ⟨s.heap, 0, Returns.of_add 3 fun fuel => memKmalloc_none hs hmiss, hs⟩
  · obtain ⟨P, hP, hfirst⟩ := hs.linkage.first h0
    rw [← hfirst] at hx
    cases hs with
    | @idle h L hlink hfresh =>
      obtain rfl := (hfresh P hP).eq_of_inTree hx
      rw [(hfresh P hP).node] at hkey
      refine ⟨_, _, Returns.of_add 3 fun fuel =>
        memKmalloc_whole (hL.fits P hP) (hfresh P hP) hfirst hkey, ?_⟩
      rw [if_neg (by rw [kmemBlockHeadSize]; omega)]
      exact Good.kmalloc_whole hL hlink hfresh hP hfirst hsize hkey
    | @whole h L Q size' hlink hQ hQfirst htaken hsize' hfresh =>
      have hroot : (h.freeTree P.addr).root = 0 := by
        rw [hfirst, ← hQfirst]
        exact htaken.root
      exact absurd hx (not_inTree hroot)

theorem mem_range {a : ℕ} {b : ℕ × ℕ} : a ∈ range b ↔ b.1 ≤ a ∧ a < b.1 + b.2 := Set.mem_Ico

theorem range_disjoint {b c : ℕ × ℕ} (h : b.1 + b.2 ≤ c.1 ∨ c.1 + c.2 ≤ b.1) :
    Disjoint (range b) (range c) := by
  apply Set.disjoint_left.mpr
  intro a ha hc
  rw [mem_range] at ha hc
  omega

theorem word_aligned {b : ℕ} (hb : b % 16 = 0) :
    h.word b = (h.node b).key ∧ h.word (b + 4) = (h.node b).parentAndColor ∧
      h.word (b + 8) = (h.node b).L ∧ h.word (b + 12) = (h.node b).R := by
  have hdiv : ∀ d < 16, (b + d) / 16 * 16 = b ∧ (b + d) % 16 = d := by
    intro d hd
    omega
  have hdiv0 := hdiv 0 (by decide)
  rw [Nat.add_zero] at hdiv0
  refine ⟨?_, ?_, ?_, ?_⟩
  · simp [Heap.word, hdiv0]
  · simp [Heap.word, hdiv 4 (by decide)]
  · simp [Heap.word, hdiv 8 (by decide)]
  · simp [Heap.word, hdiv 12 (by decide)]

theorem node_eq_of_words {b : ℕ} (hb : b % 16 = 0)
    (hsame : ∀ d ∈ [0, 4, 8, 12], h'.word (b + d) = h.word (b + d)) : h'.node b = h.node b := by
  obtain ⟨hkey, hparent, hL, hR⟩ := word_aligned hb (h := h)
  obtain ⟨hkey', hparent', hL', hR'⟩ := word_aligned hb (h := h')
  have h0 := hsame 0 (by simp)
  have h4 := hsame 4 (by simp)
  have h8 := hsame 8 (by simp)
  have h12 := hsame 12 (by simp)
  rw [Nat.add_zero, hkey, hkey'] at h0
  rw [hparent, hparent'] at h4
  rw [hL, hL'] at h8
  rw [hR, hR'] at h12
  cases hn : h.node b
  cases hn' : h'.node b
  rw [hn, hn'] at h0 h4 h8 h12
  simp only at h0 h4 h8 h12
  rw [h0, h4, h8, h12]

/-- No allocation has a byte of the headers. -/
theorem Good.owned {s : System} (hs : Good s) (hL : Placed s.pools) (hP : P ∈ s.pools) {c : ℕ}
    (hc : c + 4 ≤ Buddy.pgSize)
    (hheader : Fresh s.heap P ∨ c + 4 ≤ sizeofKmemPool + kmemBlockHeadSize) :
    s.Owned (P.addr + c) := by
  have hge := (hL.fits P hP).finish_ge
  refine ⟨⟨P, hP, by omega, by omega⟩, fun b hb => ?_⟩
  cases hs with
  | idle hlink hfresh => cases hb
  | @whole h L Q size hlink hQ hfirst htaken hsize hfresh =>
    obtain rfl := List.mem_singleton.mp hb
    apply range_disjoint
    by_cases hne : P = Q
    · subst hne
      rcases hheader with hP' | hlow
      · have hroot := hP'.root
        rw [htaken.root, sizeofKmemPool] at hroot
        omega
      · exact Or.inr (by omega)
    · have hfinish : Q.addr + sizeofKmemPool + kmemBlockHeadSize + size ≤ Q.finish := by
        rw [Extent.finish]
        omega
      rcases hL.disjoint hP hQ hne with hlt | hlt
      · exact Or.inr (by omega)
      · exact Or.inl (by omega)

theorem Good.use {s : System} (hs : Good s) (hL : Placed s.pools)
    (hpool : h.memoryPool = s.heap.memoryPool)
    (hsame : ∀ a, a % 4 = 0 → s.Owned a → h.word a = s.heap.word a) :
    Good ⟨h, s.pools, s.live⟩ := by
  have hword : ∀ P ∈ s.pools, ∀ c, c % 4 = 0 → c + 4 ≤ Buddy.pgSize →
      (Fresh s.heap P ∨ c + 4 ≤ sizeofKmemPool + kmemBlockHeadSize) →
      h.word (P.addr + c) = s.heap.word (P.addr + c) := by
    intro P hP c h4 hc hheader
    have haligned := (hL.fits P hP).aligned
    apply hsame
    · rw [Buddy.pgSize] at haligned
      omega
    · exact hs.owned hL hP hc hheader
  have hnode : ∀ P ∈ s.pools, ∀ d, d % 16 = 0 → d + 16 ≤ Buddy.pgSize →
      (Fresh s.heap P ∨ d + 16 ≤ sizeofKmemPool + kmemBlockHeadSize) →
      h.node (P.addr + d) = s.heap.node (P.addr + d) := by
    intro P hP d h16 hd hheader
    have haligned := (hL.fits P hP).aligned
    rw [Buddy.pgSize] at haligned
    apply node_eq_of_words (by omega)
    intro e he
    simp only [List.mem_cons, List.not_mem_nil, or_false] at he
    rw [Nat.add_assoc]
    refine hword P hP (d + e) (by omega) (by omega) (hheader.imp_right fun _ => by omega)
  have hheader : ∀ P ∈ s.pools, h.node P.addr = s.heap.node P.addr := by
    intro P hP
    exact hnode P hP 0 (by decide) (by decide) (Or.inr (by decide))
  have hlink : Linkage h s.pools := by
    apply hs.linkage.congr hpool
    intro P hP
    rw [Heap.nextPool, hheader P hP]
    rfl
  have hfree : ∀ P ∈ s.pools, Fresh s.heap P → Fresh h P := by
    intro P hP hfresh
    apply hfresh.congr
    intro d hd
    simp only [List.mem_cons, List.not_mem_nil, or_false] at hd
    rcases hd with rfl | rfl | rfl
    · exact hheader P hP
    · exact hnode P hP _ (by decide) (by decide) (Or.inl hfresh)
    · exact hnode P hP _ (by decide) (by decide) (Or.inl hfresh)
  cases hs with
  | idle hlink' hfresh => exact Good.idle hlink fun P hP => hfree P hP (hfresh P hP)
  | @whole h₀ L P size hlink' hP hfirst htaken hsize hfresh =>
    refine Good.whole hlink hP (hfirst.trans hpool.symm) ⟨?_, ?_⟩ hsize
      fun Q hQ hne => hfree Q hQ (hfresh Q hQ hne)
    · rw [hheader P hP]
      exact htaken.root
    · have haligned := (hL.fits P hP).aligned
      rw [Buddy.pgSize] at haligned
      have hsize24 := hword P hP 24 (by decide) (by decide) (Or.inr (by decide))
      have h8 := (word_aligned (h := h) (b := P.addr + sizeofKmemPool)
        (by rw [sizeofKmemPool]; omega)).2.2.1
      have h8' := (word_aligned (h := h₀) (b := P.addr + sizeofKmemPool)
        (by rw [sizeofKmemPool]; omega)).2.2.1
      rw [Heap.blockSize, ← h8]
      exact hsize24.trans (h8'.trans htaken.size)

theorem Good.step {s s' : System} {e : Event} (hs : Good s) (hL : Placed s.pools)
    (hstep : Step s e s') (hok : Harmless s e) : Good s' ∧ s'.pools = s.pools := by
  cases hstep with
  | kmalloc hsize hcall =>
    obtain ⟨h, p, hcall', hgood⟩ := hs.kmalloc hL hsize hok
    cases hcall.unique hcall'
    exact ⟨hgood, rfl⟩
  | kfree hlive hcall => exact absurd hok id
  | use hpool hsame => exact ⟨hs.use hL hpool hsame, rfl⟩

/-! ### What is recorded as free -/

theorem Fresh.recorded_iff (hP : Fresh h P) (hfits : P.Fits) (f : ℕ × ℕ) :
    Recorded h P.addr f ↔ f = (P.addr + sizeofKmemPool, P.pages * Buddy.pgSize - sizeofKmemPool) := by
  have hkey : (h.node (P.addr + sizeofKmemPool)).key = P.pages * Buddy.pgSize - sizeofKmemPool := by
    rw [hP.node, single]
  constructor
  · intro hf
    cases hf with
    | node hx =>
      obtain rfl := hP.eq_of_inTree hx
      rw [hkey]
    | chained hx hcookie hb =>
      obtain rfl := hP.eq_of_inTree hx
      rw [hfits.nodeAt_eq] at hcookie
      exact absurd hcookie hP.cookie
  · intro hf
    rw [hf, ← hkey]
    exact Recorded.node hP.inTree

theorem Taken.not_recorded (hP : Taken h P) (f : ℕ × ℕ) : ¬ Recorded h P.addr f := by
  have hroot : (h.freeTree P.addr).root = 0 := hP.root
  intro hf
  cases hf with
  | node hx => exact not_inTree hroot hx
  | chained hx hcookie hb => exact not_inTree hroot hx

theorem Good.heapSafe {s : System} (hs : Good s) (hL : Placed s.pools) : HeapSafe s := by
  have hrecorded : ∀ P ∈ s.pools, ∀ f, Recorded s.heap P.addr f →
      P.addr + sizeofKmemPool ≤ f.1 ∧ f.1 + f.2 ≤ P.finish := by
    intro P hP f hf
    have hge := (hL.fits P hP).finish_ge
    rcases hs.holds hP with hfresh | htaken
    · rw [hfresh.recorded_iff (hL.fits P hP)] at hf
      simp only [hf, Extent.finish, sizeofKmemPool, Buddy.pgSize] at hge ⊢
      omega
    · exact absurd hf (htaken.not_recorded f)
  cases hs with
  | idle hlink hfresh =>
    exact ⟨fun b hb => absurd hb List.not_mem_nil, List.Pairwise.nil,
      fun b hb => absurd hb List.not_mem_nil, hrecorded⟩
  | @whole h L P size hlink hP hfirst htaken hsize hfresh =>
    have hinside : P.addr + sizeofKmemPool + kmemBlockHeadSize + size ≤ P.finish := by
      rw [Extent.finish]
      omega
    refine ⟨fun b hb => ?_, List.pairwise_singleton .., fun b hb Q hQ f hf => ?_, hrecorded⟩
    · obtain rfl := List.mem_singleton.mp hb
      exact ⟨P, hP, by omega, hinside⟩
    · obtain rfl := List.mem_singleton.mp hb
      by_cases hne : Q = P
      · subst hne
        exact absurd hf (htaken.not_recorded f)
      · have hf' := hrecorded Q hQ f hf
        apply range_disjoint
        rcases hL.disjoint hQ hP hne with hlt | hlt
        · exact Or.inr (by omega)
        · exact Or.inl (by omega)

/-- One block has all of the pool. -/
theorem conserved_of_one {s : System} {F : List (ℕ × ℕ)} (hfits : P.Fits)
    (hlisted : ∀ f, f ∈ F ↔ Recorded s.heap P.addr f) (hnodup : F.Nodup)
    (hall : F ++ s.liveBlocks P = [(P.addr + sizeofKmemPool, P.pages * Buddy.pgSize - sizeofKmemPool)]) :
    Conserved s P F := by
  have hge := hfits.finish_ge
  have hbytes : ∀ a, a ∈ range (P.addr + sizeofKmemPool, P.pages * Buddy.pgSize - sizeofKmemPool) ↔
      P.addr + sizeofKmemPool ≤ a ∧ a < P.finish := by
    intro a
    simp only [mem_range, Extent.finish, sizeofKmemPool, Buddy.pgSize] at hge ⊢
    omega
  refine ⟨hlisted, hnodup, ?_, fun a hlow hhigh => ?_, fun b hb a ha => ?_⟩
  · rw [← List.sum_append, ← List.map_append, hall]
    rfl
  · rw [hall]
    refine ⟨_, ⟨List.mem_singleton_self _, (hbytes a).mpr ⟨hlow, hhigh⟩⟩, ?_⟩
    intro b hb
    exact List.mem_singleton.mp hb.1
  · rw [hall] at hb
    obtain rfl := List.mem_singleton.mp hb
    exact (hbytes a).mp ha

theorem Good.conserved {s : System} (hs : Good s) (hL : Placed s.pools) (hP : P ∈ s.pools) :
    ∃ F, Conserved s P F := by
  have hfits := hL.fits P hP
  have hge := hfits.finish_ge
  -- a pool that no allocation lies in
  have hfree : Fresh s.heap P → s.liveBlocks P = [] → ∃ F, Conserved s P F := by
    intro hfresh hnone
    refine ⟨[(P.addr + sizeofKmemPool, P.pages * Buddy.pgSize - sizeofKmemPool)],
      conserved_of_one hfits (fun f => ?_) (List.nodup_singleton _) ?_⟩
    · rw [List.mem_singleton, hfresh.recorded_iff hfits]
    · rw [hnone, List.append_nil]
  cases hs with
  | idle hlink hfresh => exact hfree (hfresh P hP) rfl
  | @whole h L Q size hlink hQ hfirst htaken hsize hfresh =>
    by_cases hne : P = Q
    · subst hne
      refine ⟨[], conserved_of_one hfits (fun f => ?_) List.nodup_nil ?_⟩
      · simp [htaken.not_recorded]
      · have hin : P.addr ≤ P.addr + sizeofKmemPool + kmemBlockHeadSize ∧
            P.addr + sizeofKmemPool + kmemBlockHeadSize < P.finish := by
          simp only [sizeofKmemPool, kmemBlockHeadSize, Buddy.pgSize] at hge ⊢
          omega
        simp [System.liveBlocks, hin.1, hin.2, htaken.size]
    · apply hfree (hfresh P hP hne)
      have hQge := (hL.fits Q hQ).finish_ge
      have hout : ¬ (P.addr ≤ Q.addr + sizeofKmemPool + kmemBlockHeadSize ∧
          Q.addr + sizeofKmemPool + kmemBlockHeadSize < P.finish) := by
        simp only [sizeofKmemPool, kmemBlockHeadSize, Buddy.pgSize] at hge hQge ⊢
        rcases hL.disjoint hP hQ hne with hlt | hlt <;> omega
      simp only [System.liveBlocks, decide_eq_false hout, List.filter_cons, List.filter_nil]
      rfl

/-! ### The start -/

theorem toNat_roundDownPower2_eq {y : BitVec 32} (hy : y ≠ 0) :
    (roundDownPower2 y).toNat = 2 ^ (y.toNat.size - 1) ∧ 0 < y.toNat.size := by
  have hround : roundDownPower2 y = filled y - filled y >>> 1 := by
    rw [roundDownPower2, if_neg hy]
    rfl
  have hpos : 0 < y.toNat := by
    apply Nat.pos_of_ne_zero
    intro h0
    exact hy (BitVec.eq_of_toNat_eq h0)
  have hsize := Nat.size_pos.mpr hpos
  have hlow : 2 ^ (y.toNat.size - 1) ≤ y.toNat := Nat.lt_size.mp (by omega)
  have hdouble : 2 ^ y.toNat.size = 2 * 2 ^ (y.toNat.size - 1) := by
    rw [Nat.mul_comm, ← Nat.pow_succ]
    congr
    omega
  have hlt := y.isLt
  refine ⟨?_, hsize⟩
  rw [hround, BitVec.toNat_sub, BitVec.toNat_ushiftRight, toNat_filled, hdouble, Nat.shiftRight_one]
  omega

/-- The pools that `init_memory_pool` makes of so many pages, with the pages that `page_alloc` gives
it from its call number `i` on. -/
inductive PoolsOf (pageAlloc : ℕ → ℕ) : ℕ → ℕ → List Extent → Prop
  | none {i : ℕ} : PoolsOf pageAlloc i 0 []
  | some {i pages : ℕ} {L : List Extent} (hpages : pages ≠ 0)
      (hrest : PoolsOf pageAlloc (i + 1)
        (subUint pages (roundDownPower2 (BitVec.ofNat 32 pages)).toNat) L) :
      PoolsOf pageAlloc i pages (⟨pageAlloc i, (roundDownPower2 (BitVec.ofNat 32 pages)).toNat⟩ :: L)

/-- The heap after `create_a_mem_pool`. -/
def created (h : Heap) (P : Extent) : Heap :=
  let header := kmemPool (P.pages * Buddy.pgSize) (P.pages * Buddy.pgSize - sizeofKmemPool) 0 0
  ((h.write P.addr header).write (P.addr + sizeofKmemPool)
    (single (P.pages * Buddy.pgSize - sizeofKmemPool))).write P.addr
      { header with R := P.addr + sizeofKmemPool }

theorem createAMemPool_eq (hP : P.Fits) :
    createAMemPool (fuel + 1) h P.addr P.pages = .ok (created h P) := by
  have hpos := hP.pos
  have hge := hP.finish_ge
  have hfinish := hP.finish
  have htotal : P.pages * Buddy.pgSize % 2 ^ 32 = P.pages * Buddy.pgSize := by
    rw [Extent.finish] at hfinish
    exact Nat.mod_eq_of_lt (by omega)
  have hfree : subUint (P.pages * Buddy.pgSize) sizeofKmemPool = P.pages * Buddy.pgSize - sizeofKmemPool := by
    simp only [subUint, Extent.finish, sizeofKmemPool, Buddy.pgSize] at hge hfinish ⊢
    omega
  have haddr : addUint P.addr sizeofKmemPool = P.addr + sizeofKmemPool := by
    simp only [addUint, sizeofKmemPool, Buddy.pgSize] at hge ⊢
    omega
  have hroot : ((h.write P.addr (kmemPool (P.pages * Buddy.pgSize)
      (P.pages * Buddy.pgSize - sizeofKmemPool) 0 0)).node P.addr).R = 0 := by
    rw [node_write_self, kmemPool]
  rw [createAMemPool]
  simp only [htotal, hfree, haddr]
  rw [insertToPool_single hroot (by omega) (by rw [sizeofKmemPool]; omega), node_write_self, created]

theorem node_created {y : ℕ} (hpool : y ≠ P.addr) (hnode : y ≠ P.addr + sizeofKmemPool) :
    (created h P).node y = h.node y := by
  rw [created, node_write_of_ne hpool, node_write_of_ne hnode, node_write_of_ne hpool]

theorem created_fresh (hcookie : h.cookie (P.addr + 272) ≠ COOKIE_MEM_NEXT_BLOCK) :
    Fresh (created h P) P where
  root := by
    rw [created, node_write_self]
  node := by
    rw [created, node_write_of_ne (by rw [sizeofKmemPool]; omega), node_write_self]
  cookie := by
    rw [Heap.cookie, node_created (by omega) (by rw [sizeofKmemPool]; omega)]
    exact hcookie

theorem nextPool_created : (created h P).nextPool P.addr = 0 := by
  rw [created, Heap.nextPool, node_write_self, kmemPool]

theorem node_setNextPool {y q : ℕ} (hy : y ≠ pool) : (h.setNextPool pool q).node y = h.node y :=
  node_write_of_ne hy

theorem nextPool_setNextPool {q : ℕ} : (h.setNextPool pool q).nextPool pool = q := by
  rw [Heap.setNextPool, Heap.nextPool, node_write_self]

theorem Fresh.setNextPool {q : ℕ} (hP : Fresh h P) (h16 : P.addr + sizeofKmemPool ≠ pool)
    (h272 : P.addr + 272 ≠ pool) : Fresh (h.setNextPool pool q) P where
  root := by
    by_cases hy : P.addr = pool
    · rw [hy, Heap.setNextPool, node_write_self]
      rw [← hy]
      exact hP.root
    · rw [node_setNextPool hy]
      exact hP.root
  node := by
    rw [node_setNextPool h16]
    exact hP.node
  cookie := by
    rw [Heap.cookie, node_setNextPool h272]
    exact hP.cookie

/-- The pools made so far; the first of them is `pools`, and only it is followed by another. -/
structure Building (h : Heap) (D : List Extent) (pools : ℕ) : Prop where
  fresh : ∀ P ∈ D, Fresh h P
  first : pools ≠ 0 → ∃ P ∈ D, P.addr = pools
  null : pools = 0 → D = []
  last : ∀ P ∈ D, P.addr ≠ pools → h.nextPool P.addr = 0
  next : pools ≠ 0 → h.nextPool pools ≠ 0 → ∃ P ∈ D, P.addr ≠ pools ∧ P.addr = h.nextPool pools

variable {D R : List Extent} {pools : ℕ}

theorem Building.linkage (hb : Building h D pools) (hpool : h.memoryPool = pools) : Linkage h D where
  first := by
    rw [hpool]
    exact hb.first
  next := by
    rw [hpool]
    intro h0 h1
    obtain ⟨P, hP, hne, haddr⟩ := hb.next h0 h1
    refine ⟨⟨P, hP, haddr⟩, ?_⟩
    rw [← haddr]
    exact hb.last P hP hne

theorem Placed.ne_of_mem (hL : Placed (D ++ P :: R)) :
    (∀ Q ∈ D, Q ≠ P) ∧ ∀ Q ∈ R, Q ≠ P := by
  have hge := (hL.fits P (by simp)).finish_ge
  have hpages : 0 < Buddy.pgSize := by decide
  have happart := List.pairwise_append.mp hL.apart
  constructor
  · rintro Q hQ rfl
    have h := happart.2.2 Q hQ Q List.mem_cons_self
    omega
  · rintro Q hQ rfl
    have h := (List.pairwise_cons.mp happart.2.1).1 Q hQ
    omega

/-- The first pool. -/
theorem Building.start (hb : Building h D 0) (hfits : P.Fits)
    (hcookie : h.cookie (P.addr + 272) ≠ COOKIE_MEM_NEXT_BLOCK) :
    Building (created h P) (D ++ [P]) P.addr := by
  obtain rfl := hb.null rfl
  have hpos := hfits.pos
  rw [List.nil_append]
  refine ⟨fun Q hQ => ?_, fun _ => ⟨P, List.mem_singleton_self P, rfl⟩, fun h0 => ?_,
    fun Q hQ hne => ?_, fun _ hne => ?_⟩
  · obtain rfl := List.mem_singleton.mp hQ
    exact created_fresh hcookie
  · omega
  · obtain rfl := List.mem_singleton.mp hQ
    exact absurd rfl hne
  · exact absurd nextPool_created hne

/-- One more pool. -/
theorem Building.extend (hb : Building h D pools) (hpools : pools ≠ 0) (hL : Placed (D ++ P :: R))
    (hcookie : h.cookie (P.addr + 272) ≠ COOKIE_MEM_NEXT_BLOCK) :
    Building ((created h P).setNextPool pools P.addr) (D ++ [P]) pools := by
  obtain ⟨F, hF, rfl⟩ := hb.first hpools
  have hmem : ∀ Q ∈ D, Q ∈ D ++ P :: R := fun Q hQ => List.mem_append_left _ hQ
  have hPmem : P ∈ D ++ P :: R := by simp
  have hne := hL.ne_of_mem.1
  have hcreated : ∀ Q ∈ D, ∀ d < Buddy.pgSize, (created h P).node (Q.addr + d) = h.node (Q.addr + d) := by
    intro Q hQ d hd
    apply node_created
    · exact hL.addr_ne (hmem Q hQ) hPmem (hne Q hQ) hd (by decide : 0 < Buddy.pgSize)
    · exact hL.addr_ne (hmem Q hQ) hPmem (hne Q hQ) hd (by decide)
  have hfirst : P.addr ≠ F.addr :=
    hL.addr_ne hPmem (hmem F hF) (hne F hF).symm (by decide : 0 < Buddy.pgSize) (by decide : 0 < Buddy.pgSize)
  have hfresh : ∀ Q ∈ D ++ P :: R, Fresh (created h P) Q →
      Fresh ((created h P).setNextPool F.addr P.addr) Q := by
    intro Q hQ hQfresh
    exact hQfresh.setNextPool (hL.inner_ne hQ (hmem F hF) (by decide) (by decide))
      (hL.inner_ne hQ (hmem F hF) (by decide) (by decide))
  refine ⟨fun Q hQ => ?_, fun _ => ⟨F, List.mem_append_left _ hF, rfl⟩, fun h0 => absurd h0 hpools,
    fun Q hQ hQne => ?_, fun _ _ => ⟨P, by simp, hfirst, nextPool_setNextPool.symm⟩⟩
  · rcases List.mem_append.mp hQ with hQ | hQ
    · apply hfresh Q (hmem Q hQ)
      apply (hb.fresh Q hQ).congr
      intro d hd
      apply hcreated Q hQ
      simp only [List.mem_cons, List.not_mem_nil, or_false] at hd
      rcases hd with rfl | rfl | rfl <;> decide
    · obtain rfl := List.mem_singleton.mp hQ
      exact hfresh Q hPmem (created_fresh hcookie)
  · rw [Heap.nextPool, node_setNextPool hQne]
    rcases List.mem_append.mp hQ with hQ | hQ
    · have hsame : (created h P).node Q.addr = h.node Q.addr := hcreated Q hQ 0 (by decide)
      rw [hsame]
      exact hb.last Q hQ hQne
    · obtain rfl := List.mem_singleton.mp hQ
      exact nextPool_created

theorem initPools_spec {pageAlloc : ℕ → ℕ} {i pages : ℕ} (hof : PoolsOf pageAlloc i pages R)
    (hb : Building h D pools) (hL : Placed (D ++ R))
    (hclean : ∀ P ∈ R, h.cookie (P.addr + 272) ≠ COOKIE_MEM_NEXT_BLOCK) :
    ∃ h' pools', Building h' (D ++ R) pools' ∧ ∀ fuel rounds, R.length < rounds →
      initPools (fuel + 1) pageAlloc rounds h i pages pools = .ok (h', pools') := by
  induction hof generalizing h D pools with
  | none =>
    refine ⟨h, pools, ?_, fun fuel rounds hrounds => ?_⟩
    · rw [List.append_nil]
      exact hb
    · obtain ⟨r, rfl⟩ : ∃ r, rounds = r + 1 := ⟨rounds - 1, by omega⟩
      rw [initPools, if_pos rfl]
      rfl
  | @some i pages R hpages hrest ih =>
    generalize hP : Extent.mk (pageAlloc i) (roundDownPower2 (BitVec.ofNat 32 pages)).toNat = P at *
    have hfits : P.Fits := hL.fits P (by simp)
    have hcookie := hclean P List.mem_cons_self
    have hcreate : ∀ fuel, createAMemPool (fuel + 1) h (pageAlloc i)
        (roundDownPower2 (BitVec.ofNat 32 pages)).toNat = .ok (created h P) := by
      intro fuel
      subst hP
      exact createAMemPool_eq hfits
    have haddr : pageAlloc i = P.addr := by rw [← hP]
    have hL' : Placed ((D ++ [P]) ++ R) := by
      rw [List.append_assoc]
      exact hL
    have hcreated : ∀ Q ∈ R, (created h P).node (Q.addr + 272) = h.node (Q.addr + 272) := by
      intro Q hQ
      have hQP := hL.ne_of_mem.2 Q hQ
      apply node_created
      · exact hL.addr_ne (by simp [hQ]) (by simp) hQP (by decide) (by decide : 0 < Buddy.pgSize)
      · exact hL.addr_ne (by simp [hQ]) (by simp) hQP (by decide) (by decide)
    have happend : D ++ P :: R = (D ++ [P]) ++ R := by simp
    rw [happend]
    by_cases hpools : pools = 0
    · subst hpools
      obtain ⟨h', pools', hb', hrun⟩ := ih (hb.start hfits hcookie) hL' fun Q hQ => by
        rw [Heap.cookie, hcreated Q hQ]
        exact hclean Q (List.mem_cons_of_mem _ hQ)
      refine ⟨h', pools', hb', fun fuel rounds hrounds => ?_⟩
      rw [List.length_cons] at hrounds
      obtain ⟨r, rfl⟩ : ∃ r, rounds = r + 1 := ⟨rounds - 1, by omega⟩
      rw [initPools, if_neg hpages]
      simp only [hcreate, ok_bind]
      rw [if_neg (fun hc => hc rfl), haddr]
      exact hrun fuel r (by omega)
    · obtain ⟨h', pools', hb', hrun⟩ := ih (hb.extend hpools hL hcookie) hL' fun Q hQ => by
        obtain ⟨F, hF, rfl⟩ := hb.first hpools
        have hQF : Q.addr + 272 ≠ F.addr :=
          hL.inner_ne (by simp [hQ]) (by simp [hF]) (by decide) (by decide)
        rw [Heap.cookie, node_setNextPool hQF, hcreated Q hQ]
        exact hclean Q (List.mem_cons_of_mem _ hQ)
      refine ⟨h', pools', hb', fun fuel rounds hrounds => ?_⟩
      rw [List.length_cons] at hrounds
      obtain ⟨r, rfl⟩ : ∃ r, rounds = r + 1 := ⟨rounds - 1, by omega⟩
      rw [initPools, if_neg hpages]
      simp only [hcreate, ok_bind]
      rw [if_pos hpools, haddr]
      exact hrun fuel r (by omega)

/-- The state after `init_memory_pool`, with the memory `h₀` before it: `page_alloc` gives every pool
pages of its own, and no pool begins with what looks like the header of a chain. -/
structure Booted (pageAlloc : ℕ → ℕ) (h₀ : Heap) (poolSize : ℕ) (s : System) : Prop where
  pools : PoolsOf pageAlloc 0 (addUint poolSize (Buddy.pgSize - 1) / Buddy.pgSize) s.pools
  placed : Placed s.pools
  clean : ∀ P ∈ s.pools, h₀.cookie (P.addr + 272) ≠ COOKIE_MEM_NEXT_BLOCK
  heap : Returns (fun fuel => initMemoryPool fuel pageAlloc h₀ poolSize) s.heap
  live : s.live = []

/-- `init_memory_pool` returns. -/
theorem initMemoryPool_good {pageAlloc : ℕ → ℕ} {poolSize : ℕ}
    (hof : PoolsOf pageAlloc 0 (addUint poolSize (Buddy.pgSize - 1) / Buddy.pgSize) L) (hL : Placed L)
    (hclean : ∀ P ∈ L, h.cookie (P.addr + 272) ≠ COOKIE_MEM_NEXT_BLOCK) :
    ∃ h', Returns (fun fuel => initMemoryPool fuel pageAlloc h poolSize) h' ∧ Good ⟨h', L, []⟩ := by
  have hb : Building h [] 0 :=
    ⟨fun P hP => absurd hP List.not_mem_nil, fun h0 => absurd rfl h0, fun _ => rfl,
      fun P hP => absurd hP List.not_mem_nil, fun h0 => absurd rfl h0⟩
  obtain ⟨h', pools, hb', hrun⟩ := initPools_spec hof hb hL hclean
  rw [List.nil_append] at hb'
  refine ⟨{ h' with memoryPool := pools }, Returns.of_add (L.length + 1) fun fuel => ?_, ?_⟩
  · have hcall := hrun (fuel + L.length) (fuel + (L.length + 1)) (by omega)
    rw [Nat.add_assoc] at hcall
    simp only [initMemoryPool, hcall, ok_bind]
    rfl
  · have hb₁ : Building { h' with memoryPool := pools } L pools :=
      ⟨fun P hP => (hb'.fresh P hP).congr fun _ _ => rfl, hb'.first, hb'.null, hb'.last, hb'.next⟩
    exact Good.idle (hb₁.linkage rfl) hb₁.fresh

variable {pageAlloc : ℕ → ℕ} {h₀ : Heap} {poolSize : ℕ} {s₀ s : System} {tr : List (Transition System Event)}

theorem Booted.good (hboot : Booted pageAlloc h₀ poolSize s₀) : Good s₀ := by
  obtain ⟨h', hcall, hgood⟩ := initMemoryPool_good hboot.pools hboot.placed hboot.clean
  have hheap := hboot.heap.unique hcall
  have hlive := hboot.live
  cases s₀
  simp only at hheap hlive
  rw [hheap, hlive]
  exact hgood

theorem good_of_run (hboot : Booted pageAlloc h₀ poolSize s₀) (hrun : Run Step s₀ tr s)
    (hok : ∀ x ∈ tr, Harmless x.source x.label) : Good s ∧ Placed s.pools := by
  have hkeep : ∀ s e s', (Good s ∧ Placed s.pools) → Step s e s' → Harmless s e →
      Good s' ∧ Placed s'.pools := by
    intro s e s' hs hstep hharmless
    obtain ⟨hgood, hpools⟩ := hs.1.step hs.2 hstep hharmless
    rw [← hpools] at hs
    exact ⟨hgood, hs.2⟩
  have hstart : Good s₀ ∧ Placed s₀.pools := ⟨hboot.good, hboot.placed⟩
  exact hrun.invariant_of_forall hstart hkeep hok

/-- **Heap safety.**  While nothing is freed and blocks are taken whole from the first pool, live
allocations and free blocks lie in their pools and apart, and `mem_kmalloc` returns. -/
theorem heap_safe_of_harmless (hboot : Booted pageAlloc h₀ poolSize s₀) (hrun : Run Step s₀ tr s)
    (hok : ∀ x ∈ tr, Harmless x.source x.label) :
    HeapSafe s ∧ ∀ size < 2 ^ 32, Harmless s (.kmalloc size) →
      ∃ h p, Returns (fun fuel => memKmalloc fuel s.heap size) (h, p) := by
  obtain ⟨hs, hL⟩ := good_of_run hboot hrun hok
  refine ⟨hs.heapSafe hL, fun size hsize hharmless => ?_⟩
  obtain ⟨h, p, hcall, -⟩ := hs.kmalloc hL hsize hharmless
  exact ⟨h, p, hcall⟩

/-- **Conservation.**  While nothing is freed and blocks are taken whole from the first pool, free and
live blocks have every byte of every pool once, and add up to what was free at first. -/
theorem heap_conserved_of_harmless (hboot : Booted pageAlloc h₀ poolSize s₀)
    (hrun : Run Step s₀ tr s) (hok : ∀ x ∈ tr, Harmless x.source x.label) (hP : P ∈ s.pools) :
    ∃ F, Conserved s P F ∧ (s.live = [] →
      ∀ a, (∃ f ∈ F, a ∈ range f) ↔ P.addr + sizeofKmemPool ≤ a ∧ a < P.finish) := by
  obtain ⟨hs, hL⟩ := good_of_run hboot hrun hok
  obtain ⟨F, hF⟩ := hs.conserved hL hP
  exact ⟨F, hF, hF.free_iff⟩

/-! ### A block that is split -/

/-- Where the rest of a split block is put: sixteen times as far behind it as it should be. -/
def restAddr (P : Extent) (size : ℕ) : ℕ := nodeAt (P.addr + sizeofKmemPool) (neededSize size)

/-- The heap after a part of the one block of a pool is taken. -/
def splitTaken (h : Heap) (P : Extent) (size : ℕ) : Heap :=
  let h := emptied h P.addr
  let rest := single (P.pages * Buddy.pgSize - sizeofKmemPool - neededSize size)
  let h := (h.write (restAddr P size) rest).write P.addr
    { h.node P.addr with R := restAddr P size }
  h.write (P.addr + sizeofKmemPool) (kmemBlock COOKIE_MEM_INUSE_BLOCK P.addr (neededSize size) 0)

theorem memKmalloc_split (hP : P.Fits) (hfresh : Fresh h P) (hfirst : P.addr = h.memoryPool)
    (hsize : neededSize size + 16 ≤ P.pages * Buddy.pgSize - sizeofKmemPool)
    (hword : (h.node 0).key ≠ neededSize size) (hbehind : P.addr + sizeofKmemPool < restAddr P size) :
    memKmalloc (fuel + 3) h size =
      .ok (splitTaken h P size, P.addr + sizeofKmemPool + kmemBlockHeadSize) := by
  have hpos := hP.pos
  have hfinish := hP.finish
  have hle : P.pages * Buddy.pgSize < 2 ^ 32 := by
    rw [Extent.finish] at hfinish
    omega
  have hne : P.addr + sizeofKmemPool ≠ 0 := by omega
  have hroot : (h.freeTree P.addr).root = P.addr + sizeofKmemPool := hfresh.root
  have hkey : ((emptied h P.addr).node (P.addr + sizeofKmemPool)).key =
      P.pages * Buddy.pgSize - sizeofKmemPool := by
    rw [node_emptied (by rw [sizeofKmemPool]; omega) hne, hfresh.node, single]
  have hrest : subUint (P.pages * Buddy.pgSize - sizeofKmemPool) (neededSize size) =
      P.pages * Buddy.pgSize - sizeofKmemPool - neededSize size := by
    rw [subUint]
    omega
  have hfind : findNode (fuel + 3) (fuel + 3) h h.memoryPool (neededSize size) =
      .ok (P.addr, P.addr + sizeofKmemPool) := by
    rw [findNode, ← hfirst, if_neg (by omega), hroot, rbSearchUpper_single hne hfresh.node,
      if_neg (by omega), if_pos ⟨by omega, hword⟩, ok_bind, if_pos hne]
    rfl
  have hlarge : ¬ P.pages * Buddy.pgSize - sizeofKmemPool - neededSize size < 16 := by omega
  rw [memKmalloc, hfind, ok_bind]
  show (if _ then _ else _) = _
  rw [if_neg hne, takeNode, ← hfirst, hfresh.remove hP, ok_bind]
  simp only [hkey, hrest, if_neg hlarge]
  rw [if_pos (by omega), ← restAddr, insertToPool_single root_emptied (by omega) (by omega), ok_bind]
  show Except.ok (_, _) = _
  rw [addUint_header hP, splitTaken]

theorem splitTaken_recorded (hne : restAddr P size ≠ 0) (hpool : restAddr P size ≠ P.addr)
    (hnode : restAddr P size ≠ P.addr + sizeofKmemPool) :
    Recorded (splitTaken h P size) P.addr
      (restAddr P size, P.pages * Buddy.pgSize - sizeofKmemPool - neededSize size) := by
  have hroot : ((splitTaken h P size).freeTree P.addr).root = restAddr P size := by
    show ((splitTaken h P size).node P.addr).R = _
    rw [splitTaken, node_write_of_ne (by rw [sizeofKmemPool]; omega), node_write_self]
  have hkey : ((splitTaken h P size).node (restAddr P size)).key =
      P.pages * Buddy.pgSize - sizeofKmemPool - neededSize size := by
    rw [splitTaken, node_write_of_ne hnode, node_write_of_ne hpool, node_write_self, single]
  have hrecorded : Recorded (splitTaken h P size) P.addr _ :=
    Recorded.node (InTree.root (by rw [hroot]; exact hne))
  rw [hroot, hkey] at hrecorded
  exact hrecorded

/-! ### Runs on a pool of 4 MB -/

def demoPool : Extent := ⟨0x1000000, 1024⟩

def demoMemory : Heap := ⟨fun _ => single 0, 0⟩

def demoHeap : Heap := { created demoMemory demoPool with memoryPool := demoPool.addr }

def demoStart : System := ⟨demoHeap, [demoPool], []⟩

theorem demoPool_fits : demoPool.Fits := ⟨by decide, by decide, by decide, by decide⟩

theorem demoPool_fresh : Fresh demoHeap demoPool := by
  have hfresh : Fresh (created demoMemory demoPool) demoPool := created_fresh (by decide)
  exact hfresh.congr fun _ _ => rfl

theorem demoStart_booted : Booted (fun _ => 0x1000000) demoMemory (2 ^ 22) demoStart where
  pools := by
    have hpages : addUint (2 ^ 22) (Buddy.pgSize - 1) / Buddy.pgSize = 1024 := by decide
    have hround : (roundDownPower2 (BitVec.ofNat 32 1024)).toNat = 1024 := by decide
    have hpools : PoolsOf (fun _ => 0x1000000) 0 1024 _ := PoolsOf.some (by decide) (by
      rw [hround]
      exact PoolsOf.none)
    rw [hround] at hpools
    rw [hpages]
    exact hpools
  placed := by
    refine ⟨fun P hP => ?_, List.pairwise_singleton ..⟩
    obtain rfl := List.mem_singleton.mp hP
    exact demoPool_fits
  clean := by
    intro P hP
    obtain rfl := List.mem_singleton.mp hP
    decide
  heap := by
    apply Returns.of_add 2
    intro fuel
    have hpages : addUint (2 ^ 22) (Buddy.pgSize - 1) / Buddy.pgSize = 1024 := by decide
    have hround : (roundDownPower2 (BitVec.ofNat 32 1024)).toNat = 1024 := by decide
    have hcreate : createAMemPool (fuel + 2) demoMemory 0x1000000 1024 = .ok _ :=
      createAMemPool_eq demoPool_fits
    simp only [initMemoryPool, hpages, initPools, hround, hcreate, ok_bind]
    rfl
  live := rfl

/-- All of the pool is asked for. -/
theorem demo_whole_step : Step demoStart (.kmalloc 4194276)
    ⟨wholeTaken demoHeap demoPool, [demoPool], [(0x100001C, 4194276)]⟩ := by
  have hcall : Returns (fun fuel => memKmalloc fuel demoHeap 4194276)
      (wholeTaken demoHeap demoPool, 0x100001C) :=
    Returns.of_add 3 fun _ => memKmalloc_whole demoPool_fits demoPool_fresh rfl (by decide)
  have hsize : 4194276 < 2 ^ 32 := by decide
  exact Step.kmalloc (s := demoStart) hsize hcall

theorem demo_whole_run : Run Step demoStart [⟨demoStart, .kmalloc 4194276,
    ⟨wholeTaken demoHeap demoPool, [demoPool], [(0x100001C, 4194276)]⟩⟩]
    ⟨wholeTaken demoHeap demoPool, [demoPool], [(0x100001C, 4194276)]⟩ :=
  Run.start.extend demo_whole_step

theorem demo_whole_harmless : Harmless demoStart (.kmalloc 4194276) := by
  refine Or.inr ⟨by decide, _, demoPool_fresh.inTree, ?_⟩
  exact congrArg RbNode.key demoPool_fresh.node

theorem heap_safe_of_harmless_demo : ∃ tr s, Run Step demoStart tr s ∧
    s.live = [(0x100001C, 4194276)] ∧ HeapSafe s := by
  refine ⟨_, _, demo_whole_run, rfl, (heap_safe_of_harmless demoStart_booted demo_whole_run ?_).1⟩
  intro x hx
  obtain rfl := List.mem_singleton.mp hx
  exact demo_whole_harmless

theorem heap_conserved_of_harmless_demo : ∃ tr s, Run Step demoStart tr s ∧
    s.live = [(0x100001C, 4194276)] ∧ ∃ F, Conserved s demoPool F := by
  have hok : ∀ x ∈ [(⟨demoStart, .kmalloc 4194276, ⟨wholeTaken demoHeap demoPool, [demoPool],
      [(0x100001C, 4194276)]⟩⟩ : Transition System Event)], Harmless x.source x.label := by
    intro x hx
    obtain rfl := List.mem_singleton.mp hx
    exact demo_whole_harmless
  obtain ⟨F, hF, -⟩ := heap_conserved_of_harmless demoStart_booted demo_whole_run hok
    (List.mem_singleton_self demoPool)
  exact ⟨_, _, demo_whole_run, rfl, F, hF⟩

/-- A hundred bytes are asked for. -/
theorem demo_split_step : Step demoStart (.kmalloc 100)
    ⟨splitTaken demoHeap demoPool 100, [demoPool], [(0x100001C, 100)]⟩ := by
  have hcall : Returns (fun fuel => memKmalloc fuel demoHeap 100)
      (splitTaken demoHeap demoPool 100, 0x100001C) :=
    Returns.of_add 3 fun _ =>
      memKmalloc_split demoPool_fits demoPool_fresh rfl (by decide) (by decide) (by decide)
  have hsize : 100 < 2 ^ 32 := by decide
  exact Step.kmalloc (s := demoStart) hsize hcall

/-- The rest of the block is recorded 1792 bytes behind it. -/
theorem demo_split_recorded :
    Recorded (splitTaken demoHeap demoPool 100) demoPool.addr (0x1000710, 4194176) :=
  splitTaken_recorded (by decide) (by decide) (by decide)

/-- It ends outside the pool. -/
theorem heap_unsafe : ∃ tr s, Booted (fun _ => 0x1000000) demoMemory (2 ^ 22) demoStart ∧
    Run Step demoStart tr s ∧ ¬ HeapSafe s := by
  refine ⟨_, _, demoStart_booted, Run.start.extend demo_split_step, fun hsafe => ?_⟩
  have hend := (hsafe.recorded demoPool (List.mem_singleton_self _) _ demo_split_recorded).2
  exact absurd hend (by decide)

/-- The bytes between the two blocks are in none, and the free one has bytes outside the pool. -/
theorem heap_not_conserved : ∃ tr s, Booted (fun _ => 0x1000000) demoMemory (2 ^ 22) demoStart ∧
    Run Step demoStart tr s ∧ ¬ ∃ F, Conserved s demoPool F := by
  refine ⟨_, _, demoStart_booted, Run.start.extend demo_split_step, ?_⟩
  rintro ⟨F, hF⟩
  have hmem := (hF.listed _).mpr demo_split_recorded
  have hbyte : demoPool.finish ∈ range (0x1000710, 4194176) := by
    rw [mem_range]
    decide
  exact absurd (hF.within _ (List.mem_append_left _ hmem) _ hbyte).2 (by decide)

end OmochaOS.Kmem
