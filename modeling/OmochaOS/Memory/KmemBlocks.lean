import Mathlib.Data.Set.Pairwise.Basic
import OmochaOS.Memory.KmemRuns
import OmochaOS.Rbtree.Footprint

/-!
# Blocks of equal size

The tree of a pool has one block of each size.  The others of the size hang behind it in a chain, whose
header lies 256 bytes after the node, since the pointer to the node moves by whole nodes.  This module
follows `insert_to_pool` and `remove_from_pool` on one pool: what the tree and its chains record are the
blocks that were put in and not taken out (`Kept`), as long as a chain is only begun where its header
fits into the node's block, and nothing is taken from a size with a chain.
-/

namespace OmochaOS.Kmem

open RedBlack OmochaOS.Rbtree OmochaOS.Buddy TransitionRun

variable {h h' : Heap} {P : Extent} {B B' : Set (ℕ × ℕ)} {b c p q x y z size fuel : ℕ}

/-- A block that can be put into the pool. -/
structure PoolBlock (P : Extent) (b : ℕ × ℕ) : Prop where
  low : P.addr + sizeofKmemPool ≤ b.1
  high : b.1 + b.2 ≤ P.finish
  aligned : b.1 % 16 = 0
  size : 32 ≤ b.2

/-- The header of the chain behind the node `x`. -/
def chainHead (x : ℕ) : ℕ := nodeAt x sizeofRbNode

/-- Where the chain behind `x` is as it should be: `x` is the only block of its size, or the header of
the chain fits into it and the chain has the other blocks of the size. -/
inductive Chained (h : Heap) (B : Set (ℕ × ℕ)) (x : ℕ) : Prop
  | alone (hcookie : h.cookie (chainHead x) ≠ COOKIE_MEM_NEXT_BLOCK)
      (honly : ∀ b, (b, (h.node x).key) ∈ B → b = x)
  | linked (hcookie : h.cookie (chainHead x) = COOKIE_MEM_NEXT_BLOCK) (hfits : 272 ≤ (h.node x).key)
      (hmem : ∀ b, InChain h (chainHead x) b ↔ b ≠ x ∧ (b, (h.node x).key) ∈ B)
      (hsize : ∀ b, InChain h (chainHead x) b → h.blockSize b + kmemBlockHeadSize = (h.node x).key)

/-- The pool keeps the blocks of `B`. -/
structure Kept (P : Extent) (h : Heap) (B : Set (ℕ × ℕ)) : Prop where
  wellFormed : WellFormed (h.freeTree P.addr)
  inside : ∀ b ∈ B, PoolBlock P b
  apart : B.PairwiseDisjoint range
  node : ∀ x, InTree (h.freeTree P.addr) x → (x, (h.node x).key) ∈ B
  covered : ∀ b ∈ B, ∃ x, InTree (h.freeTree P.addr) x ∧ (h.node x).key = b.2
  chained : ∀ x, InTree (h.freeTree P.addr) x → Chained h B x

/-! ### What is recorded -/

theorem PoolBlock.lt (hP : P.Fits) {b : ℕ × ℕ} (hb : PoolBlock P b) : b.1 + b.2 ≤ 2 ^ 32 :=
  hb.high.trans hP.finish

theorem PoolBlock.start_mem {b : ℕ × ℕ} (hb : PoolBlock P b) : b.1 ∈ range b := by
  have hsize := hb.size
  exact ⟨Nat.le_refl _, by omega⟩

/-- The size of a chained block is read off its header. -/
theorem PoolBlock.addUint_eq (hP : P.Fits) {b : ℕ × ℕ} (hb : PoolBlock P b) {m : ℕ}
    (hsize : m + kmemBlockHeadSize = b.2) : addUint m kmemBlockHeadSize = b.2 := by
  have hle := hb.lt hP
  have hlow := hb.low
  rw [addUint, hsize]
  apply Nat.mod_eq_of_lt
  rw [sizeofKmemPool] at hlow
  omega

/-- **The records of a kept pool are its blocks.** -/
theorem Kept.recorded_iff (hP : P.Fits) (hk : Kept P h B) (b : ℕ × ℕ) :
    Recorded h P.addr b ↔ b ∈ B := by
  constructor
  · intro hb
    cases hb with
    | node hx => exact hk.node _ hx
    | @chained x b hx hcookie hb =>
      cases hk.chained x hx with
      | alone hno => exact absurd hcookie hno
      | linked _ _ hmem hsize =>
        have hblock := ((hmem b).mp hb).2
        rw [(hk.inside _ hblock).addUint_eq hP (hsize b hb)]
        exact hblock
  · intro hb
    obtain ⟨x, hx, hkey⟩ := hk.covered b hb
    obtain ⟨a, size⟩ := b
    obtain rfl : (h.node x).key = size := hkey
    by_cases hax : a = x
    · subst hax
      exact Recorded.node hx
    · cases hk.chained x hx with
      | alone _ honly => exact absurd (honly a hb) hax
      | linked hcookie _ hmem hsize =>
        have hin := (hmem a).mpr ⟨hax, hb⟩
        have hrecord := Recorded.chained hx hcookie hin
        rwa [(hk.inside _ hb).addUint_eq hP (hsize a hin)] at hrecord

/-! ### What a change elsewhere leaves -/

/-- Links outside of the chain do not matter. -/
theorem inChain_congr (hhead : h'.nextFree q = h.nextFree q)
    (hlinks : ∀ b, InChain h q b → h'.nextFree b = h.nextFree b) : InChain h' q b ↔ InChain h q b := by
  constructor
  · intro hb
    induction hb with
    | first hne =>
      rw [hhead] at hne ⊢
      exact InChain.first hne
    | next _ hne ih =>
      rw [hlinks _ ih] at hne ⊢
      exact InChain.next ih hne
  · intro hb
    induction hb with
    | first hne =>
      rw [← hhead] at hne ⊢
      exact InChain.first hne
    | next hb hne ih =>
      rw [← hlinks _ hb] at hne ⊢
      exact InChain.next ih hne

theorem Chained.congr (hx : Chained h B x) (hkey : (h'.node x).key = (h.node x).key)
    (hcookie : h'.cookie (chainHead x) = COOKIE_MEM_NEXT_BLOCK ↔
      h.cookie (chainHead x) = COOKIE_MEM_NEXT_BLOCK)
    (hB : ∀ b, (b, (h.node x).key) ∈ B' ↔ (b, (h.node x).key) ∈ B)
    (hhead : 272 ≤ (h.node x).key → h'.node (chainHead x) = h.node (chainHead x))
    (hnode : ∀ b, b ≠ x → (b, (h.node x).key) ∈ B → h'.node b = h.node b) : Chained h' B' x := by
  cases hx with
  | alone hno honly =>
    refine Chained.alone (mt hcookie.mp hno) fun b hb => ?_
    rw [hkey, hB] at hb
    exact honly b hb
  | linked hyes hfits hmem hsize =>
    have hsame : ∀ b, InChain h (chainHead x) b → h'.node b = h.node b := fun b hb =>
      hnode b ((hmem b).mp hb).1 ((hmem b).mp hb).2
    have hchain : ∀ b, InChain h' (chainHead x) b ↔ InChain h (chainHead x) b := fun b =>
      inChain_congr (congrArg RbNode.R (hhead hfits)) fun c hc => congrArg RbNode.R (hsame c hc)
    refine Chained.linked (hcookie.mpr hyes) (by rw [hkey]; exact hfits) (fun b => ?_) fun b hb => ?_
    · rw [hchain, hmem, hkey, hB]
    · rw [hkey, ← hsize b ((hchain b).mp hb), Heap.blockSize, hsame b ((hchain b).mp hb), Heap.blockSize]

/-! ### Where things lie -/

theorem Kept.eq_of_mem (hk : Kept P h B) {b c : ℕ × ℕ} {a : ℕ} (hb : b ∈ B) (hc : c ∈ B) (hab : a ∈ range b)
    (hac : a ∈ range c) : b = c :=
  hk.apart.elim_set hb hc a hab hac

/-- A block with an address of another block begins there or is that block. -/
theorem Kept.eq_of_start (hk : Kept P h B) {b c : ℕ × ℕ} (hb : b ∈ B) (hc : c ∈ B) (hmem : c.1 ∈ range b) :
    b = c :=
  hk.eq_of_mem hb hc hmem (hk.inside c hc).start_mem

theorem Kept.key_eq (hk : Kept P h B) (hx : InTree (h.freeTree P.addr) x) (hb : (x, size) ∈ B) :
    (h.node x).key = size :=
  congrArg Prod.snd (hk.eq_of_start hb (hk.node x hx) (hk.inside _ hb).start_mem).symm

/-- A block that is not the node of its size is not in the tree. -/
theorem Kept.not_inTree (hk : Kept P h B) (hx : InTree (h.freeTree P.addr) x)
    (hb : (b, (h.node x).key) ∈ B) (hne : b ≠ x) : ¬ InTree (h.freeTree P.addr) b := fun hmem =>
  hne (hk.wellFormed.key_injective hmem hx (hk.key_eq hmem hb))

theorem Kept.addr_lt (hk : Kept P h B) (hx : InTree (h.freeTree P.addr) x) : P.addr < x := by
  have hlow := (hk.inside _ (hk.node x hx)).low
  rw [sizeofKmemPool] at hlow
  omega

theorem chainHead_eq (hfits : x + 272 ≤ 2 ^ 32) : chainHead x = x + 256 := by
  rw [chainHead, nodeAt, addUint, sizeofRbNode]
  omega

theorem chainHead_injective (hx : x < 2 ^ 32) (hy : y < 2 ^ 32) (heq : chainHead x = chainHead y) :
    x = y := by
  simp only [chainHead, nodeAt, addUint, sizeofRbNode] at heq
  omega

/-- The header of a chain is not the header of a pool. -/
theorem chainHead_ne (hP : P.Fits) (hx : P.addr < x) (hlt : x < 2 ^ 32) : chainHead x ≠ P.addr := by
  have hpos := hP.pos
  have haligned := hP.aligned
  simp only [chainHead, nodeAt, addUint, sizeofRbNode, Buddy.pgSize] at haligned ⊢
  omega

/-- Where the header of the chain fits into the node's block, it has addresses of that block only. -/
theorem Kept.chainHead_mem (hP : P.Fits) (hk : Kept P h B) (hx : InTree (h.freeTree P.addr) x)
    (hfits : 272 ≤ (h.node x).key) : chainHead x = x + 256 ∧ chainHead x ∈ range (x, (h.node x).key) := by
  have hlt := (hk.inside _ (hk.node x hx)).lt hP
  have heq : chainHead x = x + 256 := chainHead_eq (by simp only at hlt; omega)
  refine ⟨heq, ?_⟩
  rw [heq]
  exact ⟨Nat.le_add_right .., by simp only; omega⟩

/-- No block begins at the header of a chain. -/
theorem Kept.chainHead_ne_start (hP : P.Fits) (hk : Kept P h B) (hx : InTree (h.freeTree P.addr) x)
    (hfits : 272 ≤ (h.node x).key) {c : ℕ × ℕ} (hc : c ∈ B) : c.1 ≠ chainHead x := by
  obtain ⟨heq, hmem⟩ := hk.chainHead_mem hP hx hfits
  intro hstart
  have hblock := hk.eq_of_start (hk.node x hx) hc (by rw [hstart]; exact hmem)
  rw [← hblock] at hstart
  simp only at hstart
  omega

/-- From `h` to `h'` only nodes, the header of `p` and the pointer to the tree have been written, and no
key but that of `p`. -/
structure Retreed (P : Extent) (p : ℕ) (h h' : Heap) : Prop where
  key : ∀ y, y ≠ p → (h'.node y).key = (h.node y).key
  node : ∀ y, y ≠ P.addr → ¬ InTree (h.freeTree P.addr) y → y ≠ p → h'.node y = h.node y
  pool : ∃ r, h'.node P.addr = { h.node P.addr with R := r }

/-- The chains are as they were. -/
theorem Kept.chained_old (hP : P.Fits) (hk : Kept P h B) (hr : Retreed P p h h')
    (hx : InTree (h.freeTree P.addr) x) (hp : ∀ c ∈ B, p ∉ range c)
    (hcookie : chainHead x = p → h'.cookie p ≠ COOKIE_MEM_NEXT_BLOCK)
    (hB : ∀ b, (b, (h.node x).key) ∈ B' ↔ (b, (h.node x).key) ∈ B) : Chained h' B' x := by
  have hstart : ∀ c ∈ B, c.1 ≠ p := by
    intro c hc heq
    exact hp c hc (heq ▸ (hk.inside c hc).start_mem)
  refine (hk.chained x hx).congr (hr.key x (hstart _ (hk.node x hx))) ?_ hB (fun hfits => ?_)
    fun b hne hb => ?_
  · by_cases hhead : chainHead x = p
    · refine iff_of_false (by rw [hhead]; exact hcookie hhead) fun hyes => ?_
      cases hk.chained x hx with
      | alone hno => exact hno hyes
      | linked _ hfits => exact hp _ (hk.node x hx) (hhead ▸ (hk.chainHead_mem hP hx hfits).2)
    · rw [Heap.cookie, hr.key _ hhead, Heap.cookie]
  · obtain ⟨heq, hmem⟩ := hk.chainHead_mem hP hx hfits
    have hlow := hk.addr_lt hx
    refine hr.node _ (by omega) (fun htree => ?_) ?_
    · exact hk.chainHead_ne_start hP hx hfits (hk.node _ htree) rfl
    · rintro rfl
      exact hp _ (hk.node x hx) hmem
  · have hlow := (hk.inside _ hb).low
    refine hr.node b ?_ (hk.not_inTree hx hb hne) (hstart _ hb)
    simp only [sizeofKmemPool] at hlow
    omega

/-! ### Writes -/

/-- Only the blocks of `B` are written, and the pointer to the tree in the header of the pool. -/
def WritesInside (P : Extent) (B : Set (ℕ × ℕ)) (h h' : Heap) : Prop :=
  ∀ a, h'.word a ≠ h.word a → (∃ b ∈ B, a ∈ range b) ∨ (P.addr + 12 ≤ a ∧ a < P.addr + sizeofKmemPool)

theorem word_congr {a : ℕ} (hnode : h'.node (a / 16 * 16) = h.node (a / 16 * 16)) :
    h'.word a = h.word a := by
  simp only [Heap.word, hnode]

/-- It is enough to look at whole headers. -/
theorem writesInside_of_node (hpool : ∃ r, h'.node P.addr = { h.node P.addr with R := r })
    (hnode : ∀ y, y % 16 = 0 → y ≠ P.addr → h'.node y = h.node y ∨
      ∃ b ∈ B, ∀ a, y ≤ a → a < y + 16 → a ∈ range b) : WritesInside P B h h' := by
  intro a hne
  by_cases hy : a / 16 * 16 = P.addr
  · right
    obtain ⟨r, hr⟩ := hpool
    by_contra hc
    apply hne
    have hlow : a % 16 < 12 := by
      rw [sizeofKmemPool] at hc
      omega
    simp only [Heap.word, hy, hr]
    split
    · rfl
    · split
      · rfl
      · rfl
  · left
    rcases hnode (a / 16 * 16) (Nat.mul_mod_left ..) hy with hsame | ⟨b, hb, hmem⟩
    · exact absurd (word_congr hsame) hne
    · exact ⟨b, hb, hmem a (by omega) (by omega)⟩

/-- The first header of a block lies inside of it. -/
theorem PoolBlock.header_mem {b : ℕ × ℕ} (hb : PoolBlock P b) {a : ℕ} (hlow : b.1 ≤ a)
    (hhigh : a < b.1 + 16) : a ∈ range b := by
  have hsize := hb.size
  exact ⟨hlow, by omega⟩

theorem Retreed.writesInside (hk : Kept P h B) (hr : Retreed P p h h') (hsub : B ⊆ B')
    (hp : p ≠ P.addr → ∃ c ∈ B', c.1 = p ∧ PoolBlock P c) : WritesInside P B' h h' := by
  refine writesInside_of_node hr.pool fun y _ hy => ?_
  by_cases hyp : y = p
  · subst hyp
    obtain ⟨c, hc, rfl, hblock⟩ := hp hy
    exact Or.inr ⟨c, hc, fun a hlow hhigh => hblock.header_mem hlow hhigh⟩
  · by_cases htree : InTree (h.freeTree P.addr) y
    · have hblock := hk.node y htree
      exact Or.inr ⟨_, hsub hblock, fun a hlow hhigh => (hk.inside _ hblock).header_mem hlow hhigh⟩
    · exact Or.inl (hr.node y hy htree hyp)

/-! ### The tree of a pool -/

/-- The tree is the one that was put there. -/
theorem setFreeTree_spec {pool : ℕ} {t : RbTree} (hw : WellFormed t) (hpool : ¬ InTree t pool) :
    WellFormed ((h.setFreeTree pool t).freeTree pool) ∧
      ∀ y, InTree ((h.setFreeTree pool t).freeTree pool) y ↔ InTree t y := by
  have hroot : ((h.setFreeTree pool t).freeTree pool).root = t.root := by
    simp [Heap.freeTree, Heap.setFreeTree]
  have hnode : ∀ y, InTree t y → ((h.setFreeTree pool t).freeTree pool).node y = t.node y := by
    intro y hy
    apply Function.update_of_ne
    rintro rfl
    exact hpool hy
  exact ⟨(hw.elsewhere hroot hnode).1, fun y => hw.inTree_congr hroot hnode⟩

theorem key_setFreeTree {pool : ℕ} {t : RbTree} : ((h.setFreeTree pool t).node y).key = t.key y := by
  by_cases hy : y = pool
  · subst hy
    simp [Heap.setFreeTree, RbTree.key]
  · simp [Heap.setFreeTree, hy, RbTree.key]

theorem node_setFreeTree {pool : ℕ} {t : RbTree} (hy : y ≠ pool) :
    (h.setFreeTree pool t).node y = t.node y := Function.update_of_ne hy _ _

theorem pool_setFreeTree {pool : ℕ} {t : RbTree} :
    (h.setFreeTree pool t).node pool = { t.node pool with R := t.root } := Function.update_self ..

/-! ### A block of a new size -/

/-- What `insert_to_pool` is given. -/
structure NewBlock (P : Extent) (B : Set (ℕ × ℕ)) (p size : ℕ) : Prop where
  block : PoolBlock P (p, size)
  apart : ∀ b ∈ B, Disjoint (range b) (range (p, size))

theorem NewBlock.not_mem (hn : NewBlock P B p size) {b : ℕ × ℕ} (hb : b ∈ B) : p ∉ range b := fun hmem =>
  (hn.apart b hb).ne_of_mem hmem hn.block.start_mem rfl

theorem NewBlock.not_inTree (hn : NewBlock P B p size) (hk : Kept P h B) : ¬ InTree (h.freeTree P.addr) p :=
  fun hmem => hn.not_mem (hk.node p hmem) (hk.inside _ (hk.node p hmem)).start_mem

theorem NewBlock.addr_lt (hn : NewBlock P B p size) : P.addr < p := by
  have hlow := hn.block.low
  simp only [sizeofKmemPool] at hlow
  omega

theorem NewBlock.isNode (hn : NewBlock P B p size) (hP : P.Fits) : IsNode p := by
  have hlt := hn.block.lt hP
  have hsize := hn.block.size
  have hlow := hn.addr_lt
  exact ⟨by omega, hn.block.aligned, by simp only at hlt hsize; omega⟩

/-- The blocks of a pool with a new one. -/
theorem NewBlock.apart_insert (hn : NewBlock P B p size) (hk : Kept P h B) :
    (insert (p, size) B).PairwiseDisjoint range :=
  hk.apart.insert fun b hb _ => (hn.apart b hb).symm

/-- The header that a block gets first does not touch the tree. -/
theorem NewBlock.write (hn : NewBlock P B p size) (hk : Kept P h B) (n : RbNode) :
    WellFormed ((h.write p n).freeTree P.addr) ∧
      ∀ y, InTree ((h.write p n).freeTree P.addr) y ↔ InTree (h.freeTree P.addr) y := by
  have hroot : ((h.write p n).freeTree P.addr).root = (h.freeTree P.addr).root :=
    congrArg RbNode.R (node_write_of_ne hn.addr_lt.ne)
  have hnode : ∀ y, InTree (h.freeTree P.addr) y →
      ((h.write p n).freeTree P.addr).node y = (h.freeTree P.addr).node y := by
    intro y hy
    apply node_write_of_ne
    rintro rfl
    exact hn.not_inTree hk hy
  exact ⟨(hk.wellFormed.elsewhere hroot hnode).1, fun y => hk.wellFormed.inTree_congr hroot hnode⟩

/-- It can be inserted. -/
theorem NewBlock.detached (hn : NewBlock P B p size) (hP : P.Fits) (hk : Kept P h B) (key : ℕ) :
    Detached ((h.write p ⟨key, 0, 0, 0⟩).freeTree P.addr) p where
  isNode := hn.isNode hP
  fresh := fun hmem => hn.not_inTree hk (((hn.write hk _).2 p).mp hmem)
  left := by simp [RbTree.child, Heap.freeTree]
  right := by simp [RbTree.child, Heap.freeTree]

/-- `insert_to_pool` where there is no block of the size. -/
theorem NewBlock.returns_first (hP : P.Fits) (hk : Kept P h B) (hn : NewBlock P B p size)
    (hnone : ∀ x, InTree (h.freeTree P.addr) x → (h.node x).key ≠ size) :
    ∃ h', Returns (fun fuel => insertToPool fuel h P.addr p size) h' ∧ Retreed P p h h' ∧
      (h'.node p).key = size ∧ WellFormed (h'.freeTree P.addr) ∧
      ∀ y, InTree (h'.freeTree P.addr) y ↔ InTree (h.freeTree P.addr) y ∨ y = p := by
  obtain ⟨hw₁, htree₁⟩ := hn.write hk (single size)
  have hdetached : Detached ((h.write p (single size)).freeTree P.addr) p := hn.detached hP hk size
  have hkeyp : ((h.write p (single size)).freeTree P.addr).key p = size :=
    congrArg RbNode.key (node_write_self (h := h) (n := single size))
  have hparent : ((h.write p (single size)).freeTree P.addr).parent p = 0 := by
    simp [RbTree.parent, Heap.freeTree, single]
  have hother : ∀ y, y ≠ p → ((h.write p (single size)).freeTree P.addr).node y = h.node y := fun y hy =>
    node_write_of_ne hy
  have habsent : ((h.write p (single size)).freeTree P.addr).key p ∉
      keySet ((h.write p (single size)).freeTree P.addr) := by
    rw [hkeyp]
    rintro ⟨x, hx, hkey⟩
    have hx' := (htree₁ x).mp hx
    have hxp : x ≠ p := by
      rintro rfl
      exact hn.not_inTree hk hx'
    exact hnone x hx' ((congrArg RbNode.key (hother x hxp)).symm.trans hkey)
  obtain ⟨t, ⟨bound, hrun⟩, hwt, hint, hkeyt, hnodet⟩ := rbInsert_with rfl hw₁ hdetached hparent habsent
  have hpool : ¬ InTree (h.freeTree P.addr) P.addr := fun hmem => Nat.lt_irrefl _ (hk.addr_lt hmem)
  have hint' : ∀ y, InTree t y ↔ InTree (h.freeTree P.addr) y ∨ y = p := fun y => by rw [hint, htree₁]
  obtain ⟨hw', htree'⟩ := setFreeTree_spec (h := h.write p (single size)) hwt fun hmem =>
    ((hint' _).mp hmem).elim hpool hn.addr_lt.ne
  refine ⟨(h.write p (single size)).setFreeTree P.addr t, ⟨bound, fun fuel hfuel => ?_⟩,
    ⟨fun y hy => ?_, fun y hy htree hyp => ?_, t.root, ?_⟩, ?_, hw', fun y => ?_⟩
  · show insertToPool fuel h P.addr p size = _
    rw [insertToPool]
    show (rbInsert _ ((h.write p (single size)).freeTree P.addr) p >>= _) = _
    have hcall : rbInsert fuel ((h.write p (single size)).freeTree P.addr) p = .ok (t, 0) := hrun fuel hfuel
    rw [hcall]
    rfl
  · rw [key_setFreeTree, hkeyt]
    exact congrArg RbNode.key (hother y hy)
  · rw [node_setFreeTree hy, hnodet y (mt (htree₁ y).mp htree) hyp]
    exact hother y hyp
  · rw [pool_setFreeTree, hnodet _ (mt (htree₁ _).mp hpool) hn.addr_lt.ne, hother _ hn.addr_lt.ne]
  · rw [key_setFreeTree, hkeyt, hkeyp]
  · rw [htree', hint']

/-- There is no block of the size, and nothing where the header of its chain would be. -/
structure FirstOfSize (P : Extent) (h : Heap) (p size : ℕ) : Prop where
  none : ∀ x, InTree (h.freeTree P.addr) x → (h.node x).key ≠ size
  cookie : h.cookie (chainHead p) ≠ COOKIE_MEM_NEXT_BLOCK
  size : size = COOKIE_MEM_NEXT_BLOCK → ∀ x, InTree (h.freeTree P.addr) x → chainHead x ≠ p

/-- **A block of a new size** becomes a node. -/
theorem Kept.insert_first (hP : P.Fits) (hk : Kept P h B) (hn : NewBlock P B p size)
    (hfirst : FirstOfSize P h p size) :
    ∃ h', Returns (fun fuel => insertToPool fuel h P.addr p size) h' ∧ Kept P h' (insert (p, size) B) ∧
      WritesInside P (insert (p, size) B) h h' := by
  obtain ⟨h', hrun, hr, hkeyp, hw', htree'⟩ := hn.returns_first hP hk hfirst.none
  have hne : ∀ x, InTree (h.freeTree P.addr) x → x ≠ p := by
    rintro x hx rfl
    exact hn.not_inTree hk hx
  refine ⟨h', hrun, ⟨hw', ?_, hn.apart_insert hk, fun x hx => ?_, fun b hb => ?_, fun x hx => ?_⟩, ?_⟩
  · rintro b (rfl | hb)
    · exact hn.block
    · exact hk.inside b hb
  · rcases (htree' x).mp hx with hx | rfl
    · rw [hr.key x (hne x hx)]
      exact Set.mem_insert_of_mem _ (hk.node x hx)
    · rw [hkeyp]
      exact Set.mem_insert _ _
  · rcases hb with rfl | hb
    · exact ⟨p, (htree' p).mpr (Or.inr rfl), hkeyp⟩
    · obtain ⟨x, hx, hkey⟩ := hk.covered b hb
      exact ⟨x, (htree' x).mpr (Or.inl hx), (hr.key x (hne x hx)).trans hkey⟩
  · rcases (htree' x).mp hx with hx | rfl
    · refine hk.chained_old hP hr hx (fun c hc => hn.not_mem hc) (fun hhead heq => ?_) fun b => ?_
      · rw [Heap.cookie, hkeyp] at heq
        exact hfirst.size heq x hx hhead
      · refine ⟨fun hb => hb.elim (fun heq => ?_) id, fun hb => Set.mem_insert_of_mem _ hb⟩
        exact absurd (congrArg Prod.snd heq) (hfirst.none x hx)
    · refine Chained.alone ?_ fun b hb => ?_
      · rw [Heap.cookie, hr.key _ ?_]
        · exact hfirst.cookie
        · simp only [chainHead, nodeAt, addUint, sizeofRbNode]
          omega
      · rw [hkeyp] at hb
        rcases hb with heq | hb
        · exact congrArg Prod.fst heq
        · obtain ⟨y, hy, hkey⟩ := hk.covered _ hb
          exact absurd hkey (hfirst.none y hy)
  · exact hr.writesInside hk (Set.subset_insert _ _) fun _ => ⟨_, Set.mem_insert _ _, rfl, hn.block⟩

/-! ### A block of a size that is there -/

/-- The two headers that a block in a chain is written to. -/
structure ChainedAt (pool p size x : ℕ) (h h' : Heap) : Prop where
  block : h'.node p = kmemBlock COOKIE_MEM_FREE_BLOCK pool (subUint size kmemBlockHeadSize)
    (if h.cookie (chainHead x) = COOKIE_MEM_NEXT_BLOCK then h.nextFree (chainHead x) else 0)
  head : h'.node (chainHead x) = { h.node (chainHead x) with key := COOKIE_MEM_NEXT_BLOCK, R := p }
  node : ∀ y, y ≠ p → y ≠ chainHead x → h'.node y = h.node y

/-- The first block of a chain. -/
theorem chain_first (hne : c ≠ p) :
    (((h.setCookie c COOKIE_MEM_NEXT_BLOCK).setNextFree c p).setNextFree p 0).node p =
        { h.node p with R := 0 } ∧
      (((h.setCookie c COOKIE_MEM_NEXT_BLOCK).setNextFree c p).setNextFree p 0).node c =
        { h.node c with key := COOKIE_MEM_NEXT_BLOCK, R := p } ∧
      ∀ y, y ≠ p → y ≠ c →
        (((h.setCookie c COOKIE_MEM_NEXT_BLOCK).setNextFree c p).setNextFree p 0).node y = h.node y := by
  refine ⟨?_, ?_, fun y hyp hyc => ?_⟩
  · simp [Heap.setNextFree, Heap.setCookie, Heap.write, hne.symm]
  · simp [Heap.setNextFree, Heap.setCookie, Heap.write, hne]
  · simp [Heap.setNextFree, Heap.setCookie, Heap.write, hyp, hyc]

/-- A block before the others of a chain. -/
theorem chain_more {r : ℕ} (hne : c ≠ p) :
    ((h.setNextFree p r).setNextFree c p).node p = { h.node p with R := r } ∧
      ((h.setNextFree p r).setNextFree c p).node c = { h.node c with R := p } ∧
      ∀ y, y ≠ p → y ≠ c → ((h.setNextFree p r).setNextFree c p).node y = h.node y := by
  refine ⟨?_, ?_, fun y hyp hyc => ?_⟩
  · simp [Heap.setNextFree, Heap.write, hne.symm]
  · simp [Heap.setNextFree, Heap.write, hne]
  · simp [Heap.setNextFree, Heap.write, hyp, hyc]

theorem chainBlock_spec {pool : ℕ} (hne : chainHead x ≠ p) :
    ChainedAt pool p size x h (chainBlock (h.write p ⟨0, 0, 0, 0⟩) pool p size x) := by
  obtain ⟨g, hg⟩ : ∃ g, g = (h.write p ⟨0, 0, 0, 0⟩).write p
      (kmemBlock COOKIE_MEM_FREE_BLOCK pool (subUint size kmemBlockHeadSize) 0) := ⟨_, rfl⟩
  have hblock : g.node p = kmemBlock COOKIE_MEM_FREE_BLOCK pool (subUint size kmemBlockHeadSize) 0 := by
    rw [hg, node_write_self]
  have hother : ∀ y, y ≠ p → g.node y = h.node y := by
    intro y hy
    rw [hg, node_write_of_ne hy, node_write_of_ne hy]
  have hcookie : g.cookie (chainHead x) = h.cookie (chainHead x) := congrArg RbNode.key (hother _ hne)
  have hunfold : chainBlock (h.write p ⟨0, 0, 0, 0⟩) pool p size x =
      if g.cookie (chainHead x) ≠ COOKIE_MEM_NEXT_BLOCK then
        ((g.setCookie (chainHead x) COOKIE_MEM_NEXT_BLOCK).setNextFree (chainHead x) p).setNextFree p 0
      else (g.setNextFree p (g.nextFree (chainHead x))).setNextFree (chainHead x) p := by
    rw [hg]
    rfl
  rw [hunfold]
  by_cases hyes : h.cookie (chainHead x) = COOKIE_MEM_NEXT_BLOCK
  · rw [if_neg (by rw [hcookie]; exact not_not_intro hyes)]
    obtain ⟨hp, hhead, hrest⟩ := chain_more (h := g) (r := g.nextFree (chainHead x)) hne
    refine ⟨?_, ?_, fun y hyp hyx => (hrest y hyp hyx).trans (hother y hyp)⟩
    · rw [hp, hblock, if_pos hyes, Heap.nextFree, hother _ hne]
      rfl
    · rw [hhead, hother _ hne, ← hyes]
      rfl
  · rw [if_pos (by rw [hcookie]; exact hyes)]
    obtain ⟨hp, hhead, hrest⟩ := chain_first (h := g) hne
    refine ⟨?_, ?_, fun y hyp hyx => (hrest y hyp hyx).trans (hother y hyp)⟩
    · rw [hp, hblock, if_neg hyes]
      rfl
    · rw [hhead, hother _ hne]

theorem insertToPool_present {pool : ℕ} {g : Heap} {t : RbTree}
    (hinsert : rbInsert fuel ((h.write p (single size)).freeTree pool) p = .ok (t, 1))
    (hclear : ((h.write p (single size)).setFreeTree pool t).write p ⟨0, 0, 0, 0⟩ = g)
    (hsearch : rbSearch fuel (g.freeTree pool) (g.freeTree pool).root size = .ok x) :
    insertToPool fuel h pool p size = .ok (chainBlock g pool p size x) := by
  rw [insertToPool]
  show (rbInsert _ ((h.write p (single size)).freeTree pool) p >>= _) = _
  rw [hinsert, ok_bind]
  show (rbSearch fuel ((((h.write p (single size)).setFreeTree pool t).write p ⟨0, 0, 0, 0⟩).freeTree pool)
    ((((h.write p (single size)).setFreeTree pool t).write p ⟨0, 0, 0, 0⟩).freeTree pool).root size >>=
    _) = _
  rw [hclear, hsearch, ok_bind, ← hclear]
  rfl

/-- A node that was not inserted leaves nothing behind when its header is cleared. -/
theorem write_again {pool : ℕ} {m n : RbNode} (hne : p ≠ pool) :
    ((h.write p m).setFreeTree pool (((h.write p m).freeTree pool).setColor p RB_RED)).write p n =
      h.write p n := by
  have hnode : (((h.write p m).setFreeTree pool (((h.write p m).freeTree pool).setColor p RB_RED)).write
      p n).node = (h.write p n).node := by
    funext y
    by_cases hyp : y = p
    · rw [hyp, node_write_self, node_write_self]
    · rw [node_write_of_ne hyp, node_write_of_ne hyp]
      have hcolor : (((h.write p m).freeTree pool).setColor p RB_RED).node y = h.node y :=
        (node_setColor_of_ne hyp).trans (node_write_of_ne hyp)
      by_cases hpool : y = pool
      · subst hpool
        have hroot : (((h.write p m).freeTree y).setColor p RB_RED).root = (h.node y).R :=
          congrArg RbNode.R (node_write_of_ne hyp)
        rw [pool_setFreeTree, hcolor, hroot]
      · rw [node_setFreeTree hpool, hcolor]
  exact congrArg (fun node => Heap.mk node h.memoryPool) hnode

/-- `insert_to_pool` where the node `x` has the size. -/
theorem NewBlock.returns_chain (hP : P.Fits) (hk : Kept P h B) (hn : NewBlock P B p size)
    (hx : InTree (h.freeTree P.addr) x) (hkey : (h.node x).key = size) :
    Returns (fun fuel => insertToPool fuel h P.addr p size)
      (chainBlock (h.write p ⟨0, 0, 0, 0⟩) P.addr p size x) := by
  obtain ⟨hw₁, htree₁⟩ := hn.write hk (single size)
  obtain ⟨hw₂, htree₂⟩ := hn.write hk ⟨0, 0, 0, 0⟩
  have hdetached : Detached ((h.write p (single size)).freeTree P.addr) p := hn.detached hP hk size
  have hkeyp : ((h.write p (single size)).freeTree P.addr).key p = size :=
    congrArg RbNode.key (node_write_self (h := h) (n := single size))
  have hxp : x ≠ p := by
    rintro rfl
    exact hn.not_inTree hk hx
  have hpresent : ((h.write p (single size)).freeTree P.addr).key p ∈
      keySet ((h.write p (single size)).freeTree P.addr) := by
    rw [hkeyp]
    exact ⟨x, (htree₁ x).mpr hx, (congrArg RbNode.key (node_write_of_ne hxp)).trans hkey⟩
  obtain ⟨bound₁, hrun₁⟩ := rbInsert_present hw₁ hdetached hpresent
  have hsame := write_again (h := h) (m := single size) (n := ⟨0, 0, 0, 0⟩) hn.addr_lt.ne'
  have hkeyx : ((h.write p ⟨0, 0, 0, 0⟩).freeTree P.addr).key x = size :=
    (congrArg RbNode.key (node_write_of_ne hxp)).trans hkey
  obtain ⟨q, ⟨bound₂, hrun₂⟩, hiff, hfound⟩ := rbSearch_returns hw₂ size
  have hq := hfound (hiff.mpr ⟨x, (htree₂ x).mpr hx, hkeyx⟩)
  obtain rfl : q = x := hw₂.key_injective hq.1 ((htree₂ x).mpr hx) (hq.2.trans hkeyx.symm)
  exact ⟨bound₁ + bound₂, fun fuel hfuel =>
    insertToPool_present (hrun₁ fuel (by omega)) hsame (hrun₂ fuel (by omega))⟩

/-- A chain of one block. -/
theorem inChain_single (hp : p ≠ 0) (hhead : h.nextFree q = p) (hlast : h.nextFree p = 0) :
    InChain h q b ↔ b = p := by
  constructor
  · intro hb
    induction hb with
    | first => exact hhead
    | next _ hne ih =>
      rw [ih] at hne
      exact absurd hlast hne
  · intro hb
    rw [hb, ← hhead]
    exact InChain.first (by rw [hhead]; exact hp)

/-- A block put before the others. -/
theorem inChain_push (hp : p ≠ 0) (hhead : h'.nextFree q = p) (hlink : h'.nextFree p = h.nextFree q)
    (hsame : ∀ b, InChain h q b → h'.nextFree b = h.nextFree b) :
    InChain h' q b ↔ b = p ∨ InChain h q b := by
  have hfirst : InChain h' q p := by
    rw [← hhead]
    exact InChain.first (by rw [hhead]; exact hp)
  constructor
  · intro hb
    induction hb with
    | first => exact Or.inl hhead
    | @next c hc hne ih =>
      rcases ih with rfl | ih
      · rw [hlink] at hne ⊢
        exact Or.inr (InChain.first hne)
      · rw [hsame c ih] at hne ⊢
        exact Or.inr (InChain.next ih hne)
  · rintro (rfl | hb)
    · exact hfirst
    · induction hb with
      | first hne =>
        rw [← hlink] at hne ⊢
        exact InChain.next hfirst hne
      | @next c hc hne ih =>
        rw [← hsame c hc] at hne ⊢
        exact InChain.next ih hne

/-- The chain that the block was put into. -/
theorem ChainedAt.chained (hP : P.Fits) (hk : Kept P h B) (hn : NewBlock P B p (h.node x).key)
    (hx : InTree (h.freeTree P.addr) x) (hfits : 272 ≤ (h.node x).key)
    (hc : ChainedAt P.addr p (h.node x).key x h h') : Chained h' (insert (p, (h.node x).key) B) x := by
  have hxp : x ≠ p := by
    rintro rfl
    exact hn.not_inTree hk hx
  have hkey : (h'.node x).key = (h.node x).key :=
    congrArg RbNode.key (hc.node x hxp (hk.chainHead_ne_start hP hx hfits (hk.node x hx)))
  have hp0 := (hn.isNode hP).ne
  have hhead : h'.nextFree (chainHead x) = p := congrArg RbNode.R hc.head
  have hlast := congrArg RbNode.R hc.block
  have hsizep : h'.blockSize p + kmemBlockHeadSize = (h.node x).key := by
    have hle := hn.block.lt hP
    rw [Heap.blockSize, hc.block, kmemBlock, subUint, kmemBlockHeadSize]
    simp only at hle ⊢
    omega
  cases hk.chained x hx with
  | alone hno honly =>
    rw [if_neg hno] at hlast
    have hchain : ∀ b, InChain h' (chainHead x) b ↔ b = p := fun b => inChain_single hp0 hhead hlast
    refine Chained.linked (congrArg RbNode.key hc.head) (by rw [hkey]; exact hfits) (fun b => ?_)
      fun b hb => ?_
    · rw [hchain, hkey, Set.mem_insert_iff, Prod.mk.injEq]
      constructor
      · rintro rfl
        exact ⟨hxp.symm, Or.inl ⟨rfl, rfl⟩⟩
      · rintro ⟨hbx, ⟨hbp, -⟩ | hb⟩
        · exact hbp
        · exact absurd (honly b hb) hbx
    · obtain rfl := (hchain b).mp hb
      rw [hkey, hsizep]
  | linked hyes _ hmem hsize =>
    rw [if_pos hyes] at hlast
    have hold : ∀ b, InChain h (chainHead x) b → h'.node b = h.node b := by
      intro b hb
      have hblock := ((hmem b).mp hb).2
      refine hc.node b ?_ (hk.chainHead_ne_start hP hx hfits hblock)
      rintro rfl
      exact hn.not_mem hblock (hk.inside _ hblock).start_mem
    have hchain : ∀ b, InChain h' (chainHead x) b ↔ b = p ∨ InChain h (chainHead x) b := fun b =>
      inChain_push hp0 hhead hlast fun c hc => congrArg RbNode.R (hold c hc)
    refine Chained.linked (congrArg RbNode.key hc.head) (by rw [hkey]; exact hfits) (fun b => ?_)
      fun b hb => ?_
    · rw [hchain, hmem, hkey, Set.mem_insert_iff, Prod.mk.injEq]
      constructor
      · rintro (rfl | ⟨hbx, hb⟩)
        · exact ⟨hxp.symm, Or.inl ⟨rfl, rfl⟩⟩
        · exact ⟨hbx, Or.inr hb⟩
      · rintro ⟨hbx, ⟨hbp, -⟩ | hb⟩
        · exact Or.inl hbp
        · exact Or.inr ⟨hbx, hb⟩
    · rw [hkey]
      rcases (hchain b).mp hb with rfl | hb
      · exact hsizep
      · rw [Heap.blockSize, hold b hb]
        exact hsize b hb

/-- The chain of another size. -/
theorem ChainedAt.chained_other (hP : P.Fits) (hk : Kept P h B) (hn : NewBlock P B p (h.node x).key)
    (hx : InTree (h.freeTree P.addr) x) (hfits : 272 ≤ (h.node x).key)
    (hc : ChainedAt P.addr p (h.node x).key x h h') (hy : InTree (h.freeTree P.addr) y) (hne : y ≠ x) :
    Chained h' (insert (p, (h.node x).key) B) y := by
  have hlt : ∀ z, InTree (h.freeTree P.addr) z → z < 2 ^ 32 := fun z hz =>
    (hk.wellFormed.isNode hz).aligned.lt
  have hheads : chainHead y ≠ chainHead x := fun heq => hne (chainHead_injective (hlt y hy) (hlt x hx) heq)
  have hblock : ∀ c ∈ B, h'.node c.1 = h.node c.1 := by
    intro c hcB
    refine hc.node _ ?_ (hk.chainHead_ne_start hP hx hfits hcB)
    rintro rfl
    exact hn.not_mem hcB (hk.inside c hcB).start_mem
  have hkey : (h'.node y).key = (h.node y).key := congrArg RbNode.key (hblock _ (hk.node y hy))
  refine (hk.chained y hy).congr hkey ?_ (fun b => ?_) (fun hfits' => ?_) fun b _ hb => hblock _ hb
  · by_cases hheadp : chainHead y = p
    · refine iff_of_false (fun heq => ?_) fun hyes => ?_
      · rw [hheadp, Heap.cookie, hc.block] at heq
        cases heq
      · cases hk.chained y hy with
        | alone hno => exact hno hyes
        | linked _ hfits' => exact hn.not_mem (hk.node y hy) (hheadp ▸ (hk.chainHead_mem hP hy hfits').2)
    · rw [Heap.cookie, hc.node _ hheadp hheads, Heap.cookie]
  · rw [Set.mem_insert_iff, Prod.mk.injEq]
    refine or_iff_right fun heq => ?_
    exact hne (hk.wellFormed.key_injective hy hx heq.2)
  · refine hc.node _ ?_ hheads
    rintro heq
    exact hn.not_mem (hk.node y hy) (heq ▸ (hk.chainHead_mem hP hy hfits').2)

/-- **Another block of a size** is put into the chain, if the header of the chain fits. -/
theorem Kept.insert_again (hP : P.Fits) (hk : Kept P h B) (hn : NewBlock P B p (h.node x).key)
    (hx : InTree (h.freeTree P.addr) x) (hfits : 272 ≤ (h.node x).key) :
    ∃ h', Returns (fun fuel => insertToPool fuel h P.addr p (h.node x).key) h' ∧
      Kept P h' (insert (p, (h.node x).key) B) ∧
      WritesInside P (insert (p, (h.node x).key) B) h h' := by
  obtain ⟨hhead, hheadmem⟩ := hk.chainHead_mem hP hx hfits
  have hheadp : chainHead x ≠ p := by
    rintro heq
    exact hn.not_mem (hk.node x hx) (heq ▸ hheadmem)
  have hc : ChainedAt P.addr p (h.node x).key x h
      (chainBlock (h.write p ⟨0, 0, 0, 0⟩) P.addr p (h.node x).key x) := chainBlock_spec hheadp
  have hrun := hn.returns_chain hP hk hx rfl
  generalize chainBlock (h.write p ⟨0, 0, 0, 0⟩) P.addr p (h.node x).key x = h' at hc hrun
  have hblock : ∀ c ∈ B, h'.node c.1 = h.node c.1 := by
    intro c hcB
    refine hc.node _ ?_ (hk.chainHead_ne_start hP hx hfits hcB)
    rintro rfl
    exact hn.not_mem hcB (hk.inside c hcB).start_mem
  have htree : ∀ y, InTree (h.freeTree P.addr) y → h'.node y = h.node y := fun y hy =>
    hblock _ (hk.node y hy)
  have hpool : h'.node P.addr = h.node P.addr := by
    have hlow := hk.addr_lt hx
    exact hc.node _ hn.addr_lt.ne (by omega)
  have hroot : (h'.freeTree P.addr).root = (h.freeTree P.addr).root := congrArg RbNode.R hpool
  have htree' : ∀ y, InTree (h'.freeTree P.addr) y ↔ InTree (h.freeTree P.addr) y := fun y =>
    hk.wellFormed.inTree_congr hroot htree
  refine ⟨h', hrun, ⟨(hk.wellFormed.elsewhere hroot htree).1, ?_, hn.apart_insert hk, fun y hy => ?_,
    fun b hb => ?_, fun y hy => ?_⟩, ?_⟩
  · rintro b (rfl | hb)
    · exact hn.block
    · exact hk.inside b hb
  · rw [htree'] at hy
    rw [htree y hy]
    exact Set.mem_insert_of_mem _ (hk.node y hy)
  · rcases hb with rfl | hb
    · exact ⟨x, (htree' x).mpr hx, congrArg RbNode.key (htree x hx)⟩
    · obtain ⟨y, hy, hkey⟩ := hk.covered b hb
      exact ⟨y, (htree' y).mpr hy, (congrArg RbNode.key (htree y hy)).trans hkey⟩
  · rw [htree'] at hy
    by_cases hyx : y = x
    · subst hyx
      exact hc.chained hP hk hn hx hfits
    · exact hc.chained_other hP hk hn hx hfits hy hyx
  · refine writesInside_of_node ⟨(h.node P.addr).R, hpool⟩ fun y _ hy => ?_
    by_cases hyp : y = p
    · subst hyp
      exact Or.inr ⟨_, Set.mem_insert _ _, fun a hlow hhigh => hn.block.header_mem hlow hhigh⟩
    · by_cases hyq : y = chainHead x
      · refine Or.inr ⟨_, Set.mem_insert_of_mem _ (hk.node x hx), fun a hlow hhigh => ?_⟩
        exact ⟨by simp only; omega, by simp only; omega⟩
      · exact Or.inl (hc.node y hyp hyq)

/-! ### Removal -/

/-- `remove_from_pool` where the node has no chain. -/
theorem Kept.returns_remove (hk : Kept P h B) (hx : InTree (h.freeTree P.addr) x)
    (hremovable : Removable (h.freeTree P.addr) x)
    (hcookie : h.cookie (chainHead x) ≠ COOKIE_MEM_NEXT_BLOCK) :
    ∃ h', Returns (fun fuel => removeFromPool fuel h P.addr x) h' ∧ Retreed P P.addr h h' ∧
      WellFormed (h'.freeTree P.addr) ∧
      ∀ y, InTree (h'.freeTree P.addr) y ↔ InTree (h.freeTree P.addr) y ∧ y ≠ x := by
  obtain ⟨t, ⟨bound, hrun⟩, hwt, hint, hkeyt, hnodet⟩ := rbRemove_without rfl hk.wellFormed hx hremovable
  have hpool : ¬ InTree (h.freeTree P.addr) P.addr := fun hmem => Nat.lt_irrefl _ (hk.addr_lt hmem)
  obtain ⟨hw', htree'⟩ := setFreeTree_spec (h := h) hwt fun hmem => hpool ((hint _).mp hmem).1
  have hkey : ∀ y, ((h.setFreeTree P.addr t).node y).key = (h.node y).key := fun y => by
    rw [key_setFreeTree, hkeyt]
    rfl
  refine ⟨h.setFreeTree P.addr t, ⟨bound, fun fuel hfuel => ?_⟩,
    ⟨fun y _ => hkey y, fun y hy htree _ => ?_, t.root, ?_⟩, hw', fun y => ?_⟩
  · show removeFromPool fuel h P.addr x = _
    have hcall : rbRemove fuel (h.freeTree P.addr) x = .ok t := hrun fuel hfuel
    have hread : (h.setFreeTree P.addr t).cookie (nodeAt x sizeofRbNode) ≠ COOKIE_MEM_NEXT_BLOCK := by
      rw [Heap.cookie, hkey]
      exact hcookie
    rw [removeFromPool]
    show (rbRemove _ _ _ >>= _) = _
    rw [hcall, ok_bind]
    exact if_neg hread
  · rw [node_setFreeTree hy, hnodet y htree]
    rfl
  · rw [pool_setFreeTree, hnodet _ hpool]
    rfl
  · rw [htree', hint]

/-- **A node without a chain** is taken out. -/
theorem Kept.remove (hP : P.Fits) (hk : Kept P h B) (hx : InTree (h.freeTree P.addr) x)
    (hremovable : Removable (h.freeTree P.addr) x)
    (hcookie : h.cookie (chainHead x) ≠ COOKIE_MEM_NEXT_BLOCK) :
    ∃ h', Returns (fun fuel => removeFromPool fuel h P.addr x) h' ∧
      Kept P h' (B \ {(x, (h.node x).key)}) ∧ WritesInside P B h h' := by
  obtain ⟨h', hrun, hr, hw', htree'⟩ := hk.returns_remove hx hremovable hcookie
  have hne : ∀ y, InTree (h.freeTree P.addr) y → y ≠ P.addr := fun y hy => (hk.addr_lt hy).ne'
  refine ⟨h', hrun, ⟨hw', fun b hb => hk.inside b hb.1, hk.apart.subset Set.sdiff_subset, fun y hy => ?_,
    fun b hb => ?_, fun y hy => ?_⟩, ?_⟩
  · obtain ⟨hy, hyx⟩ := (htree' y).mp hy
    rw [hr.key y (hne y hy)]
    exact ⟨hk.node y hy, fun heq => hyx (congrArg Prod.fst heq)⟩
  · obtain ⟨y, hy, hkey⟩ := hk.covered b hb.1
    refine ⟨y, (htree' y).mpr ⟨hy, ?_⟩, (hr.key y (hne y hy)).trans hkey⟩
    rintro rfl
    cases hk.chained y hy with
    | alone _ honly =>
      obtain ⟨a, size⟩ := b
      obtain rfl : (h.node y).key = size := hkey
      have hay := honly a hb.1
      subst hay
      exact hb.2 rfl
    | linked hyes => exact hcookie hyes
  · obtain ⟨hy, hyx⟩ := (htree' y).mp hy
    have hlt := (hk.inside _ (hk.node y hy)).lt hP
    have hsize := (hk.inside _ (hk.node y hy)).size
    refine hk.chained_old hP hr hy (fun c hc hmem => ?_) (fun hhead => ?_) fun b => ?_
    · have hlow := (hk.inside c hc).low
      have hle : c.1 ≤ P.addr := hmem.1
      rw [sizeofKmemPool] at hlow
      omega
    · exact absurd hhead (chainHead_ne hP (hk.addr_lt hy) (by simp only at hlt hsize; omega))
    · refine ⟨And.left, fun hb => ⟨hb, fun heq => ?_⟩⟩
      exact hyx (hk.wellFormed.key_injective hy hx (congrArg Prod.snd heq))
  · exact hr.writesInside hk (Set.Subset.refl _) fun hc => absurd rfl hc

/-! ### Runs -/

/-- Memory, and the blocks that were put into the pool and not taken out. -/
structure PoolState where
  heap : Heap
  blocks : Set (ℕ × ℕ)

inductive PoolEvent
  | insert (p size : ℕ)
  | remove (x : ℕ)

/-- The calls that are made of the two functions. -/
def Possible (P : Extent) (s : PoolState) : PoolEvent → Prop
  | .insert p size => NewBlock P s.blocks p size
  | .remove x => InTree (s.heap.freeTree P.addr) x

inductive PoolStep (P : Extent) : PoolState → PoolEvent → PoolState → Prop
  | insert {s : PoolState} {p size : ℕ} {h : Heap} (hn : NewBlock P s.blocks p size)
      (hcall : Returns (fun fuel => insertToPool fuel s.heap P.addr p size) h) :
      PoolStep P s (.insert p size) ⟨h, Insert.insert (p, size) s.blocks⟩
  | remove {s : PoolState} {x : ℕ} {h : Heap} (hx : InTree (s.heap.freeTree P.addr) x)
      (hcall : Returns (fun fuel => removeFromPool fuel s.heap P.addr x) h) :
      PoolStep P s (.remove x) ⟨h, s.blocks \ {(x, (s.heap.node x).key)}⟩

/-- After the call the records are those of the blocks, and only blocks have been written. -/
structure Intact (P : Extent) (s s' : PoolState) : Prop where
  recorded : ∀ b, Recorded s'.heap P.addr b ↔ b ∈ s'.blocks
  written : WritesInside P (s.blocks ∪ s'.blocks) s.heap s'.heap

/-- A block of a new size finds no header of a chain behind it, a chain begins where its header fits into
the node's block, and a node is removed that has no chain and that `rb_remove` can do without. -/
def Manageable (P : Extent) (s : PoolState) : PoolEvent → Prop
  | .insert p size => FirstOfSize P s.heap p size ∨
      272 ≤ size ∧ ∃ x, InTree (s.heap.freeTree P.addr) x ∧ (s.heap.node x).key = size
  | .remove x => Removable (s.heap.freeTree P.addr) x ∧
      s.heap.cookie (chainHead x) ≠ COOKIE_MEM_NEXT_BLOCK

theorem WritesInside.mono (hw : WritesInside P B h h') (hsub : B ⊆ B') : WritesInside P B' h h' :=
  fun a hne => (hw a hne).imp_left fun ⟨b, hb, hmem⟩ => ⟨b, hsub hb, hmem⟩

/-- A pool without blocks. -/
theorem kept_empty (hroot : (h.node P.addr).R = 0) : Kept P h ∅ where
  wellFormed := (wellFormed_empty hroot).1
  inside := nofun
  apart := Set.pairwiseDisjoint_empty
  node := fun _ hx => absurd hx (not_inTree hroot)
  covered := nofun
  chained := fun _ hx => absurd hx (not_inTree hroot)

variable {s s₀ s' : PoolState} {e : PoolEvent} {tr : List (Transition PoolState PoolEvent)}

/-- **One call.** -/
theorem Kept.step (hP : P.Fits) (hk : Kept P s.heap s.blocks) (hposs : Possible P s e)
    (hok : Manageable P s e) :
    ∃ s', PoolStep P s e s' ∧ Kept P s'.heap s'.blocks ∧
      WritesInside P (s.blocks ∪ s'.blocks) s.heap s'.heap := by
  cases e with
  | insert p size =>
    have hinsert : ∃ h', Returns (fun fuel => insertToPool fuel s.heap P.addr p size) h' ∧
        Kept P h' (insert (p, size) s.blocks) ∧
        WritesInside P (insert (p, size) s.blocks) s.heap h' := by
      rcases hok with hfirst | ⟨hfits, x, hx, rfl⟩
      · exact hk.insert_first hP hposs hfirst
      · exact hk.insert_again hP hposs hx hfits
    obtain ⟨h', hcall, hk', hwrites⟩ := hinsert
    exact ⟨_, PoolStep.insert hposs hcall, hk', hwrites.mono Set.subset_union_right⟩
  | remove x =>
    obtain ⟨h', hcall, hk', hwrites⟩ := hk.remove hP hposs hok.1 hok.2
    exact ⟨_, PoolStep.remove hposs hcall, hk', hwrites.mono Set.subset_union_left⟩

theorem PoolStep.possible (hstep : PoolStep P s e s') : Possible P s e := by
  cases hstep with
  | insert hn => exact hn
  | remove hx => exact hx

theorem PoolStep.unique {s'' : PoolState} (hstep : PoolStep P s e s') (hstep' : PoolStep P s e s'') :
    s' = s'' := by
  cases hstep with
  | insert _ hcall =>
    cases hstep' with
    | insert _ hcall' => rw [hcall.unique hcall']
  | remove _ hcall =>
    cases hstep' with
    | remove _ hcall' => rw [hcall.unique hcall']

theorem Kept.step_kept (hP : P.Fits) (hk : Kept P s.heap s.blocks) (hstep : PoolStep P s e s')
    (hok : Manageable P s e) :
    Kept P s'.heap s'.blocks ∧ WritesInside P (s.blocks ∪ s'.blocks) s.heap s'.heap := by
  obtain ⟨s'', hstep', hkept⟩ := hk.step hP hstep.possible hok
  rw [hstep.unique hstep']
  exact hkept

/-- **Runs of insertions and removals**: as long as every call is manageable, it ends, the pool records the
blocks that were put in and not taken out, and nothing else is written. -/
theorem blocks_intact_of_run (hP : P.Fits) (hroot : (s₀.heap.node P.addr).R = 0) (hblocks : s₀.blocks = ∅)
    (hrun : Run (PoolStep P) s₀ tr s) (hok : ∀ x ∈ tr, Manageable P x.source x.label) :
    (∀ x ∈ tr, Intact P x.source x.target) ∧ (∀ b, Recorded s.heap P.addr b ↔ b ∈ s.blocks) ∧
      ∀ e, Possible P s e → Manageable P s e → ∃ s', PoolStep P s e s' ∧ Intact P s s' := by
  have h₀ : Kept P s₀.heap s₀.blocks := by
    rw [hblocks]
    exact kept_empty hroot
  have hkeep : ∀ s e s', Kept P s.heap s.blocks → PoolStep P s e s' → Manageable P s e →
      Kept P s'.heap s'.blocks := fun s e s' hk hstep hm => (hk.step_kept hP hstep hm).1
  refine ⟨fun x hx => ?_, fun b => ?_, fun e hposs hm => ?_⟩
  · obtain ⟨hsource, htarget⟩ := hrun.invariant_of_forall_mem h₀ hkeep hok hx
    exact ⟨htarget.recorded_iff hP, (hsource.step_kept hP (hrun.step_of_mem hx).1 (hok x hx)).2⟩
  · exact (hrun.invariant_of_forall h₀ hkeep hok).recorded_iff hP b
  · obtain ⟨s', hstep, hk', hwrites⟩ := (hrun.invariant_of_forall h₀ hkeep hok).step hP hposs hm
    exact ⟨s', hstep, hk'.recorded_iff hP, hwrites⟩

/-! ### Two blocks -/

/-- A pool of one page in memory that is zero. -/
def onePool : Extent := ⟨0x1000000, 1⟩

def zeroMemory : PoolState := ⟨⟨fun _ => ⟨0, 0, 0, 0⟩, 0⟩, ∅⟩

theorem onePool_fits : onePool.Fits := ⟨by decide, by decide, by decide, by decide⟩

/-- The first block is the node of its size. -/
theorem twoBlocks_first (size : ℕ) (hsize : 32 ≤ size) (hlt : size ≤ 1024) :
    NewBlock onePool ∅ 0x1000010 size ∧ FirstOfSize onePool zeroMemory.heap 0x1000010 size := by
  refine ⟨⟨⟨?_, ?_, ?_, hsize⟩, nofun⟩, ⟨fun _ hx => absurd hx (not_inTree rfl), by decide,
    fun _ _ hx => absurd hx (not_inTree rfl)⟩⟩
  · simp only [onePool, sizeofKmemPool]
    omega
  · simp only [onePool, Extent.finish, Buddy.pgSize]
    omega
  · show 0x1000010 % 16 = 0
    decide

/-- The second one goes behind it. -/
theorem twoBlocks_second (hsize : 32 ≤ size) (hlt : size ≤ 1024)
    (hk : Kept onePool h (insert (0x1000010, size) ∅)) :
    NewBlock onePool (insert (0x1000010, size) ∅) 0x1000410 size ∧
      InTree (h.freeTree onePool.addr) 0x1000010 ∧ (h.node 0x1000010).key = size := by
  refine ⟨⟨⟨?_, ?_, ?_, hsize⟩, ?_⟩, ?_⟩
  · simp only [onePool, sizeofKmemPool]
    omega
  · simp only [onePool, Extent.finish, Buddy.pgSize]
    omega
  · show 0x1000410 % 16 = 0
    decide
  · rintro b (rfl | hb)
    · refine Set.disjoint_left.mpr fun a ha hb => ?_
      have hhigh : a < 0x1000010 + size := ha.2
      have hlow : 0x1000410 ≤ a := hb.1
      omega
    · exact absurd hb (Set.notMem_empty b)
  · obtain ⟨x, hx, hkey⟩ := hk.covered _ (Set.mem_insert _ _)
    rcases hk.node x hx with heq | hmem
    · obtain rfl : x = 0x1000010 := congrArg Prod.fst heq
      exact ⟨hx, hkey⟩
    · exact absurd hmem (Set.notMem_empty _)

/-- **The header of a chain is written outside of the blocks** where they are short. -/
theorem equalBlocks_overrun : ∃ s₁ s₂, PoolStep onePool zeroMemory (.insert 0x1000010 64) s₁ ∧
    PoolStep onePool s₁ (.insert 0x1000410 64) s₂ ∧ ¬ Intact onePool s₁ s₂ := by
  obtain ⟨hn₁, hfirst⟩ := twoBlocks_first 64 (by decide) (by decide)
  obtain ⟨h₁, hcall₁, hk₁, hwrites₁⟩ := (kept_empty rfl).insert_first onePool_fits hn₁ hfirst
  obtain ⟨hn₂, hx, hkey⟩ := twoBlocks_second (by decide) (by decide) hk₁
  have hcall₂ := hn₂.returns_chain onePool_fits hk₁ hx hkey
  have hhead : chainHead 0x1000010 = 0x1000110 := by decide
  have hc : ChainedAt onePool.addr 0x1000410 64 0x1000010 h₁ _ := chainBlock_spec (by rw [hhead]; decide)
  refine ⟨_, _, .insert hn₁ hcall₁, .insert hn₂ hcall₂, fun hintact => ?_⟩
  have hout : ∀ b ∈ (insert (0x1000010, 64) ∅ : Set (ℕ × ℕ)) ∪
      insert (0x1000410, 64) (insert (0x1000010, 64) ∅), 0x1000110 ∉ range b := by
    rintro b ((rfl | hb) | rfl | rfl | hb)
    · exact fun hmem => absurd hmem.2 (by decide)
    · exact absurd hb (Set.notMem_empty b)
    · exact fun hmem => absurd hmem.1 (by decide)
    · exact fun hmem => absurd hmem.2 (by decide)
    · exact absurd hb (Set.notMem_empty b)
  have hbefore : h₁.word 0x1000110 = 0 := by
    by_contra hne
    rcases hwrites₁ 0x1000110 hne with ⟨b, hb, hmem⟩ | hpool
    · exact hout b (Or.inl hb) hmem
    · exact absurd hpool.2 (by decide)
  have hafter : (chainBlock (h₁.write 0x1000410 ⟨0, 0, 0, 0⟩) onePool.addr 0x1000410 64 0x1000010).word
      0x1000110 = COOKIE_MEM_NEXT_BLOCK := by
    have hkey := congrArg RbNode.key hc.head
    rw [hhead] at hkey
    exact hkey
  rcases hintact.written 0x1000110 (by rw [hafter, hbefore]; decide) with ⟨b, hb, hmem⟩ | hpool
  · exact hout b hb hmem
  · exact absurd hpool.2 (by decide)

/-- Long ones are kept. -/
theorem blocks_intact_of_run_two : ∃ tr s, Run (PoolStep onePool) zeroMemory tr s ∧
    s.blocks = {(0x1000410, 512), (0x1000010, 512)} ∧
    ∀ b, Recorded s.heap onePool.addr b ↔ b ∈ s.blocks := by
  obtain ⟨hn₁, hfirst⟩ := twoBlocks_first 512 (by decide) (by decide)
  obtain ⟨h₁, hcall₁, hk₁, -⟩ := (kept_empty rfl).insert_first onePool_fits hn₁ hfirst
  obtain ⟨hn₂, hx, hkey⟩ := twoBlocks_second (by decide) (by decide) hk₁
  have hstep₁ : PoolStep onePool zeroMemory (.insert 0x1000010 512) _ := .insert hn₁ hcall₁
  have hstep₂ : PoolStep onePool ⟨h₁, _⟩ (.insert 0x1000410 512) _ :=
    .insert hn₂ (hn₂.returns_chain onePool_fits hk₁ hx hkey)
  have hrun := (Run.start.extend hstep₁).extend hstep₂
  refine ⟨_, _, hrun, by simp, ?_⟩
  refine (blocks_intact_of_run onePool_fits rfl rfl hrun ?_).2.1
  intro x hmem
  simp only [List.nil_append, List.mem_append, List.mem_singleton] at hmem
  rcases hmem with rfl | rfl
  · exact Or.inl hfirst
  · exact Or.inr ⟨by decide, _, hx, hkey⟩

end OmochaOS.Kmem
