import OmochaOS.Memory.KmemRuns

/-!
# The list of heap pools (`modules/memory/kmem.c`)

`init_memory_pool` makes one pool for every bit that is set in the number of pages, and sets `next_pool`
of the first one each time: of the pools the list has the first and the last (`initMemoryPool_chain`).
`mem_kmalloc` looks through the list, and takes the block out of the tree of the first pool wherever it
has found it; `memKmallocOwn` is what it would do with the pool that it has found.

Nothing is assumed here about what the pages of a pool hold before.
-/

namespace OmochaOS.Kmem

open RedBlack OmochaOS.Rbtree OmochaOS.Buddy

variable {h h' h₀ : Heap} {L D R : List Extent} {P Q F : Extent} {pageAlloc : ℕ → ℕ}
  {pool pools poolSize size node fuel i pages : ℕ} {c d : List ℕ}

/-! ### Pools as they are made -/

/-- A pool as `create_a_mem_pool` leaves it, whatever follows it in the list. -/
structure Opened (h : Heap) (P : Extent) : Prop where
  total : h.totalSize P.addr = P.pages * Buddy.pgSize
  root : (h.node P.addr).R = P.addr + sizeofKmemPool
  node : h.node (P.addr + sizeofKmemPool) = single (P.pages * Buddy.pgSize - sizeofKmemPool)

theorem created_opened : Opened (created h P) P where
  total := by
    rw [created, Heap.totalSize, node_write_self]
    rfl
  root := by
    rw [created, node_write_self]
  node := by
    rw [created, node_write_of_ne (by rw [sizeofKmemPool]; omega), node_write_self]

theorem Opened.created (hP : Opened h P) (hL : Placed L) (hPL : P ∈ L) (hQL : Q ∈ L) (hne : P ≠ Q) :
    Opened (created h Q) P := by
  have hsame : ∀ e < Buddy.pgSize, (Kmem.created h Q).node (P.addr + e) = h.node (P.addr + e) := by
    intro e he
    apply node_created
    · exact hL.addr_ne hPL hQL hne he (by decide : 0 < Buddy.pgSize)
    · exact hL.addr_ne hPL hQL hne he (by decide)
  have hhead : (Kmem.created h Q).node P.addr = h.node P.addr := hsame 0 (by decide)
  refine ⟨?_, ?_, ?_⟩
  · rw [Heap.totalSize, hhead]
    exact hP.total
  · rw [hhead]
    exact hP.root
  · rw [hsame sizeofKmemPool (by decide)]
    exact hP.node

theorem Opened.setNextPool {q : ℕ} (hP : Opened h P) (hL : Placed L) (hPL : P ∈ L) (hFL : F ∈ L) :
    Opened (h.setNextPool F.addr q) P := by
  have hinner : P.addr + sizeofKmemPool ≠ F.addr := hL.inner_ne hPL hFL (by decide) (by decide)
  by_cases hPF : P.addr = F.addr
  · refine ⟨?_, ?_, ?_⟩
    · rw [hPF, Heap.setNextPool, Heap.totalSize, node_write_self, ← hPF]
      exact hP.total
    · rw [hPF, Heap.setNextPool, node_write_self, ← hPF]
      exact hP.root
    · rw [node_setNextPool hinner]
      exact hP.node
  · refine ⟨?_, ?_, ?_⟩
    · rw [Heap.totalSize, node_setNextPool hPF]
      exact hP.total
    · rw [node_setNextPool hPF]
      exact hP.root
    · rw [node_setNextPool hinner]
      exact hP.node

/-- The first and the last pool. -/
def ends : List Extent → List Extent
  | [] => []
  | [P] => [P]
  | P :: Q :: L => [P, (Q :: L).getLast nofun]

theorem ends_concat (hD : D ≠ []) : ends (D ++ [P]) = [D.head hD, P] := by
  cases D with
  | nil => exact absurd rfl hD
  | cons F D =>
    cases D with
    | nil => rfl
    | cons G D => simp [ends]

theorem mem_of_mem_ends (hP : P ∈ ends L) : P ∈ L := by
  match L with
  | [] => exact hP
  | [Q] => exact hP
  | Q :: S :: L =>
    rw [ends, List.mem_cons, List.mem_singleton] at hP
    rcases hP with hP | hP
    · rw [hP]
      exact List.mem_cons_self
    · rw [hP]
      exact List.mem_cons_of_mem _ (List.getLast_mem _)

/-- The pointers from `p` on lead to the pools of the list, and to NULL behind them. -/
def PoolChain (h : Heap) : ℕ → List ℕ → Prop
  | p, [] => p = 0
  | p, q :: c => p = q ∧ q ≠ 0 ∧ PoolChain h (h.nextPool q) c

theorem PoolChain.unique (hc : PoolChain h pool c) (hd : PoolChain h pool d) : c = d := by
  induction c generalizing pool d with
  | nil =>
    cases d with
    | nil => rfl
    | cons q d => exact absurd (hd.1.symm.trans hc) hd.2.1
  | cons q c ih =>
    cases d with
    | nil => exact absurd (hc.1.symm.trans hd) hc.2.1
    | cons r d =>
      obtain rfl : q = r := hc.1.symm.trans hd.1
      rw [ih hc.2.2 hd.2.2]

/-- The pools `D` have been made, and the list that begins with `pools` has the first and the last. -/
structure Strung (h : Heap) (D : List Extent) (pools : ℕ) : Prop where
  opened : ∀ P ∈ D, Opened h P
  chain : PoolChain h pools ((ends D).map Extent.addr)

theorem Strung.pools_eq (hs : Strung h D pools) (hD : D ≠ []) : pools = (D.head hD).addr := by
  match D, hs.chain with
  | [P], hchain => exact hchain.1
  | P :: Q :: L, hchain => exact hchain.1

/-- The first pool. -/
theorem Strung.start (hfits : P.Fits) : Strung (created h P) [P] P.addr where
  opened := by
    intro Q hQ
    rw [List.mem_singleton.mp hQ]
    exact created_opened
  chain := ⟨rfl, hfits.pos.ne', nextPool_created⟩

/-- One more pool: the first one is followed by it, whatever followed before. -/
theorem Strung.extend (hs : Strung h D pools) (hD : D ≠ []) (hL : Placed (D ++ P :: R)) :
    Strung ((created h P).setNextPool pools P.addr) (D ++ [P]) pools := by
  have hF : D.head hD ∈ D := List.head_mem hD
  have hFL : D.head hD ∈ D ++ P :: R := List.mem_append_left _ hF
  have hPL : P ∈ D ++ P :: R := by simp
  have hpools := hs.pools_eq hD
  have hfirst : P.addr ≠ (D.head hD).addr :=
    hL.addr_ne hPL hFL (hL.ne_of_mem.1 _ hF).symm (by decide : 0 < Buddy.pgSize)
      (by decide : 0 < Buddy.pgSize)
  constructor
  · intro Q hQ
    rw [hpools]
    rcases List.mem_append.mp hQ with hQ | hQ
    · have hQL : Q ∈ D ++ P :: R := List.mem_append_left _ hQ
      exact ((hs.opened Q hQ).created hL hQL hPL (hL.ne_of_mem.1 Q hQ)).setNextPool hL hQL hFL
    · rw [List.mem_singleton.mp hQ]
      exact created_opened.setNextPool hL hPL hFL
  · rw [ends_concat hD, hpools]
    refine ⟨rfl, (hL.fits _ hFL).pos.ne', ?_, (hL.fits _ hPL).pos.ne', ?_⟩
    · exact nextPool_setNextPool
    · show ((created h P).setNextPool (D.head hD).addr P.addr).nextPool P.addr = 0
      rw [Heap.nextPool, node_setNextPool hfirst]
      exact nextPool_created

theorem initPools_strung (hof : PoolsOf pageAlloc i pages R) (hs : Strung h D pools)
    (hL : Placed (D ++ R)) : ∃ h' pools', Strung h' (D ++ R) pools' ∧ ∀ fuel rounds, R.length < rounds →
      initPools (fuel + 1) pageAlloc rounds h i pages pools = .ok (h', pools') := by
  induction hof generalizing h D pools with
  | none =>
    refine ⟨h, pools, ?_, fun fuel rounds hrounds => ?_⟩
    · rw [List.append_nil]
      exact hs
    · obtain ⟨r, rfl⟩ : ∃ r, rounds = r + 1 := ⟨rounds - 1, by omega⟩
      rw [initPools, if_pos rfl]
      rfl
  | @some i pages R hpages hrest ih =>
    generalize hP : Extent.mk (pageAlloc i) (roundDownPower2 (BitVec.ofNat 32 pages)).toNat = P at *
    have hfits : P.Fits := hL.fits P (by simp)
    have hcreate : ∀ fuel, createAMemPool (fuel + 1) h (pageAlloc i)
        (roundDownPower2 (BitVec.ofNat 32 pages)).toNat = .ok (created h P) := by
      intro fuel
      subst hP
      exact createAMemPool_eq hfits
    have haddr : pageAlloc i = P.addr := by rw [← hP]
    have happend : D ++ P :: R = (D ++ [P]) ++ R := by simp
    have hL' : Placed ((D ++ [P]) ++ R) := by
      rw [← happend]
      exact hL
    -- what the loop has after this round
    obtain ⟨h₁, pools₁, hs₁, hround⟩ : ∃ h₁ pools₁, Strung h₁ (D ++ [P]) pools₁ ∧ ∀ fuel rounds,
        initPools (fuel + 1) pageAlloc (rounds + 1) h i pages pools =
          initPools (fuel + 1) pageAlloc rounds h₁ (i + 1)
            (subUint pages (roundDownPower2 (BitVec.ofNat 32 pages)).toNat) pools₁ := by
      by_cases hD : D = []
      · subst hD
        have hpools : pools = 0 := hs.chain
        refine ⟨created h P, P.addr, Strung.start hfits, fun fuel rounds => ?_⟩
        rw [initPools, if_neg hpages]
        simp only [hcreate, ok_bind]
        rw [if_neg (fun hc => hc hpools), haddr]
      · have hpools : pools ≠ 0 := by
          rw [hs.pools_eq hD]
          exact (hL.fits _ (List.mem_append_left _ (List.head_mem hD))).pos.ne'
        refine ⟨_, _, hs.extend hD hL, fun fuel rounds => ?_⟩
        rw [initPools, if_neg hpages]
        simp only [hcreate, ok_bind]
        rw [if_pos hpools, haddr]
    obtain ⟨h', pools', hs', hrun⟩ := ih hs₁ hL'
    rw [happend]
    refine ⟨h', pools', hs', fun fuel rounds hrounds => ?_⟩
    rw [List.length_cons] at hrounds
    obtain ⟨r, rfl⟩ : ∃ r, rounds = r + 1 := ⟨rounds - 1, by omega⟩
    rw [hround]
    exact hrun fuel r (by omega)

/-- **`init_memory_pool`** returns, and its list has the first pool and the last one. -/
theorem initMemoryPool_chain
    (hof : PoolsOf pageAlloc 0 (addUint poolSize (Buddy.pgSize - 1) / Buddy.pgSize) L) (hL : Placed L) :
    ∃ h, Returns (fun fuel => initMemoryPool fuel pageAlloc h₀ poolSize) h ∧
      Strung h L h.memoryPool := by
  have hnone : Strung h₀ [] 0 := ⟨fun P hP => absurd hP List.not_mem_nil, rfl⟩
  obtain ⟨h', pools, hs, hrun⟩ := initPools_strung hof hnone hL
  rw [List.nil_append] at hs
  refine ⟨{ h' with memoryPool := pools }, Returns.of_add (L.length + 1) fun fuel => ?_, ?_⟩
  · have hcall := hrun (fuel + L.length) (fuel + (L.length + 1)) (by omega)
    rw [Nat.add_assoc] at hcall
    simp only [initMemoryPool, hcall, ok_bind]
    rfl
  · refine ⟨fun P hP => ?_, ?_⟩
    · obtain ⟨htotal, hroot, hnode⟩ := hs.opened P hP
      exact ⟨htotal, hroot, hnode⟩
    · have hcongr : ∀ c p, PoolChain h' p c → PoolChain { h' with memoryPool := pools } p c := by
        intro c
        induction c with
        | nil => exact fun p hc => hc
        | cons q c ih => exact fun p hc => ⟨hc.1, hc.2.1, ih _ hc.2.2⟩
      exact hcongr _ _ hs.chain

/-! ### What `mem_kmalloc` does with them -/

/-- The part of `mem_kmalloc` after a node has been found in `pool`, with the block taken out of the tree
of the pool `source`. -/
def takeNodeFrom (source fuel : ℕ) (h : Heap) (pool node size : ℕ) : Except Fault (Heap × ℕ) := do
  let h ← removeFromPool fuel h source node
  let rest := subUint (h.node node).key size
  let usedSize := if rest < 16 then (h.node node).key else size
  let remainingSize := if rest < 16 then 0 else rest
  let h ← if remainingSize ≠ 0 then insertToPool fuel h pool (nodeAt node size) remainingSize else pure h
  let h := h.write node (kmemBlock COOKIE_MEM_INUSE_BLOCK pool usedSize 0)
  pure (h, addUint node kmemBlockHeadSize)

/-- The source is always the first pool. -/
theorem takeNode_eq : takeNode fuel h pool node size = takeNodeFrom h.memoryPool fuel h pool node size := rfl

/-- What `mem_kmalloc` is to do: the block is taken out of the tree of the pool it was found in. -/
def memKmallocOwn (fuel : ℕ) (h : Heap) (size : ℕ) : Except Fault (Heap × ℕ) := do
  let (pool, node) ← findNode fuel fuel h h.memoryPool (neededSize size)
  if node = 0 then pure (h, 0) else takeNodeFrom pool fuel h pool node (neededSize size)

/-- The list of the pools is the one of `h`, whatever has been allocated since. -/
structure SameLinks (h h' : Heap) (L : List Extent) : Prop where
  first : h'.memoryPool = h.memoryPool
  next : ∀ P ∈ L, h'.nextPool P.addr = h.nextPool P.addr

/-- The number of pages for so many bytes. -/
def pagesFor (poolSize : ℕ) : ℕ := (poolSize + (Buddy.pgSize - 1)) / Buddy.pgSize

/-- The pools `L` that have been made for `poolSize` bytes are all in the list and add up to that size;
with this list `mem_kmalloc` can give memory from every one of them, and always takes the block out of
the tree that it has found it in. -/
structure PoolsReachable (h : Heap) (L : List Extent) (poolSize : ℕ) : Prop where
  chain : ∃ c, PoolChain h h.memoryPool c ∧ c.Nodup ∧ (∀ P ∈ L, P.addr ∈ c) ∧
    (c.map h.totalSize).sum = Buddy.pgSize * pagesFor poolSize
  serves : ∀ P ∈ L, ∃ h' size h'' q, SameLinks h h' L ∧
    Returns (fun fuel => memKmalloc fuel h' size) (h'', q) ∧ P.addr < q ∧ q < P.finish ∧
    ¬ InTree (h''.freeTree P.addr) (q - kmemBlockHeadSize)
  removes : ∀ h' fuel size, SameLinks h h' L → memKmalloc fuel h' size = memKmallocOwn fuel h' size

/-- The search ends in a pool of the list, or finds nothing. -/
theorem findNode_mem {rounds found : ℕ} (hc : PoolChain h pool c)
    (hrun : findNode fuel rounds h pool size = .ok (found, node)) (hnode : node ≠ 0) : found ∈ c := by
  induction rounds generalizing pool c with
  | zero => cases hrun
  | succ rounds ih =>
    rw [findNode] at hrun
    cases c with
    | nil =>
      rw [if_pos (show pool = 0 from hc)] at hrun
      exact absurd (congrArg Prod.snd (Except.ok.inj hrun)).symm hnode
    | cons q c =>
      obtain ⟨rfl, hpool, hc⟩ := hc
      rw [if_neg hpool] at hrun
      cases hsearch : rbSearchUpper fuel h (h.freeTree pool).root size with
      | error e =>
        rw [hsearch] at hrun
        cases hrun
      | ok v =>
        rw [hsearch, ok_bind] at hrun
        by_cases hv : v = 0
        · rw [if_neg (fun hc => hc hv)] at hrun
          exact List.mem_cons_of_mem _ (ih hc hrun)
        · rw [if_pos hv] at hrun
          have hfound : pool = found := congrArg Prod.fst (Except.ok.inj hrun)
          rw [← hfound]
          exact List.mem_cons_self

section Found

variable {found : ℕ} (hfind : findNode fuel fuel h h.memoryPool (neededSize size) = .ok (found, node))
  (hnode : node ≠ 0)
include hfind hnode

theorem memKmalloc_found :
    memKmalloc fuel h size = takeNodeFrom h.memoryPool fuel h found node (neededSize size) := by
  rw [memKmalloc, hfind, ok_bind]
  exact if_neg hnode

theorem memKmallocOwn_found :
    memKmallocOwn fuel h size = takeNodeFrom found fuel h found node (neededSize size) := by
  rw [memKmallocOwn, hfind, ok_bind]
  exact if_neg hnode

end Found

/-- With one pool there is no other tree to take the block out of. -/
theorem memKmalloc_eq_own (hc : PoolChain h h.memoryPool c) (hone : ∀ p ∈ c, p = h.memoryPool) :
    memKmalloc fuel h size = memKmallocOwn fuel h size := by
  cases hfind : findNode fuel fuel h h.memoryPool (neededSize size) with
  | error e => rw [memKmalloc, memKmallocOwn, hfind]; rfl
  | ok r =>
    obtain ⟨found, node⟩ := r
    by_cases hnode : node = 0
    · rw [memKmalloc, memKmallocOwn, hfind, ok_bind, ok_bind]
      exact (if_pos hnode).trans (if_pos hnode).symm
    · rw [memKmalloc_found hfind hnode, memKmallocOwn_found hfind hnode,
        hone found (findNode_mem hc hfind hnode)]

theorem PoolChain.congr (hc : PoolChain h pool c) (hsame : ∀ p ∈ c, h'.nextPool p = h.nextPool p) :
    PoolChain h' pool c := by
  induction c generalizing pool with
  | nil => exact hc
  | cons q c ih =>
    refine ⟨hc.1, hc.2.1, ?_⟩
    rw [hsame q List.mem_cons_self]
    exact ih hc.2.2 fun p hp => hsame p (List.mem_cons_of_mem _ hp)

theorem SameLinks.chain (hsame : SameLinks h h' L) (hs : Strung h L h.memoryPool) :
    PoolChain h' h'.memoryPool ((ends L).map Extent.addr) := by
  rw [hsame.first]
  refine hs.chain.congr fun p hp => ?_
  obtain ⟨P, hP, rfl⟩ := List.mem_map.mp hp
  exact hsame.next P (mem_of_mem_ends hP)

/-! ### A block of the second pool -/

/-- The only node of a tree is to be taken out of an empty one: nothing changes but at NULL. -/
theorem rbRemove_foreign {t : RbTree} {n k : ℕ} (hroot : t.root = 0) (hn : n ≠ 0)
    (hnode : t.node n = single k) (hzero : t.node 0 = single 0) (hnull : t.nullMapped = true) :
    rbRemove (fuel + 1) t n = .ok (t.setParent 0 0) := by
  have hcolor : t.color n = RB_BLACK := by simp [RbTree.color, hnode, single, RB_BLACK]
  have hleft : t.child .left n = 0 := by simp [RbTree.child, hnode, single]
  have hright : t.child .right n = 0 := by simp [RbTree.child, hnode, single]
  have hparent : t.parent n = 0 := by simp [RbTree.parent, hnode, single]
  have hzleft : t.child .left 0 = 0 := by simp [RbTree.child, hzero, single]
  have hzright : t.child .right 0 = 0 := by simp [RbTree.child, hzero, single]
  have htransplant : rbTransplant t n 0 = .ok (t.setParent 0 0) := by
    rw [rbTransplant, hroot, if_neg hn.symm, deref_bind hn, hparent, deref_mapped hnull]
    show (if n = t.child .right 0 then _ else _) = _
    rw [hzright, if_neg hn, hzleft, if_neg hn, setParentLike, deref_bind hn, hparent]
    exact deref_mapped hnull
  rw [rbRemove, deref_bind hn, if_pos hleft, hright]
  show (rbTransplant t n 0 >>= _) = _
  rw [htransplant]
  show (if _ then _ else _) = _
  rw [if_pos hcolor, rbRemoveFixup, if_neg (fun hc => hc.2 hroot.symm)]
  rfl

theorem removeFromPool_foreign {p k : ℕ} (hroot : (h.node pool).R = 0) (hp : p ≠ 0)
    (hnode : h.node p = single k) (hzero : h.node 0 = single 0) (hpool : nodeAt p sizeofRbNode ≠ pool)
    (hnull : nodeAt p sizeofRbNode ≠ 0) (hcookie : h.cookie (nodeAt p sizeofRbNode) ≠ COOKIE_MEM_NEXT_BLOCK) :
    removeFromPool (fuel + 1) h pool p = .ok (emptied h pool) := by
  have hsame : (h.freeTree pool).setRoot 0 = h.freeTree pool := by
    rw [Heap.freeTree, hroot]
    rfl
  have hcall : rbRemove (fuel + 1) (h.freeTree pool) p = .ok _ :=
    rbRemove_foreign hroot hp hnode hzero rfl
  have hread : (emptied h pool).cookie (nodeAt p sizeofRbNode) ≠ COOKIE_MEM_NEXT_BLOCK := by
    rw [Heap.cookie, node_emptied hpool hnull]
    exact hcookie
  rw [emptied, hsame] at hread
  rw [removeFromPool]
  show (rbRemove _ _ _ >>= _) = _
  rw [hcall, ok_bind, emptied, hsame]
  exact if_neg hread

theorem takeNodeFrom_whole {source : ℕ} (hremove : removeFromPool fuel h source node = .ok h')
    (hkey : (h'.node node).key = size) :
    takeNodeFrom source fuel h pool node size =
      .ok (h'.write node (kmemBlock COOKIE_MEM_INUSE_BLOCK pool size 0), addUint node kmemBlockHeadSize) := by
  have hrest : subUint size size = 0 := by
    rw [subUint]
    omega
  rw [takeNodeFrom, hremove, ok_bind]
  simp only [hkey, hrest]
  rw [if_neg (fun hc => hc rfl), if_pos (by decide)]
  rfl

/-- The first pool has no free block, and nothing behind the first node of the second pool looks like
the header of a chain. -/
def firstEmpty (h : Heap) (P Q : Extent) : Heap :=
  ((h.write 0 (single 0)).write P.addr { h.node P.addr with R := 0 }).write (Q.addr + 272) (single 0)

theorem node_firstEmpty {y : ℕ} (h0 : y ≠ 0) (hP : y ≠ P.addr) (hQ : y ≠ Q.addr + 272) :
    (firstEmpty h P Q).node y = h.node y := by
  rw [firstEmpty, node_write_of_ne hQ, node_write_of_ne hP, node_write_of_ne h0]

theorem firstEmpty_links (hL : Placed L) (hQ : Q ∈ L) : SameLinks h (firstEmpty h P Q) L where
  first := rfl
  next := by
    intro S hS
    have h0 : S.addr ≠ 0 := (hL.fits S hS).pos.ne'
    have h272 : S.addr ≠ Q.addr + 272 := (hL.inner_ne hQ hS (by decide) (by decide)).symm
    by_cases hSP : S.addr = P.addr
    · rw [firstEmpty, Heap.nextPool, node_write_of_ne h272, hSP, node_write_self]
      rfl
    · rw [Heap.nextPool, node_firstEmpty h0 hSP h272]
      rfl

/-- The size of the only block of a new pool, as it is asked for. -/
theorem neededSize_whole (hP : P.Fits) :
    neededSize (P.pages * Buddy.pgSize - sizeofKmemPool - kmemBlockHeadSize) =
      P.pages * Buddy.pgSize - sizeofKmemPool := by
  have hpos := hP.pos
  have hge := hP.finish_ge
  have hfinish := hP.finish
  simp only [neededSize, roundUp16, addUint, Extent.finish, sizeofKmemPool, kmemBlockHeadSize,
    Buddy.pgSize] at hge hfinish ⊢
  omega

/-- The block of the second pool is given away and stays in its tree. -/
theorem memKmalloc_ne_own (hL : Placed L) (hP : P ∈ L) (hQ : Q ∈ L) (hne : P ≠ Q) (hopen : Opened h Q)
    (hchain : PoolChain h h.memoryPool [P.addr, Q.addr]) :
    ∃ h' fuel size, SameLinks h h' L ∧ memKmalloc fuel h' size ≠ memKmallocOwn fuel h' size := by
  have hPfits := hL.fits P hP
  have hQfits := hL.fits Q hQ
  have hPpos := hPfits.pos
  have hQpos := hQfits.pos
  have hPQ : Q.addr ≠ P.addr := hL.addr_ne hQ hP hne.symm (by decide : 0 < Buddy.pgSize)
    (by decide : 0 < Buddy.pgSize)
  have hnodeP : Q.addr + sizeofKmemPool ≠ P.addr := hL.inner_ne hQ hP (by decide) (by decide)
  have hcookieP : Q.addr + 272 ≠ P.addr := hL.inner_ne hQ hP (by decide) (by decide)
  have h16 : sizeofKmemPool = 16 := rfl
  generalize hk : Q.pages * Buddy.pgSize - sizeofKmemPool = k at *
  have hsize := neededSize_whole hQfits
  rw [hk] at hsize
  -- what is where after the first pool is empty
  generalize hdef : firstEmpty h P Q = e
  have hlinks : SameLinks h e L := hdef ▸ firstEmpty_links hL hQ
  have hzero : e.node 0 = single 0 := by
    rw [← hdef, firstEmpty, node_write_of_ne (by omega), node_write_of_ne hPpos.ne, node_write_self]
  have hrootP : (e.node P.addr).R = 0 := by
    rw [← hdef, firstEmpty, node_write_of_ne hcookieP.symm, node_write_self]
  have hrootQ : (e.node Q.addr).R = Q.addr + sizeofKmemPool := by
    rw [← hdef, node_firstEmpty hQpos.ne' hPQ (by omega)]
    exact hopen.root
  have hnode : e.node (Q.addr + sizeofKmemPool) = single k := by
    rw [← hdef, node_firstEmpty (by omega) hnodeP (by omega), hopen.node, hk]
  have hcookie : e.cookie (Q.addr + 272) ≠ COOKIE_MEM_NEXT_BLOCK := by
    rw [← hdef, firstEmpty, Heap.cookie, node_write_self]
    decide
  have hn : Q.addr + sizeofKmemPool ≠ 0 := by omega
  have hfind : findNode 4 4 e e.memoryPool k = .ok (Q.addr, Q.addr + sizeofKmemPool) := by
    have hnext : e.nextPool P.addr = Q.addr := (hlinks.next P hP).trans hchain.2.2.1
    rw [findNode, hlinks.first.trans hchain.1, if_neg hPpos.ne']
    show (rbSearchUpper 4 e (e.node P.addr).R k >>= _) = _
    rw [hrootP, rbSearchUpper_null, ok_bind, if_neg (fun hc => hc rfl), hnext, findNode, if_neg hQpos.ne']
    show (rbSearchUpper 4 e (e.node Q.addr).R k >>= _) = _
    rw [hrootQ, rbSearchUpper_single hn hnode, if_pos rfl, ok_bind, if_pos hn]
    rfl
  have hafter : nodeAt (Q.addr + sizeofKmemPool) sizeofRbNode = Q.addr + 272 := hQfits.nodeAt_eq
  have hcode : removeFromPool 4 e P.addr (Q.addr + sizeofKmemPool) = .ok (emptied e P.addr) :=
    removeFromPool_foreign hrootP hn hnode hzero (by rw [hafter]; exact hcookieP)
      (by rw [hafter]; omega) (by rw [hafter]; exact hcookie)
  have hown : removeFromPool 4 e Q.addr (Q.addr + sizeofKmemPool) = .ok (emptied e Q.addr) :=
    removeFromPool_single hrootQ hn hnode (by rw [hafter]; omega) (by rw [hafter]; omega)
      (by rw [hafter]; exact hcookie)
  have hcodeKey : ((emptied e P.addr).node (Q.addr + sizeofKmemPool)).key = k := by
    rw [node_emptied hnodeP hn, hnode]
    rfl
  have hownKey : ((emptied e Q.addr).node (Q.addr + sizeofKmemPool)).key = k := by
    rw [node_emptied (by omega) hn, hnode]
    rfl
  refine ⟨e, 4, k - kmemBlockHeadSize, hlinks, fun heq => ?_⟩
  rw [← hsize] at hfind
  rw [memKmalloc_found hfind hn, memKmallocOwn_found hfind hn, hsize, hlinks.first.trans hchain.1,
    takeNodeFrom_whole hcode hcodeKey, takeNodeFrom_whole hown hownKey] at heq
  have hheap := congrArg Prod.fst (Except.ok.inj heq)
  have hroot := congrArg (fun r : Heap => (r.node Q.addr).R) hheap
  simp only at hroot
  rw [node_write_of_ne (by omega), node_write_of_ne (by omega), node_emptied hPQ hQpos.ne', root_emptied,
    hrootQ] at hroot
  exact hn hroot

/-! ### When all pools are reachable -/

theorem roundDownPower2_spec (h0 : pages ≠ 0) (hlt : pages < 2 ^ 32) :
    ∃ k, (roundDownPower2 (BitVec.ofNat 32 pages)).toNat = 2 ^ k ∧ 2 ^ k ≤ pages ∧ pages < 2 ^ (k + 1) ∧
      subUint pages (2 ^ k) = pages - 2 ^ k := by
  have hval : (BitVec.ofNat 32 pages).toNat = pages := by
    rw [BitVec.toNat_ofNat]
    exact Nat.mod_eq_of_lt hlt
  have hne : BitVec.ofNat 32 pages ≠ 0 := by
    intro hc
    rw [hc] at hval
    exact h0 hval.symm
  obtain ⟨heq, hsize⟩ := toNat_roundDownPower2_eq hne
  rw [hval] at heq hsize
  have hlow : 2 ^ (pages.size - 1) ≤ pages := Nat.lt_size.mp (by omega)
  refine ⟨pages.size - 1, heq, hlow, ?_, ?_⟩
  · rw [Nat.sub_add_cancel hsize]
    exact Nat.lt_size_self pages
  · rw [subUint]
    omega

theorem PoolsOf.nil_iff (hof : PoolsOf pageAlloc i pages L) : L = [] ↔ pages = 0 := by
  cases hof with
  | none => exact ⟨fun _ => rfl, fun _ => rfl⟩
  | some hpages _ => exact ⟨nofun, fun h0 => absurd h0 hpages⟩

/-- As many pages as a power of two are one pool, and other numbers are more. -/
theorem PoolsOf.cons_iff (hof : PoolsOf pageAlloc i pages (P :: L)) (hlt : pages < 2 ^ 32) :
    (∃ k, P.pages = 2 ^ k) ∧ (L = [] ↔ ∃ k, pages = 2 ^ k) ∧ (L = [] → P.pages = pages) := by
  cases hof with
  | some hpages hrest =>
    obtain ⟨k, hround, hlow, hhigh, hsub⟩ := roundDownPower2_spec hpages hlt
    rw [hround] at hrest ⊢
    have hnil : L = [] ↔ pages = 2 ^ k := by
      rw [hrest.nil_iff, hsub]
      omega
    refine ⟨⟨k, rfl⟩, hnil.trans ⟨fun heq => ⟨k, heq⟩, fun ⟨j, hj⟩ => ?_⟩, fun hL => (hnil.mp hL).symm⟩
    rw [hj] at hlow hhigh ⊢
    have hkj := (Nat.pow_le_pow_iff_right (by decide : 1 < 2)).mp hlow
    have hjk := (Nat.pow_lt_pow_iff_right (by decide : 1 < 2)).mp hhigh
    rw [show j = k by omega]

/-- Pages behind the first one of memory are less than 4 GB. -/
theorem Extent.Fits.pages_lt (hP : P.Fits) : P.pages * Buddy.pgSize + Buddy.pgSize ≤ 2 ^ 32 := by
  have hpos := hP.pos
  have haligned := hP.aligned
  have hfinish := hP.finish
  simp only [Extent.finish, Buddy.pgSize] at haligned hfinish ⊢
  omega

/-- From the first pool its block can be had, whatever the page behind the node held. -/
theorem Opened.serves (hP : Opened h P) (hfits : P.Fits) (hfirst : h.memoryPool = P.addr)
    (hone : ∀ Q ∈ L, Q = P) : ∃ h' size h'' q, SameLinks h h' L ∧
      Returns (fun fuel => memKmalloc fuel h' size) (h'', q) ∧ P.addr < q ∧ q < P.finish ∧
      ¬ InTree (h''.freeTree P.addr) (q - kmemBlockHeadSize) := by
  have hge := hfits.finish_ge
  have hsame : ∀ y, y ≠ P.addr + 272 → (h.write (P.addr + 272) (single 0)).node y = h.node y :=
    fun y hy => node_write_of_ne hy
  have hfresh : Fresh (h.write (P.addr + 272) (single 0)) P := by
    refine ⟨?_, ?_, ?_⟩
    · rw [hsame _ (by omega)]
      exact hP.root
    · rw [hsame _ (by rw [sizeofKmemPool]; omega)]
      exact hP.node
    · rw [Heap.cookie, node_write_self]
      decide
  refine ⟨h.write (P.addr + 272) (single 0), P.pages * Buddy.pgSize - sizeofKmemPool - kmemBlockHeadSize,
    _, P.addr + sizeofKmemPool + kmemBlockHeadSize, ⟨rfl, fun Q hQ => ?_⟩, Returns.of_add 3 fun fuel =>
      memKmalloc_whole hfits hfresh hfirst.symm (neededSize_whole hfits).symm, ?_, ?_,
    not_inTree wholeTaken_taken.root⟩
  · rw [hone Q hQ, Heap.nextPool, hsame _ (by omega)]
    rfl
  · simp only [sizeofKmemPool, kmemBlockHeadSize]
    omega
  · simp only [sizeofKmemPool, kmemBlockHeadSize, Buddy.pgSize] at hge ⊢
    omega

/-- With at most one pool everything is as it should be. -/
theorem PoolsReachable.of_single (hs : Strung h L h.memoryPool) (hL : Placed L) (hone : L.length ≤ 1)
    (htotal : (L.map fun P => P.pages * Buddy.pgSize).sum = Buddy.pgSize * pagesFor poolSize) :
    PoolsReachable h L poolSize := by
  match L, hone with
  | [], _ =>
    refine ⟨⟨[], hs.chain, List.nodup_nil, nofun, htotal⟩, nofun, fun h' fuel size hsame => ?_⟩
    exact memKmalloc_eq_own (hsame.chain hs) nofun
  | [P], _ =>
    have hopen := hs.opened P List.mem_cons_self
    have hfits := hL.fits P List.mem_cons_self
    have hfirst : h.memoryPool = P.addr := hs.chain.1
    refine ⟨⟨[P.addr], hs.chain, List.nodup_singleton _, fun Q hQ => ?_, ?_⟩, fun Q hQ => ?_,
      fun h' fuel size hsame => ?_⟩
    · rw [List.mem_singleton.mp hQ]
      exact List.mem_cons_self
    · rw [← htotal]
      show h.totalSize P.addr + 0 = P.pages * Buddy.pgSize + 0
      rw [hopen.total]
    · rw [List.mem_singleton.mp hQ]
      exact hopen.serves hfits hfirst fun S hS => List.mem_singleton.mp hS
    · exact memKmalloc_eq_own (hsame.chain hs) fun p hp => by
        rw [List.mem_singleton.mp hp, hsame.first, hfirst]

/-- Of more than two pools some are lost. -/
theorem ends_short : (ends L).length ≤ 2 := by
  match L with
  | [] => exact Nat.zero_le _
  | [P] => exact Nat.le_succ _
  | P :: Q :: L => exact Nat.le_refl _

theorem Placed.addr_nodup (hL : Placed L) : (L.map Extent.addr).Nodup := by
  rw [List.Nodup, List.pairwise_map]
  refine hL.apart.imp_of_mem fun {P Q} hP hQ hapart heq => ?_
  have hPge := (hL.fits P hP).finish_ge
  have hQge := (hL.fits Q hQ).finish_ge
  have hsize : 0 < Buddy.pgSize := by decide
  omega

/-- With two pools the blocks of the second stay in its tree, and with more some pools are not in the
list. -/
theorem PoolsReachable.length_le (hr : PoolsReachable h L poolSize) (hs : Strung h L h.memoryPool)
    (hL : Placed L) : L.length ≤ 1 := by
  obtain ⟨c, hc, -, hall, -⟩ := hr.chain
  have hends : c = (ends L).map Extent.addr := hc.unique hs.chain
  have hsub : L.map Extent.addr ⊆ c := by
    intro a ha
    obtain ⟨P, hP, rfl⟩ := List.mem_map.mp ha
    exact hall P hP
  have hle := (hL.addr_nodup.subperm hsub).length_le
  have hshort : c.length ≤ 2 := by
    rw [hends, List.length_map]
    exact ends_short
  rw [List.length_map] at hle
  match L, hle.trans hshort with
  | [], _ => exact Nat.zero_le _
  | [P], _ => exact Nat.le_refl _
  | [P, Q], _ =>
    have hne : P ≠ Q := by
      rintro rfl
      exact (List.nodup_cons.mp hL.addr_nodup).1 List.mem_cons_self
    obtain ⟨h', fuel, size, hsame, hdiff⟩ :=
      memKmalloc_ne_own hL List.mem_cons_self (by simp) hne (hs.opened Q (by simp)) hs.chain
    exact absurd (hr.removes h' fuel size hsame) hdiff

/-- **`init_memory_pool`** returns, and all its pools are reachable if and only if their pages are less
than 4 GB and as many as a power of two, or none. -/
theorem poolsReachable_iff
    (hof : PoolsOf pageAlloc 0 (addUint poolSize (Buddy.pgSize - 1) / Buddy.pgSize) L) (hL : Placed L) :
    ∃ h, Returns (fun fuel => initMemoryPool fuel pageAlloc h₀ poolSize) h ∧
      (PoolsReachable h L poolSize ↔ poolSize + (Buddy.pgSize - 1) < 2 ^ 32 ∧
        (pagesFor poolSize = 0 ∨ ∃ k, pagesFor poolSize = 2 ^ k)) := by
  obtain ⟨h, hrun, hs⟩ := initMemoryPool_chain hof hL
  refine ⟨h, hrun, ?_⟩
  have hlt : addUint poolSize (Buddy.pgSize - 1) / Buddy.pgSize < 2 ^ 32 := by
    simp only [addUint, Buddy.pgSize]
    omega
  constructor
  · intro hr
    have hone := hr.length_le hs hL
    obtain ⟨c, hc, -, -, hsum⟩ := hr.chain
    rw [hc.unique hs.chain] at hsum
    have hceil : pagesFor poolSize * Buddy.pgSize ≤ poolSize + (Buddy.pgSize - 1) ∧
        poolSize + (Buddy.pgSize - 1) < pagesFor poolSize * Buddy.pgSize + Buddy.pgSize := by
      simp only [pagesFor, Buddy.pgSize]
      omega
    cases L with
    | nil =>
      have hzero : 0 = Buddy.pgSize * pagesFor poolSize := hsum
      have hpages : pagesFor poolSize = 0 := by
        simp only [Buddy.pgSize] at hzero
        omega
      rw [hpages, Nat.zero_mul, Nat.zero_add] at hceil
      exact ⟨hceil.2.trans (by decide), Or.inl hpages⟩
    | cons P R =>
      obtain rfl : R = [] := List.length_eq_zero_iff.mp (by simpa using hone)
      have htotal : P.pages * Buddy.pgSize = Buddy.pgSize * pagesFor poolSize := by
        rw [← (hs.opened P List.mem_cons_self).total]
        exact hsum
      have hpages : P.pages = pagesFor poolSize :=
        Nat.eq_of_mul_eq_mul_right (by decide : 0 < Buddy.pgSize) (htotal.trans (Nat.mul_comm _ _))
      have hlarge := (hL.fits P List.mem_cons_self).pages_lt
      have hpower := (hof.cons_iff hlt).1
      rw [hpages] at hlarge hpower
      exact ⟨hceil.2.trans_le hlarge, Or.inr hpower⟩
  · rintro ⟨hbound, hpages⟩
    have hcode : addUint poolSize (Buddy.pgSize - 1) / Buddy.pgSize = pagesFor poolSize := by
      rw [addUint, Nat.mod_eq_of_lt hbound, pagesFor]
    rw [hcode] at hof hlt
    cases L with
    | nil =>
      refine PoolsReachable.of_single hs hL (Nat.zero_le _) ?_
      rw [hof.nil_iff.mp rfl]
      rfl
    | cons P R =>
      obtain ⟨-, hnil, heq⟩ := hof.cons_iff hlt
      have hne : pagesFor poolSize ≠ 0 := fun h0 => List.cons_ne_nil P R (hof.nil_iff.mpr h0)
      obtain rfl : R = [] := hnil.mpr (hpages.resolve_left hne)
      refine PoolsReachable.of_single hs hL (Nat.le_refl _) ?_
      rw [← heq rfl, Nat.mul_comm Buddy.pgSize]
      exact Nat.add_zero _

/-- A pool every 64 kB. -/
def spreadPages (i : ℕ) : ℕ := 0x1000000 + i * 0x10000

theorem fourPages_pools : PoolsOf spreadPages 0 (addUint (2 ^ 14) (Buddy.pgSize - 1) / Buddy.pgSize)
    [⟨0x1000000, 4⟩] := by
  have hpages : addUint (2 ^ 14) (Buddy.pgSize - 1) / Buddy.pgSize = 4 := by decide
  have hround : (roundDownPower2 (BitVec.ofNat 32 4)).toNat = 4 := by decide
  have hpools : PoolsOf spreadPages 0 4 _ := PoolsOf.some (by decide) (by
    rw [hround]
    exact PoolsOf.none)
  rw [hround] at hpools
  rw [hpages]
  exact hpools

theorem poolsReachable_iff_four : ∃ h, Returns (fun fuel => initMemoryPool fuel spreadPages demoMemory
    (2 ^ 14)) h ∧ PoolsReachable h [⟨0x1000000, 4⟩] (2 ^ 14) := by
  have hplaced : Placed [⟨0x1000000, 4⟩] := by
    refine ⟨fun P hP => ?_, List.pairwise_singleton ..⟩
    rw [List.mem_singleton.mp hP]
    exact ⟨by decide, by decide, by decide, by decide⟩
  obtain ⟨h, hrun, hiff⟩ := poolsReachable_iff fourPages_pools hplaced
  exact ⟨h, hrun, hiff.mpr ⟨by decide, Or.inr ⟨2, by decide⟩⟩⟩

/-- Seven pages are three pools. -/
theorem sevenPages_pools : PoolsOf spreadPages 0 7 [⟨0x1000000, 4⟩, ⟨0x1010000, 2⟩, ⟨0x1020000, 1⟩] := by
  have hround : (roundDownPower2 (BitVec.ofNat 32 7)).toNat = 4 ∧
      (roundDownPower2 (BitVec.ofNat 32 3)).toNat = 2 ∧ (roundDownPower2 (BitVec.ofNat 32 1)).toNat = 1 := by
    decide
  have hrest : subUint 7 4 = 3 ∧ subUint 3 2 = 1 ∧ subUint 1 1 = 0 := by decide
  have hlast : PoolsOf spreadPages 2 1 _ := PoolsOf.some (by decide) (by
    rw [hround.2.2, hrest.2.2]
    exact PoolsOf.none)
  have hmiddle : PoolsOf spreadPages 1 3 _ := PoolsOf.some (by decide) (by
    rw [hround.2.1, hrest.2.1]
    exact hlast)
  have hfirst : PoolsOf spreadPages 0 7 _ := PoolsOf.some (by decide) (by
    rw [hround.1, hrest.1]
    exact hmiddle)
  rw [hround.1, hround.2.1, hround.2.2] at hfirst
  exact hfirst

/-- The pool in the middle of three is lost. -/
theorem sevenPages_lost : ∃ L h, PoolsOf spreadPages 0 7 L ∧ Placed L ∧
    Returns (fun fuel => initMemoryPool fuel spreadPages demoMemory (7 * Buddy.pgSize)) h ∧
    ¬ PoolsReachable h L (7 * Buddy.pgSize) := by
  have hplaced : Placed [⟨0x1000000, 4⟩, ⟨0x1010000, 2⟩, ⟨0x1020000, 1⟩] := by
    refine ⟨fun P hP => ?_, by decide⟩
    simp only [List.mem_cons, List.not_mem_nil, or_false] at hP
    rcases hP with hP | hP | hP <;> rw [hP] <;> exact ⟨by decide, by decide, by decide, by decide⟩
  have hpages : addUint (7 * Buddy.pgSize) (Buddy.pgSize - 1) / Buddy.pgSize = 7 := by decide
  have hof := sevenPages_pools
  rw [← hpages] at hof
  obtain ⟨h, hrun, hs⟩ := initMemoryPool_chain hof hplaced
  exact ⟨_, h, sevenPages_pools, hplaced, hrun, fun hr => absurd (hr.length_le hs hplaced) (by decide)⟩

end OmochaOS.Kmem
