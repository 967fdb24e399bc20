import OmochaOS.Memory.Kmem
import OmochaOS.Rbtree.InOrder

/-!
# The best-fit search of the heap (`modules/memory/kmem.c`)

`rb_search_upper` is followed through with the nodes that it reads.  The descent itself finds the least
key that is large enough (`searchUpperReading_spec`); behind it the key of the last node is compared
once more, and where no node has the very key that was asked for this node is NULL.
-/

namespace OmochaOS.Kmem

open RedBlack RedBlack.ColorTree OmochaOS.Rbtree

variable {h : Heap} {t : ColorTree ℕ} {pool x key closet size fuel : ℕ} {seen : List ℕ}

/-- The loop of `rb_search_upper`, with the nodes whose words it reads. -/
def searchUpperReading : ℕ → Heap → (x key closet : ℕ) → List ℕ → Except Fault ((ℕ × ℕ) × List ℕ)
  | 0, _, _, _, _, _ => .error .fuel
  | fuel + 1, h, x, key, closet, seen =>
    if x = 0 then pure ((x, closet), seen)
    else if (h.node x).key = key then pure ((x, closet), seen ++ [x])
    else if key < (h.node x).key then
      searchUpperReading fuel h (h.node x).L key
        (if closet = 0 ∨ (h.node x).key < (h.node closet).key then x else closet)
        (seen ++ if closet = 0 then [x] else [x, closet])
    else searchUpperReading fuel h (h.node x).R key closet (seen ++ [x])

/-- `rb_search_upper`, with the nodes whose words it reads. -/
def rbSearchUpperReading (fuel : ℕ) (h : Heap) (x key : ℕ) : Except Fault (ℕ × List ℕ) := do
  let ((x, closet), seen) ← searchUpperReading fuel h x key 0 []
  pure (if (h.node x).key = key then x else closet, seen ++ [x])

theorem searchUpperReading_result (seen : List ℕ) :
    (fun r => r.1) <$> searchUpperReading fuel h x key closet seen = searchUpper fuel h x key closet := by
  induction fuel generalizing x closet seen with
  | zero => rfl
  | succ fuel ih =>
    rw [searchUpperReading, searchUpper]
    split
    · rfl
    · split
      · rfl
      · split
        · exact ih _
        · exact ih _

/-- What is read does not change what is returned. -/
theorem rbSearchUpperReading_result :
    (fun r => r.1) <$> rbSearchUpperReading fuel h x key = rbSearchUpper fuel h x key := by
  rw [rbSearchUpperReading, rbSearchUpper, ← searchUpperReading_result []]
  cases searchUpperReading fuel h x key 0 [] <;> rfl

/-! ### The descent -/

/-- Among the nodes of `t` the node `c` has the least key above `key`; if there is none, `c` is the
`closet` found before. -/
def Closest (h : Heap) (t : ColorTree ℕ) (key closet c : ℕ) : Prop :=
  (c ∈ t.toList ∧ key < (h.node c).key ∧
      ∀ y ∈ t.toList, key < (h.node y).key → (h.node c).key ≤ (h.node y).key) ∨
    c = closet ∧ ∀ y ∈ t.toList, (h.node y).key ≤ key

/-- What the loop stops with: a node with the very key, or NULL and the closest node. -/
def Stops (h : Heap) (t : ColorTree ℕ) (key closet v c : ℕ) : Prop :=
  (v ∈ t.toList ∧ (h.node v).key = key) ∨
    v = 0 ∧ (∀ y ∈ t.toList, (h.node y).key ≠ key) ∧ Closest h t key closet c

section Descent

variable {c v : ℕ} {d : Color} {l r : ColorTree ℕ} {z : ℕ}

/-- To the left of a node with a greater key, that node is the closest so far. -/
theorem Stops.of_left (hz : key < (h.node z).key)
    (hl : ∀ y ∈ l.toList, (h.node y).key < (h.node z).key)
    (hr : ∀ y ∈ r.toList, (h.node z).key < (h.node y).key)
    (hstop : Stops h l key z v c) : Stops h (.node d l z r) key closet v c := by
  rcases hstop with ⟨hv, hkey⟩ | ⟨hv, hne, hclosest⟩
  · exact Or.inl ⟨by simp [toList, hv], hkey⟩
  · refine Or.inr ⟨hv, fun y hy => ?_, Or.inl ?_⟩
    · rw [toList, List.mem_append, List.mem_cons] at hy
      rcases hy with hy | hy | hy
      · exact hne y hy
      · rw [hy]
        omega
      · have := hr y hy
        omega
    · rcases hclosest with ⟨hc, hlt, hleast⟩ | ⟨hc, hnone⟩
      · have hcz := hl c hc
        refine ⟨by simp [toList, hc], hlt, fun y hy hylt => ?_⟩
        rw [toList, List.mem_append, List.mem_cons] at hy
        rcases hy with hy | hy | hy
        · exact hleast y hy hylt
        · rw [hy]
          exact hcz.le
        · exact (hcz.trans (hr y hy)).le
      · subst hc
        refine ⟨by simp [toList], hz, fun y hy hylt => ?_⟩
        rw [toList, List.mem_append, List.mem_cons] at hy
        rcases hy with hy | hy | hy
        · have := hnone y hy
          omega
        · rw [hy]
        · exact (hr y hy).le

/-- To the right of a node with a smaller key, nothing before it counts. -/
theorem Stops.of_right (hz : (h.node z).key < key)
    (hl : ∀ y ∈ l.toList, (h.node y).key < (h.node z).key)
    (hstop : Stops h r key closet v c) : Stops h (.node d l z r) key closet v c := by
  have hbefore : ∀ y ∈ (ColorTree.node d l z r).toList, y ∉ r.toList → (h.node y).key < key := by
    intro y hy hyr
    rw [toList, List.mem_append, List.mem_cons] at hy
    rcases hy with hy | hy | hy
    · exact (hl y hy).trans hz
    · rw [hy]
      exact hz
    · exact absurd hy hyr
  rcases hstop with ⟨hv, hkey⟩ | ⟨hv, hne, hclosest⟩
  · exact Or.inl ⟨by simp [toList, hv], hkey⟩
  · refine Or.inr ⟨hv, fun y hy => ?_, ?_⟩
    · by_cases hyr : y ∈ r.toList
      · exact hne y hyr
      · exact (hbefore y hy hyr).ne
    · rcases hclosest with ⟨hc, hlt, hleast⟩ | ⟨hc, hnone⟩
      · refine Or.inl ⟨by simp [toList, hc], hlt, fun y hy hylt => ?_⟩
        by_cases hyr : y ∈ r.toList
        · exact hleast y hyr hylt
        · have := hbefore y hy hyr
          omega
      · refine Or.inr ⟨hc, fun y hy => ?_⟩
        by_cases hyr : y ∈ r.toList
        · exact hnone y hyr
        · exact (hbefore y hy hyr).le

end Descent

/-- The loop ends, and it follows no NULL pointer. -/
theorem searchUpperReading_spec (hbelow : Below (h.freeTree pool) t)
    (hordered : t.toList.Pairwise fun x y => (h.node x).key < (h.node y).key)
    (hcloset : closet = 0 ∨ ∀ y ∈ t.toList, (h.node y).key < (h.node closet).key)
    (hseen : 0 ∉ seen) :
    ∃ v c reads, 0 ∉ reads ∧ Stops h t key closet v c ∧ ∀ fuel, t.toList.length < fuel →
      searchUpperReading fuel h (addr t) key closet seen = .ok ((v, c), reads) := by
  induction t generalizing closet seen with
  | nil =>
    refine ⟨0, closet, seen, hseen, Or.inr ⟨rfl, nofun, Or.inr ⟨rfl, nofun⟩⟩, fun fuel hfuel => ?_⟩
    obtain ⟨fuel, rfl⟩ : ∃ m, fuel = m + 1 := ⟨fuel - 1, by omega⟩
    rw [searchUpperReading, addr, if_pos rfl]
    rfl
  | node d l z r ihl ihr =>
    obtain ⟨hz, ⟨hl, hlin⟩, hr, hrin⟩ := hbelow
    replace hl : (h.node z).L = addr l := hl
    replace hr : (h.node z).R = addr r := hr
    rw [toList, List.pairwise_append, List.pairwise_cons] at hordered
    obtain ⟨hlord, ⟨habove, hrord⟩, hlr⟩ := hordered
    have hleft : ∀ y ∈ l.toList, (h.node y).key < (h.node z).key := fun y hy =>
      hlr y hy z (List.mem_cons_self ..)
    have hlen : (ColorTree.node d l z r).toList.length = l.toList.length + (r.toList.length + 1) := by
      rw [toList, List.length_append, List.length_cons]
    by_cases hkey : (h.node z).key = key
    · refine ⟨z, closet, seen ++ [z], by simp [hseen, hz.symm], Or.inl ⟨by simp [toList], hkey⟩,
        fun fuel hfuel => ?_⟩
      obtain ⟨fuel, rfl⟩ : ∃ m, fuel = m + 1 := ⟨fuel - 1, by omega⟩
      rw [searchUpperReading, addr, if_neg hz, if_pos hkey]
      rfl
    · by_cases hlt : key < (h.node z).key
      · -- the node becomes the closest, for all of the tree is below the last one
        have hnew : (if closet = 0 ∨ (h.node z).key < (h.node closet).key then z else closet) = z :=
          if_pos (hcloset.imp_right fun hall => hall z (by simp [toList]))
        have hseen' : 0 ∉ seen ++ if closet = 0 then [z] else [z, closet] := by
          rw [List.mem_append, not_or]
          refine ⟨hseen, ?_⟩
          split
          · simp [hz.symm]
          · rename_i hne
            simp [hz.symm, Ne.symm hne]
        obtain ⟨v, c, reads, hreads, hstop, hrun⟩ := ihl hlin hlord (Or.inr hleft) hseen'
        refine ⟨v, c, reads, hreads, hstop.of_left hlt hleft habove, fun fuel hfuel => ?_⟩
        obtain ⟨fuel, rfl⟩ : ∃ m, fuel = m + 1 := ⟨fuel - 1, by omega⟩
        rw [searchUpperReading, addr, if_neg hz, if_neg hkey, if_pos hlt, hl, hnew]
        exact hrun fuel (by omega)
      · have hseen' : 0 ∉ seen ++ [z] := by simp [hseen, hz.symm]
        have hcloset' : closet = 0 ∨ ∀ y ∈ r.toList, (h.node y).key < (h.node closet).key :=
          hcloset.imp_right fun hall y hy => hall y (by simp [toList, hy])
        obtain ⟨v, c, reads, hreads, hstop, hrun⟩ := ihr hrin hrord hcloset' hseen'
        refine ⟨v, c, reads, hreads, hstop.of_right (by omega) hleft, fun fuel hfuel => ?_⟩
        obtain ⟨fuel, rfl⟩ : ∃ m, fuel = m + 1 := ⟨fuel - 1, by omega⟩
        rw [searchUpperReading, addr, if_neg hz, if_neg hkey, if_neg hlt, hr]
        exact hrun fuel (by omega)

/-! ### The end of the search -/

/-- The least key that is at least `key` is that of `v`, or there is none and `v` is NULL. -/
def Ceiling (h : RbTree) (key v : ℕ) : Prop :=
  (InTree h v ∧ key ≤ h.key v ∧ ∀ y, InTree h y → key ≤ h.key y → h.key v ≤ h.key y) ∨
    v = 0 ∧ ∀ y, InTree h y → h.key y < key

/-- What follows the loop reads the node that it stopped with, NULL or not. -/
theorem rbSearchUpperReading_returns (ht : KeyTree (h.freeTree pool) t) (key : ℕ) :
    ∃ v c reads, 0 ∉ reads ∧ Stops h t key 0 v c ∧
      Returns (fun fuel => rbSearchUpperReading fuel h (h.freeTree pool).root key)
        (if (h.node v).key = key then v else c, reads ++ [v]) := by
  have hnone : 0 ∉ ([] : List ℕ) := nofun
  obtain ⟨v, c, reads, hreads, hstop, hrun⟩ :=
    searchUpperReading_spec ht.below ht.ordered (Or.inl rfl) hnone
  refine ⟨v, c, reads, hreads, hstop, t.toList.length + 1, fun fuel hfuel => ?_⟩
  show rbSearchUpperReading fuel h (h.freeTree pool).root key = _
  rw [rbSearchUpperReading, ht.root, hrun fuel hfuel]
  rfl

theorem rbSearchUpper_returns {v : ℕ} {reads : List ℕ}
    (hrun : Returns (fun fuel => rbSearchUpperReading fuel h x key) (v, reads)) :
    Returns (fun fuel => rbSearchUpper fuel h x key) v := by
  obtain ⟨bound, hrun⟩ := hrun
  refine ⟨bound, fun fuel hfuel => ?_⟩
  have hrun : rbSearchUpperReading fuel h x key = .ok (v, reads) := hrun fuel hfuel
  show rbSearchUpper fuel h x key = _
  rw [← rbSearchUpperReading_result, hrun]
  rfl

/-- `mem_kmalloc` takes the node that is found in a pool, and goes on to the next pool if there is none. -/
theorem findNode_returns {v : ℕ} (hpool : pool ≠ 0) (hv : v ≠ 0)
    (hrun : Returns (fun fuel => rbSearchUpper fuel h (h.freeTree pool).root size) v) :
    Returns (fun fuel => findNode fuel fuel h pool size) (pool, v) := by
  obtain ⟨bound, hrun⟩ := hrun
  refine ⟨bound + 1, fun fuel hfuel => ?_⟩
  obtain ⟨fuel, rfl⟩ : ∃ m, fuel = m + 1 := ⟨fuel - 1, by omega⟩
  have hrun : rbSearchUpper (fuel + 1) h (h.freeTree pool).root size = .ok v := hrun _ (by omega)
  show findNode (fuel + 1) (fuel + 1) h pool size = _
  rw [findNode, if_neg hpool, hrun]
  show (if v ≠ 0 then pure (pool, v) else _) = _
  rw [if_pos hv]
  rfl

theorem ceiling_of_key (ht : KeyTree (h.freeTree pool) t) (hx : x ∈ t.toList)
    (hkey : (h.node x).key = key) : Ceiling (h.freeTree pool) key x := by
  refine Or.inl ⟨ht.inTree_iff.mpr hx, hkey.ge, fun y _ hle => ?_⟩
  show (h.node x).key ≤ _
  rw [hkey]
  exact hle

theorem ceiling_of_closest {c : ℕ} (ht : KeyTree (h.freeTree pool) t)
    (hne : ∀ y ∈ t.toList, (h.node y).key ≠ key) (hc : Closest h t key 0 c) :
    Ceiling (h.freeTree pool) key c := by
  rcases hc with ⟨hc, hlt, hleast⟩ | ⟨hc, hnone⟩
  · refine Or.inl ⟨ht.inTree_iff.mpr hc, hlt.le, fun y hy hle => ?_⟩
    have hmem := ht.inTree_iff.mp hy
    exact hleast y hmem (lt_of_le_of_ne hle (hne y hmem).symm)
  · refine Or.inr ⟨hc, fun y hy => ?_⟩
    have hmem := ht.inTree_iff.mp hy
    exact lt_of_le_of_ne (hnone y hmem) (hne y hmem)

/-- The search of a pool is right: it ends with the best fit without reading through NULL, and
`mem_kmalloc` stays with the pool where a block is large enough. -/
structure BestFit (h : Heap) (pool size : ℕ) : Prop where
  least : ∃ v reads, Returns (fun fuel => rbSearchUpperReading fuel h (h.freeTree pool).root size) (v, reads) ∧
    Ceiling (h.freeTree pool) size v ∧ 0 ∉ reads
  finds : (∃ y, InTree (h.freeTree pool) y ∧ size ≤ (h.freeTree pool).key y) →
    ∃ node, node ≠ 0 ∧ Returns (fun fuel => findNode fuel fuel h pool size) (pool, node)

/-- **`rb_search_upper`** is right if and only if a free block of the very size that is asked for is in
the tree. -/
theorem bestFit_iff (hpool : pool ≠ 0) (htree : IsKeyTree (h.freeTree pool)) :
    BestFit h pool size ↔ ∃ x, InTree (h.freeTree pool) x ∧ (h.freeTree pool).key x = size := by
  obtain ⟨t, ht⟩ := htree
  obtain ⟨v, c, reads, hreads, hstop, hrun⟩ := rbSearchUpperReading_returns ht size
  constructor
  · intro hfit
    obtain ⟨w, seen, hrun', -, hseen⟩ := hfit.least
    have hsame := congrArg Prod.snd (hrun'.unique hrun)
    rcases hstop with ⟨hv, hkey⟩ | ⟨hv, -, -⟩
    · exact ⟨v, ht.inTree_iff.mpr hv, hkey⟩
    · refine absurd ?_ hseen
      show 0 ∈ seen
      rw [show seen = reads ++ [v] from hsame, hv]
      simp
  · intro ⟨x, hx, hxkey⟩
    rcases hstop with ⟨hv, hkey⟩ | ⟨-, hne, -⟩
    · have hv0 : v ≠ 0 := ht.below.ne_zero hv
      rw [if_pos hkey] at hrun
      exact ⟨⟨v, _, hrun, ceiling_of_key ht hv hkey, by simp [hreads, hv0.symm]⟩,
        fun _ => ⟨v, hv0, findNode_returns hpool hv0 (rbSearchUpper_returns hrun)⟩⟩
    · exact absurd hxkey (hne x (ht.inTree_iff.mp hx))

/-- Without such a block the answer hangs on the word at address `0`: it is NULL where that word is the
size, and the best fit elsewhere. -/
theorem rbSearchUpper_without (htree : IsKeyTree (h.freeTree pool))
    (hnone : ∀ x, InTree (h.freeTree pool) x → (h.freeTree pool).key x ≠ size) :
    ∃ c, Ceiling (h.freeTree pool) size c ∧
      Returns (fun fuel => rbSearchUpper fuel h (h.freeTree pool).root size)
        (if (h.node 0).key = size then 0 else c) := by
  obtain ⟨t, ht⟩ := htree
  obtain ⟨v, c, reads, -, hstop, hrun⟩ := rbSearchUpperReading_returns ht size
  rcases hstop with ⟨hv, hkey⟩ | ⟨hv, hne, hclosest⟩
  · exact absurd hkey (hnone v (ht.inTree_iff.mpr hv))
  · subst hv
    exact ⟨c, ceiling_of_closest ht hne hclosest, rbSearchUpper_returns hrun⟩

/-- A pool with four free blocks: 32 bytes on the left of 64, and 96 on the left of 128 on the right of it. -/
def fourBlockHeap : Heap where
  node := fun p =>
    if p = 4096 then kmemPool 4096 320 0 4112
    else if p = 4112 then ⟨64, 0, 4240, 4368⟩
    else if p = 4240 then ⟨32, 4112, 0, 0⟩
    else if p = 4368 then ⟨128, 4112, 4496, 0⟩
    else if p = 4496 then ⟨96, 4368, 0, 0⟩
    else ⟨0, 0, 0, 0⟩
  memoryPool := 4096

def fourBlockShape : ColorTree ℕ :=
  .node .black (.node .black .nil 4240 .nil) 4112 (.node .black (.node .red .nil 4496 .nil) 4368 .nil)

theorem fourBlockHeap_keyTree : KeyTree (fourBlockHeap.freeTree 4096) fourBlockShape where
  root := rfl
  below := by
    have hleft : Below (fourBlockHeap.freeTree 4096) (.node .black .nil 4240 .nil) :=
      ⟨by decide, ⟨rfl, trivial⟩, rfl, trivial⟩
    have hinner : Below (fourBlockHeap.freeTree 4096) (.node .red .nil 4496 .nil) :=
      ⟨by decide, ⟨rfl, trivial⟩, rfl, trivial⟩
    exact ⟨by decide, ⟨rfl, hleft⟩, rfl, by decide, ⟨rfl, hinner⟩, rfl, trivial⟩
  ordered := by
    show [4240, 4112, 4496, 4368].Pairwise _
    decide +kernel

/-- The search goes left for 32 bytes, and right and then left for 96. -/
theorem bestFit_iff_fourBlocks : BestFit fourBlockHeap 4096 32 ∧ BestFit fourBlockHeap 4096 96 := by
  have hmem : ∀ x ∈ [4240, 4112, 4496, 4368], InTree (fourBlockHeap.freeTree 4096) x := fun x hx =>
    fourBlockHeap_keyTree.inTree_iff.mpr hx
  exact ⟨(bestFit_iff (by decide) ⟨_, fourBlockHeap_keyTree⟩).mpr ⟨4240, hmem 4240 (by decide), rfl⟩,
    (bestFit_iff (by decide) ⟨_, fourBlockHeap_keyTree⟩).mpr ⟨4496, hmem 4496 (by decide), rfl⟩⟩

/-- A pool with one free block of 4080 bytes. -/
def oneBlockHeap : Heap where
  node := fun p => if p = 4096 then kmemPool 4096 4080 0 4112 else if p = 4112 then ⟨4080, 0, 0, 0⟩ else ⟨0, 0, 0, 0⟩
  memoryPool := 4096

theorem oneBlockHeap_keyTree : KeyTree (oneBlockHeap.freeTree 4096) (.node .black .nil 4112 .nil) where
  root := rfl
  below := ⟨by decide, ⟨rfl, trivial⟩, rfl, trivial⟩
  ordered := List.pairwise_singleton _ _

/-- A request of 32 bytes: the only block is the best fit, and the search reads through NULL. -/
theorem bestFit_fails : IsKeyTree (oneBlockHeap.freeTree 4096) ∧ ¬ BestFit oneBlockHeap 4096 32 := by
  refine ⟨⟨_, oneBlockHeap_keyTree⟩, fun hfit => ?_⟩
  obtain ⟨v, reads, hrun, -, hreads⟩ := hfit.least
  have hpath : Returns (fun fuel => rbSearchUpperReading fuel oneBlockHeap 4112 32) (4112, [4112, 0]) := by
    refine ⟨2, fun fuel hfuel => ?_⟩
    obtain ⟨fuel, rfl⟩ : ∃ m, fuel = m + 2 := ⟨fuel - 2, by omega⟩
    rfl
  have hsame := congrArg Prod.snd (hrun.unique hpath)
  exact hreads (by rw [show reads = [4112, 0] from hsame]; decide)

end OmochaOS.Kmem
