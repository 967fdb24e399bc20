import Mathlib.Data.List.Nodup
import OmochaOS.Rbtree.Nodes

/-!
# The tree that the links describe

`Located h k t` says that the links and colours in memory are those of the tree `t` in the context `k`,
both over addresses: the parts of it are the nodes of the context (`Around`), the pointer in the hole,
the link of the subtree's root to its parent (`Hangs`), and the nodes of the subtree (`Inside`).  The
functions of `lib/rbtree.c` work on one place of the tree; their lemmas say what stands there
afterwards.
-/

namespace OmochaOS.Rbtree

open RedBlack RedBlack.ColorTree

variable {h h' : RbTree} {k : List (Frame ℕ)} {f : Frame ℕ} {t u l r : ColorTree ℕ} {s : Side} {c : Color}
  {x p q v : ℕ}

/-- The pointer to a subtree. -/
def addr : ColorTree ℕ → ℕ
  | .nil => 0
  | .node _ _ x _ => x

@[simp] theorem addr_join : addr (join s c x t u) = x := by cases s <;> rfl

@[simp] theorem addr_paint : addr (t.paint c) = addr t := by cases t <;> rfl

theorem addr_mem (ht : t ≠ .nil) : addr t ∈ t.toList := by
  cases t with
  | nil => exact absurd rfl ht
  | node c l x r => simp [addr, toList]

/-- An address where a node can be. -/
structure IsNode (x : ℕ) : Prop where
  ne : x ≠ 0
  aligned : Aligned x

/-- The root of `t` has `p` for its parent. -/
def Hangs (h : RbTree) (p : ℕ) (t : ColorTree ℕ) : Prop := t ≠ .nil → h.parent (addr t) = p

/-- The nodes of `t` have their colours and are linked to each other. -/
def Inside (h : RbTree) : ColorTree ℕ → Prop
  | .nil => True
  | .node c l x r => (IsNode x ∧ h.color x = code c ∧
      h.child .left x = addr l ∧ h.child .right x = addr r) ∧
      (Hangs h x l ∧ Inside h l) ∧ Hangs h x r ∧ Inside h r

theorem inside_join : Inside h (join s c x t u) ↔ (IsNode x ∧ h.color x = code c ∧
    h.child s x = addr t ∧ h.child s.other x = addr u) ∧
    (Hangs h x t ∧ Inside h t) ∧ Hangs h x u ∧ Inside h u := by
  cases s with
  | left => rfl
  | right =>
    simp only [join, Inside, Side.other]
    tauto

theorem Inside.isNode (ht : Inside h t) (hne : t ≠ .nil) : IsNode (addr t) := by
  cases t with
  | nil => exact absurd rfl hne
  | node c l x r => exact ht.1.1

theorem Inside.isNode_mem (ht : Inside h t) (hx : x ∈ t.toList) : IsNode x := by
  induction t with
  | nil => cases hx
  | node c l z r ihl ihr =>
    rw [toList, List.mem_append, List.mem_cons] at hx
    rcases hx with hx | rfl | hx
    · exact ihl ht.2.1.2 hx
    · exact ht.1.1
    · exact ihr ht.2.2.2 hx

theorem Inside.addr_eq_zero (ht : Inside h t) : addr t = 0 ↔ t = .nil := by
  refine ⟨fun haddr => ?_, fun hnil => by rw [hnil]; rfl⟩
  by_contra hne
  exact (ht.isNode hne).ne haddr

theorem Inside.color_root (ht : Inside h t) (hne : t ≠ .nil) : h.color (addr t) = code t.rootColor := by
  cases t with
  | nil => exact absurd rfl hne
  | node c l x r => exact ht.1.2.1

theorem Inside.blackOrNull (ht : Inside h t) : BlackOrNull h (addr t) ↔ t.rootColor = .black := by
  cases t with
  | nil => exact ⟨fun _ => rfl, fun _ => Or.inl rfl⟩
  | node c l x r =>
    have hcolor := ht.color_root node_ne_nil
    rw [BlackOrNull, hcolor, code_eq_black]
    exact or_iff_right (ht.isNode node_ne_nil).ne

/-- The parent of the hole. -/
def top : List (Frame ℕ) → ℕ
  | [] => 0
  | f :: _ => f.elem

/-- The pointer in the hole. -/
def hole (h : RbTree) : List (Frame ℕ) → ℕ
  | [] => h.root
  | f :: _ => h.child f.side f.elem

def setHole (h : RbTree) : List (Frame ℕ) → ℕ → RbTree
  | [], v => h.setRoot v
  | f :: _, v => h.setChild f.side f.elem v

/-- The node of a frame, and the other child below it. -/
structure FrameInside (h : RbTree) (f : Frame ℕ) : Prop where
  isNode : IsNode f.elem
  color : h.color f.elem = code f.color
  child : h.child f.side.other f.elem = addr f.sibling
  hangs : Hangs h f.elem f.sibling
  inside : Inside h f.sibling

/-- The nodes of the context. -/
def Around (h : RbTree) : List (Frame ℕ) → Prop
  | [] => True
  | f :: k => FrameInside h f ∧ hole h k = f.elem ∧ h.parent f.elem = top k ∧ Around h k

/-- The links in memory are those of `t` in the context `k`. -/
structure Located (h : RbTree) (k : List (Frame ℕ)) (t : ColorTree ℕ) : Prop where
  around : Around h k
  hole : hole h k = addr t
  hangs : Hangs h (top k) t
  inside : Inside h t
  nodup : (t.toList ++ rest k).Nodup

theorem nodup_join : ((join s c x t u).toList ++ rest k).Nodup ↔
    (x :: (t.toList ++ u.toList) ++ rest k).Nodup :=
  ((toList_join_perm s).append_right _).nodup_iff

/-- One step up or down. -/
theorem located_cons : Located h (f :: k) t ↔ Located h k (join f.side f.color f.elem t f.sibling) := by
  have hperm : (t.toList ++ rest (f :: k)).Perm
      ((join f.side f.color f.elem t f.sibling).toList ++ rest k) := by
    refine List.perm_middle.trans ?_
    rw [← List.append_assoc, ← List.cons_append]
    exact ((toList_join_perm f.side).append_right _).symm
  constructor
  · rintro ⟨⟨hframe, hhole, hparent, haround⟩, hchild, hhangs, hinside, hnodup⟩
    refine ⟨haround, ?_, fun _ => ?_, ?_, hperm.nodup_iff.mp hnodup⟩
    · rw [hhole, addr_join]
    · rw [addr_join, hparent]
    · rw [inside_join]
      exact ⟨⟨hframe.isNode, hframe.color, hchild, hframe.child⟩, ⟨hhangs, hinside⟩,
        hframe.hangs, hframe.inside⟩
  · rintro ⟨haround, hhole, hhangs, hinside, hnodup⟩
    rw [inside_join] at hinside
    obtain ⟨⟨hnode, hcolor, hchild, hother⟩, ⟨hhangs', hinside'⟩, hsib, hsibInside⟩ := hinside
    have hne : join f.side f.color f.elem t f.sibling ≠ .nil := join_ne_nil
    have hparent := hhangs hne
    rw [addr_join] at hhole hparent
    exact ⟨⟨⟨hnode, hcolor, hother, hsib, hsibInside⟩, hhole, hparent, haround⟩, hchild, hhangs',
      hinside', hperm.nodup_iff.mpr hnodup⟩

theorem located_plug : Located h k t ↔ Located h [] (plug k t) := by
  induction k generalizing t with
  | nil => rfl
  | cons f k ih => rw [located_cons, ih, plug]

/-! ### What a change elsewhere leaves -/

section Write

variable {y : ℕ}

theorem node_setChild_of_ne (hy : y ≠ p) : (h.setChild s p q).node y = h.node y := by
  cases s <;> simp [RbTree.setChild, hy]

theorem node_setParent_of_ne (hy : y ≠ p) : (h.setParent p q).node y = h.node y := by
  simp [RbTree.setParent, hy]

theorem node_setColor_of_ne {c : ℕ} (hy : y ≠ p) : (h.setColor p c).node y = h.node y := by
  simp [RbTree.setColor, hy]

theorem node_setHole_congr (hy : h'.node y = h.node y) :
    (setHole h' k v).node y = (setHole h k v).node y := by
  cases k with
  | nil => exact hy
  | cons f k =>
    simp only [setHole]
    by_cases hf : y = f.elem
    · subst hf
      cases f.side <;> simp [RbTree.setChild, hy]
    · rw [node_setChild_of_ne hf, node_setChild_of_ne hf, hy]

theorem root_setHole_congr (hroot : h'.root = h.root) :
    (setHole h' k v).root = (setHole h k v).root := by
  cases k with
  | nil => rfl
  | cons f k => rw [setHole, setHole, RbTree.root_setChild, RbTree.root_setChild, hroot]

theorem node_setHole_of_not_mem (hy : y ∉ rest k) : (setHole h k v).node y = h.node y := by
  cases k with
  | nil => rfl
  | cons f k =>
    rw [rest, List.mem_cons, not_or] at hy
    exact node_setChild_of_ne hy.1

@[simp] theorem parent_setHole : (setHole h k v).parent y = h.parent y := by
  cases k with
  | nil => rfl
  | cons f k => exact RbTree.parent_setChild

@[simp] theorem color_setHole : (setHole h k v).color y = h.color y := by
  cases k with
  | nil => rfl
  | cons f k => exact RbTree.color_setChild

theorem child_setHole_of_ne (hy : y ≠ top k) : (setHole h k v).child s y = h.child s y := by
  cases k with
  | nil => exact RbTree.child_setRoot
  | cons f k => rw [setHole, RbTree.child_setChild, if_neg fun hc => hy hc.1]

@[simp] theorem key_setHole : (setHole h k v).key = h.key := by
  cases k with
  | nil => rfl
  | cons f k => exact RbTree.key_setChild

end Write

section Congr

variable {y : ℕ} (hy : h'.node y = h.node y)
include hy

theorem child_congr : h'.child s y = h.child s y := by cases s <;> rw [RbTree.child, hy, RbTree.child]

theorem parent_congr : h'.parent y = h.parent y := by rw [RbTree.parent, hy, RbTree.parent]

theorem key_congr : h'.key y = h.key y := by rw [RbTree.key, hy, RbTree.key]

theorem color_congr : h'.color y = h.color y := by rw [RbTree.color, hy, RbTree.color]

end Congr

theorem Hangs.congr (ht : Hangs h p t) (hnode : ∀ y ∈ t.toList, h'.node y = h.node y) :
    Hangs h' p t := by
  intro hne
  rw [parent_congr (hnode _ (addr_mem hne))]
  exact ht hne

theorem Inside.congr (ht : Inside h t) (hnode : ∀ y ∈ t.toList, h'.node y = h.node y) :
    Inside h' t := by
  induction t with
  | nil => trivial
  | node c l x r ihl ihr =>
    obtain ⟨⟨hx, hc, hl, hr⟩, ⟨hlhangs, hlin⟩, hrhangs, hrin⟩ := ht
    have hroot : h'.node x = h.node x := hnode x (by simp [toList])
    have hleft : ∀ y ∈ l.toList, h'.node y = h.node y := fun y hy => hnode y (by simp [toList, hy])
    have hright : ∀ y ∈ r.toList, h'.node y = h.node y := fun y hy => hnode y (by simp [toList, hy])
    exact ⟨⟨hx, (color_congr hroot).trans hc, (child_congr hroot).trans hl,
      (child_congr hroot).trans hr⟩, ⟨hlhangs.congr hleft, ihl hlin hleft⟩,
      hrhangs.congr hright, ihr hrin hright⟩

/-- Only the parent link of the root may have changed. -/
theorem Inside.congr_root (ht : Inside h t) (hnodup : t.toList.Nodup)
    (hroot : t ≠ .nil → (∀ u, h'.child u (addr t) = h.child u (addr t)) ∧
      h'.color (addr t) = h.color (addr t))
    (hnode : ∀ y ∈ t.toList, y ≠ addr t → h'.node y = h.node y) : Inside h' t := by
  cases t with
  | nil => trivial
  | node c l x r =>
    obtain ⟨hchild, hcolor⟩ := hroot node_ne_nil
    obtain ⟨⟨hx, hc, hl, hr⟩, ⟨hlhangs, hlin⟩, hrhangs, hrin⟩ := ht
    rw [toList, List.nodup_middle, List.nodup_cons, List.mem_append, not_or] at hnodup
    obtain ⟨⟨hxl, hxr⟩, -⟩ := hnodup
    have hleft : ∀ y ∈ l.toList, h'.node y = h.node y := by
      intro y hy
      refine hnode y (by simp [toList, hy]) ?_
      rintro rfl
      exact hxl hy
    have hright : ∀ y ∈ r.toList, h'.node y = h.node y := by
      intro y hy
      refine hnode y (by simp [toList, hy]) ?_
      rintro rfl
      exact hxr hy
    exact ⟨⟨hx, hcolor.trans hc, (hchild .left).trans hl, (hchild .right).trans hr⟩,
      ⟨hlhangs.congr hleft, hlin.congr hleft⟩, hrhangs.congr hright, hrin.congr hright⟩

theorem Around.congr (hk : Around h k) (hnode : ∀ y ∈ rest k, h'.node y = h.node y)
    (hroot : h'.root = h.root) : Around h' k ∧ hole h' k = hole h k := by
  induction k with
  | nil => exact ⟨trivial, hroot⟩
  | cons f k ih =>
    obtain ⟨hframe, hhole, hparent, hk⟩ := hk
    have helem : h'.node f.elem = h.node f.elem := hnode _ (by simp [rest])
    have hsib : ∀ y ∈ f.sibling.toList, h'.node y = h.node y := fun y hy =>
      hnode y (by simp [rest, hy])
    obtain ⟨hk', hhole'⟩ := ih hk fun y hy => hnode y (by simp [rest, hy])
    exact ⟨⟨⟨hframe.isNode, (color_congr helem).trans hframe.color,
      (child_congr helem).trans hframe.child, hframe.hangs.congr hsib, hframe.inside.congr hsib⟩,
      hhole'.trans hhole, (parent_congr helem).trans hparent, hk'⟩, child_congr helem⟩

/-- Another pointer is in the hole. -/
theorem Around.setHole (hk : Around h k) (hnodup : (rest k).Nodup) :
    Around (setHole h k v) k ∧ hole (setHole h k v) k = v := by
  cases k with
  | nil => exact ⟨trivial, rfl⟩
  | cons f k =>
    obtain ⟨hframe, hhole, hparent, hk⟩ := hk
    rw [rest, List.nodup_cons, List.mem_append, not_or] at hnodup
    obtain ⟨⟨hsib, hrest⟩, -⟩ := hnodup
    have hsib' : ∀ y ∈ f.sibling.toList, (h.setChild f.side f.elem v).node y = h.node y := by
      intro y hy
      apply node_setChild_of_ne
      rintro rfl
      exact hsib hy
    have hrest' : ∀ y ∈ rest k, (h.setChild f.side f.elem v).node y = h.node y := by
      intro y hy
      apply node_setChild_of_ne
      rintro rfl
      exact hrest hy
    obtain ⟨hk', hhole'⟩ := hk.congr hrest' RbTree.root_setChild
    refine ⟨⟨⟨hframe.isNode, ?_, ?_, hframe.hangs.congr hsib', hframe.inside.congr hsib'⟩,
      hhole'.trans hhole, ?_, hk'⟩, ?_⟩
    · rw [Rbtree.setHole, RbTree.color_setChild, hframe.color]
    · rw [Rbtree.setHole, RbTree.child_setChild, if_neg fun hc => f.side.ne_other hc.2.symm, hframe.child]
    · rw [Rbtree.setHole, RbTree.parent_setChild, hparent]
    · simp [Rbtree.setHole, Rbtree.hole]

/-! ### The place a node is in -/

theorem located_join : Located h k (join s c x t u) ↔ Around h k ∧ hole h k = x ∧
    h.parent x = top k ∧ (IsNode x ∧ h.color x = code c ∧
    h.child s x = addr t ∧ h.child s.other x = addr u) ∧
    (Hangs h x t ∧ Inside h t) ∧ (Hangs h x u ∧ Inside h u) ∧
    (x :: (t.toList ++ u.toList) ++ rest k).Nodup := by
  have hne : join s c x t u ≠ .nil := join_ne_nil
  constructor
  · rintro ⟨haround, hhole, hhangs, hinside, hnodup⟩
    have hparent := hhangs hne
    rw [addr_join] at hhole hparent
    obtain ⟨hnode, ht, hu⟩ := inside_join.mp hinside
    exact ⟨haround, hhole, hparent, hnode, ht, hu, nodup_join.mp hnodup⟩
  · rintro ⟨haround, hhole, hparent, hnode, ht, hu, hnodup⟩
    refine ⟨haround, ?_, fun _ => ?_, inside_join.mpr ⟨hnode, ht, hu⟩, nodup_join.mpr hnodup⟩
    · rw [addr_join, hhole]
    · rw [addr_join, hparent]

theorem Around.isNode_top (hk : Around h k) (hne : k ≠ []) : IsNode (top k) := by
  cases k with
  | nil => exact absurd rfl hne
  | cons f k => exact hk.1.isNode

theorem top_mem (hne : k ≠ []) : top k ∈ rest k := by
  cases k with
  | nil => exact absurd rfl hne
  | cons f k => simp [top, rest]

theorem Around.isNode_mem (hk : Around h k) (hx : x ∈ rest k) : IsNode x := by
  induction k with
  | nil => cases hx
  | cons f k ih =>
    rw [rest, List.mem_cons, List.mem_append] at hx
    rcases hx with rfl | hx | hx
    · exact hk.1.isNode
    · exact hk.1.inside.isNode_mem hx
    · exact ih hk.2.2.2 hx

theorem Around.aligned_top (hk : Around h k) : Aligned (top k) := by
  by_cases hne : k = []
  · rw [hne]
    exact aligned_zero
  · exact (hk.isNode_top hne).aligned

/-- A node that is not in the context is not the parent of the hole. -/
theorem ne_top (hx : x ≠ 0) (hrest : x ∉ rest k) : x ≠ top k := by
  rintro rfl
  by_cases hne : k = []
  · exact hx (by rw [hne]; rfl)
  · exact hrest (top_mem hne)

theorem Around.root_mem (hk : Around h k) (hne : k ≠ []) : h.root ∈ rest k := by
  induction k with
  | nil => exact absurd rfl hne
  | cons f k ih =>
    obtain ⟨-, hhole, -, hk⟩ := hk
    by_cases hnil : k = []
    · subst hnil
      rw [show h.root = f.elem from hhole]
      simp [rest]
    · simp [rest, ih hk hnil]

/-- The hole holds `q`, and the test of `rb_transplant` finds it. -/
structure Held (h : RbTree) (k : List (Frame ℕ)) (q : ℕ) : Prop where
  hole : hole h k = q
  parent : h.parent q = top k
  root : k ≠ [] → h.root ≠ q
  other : ∀ f ∈ k.head?, f.elem ≠ 0 ∧ h.child f.side.other f.elem ≠ q

theorem Around.held (hk : Around h k) (hhole : hole h k = q) (hparent : h.parent q = top k)
    (hq : q ≠ 0) (hrest : q ∉ rest k) : Held h k q := by
  refine ⟨hhole, hparent, ?_, ?_⟩
  · rintro hne rfl
    exact hrest (hk.root_mem hne)
  · intro f hf
    cases k with
    | nil => cases hf
    | cons g k =>
      obtain rfl : g = f := Option.some.inj hf
      refine ⟨hk.1.isNode.ne, ?_⟩
      rw [hk.1.child]
      rintro rfl
      have hsib : g.sibling ≠ .nil := fun hnil => hq (by rw [hnil]; rfl)
      exact hrest (by simp [rest, addr_mem hsib])

theorem Held.congr (hq : Held h k q) (htop : k ≠ [] → h'.node (top k) = h.node (top k))
    (hparent : h'.parent q = h.parent q) (hroot : h'.root = h.root) : Held h' k q := by
  cases k with
  | nil => exact ⟨hroot.trans hq.hole, hparent.trans hq.parent, nofun, nofun⟩
  | cons f k =>
    have hf : h'.node f.elem = h.node f.elem := htop nofun
    refine ⟨(child_congr hf).trans hq.hole, hparent.trans hq.parent, fun hne => ?_, ?_⟩
    · rw [hroot]
      exact hq.root hne
    · intro g hg
      obtain rfl : f = g := Option.some.inj hg
      rw [child_congr hf]
      exact hq.other f rfl

theorem setParentLike_eq (hq0 : q ≠ 0) (hv : v ≠ 0) (hp : h.parent q = p) :
    setParentLike h q v = .ok (h.setParent v p) := by
  rw [setParentLike, deref_bind hq0, deref_of_ne hv, hp]

/-- `rb_transplant` puts `src` into the hole. -/
theorem Held.rbTransplant_eq (hq : Held h k q) (hq0 : q ≠ 0) (hv : v ≠ 0) :
    rbTransplant h q v = .ok ((setHole h k v).setParent v (top k)) := by
  have hparent := hq.parent
  have hchild := hq.hole
  cases k with
  | nil =>
    rw [Rbtree.hole] at hchild
    rw [rbTransplant, if_pos hchild]
    exact setParentLike_eq hq0 hv hparent
  | cons f k =>
    obtain ⟨hf, hother⟩ := hq.other f rfl
    rw [top] at hparent
    rw [Rbtree.hole] at hchild
    rw [rbTransplant, if_neg (hq.root nofun), deref_bind hq0, hparent, deref_bind hf, setHole]
    cases hside : f.side with
    | left =>
      rw [hside] at hother hchild
      rw [Side.other] at hother
      rw [if_neg fun hr => hother hr.symm, if_pos hchild.symm]
      exact setParentLike_eq hq0 hv (by rw [RbTree.parent_setChild, hparent]; rfl)
    | right =>
      rw [hside] at hchild
      rw [if_pos hchild.symm]
      exact setParentLike_eq hq0 hv (by rw [RbTree.parent_setChild, hparent]; rfl)

theorem setParentLike_null (hnull : h.nullMapped = false) : setParentLike h q 0 = .error .null := by
  rw [setParentLike]
  by_cases hq : q = 0
  · rw [hq, deref_null hnull]
    rfl
  · rw [deref_bind hq, deref_null hnull]

/-- Nothing can be replaced by NULL. -/
theorem rbTransplant_null (hnull : h.nullMapped = false) : rbTransplant h q 0 = .error .null := by
  have hend : ∀ h' : RbTree, h'.nullMapped = h.nullMapped → setParentLike h' q 0 = .error .null :=
    fun h' heq => setParentLike_null (heq.trans hnull)
  rw [rbTransplant]
  split
  · exact hend _ RbTree.nullMapped_setRoot
  · by_cases hq : q = 0
    · rw [hq, deref_null hnull]
      rfl
    · rw [deref_bind hq]
      by_cases hp : h.parent q = 0
      · rw [hp, deref_null hnull]
        rfl
      · rw [deref_bind hp, hend _ RbTree.nullMapped_setChild, hend _ RbTree.nullMapped_setChild,
          hend _ rfl, ite_self, ite_self]

theorem rbDetach_eq (hx : x ≠ 0) (hp : h.parent x = p) (hp0 : p ≠ 0) (hs : h.child s p = x)
    (ho : h.child s.other p ≠ x) : rbDetach h x = .ok ((h.setChild s p 0).setParent x 0) := by
  rw [rbDetach, deref_bind hx, hp, if_neg hp0]
  cases s with
  | left => rw [if_pos hs, deref_of_ne hx]
  | right =>
    rw [Side.other] at ho
    rw [if_neg ho, deref_of_ne hx]

end OmochaOS.Rbtree
