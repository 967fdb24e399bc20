import OmochaOS.Rbtree.Shape

/-!
# Colours and rotations in place

`SET_COLOR` paints the root of a subtree, and `rb_left_rotate` and `rb_right_rotate` rotate it, whatever
the context is.
-/

namespace OmochaOS.Rbtree

open RedBlack RedBlack.ColorTree

variable {h h' : RbTree} {k : List (Frame ℕ)} {t u m : ColorTree ℕ} {s : Side} {c d : Color} {x a : ℕ}

/-- The function ends without a fault, the keys are the old ones, and `t` stands in the context `k`. -/
def Yields (e : Except Fault RbTree) (h : RbTree) (k : List (Frame ℕ)) (t : ColorTree ℕ) : Prop :=
  ∃ h', e = .ok h' ∧ h'.key = h.key ∧ Located h' k t

theorem Yields.bind {e : Except Fault RbTree} {g : RbTree → Except Fault RbTree} {k' : List (Frame ℕ)}
    (he : Yields e h k t) (hg : ∀ h', h'.key = h.key → Located h' k t → Yields (g h') h' k' u) :
    Yields (e >>= g) h k' u := by
  obtain ⟨h₁, rfl, hkey₁, h₁L⟩ := he
  obtain ⟨h₂, hok, hkey₂, h₂L⟩ := hg h₁ hkey₁ h₁L
  exact ⟨h₂, hok, hkey₂.trans hkey₁, h₂L⟩

theorem Yields.plug {e : Except Fault RbTree} (he : Yields e h k t) : Yields e h [] (plug k t) := by
  obtain ⟨h', hok, hkey, hL⟩ := he
  exact ⟨h', hok, hkey, located_plug.mp hL⟩

theorem Yields.of_key {e : Except Fault RbTree} (he : Yields e h' k t) (hkey : h'.key = h.key) :
    Yields e h k t := by
  obtain ⟨h₁, hok, hkey', hL⟩ := he
  exact ⟨h₁, hok, hkey'.trans hkey, hL⟩

theorem Located.paint (hL : Located h k t) (hne : t ≠ .nil) (c : Color) :
    Located (h.setColor (addr t) (code c)) k (t.paint c) := by
  obtain ⟨d, x, ht⟩ := exists_join hne .left
  generalize t.child .left = l at ht
  generalize t.child Side.left.other = r at ht
  subst ht
  rw [paint_join, addr_join]
  obtain ⟨haround, hhole, hparent, ⟨hnode, -, hl, hr⟩, ⟨hlhangs, hlin⟩, ⟨hrhangs, hrin⟩, hnodup⟩ :=
    located_join.mp hL
  have hx := hnodup
  simp only [List.cons_append, List.nodup_cons, List.mem_append, not_or] at hx
  obtain ⟨⟨⟨hxl, hxr⟩, hxk⟩, -⟩ := hx
  have hother : ∀ v : List ℕ, x ∉ v → ∀ y ∈ v, (h.setColor x (code c)).node y = h.node y := by
    intro v hv y hy
    apply node_setColor_of_ne
    rintro rfl
    exact hv hy
  obtain ⟨haround', hhole'⟩ := haround.congr (hother _ hxk) RbTree.root_setColor
  refine located_join.mpr ⟨haround', hhole'.trans hhole, ?_, ⟨hnode, ?_, ?_, ?_⟩,
    ⟨hlhangs.congr (hother _ hxl), hlin.congr (hother _ hxl)⟩,
    ⟨hrhangs.congr (hother _ hxr), hrin.congr (hother _ hxr)⟩, hnodup⟩
  · rw [RbTree.parent_setColor, hparent]
  · rw [RbTree.color_setColor, if_pos rfl]
  · rw [RbTree.child_setColor, hl]
  · rw [RbTree.child_setColor, hr]

/-- The writes of a rotation, seen from the old state `h`. -/
structure Rotated (h h' : RbTree) (k : List (Frame ℕ)) (s : Side) (x a : ℕ) (t m u : ColorTree ℕ) : Prop where
  key : h'.key = h.key
  root : h'.root = (setHole h k a).root
  context : ∀ y ∈ rest k, h'.node y = (setHole h k a).node y
  outer : ∀ y ∈ t.toList ++ u.toList, h'.node y = h.node y
  inner : ∀ y ∈ m.toList, y ≠ addr m → h'.node y = h.node y
  innerRoot : m ≠ .nil → (∀ v, h'.child v (addr m) = h.child v (addr m)) ∧
    h'.color (addr m) = h.color (addr m)
  innerParent : m ≠ .nil → h'.parent (addr m) = x
  color : h'.color x = h.color x ∧ h'.color a = h.color a
  low : h'.parent x = a ∧ h'.child s x = h.child s x ∧ h'.child s.other x = addr m
  high : h'.parent a = top k ∧ h'.child s a = x ∧ h'.child s.other a = h.child s.other a

/-- The order stays the same. -/
theorem toList_rotate : (join s d a (join s c x t m) u).toList = (join s c x t (join s d a m u)).toList := by
  cases s <;> simp [join, toList]

/-- The addresses of two nodes above three subtrees. -/
theorem nodup_join_join (hnodup : ((join s c x t (join s d a m u)).toList ++ rest k).Nodup) :
    (x :: a :: (t.toList ++ (m.toList ++ u.toList) ++ rest k)).Nodup := by
  have hperm : (join s c x t (join s d a m u)).toList.Perm
      (x :: a :: (t.toList ++ (m.toList ++ u.toList))) := by
    refine (toList_join_perm s).trans (List.Perm.cons x ?_)
    exact ((toList_join_perm s).append_left _).trans List.perm_middle
  exact (hperm.append_right _).nodup_iff.mp hnodup

theorem Rotated.located (hr : Rotated h h' k s x a t m u)
    (hL : Located h k (join s c x t (join s d a m u))) :
    Located h' k (join s d a (join s c x t m) u) := by
  have hnodup := hL.nodup
  obtain ⟨haround, -, -, ⟨hx, hxc, hxt, -⟩, ⟨hthangs, htin⟩, ⟨-, hain⟩, -⟩ := located_join.mp hL
  obtain ⟨⟨ha, hac, -, hau⟩, ⟨-, hmin⟩, huhangs, huin⟩ := inside_join.mp hain
  obtain ⟨-, -, hnodup'⟩ : _ ∧ _ ∧ (t.toList ++ (m.toList ++ u.toList) ++ rest k).Nodup := by
    simpa only [List.nodup_cons] using nodup_join_join hnodup
  obtain ⟨hsub, hnodupk, -⟩ := List.nodup_append.mp hnodup'
  have hnodupm : m.toList.Nodup :=
    (List.nodup_append.mp (List.nodup_append.mp hsub).2.1).1
  have hleft : ∀ y ∈ t.toList, h'.node y = h.node y := fun y hy =>
    hr.outer y (List.mem_append_left _ hy)
  have hright : ∀ y ∈ u.toList, h'.node y = h.node y := fun y hy =>
    hr.outer y (List.mem_append_right _ hy)
  obtain ⟨haround, hhole⟩ := haround.setHole (v := a) hnodupk
  obtain ⟨haround, hhole'⟩ := haround.congr hr.context hr.root
  rw [← toList_rotate, nodup_join] at hnodup
  refine located_join.mpr ⟨haround, hhole'.trans hhole, hr.high.1, ⟨ha, ?_, ?_, ?_⟩,
    ⟨fun _ => ?_, inside_join.mpr ⟨⟨hx, ?_, ?_, ?_⟩, ⟨hthangs.congr hleft, htin.congr hleft⟩,
      hr.innerParent, hmin.congr_root hnodupm hr.innerRoot hr.inner⟩⟩,
    ⟨huhangs.congr hright, huin.congr hright⟩, hnodup⟩
  · rw [hr.color.2, hac]
  · rw [hr.high.2.1, addr_join]
  · rw [hr.high.2.2, hau]
  · rw [addr_join, hr.low.1]
  · rw [hr.color.1, hxc]
  · rw [hr.low.2.1, hxt]
  · rw [hr.low.2.2]

theorem addr_ne (ha : a ≠ 0) (hat : a ∉ t.toList) : addr t ≠ a := by
  rintro rfl
  by_cases hne : t = .nil
  · exact ha (by rw [hne]; rfl)
  · exact hat (addr_mem hne)

/-- The addresses that take part in a rotation are different. -/
structure Apart (k : List (Frame ℕ)) (x a : ℕ) (t m u : ColorTree ℕ) : Prop where
  low : IsNode x
  high : IsNode a
  context : Aligned (top k)
  ne : x ≠ a
  lowRest : x ∉ rest k
  highRest : a ∉ rest k
  lowTrees : x ∉ t.toList ++ (m.toList ++ u.toList)
  highTrees : a ∉ t.toList ++ (m.toList ++ u.toList)
  inner : m.toList.Disjoint (rest k) ∧ m.toList.Disjoint (t.toList ++ u.toList)
  outer : (t.toList ++ u.toList).Disjoint (rest k)

theorem apart_of_nodup (hx : IsNode x) (ha : IsNode a) (htop : Aligned (top k))
    (hnodup : (x :: a :: (t.toList ++ (m.toList ++ u.toList) ++ rest k)).Nodup) :
    Apart k x a t m u := by
  have hdis := hnodup
  simp only [List.nodup_cons, List.mem_cons, List.mem_append, not_or] at hdis
  obtain ⟨⟨hne, hxs, hxk⟩, ⟨has, hak⟩, hlists⟩ := hdis
  simp only [List.nodup_append', List.disjoint_append_left, List.disjoint_append_right] at hlists
  obtain ⟨⟨-, ⟨-, -, hmu⟩, htm, -⟩, -, htk, hmk, huk⟩ := hlists
  refine ⟨hx, ha, htop, hne, hxk, hak, by simp [hxs], by simp [has], ⟨hmk, ?_⟩, ?_⟩
  · rw [List.disjoint_append_right]
    exact ⟨fun y hy hy' => htm hy' hy, hmu⟩
  · rw [List.disjoint_append_left]
    exact ⟨htk, huk⟩

/-- `a` has been detached from `x` and put into its place. -/
def raised (h : RbTree) (k : List (Frame ℕ)) (s : Side) (x a : ℕ) : RbTree :=
  (setHole ((h.setChild s.other x 0).setParent a 0) k a).setParent a (top k)

theorem raised_node {y : ℕ} (hx : y ≠ x) (ha : y ≠ a) (hy : y ∉ rest k) :
    (raised h k s x a).node y = h.node y := by
  rw [raised, node_setParent_of_ne ha, node_setHole_of_not_mem hy, node_setParent_of_ne ha,
    node_setChild_of_ne hx]

theorem raised_context {y : ℕ} (hx : y ≠ x) (ha : y ≠ a) :
    (raised h k s x a).node y = (setHole h k a).node y := by
  rw [raised, node_setParent_of_ne ha]
  apply node_setHole_congr
  rw [node_setParent_of_ne ha, node_setChild_of_ne hx]

theorem raised_root : (raised h k s x a).root = (setHole h k a).root := by
  rw [raised, RbTree.root_setParent]
  apply root_setHole_congr
  rw [RbTree.root_setParent, RbTree.root_setChild]

section Writes

variable (hap : Apart k x a t m u)
include hap

theorem Apart.lowTop : x ≠ top k := ne_top hap.low.ne hap.lowRest

theorem Apart.highTop : a ≠ top k := ne_top hap.high.ne hap.highRest

theorem Apart.ne_of_rest {y : ℕ} (hy : y ∈ rest k) : y ≠ x ∧ y ≠ a := by
  refine ⟨?_, ?_⟩
  · rintro rfl
    exact hap.lowRest hy
  · rintro rfl
    exact hap.highRest hy

theorem Apart.ne_of_tree {y : ℕ} (hy : y ∈ t.toList ++ (m.toList ++ u.toList)) : y ≠ x ∧ y ≠ a := by
  refine ⟨?_, ?_⟩
  · rintro rfl
    exact hap.lowTrees hy
  · rintro rfl
    exact hap.highTrees hy

theorem Apart.ne_of_outer {y : ℕ} (hy : y ∈ t.toList ++ u.toList) : y ≠ x ∧ y ≠ a := by
  apply hap.ne_of_tree
  simp only [List.mem_append] at hy ⊢
  tauto

theorem Apart.ne_of_inner {y : ℕ} (hy : y ∈ m.toList) : y ≠ x ∧ y ≠ a := by
  apply hap.ne_of_tree
  simp only [List.mem_append]
  tauto

theorem Apart.raised_low :
    (raised h k s x a).child s x = h.child s x ∧ (raised h k s x a).child s.other x = 0 ∧
      (raised h k s x a).color x = h.color x := by
  have hside := s.ne_other
  refine ⟨?_, ?_, ?_⟩
  · simp [raised, child_setHole_of_ne hap.lowTop, hside]
  · simp [raised, child_setHole_of_ne hap.lowTop]
  · simp [raised, RbTree.color_setParent, hap.context, aligned_zero]

theorem Apart.raised_high :
    (raised h k s x a).child s.other a = h.child s.other a ∧
      (raised h k s x a).color a = h.color a ∧ (raised h k s x a).parent a = top k := by
  refine ⟨?_, ?_, ?_⟩
  · simp [raised, child_setHole_of_ne hap.highTop, hap.ne.symm]
  · simp [raised, RbTree.color_setParent, hap.context, aligned_zero]
  · simp [raised, RbTree.parent_setParent, hap.context]

theorem Apart.rotated_nil (hm : m = .nil) :
    Rotated h (((raised h k s x a).setChild s a x).setParent x a) k s x a t m u := by
  obtain ⟨hlow, hlow', hlowColor⟩ := hap.raised_low (h := h) (s := s)
  obtain ⟨hhigh, hhighColor, hhighParent⟩ := hap.raised_high (h := h) (s := s)
  have hside := s.ne_other
  have hne := hap.ne
  subst hm
  refine ⟨?_, ?_, ?_, ?_, nofun, fun hm => absurd rfl hm, fun hm => absurd rfl hm, ?_, ?_, ?_⟩
  · simp [raised]
  · rw [RbTree.root_setParent, RbTree.root_setChild, raised_root]
  · intro y hy
    obtain ⟨hyx, hya⟩ := hap.ne_of_rest hy
    rw [node_setParent_of_ne hyx, node_setChild_of_ne hya, raised_context hyx hya]
  · intro y hy
    obtain ⟨hyx, hya⟩ := hap.ne_of_outer hy
    rw [node_setParent_of_ne hyx, node_setChild_of_ne hya,
      raised_node hyx hya fun hrest => hap.outer hy hrest]
  · simp [RbTree.color_setParent hap.high.aligned, hlowColor, hhighColor]
  · simp [RbTree.parent_setParent hap.high.aligned, hlow, hlow', hne, addr]
  · simp [RbTree.parent_setParent hap.high.aligned, hhigh, hhighParent, hne.symm, hside.symm]

theorem Apart.rotated_inner (hmem : addr m ∈ m.toList) :
    Rotated h (((((((raised h k s x a).setChild s a 0).setParent (addr m) 0).setChild s a x).setParent
      x a).setChild s.other x (addr m)).setParent (addr m) x) k s x a t m u := by
  obtain ⟨hlow, hlow', hlowColor⟩ := hap.raised_low (h := h) (s := s)
  obtain ⟨hhigh, hhighColor, hhighParent⟩ := hap.raised_high (h := h) (s := s)
  obtain ⟨hbx, hba⟩ := hap.ne_of_inner hmem
  have hbk : addr m ∉ rest k := fun hrest => hap.inner.1 hmem hrest
  have hside := s.ne_other
  have hne := hap.ne
  have hbnode := raised_node (h := h) (s := s) hbx hba hbk
  have hnode : ∀ y, y ≠ x → y ≠ a → y ≠ addr m →
      (((((((raised h k s x a).setChild s a 0).setParent (addr m) 0).setChild s a x).setParent
        x a).setChild s.other x (addr m)).setParent (addr m) x).node y = (raised h k s x a).node y := by
    intro y hyx hya hyb
    rw [node_setParent_of_ne hyb, node_setChild_of_ne hyx, node_setParent_of_ne hyx,
      node_setChild_of_ne hya, node_setParent_of_ne hyb, node_setChild_of_ne hya]
  refine ⟨?_, ?_, ?_, ?_, ?_, fun _ => ⟨fun v => ?_, ?_⟩, fun _ => ?_, ?_, ?_, ?_⟩
  · simp [raised]
  · simp [raised_root]
  · intro y hy
    obtain ⟨hyx, hya⟩ := hap.ne_of_rest hy
    rw [hnode y hyx hya fun hyb => hbk (hyb ▸ hy), raised_context hyx hya]
  · intro y hy
    obtain ⟨hyx, hya⟩ := hap.ne_of_outer hy
    rw [hnode y hyx hya fun hyb => hap.inner.2 hmem (hyb ▸ hy),
      raised_node hyx hya fun hrest => hap.outer hy hrest]
  · intro y hy hyb
    obtain ⟨hyx, hya⟩ := hap.ne_of_inner hy
    rw [hnode y hyx hya hyb, raised_node hyx hya fun hrest => hap.inner.1 hy hrest]
  · simp [hbx, hba, child_congr hbnode]
  · simp [RbTree.color_setParent hap.high.aligned, RbTree.color_setParent hap.low.aligned,
      RbTree.color_setParent aligned_zero, color_congr hbnode]
  · simp [RbTree.parent_setParent hap.low.aligned]
  · simp [RbTree.color_setParent hap.high.aligned, RbTree.color_setParent hap.low.aligned,
      RbTree.color_setParent aligned_zero, hlowColor, hhighColor]
  · simp [RbTree.parent_setParent hap.high.aligned, RbTree.parent_setParent hap.low.aligned,
      hlow, hne, hbx.symm, hside]
  · simp [RbTree.parent_setParent hap.high.aligned, RbTree.parent_setParent hap.low.aligned,
      RbTree.parent_setParent aligned_zero, hhigh, hhighParent, hne.symm, hba.symm, hside.symm]

end Writes

/-- **A rotation.** -/
theorem Located.rotate (hL : Located h k (join s c x t (join s d a m u))) :
    Yields (rbRotate s h x) h k (join s d a (join s c x t m) u) := by
  have hnodup := nodup_join_join hL.nodup
  obtain ⟨haround, hhole, hparent, ⟨hx, -, hxt, hxa⟩, -, ⟨hahangs, hain⟩, -⟩ := located_join.mp hL
  obtain ⟨⟨ha, -, ham, hau⟩, ⟨hmhangs, hmin⟩, -⟩ := inside_join.mp hain
  have hap := apart_of_nodup hx ha haround.aligned_top hnodup
  have hat : a ∉ t.toList := fun hmem => hap.highTrees (List.mem_append_left _ hmem)
  have haparent : h.parent a = x := by
    have := hahangs join_ne_nil
    rwa [addr_join] at this
  rw [addr_join] at hxa
  have hdetach := rbDetach_eq (s := s.other) ha.ne haparent hx.ne hxa (by
    rw [Side.other_other, hxt]
    exact addr_ne ha.ne hat)
  have hheld : Held ((h.setChild s.other x 0).setParent a 0) k x := by
    refine (haround.held hhole hparent hx.ne hap.lowRest).congr ?_ ?_ ?_
    · intro _
      rw [node_setParent_of_ne hap.highTop.symm, node_setChild_of_ne hap.lowTop.symm]
    · rw [RbTree.parent_setParent aligned_zero, if_neg hap.ne, RbTree.parent_setChild]
    · simp
  have htransplant := hheld.rbTransplant_eq hx.ne ha.ne
  have hinner : (raised h k s x a).child s a = addr m := by
    rw [raised, RbTree.child_setParent, child_setHole_of_ne hap.highTop, RbTree.child_setParent,
      RbTree.child_setChild, if_neg fun hc => hap.ne hc.1.symm, ham]
  have hrun : rbRotate s h x = (do
      let b ← deref (raised h k s x a) a ((raised h k s x a).child s a)
      if b ≠ 0 then
        let h ← rbDetach (raised h k s x a) b
        let h ← deref h x ((h.setChild s a x).setParent x a)
        deref h b ((h.setChild s.other x b).setParent b x)
      else deref (raised h k s x a) x (((raised h k s x a).setChild s a x).setParent x a)) := by
    rw [rbRotate, deref_bind hx.ne, hxa, if_neg ha.ne, hdetach]
    show (rbTransplant _ _ _ >>= _) = _
    rw [htransplant]
    rfl
  rw [Yields, hrun, deref_bind ha.ne, hinner]
  by_cases hm : m = .nil
  · have hm0 : addr m = 0 := by rw [hm]; rfl
    rw [if_neg (not_not.mpr hm0), deref_of_ne hx.ne]
    have hrot := hap.rotated_nil (h := h) (s := s) hm
    exact ⟨_, rfl, hrot.key, hrot.located hL⟩
  · have hm0 := (hmin.isNode hm).ne
    have hb : addr m ∈ m.toList := addr_mem hm
    obtain ⟨hbx, hba⟩ := hap.ne_of_inner hb
    have hbnode := raised_node (h := h) (s := s) hbx hba fun hrest => hap.inner.1 hb hrest
    have hbdetach : rbDetach (raised h k s x a) (addr m) =
        .ok (((raised h k s x a).setChild s a 0).setParent (addr m) 0) := by
      apply rbDetach_eq hm0 _ ha.ne hinner
      · rw [(hap.raised_high).1, hau]
        exact addr_ne hm0 fun hmem => hap.inner.2 hb (List.mem_append_right _ hmem)
      · rw [parent_congr hbnode, hmhangs hm]
    rw [if_pos hm0, hbdetach]
    show ∃ h', (deref _ _ _ >>= _) = _ ∧ _
    rw [deref_bind hx.ne, deref_of_ne hm0]
    have hrot := hap.rotated_inner (h := h) (s := s) hb
    exact ⟨_, rfl, hrot.key, hrot.located hL⟩

/-- The child on the near side goes up. -/
theorem Located.rotate_other (hL : Located h k (join s c x (join s d a t m) u)) :
    Yields (rbRotate s.other h x) h k (join s d a t (join s c x m u)) := by
  rw [← join_other (s := s) (t := u), ← join_other (s := s) (t := m)] at hL
  have hrot := hL.rotate
  rwa [join_other, join_other] at hrot

/-- One of two nodes is painted, the other one is above it. -/
theorem Located.paint_below (hL : Located h k (join s c x t u)) (ht : t ≠ .nil) (d : Color) :
    Located (h.setColor (addr t) (code d)) k (join s c x (t.paint d) u) := by
  have hbelow := (located_cons (f := ⟨s, c, x, u⟩)).mpr hL
  exact located_cons.mp (hbelow.paint ht d)

theorem Located.paint_root (hL : Located h k (join s c x t u)) (d : Color) :
    Located (h.setColor x (code d)) k (join s d x t u) := by
  have hroot := hL.paint join_ne_nil d
  rwa [addr_join, paint_join] at hroot

/-- The place of the other child. -/
theorem located_other : Located h k (join s c x t u) ↔ Located h (⟨s.other, c, x, t⟩ :: k) u := by
  rw [located_cons, join_other]

theorem Located.paint_other (hL : Located h k (join s c x t u)) (hu : u ≠ .nil) (d : Color) :
    Located (h.setColor (addr u) (code d)) k (join s c x t (u.paint d)) :=
  located_other.mpr ((located_other.mp hL).paint hu d)

end OmochaOS.Rbtree
