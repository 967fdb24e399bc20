import OmochaOS.Rbtree.RemoveFixup
import OmochaOS.Rbtree.WellFormed

/-!
# Removal
-/

namespace OmochaOS.Rbtree

open RedBlack RedBlack.ColorTree

variable {h g : RbTree} {k k' : List (Frame ℕ)} {f : Frame ℕ} {t u l r w : ColorTree ℕ} {s : Side}
  {c d : Color} {n m x y : ℕ}

theorem located_append : Located h (k ++ k') t ↔ Located h k' (plug k t) := by
  rw [located_plug, plug_append, ← located_plug]

/-! ### A node with one child -/

/-- **The only child takes the place of its parent.** -/
theorem Located.replace_child (hL : Located h k (join s c x u .nil)) (hu : u ≠ .nil) :
    Yields (rbTransplant h x (addr u)) h k u := by
  obtain ⟨haround, hhole, hparent, ⟨hx, -, -, -⟩, ⟨-, huin⟩, -, hnodup⟩ := located_join.mp hL
  simp only [toList, List.append_nil, List.cons_append, List.nodup_cons, List.mem_append, not_or] at hnodup
  obtain ⟨⟨hxu, hxk⟩, hnodup⟩ := hnodup
  obtain ⟨hnodupu, hnodupk, hdis⟩ := List.nodup_append.mp hnodup
  have hne : addr u ≠ 0 := (huin.isNode hu).ne
  have htop := haround.aligned_top
  have hrest : addr u ∉ rest k := fun hmem => hdis _ (addr_mem hu) _ hmem rfl
  have hrun := (haround.held hhole hparent hx.ne hxk).rbTransplant_eq hx.ne hne
  obtain ⟨hset, hhole'⟩ := haround.setHole (v := addr u) hnodupk
  have hcontext : ∀ y ∈ rest k,
      ((setHole h k (addr u)).setParent (addr u) (top k)).node y = (setHole h k (addr u)).node y := by
    intro y hy
    apply node_setParent_of_ne
    rintro rfl
    exact hrest hy
  obtain ⟨hset, hhole''⟩ := hset.congr hcontext RbTree.root_setParent
  refine ⟨_, hrun, by simp, hset, hhole''.trans hhole', fun _ => ?_, ?_, hnodup⟩
  · rw [RbTree.parent_setParent htop, if_pos rfl]
  · refine huin.congr_root hnodupu (fun _ => ⟨fun v => ?_, ?_⟩) fun y hy hyu => ?_
    · rw [RbTree.child_setParent, child_setHole_of_ne (ne_top hne hrest)]
    · rw [RbTree.color_setParent htop, color_setHole]
    · rw [node_setParent_of_ne hyu, node_setHole_of_not_mem fun hmem => hdis _ hy _ hmem rfl]

/-! ### The successor -/

/-- Down the left links. -/
theorem leftmost_spec {fuel : ℕ} (ht : Inside h t) (hne : t ≠ .nil) (hfuel : t.toList.length < fuel) :
    ∃ k c m w, t = plug k (.node c .nil m w) ∧ before k = [] ∧ leftmost fuel h (addr t) = .ok m := by
  obtain ⟨fuel, rfl⟩ : ∃ m, fuel = m + 1 := ⟨fuel - 1, by omega⟩
  induction t generalizing fuel with
  | nil => exact absurd rfl hne
  | node c l x r ihl ihr =>
    obtain ⟨⟨hx, -, hl, -⟩, ⟨-, hlin⟩, -⟩ := ht
    rw [toList, List.length_append, List.length_cons] at hfuel
    rw [leftmost, addr, deref_bind hx.ne, hl]
    by_cases hnil : l = .nil
    · subst hnil
      exact ⟨[], c, x, r, rfl, rfl, by rw [addr, if_pos rfl]; rfl⟩
    · obtain ⟨fuel, rfl⟩ : ∃ m, fuel = m + 1 := ⟨fuel - 1, by omega⟩
      obtain ⟨k, d, m, w, hplug, hbefore, hrun⟩ := ihl hlin hnil fuel (by omega)
      rw [if_neg (hlin.isNode hnil).ne]
      refine ⟨k ++ [⟨.left, c, x, r⟩], d, m, w, ?_, ?_, hrun⟩
      · rw [plug_append, ← hplug]
        rfl
      · rw [before_append, hbefore]
        rfl

/-- `m` can take the place of `n` over `l` and `r`; nothing is said about the parent of `r`. -/
structure Successor (h : RbTree) (k : List (Frame ℕ)) (c : Color) (l r : ColorTree ℕ) (n m : ℕ) : Prop where
  around : Around h k
  hole : hole h k = n
  parent : h.parent n = top k
  node : IsNode n
  color : h.color n = code c
  left : h.child .left n = addr l
  leftInside : Inside h l
  succ : IsNode m
  right : h.child .right m = addr r
  rightInside : Inside h r
  nodup : (m :: (l.toList ++ r.toList) ++ rest k).Nodup
  fresh : n ∉ m :: (l.toList ++ r.toList) ++ rest k

/-- **The successor takes the place, the left subtree and the colour.** -/
theorem Successor.takePlace (hs : Successor h k c l r n m) (hl : l ≠ .nil) (hhangs : Hangs h m r) :
    Yields (rbTakePlace h n m) h k (.node c l m r) := by
  obtain ⟨haround, hhole, hparent, hn, hcolor, hleft, hlin, hm, hright, hrin, hnodup, hfresh⟩ := hs
  have hdis := hnodup
  simp only [List.cons_append, List.mem_cons, List.mem_append, not_or] at hfresh
  obtain ⟨hnm, ⟨hnl, hnr⟩, hnk⟩ := hfresh
  simp only [List.cons_append, List.nodup_cons, List.mem_append, not_or] at hdis
  obtain ⟨⟨⟨hml, hmr⟩, hmk⟩, hlists⟩ := hdis
  obtain ⟨hsub, hnodupk, hlrk⟩ := List.nodup_append.mp hlists
  obtain ⟨hnodupl, -, hlr⟩ := List.nodup_append.mp hsub
  have htop := haround.aligned_top
  have hb := hlin.isNode hl
  have hbmem := addr_mem hl
  have hbm : addr l ≠ m := fun heq => hml (heq ▸ hbmem)
  have hbk : addr l ∉ rest k := fun hmem => hlrk _ (List.mem_append_left _ hbmem) _ hmem rfl
  have hrun := (haround.held hhole hparent hn.ne hnk).rbTransplant_eq hn.ne hm.ne
  have hntop := ne_top hn.ne hnk
  have hmtop := ne_top hm.ne hmk
  have hrun' : rbTakePlace h n m = .ok (((((setHole h k m).setParent m (top k)).setChild .left m
      (addr l)).setParent (addr l) m).setColor m (code c)) := by
    rw [rbTakePlace, hrun]
    have hchild : ((setHole h k m).setParent m (top k)).child .left n = addr l := by
      rw [RbTree.child_setParent, child_setHole_of_ne hntop, hleft]
    have hcolor' : ((((setHole h k m).setParent m (top k)).setChild .left m (addr l)).setParent
        (addr l) m).color n = code c := by
      rw [RbTree.color_setParent hm.aligned, RbTree.color_setChild, RbTree.color_setParent htop,
        color_setHole, hcolor]
    show (deref _ _ _ >>= _) = _
    rw [hchild, RbTree.child_setChild, if_pos ⟨rfl, rfl⟩, deref_bind hb.ne, hcolor']
    rfl
  have hnode : ∀ y, y ≠ m → y ≠ addr l → (((((setHole h k m).setParent m (top k)).setChild .left m
      (addr l)).setParent (addr l) m).setColor m (code c)).node y = (setHole h k m).node y := by
    intro y hym hyl
    rw [node_setColor_of_ne hym, node_setParent_of_ne hyl, node_setChild_of_ne hym,
      node_setParent_of_ne hym]
  have hright' : ∀ y ∈ r.toList, (((((setHole h k m).setParent m (top k)).setChild .left m
      (addr l)).setParent (addr l) m).setColor m (code c)).node y = h.node y := by
    intro y hy
    rw [hnode y (fun heq => hmr (heq ▸ hy)) fun heq => hlr _ hbmem _ hy heq.symm]
    exact node_setHole_of_not_mem fun hmem => hlrk _ (List.mem_append_right _ hy) _ hmem rfl
  obtain ⟨hset, hhole'⟩ := haround.setHole (v := m) hnodupk
  obtain ⟨hset, hhole''⟩ := hset.congr (fun y hy => hnode y (fun heq => hmk (heq ▸ hy))
    fun heq => hbk (heq ▸ hy)) (by simp)
  refine ⟨_, hrun', by simp, located_join (s := .left).mpr ⟨hset, hhole''.trans hhole', ?_,
    ⟨hm, ?_, ?_, ?_⟩, ⟨fun _ => ?_, ?_⟩, ⟨hhangs.congr hright', hrin.congr hright'⟩, hnodup⟩⟩
  · rw [RbTree.parent_setColor, RbTree.parent_setParent hm.aligned, if_neg hbm.symm,
      RbTree.parent_setChild, RbTree.parent_setParent htop, if_pos rfl]
  · rw [RbTree.color_setColor, if_pos rfl]
  · simp
  · simp [Side.other, child_setHole_of_ne hmtop, hright]
  · simp [RbTree.parent_setParent hm.aligned]
  · refine hlin.congr_root hnodupl (fun _ => ⟨fun v => ?_, ?_⟩) fun y hy hyl => ?_
    · simp [hbm, child_setHole_of_ne (ne_top hb.ne hbk)]
    · simp [hbm, RbTree.color_setParent hm.aligned, RbTree.color_setParent htop]
    · rw [hnode y (fun heq => hml (heq ▸ hy)) hyl]
      exact node_setHole_of_not_mem fun hmem => hlrk _ (List.mem_append_left _ hy) _ hmem rfl

/-- The right subtree is told its new parent. -/
theorem Successor.setParent (hs : Successor h k c l r n m) (hr : r ≠ .nil) :
    Successor (h.setParent (addr r) m) k c l r n m ∧ Hangs (h.setParent (addr r) m) m r := by
  obtain ⟨haround, hhole, hparent, hn, hcolor, hleft, hlin, hm, hright, hrin, hnodup, hfresh⟩ := hs
  have hdis := hnodup
  simp only [List.cons_append, List.mem_cons, List.mem_append, not_or] at hfresh
  obtain ⟨hnm, ⟨hnl, hnr⟩, hnk⟩ := hfresh
  simp only [List.cons_append, List.nodup_cons, List.mem_append, not_or] at hdis
  obtain ⟨⟨⟨hml, hmr⟩, hmk⟩, hlists⟩ := hdis
  obtain ⟨hsub, hnodupk, hlrk⟩ := List.nodup_append.mp hlists
  obtain ⟨-, hnodupr, hlr⟩ := List.nodup_append.mp hsub
  have hbmem := addr_mem hr
  have hother : ∀ v : List ℕ, addr r ∉ v → ∀ y ∈ v, (h.setParent (addr r) m).node y = h.node y := by
    intro v hv y hy
    apply node_setParent_of_ne
    rintro rfl
    exact hv hy
  have hbk : addr r ∉ rest k := fun hmem => hlrk _ (List.mem_append_right _ hbmem) _ hmem rfl
  have hbl : addr r ∉ l.toList := fun hmem => hlr _ hmem _ hbmem rfl
  have hbn : n ≠ addr r := fun heq => hnr (heq ▸ hbmem)
  obtain ⟨haround', hhole'⟩ := haround.congr (hother _ hbk) RbTree.root_setParent
  refine ⟨⟨haround', hhole'.trans hhole, ?_, hn, ?_, ?_, hlin.congr (hother _ hbl), hm, ?_, ?_,
    hnodup, by simp [hnm, hnl, hnr, hnk]⟩, fun _ => ?_⟩
  · rw [RbTree.parent_setParent hm.aligned, if_neg hbn, hparent]
  · rw [RbTree.color_setParent hm.aligned, hcolor]
  · rw [RbTree.child_setParent, hleft]
  · rw [RbTree.child_setParent, hright]
  · refine hrin.congr_root hnodupr (fun _ => ⟨fun v => RbTree.child_setParent,
      RbTree.color_setParent hm.aligned⟩) fun y _ hyr => node_setParent_of_ne hyr
  · rw [RbTree.parent_setParent hm.aligned, if_pos rfl]

/-- The successor and the node are apart from everything else. -/
theorem nodup_successor (hperm : t.toList.Perm (m :: r.toList))
    (hnodup : (n :: (l.toList ++ t.toList) ++ rest k).Nodup) :
    (m :: (l.toList ++ r.toList) ++ rest k).Nodup ∧ n ∉ m :: (l.toList ++ r.toList) ++ rest k := by
  have hall : (n :: (l.toList ++ t.toList) ++ rest k).Perm
      (n :: (m :: (l.toList ++ r.toList) ++ rest k)) := by
    refine List.Perm.cons n (List.Perm.append_right _ ?_)
    exact (hperm.append_left _).trans List.perm_middle
  obtain ⟨hfresh, hnodup⟩ := List.nodup_cons.mp (hall.nodup_iff.mp hnodup)
  exact ⟨hnodup, hfresh⟩

/-- **The successor is the right child.** -/
theorem Located.replace_near (hL : Located h k (.node c l n (.node d .nil m w))) (hl : l ≠ .nil) :
    Yields (rbReplace h n m) h k (.node c l m w) := by
  obtain ⟨haround, hhole, hparent, ⟨hn, hcolor, hleft, -⟩, ⟨-, hlin⟩, ⟨hmhangs, hmin⟩, hnodup⟩ :=
    located_join (s := .left).mp hL
  obtain ⟨⟨hm, -, -, hmw⟩, -, hwhangs, hwin⟩ := hmin
  have hmparent : h.parent m = n := hmhangs node_ne_nil
  obtain ⟨hnodup, hfresh⟩ := nodup_successor (List.Perm.refl _) hnodup
  have hs : Successor h k c l w n m :=
    ⟨haround, hhole, hparent, hn, hcolor, hleft, hlin, hm, hmw, hwin, hnodup, hfresh⟩
  have hrun : rbTakeRight h n m =
      if addr w ≠ 0 then pure (h.setParent (addr w) m) else pure h := by
    rw [rbTakeRight, deref_bind hm.ne, hmw, if_pos hmparent]
  rw [rbReplace, hrun]
  by_cases hw : w = .nil
  · have hw0 : addr w = 0 := by rw [hw]; rfl
    rw [if_neg (not_not.mpr hw0)]
    exact hs.takePlace hl hwhangs
  · rw [if_pos (hwin.isNode hw).ne]
    obtain ⟨hs', hhangs⟩ := hs.setParent hw
    exact (hs'.takePlace hl hhangs).of_key RbTree.key_setParent

/-- A successor further down is not a child of the node. -/
theorem Located.far_parent (hL : Located h k (.node c l n (plug (f :: k') (.node d .nil m w)))) :
    h.parent m = f.elem ∧ f.elem ≠ n := by
  have hfocus : Located h (f :: k' ++ ⟨.right, c, n, l⟩ :: k) (.node d .nil m w) :=
    located_append.mpr (located_cons.mpr hL)
  refine ⟨hfocus.hangs node_ne_nil, fun heq => ?_⟩
  have hrest := (List.nodup_append.mp hfocus.nodup).2.1
  rw [List.cons_append, rest, List.nodup_cons, List.mem_append, not_or] at hrest
  have hmem : n ∈ rest (k' ++ ⟨.right, c, n, l⟩ :: k) :=
    elem_mem_rest (List.mem_append_right k' (List.mem_cons_self ..))
  rw [heq] at hrest
  exact hrest.1.2 hmem

/-- **The successor is further down.** -/
theorem Located.replace_far (hL : Located h k (.node c l n (plug (f :: k') (.node d .nil m w))))
    (hl : l ≠ .nil) (hw : w ≠ .nil) : Yields (rbReplace h n m) h k (.node c l m (plug (f :: k') w)) := by
  have hfocus : Located h (f :: k' ++ ⟨.right, c, n, l⟩ :: k) (.node d .nil m w) :=
    located_append.mpr (located_cons.mpr hL)
  have hperm : (plug (f :: k') (.node d .nil m w)).toList.Perm (m :: (plug (f :: k') w).toList) :=
    toList_plug_perm.trans (List.Perm.cons m toList_plug_perm.symm)
  have hnodup := (located_join (s := .left).mp hL).2.2.2.2.2.2
  obtain ⟨hnodup, hfresh⟩ := nodup_successor hperm hnodup
  obtain ⟨hm, -, -, hmw⟩ := hfocus.inside.1
  have hwin := hfocus.inside.2.2.2
  obtain ⟨hmparent, hne⟩ := hL.far_parent
  obtain ⟨h₁, hok, hkey, hL₁⟩ := hfocus.replace_child (s := .right) hw
  have hr : plug (f :: k') w ≠ .nil := plug_ne_nil hw
  obtain ⟨haround, hhole, hparent, ⟨hn, hcolor, hright, hleft⟩, ⟨-, hrin⟩, ⟨-, hlin⟩, -⟩ :=
    located_join.mp (located_cons.mp (located_append.mp hL₁))
  generalize plug (f :: k') w = r at *
  have hdis := hnodup
  simp only [List.cons_append, List.nodup_cons, List.mem_append, not_or] at hdis
  obtain ⟨⟨⟨hml, hmr⟩, hmk⟩, -⟩ := hdis
  have hmn : n ≠ m := fun heq => hfresh (by simp [heq])
  have hother : ∀ v : List ℕ, m ∉ v → ∀ y ∈ v,
      (h₁.setChild .right m (addr r)).node y = h₁.node y := by
    intro v hv y hy
    apply node_setChild_of_ne
    rintro rfl
    exact hv hy
  obtain ⟨haround', hhole'⟩ := haround.congr (hother _ hmk) RbTree.root_setChild
  have hs : Successor (h₁.setChild .right m (addr r)) k c l r n m := by
    refine ⟨haround', hhole'.trans hhole, ?_, hn, ?_, ?_, hlin.congr (hother _ hml), hm, ?_,
      hrin.congr (hother _ hmr), hnodup, hfresh⟩
    · rw [RbTree.parent_setChild, hparent]
    · rw [RbTree.color_setChild, hcolor]
    · rw [RbTree.child_setChild, if_neg fun hc => hmn hc.1]
      exact hleft
    · rw [RbTree.child_setChild, if_pos ⟨rfl, rfl⟩]
  obtain ⟨hs', hhangs⟩ := hs.setParent hr
  have hrun : rbTakeRight h n m =
      .ok ((h₁.setChild .right m (addr r)).setParent (addr r) m) := by
    rw [rbTakeRight, deref_bind hm.ne, hmw, hmparent, if_neg hne, hok]
    show deref _ ((h₁.setChild .right m (h₁.child .right n)).child .right m) _ = _
    rw [show h₁.child .right n = addr r from hright, RbTree.child_setChild, if_pos ⟨rfl, rfl⟩,
      deref_of_ne (hrin.isNode hr).ne]
  rw [rbReplace, hrun]
  exact (hs'.takePlace hl hhangs).of_key (by simp [hkey])

/-! ### The whole function -/

/-- What has to stand where `n` stood, for the rest to be a tree of the other keys. -/
theorem IsTree.removed {h' : RbTree} {t' : ColorTree ℕ} {a b : List ℕ} (ht : IsTree h t)
    (hlist : t.toList = a ++ n :: b) (hL : Located h' [] t') (hlist' : t'.toList = a ++ b)
    (hkey : h'.key = h.key) (hvalid : Valid t') :
    WellFormed h' ∧ keySet h' = keySet h \ {h.key n} := by
  have hordered := ht.ordered
  rw [hlist] at hordered
  have hsub : (a ++ b).Sublist (a ++ n :: b) := List.Sublist.append_left (List.sublist_cons_self n b) a
  have ht' : IsTree h' t' := hL.isTree (by rw [hlist', hkey]; exact hordered.sublist hsub) hvalid
  refine ⟨⟨t', ht'⟩, ?_⟩
  obtain ⟨-, hb, hab⟩ := List.pairwise_append.mp hordered
  obtain ⟨hnb, -⟩ := List.pairwise_cons.mp hb
  have hne : ∀ y ∈ a ++ b, h.key y ≠ h.key n := by
    intro y hy
    rcases List.mem_append.mp hy with hy | hy
    · exact (hab y hy n (List.mem_cons_self ..)).ne
    · exact (hnb y hy).ne'
  ext key
  rw [ht'.mem_keySet, Set.mem_sdiff, ht.mem_keySet, Set.mem_singleton_iff, hlist, hlist', hkey]
  constructor
  · rintro ⟨y, hy, rfl⟩
    exact ⟨⟨y, hsub.subset hy, rfl⟩, hne y hy⟩
  · rintro ⟨⟨y, hy, rfl⟩, hyn⟩
    refine ⟨y, ?_, rfl⟩
    rw [List.mem_append, List.mem_cons] at hy
    rcases hy with hy | rfl | hy
    · exact List.mem_append_left _ hy
    · exact absurd rfl hyn
    · exact List.mem_append_right _ hy

/-- The end of `rb_remove`: a black node is gone. -/
theorem rbRemove_end_black (fuel : ℕ) {e : Except Fault RbTree} {t' : ColorTree ℕ} {p : ℕ}
    (he : Yields e h k t)
    (hfix : ∀ h', Located h' k t → Yields (rbRemoveFixup fuel h' (addr t) p) h' [] t') :
    Yields (e >>= fun h' => if code .black = RB_BLACK then rbRemoveFixup fuel h' (addr t) p else pure h')
      h [] t' := by
  obtain ⟨h₁, rfl, hkey, hL₁⟩ := he
  exact (hfix h₁ hL₁).of_key hkey

theorem rbRemove_end_red (fuel : ℕ) {e : Except Fault RbTree} {p : ℕ} (he : Yields e h k t) :
    Yields (e >>= fun h' => if code .red = RB_BLACK then rbRemoveFixup fuel h' (addr t) p else pure h')
      h [] (plug k t) := by
  obtain ⟨h₁, rfl, hkey, hL₁⟩ := he
  exact Yields.plug ⟨h₁, rfl, hkey, hL₁⟩

/-- Where there is one child, it is a red leaf below a black node. -/
theorem valid_one_child (hvalid : Valid (plug k (join s c n u .nil))) (hu : u ≠ .nil) :
    c = .black ∧ u.rootColor = .red ∧ (Calm k ∧ Fits k 1) ∧ (u.paint .black).NoRedRed ∧ u.Height 0 := by
  obtain ⟨hk, hjoin, -⟩ := calm_of_plug hvalid.noRedRed hvalid.root
  obtain ⟨_, hheight⟩ := hvalid.height
  obtain ⟨m, hheight, hfits⟩ := fits_of_plug hheight
  rw [noRedRed_join] at hjoin
  cases c with
  | red =>
    obtain ⟨hu0, hm⟩ := height_join_red.mp hheight
    obtain rfl : m = 0 := hm
    have := (hjoin.1 rfl).1
    rw [red_of_height_zero hu0 hu] at this
    cases this
  | black =>
    obtain ⟨m', rfl, hu0, hm⟩ := height_join_black.mp hheight
    obtain rfl : m' = 0 := hm
    exact ⟨rfl, red_of_height_zero hu0 hu, ⟨hk, hfits⟩, hjoin.2.1.paint_black, hu0⟩

/-- **A node with one child.** -/
theorem IsTree.remove_one (ht : IsTree h (plug k (join s c n u .nil))) (hu : u ≠ .nil) :
    ∃ h', Returns (fun fuel => rbRemove fuel h n) h' ∧ WellFormed h' ∧
      keySet h' = keySet h \ {h.key n} := by
  obtain ⟨rfl, hred, ⟨hk, hfits⟩, hpaint, hheight⟩ := valid_one_child ht.valid hu
  have hvalid := plug_paint_valid hk hfits hpaint hheight hred
  have hL := located_plug.mpr ht.located
  obtain ⟨hn, hcolor, hchild, hother, huin, -⟩ := hL.children
  have hu0 := (huin.isNode hu).ne
  have hrun : ∀ fuel, rbRemove fuel h n = (rbTransplant h n (addr u) >>= fun h' =>
      if code .black = RB_BLACK then rbRemoveFixup fuel h' (addr u) n else pure h') := by
    intro fuel
    rw [rbRemove, deref_bind hn, hcolor]
    cases s with
    | left =>
      rw [Side.other, addr] at hother
      rw [if_neg (by rw [hchild]; exact hu0), if_pos hother, hchild]
    | right =>
      rw [Side.other, addr] at hother
      rw [if_pos hother, hchild]
  have hend := rbRemove_end_black 1 (p := n) (hL.replace_child hu) fun h' hL' =>
    hL'.removeFixup_red hred (Nat.one_pos)
  rw [← hrun] at hend
  obtain ⟨h', hok, hkey, hL'⟩ := hend
  refine ⟨h', Refines.returns (fun _ _ hle => rbRemove_refines hle h n) hok, ?_⟩
  cases s with
  | left =>
    refine ht.removed (a := before k ++ u.toList) (b := after k) ?_ hL' ?_ hkey hvalid
    · simp [toList_plug, join, toList]
    · simp [toList_plug]
  | right =>
    refine ht.removed (a := before k) (b := u.toList ++ after k) ?_ hL' ?_ hkey hvalid
    · simp [toList_plug, join, toList]
    · simp [toList_plug]

/-- `rb_remove` where there are two children, with the successor `m`. -/
theorem Located.rbRemove_two {fuel : ℕ} (hL : Located h k (.node c l n r)) (hl : l ≠ .nil)
    (hr : r ≠ .nil) (hsucc : rbSucc fuel h n = .ok m) (hm : m ≠ 0) (hcolor : h.color m = code d)
    (hright : h.child .right m = addr w) :
    rbRemove fuel h n = (rbReplace h n m >>= fun h' =>
      if code d = RB_BLACK then rbRemoveFixup fuel h' (addr w) m else pure h') := by
  obtain ⟨hn, -, hln, hrn, hlin, hrin⟩ := Located.children (s := .left) hL
  rw [Side.other] at hrn
  rw [rbRemove, deref_bind hn, if_neg (by rw [hln]; exact (hlin.isNode hl).ne),
    if_neg (by rw [hrn]; exact (hrin.isNode hr).ne), hsucc]
  show (deref _ _ _ >>= _) = _
  rw [deref_bind hm, hcolor, hright]

/-- What the successor leaves when it is the right child. -/
theorem valid_near (hvalid : Valid (plug k (.node c l n (.node d .nil m w)))) :
    Calm (⟨.right, c, m, l⟩ :: k) ∧ w.NoRedRed ∧ (d = .red → w.rootColor = .black) ∧
      ∃ q, w.Height q ∧ Fits (⟨.right, c, m, l⟩ :: k) (d.rise q) := by
  have hplug : plug k (.node c l n (.node d .nil m w)) =
      plug (⟨.right, c, n, l⟩ :: k) (.node d .nil m w) := rfl
  rw [hplug] at hvalid
  obtain ⟨hk, hnode, -⟩ := calm_of_plug hvalid.noRedRed hvalid.root
  obtain ⟨_, hheight⟩ := hvalid.height
  obtain ⟨q, hheight, hfits⟩ := fits_of_plug hheight
  refine ⟨hk, hnode.2.2, fun hd => (hnode.1 hd).2, ?_⟩
  cases d with
  | red => exact ⟨q, hheight.2, hfits⟩
  | black =>
    obtain ⟨q', rfl, -, hw⟩ := hheight
    exact ⟨q', hw, hfits⟩

/-- **The successor is the right child.** -/
theorem IsTree.remove_near (ht : IsTree h (plug k (.node c l n (.node d .nil m w)))) (hl : l ≠ .nil) :
    ∃ h', Returns (fun fuel => rbRemove fuel h n) h' ∧ WellFormed h' ∧
      keySet h' = keySet h \ {h.key n} := by
  have hL := located_plug.mpr ht.located
  have hfocus := located_cons (f := ⟨.right, c, n, l⟩).mpr hL
  obtain ⟨hm, hmcolor, hmleft, hmright⟩ := hfocus.inside.1
  have hsucc : rbSucc (k.length + 3) h n = .ok m := by
    obtain ⟨hn, -, -, hrn, -, -⟩ := Located.children (s := .left) hL
    rw [Side.other, addr] at hrn
    rw [rbSucc, deref_bind hn, hrn, if_pos hm.ne, leftmost, deref_bind hm.ne, hmleft, addr, if_pos rfl]
    rfl
  have hrun := hL.rbRemove_two hl node_ne_nil hsucc hm.ne hmcolor hmright
  have hreplace : Yields (rbReplace h n m) h (⟨.right, c, m, l⟩ :: k) w := by
    obtain ⟨h₁, hok, hkey, hL₁⟩ := hL.replace_near hl
    exact ⟨h₁, hok, hkey, located_cons.mpr hL₁⟩
  obtain ⟨hk, hw, hwroot, q, hq, hfits⟩ := valid_near ht.valid
  have hlist : (plug k (.node c l n (.node d .nil m w))).toList =
      (before k ++ l.toList) ++ n :: (m :: w.toList ++ after k) := by
    simp [toList_plug, toList]
  have hmono : ∀ i j, i ≤ j → Refines (rbRemove i h n) (rbRemove j h n) := fun _ _ hle =>
    rbRemove_refines hle h n
  cases d with
  | red =>
    have hend := rbRemove_end_red (k.length + 3) (p := m) hreplace
    rw [← hrun] at hend
    obtain ⟨h', hok, hkey, hL'⟩ := hend
    refine ⟨h', Refines.returns hmono hok, ht.removed hlist hL' ?_ hkey ?_⟩
    · simp [toList_plug, before, after]
    · apply valid_plug hk hfits hw hq
      intro hred
      rw [hwroot rfl] at hred
      cases hred
  | black =>
    have hend := rbRemove_end_black (k.length + 3) (p := m) hreplace fun h' hL' =>
      hL'.removeFixup hk hfits hw.paint_black hq (by simp)
    rw [← hrun] at hend
    obtain ⟨h', hok, hkey, hL'⟩ := hend
    refine ⟨h', Refines.returns hmono hok, ht.removed hlist hL' ?_ hkey ?_⟩
    · simp [toList_removeFix, before, after]
    · exact removeFix_valid hk hfits hw.paint_black hq

/-- **The successor is further down, and has a right child.** -/
theorem IsTree.remove_far (ht : IsTree h (plug k (.node c l n (plug (f :: k') (.node d .nil m w)))))
    (hl : l ≠ .nil) (hw : w ≠ .nil) (hbefore : before (f :: k') = [])
    (hsucc : Returns (fun fuel => rbSucc fuel h n) m) :
    ∃ h', Returns (fun fuel => rbRemove fuel h n) h' ∧ WellFormed h' ∧
      keySet h' = keySet h \ {h.key n} := by
  have hL := located_plug.mpr ht.located
  have hfocus : Located h (f :: k' ++ ⟨.right, c, n, l⟩ :: k) (.node d .nil m w) :=
    located_append.mpr (located_cons.mpr hL)
  obtain ⟨hm, hmcolor, -, hmright⟩ := hfocus.inside.1
  obtain ⟨bound, hbound⟩ := hsucc
  have hvalid := ht.valid
  have hplug : plug k (.node c l n (plug (f :: k') (.node d .nil m w))) =
      plug (f :: k' ++ ⟨.right, c, n, l⟩ :: k) (.node d .nil m w) := by
    rw [plug_append]
    rfl
  rw [hplug] at hvalid
  obtain ⟨rfl, hred, ⟨hk, hfits⟩, hpaint, hheight⟩ := valid_one_child (s := .right) hvalid hw
  have hrun := hL.rbRemove_two hl (plug_ne_nil node_ne_nil) (hbound (bound + 1) (Nat.le_succ _)) hm.ne hmcolor
    hmright
  have hreplace : Yields (rbReplace h n m) h (f :: k' ++ ⟨.right, c, m, l⟩ :: k) w := by
    obtain ⟨h₁, hok, hkey, hL₁⟩ := hL.replace_far hl hw
    exact ⟨h₁, hok, hkey, located_append.mpr (located_cons.mpr hL₁)⟩
  have hend := rbRemove_end_black (bound + 1) (p := m) hreplace fun h' hL' =>
    hL'.removeFixup_red hred (Nat.succ_pos bound)
  rw [← hrun] at hend
  obtain ⟨h', hok, hkey, hL'⟩ := hend
  refine ⟨h', Refines.returns (fun _ _ hle => rbRemove_refines hle h n) hok,
    ht.removed (a := before k ++ l.toList) (b := m :: (w.toList ++ after (f :: k')) ++ after k)
      ?_ hL' ?_ hkey ?_⟩
  · rw [toList_plug, toList, toList_plug, hbefore]
    simp [toList]
  · rw [plug_append, plug, toList_plug, join, toList, toList_plug, hbefore]
    simp
  · exact plug_paint_valid (calm_fits_congr.1.mp hk) ((calm_fits_congr.2.2 1).mp hfits) hpaint hheight hred

/-! ### When it works -/

/-- `rb_remove` ends without a fault, and only the key of `n` is gone. -/
def RemovesKey (h : RbTree) (n : ℕ) : Prop :=
  ∃ h', Returns (fun fuel => rbRemove fuel h n) h' ∧ WellFormed h' ∧ keySet h' = keySet h \ {h.key n}

/-- The node has one child, or it has two and its successor is its right child or has a right child. -/
def Removable (h : RbTree) (n : ℕ) : Prop :=
  (h.child .left n = 0 ∧ h.child .right n ≠ 0) ∨ (h.child .left n ≠ 0 ∧ h.child .right n = 0) ∨
    (h.child .left n ≠ 0 ∧ h.child .right n ≠ 0 ∧ ∃ r, Returns (fun fuel => rbSucc fuel h n) r ∧
      (r = h.child .right n ∨ h.child .right r ≠ 0))

/-- A leaf is replaced by NULL, whose parent is set. -/
theorem rbRemove_leaf (hnull : h.nullMapped = false) (hleft : h.child .left n = 0) (hright : h.child .right n = 0) (fuel : ℕ) :
    rbRemove fuel h n = .error .null := by
  rw [rbRemove]
  by_cases hn : n = 0
  · rw [hn, deref_null hnull]
    rfl
  · rw [deref_bind hn, if_pos hleft, hright]
    show (rbTransplant h n 0 >>= _) = _
    rw [rbTransplant_null hnull]
    rfl

/-- So is a successor without children. -/
theorem Located.remove_stuck {fuel : ℕ} (hnull : h.nullMapped = false)
    (hL : Located h k (.node c l n (plug (f :: k') (.node d .nil m .nil)))) (hl : l ≠ .nil)
    (hsucc : rbSucc fuel h n = .ok m) : rbRemove fuel h n = .error .null := by
  have hfocus : Located h (f :: k' ++ ⟨.right, c, n, l⟩ :: k) (.node d .nil m .nil) :=
    located_append.mpr (located_cons.mpr hL)
  obtain ⟨hm, hmcolor, -, hmright⟩ := hfocus.inside.1
  obtain ⟨hmparent, hne⟩ := hL.far_parent
  rw [hL.rbRemove_two hl (plug_ne_nil node_ne_nil) hsucc hm.ne hmcolor hmright, rbReplace, rbTakeRight,
    deref_bind hm.ne, hmparent, if_neg hne, hmright, addr, rbTransplant_null hnull]
  rfl

theorem not_removesKey (bound : ℕ) (hfault : ∀ fuel, bound ≤ fuel → rbRemove fuel h n = .error .null) :
    ¬ RemovesKey h n := by
  rintro ⟨h', ⟨bound', hok⟩, -⟩
  have hright : rbRemove (bound + bound') h n = .ok h' := hok _ (Nat.le_add_left ..)
  rw [hfault _ (Nat.le_add_right ..)] at hright
  cases hright

theorem addr_plug_mem (hk : k ≠ []) : addr (plug k t) ∈ rest k := by
  induction k generalizing t with
  | nil => exact absurd rfl hk
  | cons f k ih =>
    rw [plug, rest, List.mem_cons, List.mem_append]
    by_cases hnil : k = []
    · subst hnil
      exact Or.inl addr_join
    · exact Or.inr (Or.inr (ih hnil))

/-- `rb_succ` where there is a right child. -/
theorem Located.rbSucc_returns (hL : Located h k (.node c l n r)) (hr : r ≠ .nil) :
    ∃ k' d m w, r = plug k' (.node d .nil m w) ∧ before k' = [] ∧
      Returns (fun fuel => rbSucc fuel h n) m := by
  obtain ⟨hn, -, -, hright, -, hrin⟩ := Located.children (s := .left) hL
  rw [Side.other] at hright
  obtain ⟨k', d, m, w, hplug, hbefore, hrun⟩ := leftmost_spec hrin hr (Nat.lt_succ_self _)
  have hok : rbSucc (r.toList.length + 1) h n = .ok m := by
    rw [rbSucc, deref_bind hn, hright, if_pos (hrin.isNode hr).ne, hrun]
  exact ⟨k', d, m, w, hplug, hbefore, Refines.returns (fun _ _ hle => rbSucc_refines hle h n) hok⟩

/-- A node that is not the root of a tree is not where the tree begins. -/
theorem ne_addr_plug (hnodup : (plug (f :: k) (.node d u m w)).toList.Nodup) :
    m ≠ addr (plug (f :: k) (.node d u m w)) := by
  intro heq
  have hmem := addr_plug_mem (k := f :: k) (t := .node d u m w) (List.cons_ne_nil f k)
  rw [← heq] at hmem
  have hdis := (List.nodup_append.mp (toList_plug_perm.nodup_iff.mp hnodup)).2.2
  exact hdis m (by simp [toList]) m hmem rfl

/-- **Exactly when `rb_remove` does what it is for**, where following NULL is a fault. -/
theorem rbRemove_correct_iff (hnull : h.nullMapped = false) (hw : WellFormed h) (hn : InTree h n) :
    RemovesKey h n ↔ Removable h n := by
  obtain ⟨t, ht⟩ := hw
  obtain ⟨k, c, l, r, hplug⟩ := exists_plug (ht.inTree_iff.mp hn) []
  rw [show t = plug k (.node c l n r) from hplug] at ht
  have hL := located_plug.mpr ht.located
  obtain ⟨hn0, -, hleft, hright, hlin, hrin⟩ := Located.children (s := .left) hL
  rw [Side.other] at hright
  rw [Removable, hleft, hright]
  by_cases hl : l = .nil
  · by_cases hr : r = .nil
    · subst hl hr
      refine iff_of_false (not_removesKey 0 fun fuel _ => rbRemove_leaf hnull hleft hright fuel) ?_
      simp [addr]
    · subst hl
      exact iff_of_true (IsTree.remove_one (s := .right) ht hr) (Or.inl ⟨rfl, (hrin.isNode hr).ne⟩)
  · by_cases hr : r = .nil
    · subst hr
      exact iff_of_true (IsTree.remove_one (s := .left) ht hl)
        (Or.inr (Or.inl ⟨(hlin.isNode hl).ne, rfl⟩))
    · have hl0 := (hlin.isNode hl).ne
      have hr0 := (hrin.isNode hr).ne
      obtain ⟨kr, d, m, w, rfl, hbefore, hsucc⟩ := hL.rbSucc_returns hr
      cases kr with
      | nil =>
        exact iff_of_true (IsTree.remove_near ht hl)
          (Or.inr (Or.inr ⟨hl0, hr0, m, hsucc, Or.inl rfl⟩))
      | cons f k' =>
        have hfocus : Located h (f :: k' ++ ⟨.right, c, n, l⟩ :: k) (.node d .nil m w) :=
          located_append.mpr (located_cons.mpr hL)
        have hmright := hfocus.inside.1.2.2.2
        have hnodup := (List.nodup_append.mp hL.nodup).1
        rw [toList, List.nodup_append, List.nodup_cons] at hnodup
        have hmr := ne_addr_plug hnodup.2.1.2
        by_cases hw : w = .nil
        · subst hw
          obtain ⟨bound, hbound⟩ := hsucc
          refine iff_of_false (not_removesKey bound fun fuel hfuel => hL.remove_stuck hnull hl (hbound fuel hfuel)) ?_
          rintro (⟨hl', -⟩ | ⟨-, hr'⟩ | ⟨-, -, r, hr', hgood⟩)
          · exact hl0 hl'
          · exact hr0 hr'
          · obtain rfl : r = m := hr'.unique ⟨bound, hbound⟩
            rcases hgood with heq | hne
            · exact hmr heq
            · exact hne hmright
        · have hw0 := (hfocus.inside.2.2.2.isNode hw).ne
          exact iff_of_true (IsTree.remove_far ht hl hw hbefore hsucc)
            (Or.inr (Or.inr ⟨hl0, hr0, m, hsucc, Or.inr (by rw [hmright]; exact hw0)⟩))

/-- A black root with a red child on the right. -/
def twoNodes : RbTree :=
  ⟨fun p => if p = 16 then ⟨1, 0, 0, 32⟩ else if p = 32 then ⟨2, 16 + RB_RED, 0, 0⟩ else ⟨0, 0, 0, 0⟩, 16,
    false⟩

theorem isTree_twoNodes : IsTree twoNodes (.node .black .nil 16 (.node .red .nil 32 .nil)) where
  root := rfl
  hangs := fun _ => rfl
  inside := ⟨⟨⟨by decide, by decide, by decide⟩, rfl, rfl, rfl⟩, ⟨nofun, trivial⟩, fun _ => rfl,
    ⟨⟨by decide, by decide, by decide⟩, rfl, rfl, rfl⟩, ⟨nofun, trivial⟩, nofun, trivial⟩
  ordered := List.pairwise_pair.mpr (by decide)
  valid := ⟨⟨nofun, trivial, fun _ => ⟨rfl, rfl⟩, trivial, trivial⟩, rfl, 1, 0, rfl, rfl, rfl, rfl⟩

theorem rbRemove_correct_iff_root : RemovesKey twoNodes 16 :=
  (rbRemove_correct_iff rfl ⟨_, isTree_twoNodes⟩ (InTree.root (by decide))).mpr
    (Or.inl ⟨rfl, by decide⟩)

/-- A tree of one node. -/
def oneNode : RbTree := ⟨fun _ => ⟨1, 0, 0, 0⟩, 16, false⟩

/-- The only node of a tree cannot be removed. -/
theorem rbRemove_only_node : WellFormed oneNode ∧ InTree oneNode 16 ∧
    ∀ fuel, rbRemove fuel oneNode 16 = .error .null := by
  refine ⟨⟨.node .black .nil 16 .nil, rfl, fun _ => rfl, ?_, List.pairwise_singleton _ _, ?_⟩,
    InTree.root (by decide), rbRemove_leaf rfl rfl rfl⟩
  · exact ⟨⟨⟨by decide, by decide, by decide⟩, rfl, rfl, rfl⟩, ⟨nofun, trivial⟩, nofun, trivial⟩
  · exact ⟨⟨nofun, trivial, trivial⟩, rfl, 1, 0, rfl, rfl, rfl⟩

end OmochaOS.Rbtree
