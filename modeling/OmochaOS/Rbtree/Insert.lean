import OmochaOS.Rbtree.Rotation
import OmochaOS.Rbtree.WellFormed
import OmochaOS.Rbtree.Fuel

/-!
# Insertion
-/

namespace OmochaOS.Rbtree

open RedBlack RedBlack.ColorTree

variable {h h' : RbTree} {k : List (Frame ℕ)} {f g : Frame ℕ} {t u : ColorTree ℕ} {s : Side} {c d : Color}
  {n x : ℕ}

/-- Two frames up: parent and grandparent. -/
theorem Located.two_up (hL : Located h (f :: g :: k) t) :
    Located h k (join g.side g.color g.elem (join f.side f.color f.elem t f.sibling) g.sibling) :=
  located_cons.mp (located_cons.mp hL)

theorem Located.parent_eq (hL : Located h (f :: k) t) (ht : t ≠ .nil) :
    h.parent (addr t) = f.elem ∧ f.elem ≠ 0 ∧ h.color f.elem = code f.color ∧
      h.parent f.elem = top k :=
  ⟨hL.hangs ht, hL.around.1.isNode.ne, hL.around.1.color, hL.around.2.2.1⟩

/-- The brother is the other child, on whatever side. -/
theorem Located.brother (hL : Located h (f :: k) t) (ht : t ≠ .nil) :
    h.child f.side f.elem = addr t ∧ h.child f.side.other f.elem = addr f.sibling ∧
      addr f.sibling ≠ addr t := by
  refine ⟨hL.hole, hL.around.1.child, ?_⟩
  apply addr_ne (hL.inside.isNode ht).ne
  intro hmem
  have hdis := (List.nodup_append.mp hL.nodup).2.2
  exact hdis _ (addr_mem ht) _ (by simp [rest, hmem]) rfl

/-- **The outer grandchild.** -/
theorem Located.rotate_outer (hL : Located h (f :: g :: k) t) (hside : f.side = g.side) :
    Yields (rbInsertRotate g.side h (addr t) f.elem g.elem) h k
      (join g.side .black f.elem t (join g.side .red g.elem f.sibling g.sibling)) := by
  have hchild : h.child g.side f.elem = addr t := by rw [← hside]; exact hL.hole
  rw [rbInsertRotate, if_pos hchild]
  have hpaint := (hL.two_up.paint_below join_ne_nil .black).paint_root .red
  rw [addr_join, paint_join, hside] at hpaint
  obtain ⟨h₁, hok, hkey, hL₁⟩ := hpaint.rotate_other
  exact ⟨h₁, hok, hkey.trans (by simp), hL₁⟩

/-- **The inner grandchild.** -/
theorem Located.rotate_inner (hL : Located h (f :: g :: k) t) (ht : t ≠ .nil) (hf : f.color = .red)
    (hside : f.side ≠ g.side) :
    Yields (rbInsertRotate g.side h (addr t) f.elem g.elem) h k
      (join g.side .black (addr t) (join g.side .red f.elem f.sibling (t.child g.side))
        (join g.side .red g.elem (t.child g.side.other) g.sibling)) := by
  have hside := Side.eq_other_of_ne hside
  obtain ⟨-, hbrother, hne⟩ := hL.brother ht
  rw [hside, Side.other_other] at hbrother
  rw [rbInsertRotate, if_neg (by rw [hbrother]; exact hne)]
  obtain ⟨c, x, hjoin⟩ := exists_join ht g.side
  generalize t.child g.side = m at hjoin
  generalize t.child g.side.other = v at hjoin
  subst hjoin
  have hpaint := (hL.paint join_ne_nil .black).two_up.paint_root .red
  rw [paint_join, addr_join, hside, join_other, hf] at hpaint
  have hbelow := (located_cons (f := ⟨g.side, .red, g.elem, g.sibling⟩)).mpr hpaint
  rw [addr_join]
  have hfirst := hbelow.rotate
  obtain ⟨h₁, hok, hkey, hL₁⟩ := hfirst
  rw [show h.setColor x RB_BLACK = h.setColor x (code .black) from rfl]
  rw [show RB_RED = code .red from rfl, hok]
  obtain ⟨h₂, hok₂, hkey₂, hL₂⟩ := (located_cons.mp hL₁).rotate_other
  exact ⟨h₂, hok₂, hkey₂.trans (hkey.trans (by simp)), hL₂⟩

/-- What `rb_insert_fixup` does below a red parent. -/
theorem Located.insertFixup_red {fuel : ℕ} (hL : Located h (f :: g :: k) t) (ht : t ≠ .nil)
    (hf : f.color ≠ .black) : rbInsertFixup (fuel + 1) h (addr t) =
      if g.sibling.rootColor = .red then
        rbInsertFixup fuel
          (((h.setColor f.elem RB_BLACK).setColor (addr g.sibling) RB_BLACK).setColor g.elem RB_RED) g.elem
      else rbInsertRotate g.side h (addr t) f.elem g.elem := by
  obtain ⟨hparent, hf0, hcolor, hgrand⟩ := hL.parent_eq ht
  have hP := located_cons.mp hL
  have hPne : join f.side f.color f.elem t f.sibling ≠ .nil := join_ne_nil
  obtain ⟨-, hg0, -, -⟩ := hP.parent_eq hPne
  obtain ⟨hchild, hother, hne⟩ := hP.brother hPne
  rw [addr_join] at hchild hne
  have huncle : (addr g.sibling ≠ 0 ∧ h.color (addr g.sibling) = RB_RED) ↔
      g.sibling.rootColor = .red := by
    have hin := hP.around.1.inside
    by_cases hnil : g.sibling = .nil
    · rw [hnil]
      exact ⟨fun hc => absurd rfl hc.1, nofun⟩
    · rw [hin.color_root hnil, code_eq_red]
      exact and_iff_right (hin.isNode hnil).ne
  have hgrand' : h.parent f.elem = g.elem := hgrand
  rw [rbInsertFixup, deref_bind (hL.inside.isNode ht).ne, hparent, if_neg hf0,
    if_neg (by rw [hcolor, code_eq_black]; exact hf), hgrand', deref_bind hg0]
  cases hside : g.side with
  | left =>
    rw [hside] at hchild hother
    rw [Side.other] at hother
    rw [hother, if_neg hne, if_pos hchild]
    simp only [huncle]
  | right =>
    rw [hside] at hchild hother
    rw [Side.other] at hother
    rw [hother, if_pos hchild, if_neg hne]
    simp only [huncle]

/-- **`rb_insert_fixup`** does the repair. -/
theorem Located.insertFixup {fuel : ℕ} (hL : Located h k t) (hk : Calm k) (hred : t.rootColor = .red)
    (hfuel : k.length < fuel) :
    Yields (rbInsertFixup fuel h (addr t)) h [] (insertFix k t) := by
  have ht := ne_nil_of_red hred
  obtain ⟨fuel, rfl⟩ : ∃ m, fuel = m + 1 := ⟨fuel - 1, by omega⟩
  induction k, t using insertFix.induct generalizing h fuel with
  | case1 t =>
    rw [rbInsertFixup, deref_bind (hL.inside.isNode ht).ne, hL.hangs ht, top, if_pos rfl]
    exact ⟨_, rfl, by simp, hL.paint ht .black⟩
  | case2 f t =>
    obtain ⟨hparent, hf, hcolor, -⟩ := hL.parent_eq ht
    have hblack : f.color = .black := by
      cases hc : f.color with
      | black => rfl
      | red => cases (hk.2.1 hc).2
    rw [rbInsertFixup, deref_bind (hL.inside.isNode ht).ne, hparent, if_neg hf,
      if_pos (by rw [hcolor, code_eq_black, hblack]), insertFix]
    exact Yields.plug ⟨h, rfl, rfl, hL⟩
  | case3 f g k t hblack =>
    obtain ⟨hparent, hf, hcolor, -⟩ := hL.parent_eq ht
    rw [rbInsertFixup, deref_bind (hL.inside.isNode ht).ne, hparent, if_neg hf,
      if_pos (by rw [hcolor, code_eq_black, hblack]), insertFix, if_pos hblack]
    exact Yields.plug ⟨h, rfl, rfl, hL⟩
  | case4 f g k t hf hg ih =>
    rw [hL.insertFixup_red ht hf, if_pos hg, insertFix, if_neg hf, if_pos hg]
    have hparent := hL.two_up.paint_below join_ne_nil .black
    rw [addr_join, paint_join] at hparent
    have hgrand := (hparent.paint_other (ne_nil_of_red hg) .black).paint_root .red
    simp only [List.length_cons] at hfuel
    obtain ⟨fuel, rfl⟩ : ∃ m, fuel = m + 1 := ⟨fuel - 1, by omega⟩
    have hrec := ih hgrand hk.2.2.2.2 rootColor_join join_ne_nil fuel (by omega)
    rw [addr_join] at hrec
    exact hrec.of_key (by simp)
  | case5 f g k t hf hg hside =>
    rw [hL.insertFixup_red ht hf, if_neg hg, insertFix, if_neg hf, if_neg hg, if_pos hside]
    exact (hL.rotate_outer hside).plug
  | case6 f g k t hf hg hside =>
    rw [hL.insertFixup_red ht hf, if_neg hg, insertFix, if_neg hf, if_neg hg, if_neg hside]
    have hrot := (hL.rotate_inner ht (color_eq_red hf) hside).plug
    cases t with
    | nil => exact absurd rfl ht
    | node c l x r => exact hrot

/-! ### The descent -/

/-- The place of `key` in the tree that `k` is the context of. -/
structure PlaceOf (h : RbTree) (key : ℕ) (k : List (Frame ℕ)) : Prop where
  below : ∀ y ∈ before k, h.key y < key
  above : ∀ y ∈ after k, key < h.key y

theorem placeOf_nil {key : ℕ} : PlaceOf h key [] :=
  ⟨fun _ hy => absurd hy List.not_mem_nil, fun _ hy => absurd hy List.not_mem_nil⟩

theorem PlaceOf.left {r : ColorTree ℕ} {key : ℕ} (hk : PlaceOf h key k) (hlt : key < h.key x)
    (hr : ∀ y ∈ r.toList, h.key x < h.key y) : PlaceOf h key (⟨.left, c, x, r⟩ :: k) := by
  refine ⟨hk.below, fun y hy => ?_⟩
  simp only [after, List.mem_append, List.mem_cons] at hy
  rcases hy with (rfl | hy) | hy
  · exact hlt
  · exact hlt.trans (hr y hy)
  · exact hk.above y hy

theorem PlaceOf.right {l : ColorTree ℕ} {key : ℕ} (hk : PlaceOf h key k) (hlt : h.key x < key)
    (hl : ∀ y ∈ l.toList, h.key y < h.key x) : PlaceOf h key (⟨.right, c, x, l⟩ :: k) := by
  refine ⟨fun y hy => ?_, hk.above⟩
  simp only [before, List.mem_append, List.mem_singleton] at hy
  rcases hy with (hy | hy) | rfl
  · exact hk.below y hy
  · exact (hl y hy).trans hlt
  · exact hlt

/-- The descent finds the key, or the place of it. -/
theorem rbInsertBst_spec {fuel : ℕ} (ht : Inside h t) (hne : t ≠ .nil)
    (hordered : t.toList.Pairwise fun x y => h.key x < h.key y) (hk : PlaceOf h (h.key n) k)
    (hfuel : t.toList.length < fuel) :
    ((∃ y ∈ t.toList, h.key y = h.key n) ∧ rbInsertBst fuel h n (addr t) = .ok none) ∨
      ∃ k', plug k' .nil = plug k t ∧ PlaceOf h (h.key n) k' ∧
        rbInsertBst fuel h n (addr t) = .ok (some (setHole h k' n, top k')) := by
  obtain ⟨fuel, rfl⟩ : ∃ m, fuel = m + 1 := ⟨fuel - 1, by omega⟩
  induction t generalizing k fuel with
  | nil => exact absurd rfl hne
  | node c l z r ihl ihr =>
    obtain ⟨⟨hz, -, hl, hr⟩, ⟨-, hlin⟩, -, hrin⟩ := ht
    rw [toList, List.length_append, List.length_cons] at hfuel
    obtain ⟨fuel, rfl⟩ : ∃ m, fuel = m + 1 := ⟨fuel - 1, by omega⟩
    rw [toList, List.pairwise_append, List.pairwise_cons] at hordered
    obtain ⟨hlord, ⟨hzr, hrord⟩, hlr⟩ := hordered
    have hlz : ∀ y ∈ l.toList, h.key y < h.key z := fun y hy => hlr y hy z (List.mem_cons_self ..)
    rw [rbInsertBst, addr, if_neg hz.ne]
    by_cases hkey : h.key z = h.key n
    · rw [if_pos hkey]
      exact Or.inl ⟨⟨z, by simp [toList], hkey⟩, rfl⟩
    · rw [if_neg hkey]
      by_cases hlt : h.key n < h.key z
      · have hk' := hk.left (c := c) hlt hzr
        rw [if_pos hlt, hl]
        by_cases hnil : l = .nil
        · subst hnil
          rw [addr, if_pos rfl]
          exact Or.inr ⟨⟨.left, c, z, r⟩ :: k, rfl, hk', rfl⟩
        · rw [if_neg (hlin.isNode hnil).ne]
          rcases ihl hlin hnil hlord hk' fuel (by omega) with ⟨⟨y, hy, hyk⟩, hrun⟩ | hplace
          · exact Or.inl ⟨⟨y, by simp [toList, hy], hyk⟩, hrun⟩
          · exact Or.inr hplace
      · have hk' := hk.right (c := c) (by omega) hlz
        rw [if_neg hlt, hr]
        by_cases hnil : r = .nil
        · subst hnil
          rw [addr, if_pos rfl]
          exact Or.inr ⟨⟨.right, c, z, l⟩ :: k, rfl, hk', rfl⟩
        · rw [if_neg (hrin.isNode hnil).ne]
          rcases ihr hrin hnil hrord hk' fuel (by omega) with ⟨⟨y, hy, hyk⟩, hrun⟩ | hplace
          · exact Or.inl ⟨⟨y, by simp [toList, hy], hyk⟩, hrun⟩
          · exact Or.inr hplace

/-! ### The whole function -/

/-- A node that can be inserted: it is nowhere in the tree and has no children. -/
structure Detached (h : RbTree) (n : ℕ) : Prop where
  isNode : IsNode n
  fresh : ¬ InTree h n
  left : h.child .left n = 0
  right : h.child .right n = 0

/-- The new node is a red leaf in the hole. -/
theorem located_leaf (haround : Around h k) (hrest : n ∉ rest k) (hnodup : (rest k).Nodup)
    (hn : IsNode n) (hcolor : h.color n = code .red) (hleft : h.child .left n = 0)
    (hright : h.child .right n = 0) :
    Located ((setHole h k n).setParent n (top k)) k (.node .red .nil n .nil) := by
  have htop := haround.aligned_top
  have hntop := ne_top hn.ne hrest
  obtain ⟨hset, hhole⟩ := haround.setHole (v := n) hnodup
  have hrest' : ∀ y ∈ rest k, ((setHole h k n).setParent n (top k)).node y = (setHole h k n).node y := by
    intro y hy
    apply node_setParent_of_ne
    rintro rfl
    exact hrest hy
  obtain ⟨hset, hhole'⟩ := hset.congr hrest' RbTree.root_setParent
  refine ⟨hset, hhole'.trans hhole, fun _ => ?_, ⟨⟨hn, ?_, ?_, ?_⟩, ⟨nofun, trivial⟩, nofun, trivial⟩, ?_⟩
  · rw [addr, RbTree.parent_setParent htop, if_pos rfl]
  · rw [RbTree.color_setParent htop, color_setHole, hcolor]
  · rw [RbTree.child_setParent, child_setHole_of_ne hntop, hleft, addr]
  · rw [RbTree.child_setParent, child_setHole_of_ne hntop, hright, addr]
  · exact List.nodup_cons.mpr ⟨hrest, hnodup⟩

/-- The tree with the new node in its place, after the repair. -/
theorem rbInsertEnd_spec {fuel : ℕ} (hL : Located h [] (plug k .nil))
    (hordered : (plug k .nil).toList.Pairwise fun x y => h.key x < h.key y) (hvalid : Valid (plug k .nil))
    (hk : PlaceOf h (h.key n) k) (hn : IsNode n) (hfresh : n ∉ (plug k .nil).toList)
    (hcolor : h.color n = code .red) (hleft : h.child .left n = 0) (hright : h.child .right n = 0)
    (hfuel : (plug k .nil).toList.length < fuel) :
    ∃ h', rbInsertEnd fuel (setHole h k n) n (top k) = .ok (h', 0) ∧ h'.key = h.key ∧
      IsTree h' (insertFix k (.node .red .nil n .nil)) := by
  have hperm : (plug k .nil).toList.Perm (rest k) := toList_plug_perm
  have hrest : n ∉ rest k := fun hmem => hfresh (hperm.mem_iff.mpr hmem)
  obtain ⟨hcalm, -, -⟩ := calm_of_plug hvalid.noRedRed hvalid.root
  obtain ⟨m, hheight⟩ := hvalid.height
  obtain ⟨m, hm, hfits⟩ := fits_of_plug hheight
  have hlk := located_plug.mpr hL
  have hleaf := located_leaf hlk.around hrest hlk.nodup hn hcolor hleft hright
  have hlength : k.length < fuel := by
    have := length_le_rest (k := k)
    rw [hperm.length_eq] at hfuel
    omega
  obtain ⟨h₁, hok, hkey, hL₁⟩ := hleaf.insertFixup hcalm rfl hlength
  have hvalid' : Valid (insertFix k (.node .red .nil n .nil)) :=
    insertFix_valid hcalm hfits ⟨fun _ => ⟨rfl, rfl⟩, trivial, trivial⟩ ⟨hm, hm⟩ rfl
  have hlist : (insertFix k (.node .red .nil n .nil)).toList = before k ++ n :: after k := by
    rw [toList_insertFix]
    simp [toList]
  have hnonempty : insertFix k (.node .red .nil n .nil) ≠ .nil := by
    intro hnil
    rw [hnil] at hlist
    simp [toList] at hlist
  have hroot : h₁.root = addr (insertFix k (.node .red .nil n .nil)) := hL₁.hole
  have hfinal := hL₁.paint hnonempty .black
  rw [paint_black_of_black hvalid'.root] at hfinal
  refine ⟨h₁.setColor h₁.root RB_BLACK, ?_, ?_, ?_⟩
  · rw [addr] at hok
    rw [rbInsertEnd, deref_bind hn.ne, hok]
    show (deref _ _ _ >>= _) = _
    rw [deref_bind (by rw [hroot]; exact (hL₁.inside.isNode hnonempty).ne)]
    rfl
  · rw [RbTree.key_setColor, hkey, RbTree.key_setParent, key_setHole]
  · rw [hroot]
    refine hfinal.isTree ?_ hvalid'
    rw [RbTree.key_setColor, hkey, RbTree.key_setParent, key_setHole, hlist]
    rw [toList_plug] at hordered
    simp only [toList, List.append_nil] at hordered
    obtain ⟨hbefore, hafter, hboth⟩ := List.pairwise_append.mp hordered
    refine List.pairwise_append.mpr ⟨hbefore, List.pairwise_cons.mpr ⟨hk.above, hafter⟩, ?_⟩
    intro y hy z hz
    rcases List.mem_cons.mp hz with rfl | hz
    · exact hk.below y hy
    · exact hboth y hy z hz

/-- **`rb_insert`** on the tree `t`. -/
theorem rbInsert_spec {fuel : ℕ} (ht : IsTree h t) (hn : Detached h n) (hfuel : t.toList.length < fuel) :
    (h.key n ∉ keySet h ∧ ∃ h' t', rbInsert fuel h n = .ok (h', 0) ∧ h'.key = h.key ∧ IsTree h' t' ∧
      ∀ y, y ∈ t'.toList ↔ y ∈ t.toList ∨ y = n) ∨
    (h.key n ∈ keySet h ∧ rbInsert fuel h n = .ok (h.setColor n RB_RED, 1)) := by
  have hfresh : n ∉ t.toList := fun hmem => hn.fresh (ht.inTree_iff.mpr hmem)
  have ht' : IsTree (h.setColor n RB_RED) t := by
    refine ht.congr (fun y hy => ?_) RbTree.root_setColor
    apply node_setColor_of_ne
    rintro rfl
    exact hfresh hy
  have hkey : (h.setColor n RB_RED).key = h.key := RbTree.key_setColor
  have hcolor : (h.setColor n RB_RED).color n = code .red := by
    rw [show RB_RED = code .red from rfl, RbTree.color_setColor, if_pos rfl]
  have hleft : (h.setColor n RB_RED).child .left n = 0 := by rw [RbTree.child_setColor, hn.left]
  have hright : (h.setColor n RB_RED).child .right n = 0 := by rw [RbTree.child_setColor, hn.right]
  -- what the end of the function makes of a place in the tree
  have hplace : ∀ k, plug k .nil = t → PlaceOf (h.setColor n RB_RED) (h.key n) k →
      (rbInsert fuel h n = rbInsertEnd fuel (setHole (h.setColor n RB_RED) k n) n (top k)) →
      h.key n ∉ keySet h ∧ ∃ h' t', rbInsert fuel h n = .ok (h', 0) ∧ h'.key = h.key ∧ IsTree h' t' ∧
        ∀ y, y ∈ t'.toList ↔ y ∈ t.toList ∨ y = n := by
    intro k hplug hk hrun
    subst hplug
    have hmem : ∀ y, y ∈ (plug k .nil).toList ↔ y ∈ before k ∨ y ∈ after k := by
      intro y
      rw [toList_plug]
      simp [toList]
    obtain ⟨h', hok, hkey', htree⟩ := rbInsertEnd_spec ht'.located ht'.ordered ht'.valid
      (by rw [hkey]; exact hk) hn.isNode hfresh hcolor hleft hright hfuel
    refine ⟨?_, h', _, hrun.trans hok, hkey'.trans hkey, htree, fun y => ?_⟩
    · rw [ht.mem_keySet]
      rintro ⟨y, hy, heq⟩
      rcases (hmem y).mp hy with hy | hy
      · have := hk.below y hy
        rw [hkey] at this
        omega
      · have := hk.above y hy
        rw [hkey] at this
        omega
    · rw [toList_insertFix, hmem]
      simp only [toList, List.mem_append, List.mem_cons, List.nil_append, List.not_mem_nil, or_false]
      tauto
  by_cases hnil : t = .nil
  · left
    subst hnil
    refine hplace [] rfl placeOf_nil ?_
    have hroot : (h.setColor n RB_RED).root = 0 := ht'.root
    rw [rbInsert, deref_bind hn.isNode.ne, if_pos hroot]
    rfl
  · have hroot : (h.setColor n RB_RED).root = addr t := ht'.root
    have hne : addr t ≠ 0 := (ht.inside.isNode hnil).ne
    have hbst := rbInsertBst_spec (k := []) (n := n) ht'.inside hnil ht'.ordered placeOf_nil
      hfuel
    rw [rbInsert, deref_bind hn.isNode.ne, hroot, if_neg hne]
    rcases hbst with ⟨⟨y, hy, heq⟩, hrun⟩ | ⟨k, hplug, hk, hrun⟩
    · right
      rw [hkey] at heq
      refine ⟨ht.mem_keySet.mpr ⟨y, hy, heq⟩, ?_⟩
      rw [hrun]
      rfl
    · left
      rw [hkey] at hk
      have := hplace k hplug hk
      rw [rbInsert, deref_bind hn.isNode.ne, hroot, if_neg hne, hrun] at this
      rw [hrun]
      exact this rfl

/-- **`rb_insert`** either puts the node into the tree or leaves the tree alone. -/
theorem rbInsert_returns (hw : WellFormed h) (hn : Detached h n) :
    (h.key n ∉ keySet h ∧ ∃ h', Returns (fun fuel => rbInsert fuel h n) (h', 0) ∧ WellFormed h' ∧
      keySet h' = insert (h.key n) (keySet h)) ∨
    (h.key n ∈ keySet h ∧ ∃ h', Returns (fun fuel => rbInsert fuel h n) (h', 1) ∧ h'.root = h.root ∧
      ∀ y, InTree h y → h'.node y = h.node y) := by
  obtain ⟨t, ht⟩ := hw
  have hmono : ∀ m n', m ≤ n' → Refines (rbInsert m h n) (rbInsert n' h n) := fun _ _ hle =>
    rbInsert_refines hle h n
  rcases rbInsert_spec ht hn (Nat.lt_succ_self _) with ⟨hkey, h', t', hok, hkeys, ht', hmem⟩ | ⟨hkey, hok⟩
  · refine Or.inl ⟨hkey, h', Refines.returns hmono hok, ⟨t', ht'⟩, ?_⟩
    ext key
    rw [ht'.mem_keySet, Set.mem_insert_iff, ht.mem_keySet, hkeys]
    constructor
    · rintro ⟨y, hy, hyk⟩
      rcases (hmem y).mp hy with hy | rfl
      · exact Or.inr ⟨y, hy, hyk⟩
      · exact Or.inl hyk.symm
    · rintro (rfl | ⟨y, hy, hyk⟩)
      · exact ⟨n, (hmem n).mpr (Or.inr rfl), rfl⟩
      · exact ⟨y, (hmem y).mpr (Or.inl hy), hyk⟩
  · refine Or.inr ⟨hkey, h.setColor n RB_RED, Refines.returns hmono hok, rfl, fun y hy => ?_⟩
    apply node_setColor_of_ne
    rintro rfl
    exact hn.fresh hy

/-! ### Runs -/

/-- Insertions one after another, and the keys of the nodes that were given to them.  Between two of
them anything may happen to memory outside of the tree. -/
inductive Insertions : RbTree → List ℕ → Prop
  | empty {h : RbTree} (hroot : h.root = 0) : Insertions h []
  | elsewhere {h h' : RbTree} {keys : List ℕ} (run : Insertions h keys) (hroot : h'.root = h.root)
      (hnode : ∀ y, InTree h y → h'.node y = h.node y) : Insertions h' keys
  | insert {h h' : RbTree} {keys : List ℕ} {n result : ℕ} (run : Insertions h keys)
      (hn : Detached h n) (hok : Returns (fun fuel => rbInsert fuel h n) (h', result)) :
      Insertions h' (h.key n :: keys)

/-- Memory outside of the tree does not matter. -/
theorem WellFormed.elsewhere (hw : WellFormed h) (hroot : h'.root = h.root)
    (hnode : ∀ y, InTree h y → h'.node y = h.node y) : WellFormed h' ∧ keySet h' = keySet h := by
  obtain ⟨t, ht⟩ := hw
  have hnode' : ∀ y ∈ t.toList, h'.node y = h.node y := fun y hy => hnode y (ht.inTree_iff.mpr hy)
  have ht' := ht.congr hnode' hroot
  refine ⟨⟨t, ht'⟩, ?_⟩
  ext key
  rw [ht'.mem_keySet, ht.mem_keySet]
  constructor
  · rintro ⟨y, hy, hyk⟩
    exact ⟨y, hy, (key_congr (hnode' y hy)).symm.trans hyk⟩
  · rintro ⟨y, hy, hyk⟩
    exact ⟨y, hy, (key_congr (hnode' y hy)).trans hyk⟩

theorem wellFormed_empty (hroot : h.root = 0) : WellFormed h ∧ keySet h = ∅ := by
  have ht : IsTree h .nil := ⟨hroot, nofun, trivial, List.Pairwise.nil, trivial, rfl, 0, rfl⟩
  refine ⟨⟨_, ht⟩, ?_⟩
  ext key
  rw [ht.mem_keySet]
  simp [toList]

/-- The tree is well formed all along, and has the keys that were inserted. -/
theorem Insertions.wellFormed {keys : List ℕ} (run : Insertions h keys) :
    WellFormed h ∧ keySet h = {key | key ∈ keys} := by
  induction run with
  | empty hroot =>
    obtain ⟨hw, hkeys⟩ := wellFormed_empty hroot
    exact ⟨hw, hkeys.trans (by simp)⟩
  | elsewhere _ hroot hnode ih =>
    obtain ⟨hw, hkeys⟩ := ih.1.elsewhere hroot hnode
    exact ⟨hw, hkeys.trans ih.2⟩
  | @insert h h' keys n result _ hn hok ih =>
    obtain ⟨hw, hkeys⟩ := ih
    rcases rbInsert_returns hw hn with ⟨-, h₁, hok₁, hw₁, hkeys₁⟩ | ⟨hmem, h₁, hok₁, hroot₁, hnode₁⟩
    · obtain rfl : h' = h₁ := congrArg Prod.fst (hok.unique hok₁)
      refine ⟨hw₁, ?_⟩
      rw [hkeys₁, hkeys]
      ext key
      simp
    · obtain rfl : h' = h₁ := congrArg Prod.fst (hok.unique hok₁)
      obtain ⟨hw₁, hkeys₁⟩ := hw.elsewhere hroot₁ hnode₁
      refine ⟨hw₁, ?_⟩
      rw [hkeys₁, hkeys]
      rw [hkeys] at hmem
      ext key
      simp only [Set.mem_ofPred_eq, List.mem_cons]
      constructor
      · exact Or.inr
      · rintro (rfl | hkey)
        · exact hmem
        · exact hkey

/-- **`rb_search`** in a well-formed tree. -/
theorem rbSearch_returns (hw : WellFormed h) (key : ℕ) :
    ∃ p, Returns (fun fuel => rbSearch fuel h h.root key) p ∧ (p ≠ 0 ↔ key ∈ keySet h) ∧
      (p ≠ 0 → InTree h p ∧ h.key p = key) := by
  obtain ⟨t, ht⟩ := hw
  have hmono : ∀ m n, m ≤ n → Refines (rbSearch m h h.root key) (rbSearch n h h.root key) :=
    fun _ _ hle => rbSearch_refines hle h h.root key
  rw [ht.mem_keySet]
  rcases rbSearch_spec key ht.inside ht.ordered (Nat.lt_succ_self _) with
    ⟨x, hx, hxk, hok⟩ | ⟨hnone, hok⟩
  · rw [← ht.root] at hok
    have hx0 : x ≠ 0 := (ht.inside.isNode_mem hx).ne
    exact ⟨x, Refines.returns hmono hok, ⟨fun _ => ⟨x, hx, hxk⟩, fun _ => hx0⟩,
      fun _ => ⟨ht.inTree_iff.mpr hx, hxk⟩⟩
  · rw [← ht.root] at hok
    refine ⟨0, Refines.returns hmono hok, ⟨fun hne => absurd rfl hne, ?_⟩, fun hne => absurd rfl hne⟩
    rintro ⟨x, hx, hxk⟩
    exact absurd hxk (hnone x hx)

/-- **Insertion into red-black trees.**  An absent key is added and the tree stays well formed; a
present one changes nothing; from the empty tree on, the search finds what was inserted. -/
theorem rbInsert_correct :
    (∀ h n, WellFormed h → Detached h n →
      (h.key n ∉ keySet h → ∃ h', Returns (fun fuel => rbInsert fuel h n) (h', 0) ∧ WellFormed h' ∧
        keySet h' = insert (h.key n) (keySet h)) ∧
      (h.key n ∈ keySet h → ∃ h', Returns (fun fuel => rbInsert fuel h n) (h', 1) ∧
        h'.root = h.root ∧ ∀ y, InTree h y → h'.node y = h.node y)) ∧
    ∀ h keys, Insertions h keys → ∀ key, ∃ p, Returns (fun fuel => rbSearch fuel h h.root key) p ∧
      (p ≠ 0 ↔ key ∈ keys) ∧ (p ≠ 0 → InTree h p ∧ h.key p = key) := by
  refine ⟨fun h n hw hn => ?_, fun h keys run key => ?_⟩
  · rcases rbInsert_returns hw hn with ⟨hkey, hres⟩ | ⟨hkey, hres⟩
    · exact ⟨fun _ => hres, fun hmem => absurd hmem hkey⟩
    · exact ⟨fun habsent => absurd hkey habsent, fun _ => hres⟩
  · obtain ⟨hw, hkeys⟩ := run.wellFormed
    obtain ⟨p, hret, hmem, hp⟩ := rbSearch_returns hw key
    rw [hkeys] at hmem
    exact ⟨p, hret, hmem, hp⟩

/-- Memory in which every node has its address for a key, and an empty tree. -/
def blankTree : RbTree := ⟨fun p => ⟨p, 0, 0, 0⟩, 0, false⟩

/-- Seven nodes, and one to insert at 128: its parent and the brother of that are red, and so is the parent of
the node that is red after them, on the other side. -/
def sevenNodes : RbTree :=
  ⟨fun p => ([⟨0, 0, 0, 0⟩, ⟨40, 0, 32, 80⟩, ⟨20, 16 + RB_RED, 48, 64⟩, ⟨10, 32, 0, 0⟩, ⟨30, 32, 96, 112⟩,
    ⟨50, 16, 0, 0⟩, ⟨25, 64 + RB_RED, 0, 0⟩, ⟨35, 64 + RB_RED, 0, 0⟩, ⟨22, 0, 0, 0⟩][p / 16]?).getD ⟨0, 0, 0, 0⟩,
    16, false⟩

def sevenShape : ColorTree ℕ :=
  .node .black
    (.node .red (.node .black .nil 48 .nil) 32
      (.node .black (.node .red .nil 96 .nil) 64 (.node .red .nil 112 .nil)))
    16 (.node .black .nil 80 .nil)

theorem isTree_sevenNodes : IsTree sevenNodes sevenShape where
  root := rfl
  hangs := fun _ => rfl
  inside := by
    have hnode : ∀ x ∈ [16, 32, 48, 64, 80, 96, 112], x ≠ 0 ∧ x % 16 = 0 ∧ x < 2 ^ 32 := by decide
    have hleaf : ∀ {c x}, x ∈ [16, 32, 48, 64, 80, 96, 112] → sevenNodes.color x = code c →
        sevenNodes.child .left x = 0 → sevenNodes.child .right x = 0 →
        Inside sevenNodes (.node c .nil x .nil) := fun hx hc hl hr =>
      ⟨⟨⟨(hnode _ hx).1, (hnode _ hx).2.1, (hnode _ hx).2.2⟩, hc, hl, hr⟩, ⟨nofun, trivial⟩, nofun, trivial⟩
    have hfork : ∀ {c l x r}, x ∈ [16, 32, 48, 64, 80, 96, 112] → sevenNodes.color x = code c →
        sevenNodes.child .left x = addr l → sevenNodes.child .right x = addr r →
        sevenNodes.parent (addr l) = x → sevenNodes.parent (addr r) = x →
        Inside sevenNodes l → Inside sevenNodes r → Inside sevenNodes (.node c l x r) :=
      fun hx hc hl hr hpl hpr hil hir =>
        ⟨⟨⟨(hnode _ hx).1, (hnode _ hx).2.1, (hnode _ hx).2.2⟩, hc, hl, hr⟩, ⟨fun _ => hpl, hil⟩,
          fun _ => hpr, hir⟩
    have h64 := hfork (c := .black) (x := 64) (by decide) rfl rfl rfl rfl rfl
      (hleaf (c := .red) (x := 96) (by decide) rfl rfl rfl)
      (hleaf (c := .red) (x := 112) (by decide) rfl rfl rfl)
    have h32 := hfork (c := .red) (x := 32) (by decide) rfl rfl rfl rfl rfl
      (hleaf (c := .black) (x := 48) (by decide) rfl rfl rfl) h64
    exact hfork (by decide) rfl rfl rfl rfl rfl h32 (hleaf (by decide) rfl rfl rfl)
  ordered := by
    show [48, 32, 96, 64, 112, 16, 80].Pairwise _
    decide +kernel
  valid := by
    refine ⟨?_, rfl, 2, ?_⟩
    · simp [sevenShape, ColorTree.NoRedRed, ColorTree.rootColor]
    · simp [sevenShape, ColorTree.Height]

/-- An insertion that recolours and then rotates twice, and a search after the first insertion of all. -/
theorem rbInsert_correct_seven :
    (∃ h', Returns (fun fuel => rbInsert fuel sevenNodes 128) (h', 0) ∧ WellFormed h' ∧
      keySet h' = insert 22 (keySet sevenNodes)) ∧
    ∃ h' p, Returns (fun fuel => rbInsert fuel blankTree 16) (h', 0) ∧
      Returns (fun fuel => rbSearch fuel h' h'.root 16) p ∧ p ≠ 0 := by
  have hmem : ∀ {x}, InTree sevenNodes x ↔ x ∈ [48, 32, 96, 64, 112, 16, 80] := isTree_sevenNodes.inTree_iff
  have hseven : Detached sevenNodes 128 := by
    refine ⟨⟨by decide, rfl, by decide⟩, fun hin => ?_, rfl, rfl⟩
    exact absurd (hmem.mp hin) (by decide)
  have hkey : sevenNodes.key 128 ∉ keySet sevenNodes := by
    rintro ⟨x, hx, hxk⟩
    have hne : ∀ x ∈ [48, 32, 96, 64, 112, 16, 80], sevenNodes.key x ≠ 22 := by decide
    exact hne x (hmem.mp hx) hxk
  obtain ⟨hw, hkeys⟩ := wellFormed_empty (h := blankTree) rfl
  have hn : Detached blankTree 16 := by
    refine ⟨⟨by decide, rfl, by decide⟩, fun hin => ?_, rfl, rfl⟩
    have hkey : 16 ∈ keySet blankTree := ⟨16, hin, rfl⟩
    rw [hkeys] at hkey
    exact hkey
  have habsent : blankTree.key 16 ∉ keySet blankTree := by
    rw [hkeys]
    exact fun hin => hin
  obtain ⟨h', hok, -, -⟩ := (rbInsert_correct.1 blankTree 16 hw hn).1 habsent
  obtain ⟨p, hret, hfound, -⟩ := rbInsert_correct.2 h' [16] (.insert (.empty rfl) hn hok) 16
  exact ⟨(rbInsert_correct.1 sevenNodes 128 ⟨_, isTree_sevenNodes⟩ hseven).1 hkey,
    h', p, hok, hret, hfound.mpr (List.mem_singleton.mpr rfl)⟩

-- The parent of the two red nodes is the new root.
example : (do
    let (h, _) ← rbInsert 4 sevenNodes 128
    pure (h.root, h.child .left h.root, h.child .right h.root)) = .ok (64, 32, 16) := by decide +kernel

-- Three nodes in ascending order: the middle one goes up.
example : (do
    let (h₁, _) ← rbInsert 4 blankTree 16
    let (h₂, _) ← rbInsert 4 h₁ 32
    let (h₃, _) ← rbInsert 4 h₂ 48
    pure h₃.root) = .ok 32 := by decide +kernel

end OmochaOS.Rbtree
