import OmochaOS.Rbtree.Rotation
import OmochaOS.Rbtree.Fuel

/-!
# The repair after a removal
-/

namespace OmochaOS.Rbtree

open RedBlack RedBlack.ColorTree

variable {h h' : RbTree} {k : List (Frame ℕ)} {f : Frame ℕ} {t u near far inner outer : ColorTree ℕ}
  {s : Side} {c d : Color} {n x y z : ℕ}

/-- What stands below a node. -/
theorem Located.children (hL : Located h k (join s c x t u)) : x ≠ 0 ∧ h.color x = code c ∧
    h.child s x = addr t ∧ h.child s.other x = addr u ∧ Inside h t ∧ Inside h u := by
  obtain ⟨⟨hx, hc, ht, hu⟩, ⟨-, htin⟩, -, huin⟩ := inside_join.mp hL.inside
  exact ⟨hx.ne, hc, ht, hu, htin, huin⟩

/-- **The far nephew takes the place of its parent.** -/
theorem Located.farNephew (hL : Located h k (join s c x t (join s d y near far))) (hfar : far ≠ .nil) :
    Yields (rbFarNephew s h x) h k (join s c y (join s .black x t near) (far.paint .black)) := by
  obtain ⟨hx, hcolor, -, hother, -, hin⟩ := hL.children
  obtain ⟨⟨hy, -, -, -⟩, -, -, hfarin⟩ := inside_join.mp hin
  rw [addr_join] at hother
  have hpaint := (hL.paint_other join_ne_nil c).paint_root .black
  rw [addr_join, paint_join] at hpaint
  obtain ⟨-, -, -, hfar', -, -⟩ := (located_other.mp hpaint).children
  have hall := located_other.mpr ((located_other.mp hpaint).paint_other hfar .black)
  rw [rbFarNephew, hother, hcolor, deref_bind hy.ne]
  simp only [show RB_BLACK = code .black from rfl]
  rw [hfar', deref_bind (hfarin.isNode hfar).ne]
  exact hall.rotate.of_key (by simp)

/-- Where the far nephew is red, nothing is done. -/
theorem Located.nearNephew_far (hL : Located h k (join s c x t (join s d y near far)))
    (hfar : far.rootColor = .red) : rbNearNephew s h x = .ok h := by
  obtain ⟨-, -, -, hother, -, -⟩ := hL.children
  obtain ⟨-, -, -, hfar', -, hfarin⟩ := (located_other.mp hL).children
  rw [addr_join] at hother
  rw [rbNearNephew, hother, hfar', if_neg]
  · rfl
  · rw [hfarin.blackOrNull, hfar]
    exact nofun

/-- **The near nephew goes up.** -/
theorem Located.nearNephew_near
    (hL : Located h k (join s c x t (join s d y (join s .red z inner outer) far)))
    (hfar : far.rootColor = .black) :
    Yields (rbNearNephew s h x) h k (join s c x t (join s .black z inner (join s .red y outer far))) := by
  obtain ⟨-, -, -, hother, -, -⟩ := hL.children
  obtain ⟨-, -, hnear, hfar', hin, hfarin⟩ := (located_other.mp hL).children
  rw [addr_join] at hother hnear
  have hz := (inside_join.mp hin).1.1
  have hpaint := ((located_other.mp hL).paint_below join_ne_nil .black).paint_root .red
  rw [addr_join, paint_join] at hpaint
  rw [rbNearNephew, hother, hfar', if_pos (hfarin.blackOrNull.mpr hfar)]
  simp only [hnear]
  rw [deref_bind hz.ne]
  obtain ⟨h₁, hok, hkey, hL₁⟩ := hpaint.rotate_other
  exact ⟨h₁, hok, hkey.trans (by simp), located_other.mpr hL₁⟩

theorem Located.redBrother_black (hL : Located h k (join s c x t u)) (hu : u ≠ .nil)
    (hblack : u.rootColor = .black) : rbRedBrother s h x = .ok h := by
  obtain ⟨hx, -, -, hother, -, hin⟩ := hL.children
  rw [rbRedBrother, deref_bind hx, hother, deref_bind (hin.isNode hu).ne, hin.color_root hu, hblack]
  rfl

/-- **A red brother goes up.** -/
theorem Located.redBrother_red (hL : Located h k (join s c x t (join s .red y near far))) :
    Yields (rbRedBrother s h x) h k (join s .black y (join s .red x t near) far) := by
  obtain ⟨hx, -, -, hother, -, hin⟩ := hL.children
  obtain ⟨hy, hcolor, -, -⟩ := (inside_join.mp hin).1
  rw [addr_join] at hother
  have hpaint := (hL.paint_other join_ne_nil .black).paint_root .red
  rw [addr_join, paint_join] at hpaint
  rw [rbRedBrother, deref_bind hx, hother, deref_bind hy.ne, hcolor,
    if_pos (code_eq_red.mpr rfl)]
  exact hpaint.rotate.of_key (by simp)

/-- The root of the subtree is black afterwards. -/
theorem Located.blacken (hL : Located h k t) :
    Located (blacken h (addr t)) k (t.paint .black) ∧ (blacken h (addr t)).key = h.key := by
  by_cases hnil : t = .nil
  · subst hnil
    exact ⟨hL, rfl⟩
  · rw [Rbtree.blacken, if_neg (hL.inside.isNode hnil).ne]
    exact ⟨hL.paint hnil .black, RbTree.key_setColor⟩

/-- The loop is left with the root of the tree for `n`. -/
theorem Yields.pure_blacken {e : Except Fault RbTree} (he : Yields e h k t) :
    Yields (e >>= fun h' => pure (Rbtree.blacken h' h'.root)) h []
      ((RedBlack.plug k t).paint .black) := by
  obtain ⟨h', rfl, hkey, hL⟩ := he.plug
  obtain ⟨hL', hkey'⟩ := hL.blacken
  rw [← hL.hole] at hL' hkey'
  exact ⟨_, rfl, hkey'.trans hkey, hL'⟩

/-- **Below a black brother.** -/
theorem Located.blackBrother {n : ℕ} {loop : RbTree → ℕ → ℕ → Except Fault RbTree} {up : ColorTree ℕ → ColorTree ℕ}
    (hL : Located h (f :: k) t) (hb : BlackBrother f k t n)
    (hup : ∀ h', Located h' k (join f.side f.color f.elem t (f.sibling.paint .red)) →
      (f.sibling.child f.side).rootColor = .black ∧ (f.sibling.child f.side.other).rootColor = .black →
      Yields (loop h' f.elem (top k)) h' [] (up (join f.side f.color f.elem t (f.sibling.paint .red)))) :
    Yields (rbBlackBrother f.side h f.elem loop) h [] (rebalance f k t up) := by
  obtain ⟨s, c, x, o⟩ := f
  have hne : o ≠ .nil := by
    rintro rfl
    cases hb.brother.2
  obtain ⟨d, y, hjoin⟩ := exists_join hne s
  have hd : d = .black := by
    have := hb.brotherRoot
    rw [show o.rootColor = d by rw [hjoin, rootColor_join]] at this
    exact this
  subst hd
  simp only at hup ⊢
  rw [rebalance]
  simp only
  generalize o.child s = near at hjoin hup ⊢
  generalize o.child s.other = far at hjoin hup ⊢
  subst hjoin
  have hL' := located_cons.mp hL
  simp only at hL'
  obtain ⟨-, -, -, hother, -, -⟩ := hL'.children
  obtain ⟨hy, -, hnear, hfar, hnearin, hfarin⟩ := (located_other.mp hL').children
  rw [addr_join] at hother
  rw [rbBlackBrother, hother, deref_bind hy, hnear, hfar]
  simp only [hnearin.blackOrNull, hfarin.blackOrNull]
  by_cases hboth : near.rootColor = .black ∧ far.rootColor = .black
  · have hpaint := hL'.paint_other join_ne_nil .red
    rw [addr_join] at hpaint
    rw [if_pos hboth, if_pos hboth]
    obtain ⟨-, hparent, -, -⟩ := located_join.mp hpaint |>.2
    rw [show RB_RED = code .red from rfl, hparent]
    exact (hup _ hpaint hboth).of_key RbTree.key_setColor
  · rw [if_neg hboth, if_neg hboth]
    by_cases hblack : far.rootColor = .black
    · have hred : near.rootColor = .red := color_eq_red fun hnear => hboth ⟨hnear, hblack⟩
      obtain ⟨e, z, hz⟩ := exists_join (ne_nil_of_red hred) s
      obtain rfl : e = .red := by rw [← hred, hz, rootColor_join]
      rw [if_pos hblack]
      generalize near.child s = inner at hz
      generalize near.child s.other = outer at hz
      subst hz
      rw [liftNear_join]
      obtain ⟨h₁, hok, hkey, hL₁⟩ := hL'.nearNephew_near hblack
      have hend := (hL₁.farNephew join_ne_nil).pure_blacken.of_key hkey
      rw [paint_join] at hend
      rw [hok]
      exact hend
    · have hred := color_eq_red hblack
      rw [if_neg hblack, liftBrother_join, hL'.nearNephew_far hred]
      exact (hL'.farNephew (ne_nil_of_red hred)).pure_blacken

/-- A place below the root does not hold the root. -/
theorem Located.ne_root (hL : Located h (f :: k) t) : addr t ≠ h.root := by
  have hroot := hL.around.root_mem (List.cons_ne_nil f k)
  by_cases hnil : t = .nil
  · rw [hnil]
    exact (hL.around.isNode_mem hroot).ne.symm
  · intro heq
    have hdis := (List.nodup_append.mp hL.nodup).2.2
    exact hdis _ (addr_mem hnil) _ hroot heq

/-- The loop ends at a red node. -/
theorem Located.removeFixup_red {fuel p : ℕ} (hL : Located h k t) (hred : t.rootColor = .red)
    (hfuel : 0 < fuel) : Yields (rbRemoveFixup fuel h (addr t) p) h [] (plug k (t.paint .black)) := by
  obtain ⟨fuel, rfl⟩ : ∃ m, fuel = m + 1 := ⟨fuel - 1, by omega⟩
  obtain ⟨hL', hkey⟩ := hL.blacken
  rw [rbRemoveFixup, if_neg]
  · exact Yields.plug ⟨_, rfl, hkey, hL'⟩
  · rw [hL.inside.blackOrNull, hred]
    rintro ⟨hblack, -⟩
    cases hblack

/-- One round of the loop at a black node below the root. -/
theorem Located.removeFixup_round {fuel : ℕ} (hL : Located h (f :: k) t) (hblack : t.rootColor = .black)
    (hsib : f.sibling ≠ .nil) : rbRemoveFixup (fuel + 1) h (addr t) f.elem =
      rbRemoveRound f.side h f.elem (rbRemoveFixup fuel) := by
  have hframe := hL.around.1
  have hchild := hL.hole
  rw [Rbtree.hole] at hchild
  rw [rbRemoveFixup, if_pos ⟨hL.inside.blackOrNull.mpr hblack, hL.ne_root⟩,
    deref_bind hframe.isNode.ne]
  cases hside : f.side with
  | left =>
    rw [hside] at hchild
    rw [if_pos hchild]
  | right =>
    have hother := hframe.child
    rw [hside, Side.other] at hother
    rw [hother, if_neg]
    have hmem := addr_mem hsib
    by_cases hnil : t = .nil
    · rw [hnil]
      exact (hframe.inside.isNode hsib).ne
    · intro heq
      have hdis := (List.nodup_append.mp hL.nodup).2.2
      exact hdis _ (addr_mem hnil) _ (by simp [rest, hmem]) heq.symm

/-- A round below a red brother. -/
theorem Located.removeFixup_afterRed {fuel n : ℕ} (hL : Located h (f :: k) t) (hk : Calm (f :: k))
    (hn : Fits (f :: k) (n + 1)) (ht : t.NoRedRed) (hheight : t.Height n) (hblack : t.rootColor = .black)
    (hred : f.sibling.rootColor = .red) (hfuel : 0 < fuel) :
    Yields (rbRemoveRound f.side h f.elem (rbRemoveFixup fuel)) h [] (afterRed f k t f.sibling) := by
  cases hs : f.sibling with
  | nil =>
    rw [hs] at hred
    cases hred
  | node c l y r =>
    rw [hs] at hred
    obtain rfl : c = .red := hred
    have hb := blackBrother_afterRed hk hn ht hheight hblack hs
    have hL' := located_cons.mp hL
    rw [hs, join_child f.side] at hL'
    obtain ⟨h₁, hok, hkey, hL₁⟩ := hL'.redBrother_red
    rw [afterRed, rbRemoveRound, hok]
    show Yields (rbBlackBrother f.side h₁ f.elem (rbRemoveFixup fuel)) h [] _
    apply Yields.of_key _ hkey
    apply Located.blackBrother (located_cons.mpr (located_cons.mpr hL₁)) hb
    intro h' hL' _
    have hend := hL'.removeFixup_red (p := y) rootColor_join hfuel
    rwa [addr_join] at hend

/-- **`rb_remove_fixup`** does the repair. -/
theorem Located.removeFixup {fuel n : ℕ} (hL : Located h k t) (hk : Calm k) (hn : Fits k (n + 1))
    (ht : (t.paint .black).NoRedRed) (hheight : t.Height n) (hfuel : k.length + 1 < fuel) :
    Yields (rbRemoveFixup fuel h (addr t) (top k)) h [] (removeFix k t) := by
  obtain ⟨fuel, rfl⟩ : ∃ m, fuel = m + 1 := ⟨fuel - 1, by omega⟩
  induction k generalizing h t n fuel with
  | nil =>
    obtain ⟨hL', hkey⟩ := hL.blacken
    have hroot : h.root = addr t := hL.hole
    rw [rbRemoveFixup, if_neg fun hc => hc.2 hroot.symm]
    exact ⟨_, rfl, hkey, hL'⟩
  | cons f k ih =>
    rw [List.length_cons] at hfuel
    by_cases hred : t.rootColor = .red
    · rw [removeFix_of_red hred]
      exact hL.removeFixup_red hred (Nat.succ_pos _)
    · have hblack := color_eq_black hred
      have hsib : f.sibling ≠ .nil := by
        intro hnil
        have := hn.1
        rw [hnil] at this
        cases this
      rw [paint_black_of_black hblack] at ht
      rw [top, hL.removeFixup_round hblack hsib, removeFix, if_neg hred]
      by_cases hsred : f.sibling.rootColor = .red
      · rw [if_pos hsred]
        exact hL.removeFixup_afterRed hk hn ht hheight hblack hsred (by omega)
      · have hb : BlackBrother f k t n := ⟨⟨ht, hheight⟩, hblack, ⟨hk.1, hn.1⟩,
          color_eq_black hsred, fun hf => (hk.2.1 hf).2, hk.2.2, hn.2⟩
        rw [if_neg hsred, rbRemoveRound, (located_cons.mp hL).redBrother_black hsib (color_eq_black hsred)]
        apply hL.blackBrother hb
        intro h' hL' hboth
        obtain ⟨hpaint, hlow⟩ := hb.lacking hboth
        have hfits := hn.2
        obtain ⟨fuel, rfl⟩ : ∃ m, fuel = m + 1 := ⟨fuel - 1, by omega⟩
        cases hf : f.color with
        | black =>
          rw [hf] at hL' hpaint hlow hfits
          have hrec := ih hL' hk.2.2 hfits hpaint hlow fuel (by omega)
          rwa [addr_join] at hrec
        | red =>
          rw [hf] at hL'
          have hend := hL'.removeFixup_red (p := top k) rootColor_join (Nat.succ_pos fuel)
          rw [addr_join] at hend
          rw [removeFix_of_red rootColor_join]
          exact hend

end OmochaOS.Rbtree
