import Mathlib.Data.List.Basic
import Mathlib.Tactic.Common

/-!
# Red-black trees and their rebalancing

Trees of coloured nodes over any type of elements, with the position of a subtree as a list of frames,
the nearest one first.  Most of what is done to such trees is done on either side, so nodes are also
written from the side of one child (`ColorTree.join`).

* `ColorTree.NoRedRed`, `ColorTree.Height` — no red node has a red child; all paths have the same number of
  black nodes;
* `plug`, `before`, `after` — a subtree put into its context, and the elements around it;
* `Calm`, `Fits` — what the context has to be for the whole tree to have the two properties;
* `insertFix` — the repair after a red node was put in a place below a red one;
* `removeFix` — the repair after a subtree has lost one black node on every path.

Both repairs keep the order of the elements and give back the properties (`insertFix_valid`,
`removeFix_valid`).
-/

namespace RedBlack

inductive Color
  | black
  | red
deriving DecidableEq

/-- The height of a node of this colour over children of height `n`. -/
def Color.rise : Color → ℕ → ℕ
  | .black, n => n + 1
  | .red, n => n

theorem color_eq_red {c : Color} (h : c ≠ .black) : c = .red := by
  cases c with
  | black => exact absurd rfl h
  | red => rfl

theorem color_eq_black {c : Color} (h : c ≠ .red) : c = .black := by
  cases c with
  | black => rfl
  | red => exact absurd rfl h

inductive Side
  | left
  | right
deriving DecidableEq

def Side.other : Side → Side
  | .left => .right
  | .right => .left

@[simp] theorem Side.other_other (s : Side) : s.other.other = s := by cases s <;> rfl

theorem Side.ne_other (s : Side) : s ≠ s.other := by cases s <;> decide

theorem Side.eq_other_of_ne {s u : Side} (h : s ≠ u) : s = u.other := by
  cases s <;> cases u <;> first | rfl | exact absurd rfl h

inductive ColorTree (α : Type*)
  | nil
  | node (c : Color) (l : ColorTree α) (x : α) (r : ColorTree α)

variable {α : Type*} {s : Side} {c d e : Color} {x : α} {t u v l r : ColorTree α} {m n : ℕ}

namespace ColorTree

/-- The elements from left to right. -/
def toList : ColorTree α → List α
  | nil => []
  | node _ l x r => l.toList ++ x :: r.toList

/-- The colour of the root; leaves are black. -/
def rootColor : ColorTree α → Color
  | nil => .black
  | node c _ _ _ => c

def paint (c : Color) : ColorTree α → ColorTree α
  | nil => nil
  | node _ l x r => node c l x r

def child (s : Side) : ColorTree α → ColorTree α
  | nil => nil
  | node _ l _ r => match s with
    | .left => l
    | .right => r

/-- A node with `t` on the side `s` and `u` on the other. -/
def join (s : Side) (c : Color) (x : α) (t u : ColorTree α) : ColorTree α :=
  match s with
  | .left => node c t x u
  | .right => node c u x t

def NoRedRed : ColorTree α → Prop
  | nil => True
  | node c l _ r => (c = .red → l.rootColor = .black ∧ r.rootColor = .black) ∧
      l.NoRedRed ∧ r.NoRedRed

/-- Every path down has `n` black nodes. -/
def Height : ColorTree α → ℕ → Prop
  | nil, n => n = 0
  | node .red l _ r, n => l.Height n ∧ r.Height n
  | node .black l _ r, n => ∃ m, n = m + 1 ∧ l.Height m ∧ r.Height m

/-! ### Nodes seen from a side -/

theorem join_other : join s.other c x t u = join s c x u t := by cases s <;> rfl

theorem join_child (s : Side) : node c l x r =
    join s c x ((node c l x r).child s) ((node c l x r).child s.other) := by
  cases s <;> rfl

/-- Induction with the children named from the side `s`. -/
@[elab_as_elim] theorem joinInduction (s : Side) {motive : ColorTree α → Prop} (hnil : motive nil)
    (hjoin : ∀ c x t u, motive t → motive u → motive (join s c x t u)) (t : ColorTree α) : motive t := by
  induction t with
  | nil => exact hnil
  | node c l x r ihl ihr =>
    cases s with
    | left => exact hjoin c x l r ihl ihr
    | right => exact hjoin c x r l ihr ihl

@[simp] theorem child_join : (join s c x t u).child s = t := by cases s <;> rfl

@[simp] theorem child_other_join : (join s c x t u).child s.other = u := by cases s <;> rfl

@[simp] theorem node_ne_nil : node c l x r ≠ nil := by
  intro h
  cases h

@[simp] theorem join_ne_nil : join s c x t u ≠ nil := by cases s <;> exact node_ne_nil

@[simp] theorem rootColor_join : (join s c x t u).rootColor = c := by cases s <;> rfl

@[simp] theorem paint_join : (join s c x t u).paint d = join s d x t u := by
  cases s <;> rfl

@[simp] theorem toList_paint : (t.paint c).toList = t.toList := by cases t <;> rfl

theorem toList_join_perm (s : Side) : (join s c x t u).toList.Perm (x :: (t.toList ++ u.toList)) := by
  cases s with
  | left => exact List.perm_middle
  | right => exact List.perm_middle.trans (List.Perm.cons x List.perm_append_comm)

theorem noRedRed_join : (join s c x t u).NoRedRed ↔
    (c = .red → t.rootColor = .black ∧ u.rootColor = .black) ∧ t.NoRedRed ∧ u.NoRedRed := by
  cases s with
  | left => rfl
  | right =>
    show (_ → _ ∧ _) ∧ _ ∧ _ ↔ _
    rw [and_comm (a := u.rootColor = .black), and_comm (a := u.NoRedRed)]

theorem height_join_red : (join s .red x t u).Height n ↔ t.Height n ∧ u.Height n := by
  cases s with
  | left => rfl
  | right => exact and_comm

theorem height_join_black :
    (join s .black x t u).Height n ↔ ∃ m, n = m + 1 ∧ t.Height m ∧ u.Height m := by
  cases s with
  | left => rfl
  | right =>
    show (∃ m, n = m + 1 ∧ u.Height m ∧ t.Height m) ↔ _
    simp only [and_comm (a := u.Height _)]

theorem height_join (ht : t.Height n) (hu : u.Height n) : (join s c x t u).Height (c.rise n) := by
  cases c with
  | black => exact height_join_black.mpr ⟨n, rfl, ht, hu⟩
  | red => exact height_join_red.mpr ⟨ht, hu⟩

theorem NoRedRed.paint_black (h : t.NoRedRed) : (t.paint .black).NoRedRed := by
  cases t with
  | nil => exact h
  | node c l x r => exact ⟨nofun, h.2⟩

theorem NoRedRed.child (h : t.NoRedRed) (s : Side) : (t.child s).NoRedRed := by
  cases t with
  | nil => trivial
  | node c l x r =>
    cases s with
    | left => exact h.2.1
    | right => exact h.2.2

/-- A red root can be painted black, and the tree is one higher. -/
theorem Height.paint_black (h : t.Height n) (hred : t.rootColor = .red) :
    (t.paint .black).Height (n + 1) := by
  cases t with
  | nil => cases hred
  | node c l x r =>
    obtain rfl : c = .red := hred
    exact ⟨n, rfl, h⟩

theorem exists_join (h : t ≠ nil) (s : Side) :
    ∃ c x, t = join s c x (t.child s) (t.child s.other) := by
  cases t with
  | nil => exact absurd rfl h
  | node c l x r => exact ⟨c, x, join_child s⟩

theorem rootColor_paint (h : t ≠ nil) : (t.paint c).rootColor = c := by
  cases t with
  | nil => exact absurd rfl h
  | node d l x r => rfl

theorem ne_nil_of_red (h : t.rootColor = .red) : t ≠ nil := by
  rintro rfl
  cases h

end ColorTree

open ColorTree

/-! ### Contexts -/

/-- One step up: the side the subtree is on, the parent and its other child. -/
structure Frame (α : Type*) where
  side : Side
  color : Color
  elem : α
  sibling : ColorTree α

/-- The subtree in its context. -/
def plug : List (Frame α) → ColorTree α → ColorTree α
  | [], t => t
  | f :: k, t => plug k (join f.side f.color f.elem t f.sibling)

/-- The elements to the left of the hole. -/
def before : List (Frame α) → List α
  | [] => []
  | f :: k => match f.side with
    | .left => before k
    | .right => before k ++ f.sibling.toList ++ [f.elem]

/-- The elements to the right of the hole. -/
def after : List (Frame α) → List α
  | [] => []
  | f :: k => match f.side with
    | .left => f.elem :: f.sibling.toList ++ after k
    | .right => after k

variable {f g : Frame α} {k : List (Frame α)}

theorem toList_plug : (plug k t).toList = before k ++ t.toList ++ after k := by
  induction k generalizing t with
  | nil => simp [plug, before, after]
  | cons f k ih =>
    obtain ⟨s, c, x, u⟩ := f
    rw [plug, ih]
    cases s with
    | left => simp [before, after, join, toList]
    | right => simp [before, after, join, toList]

/-- The elements of the context, in no order. -/
def rest : List (Frame α) → List α
  | [] => []
  | f :: k => f.elem :: (f.sibling.toList ++ rest k)

theorem toList_plug_perm : (plug k t).toList.Perm (t.toList ++ rest k) := by
  induction k generalizing t with
  | nil => simp [plug, rest]
  | cons f k ih =>
    rw [plug, rest]
    refine ih.trans ?_
    refine ((toList_join_perm f.side).append_right _).trans ?_
    rw [List.cons_append, List.append_assoc]
    exact List.perm_middle.symm

theorem length_le_rest : k.length ≤ (rest k).length := by
  induction k with
  | nil => exact Nat.le_refl 0
  | cons f k ih =>
    rw [rest, List.length_cons, List.length_cons, List.length_append]
    omega

/-- The colour of the parent of the hole, if there is one. -/
def topColor : List (Frame α) → Option Color
  | [] => none
  | f :: _ => some f.color

/-- The context has no red node with a red child, and its root is black. -/
def Calm : List (Frame α) → Prop
  | [] => True
  | f :: k => f.sibling.NoRedRed ∧
      (f.color = .red → f.sibling.rootColor = .black ∧ topColor k = some .black) ∧ Calm k

/-- In the context a subtree with `n` black nodes on every path is as high as its siblings. -/
def Fits : List (Frame α) → ℕ → Prop
  | [], _ => True
  | f :: k, n => f.sibling.Height n ∧ Fits k (f.color.rise n)

theorem calm_cons : Calm (f :: k) ↔ f.sibling.NoRedRed ∧
    (f.color = .red → f.sibling.rootColor = .black ∧ topColor k = some .black) ∧ Calm k := Iff.rfl

theorem plug_noRedRed (hk : Calm k) (ht : t.NoRedRed)
    (htop : t.rootColor = .red → topColor k ≠ some .red) : (plug k t).NoRedRed := by
  induction k generalizing t with
  | nil => exact ht
  | cons f k ih =>
    obtain ⟨hu, hred, hk⟩ := hk
    apply ih hk
    · rw [noRedRed_join]
      refine ⟨fun hf => ⟨?_, (hred hf).1⟩, ht, hu⟩
      cases hroot : t.rootColor with
      | black => rfl
      | red => exact absurd (congrArg some hf) (htop hroot)
    · rw [rootColor_join]
      intro hf he
      rw [(hred hf).2] at he
      cases he

theorem plug_height (hk : Fits k n) (ht : t.Height n) : ∃ m, (plug k t).Height m := by
  induction k generalizing t n with
  | nil => exact ⟨n, ht⟩
  | cons f k ih =>
    obtain ⟨s, c, x, u⟩ := f
    obtain ⟨hu, hk⟩ := hk
    cases c with
    | red => exact ih hk (height_join_red.mpr ⟨ht, hu⟩)
    | black => exact ih hk (height_join_black.mpr ⟨n, rfl, ht, hu⟩)

/-- The root of the whole tree is in the context, unless that is empty. -/
theorem plug_rootColor (hk : Calm k) (h : k = [] → t.rootColor = .black) :
    (plug k t).rootColor = .black := by
  induction k generalizing t with
  | nil => exact h rfl
  | cons f k ih =>
    obtain ⟨-, hred, hk⟩ := hk
    apply ih hk
    intro hnil
    subst hnil
    rw [rootColor_join]
    cases hf : f.color with
    | black => rfl
    | red => cases (hred hf).2

/-- A tree with the properties gives them to the parts. -/
theorem calm_of_plug (h : (plug k t).NoRedRed) (hroot : (plug k t).rootColor = .black) :
    Calm k ∧ t.NoRedRed ∧ (t.rootColor = .red → topColor k = some .black) := by
  induction k generalizing t with
  | nil =>
    refine ⟨trivial, h, fun hred => ?_⟩
    rw [plug, hred] at hroot
    cases hroot
  | cons f k ih =>
    obtain ⟨hk, hjoin, htop⟩ := ih h hroot
    rw [noRedRed_join] at hjoin
    rw [rootColor_join] at htop
    refine ⟨⟨hjoin.2.2, fun hf => ⟨(hjoin.1 hf).2, htop hf⟩, hk⟩, hjoin.2.1, fun hred => ?_⟩
    cases hf : f.color with
    | black => rw [topColor, hf]
    | red =>
      rw [(hjoin.1 hf).1] at hred
      cases hred

theorem fits_of_plug (h : (plug k t).Height n) : ∃ m, t.Height m ∧ Fits k m := by
  induction k generalizing t with
  | nil => exact ⟨n, h, trivial⟩
  | cons f k ih =>
    obtain ⟨m, hjoin, hk⟩ := ih h
    obtain ⟨s, c, x, u⟩ := f
    cases c with
    | red =>
      obtain ⟨ht, hu⟩ := height_join_red.mp hjoin
      exact ⟨m, ht, hu, hk⟩
    | black =>
      obtain ⟨m', rfl, ht, hu⟩ := height_join_black.mp hjoin
      exact ⟨m', ht, hu, hk⟩

theorem plug_append {k' : List (Frame α)} : plug (k ++ k') t = plug k' (plug k t) := by
  induction k generalizing t with
  | nil => rfl
  | cons f k ih => rw [List.cons_append, plug, plug, ih]

theorem before_append {k' : List (Frame α)} : before (k ++ k') = before k' ++ before k := by
  induction k with
  | nil => rw [List.nil_append, before, List.append_nil]
  | cons f k ih =>
    obtain ⟨s, c, x, u⟩ := f
    cases s with
    | left => exact ih
    | right =>
      rw [List.cons_append, before, before, ih]
      simp only [List.append_assoc]

theorem elem_mem_rest (hf : f ∈ k) : f.elem ∈ rest k := by
  induction k with
  | nil => cases hf
  | cons g k ih =>
    rw [rest, List.mem_cons, List.mem_append]
    rcases List.mem_cons.mp hf with rfl | hf
    · exact Or.inl rfl
    · exact Or.inr (Or.inr (ih hf))

theorem plug_ne_nil (ht : t ≠ .nil) : plug k t ≠ .nil := by
  induction k generalizing t with
  | nil => exact ht
  | cons f k ih => exact ih join_ne_nil

/-- Every element is the root of some subtree. -/
theorem exists_plug (hx : x ∈ t.toList) (k : List (Frame α)) :
    ∃ k' c l r, plug k t = plug k' (.node c l x r) := by
  induction t generalizing k with
  | nil => cases hx
  | node c l y r ihl ihr =>
    rw [toList, List.mem_append, List.mem_cons] at hx
    rcases hx with hx | rfl | hx
    · exact ihl hx (⟨.left, c, y, r⟩ :: k)
    · exact ⟨k, c, l, r, rfl⟩
    · exact ihr hx (⟨.right, c, y, l⟩ :: k)

/-- Which elements are in the context does not matter for its colours and heights. -/
theorem calm_fits_congr {y : α} {k' : List (Frame α)} :
    (Calm (k ++ ⟨s, c, x, u⟩ :: k') ↔ Calm (k ++ ⟨s, c, y, u⟩ :: k')) ∧
      topColor (k ++ ⟨s, c, x, u⟩ :: k') = topColor (k ++ ⟨s, c, y, u⟩ :: k') ∧
      ∀ n, Fits (k ++ ⟨s, c, x, u⟩ :: k') n ↔ Fits (k ++ ⟨s, c, y, u⟩ :: k') n := by
  induction k with
  | nil => exact ⟨Iff.rfl, rfl, fun _ => Iff.rfl⟩
  | cons f k ih =>
    obtain ⟨hcalm, htop, hfits⟩ := ih
    refine ⟨?_, rfl, fun n => and_congr_right fun _ => hfits _⟩
    rw [List.cons_append, List.cons_append, calm_cons, calm_cons, hcalm, htop]

/-- A tree without black nodes is a red leaf or empty. -/
theorem red_of_height_zero (ht : t.Height 0) (hne : t ≠ .nil) : t.rootColor = .red := by
  cases t with
  | nil => exact absurd rfl hne
  | node c l x r =>
    cases c with
    | red => rfl
    | black =>
      obtain ⟨m, hm, -⟩ := ht
      cases hm

/-- What a red-black tree is. -/
structure Valid (t : ColorTree α) : Prop where
  noRedRed : t.NoRedRed
  root : t.rootColor = .black
  height : ∃ n, t.Height n

theorem valid_plug (hk : Calm k) (hn : Fits k n) (ht : t.NoRedRed) (hheight : t.Height n)
    (htop : t.rootColor = .red → topColor k = some .black) : Valid (plug k t) where
  noRedRed := plug_noRedRed hk ht fun hred he => by
    rw [htop hred] at he
    cases he
  root := plug_rootColor hk fun hnil => by
    cases hroot : t.rootColor with
    | black => rfl
    | red =>
      have hnone := htop hroot
      rw [hnil] at hnone
      cases hnone
  height := plug_height hn hheight

/-! ### The repair after an insertion -/

/-- The root of `t`, on the inner side, goes up two places. -/
def liftInner (f g : Frame α) (k : List (Frame α)) : ColorTree α → ColorTree α
  | nil => plug (f :: g :: k) nil
  | node c l x r =>
    plug k (join g.side .black x
      (join g.side .red f.elem f.sibling ((node c l x r).child g.side))
      (join g.side .red g.elem ((node c l x r).child g.side.other) g.sibling))

/-- The red node `t` is below `k`.  A red parent with a red brother passes its colour up, a red parent
with a black one is rotated into the place of its parent. -/
def insertFix : List (Frame α) → ColorTree α → ColorTree α
  | [], t => t.paint .black
  | [f], t => plug [f] t
  | f :: g :: k, t =>
    if f.color = .black then plug (f :: g :: k) t
    else if g.sibling.rootColor = .red then
      insertFix k (join g.side .red g.elem (join f.side .black f.elem t f.sibling)
        (g.sibling.paint .black))
    else if f.side = g.side then
      plug k (join g.side .black f.elem t (join g.side .red g.elem f.sibling g.sibling))
    else liftInner f g k t

theorem toList_plug_congr (h : t.toList = u.toList) : (plug k t).toList = (plug k u).toList := by
  rw [toList_plug, toList_plug, h]

/-- **The order is kept.** -/
theorem toList_insertFix : (insertFix k t).toList = before k ++ t.toList ++ after k := by
  induction k, t using insertFix.induct with
  | case1 t => simp [insertFix, before, after]
  | case2 f t => rw [insertFix, toList_plug]
  | case3 f g k t hf => rw [insertFix, if_pos hf, toList_plug]
  | case4 f g k t hf hg ih =>
    rw [insertFix, if_neg hf, if_pos hg, ih, ← toList_plug, ← toList_plug]
    apply toList_plug_congr
    obtain ⟨s, c, x, u⟩ := f
    obtain ⟨s', c', x', u'⟩ := g
    cases s <;> cases s' <;> simp [join, toList]
  | case5 f g k t hf hg hside =>
    rw [insertFix, if_neg hf, if_neg hg, if_pos hside, ← toList_plug]
    apply toList_plug_congr
    obtain ⟨s, c, x, u⟩ := f
    obtain ⟨s', c', x', u'⟩ := g
    obtain rfl : s = s' := hside
    cases s <;> simp [join, toList]
  | case6 f g k t hf hg hside =>
    rw [insertFix, if_neg hf, if_neg hg, if_neg hside, ← toList_plug]
    cases t with
    | nil => rfl
    | node c l x r =>
      rw [liftInner]
      apply toList_plug_congr
      obtain ⟨s, c, x, u⟩ := f
      obtain ⟨s', c', x', u'⟩ := g
      obtain rfl : s = s'.other := Side.eq_other_of_ne hside
      cases s' <;> simp [join, toList, Side.other, child]

/-- What is known above a red node with a red parent. -/
structure RedParent (f g : Frame α) (k : List (Frame α)) (n : ℕ) : Prop where
  parent : f.color = .red
  grand : g.color = .black
  brother : f.sibling.NoRedRed ∧ f.sibling.rootColor = .black ∧ f.sibling.Height n
  uncle : g.sibling.NoRedRed ∧ g.sibling.Height n
  calm : Calm k
  fits : Fits k (n + 1)

theorem redParent (hk : Calm (f :: g :: k)) (hn : Fits (f :: g :: k) n) (hf : f.color ≠ .black) :
    RedParent f g k n := by
  have hcf := color_eq_red hf
  obtain ⟨hsib, hfred, hgsib, hgred, hk⟩ := hk
  obtain ⟨hsibroot, hcg⟩ := hfred hcf
  have hcg : g.color = .black := Option.some.inj hcg
  obtain ⟨hsibheight, hn⟩ := hn
  rw [hcf] at hn
  obtain ⟨hgheight, hn⟩ := hn
  rw [hcg] at hn
  exact ⟨hcf, hcg, ⟨hsib, hsibroot, hsibheight⟩, ⟨hgsib, hgheight⟩, hk, hn⟩

/-- The children of a red root. -/
theorem red_children (ht : t.NoRedRed) (hheight : t.Height n) (hred : t.rootColor = .red) (s : Side) :
    (t.child s).NoRedRed ∧ (t.child s).rootColor = .black ∧ (t.child s).Height n := by
  cases t with
  | nil => cases hred
  | node c l x r =>
    obtain rfl : c = .red := hred
    obtain ⟨hroots, hl, hr⟩ := ht
    obtain ⟨hlroot, hrroot⟩ := hroots rfl
    cases s with
    | left => exact ⟨hl, hlroot, hheight.1⟩
    | right => exact ⟨hr, hrroot, hheight.2⟩

/-- **The properties are back.** -/
theorem insertFix_valid (hk : Calm k) (hn : Fits k n) (ht : t.NoRedRed) (hheight : t.Height n)
    (hred : t.rootColor = .red) : Valid (insertFix k t) := by
  induction k, t using insertFix.induct generalizing n with
  | case1 t =>
    refine ⟨ht.paint_black, ?_, n + 1, hheight.paint_black hred⟩
    cases t with
    | nil => rfl
    | node c l x r => rfl
  | case2 f t =>
    rw [insertFix]
    apply valid_plug hk hn ht hheight
    intro _
    cases hf : f.color with
    | black => rw [topColor, hf]
    | red =>
      have hnone := (hk.2.1 hf).2
      cases hnone
  | case3 f g k t hf =>
    rw [insertFix, if_pos hf]
    exact valid_plug hk hn ht hheight fun _ => congrArg some hf
  | case4 f g k t hf hg ih =>
    have h := redParent hk hn hf
    rw [insertFix, if_neg hf, if_pos hg]
    refine ih h.calm h.fits ?_ ?_ rootColor_join
    · rw [noRedRed_join, noRedRed_join]
      have hpaint : (g.sibling.paint .black).rootColor = .black := by
        cases g.sibling with
        | nil => rfl
        | node c l x r => rfl
      exact ⟨fun _ => ⟨rootColor_join, hpaint⟩, ⟨nofun, ht, h.brother.1⟩, h.uncle.1.paint_black⟩
    · exact height_join_red.mpr ⟨height_join_black.mpr ⟨n, rfl, hheight, h.brother.2.2⟩,
        h.uncle.2.paint_black hg⟩
  | case5 f g k t hf hg hside =>
    have h := redParent hk hn hf
    rw [insertFix, if_neg hf, if_neg hg, if_pos hside]
    apply valid_plug h.calm h.fits
    · rw [noRedRed_join, noRedRed_join]
      exact ⟨nofun, ht, fun _ => ⟨h.brother.2.1, color_eq_black hg⟩, h.brother.1, h.uncle.1⟩
    · exact height_join_black.mpr ⟨n, rfl, hheight, height_join_red.mpr ⟨h.brother.2.2, h.uncle.2⟩⟩
    · rw [rootColor_join]
      exact nofun
  | case6 f g k t hf hg hside =>
    have h := redParent hk hn hf
    have hchild := red_children ht hheight hred
    rw [insertFix, if_neg hf, if_neg hg, if_neg hside]
    cases t with
    | nil => cases hred
    | node c l x r =>
      rw [liftInner]
      obtain ⟨hnear, hnearroot, hnearheight⟩ := hchild g.side
      obtain ⟨hfar, hfarroot, hfarheight⟩ := hchild g.side.other
      apply valid_plug h.calm h.fits
      · rw [noRedRed_join, noRedRed_join, noRedRed_join]
        exact ⟨nofun, ⟨fun _ => ⟨h.brother.2.1, hnearroot⟩, h.brother.1, hnear⟩,
          fun _ => ⟨hfarroot, color_eq_black hg⟩, hfar, h.uncle.1⟩
      · exact height_join_black.mpr ⟨n, rfl, height_join_red.mpr ⟨h.brother.2.2, hnearheight⟩,
          height_join_red.mpr ⟨hfarheight, h.uncle.2⟩⟩
      · rw [rootColor_join]
        exact nofun

/-! ### The repair after a removal -/

/-- The far nephew is red: the brother, the root of the last argument, goes up. -/
def liftBrother (f : Frame α) (k : List (Frame α)) (t : ColorTree α) : ColorTree α → ColorTree α
  | nil => plug (f :: k) t
  | node c l y r =>
    (plug k (join f.side f.color y
      (join f.side .black f.elem t ((node c l y r).child f.side))
      (((node c l y r).child f.side.other).paint .black))).paint .black

/-- Only the near nephew is red: it goes up, between the parent and the brother `y`. -/
def liftNephew (f : Frame α) (k : List (Frame α)) (t : ColorTree α) (y : α) (far : ColorTree α) :
    ColorTree α → ColorTree α
  | nil => plug (f :: k) t
  | node c l z r =>
    (plug k (join f.side f.color z
      (join f.side .black f.elem t ((node c l z r).child f.side))
      (join f.side .black y ((node c l z r).child f.side.other) far))).paint .black

def liftNear (f : Frame α) (k : List (Frame α)) (t : ColorTree α) : ColorTree α → ColorTree α
  | nil => plug (f :: k) t
  | node c l y r =>
    liftNephew f k t y ((node c l y r).child f.side.other) ((node c l y r).child f.side)

theorem liftBrother_join {y : α} {near far : ColorTree α} :
    liftBrother ⟨s, c, x, u⟩ k t (join s d y near far) =
      (plug k (join s c y (join s .black x t near) (far.paint .black))).paint .black := by
  cases s <;> rfl

theorem liftNear_join {y z : α} {inner outer far : ColorTree α} :
    liftNear ⟨s, c, x, u⟩ k t (join s d y (join s e z inner outer) far) =
      (plug k (join s c z (join s .black x t inner) (join s .black y outer far))).paint .black := by
  cases s <;> rfl

/-- The brother is black.  Without a red nephew it is painted red and the loss goes `up`. -/
def rebalance (f : Frame α) (k : List (Frame α)) (t : ColorTree α) (up : ColorTree α → ColorTree α) : ColorTree α :=
  if (f.sibling.child f.side).rootColor = .black ∧
      (f.sibling.child f.side.other).rootColor = .black then
    up (join f.side f.color f.elem t (f.sibling.paint .red))
  else if (f.sibling.child f.side.other).rootColor = .black then liftNear f k t f.sibling
  else liftBrother f k t f.sibling

/-- The brother is red: it goes up, and its near child is the new brother. -/
def afterRed (f : Frame α) (k : List (Frame α)) (t : ColorTree α) : ColorTree α → ColorTree α
  | nil => plug (f :: k) t
  | node c l y r =>
    rebalance ⟨f.side, .red, f.elem, (node c l y r).child f.side⟩
      (⟨f.side, .black, y, (node c l y r).child f.side.other⟩ :: k) t
      fun u => plug (⟨f.side, .black, y, (node c l y r).child f.side.other⟩ :: k) (u.paint .black)

/-- The paths of `t` lack one black node. -/
def removeFix : List (Frame α) → ColorTree α → ColorTree α
  | [], t => t.paint .black
  | f :: k, t =>
    if t.rootColor = .red then plug (f :: k) (t.paint .black)
    else if f.sibling.rootColor = .red then afterRed f k t f.sibling
    else rebalance f k t (removeFix k)

theorem toList_rebalance {up : ColorTree α → ColorTree α} (hup : ∀ u, (up u).toList = (plug k u).toList) :
    (rebalance f k t up).toList = (plug (f :: k) t).toList := by
  obtain ⟨s, c, x, o⟩ := f
  have hbrother : (liftBrother ⟨s, c, x, o⟩ k t o).toList = (plug (⟨s, c, x, o⟩ :: k) t).toList := by
    cases o with
    | nil => rfl
    | node d l y r =>
      rw [liftBrother, toList_paint, plug]
      apply toList_plug_congr
      cases s <;> simp [join, toList, Side.other, child]
  have hnear : (liftNear ⟨s, c, x, o⟩ k t o).toList = (plug (⟨s, c, x, o⟩ :: k) t).toList := by
    cases o with
    | nil => rfl
    | node d l y r =>
      rw [liftNear]
      cases hn : (node d l y r).child s with
      | nil => rfl
      | node d' l' z r' =>
        rw [liftNephew, toList_paint, plug]
        apply toList_plug_congr
        cases s with
        | left =>
          obtain rfl : l = node d' l' z r' := hn
          simp [join, toList, Side.other, child]
        | right =>
          obtain rfl : r = node d' l' z r' := hn
          simp [join, toList, Side.other, child]
  rw [rebalance]
  split
  · rw [hup, plug]
    apply toList_plug_congr
    cases s <;> simp [join, toList]
  · split
    · exact hnear
    · exact hbrother

/-- **The order is kept.** -/
theorem toList_removeFix : (removeFix k t).toList = before k ++ t.toList ++ after k := by
  induction k generalizing t with
  | nil => simp [removeFix, before, after]
  | cons f k ih =>
    rw [removeFix, ← toList_plug]
    split
    · apply toList_plug_congr
      exact toList_paint
    · split
      · obtain ⟨s, c, x, o⟩ := f
        cases o with
        | nil => rfl
        | node d l y r =>
          rw [afterRed, toList_rebalance]
          · rw [plug, plug, plug]
            apply toList_plug_congr
            cases s <;> simp [join, toList, Side.other, child]
          · intro u
            apply toList_plug_congr
            exact toList_paint
      · apply toList_rebalance
        intro u
        rw [ih, toList_plug]

theorem paint_black_of_black (h : t.rootColor = .black) : t.paint .black = t := by
  cases t with
  | nil => rfl
  | node c l x r =>
    obtain rfl : c = .black := h
    rfl

/-- The children of a black root that is not a leaf. -/
theorem black_children (ht : t.NoRedRed) (hheight : t.Height (n + 1)) (hblack : t.rootColor = .black)
    (s : Side) : (t.child s).NoRedRed ∧ (t.child s).Height n := by
  cases t with
  | nil => cases hheight
  | node c l x r =>
    obtain rfl : c = .black := hblack
    obtain ⟨m, hm, hl, hr⟩ := hheight
    obtain rfl : n = m := Nat.succ.inj hm
    cases s with
    | left => exact ⟨ht.2.1, hl⟩
    | right => exact ⟨ht.2.2, hr⟩

/-- What is known beside a black subtree that lacks one black node. -/
structure BlackBrother (f : Frame α) (k : List (Frame α)) (t : ColorTree α) (n : ℕ) : Prop where
  subtree : t.NoRedRed ∧ t.Height n
  root : t.rootColor = .black
  brother : f.sibling.NoRedRed ∧ f.sibling.Height (n + 1)
  brotherRoot : f.sibling.rootColor = .black
  top : f.color = .red → topColor k = some .black
  calm : Calm k
  fits : Fits k (f.color.rise (n + 1))

/-- A black node over two trees of one height. -/
theorem join_black (ht : t.NoRedRed ∧ t.Height n) (hu : u.NoRedRed ∧ u.Height n) :
    (join s .black x t u).NoRedRed ∧ (join s .black x t u).Height (n + 1) :=
  ⟨noRedRed_join.mpr ⟨nofun, ht.1, hu.1⟩, height_join_black.mpr ⟨n, rfl, ht.2, hu.2⟩⟩

namespace BlackBrother

variable (h : BlackBrother f k t n)
include h

theorem nephew (s : Side) : (f.sibling.child s).NoRedRed ∧ (f.sibling.child s).Height n :=
  black_children h.brother.1 h.brother.2 h.brotherRoot s

/-- A node in the place of the parent, over two trees with black roots of the old height. -/
theorem valid_top (hu : u.NoRedRed ∧ u.Height (n + 1)) (huroot : u.rootColor = .black)
    (hv : v.NoRedRed ∧ v.Height (n + 1)) (hvroot : v.rootColor = .black) :
    Valid ((plug k (join s f.color x u v)).paint .black) := by
  have hvalid : Valid (plug k (join s f.color x u v)) := by
    apply valid_plug h.calm h.fits
    · rw [noRedRed_join]
      exact ⟨fun _ => ⟨huroot, hvroot⟩, hu.1, hv.1⟩
    · exact height_join hu.2 hv.2
    · rw [rootColor_join]
      exact h.top
  rw [paint_black_of_black hvalid.root]
  exact hvalid

theorem liftBrother_valid (hfar : (f.sibling.child f.side.other).rootColor = .red) :
    Valid (liftBrother f k t f.sibling) := by
  have hnear := h.nephew f.side
  have hfar' := h.nephew f.side.other
  cases hsib : f.sibling with
  | nil =>
    rw [hsib] at hfar
    cases hfar
  | node c l y r =>
    rw [hsib] at hnear hfar' hfar
    rw [liftBrother]
    apply h.valid_top (join_black h.subtree hnear) rootColor_join
    · exact ⟨hfar'.1.paint_black, hfar'.2.paint_black hfar⟩
    · exact rootColor_paint (ne_nil_of_red hfar)

theorem liftNear_valid (hnear : (f.sibling.child f.side).rootColor = .red) :
    Valid (liftNear f k t f.sibling) := by
  have hnear' := h.nephew f.side
  have hfar' := h.nephew f.side.other
  cases hsib : f.sibling with
  | nil =>
    rw [hsib] at hnear
    cases hnear
  | node c l y r =>
    rw [hsib] at hnear' hfar' hnear
    rw [liftNear]
    have hgrand := red_children hnear'.1 hnear'.2 hnear
    cases hz : (node c l y r).child f.side with
    | nil =>
      rw [hz] at hnear
      cases hnear
    | node d l' z r' =>
      rw [hz] at hgrand
      obtain ⟨hinner, -, hinner'⟩ := hgrand f.side
      obtain ⟨houter, -, houter'⟩ := hgrand f.side.other
      exact h.valid_top (join_black h.subtree ⟨hinner, hinner'⟩) rootColor_join
        (join_black ⟨houter, houter'⟩ hfar') rootColor_join

/-- Without a red nephew the brother can be painted red, and the loss is one place further up. -/
theorem lacking (hboth : (f.sibling.child f.side).rootColor = .black ∧
    (f.sibling.child f.side.other).rootColor = .black) :
    ((join f.side f.color f.elem t (f.sibling.paint .red)).paint .black).NoRedRed ∧
      (join f.side f.color f.elem t (f.sibling.paint .red)).Height (f.color.rise n) := by
  have hnear := h.nephew .left
  have hfar := h.nephew .right
  have hroots : (f.sibling.child .left).rootColor = .black ∧
      (f.sibling.child .right).rootColor = .black := by
    cases hside : f.side with
    | left =>
      rw [hside] at hboth
      exact hboth
    | right =>
      rw [hside] at hboth
      exact hboth.symm
  have hred : (f.sibling.paint .red).NoRedRed ∧ (f.sibling.paint .red).Height n := by
    cases hsib : f.sibling with
    | nil =>
      have hheight := h.brother.2
      rw [hsib] at hheight
      cases hheight
    | node c l y r =>
      rw [hsib] at hnear hfar hroots
      exact ⟨⟨fun _ => hroots, hnear.1, hfar.1⟩, hnear.2, hfar.2⟩
  rw [paint_join, noRedRed_join]
  exact ⟨⟨nofun, h.subtree.1, hred.1⟩, height_join h.subtree.2 hred.2⟩

/-- The loss goes `up`, which has to cope with it. -/
theorem rebalance_valid {up : ColorTree α → ColorTree α}
    (hup : ∀ u, u.rootColor = f.color → (u.paint .black).NoRedRed → u.Height (f.color.rise n) →
      Valid (up u)) : Valid (rebalance f k t up) := by
  rw [rebalance]
  split
  next hboth =>
    obtain ⟨hpaint, hheight⟩ := h.lacking hboth
    exact hup _ rootColor_join hpaint hheight
  next hboth =>
    split
    next hfar =>
      apply h.liftNear_valid
      exact color_eq_red fun hnear => hboth ⟨hnear, hfar⟩
    next hfar => exact h.liftBrother_valid (color_eq_red hfar)

end BlackBrother

/-- A red brother is above two black nephews, and below a black parent.  When it has gone up, the near
nephew is a black brother. -/
theorem blackBrother_afterRed {y : α} (hk : Calm (f :: k)) (hn : Fits (f :: k) (n + 1))
    (ht : t.NoRedRed) (hheight : t.Height n) (hblack : t.rootColor = .black)
    (hs : f.sibling = .node .red l y r) :
    BlackBrother ⟨f.side, .red, f.elem, (node .red l y r).child f.side⟩
      (⟨f.side, .black, y, (node .red l y r).child f.side.other⟩ :: k) t n := by
  obtain ⟨hsib, hfred, hk⟩ := hk
  obtain ⟨hsibheight, hn⟩ := hn
  rw [hs] at hsib hsibheight hfred
  have hf : f.color = .black := color_eq_black fun hf => by cases (hfred hf).1
  rw [hf] at hn
  have hnephew := red_children hsib hsibheight rfl
  obtain ⟨hnear, hnearroot, hnearheight⟩ := hnephew f.side
  obtain ⟨hfar, -, hfarheight⟩ := hnephew f.side.other
  exact ⟨⟨ht, hheight⟩, hblack, ⟨hnear, hnearheight⟩, hnearroot, fun _ => rfl,
    ⟨hfar, nofun, hk⟩, ⟨hfarheight, hn⟩⟩

theorem afterRed_valid (hk : Calm (f :: k)) (hn : Fits (f :: k) (n + 1)) (ht : t.NoRedRed)
    (hheight : t.Height n) (hblack : t.rootColor = .black) (hred : f.sibling.rootColor = .red) :
    Valid (afterRed f k t f.sibling) := by
  cases hs : f.sibling with
  | nil =>
    rw [hs] at hred
    cases hred
  | node c l y r =>
    rw [hs] at hred
    obtain rfl : c = .red := hred
    have hbrother := blackBrother_afterRed hk hn ht hheight hblack hs
    rw [afterRed]
    apply hbrother.rebalance_valid
    intro u hu hpaint hlow
    apply valid_plug hbrother.calm hbrother.fits hpaint (hlow.paint_black hu)
    exact fun _ => rfl

/-- A red root takes up the loss. -/
theorem removeFix_of_red (hred : t.rootColor = .red) : removeFix k t = plug k (t.paint .black) := by
  cases k with
  | nil => rfl
  | cons f k => rw [removeFix, if_pos hred]

theorem plug_paint_valid (hk : Calm k) (hn : Fits k (n + 1)) (ht : (t.paint .black).NoRedRed)
    (hheight : t.Height n) (hred : t.rootColor = .red) : Valid (plug k (t.paint .black)) := by
  apply valid_plug hk hn ht (hheight.paint_black hred)
  rw [rootColor_paint (ne_nil_of_red hred)]
  exact nofun

/-- **The properties are back.** -/
theorem removeFix_valid (hk : Calm k) (hn : Fits k (n + 1)) (ht : (t.paint .black).NoRedRed)
    (hheight : t.Height n) : Valid (removeFix k t) := by
  induction k generalizing t n with
  | nil =>
    refine ⟨ht, ?_, ?_⟩
    · cases t with
      | nil => rfl
      | node c l x r => rfl
    · cases hroot : t.rootColor with
      | black =>
        rw [removeFix, paint_black_of_black hroot]
        exact ⟨n, hheight⟩
      | red => exact ⟨n + 1, hheight.paint_black hroot⟩
  | cons f k ih =>
    rw [removeFix]
    split
    next hred => exact plug_paint_valid hk hn ht hheight hred
    next hred =>
      have hblack := color_eq_black hred
      rw [paint_black_of_black hblack] at ht
      split
      next hsib => exact afterRed_valid hk hn ht hheight hblack hsib
      next hsib =>
        have hbrother : BlackBrother f k t n := ⟨⟨ht, hheight⟩, hblack, ⟨hk.1, hn.1⟩,
          color_eq_black hsib, fun hf => (hk.2.1 hf).2, hk.2.2, hn.2⟩
        apply hbrother.rebalance_valid
        intro u hu hpaint hlow
        have hfits := hn.2
        cases hf : f.color with
        | black =>
          rw [hf] at hlow hfits
          exact ih hk.2.2 hfits hpaint hlow
        | red =>
          rw [hf] at hu hlow hfits
          rw [removeFix_of_red hu]
          exact plug_paint_valid hk.2.2 hfits hpaint hlow hu

end RedBlack
