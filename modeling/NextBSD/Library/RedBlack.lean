import Mathlib.Data.List.Basic

/-!
# Red-black trees with a hole

A tree and the frames from a hole in it up to the root.  What a left and a right branch have in
common is stated of a side.  The repair after an insertion and after a deletion is done in rounds,
each of which looks at the hole and one or two frames above it.
-/

namespace NextBSD.RedBlack

universe u

variable {β : Type u}

inductive Side where
  | left
  | right
  deriving DecidableEq, Repr

def Side.flip : Side → Side
  | .left => .right
  | .right => .left

@[simp] theorem Side.flip_flip (s : Side) : s.flip.flip = s := by cases s <;> rfl

@[simp] theorem Side.flip_ne (s : Side) : s.flip ≠ s := by cases s <;> exact Side.noConfusion

inductive Color where
  | red
  | black
  deriving DecidableEq, Repr

/-- The black nodes of a branch of the color `c`, of `n` below it. -/
def Color.height (c : Color) (n : Nat) : Nat :=
  match c with
  | .red => n
  | .black => n + 1

inductive CTree (β : Type u) where
  | leaf
  | node (color : Color) (left : CTree β) (label : β) (right : CTree β)
  deriving DecidableEq, Repr

namespace CTree

def color : CTree β → Color
  | leaf => .black
  | node c _ _ _ => c

def paint (c : Color) : CTree β → CTree β
  | leaf => leaf
  | node _ l x r => node c l x r

/-- The node with `near` on one side and `far` on the other. -/
def branch : Side → Color → β → CTree β → CTree β → CTree β
  | .left, c, x, near, far => node c near x far
  | .right, c, x, near, far => node c far x near

def view : Side → CTree β → Option (Color × β × CTree β × CTree β)
  | _, leaf => none
  | .left, node c near x far => some (c, x, near, far)
  | .right, node c far x near => some (c, x, near, far)

def inorder : CTree β → List β
  | leaf => []
  | node _ l x r => inorder l ++ x :: inorder r

/-- The same number of black nodes on all paths, and no red node below a red one. -/
def Balanced : CTree β → Nat → Prop
  | leaf, n => n = 0
  | node .red l _ r, n => Balanced l n ∧ Balanced r n ∧ l.color = .black ∧ r.color = .black
  | node .black l _ r, n => ∃ m, n = m + 1 ∧ Balanced l m ∧ Balanced r m

def Valid (t : CTree β) : Prop := t.color = .black ∧ ∃ n, t.Balanced n

section Branch

variable (s : Side) (c : Color) (x : β) (near far : CTree β)

@[simp] theorem color_branch : (branch s c x near far).color = c := by cases s <;> rfl

@[simp] theorem view_branch : (branch s c x near far).view s = some (c, x, near, far) := by
  cases s <;> rfl

@[simp] theorem paint_branch (c' : Color) :
    (branch s c x near far).paint c' = branch s c' x near far := by cases s <;> rfl

theorem branch_ne_leaf : branch s c x near far ≠ leaf := by cases s <;> exact nofun

theorem branch_flip : branch s.flip c x near far = branch s c x far near := by cases s <;> rfl

theorem balanced_branch_red {n : Nat} : (branch s .red x near far).Balanced n ↔
    near.Balanced n ∧ far.Balanced n ∧ near.color = .black ∧ far.color = .black := by
  cases s
  · exact Iff.rfl
  · exact ⟨fun h => ⟨h.2.1, h.1, h.2.2.2, h.2.2.1⟩, fun h => ⟨h.2.1, h.1, h.2.2.2, h.2.2.1⟩⟩

theorem balanced_branch_black {n : Nat} : (branch s .black x near far).Balanced n ↔
    ∃ m, n = m + 1 ∧ near.Balanced m ∧ far.Balanced m := by
  cases s
  · exact Iff.rfl
  · exact ⟨fun ⟨m, hm, hl, hr⟩ => ⟨m, hm, hr, hl⟩, fun ⟨m, hm, hl, hr⟩ => ⟨m, hm, hr, hl⟩⟩

theorem balanced_branch {n : Nat} (hnear : near.Balanced n) (hfar : far.Balanced n)
    (hred : c = .red → near.color = .black ∧ far.color = .black) :
    (branch s c x near far).Balanced (c.height n) := by
  cases c with
  | red => exact (balanced_branch_red s x near far).mpr ⟨hnear, hfar, hred rfl⟩
  | black => exact (balanced_branch_black s x near far).mpr ⟨n, rfl, hnear, hfar⟩

end Branch

theorem branch_of_view {s : Side} {t : CTree β} {c : Color} {x : β} {near far : CTree β}
    (h : t.view s = some (c, x, near, far)) : t = branch s c x near far := by
  cases t with
  | leaf => cases s <;> exact absurd h.symm (Option.some_ne_none _)
  | node c' l y r =>
    cases s
    · obtain ⟨rfl, rfl, rfl, rfl⟩ : c' = c ∧ y = x ∧ l = near ∧ r = far := by simpa [view] using h
      rfl
    · obtain ⟨rfl, rfl, rfl, rfl⟩ : c' = c ∧ y = x ∧ r = near ∧ l = far := by simpa [view] using h
      rfl

@[simp] theorem inorder_paint (c : Color) (t : CTree β) : (t.paint c).inorder = t.inorder := by
  cases t <;> rfl

theorem inorder_rotate (s : Side) (cx cy : Color) (x y : β) (A B C : CTree β) :
    (branch s cy y (branch s cx x A B) C).inorder =
      (branch s cx x A (branch s cy y B C)).inorder := by
  cases s <;> simp [branch, inorder]

theorem exists_branch (s : Side) {t : CTree β} (h : t ≠ leaf) :
    ∃ c x near far, t = branch s c x near far := by
  cases t with
  | leaf => exact absurd rfl h
  | node c l x r =>
    cases s
    · exact ⟨c, x, l, r, rfl⟩
    · exact ⟨c, x, r, l, rfl⟩

theorem ne_leaf_of_red {t : CTree β} (h : t.color = .red) : t ≠ leaf := by
  rintro rfl
  exact Color.noConfusion h

theorem ne_leaf_of_balanced {t : CTree β} {n : Nat} (h : t.Balanced (n + 1)) : t ≠ leaf := by
  rintro rfl
  exact Nat.succ_ne_zero n h

theorem color_eq_black {t : CTree β} (h : t.color ≠ .red) : t.color = .black := by
  cases hc : t.color with
  | red => exact absurd hc h
  | black => rfl

theorem color_paint {t : CTree β} (h : t ≠ leaf) (c : Color) : (t.paint c).color = c := by
  cases t with
  | leaf => exact absurd rfl h
  | node c' l x r => rfl

theorem paint_eq_self {t : CTree β} {c : Color} (h : t.color = c) : t.paint c = t := by
  cases t with
  | leaf => rfl
  | node c' l x r => rw [← h]; rfl

theorem balanced_paint_black {t : CTree β} {n : Nat} (h : t.Balanced n) (hred : t.color = .red) :
    (t.paint .black).Balanced (n + 1) := by
  cases t with
  | leaf => exact Color.noConfusion hred
  | node c l x r =>
    obtain rfl : c = .red := hred
    exact ⟨n, rfl, h.1, h.2.1⟩

end CTree

open CTree

/-! ## Frames -/

structure Frame (β : Type u) where
  side : Side
  color : Color
  label : β
  sibling : CTree β
  deriving DecidableEq, Repr

def Frame.attach (f : Frame β) (t : CTree β) : CTree β := branch f.side f.color f.label t f.sibling

def plug : CTree β → List (Frame β) → CTree β
  | t, [] => t
  | t, f :: p => plug (f.attach t) p

theorem plug_ne_leaf {t : CTree β} (h : t ≠ .leaf) (p : List (Frame β)) : plug t p ≠ .leaf := by
  induction p generalizing t with
  | nil => exact h
  | cons f p ih => exact ih (branch_ne_leaf _ _ _ _ _)

def before : List (Frame β) → List β
  | [] => []
  | f :: p =>
    match f.side with
    | .left => before p
    | .right => before p ++ (f.sibling.inorder ++ [f.label])

def after : List (Frame β) → List β
  | [] => []
  | f :: p =>
    match f.side with
    | .left => f.label :: f.sibling.inorder ++ after p
    | .right => after p

theorem inorder_plug (t : CTree β) (p : List (Frame β)) :
    (plug t p).inorder = before p ++ t.inorder ++ after p := by
  induction p generalizing t with
  | nil => simp [plug, before, after]
  | cons f p ih =>
    rw [plug, ih]
    obtain ⟨s, c, x, sib⟩ := f
    cases s <;> simp [Frame.attach, branch, inorder, before, after]

theorem length_le_plug (t : CTree β) (p : List (Frame β)) :
    p.length + t.inorder.length ≤ (plug t p).inorder.length := by
  induction p generalizing t with
  | nil => simp [plug]
  | cons f p ih =>
    have h := ih (f.attach t)
    obtain ⟨s, c, x, sib⟩ := f
    rw [plug]
    refine Nat.le_trans ?_ h
    cases s <;> simp [Frame.attach, branch, inorder] <;> omega

def pathColor : List (Frame β) → Color
  | [] => .black
  | f :: _ => f.color

/-- A tree with `n` black nodes on its paths, and a black root below a red frame, makes a red-black
tree. -/
def Fits : List (Frame β) → Nat → Prop
  | [], _ => True
  | f :: p, n =>
    f.sibling.Balanced n ∧
      match f.color with
      | .red => f.sibling.color = .black ∧ pathColor p = .black ∧ p ≠ [] ∧ Fits p n
      | .black => Fits p (n + 1)

theorem fits_red {f : Frame β} {p : List (Frame β)} {n : Nat} (h : f.color = .red) :
    Fits (f :: p) n ↔ f.sibling.Balanced n ∧ f.sibling.color = .black ∧ pathColor p = .black ∧
      p ≠ [] ∧ Fits p n := by
  simp only [Fits, h]

theorem fits_black {f : Frame β} {p : List (Frame β)} {n : Nat} (h : f.color = .black) :
    Fits (f :: p) n ↔ f.sibling.Balanced n ∧ Fits p (n + 1) := by
  simp only [Fits, h]

theorem Fits.up {f : Frame β} {p : List (Frame β)} {n : Nat} (h : Fits (f :: p) n) :
    Fits p (f.color.height n) := by
  cases hc : f.color with
  | red => exact ((fits_red hc).mp h).2.2.2.2
  | black => exact ((fits_black hc).mp h).2

theorem Fits.above {f : Frame β} {p : List (Frame β)} {n : Nat} (h : Fits (f :: p) n)
    (hc : pathColor p = .red ∨ p = []) : f.color = .black := by
  cases hf : f.color with
  | black => rfl
  | red =>
    obtain ⟨-, -, hp, hne, -⟩ := (fits_red hf).mp h
    rcases hc with hc | hc
    · exact Color.noConfusion (hp.symm.trans hc)
    · exact absurd hc hne

theorem valid_plug {p : List (Frame β)} {t : CTree β} {n : Nat} (h : Fits p n) (ht : t.Balanced n)
    (hc : pathColor p = .red ∨ p = [] → t.color = .black) : (plug t p).Valid := by
  induction p generalizing t n with
  | nil => exact ⟨hc (Or.inr rfl), n, ht⟩
  | cons f p ih =>
    refine ih h.up ?_ fun hp => ?_
    · refine balanced_branch f.side f.color f.label t f.sibling ht h.1 fun hred => ?_
      exact ⟨hc (Or.inl hred), ((fits_red hred).mp h).2.1⟩
    · rw [Frame.attach, color_branch]
      exact h.above hp

theorem fits_of_valid {p : List (Frame β)} {t : CTree β} (h : (plug t p).Valid) :
    ∃ n, t.Balanced n ∧ Fits p n ∧ (pathColor p = .red ∨ p = [] → t.color = .black) := by
  induction p generalizing t with
  | nil =>
    obtain ⟨hc, n, hn⟩ := h
    exact ⟨n, hn, trivial, fun _ => hc⟩
  | cons f p ih =>
    obtain ⟨n, hn, hfits, hc⟩ := ih h
    rw [Frame.attach, color_branch] at hc
    cases hf : f.color with
    | red =>
      rw [Frame.attach, hf, balanced_branch_red] at hn
      obtain ⟨ht, hs, htc, hsc⟩ := hn
      have hp : ¬ (pathColor p = .red ∨ p = []) := fun hp =>
        Color.noConfusion (hf.symm.trans (hc hp))
      rw [not_or] at hp
      refine ⟨n, ht, (fits_red hf).mpr ⟨hs, hsc, ?_, hp.2, hfits⟩, fun _ => htc⟩
      cases hpc : pathColor p with
      | red => exact absurd hpc hp.1
      | black => rfl
    | black =>
      rw [Frame.attach, hf, balanced_branch_black] at hn
      obtain ⟨m, rfl, ht, hs⟩ := hn
      refine ⟨m, ht, (fits_black hf).mpr ⟨hs, hfits⟩, fun hp => ?_⟩
      rcases hp with hp | hp
      · exact Color.noConfusion (hf.symm.trans hp)
      · exact absurd hp (List.cons_ne_nil f p)

def Reddened (t : CTree β) (p : List (Frame β)) : Prop :=
  ∃ n, t.Balanced n ∧ t.color = .red ∧ Fits p n

/-- A round for a red tree below a red frame `f` and a black one `g`. -/
def insertRound (t : CTree β) (f g : Frame β) (p : List (Frame β)) : CTree β × List (Frame β) :=
  if g.sibling.color = .red then
    (branch g.side .red g.label (branch f.side .black f.label t f.sibling)
      (g.sibling.paint .black), p)
  else if f.side = g.side then
    (t, { side := g.side, color := .black, label := f.label,
          sibling := branch g.side .red g.label f.sibling g.sibling } :: p)
  else
    match t.view g.side with
    | none => (t, f :: g :: p)
    | some (_, x, near, far) =>
      (branch g.side .red f.label f.sibling near,
        { side := g.side, color := .black, label := x,
          sibling := branch g.side .red g.label far g.sibling } :: p)

def labels (z : CTree β × List (Frame β)) : List β := (plug z.1 z.2).inorder

theorem insertRound_labels (t : CTree β) (f g : Frame β) (p : List (Frame β)) :
    labels (insertRound t f g p) = labels (t, f :: g :: p) := by
  obtain ⟨fs, fc, fx, fsib⟩ := f
  obtain ⟨gs, gc, gx, gsib⟩ := g
  unfold labels insertRound
  split
  · simp only [plug, inorder_plug]
    cases fs <;> cases gs <;> simp [Frame.attach, branch, inorder]
  · split
    · next hs =>
      obtain rfl : fs = gs := hs
      simp only [plug, inorder_plug]
      cases fs <;> simp [Frame.attach, branch, inorder]
    · next hs =>
      cases t with
      | leaf => rfl
      | node c l x r =>
        cases fs <;> cases gs <;> simp [view, plug, inorder_plug, Frame.attach, branch, inorder]
        · exact absurd rfl hs
        · exact absurd rfl hs

theorem insertRound_reddened {t : CTree β} {f g : Frame β} {p : List (Frame β)}
    (h : Reddened t (f :: g :: p)) (hf : f.color = .red) :
    Reddened (insertRound t f g p).1 (insertRound t f g p).2 := by
  obtain ⟨n, ht, htc, hfits⟩ := h
  obtain ⟨hfs, hfsc, hg, -, hfits⟩ := (fits_red hf).mp hfits
  have hg : g.color = .black := hg
  obtain ⟨hgs, hfits⟩ := (fits_black hg).mp hfits
  unfold insertRound
  split
  · next hred =>
    refine ⟨n + 1, ?_, color_branch _ _ _ _ _, hfits⟩
    rw [balanced_branch_red]
    refine ⟨(balanced_branch_black _ _ _ _).mpr ⟨n, rfl, ht, hfs⟩, balanced_paint_black hgs hred,
      color_branch _ _ _ _ _, color_paint (ne_leaf_of_red hred) _⟩
  · next hblack =>
    have hgsc := color_eq_black hblack
    split
    · refine ⟨n, ht, htc, (fits_black rfl).mpr ⟨?_, hfits⟩⟩
      exact (balanced_branch_red _ _ _ _).mpr ⟨hfs, hgs, hfsc, hgsc⟩
    · obtain ⟨c, x, near, far, rfl⟩ := exists_branch g.side (ne_leaf_of_red htc)
      rw [color_branch] at htc
      subst htc
      obtain ⟨hnear, hfar, hnc, hfc⟩ := (balanced_branch_red _ _ _ _).mp ht
      rw [view_branch]
      refine ⟨n, (balanced_branch_red _ _ _ _).mpr ⟨hfs, hnear, hfsc, hnc⟩,
        color_branch _ _ _ _ _, (fits_black rfl).mpr ⟨?_, hfits⟩⟩
      exact (balanced_branch_red _ _ _ _).mpr ⟨hfar, hgs, hfc, hgsc⟩

theorem Reddened.valid {t : CTree β} {p : List (Frame β)} (h : Reddened t p)
    (hc : pathColor p = .black) : ((plug t p).paint .black).Valid := by
  obtain ⟨n, ht, htc, hfits⟩ := h
  cases p with
  | nil => exact ⟨color_paint (ne_leaf_of_red htc) _, n + 1, balanced_paint_black ht htc⟩
  | cons f p =>
    have hvalid : (plug t (f :: p)).Valid := valid_plug hfits ht fun h => by
      rcases h with h | h
      · exact Color.noConfusion (h.symm.trans hc)
      · exact absurd h (List.cons_ne_nil f p)
    rw [paint_eq_self hvalid.1]
    exact hvalid

theorem insertRound_length {t : CTree β} {f g : Frame β} {p : List (Frame β)}
    (ht : t.color = .red) :
    (insertRound t f g p).2.length < (f :: g :: p).length := by
  obtain ⟨c, x, near, far, rfl⟩ := exists_branch g.side (ne_leaf_of_red ht)
  unfold insertRound
  rw [view_branch]
  split
  · simp only [List.length_cons]
    omega
  · split <;> simp

/-! ## After a deletion -/

/-- The hole has a tree that is one black node short, unless its root may be made black. -/
def Short (t : CTree β) (p : List (Frame β)) : Prop :=
  ∃ n, Fits p (n + 1) ∧ (t.color = .red → (t.paint .black).Balanced (n + 1)) ∧
    (t.color = .black → t.Balanced n)

/-- A round below a frame `f` whose other branch is black. -/
def shortRound (t : CTree β) (f : Frame β) (p : List (Frame β)) : CTree β × List (Frame β) :=
  match f.sibling.view f.side with
  | none => (t, f :: p)
  | some (_, y, near, far) =>
    if far.color = .black ∧ near.color = .black then
      (branch f.side f.color f.label t (branch f.side .red y near far), p)
    else if far.color = .black then
      match near.view f.side with
      | none => (t, f :: p)
      | some (_, w, n1, n2) =>
        (plug (branch f.side f.color w (branch f.side .black f.label t n1)
          (branch f.side .black y n2 far)) p, [])
    else
      (plug (branch f.side f.color y (branch f.side .black f.label t near)
        (far.paint .black)) p, [])

def deleteRound (t : CTree β) (f : Frame β) (p : List (Frame β)) : CTree β × List (Frame β) :=
  match f.sibling.color, f.sibling.view f.side with
  | .red, some (_, y, near, far) =>
    shortRound t { f with color := .red, sibling := near }
      ({ side := f.side, color := .black, label := y, sibling := far } :: p)
  | _, _ => shortRound t f p

theorem shortRound_labels (t : CTree β) (f : Frame β) (p : List (Frame β)) :
    labels (shortRound t f p) = labels (t, f :: p) := by
  obtain ⟨s, c, x, sib⟩ := f
  unfold labels shortRound
  cases hv : sib.view s with
  | none => rfl
  | some v =>
    obtain ⟨cy, y, near, far⟩ := v
    obtain rfl := branch_of_view hv
    dsimp only
    split
    · simp only [plug, inorder_plug]
      cases s <;> simp [Frame.attach, branch, inorder]
    · split
      · cases hw : near.view s with
        | none => rfl
        | some v =>
          obtain ⟨cw, w, n1, n2⟩ := v
          obtain rfl := branch_of_view hw
          simp only [plug, inorder_plug]
          cases s <;> simp [Frame.attach, branch, inorder]
      · simp only [plug, inorder_plug]
        cases s <;> simp [Frame.attach, branch, inorder]

theorem deleteRound_labels (t : CTree β) (f : Frame β) (p : List (Frame β)) :
    labels (deleteRound t f p) = labels (t, f :: p) := by
  unfold deleteRound
  split
  · next y near far hc hv =>
    rw [shortRound_labels]
    obtain ⟨s, c, x, sib⟩ := f
    dsimp only at hv ⊢
    obtain rfl := branch_of_view hv
    simp only [labels, plug, inorder_plug]
    cases s <;> simp [Frame.attach, branch, inorder]
  · exact shortRound_labels t f p

theorem short_plug {p : List (Frame β)} {t : CTree β} {n : Nat} (h : Fits p n) (ht : t.Balanced n)
    (hc : pathColor p = .red ∨ p = [] → t.color = .black) : Short (plug t p) [] := by
  obtain ⟨hb, m, hm⟩ := valid_plug h ht hc
  refine ⟨m, trivial, fun hred => ?_, fun _ => hm⟩
  exact Color.noConfusion (hred.symm.trans hb)

theorem shortRound_short {t : CTree β} {f : Frame β} {p : List (Frame β)} (h : Short t (f :: p))
    (ht : t.color = .black) (hs : f.sibling.color = .black) :
    Short (shortRound t f p).1 (shortRound t f p).2 := by
  obtain ⟨n, hfits, -, hbal⟩ := h
  have htb := hbal ht
  have hup := hfits.up
  have habove := hfits.above
  obtain ⟨c, y, near, far, hsib⟩ := exists_branch f.side (ne_leaf_of_balanced hfits.1)
  have hsb := hfits.1
  rw [hsib] at hs hsb
  rw [color_branch] at hs
  subst hs
  obtain ⟨m, hm, hnear, hfar⟩ := (balanced_branch_black _ _ _ _).mp hsb
  obtain rfl : n = m := Nat.succ.inj hm
  unfold shortRound
  rw [hsib, view_branch]
  dsimp only
  split
  · next hboth =>
    have hred := (balanced_branch_red f.side y near far).mpr ⟨hnear, hfar, hboth.2, hboth.1⟩
    have hblack := (balanced_branch_black f.side f.label t (branch f.side .red y near far)).mpr
      ⟨n, rfl, htb, hred⟩
    cases hf : f.color with
    | red =>
      rw [hf] at hup
      refine ⟨n, hup, fun _ => by rwa [paint_branch], fun hc => ?_⟩
      rw [color_branch] at hc
      exact Color.noConfusion hc
    | black =>
      rw [hf] at hup
      refine ⟨n + 1, hup, fun hc => ?_, fun _ => hblack⟩
      rw [color_branch] at hc
      exact Color.noConfusion hc
  · next hsome =>
    have hblack {x : β} {a b : CTree β} (ha : a.Balanced n) (hb : b.Balanced n) :
        (branch f.side .black x a b).Balanced (n + 1) :=
      (balanced_branch_black _ _ _ _).mpr ⟨n, rfl, ha, hb⟩
    split
    · next hfb =>
      have hnr : near.color = .red := by
        cases hc : near.color with
        | red => rfl
        | black => exact absurd ⟨hfb, hc⟩ hsome
      obtain ⟨cw, w, n1, n2, rfl⟩ := exists_branch f.side (ne_leaf_of_red hnr)
      rw [color_branch] at hnr
      subst hnr
      obtain ⟨hn1, hn2, -, -⟩ := (balanced_branch_red _ _ _ _).mp hnear
      rw [view_branch]
      refine short_plug hup (balanced_branch _ _ _ _ _ (hblack htb hn1) (hblack hn2 hfar)
        fun _ => ⟨color_branch _ _ _ _ _, color_branch _ _ _ _ _⟩) fun hp => ?_
      rw [color_branch]
      exact habove hp
    · next hfr =>
      have hfr : far.color = .red := by
        cases hc : far.color with
        | red => rfl
        | black => exact absurd hc hfr
      refine short_plug hup (balanced_branch _ _ _ _ _ (hblack htb hnear)
        (balanced_paint_black hfar hfr)
        fun _ => ⟨color_branch _ _ _ _ _, color_paint (ne_leaf_of_red hfr) _⟩) fun hp => ?_
      rw [color_branch]
      exact habove hp

theorem deleteRound_cases {t : CTree β} {f : Frame β} {p : List (Frame β)} (h : Short t (f :: p)) :
    (f.sibling.color = .black ∧ f.sibling ≠ leaf ∧ deleteRound t f p = shortRound t f p) ∨
      ∃ y near far, f.sibling = branch f.side .red y near far ∧ f.color = .black ∧
        near.color = .black ∧ near ≠ leaf ∧
        deleteRound t f p = shortRound t { f with color := .red, sibling := near }
          ({ side := f.side, color := .black, label := y, sibling := far } :: p) := by
  obtain ⟨n, hfits, -, -⟩ := h
  have hleaf := ne_leaf_of_balanced hfits.1
  obtain ⟨c, y, near, far, hsib⟩ := exists_branch f.side hleaf
  have hsb := hfits.1
  rw [hsib] at hsb
  cases c with
  | black =>
    refine Or.inl ⟨by rw [hsib, color_branch], hleaf, ?_⟩
    unfold deleteRound
    rw [hsib, color_branch]
  | red =>
    have hf : f.color = .black := by
      cases hf : f.color with
      | black => rfl
      | red =>
        have hc := ((fits_red hf).mp hfits).2.1
        rw [hsib, color_branch] at hc
        exact Color.noConfusion hc
    obtain ⟨hnear, -, hnc, -⟩ := (balanced_branch_red _ _ _ _).mp hsb
    refine Or.inr ⟨y, near, far, hsib, hf, hnc, ne_leaf_of_balanced hnear, ?_⟩
    unfold deleteRound
    rw [hsib, color_branch, view_branch]

theorem deleteRound_short {t : CTree β} {f : Frame β} {p : List (Frame β)} (h : Short t (f :: p))
    (ht : t.color = .black) : Short (deleteRound t f p).1 (deleteRound t f p).2 := by
  rcases deleteRound_cases h with ⟨hs, -, heq⟩ | ⟨y, near, far, hsib, hf, hnc, -, heq⟩
  · rw [heq]
    exact shortRound_short h ht hs
  · rw [heq]
    obtain ⟨n, hfits, hred, hbal⟩ := h
    obtain ⟨hsb, hfits⟩ := (fits_black hf).mp hfits
    rw [hsib] at hsb
    obtain ⟨hnear, hfar, -, -⟩ := (balanced_branch_red _ _ _ _).mp hsb
    refine shortRound_short ⟨n, ?_, hred, hbal⟩ ht hnc
    exact (fits_red rfl).mpr ⟨hnear, hnc, rfl, List.cons_ne_nil _ _,
      (fits_black rfl).mpr ⟨hfar, hfits⟩⟩

def rounds (t : CTree β) (p : List (Frame β)) : Nat :=
  2 * p.length + if t.color = .red then 0 else 1

theorem rounds_top (t : CTree β) : rounds t [] ≤ 1 := by
  unfold rounds
  split <;> simp

theorem shortRound_shape {t : CTree β} {f : Frame β} {p : List (Frame β)} (hs : f.sibling ≠ leaf) :
    ∃ R : CTree β, R ≠ leaf ∧ (shortRound t f p = (R, p) ∧ R.color = f.color ∨
      shortRound t f p = (plug R p, [])) := by
  obtain ⟨c, y, near, far, hsib⟩ := exists_branch f.side hs
  unfold shortRound
  rw [hsib, view_branch]
  dsimp only
  split
  · exact ⟨_, branch_ne_leaf _ _ _ _ _, Or.inl ⟨rfl, color_branch _ _ _ _ _⟩⟩
  · next hsome =>
    split
    · next hfb =>
      have hnear : near ≠ leaf := fun h => hsome ⟨hfb, by rw [h]; rfl⟩
      obtain ⟨cw, w, n1, n2, rfl⟩ := exists_branch f.side hnear
      rw [view_branch]
      exact ⟨_, branch_ne_leaf _ _ _ _ _, Or.inr rfl⟩
    · exact ⟨_, branch_ne_leaf _ _ _ _ _, Or.inr rfl⟩

theorem shortRound_rounds {t : CTree β} {f : Frame β} {p : List (Frame β)}
    (hs : f.sibling ≠ leaf) :
    rounds (shortRound t f p).1 (shortRound t f p).2 ≤ 1 ∨
      rounds (shortRound t f p).1 (shortRound t f p).2 =
        2 * p.length + if f.color = .red then 0 else 1 := by
  obtain ⟨R, -, ⟨heq, hc⟩ | heq⟩ := shortRound_shape (t := t) (p := p) hs
  · right
    rw [heq, rounds, hc]
  · left
    rw [heq]
    exact rounds_top _

theorem deleteRound_rounds {t : CTree β} {f : Frame β} {p : List (Frame β)} (h : Short t (f :: p))
    (ht : t.color = .black) :
    rounds (deleteRound t f p).1 (deleteRound t f p).2 < rounds t (f :: p) := by
  have hrounds : rounds t (f :: p) = 2 * p.length + 3 := by
    rw [rounds, ht, if_neg Color.noConfusion, List.length_cons]
    omega
  rw [hrounds]
  rcases deleteRound_cases h with ⟨-, hleaf, heq⟩ | ⟨y, near, far, -, -, -, hleaf, heq⟩
  · rw [heq]
    rcases shortRound_rounds (t := t) (p := p) hleaf with h | h
    · omega
    · rw [h]
      split <;> omega
  · rw [heq]
    rcases shortRound_rounds (t := t) (f := { f with color := .red, sibling := near })
      (p := { side := f.side, color := .black, label := y, sibling := far } :: p) hleaf with h | h
    · omega
    · rw [h, List.length_cons, if_pos rfl]
      omega

theorem deleteRound_ne_leaf {t : CTree β} {f : Frame β} {p : List (Frame β)}
    (h : Short t (f :: p)) : (deleteRound t f p).1 ≠ leaf := by
  have hround {f : Frame β} {p : List (Frame β)} (hs : f.sibling ≠ leaf) :
      (shortRound t f p).1 ≠ leaf := by
    obtain ⟨R, hR, ⟨heq, -⟩ | heq⟩ := shortRound_shape (t := t) (p := p) hs
    · rw [heq]
      exact hR
    · rw [heq]
      exact plug_ne_leaf hR p
  rcases deleteRound_cases h with ⟨-, hleaf, heq⟩ | ⟨y, near, far, -, -, -, hleaf, heq⟩
  · rw [heq]
    exact hround hleaf
  · rw [heq]
    exact hround hleaf

theorem Short.valid {t : CTree β} {p : List (Frame β)} (h : Short t p)
    (hend : t.color = .red ∨ p = []) : (plug (t.paint .black) p).Valid := by
  obtain ⟨n, hfits, hred, hblack⟩ := h
  cases hc : t.color with
  | red => exact valid_plug hfits (hred hc) fun _ => color_paint (ne_leaf_of_red hc) _
  | black =>
    obtain rfl : p = [] := hend.resolve_left fun h => Color.noConfusion (hc.symm.trans h)
    rw [paint_eq_self hc]
    exact ⟨hc, n, hblack hc⟩

/-- Down to the label that `order` finds, or to the leaf where it would be. -/
def descend (order : β → Ordering) : CTree β → List (Frame β) → CTree β × List (Frame β)
  | .leaf, p => (.leaf, p)
  | .node c l x r, p =>
    match order x with
    | .lt => descend order l ({ side := .left, color := c, label := x, sibling := r } :: p)
    | .eq => (.node c l x r, p)
    | .gt => descend order r ({ side := .right, color := c, label := x, sibling := l } :: p)

variable {order : β → Ordering}

theorem plug_descend (t : CTree β) (p : List (Frame β)) :
    plug (descend order t p).1 (descend order t p).2 = plug t p := by
  induction t generalizing p with
  | leaf => rfl
  | node c l x r ihl ihr =>
    unfold descend
    split
    · rw [ihl]
      rfl
    · rfl
    · rw [ihr]
      rfl

/-- `order` tells on which side of a label it looks for another. -/
def Cut (order : β → Ordering) (x y : β) : Prop :=
  (order x ≠ .gt → order y = .lt) ∧ (order y ≠ .lt → order x = .gt)

theorem descend_sides {t : CTree β} {p : List (Frame β)}
    (hcut : (plug t p).inorder.Pairwise (Cut order)) (hbefore : ∀ x ∈ before p, order x = .gt)
    (hafter : ∀ x ∈ after p, order x = .lt) :
    (∀ x ∈ before (descend order t p).2, order x = .gt) ∧
      (∀ x ∈ after (descend order t p).2, order x = .lt) := by
  induction t generalizing p with
  | leaf => exact ⟨hbefore, hafter⟩
  | node c l x r ihl ihr =>
    have hsplit := hcut
    rw [inorder_plug, inorder, List.append_assoc, List.append_assoc,
      List.pairwise_append] at hsplit
    obtain ⟨-, hmid, -⟩ := hsplit
    rw [List.pairwise_append] at hmid
    obtain ⟨-, hmid, hleft⟩ := hmid
    rw [List.cons_append, List.pairwise_cons] at hmid
    unfold descend
    split
    · next hx =>
      refine ihl hcut hbefore fun y hy => ?_
      rcases List.mem_cons.mp hy with rfl | hy
      · exact hx
      · exact (hmid.1 y hy).1 (by rw [hx]; exact Ordering.noConfusion)
    · exact ⟨hbefore, hafter⟩
    · next hx =>
      refine ihr hcut (fun y hy => ?_) hafter
      rcases List.mem_append.mp hy with hy | hy
      · exact hbefore y hy
      · rcases List.mem_append.mp hy with hy | hy
        · exact (hleft y hy x List.mem_cons_self).2 (by rw [hx]; exact Ordering.noConfusion)
        · rw [List.mem_singleton.mp hy]
          exact hx

theorem descend_found (t : CTree β) (p : List (Frame β)) : (descend order t p).1 = .leaf ∨
    ∃ c l x r, (descend order t p).1 = .node c l x r ∧ order x = .eq := by
  induction t generalizing p with
  | leaf => exact Or.inl rfl
  | node c l x r ihl ihr =>
    unfold descend
    split
    · exact ihl _
    · next h => exact Or.inr ⟨c, l, x, r, rfl, h⟩
    · exact ihr _

theorem exists_zipper {t : CTree β} {x : β} (h : x ∈ t.inorder) :
    ∃ c l r p, t = plug (.node c l x r) p := by
  suffices hp : ∀ q : List (Frame β), ∃ c l r p, plug t q = plug (.node c l x r) p from hp []
  induction t with
  | leaf => exact absurd h List.not_mem_nil
  | node c l y r ihl ihr =>
    intro q
    rcases List.mem_append.mp h with h | h
    · exact ihl h ({ side := .left, color := c, label := y, sibling := r } :: q)
    · rcases List.mem_cons.mp h with rfl | h
      · exact ⟨c, l, r, q, rfl⟩
      · exact ihr h ({ side := .right, color := c, label := y, sibling := l } :: q)

def leftEnd : CTree β → List (Frame β) → CTree β × List (Frame β)
  | .leaf, p => (.leaf, p)
  | .node c .leaf x r, p => (.node c .leaf x r, p)
  | .node c (.node lc ll lx lr) x r, p =>
    leftEnd (.node lc ll lx lr) ({ side := .left, color := c, label := x, sibling := r } :: p)

theorem leftEnd_spec (t : CTree β) (p : List (Frame β)) (h : t ≠ .leaf) :
    ∃ c x r, (leftEnd t p).1 = .node c .leaf x r ∧ before (leftEnd t p).2 = before p ∧
      plug (leftEnd t p).1 (leftEnd t p).2 = plug t p := by
  induction t generalizing p with
  | leaf => exact absurd rfl h
  | node c l x r ihl ihr =>
    cases l with
    | leaf => exact ⟨c, x, r, rfl, rfl, rfl⟩
    | node lc ll lx lr =>
      exact ihl ({ side := .left, color := c, label := x, sibling := r } :: p) nofun

theorem valid_relabel {c : Color} {l r : CTree β} {x y : β} {p : List (Frame β)}
    (h : (plug (.node c l x r) p).Valid) : (plug (.node c l y r) p).Valid := by
  obtain ⟨n, hn, hfits, hc⟩ := fits_of_valid h
  refine valid_plug hfits ?_ hc
  cases c <;> exact hn

theorem short_of_valid {l r t : CTree β} {x : β} {p : List (Frame β)} (ht : t = l ∨ t = r)
    (h : (plug (.node .black l x r) p).Valid) : Short t p := by
  obtain ⟨n, ⟨m, rfl, hl, hr⟩, hfits, -⟩ := fits_of_valid h
  have hm : t.Balanced m := by rcases ht with rfl | rfl <;> assumption
  exact ⟨m, hfits, balanced_paint_black hm, fun _ => hm⟩

theorem valid_of_red {l r t : CTree β} {x : β} {p : List (Frame β)} (ht : t = l ∨ t = r)
    (h : (plug (.node .red l x r) p).Valid) : (plug t p).Valid := by
  obtain ⟨n, ⟨hl, hr, hlc, hrc⟩, hfits, -⟩ := fits_of_valid h
  rcases ht with rfl | rfl
  · exact valid_plug hfits hl fun _ => hlc
  · exact valid_plug hfits hr fun _ => hrc

end NextBSD.RedBlack
