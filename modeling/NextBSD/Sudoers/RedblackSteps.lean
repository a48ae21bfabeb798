import NextBSD.Sudoers.RedblackHeap

/-!
# sudoers redblack.c: rounds in the heap

A round of a loop in the heap is a round of the library's on the tree that the heap has.
-/

namespace NextBSD.Sudoers

open RedBlack

universe u

variable {α : Type u} {null : α} {ns : List Nat} {h0 h : RbHeap α} {t : CTree (Nat × α)}
  {f g : Frame (Nat × α)} {p : List (Frame (Nat × α))} {s : Side} {c : Color}

theorem setChild_child (n : Rbnode α) (s : Side) : n.setChild s (n.child s) = n := by
  cases s <;> rfl

/-- From `h0` the heap came to have `plug t p`, whose nodes `ns` are. -/
structure Reaches (null : α) (ns : List Nat) (h0 h : RbHeap α) (t : CTree (Nat × α))
    (p : List (Frame (Nat × α))) : Prop where
  holds : Holds null h t p
  same : SameOff ns h0 h
  labels : addrs (plug t p) = ns

theorem Holds.reaches (H : Holds null h t p) : Reaches null (addrs (plug t p)) h h t p :=
  ⟨H, SameOff.refl _ h, rfl⟩

namespace Reaches

theorem attach_iff : Reaches null ns h0 h t (f :: p) ↔ Reaches null ns h0 h (f.attach t) p :=
  ⟨fun H => ⟨holds_attach.mp H.holds, H.same, H.labels⟩,
    fun H => ⟨holds_attach.mpr H.holds, H.same, H.labels⟩⟩

theorem attach (H : Reaches null ns h0 h t (f :: p)) : Reaches null ns h0 h (f.attach t) p :=
  attach_iff.mp H

theorem of_branch {x : Nat × α} {sib : CTree (Nat × α)}
    (H : Reaches null ns h0 h (CTree.branch s c x t sib) p) :
    Reaches null ns h0 h t ({ side := s, color := c, label := x, sibling := sib } :: p) :=
  attach_iff.mpr H

theorem sibling (H : Reaches null ns h0 h t (f :: p)) : Reaches null ns h0 h f.sibling
    ({ side := f.side.flip, color := f.color, label := f.label, sibling := t } :: p) := by
  refine of_branch ?_
  rw [CTree.branch_flip]
  exact H.attach

theorem rotate {cx cy : Color} {x y : Nat × α} {A B C : CTree (Nat × α)}
    (H : Reaches null ns h0 h (CTree.branch s cx x A (CTree.branch s cy y B C)) p) :
    Reaches null ns h0 (Sudoers.rotate s h (.node x.1))
      (CTree.branch s cy y (CTree.branch s cx x A B) C) p := by
  obtain ⟨hh, hs⟩ := H.holds.rotate
  refine ⟨hh, H.same.trans (H.labels ▸ hs), ?_⟩
  rw [← H.labels, addrs, addrs, inorder_plug, inorder_plug, CTree.inorder_rotate]

theorem paint (H : Reaches null ns h0 h t p) (hc : t ≠ .leaf ∨ c = .black) :
    Reaches null ns h0 (h.setColor (ptr t) c) (t.paint c) p := by
  cases t with
  | leaf =>
    obtain rfl : c = .black := hc.resolve_left fun h => h rfl
    have heq : h.setColor .nil .black = h := by
      funext q
      by_cases hq : q = .nil
      · subst hq
        rw [RbHeap.setColor, RbHeap.modify_self, ← H.holds.nil]
      · exact RbHeap.modify_ne _ _ hq
    show Reaches null ns h0 (h.setColor .nil .black) .leaf p
    rw [heq]
    exact H
  | node c' l x r =>
    have hlabels : addrs (plug (CTree.node c l x r) p) = ns := by
      rw [← H.labels, addrs, addrs, inorder_plug, inorder_plug]
      rfl
    have hnd := nodup_plug H.holds.nodup
    have hap := apart_node hnd.1
    have hx : x.1 ∈ addrs (CTree.node c' l x r) := mem_addrs_of_ptr rfl
    have hne {q : RbPtr} (hq : q ≠ .node x.1) : h.setColor (.node x.1) c q = h q :=
      RbHeap.modify_ne _ _ hq
    have hnode {m n : Nat} (hmn : m ≠ n) : RbPtr.node m ≠ .node n := fun h =>
      hmn (RbPtr.node.inj h)
    have hroot : h.setColor (.node x.1) c .root = h .root := hne RbPtr.noConfusion
    have hpar := parentPtr_ne H.holds.nodup hx
    refine ⟨H.holds.replace ?_ ?_ (fun _ => hroot) (fun n hn _ => ?_)
      ((congrArg Rbnode.color (hne RbPtr.noConfusion)).trans H.holds.nil) ?_, ?_, hlabels⟩
    · refine ⟨?_, H.holds.tree.2.1.congr fun n hn => hne (hnode fun h => hap.notNear (h ▸ hn)),
        H.holds.tree.2.2.congr fun n hn => hne (hnode fun h => hap.notFar (h ▸ hn))⟩
      show h.setColor (.node x.1) c (.node x.1) = _
      rw [RbHeap.setColor, RbHeap.modify_self, H.holds.tree.1]
    · show h.setColor (.node x.1) c (parentPtr p) = _
      rw [hne hpar, ptr_paint, ← H.holds.parent_child, setChild_child]
    · exact hne (hnode fun h => hnd.2 x.1 hx (h ▸ hn))
    · show (addrs (plug (CTree.node c l x r) p)).Nodup
      rw [hlabels, ← H.labels]
      exact H.holds.nodup
    · refine H.same.trans ⟨hne RbPtr.noConfusion, fun n hn => hne (hnode fun h => ?_)⟩
      exact hn (H.labels ▸ mem_addrs_plug.mpr (Or.inl (h ▸ hx)))

theorem paintParent (H : Reaches null ns h0 h t (f :: p)) (c : Color) :
    Reaches null ns h0 (h.setColor (.node f.label.1) c) t ({ f with color := c } :: p) := by
  have hne : f.attach t ≠ .leaf := fun hl => by
    rw [← ptr_eq_nil, Frame.attach, ptr_branch] at hl
    exact RbPtr.noConfusion hl
  have hp := H.attach.paint (c := c) (Or.inl hne)
  rw [Frame.attach, ptr_branch, CTree.paint_branch] at hp
  exact hp.of_branch

theorem paintSibling (H : Reaches null ns h0 h t (f :: p)) (hc : f.sibling ≠ .leaf ∨ c = .black) :
    Reaches null ns h0 (h.setColor (ptr f.sibling) c) t
      ({ f with sibling := f.sibling.paint c } :: p) := by
  have hp := (H.sibling.paint hc).sibling
  rwa [Side.flip_flip] at hp

theorem rotateParent {x y : Nat × α} {cx cy : Color} {near far : CTree (Nat × α)}
    (H : Reaches null ns h0 h t (⟨s, cx, x, CTree.branch s cy y near far⟩ :: p)) :
    Reaches null ns h0 (Sudoers.rotate s h (.node x.1)) t
      ({ side := s, color := cx, label := x, sibling := near } ::
        { side := s, color := cy, label := y, sibling := far } :: p) :=
  H.attach.rotate.of_branch.of_branch

theorem rotateAway {x y : Nat × α} {cx cy : Color} {A near far : CTree (Nat × α)}
    (H : Reaches null ns h0 h (CTree.branch s cy y near far)
      ({ side := s, color := cx, label := x, sibling := A } :: p)) :
    Reaches null ns h0 (Sudoers.rotate s.flip h (.node x.1))
      (CTree.branch s cy y near (CTree.branch s cx x far A)) p := by
  have hb : Frame.attach { side := s, color := cx, label := x, sibling := A }
      (CTree.branch s cy y near far) =
      CTree.branch s.flip cx x A (CTree.branch s.flip cy y far near) := by
    simp only [Frame.attach, CTree.branch_flip]
  have hp := H.attach
  rw [hb] at hp
  have hr := hp.rotate
  rwa [CTree.branch_flip, CTree.branch_flip] at hr

end Reaches

section Read

variable (H : Reaches null ns h0 h t (f :: p))

include H

theorem Reaches.node : h (.node f.label.1) =
    rbnode f.side (ptr t) (ptr f.sibling) (parentPtr p) f.label.2 f.color := H.holds.path.1

theorem Reaches.sibling_color : (h (ptr f.sibling)).color = f.sibling.color := H.sibling.holds.color

end Read

theorem insertCase_align (H : Reaches null ns h0 h t (f :: g :: p)) (ht : t.color = .red)
    (hf : f.color = .red) (hu : g.sibling.color ≠ .red) :
    ∃ t1 f1, f1.side = g.side ∧ t1 ≠ .leaf ∧
      Reaches null ns h0 (if ptr t = (h (.node f.label.1)).child g.side.flip then
        (rotate g.side h (.node f.label.1), RbPtr.node f.label.1) else (h, ptr t)).1 t1
        (f1 :: g :: p) ∧
      (if ptr t = (h (.node f.label.1)).child g.side.flip then
        (rotate g.side h (.node f.label.1), RbPtr.node f.label.1) else (h, ptr t)).2 = ptr t1 ∧
      insertRound t f g p = (t1, ⟨g.side, .black, f1.label,
        CTree.branch g.side .red g.label f1.sibling g.sibling⟩ :: p) := by
  have hleaf := CTree.ne_leaf_of_red ht
  rw [H.node]
  unfold insertRound
  rw [if_neg hu]
  by_cases hs : f.side = g.side
  · have hne : ¬ ptr t = ptr f.sibling := fun heq =>
      ptr_sibling_ne H.holds.nodup hleaf heq.symm
    rw [← hs, rbnode_far, if_neg hne, if_pos rfl]
    exact ⟨t, f, rfl, hleaf, H, rfl, rfl⟩
  · have hs' : g.side.flip = f.side := by
      cases hf : f.side <;> cases hg : g.side <;> simp_all [Side.flip]
    rw [hs', rbnode_near, if_pos rfl, if_neg hs]
    obtain ⟨c, x, near, far, rfl⟩ := CTree.exists_branch g.side hleaf
    rw [CTree.color_branch] at ht
    subst ht
    rw [CTree.view_branch]
    refine ⟨CTree.branch g.side .red f.label f.sibling near, ⟨g.side, .red, x, far⟩, rfl,
      CTree.branch_ne_leaf _ _ _ _ _, ?_, ?_, rfl⟩
    · have hb : f.attach (CTree.branch g.side .red x near far) =
          CTree.branch g.side .red f.label f.sibling (CTree.branch g.side .red x near far) := by
        rw [Frame.attach, hf, ← hs', CTree.branch_flip]
      have hp := H.attach
      rw [hb] at hp
      exact hp.rotate.of_branch
    · rw [ptr_branch]

theorem insertCase_reaches (H : Reaches null ns h0 h t (f :: g :: p)) (ht : t.color = .red)
    (hf : f.color = .red) :
    Reaches null ns h0 (insertCase g.side h (ptr t)).1 (insertRound t f g p).1
      (insertRound t f g p).2 ∧
      (insertCase g.side h (ptr t)).2 = ptr (insertRound t f g p).1 := by
  have hparent : (h (ptr t)).parent = .node f.label.1 := H.holds.parent (CTree.ne_leaf_of_red ht)
  have hgrand : (h (.node f.label.1)).parent = .node g.label.1 := by
    rw [H.node, rbnode_parent]
    rfl
  have huncle : (h (.node g.label.1)).child g.side.flip = ptr g.sibling := by
    rw [H.attach.node, rbnode_far]
  have hcolor := H.attach.sibling_color
  unfold insertCase
  simp only [hparent, hgrand, huncle, hcolor]
  by_cases hu : g.sibling.color = .red
  · rw [if_pos hu, insertRound, if_pos hu]
    have h1 := (H.paintParent .black).attach.paintSibling (c := .black) (Or.inr rfl)
    exact ⟨(h1.paintParent .red).attach, (ptr_branch _ _ _ _ _).symm⟩
  · rw [if_neg hu]
    obtain ⟨t1, f1, hs, hleaf, H1, hptr, hround⟩ := insertCase_align H ht hf hu
    generalize (if ptr t = (h (.node f.label.1)).child g.side.flip then
      (rotate g.side h (.node f.label.1), RbPtr.node f.label.1) else (h, ptr t)) = r at H1 hptr ⊢
    obtain ⟨h1, node⟩ := r
    dsimp only at H1 hptr ⊢
    subst hptr
    obtain ⟨fs, fc, fx, fsib⟩ := f1
    obtain rfl : fs = g.side := hs
    have hp1 : (h1 (ptr t1)).parent = .node fx.1 := H1.holds.parent hleaf
    rw [hp1]
    have H2 := H1.paintParent .black
    generalize h1.setColor (.node fx.1) .black = h2 at H2 ⊢
    have hp2 : (h2 (ptr t1)).parent = .node fx.1 := H2.holds.parent hleaf
    have hg2 : (h2 (.node fx.1)).parent = .node g.label.1 := by
      rw [show h2 (.node fx.1) = _ from H2.node, rbnode_parent]
      rfl
    rw [hp2, hg2]
    have H3 := H2.attach.paintParent .red
    generalize h2.setColor (.node g.label.1) .red = h3 at H3 ⊢
    have H3' := Reaches.attach_iff.mpr H3
    have hp3 : (h3 (ptr t1)).parent = .node fx.1 := H3'.holds.parent hleaf
    have hg3 : (h3 (.node fx.1)).parent = .node g.label.1 := by
      rw [show h3 (.node fx.1) = _ from H3'.node, rbnode_parent]
      rfl
    rw [hp3, hg3, hround]
    exact ⟨H3.rotateAway.of_branch, rfl⟩

/-! ## A round after a deletion -/

theorem Reaches.parent (H : Reaches null ns h0 h t (f :: p))
    (hnil : t = .leaf → (h0 .nil).parent = .node f.label.1) :
    (h (ptr t)).parent = .node f.label.1 := by
  by_cases ht : t = .leaf
  · rw [ht, show ptr .leaf = RbPtr.nil from rfl, H.same.1]
    exact hnil ht
  · exact H.holds.parent ht

theorem repairAlign_reaches {y w : Nat × α} {n1 n2 far : CTree (Nat × α)} {x : Nat × α}
    {cx cy cw : Color}
    (H : Reaches null ns h0 h t
      (⟨s, cx, x, CTree.branch s cy y (CTree.branch s cw w n1 n2) far⟩ :: p)) :
    Reaches null ns h0 (Sudoers.rotate s.flip ((h.setColor (.node w.1) .black).setColor (.node y.1)
      .red) (.node y.1)) t
      (⟨s, cx, x, CTree.branch s .black w n1 (CTree.branch s .red y n2 far)⟩ :: p) := by
  have H1 : Reaches null ns h0 _ (CTree.branch s cw w n1 n2)
      (⟨s, cy, y, far⟩ :: ⟨s.flip, cx, x, t⟩ :: p) := H.sibling.of_branch
  have H2 := H1.paint (c := .black) (Or.inl (CTree.branch_ne_leaf _ _ _ _ _))
  rw [ptr_branch, CTree.paint_branch] at H2
  have H3 : Reaches null ns h0 _ (CTree.branch s .black w n1 n2)
      (⟨s, .red, y, far⟩ :: ⟨s.flip, cx, x, t⟩ :: p) := H2.paintParent .red
  have H4 : Reaches null ns h0 _ t
      (⟨s.flip.flip, cx, x, CTree.branch s .black w n1 (CTree.branch s .red y n2 far)⟩ :: p) :=
    H3.rotateAway.sibling
  rwa [Side.flip_flip] at H4

theorem Reaches.first (H : Reaches null ns h0 h t []) : rbfirst h = ptr t := by
  show (h .root).left = ptr t
  rw [show h .root = _ from H.holds.path]

theorem Reaches.top (H : Reaches null ns h0 h t p) : Reaches null ns h0 h (plug t p) [] :=
  ⟨holds_plug.mpr H.holds, H.same, H.labels⟩

theorem repairLast_reaches {x y : Nat × α} {near far : CTree (Nat × α)} {cx cy : Color}
    (H : Reaches null ns h0 h t (⟨s, cx, x, CTree.branch s cy y near far⟩ :: p))
    (hnil : t = .leaf → (h0 .nil).parent = .node x.1) :
    Reaches null ns h0 (repairLast s h (ptr t) (.node y.1)).1
      (plug (CTree.branch s cx y (CTree.branch s .black x t near) (far.paint .black)) p) [] ∧
      (repairLast s h (ptr t) (.node y.1)).2 =
        ptr (plug (CTree.branch s cx y (CTree.branch s .black x t near) (far.paint .black)) p) := by
  unfold repairLast
  have hcolor : (h (.node x.1)).color = cx := by
    rw [show h (.node x.1) = _ from H.node, rbnode_color]
  rw [show (h (ptr t)).parent = .node x.1 from H.parent hnil, hcolor]
  have H1 := H.paintSibling (c := cx) (Or.inl (CTree.branch_ne_leaf _ _ _ _ _))
  rw [ptr_branch] at H1
  simp only [CTree.paint_branch] at H1
  generalize h.setColor (.node y.1) cx = h1 at H1 ⊢
  dsimp only
  rw [show (h1 (ptr t)).parent = .node x.1 from H1.parent hnil]
  have H2 : Reaches null ns h0 _ t (⟨s, .black, x, CTree.branch s cx y near far⟩ :: p) :=
    H1.paintParent .black
  generalize h1.setColor (.node x.1) .black = h2 at H2 ⊢
  -- the farther branch of the sibling
  have H3 : Reaches null ns h0 h2 near (⟨s, cx, y, far⟩ :: ⟨s.flip, .black, x, t⟩ :: p) :=
    H2.sibling.of_branch
  have hfar : (h2 (.node y.1)).child s.flip = ptr far := by
    rw [show h2 (.node y.1) = _ from H3.node, rbnode_far]
  rw [hfar]
  have H4 : Reaches null ns h0 _ near
      (⟨s, cx, y, far.paint .black⟩ :: ⟨s.flip, .black, x, t⟩ :: p) :=
    H3.paintSibling (Or.inr rfl)
  have H5 : Reaches null ns h0 _ t
      (⟨s.flip.flip, .black, x, CTree.branch s cx y near (far.paint .black)⟩ :: p) :=
    H4.attach.sibling
  rw [Side.flip_flip] at H5
  generalize h2.setColor (ptr far) .black = h3 at H5 ⊢
  rw [show (h3 (ptr t)).parent = .node x.1 from H5.parent hnil]
  have H6 := H5.rotateParent.attach.attach.top
  exact ⟨H6, H6.first⟩

theorem repairBlack_reaches (H : Reaches null ns h0 h t (f :: p))
    (hnil : t = .leaf → (h0 .nil).parent = .node f.label.1) (hleaf : f.sibling ≠ .leaf) :
    Reaches null ns h0 (repairBlack f.side h (ptr t) (ptr f.sibling)).1 (shortRound t f p).1
      (shortRound t f p).2 ∧
      (repairBlack f.side h (ptr t) (ptr f.sibling)).2 = ptr (shortRound t f p).1 := by
  obtain ⟨s, cx, x, sib⟩ := f
  obtain ⟨cy, y, near, far, hsib⟩ := CTree.exists_branch s hleaf
  dsimp only at hsib hnil
  subst hsib
  have Hs : Reaches null ns h0 h near (⟨s, cy, y, far⟩ :: ⟨s.flip, cx, x, t⟩ :: p) :=
    H.sibling.of_branch
  have hy : h (.node y.1) = rbnode s (ptr near) (ptr far) (.node x.1) y.2 cy := Hs.node
  have hnc : (h (ptr near)).color = near.color := Hs.holds.color
  have hfc : (h (ptr far)).color = far.color := Hs.sibling_color
  have hboth : ((h ((h (.node y.1)).child .right)).color = .black ∧
      (h ((h (.node y.1)).child .left)).color = .black) ↔
      (far.color = .black ∧ near.color = .black) := by
    rw [hy]
    cases s
    · show (h (ptr far)).color = .black ∧ (h (ptr near)).color = .black ↔ _
      rw [hnc, hfc]
    · show (h (ptr near)).color = .black ∧ (h (ptr far)).color = .black ↔ _
      rw [hnc, hfc, and_comm]
  have hparent : (h (ptr t)).parent = .node x.1 := H.parent hnil
  unfold repairBlack shortRound
  simp only [ptr_branch, CTree.view_branch, hboth]
  by_cases hblack : far.color = .black ∧ near.color = .black
  · rw [if_pos hblack, if_pos hblack]
    have H1 := H.paintSibling (c := .red) (Or.inl hleaf)
    simp only [ptr_branch, CTree.paint_branch] at H1
    exact ⟨H1.attach, hparent.trans (ptr_branch _ _ _ _ _).symm⟩
  · have hnf : (h (.node y.1)).child s.flip = ptr far := by rw [hy, rbnode_far]
    have hnn : (h (.node y.1)).child s = ptr near := by rw [hy, rbnode_near]
    rw [if_neg hblack, if_neg hblack, hnf, hfc]
    by_cases hfb : far.color = .black
    · rw [if_pos hfb, if_pos hfb]
      have hnr : near ≠ .leaf := fun h => hblack ⟨hfb, by rw [h]; rfl⟩
      obtain ⟨cw, w, n1, n2, rfl⟩ := CTree.exists_branch s hnr
      rw [hnn, ptr_branch, CTree.view_branch]
      have H1 := repairAlign_reaches H
      generalize Sudoers.rotate s.flip ((h.setColor (.node w.1) .black).setColor (.node y.1) .red)
        (.node y.1) = h1 at H1 ⊢
      have hp1 : (h1 (ptr t)).parent = .node x.1 := H1.parent hnil
      have hs1 : (h1 (.node x.1)).child s.flip = .node w.1 := by
        rw [show h1 (.node x.1) = _ from H1.node, rbnode_far, ptr_branch]
      have hlast := repairLast_reaches H1 hnil
      simpa only [hp1, hs1, CTree.paint_branch] using hlast
    · rw [if_neg hfb, if_neg hfb]
      exact repairLast_reaches H hnil

theorem repairCase_reaches (H : Reaches null ns h0 h t (f :: p))
    (hnil : t = .leaf → (h0 .nil).parent = .node f.label.1) (hshort : Short t (f :: p)) :
    Reaches null ns h0 (repairCase f.side h (ptr t)).1 (deleteRound t f p).1
      (deleteRound t f p).2 ∧
      (repairCase f.side h (ptr t)).2 = ptr (deleteRound t f p).1 := by
  have hparent := H.parent hnil
  have hsib : (h (.node f.label.1)).child f.side.flip = ptr f.sibling := by
    rw [H.node, rbnode_far]
  unfold repairCase
  simp only [hparent, hsib, H.sibling_color]
  rcases deleteRound_cases hshort with ⟨hs, hleaf, heq⟩ | ⟨y, near, far, hs, hf, -, hleaf, heq⟩
  · rw [if_neg (by rw [hs]; exact Color.noConfusion), heq]
    exact repairBlack_reaches H hnil hleaf
  · obtain ⟨s, c, x, sib⟩ := f
    dsimp only at hs hf hnil
    subst hs hf
    rw [if_pos (CTree.color_branch _ _ _ _ _), heq]
    have H1 := H.paintSibling (c := .black) (Or.inr rfl)
    simp only [ptr_branch, CTree.paint_branch] at H1 ⊢
    have H2 : Reaches null ns h0 _ t (⟨s, .red, x, CTree.branch s .black y near far⟩ :: p) :=
      H1.paintParent .red
    generalize (h.setColor (.node y.1) .black).setColor (.node x.1) .red = h2 at H2 ⊢
    have hp2 : (h2 (ptr t)).parent = .node x.1 := H2.parent hnil
    rw [hp2]
    have H3 := H2.rotateParent
    generalize Sudoers.rotate s h2 (.node x.1) = h3 at H3 ⊢
    have hp3 : (h3 (ptr t)).parent = .node x.1 := H3.parent hnil
    have hs3 : (h3 (.node x.1)).child s.flip = ptr near := by
      rw [show h3 (.node x.1) = _ from H3.node, rbnode_far]
    rw [hp3, hs3]
    exact repairBlack_reaches H3 hnil hleaf

end NextBSD.Sudoers
