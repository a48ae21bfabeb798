import Mathlib
import NextBSD.Sudoers.RedblackInsert

/-!
# sudoers redblack.c: deletion

A node with two subtrees is taken out by way of its successor, which the repair goes up from, and
which then takes its place.
-/

namespace NextBSD.Sudoers

open RedBlack

universe u

variable {α : Type u} {null : α} {ns : List Nat} {h0 h : RbHeap α} {t : CTree (Nat × α)}
  {p : List (Frame (Nat × α))}

theorem ptr_plug_ne {f : Frame (Nat × α)} (hnodup : (addrs (plug t (f :: p))).Nodup) :
    ptr t ≠ ptr (plug t (f :: p)) := by
  have hmem : ∀ (q : List (Frame (Nat × α))) (s : CTree (Nat × α)) (g : Frame (Nat × α)),
      ∃ n ∈ pathAddrs (g :: q), ptr (plug s (g :: q)) = .node n := by
    intro q
    induction q with
    | nil =>
      intro s g
      exact ⟨g.label.1, mem_pathAddrs_cons.mpr (Or.inl rfl), ptr_branch _ _ _ _ _⟩
    | cons g' q ih =>
      intro s g
      obtain ⟨n, hn, heq⟩ := ih (g.attach s) g'
      exact ⟨n, mem_pathAddrs_cons.mpr (Or.inr (Or.inr hn)), heq⟩
  obtain ⟨n, hn, heq⟩ := hmem p t f
  rw [heq]
  exact fun h => (nodup_plug hnodup).2 n (mem_addrs_of_ptr h) hn

theorem rbrepair_reaches {fuel : Nat} (H : Reaches null ns h0 h t p) (hshort : Short t p)
    (hnil : t = .leaf → (h0 .nil).parent = parentPtr p) (hfuel : rounds t p < fuel) :
    ∃ h' t' p', rbrepair fuel h (ptr t) = some h' ∧ Reaches null ns h0 h' t' p' ∧
      (plug t' p').Valid ∧ (plug t' p').inorder = (plug t p).inorder := by
  induction fuel generalizing h t p with
  | zero => exact absurd hfuel (Nat.not_lt_zero _)
  | succ fuel ih =>
    have hend (hstop : t.color = .red ∨ p = []) : ∃ h' t' p',
        some (h.setColor (ptr t) .black) = some h' ∧ Reaches null ns h0 h' t' p' ∧
        (plug t' p').Valid ∧ (plug t' p').inorder = (plug t p).inorder := by
      refine ⟨_, _, _, rfl, H.paint (Or.inr rfl), hshort.valid hstop, ?_⟩
      rw [inorder_plug, inorder_plug, CTree.inorder_paint]
    unfold rbrepair
    rw [H.holds.color, H.top.first]
    cases p with
    | nil =>
      rw [if_neg fun hc => hc.2 rfl]
      exact hend (Or.inr rfl)
    | cons f p =>
      by_cases hc : t.color = .black
      · rw [if_pos ⟨hc, ptr_plug_ne H.holds.nodup⟩]
        have hside : h.side (ptr t) = f.side := by
          refine H.holds.side_of (H.parent hnil) fun g q hp => ?_
          obtain ⟨rfl, rfl⟩ := List.cons.inj hp
          by_cases ht : t = .leaf
          · have hsib : f.sibling ≠ .leaf := by
              obtain ⟨n, hfits, -⟩ := hshort
              exact CTree.ne_leaf_of_balanced hfits.1
            rw [ht]
            exact fun h => hsib (ptr_eq_nil.mp h)
          · exact ptr_sibling_ne H.holds.nodup ht
        rw [hside]
        obtain ⟨H1, hptr⟩ := repairCase_reaches H hnil hshort
        have hlt := deleteRound_rounds hshort hc
        generalize repairCase f.side h (ptr t) = r at H1 hptr ⊢
        obtain ⟨h1, node⟩ := r
        dsimp only at H1 hptr ⊢
        subst hptr
        obtain ⟨h', t', p', heq, H', hvalid, hlabels⟩ := ih H1 (deleteRound_short hshort hc)
          (fun hl => absurd hl (deleteRound_ne_leaf hshort)) (by omega)
        exact ⟨h', t', p', heq, H', hvalid, hlabels.trans (deleteRound_labels t f p)⟩
      · rw [if_neg fun h => hc h.1]
        refine hend (Or.inl ?_)
        cases hr : t.color with
        | red => rfl
        | black => exact absurd hr hc

theorem unlink_eq {y : Nat} {x : RbPtr} (hparent : (h (.node y)).parent = parentPtr p)
    (hside : h.side (.node y) = holeSide p) (hxy : x ≠ .node y) (hxp : x ≠ parentPtr p) :
    unlink h (.node y) x = (h.setParent x (parentPtr p)).setChild (parentPtr p) (holeSide p) x := by
  have h1q {q : RbPtr} (hq : q ≠ x) : h.setParent x (parentPtr p) q = h q := RbHeap.modify_ne _ _ hq
  unfold unlink
  rw [hparent]
  dsimp only
  rw [h1q hxy.symm, hparent]
  cases p with
  | nil => exact if_pos rfl
  | cons f q =>
    have hs : (h.setParent x (parentPtr (f :: q))).side (.node y) = h.side (.node y) := by
      rw [RbHeap.side, RbHeap.side, h1q hxy.symm, hparent, h1q hxp.symm]
    rw [if_neg RbPtr.noConfusion, hs, hside]

theorem unlink_holds {c : Color} {y : Nat × α} {l r x : CTree (Nat × α)}
    (H : Holds null h (.node c l y r) p) (hx : x = l ∧ r = .leaf ∨ x = r ∧ l = .leaf) :
    Holds null (unlink h (.node y.1) (ptr x)) x p ∧
      (x = .leaf → (unlink h (.node y.1) (ptr x) .nil).parent = parentPtr p) ∧
      unlink h (.node y.1) (ptr x) (.node y.1) = h (.node y.1) := by
  have hap := apart_node (nodup_plug H.nodup).1
  have hxmem : ∀ n ∈ addrs x, n ∈ addrs (CTree.node c l y r) ∧ n ≠ y.1 := by
    intro n hn
    rcases hx with ⟨rfl, -⟩ | ⟨rfl, -⟩
    · exact ⟨mem_addrs_branch (s := .left) |>.mpr (Or.inl hn), fun h => hap.notNear (h ▸ hn)⟩
    · exact ⟨mem_addrs_branch (s := .left) |>.mpr (Or.inr (Or.inr hn)),
        fun h => hap.notFar (h ▸ hn)⟩
  have hxs : Stores h (.node y.1) x := by
    rcases hx with ⟨rfl, -⟩ | ⟨rfl, -⟩
    · exact H.tree.2.1
    · exact H.tree.2.2
  have hlabels : (plug x p).inorder.Sublist (plug (CTree.node c l y r) p).inorder := by
    rw [inorder_plug, inorder_plug, CTree.inorder]
    refine (List.Sublist.append_left ?_ _).append_right _
    rcases hx with ⟨rfl, rfl⟩ | ⟨rfl, rfl⟩
    · exact List.sublist_append_left _ _
    · exact List.sublist_cons_self _ _
  have hnodup : (addrs (plug x p)).Nodup := H.nodup.sublist (hlabels.map _)
  have hymem : y.1 ∈ addrs (CTree.node c l y r) := mem_addrs_of_ptr rfl
  have hpar {n : Nat} (hn : n ∈ addrs (CTree.node c l y r)) : parentPtr p ≠ .node n :=
    parentPtr_ne H.nodup hn
  have hxy : ptr x ≠ .node y.1 := ptr_ne RbPtr.noConfusion fun n hn h =>
    (hxmem n hn).2 (RbPtr.node.inj h).symm
  have hxp : ptr x ≠ parentPtr p := ptr_ne (parentPtr_ne_nil p) fun n hn => hpar (hxmem n hn).1
  have hleaf : CTree.node c l y r ≠ .leaf := fun h => by cases h
  have heq := unlink_eq (H.parent hleaf) (H.side hleaf) hxy hxp
  generalize hh' : unlink h (.node y.1) (ptr x) = h' at heq ⊢
  have hq {q : RbPtr} (hqp : q ≠ parentPtr p) (hqx : q ≠ ptr x) : h' q = h q := by
    rw [heq, RbHeap.setChild, RbHeap.modify_ne _ _ hqp, RbHeap.setParent, RbHeap.modify_ne _ _ hqx]
  have hx' : h' (ptr x) = { h (ptr x) with parent := parentPtr p } := by
    rw [heq, RbHeap.setChild, RbHeap.modify_ne _ _ hxp, RbHeap.setParent, RbHeap.modify_self]
  refine ⟨H.replace ?_ ?_ (fun hp => ?_) (fun n hn hp => ?_) ?_ hnodup, fun hl => ?_, ?_⟩
  · refine hxs.reparent (nodup_plug hnodup).1 (fun _ => hx') fun n hn hne => ?_
    exact hq (hpar (hxmem n hn).1).symm hne
  · rw [heq, RbHeap.setChild, RbHeap.modify_self, RbHeap.setParent, RbHeap.modify_ne _ _ hxp.symm]
  · exact hq hp.symm (ptr_ne RbPtr.noConfusion fun n _ => RbPtr.noConfusion).symm
  · refine hq hp fun h => ?_
    exact (nodup_plug H.nodup).2 n (hxmem n (mem_addrs_of_ptr h.symm)).1 hn
  · by_cases hl : x = .leaf
    · rw [hl] at hx'
      rw [show RbPtr.nil = ptr (CTree.leaf : CTree (Nat × α)) from rfl, hx']
      exact H.nil
    · rw [hq (parentPtr_ne_nil p).symm fun h => hl (ptr_eq_nil.mp h.symm)]
      exact H.nil
  · rw [hl] at hx'
    rw [show RbPtr.nil = ptr (CTree.leaf : CTree (Nat × α)) from rfl, hx']
  · exact hq (hpar hymem).symm hxy.symm

theorem nodup_relabel {c : Color} {y z : Nat × α} {l r : CTree (Nat × α)}
    (h : (addrs (plug (.node c l z r) p)).Nodup) (hy : y.1 ∉ addrs (plug (.node c l z r) p)) :
    (addrs (plug (.node c l y r) p)).Nodup := by
  rw [addrs, inorder_plug, CTree.inorder] at h hy ⊢
  simp only [List.map_append, List.map_cons, List.append_assoc, List.cons_append] at h hy ⊢
  rw [← List.append_assoc] at h hy ⊢
  have hnd := List.nodup_cons.mp (List.perm_middle.nodup_iff.mp h)
  refine List.perm_middle.nodup_iff.mpr (List.nodup_cons.mpr ⟨fun hmem => hy ?_, hnd.2⟩)
  exact List.perm_middle.mem_iff.mpr (List.mem_cons_of_mem _ hmem)

theorem replaceNode_holds {c : Color} {y z : Nat × α} {l r : CTree (Nat × α)}
    (H : Holds null h (.node c l z r) p) (hy : y.1 ∉ addrs (plug (.node c l z r) p))
    (hdata : (h (.node y.1)).data = y.2) :
    Holds null (replaceNode h (.node z.1) (.node y.1)) (.node c l y r) p := by
  have hap := apart_node (nodup_plug H.nodup).1
  have hz : h (.node z.1) = _ := H.tree.1
  have hzt : z.1 ∈ addrs (CTree.node c l z r) := mem_addrs_of_ptr rfl
  have hlt {n : Nat} (hn : n ∈ addrs l) : n ∈ addrs (CTree.node c l z r) :=
    mem_addrs_branch (s := .left) |>.mpr (Or.inl hn)
  have hrt {n : Nat} (hn : n ∈ addrs r) : n ∈ addrs (CTree.node c l z r) :=
    mem_addrs_branch (s := .left) |>.mpr (Or.inr (Or.inr hn))
  have hyt {n : Nat} (hn : n ∈ addrs (CTree.node c l z r)) : RbPtr.node n ≠ .node y.1 := fun h =>
    hy (RbPtr.node.inj h ▸ mem_addrs_plug.mpr (Or.inl hn))
  have hpar {n : Nat} (hn : n ∈ addrs (CTree.node c l z r)) : parentPtr p ≠ .node n :=
    parentPtr_ne H.nodup hn
  have hnodup := nodup_relabel H.nodup hy
  have hpy : parentPtr p ≠ .node y.1 := parentPtr_ne hnodup (mem_addrs_of_ptr rfl)
  have hly : ptr l ≠ .node y.1 := ptr_ne RbPtr.noConfusion fun n hn => (hyt (hlt hn)).symm
  have hry : ptr r ≠ .node y.1 := ptr_ne RbPtr.noConfusion fun n hn => (hyt (hrt hn)).symm
  have hlz : ptr l ≠ .node z.1 := ptr_ne RbPtr.noConfusion fun n hn h =>
    hap.notNear (RbPtr.node.inj h ▸ hn)
  have hrz : ptr r ≠ .node z.1 := ptr_ne RbPtr.noConfusion fun n hn h =>
    hap.notFar (RbPtr.node.inj h ▸ hn)
  have hlp : ptr l ≠ parentPtr p := ptr_ne (parentPtr_ne_nil p) fun n hn => hpar (hlt hn)
  have hrp : ptr r ≠ parentPtr p := ptr_ne (parentPtr_ne_nil p) fun n hn => hpar (hrt hn)
  have hside : h.side (.node z.1) = holeSide p := H.side nofun
  unfold replaceNode
  rw [hz]
  dsimp only
  -- the links of the old node go into the new one
  generalize hh1 : h.modify (.node y.1) (fun n =>
    { n with left := ptr l, right := ptr r, parent := parentPtr p, color := c }) = h1
  have h1q {q : RbPtr} (hq : q ≠ .node y.1) : h1 q = h q := by
    rw [← hh1, RbHeap.modify_ne _ _ hq]
  have h1y : h1 (.node y.1) =
      { left := ptr l, right := ptr r, parent := parentPtr p, data := y.2, color := c } := by
    rw [← hh1, RbHeap.modify_self, ← hdata]
  rw [h1q (hyt hzt), hz]
  dsimp only
  generalize hh2 : h1.setParent (ptr r) (.node y.1) = h2
  have h2q {q : RbPtr} (hq : q ≠ ptr r) : h2 q = h1 q := by
    rw [← hh2, RbHeap.setParent, RbHeap.modify_ne _ _ hq]
  rw [h2q hrz.symm, h1q (hyt hzt), hz]
  dsimp only
  generalize hh3 : h2.setParent (ptr l) (.node y.1) = h3
  have h3q {q : RbPtr} (hq : q ≠ ptr l) : h3 q = h2 q := by
    rw [← hh3, RbHeap.setParent, RbHeap.modify_ne _ _ hq]
  have h3z : h3 (.node z.1) = h (.node z.1) := by
    rw [h3q hlz.symm, h2q hrz.symm, h1q (hyt hzt)]
  have h3p : h3 (parentPtr p) = h (parentPtr p) := by
    rw [h3q hlp.symm, h2q hrp.symm, h1q hpy]
  have h3side : h3.side (.node z.1) = holeSide p := by
    rw [← hside, RbHeap.side, RbHeap.side, h3z, hz, h3p]
  rw [h3side, h3z, hz]
  dsimp only
  have h3l : h3 (ptr l) = { h2 (ptr l) with parent := .node y.1 } := by
    rw [← hh3, RbHeap.setParent, RbHeap.modify_self]
  have h2r : h2 (ptr r) = { h (ptr r) with parent := .node y.1 } := by
    rw [← hh2, RbHeap.setParent, RbHeap.modify_self, h1q hry]
  have hlr {s : RbPtr} (hs : s = ptr l) (hsn : s ≠ .nil) : s ≠ ptr r := fun h => by
    cases l with
    | leaf => exact hsn hs
    | node cl ll x lr =>
      exact hap.disjoint x.1 (mem_addrs_of_ptr rfl) (mem_addrs_of_ptr (h.symm.trans hs))
  have h3color : (h3 .nil).color = .black := by
    have hcolor (g : RbHeap α) (s q parent : RbPtr) :
        (g.setParent s parent q).color = (g q).color := by
      by_cases hq : q = s
      · subst hq
        rw [RbHeap.setParent, RbHeap.modify_self]
      · rw [RbHeap.setParent, RbHeap.modify_ne _ _ hq]
    rw [← hh3, hcolor, ← hh2, hcolor, h1q RbPtr.noConfusion]
    exact H.nil
  have hq {q : RbPtr} (hqp : q ≠ parentPtr p) :
      h3.setChild (parentPtr p) (holeSide p) (.node y.1) q = h3 q := RbHeap.modify_ne _ _ hqp
  refine H.replace ⟨?_, ?_, ?_⟩ ?_ (fun hp => ?_) (fun n hn hp => ?_) ?_ hnodup
  · rw [hq hpy.symm, h3q hly.symm, h2q hry.symm, h1y]
  · refine H.tree.2.1.reparent hap.nodupNear (fun hl => ?_) fun n hn hne => ?_
    · rw [hq hlp, h3l, h2q (hlr rfl fun h => hl (ptr_eq_nil.mp h)), h1q hly]
    · rw [hq (hpar (hlt hn)).symm, h3q hne, h2q ?_, h1q (hyt (hlt hn))]
      exact fun h => hap.disjoint n hn (mem_addrs_of_ptr h.symm)
  · refine H.tree.2.2.reparent hap.nodupFar (fun hr => ?_) fun n hn hne => ?_
    · rw [hq hrp, h3q ?_, h2r]
      exact fun h => hlr h (fun hl => hr (ptr_eq_nil.mp hl)) rfl
    · rw [hq (hpar (hrt hn)).symm, h3q ?_, h2q hne, h1q (hyt (hrt hn))]
      exact fun h => hap.disjoint n (mem_addrs_of_ptr h.symm) hn
  · rw [RbHeap.setChild, RbHeap.modify_self, h3p]
    rfl
  · rw [hq hp.symm, h3q ?_, h2q ?_, h1q RbPtr.noConfusion]
    · exact (ptr_ne RbPtr.noConfusion fun n _ => RbPtr.noConfusion).symm
    · exact (ptr_ne RbPtr.noConfusion fun n _ => RbPtr.noConfusion).symm
  · have hnt {m : Nat} (hm : m ∈ addrs (CTree.node c l z r)) : n ≠ m := fun h =>
      (nodup_plug H.nodup).2 m hm (h ▸ hn)
    rw [hq hp, h3q fun h => hnt (hlt (mem_addrs_of_ptr h.symm)) rfl,
      h2q fun h => hnt (hrt (mem_addrs_of_ptr h.symm)) rfl, h1q fun h => ?_]
    exact hy (RbPtr.node.inj h ▸ mem_addrs_plug.mpr (Or.inr hn))
  · rw [hq (parentPtr_ne_nil p).symm]
    exact h3color

theorem leftmost_leftEnd {fuel : Nat} {parent : RbPtr} (hs : Stores h parent t)
    (hfuel : t.inorder.length < fuel) (ht : t ≠ .leaf) :
    leftmost h fuel (ptr t) = some (ptr (leftEnd t p).1) := by
  induction t generalizing fuel parent p with
  | leaf => exact absurd rfl ht
  | node c l x r ihl ihr =>
    cases fuel with
    | zero => exact absurd hfuel (Nat.not_lt_zero _)
    | succ fuel =>
      rw [CTree.inorder, List.length_append, List.length_cons] at hfuel
      have hx : h (.node x.1) = _ := hs.1
      unfold leftmost
      rw [show ptr (CTree.node c l x r) = .node x.1 from rfl, hx]
      dsimp only
      cases l with
      | leaf => rfl
      | node lc ll lx lr =>
        rw [if_pos (show ptr (CTree.node lc ll lx lr) ≠ .nil from RbPtr.noConfusion)]
        exact ihl (p := ⟨.left, c, x, r⟩ :: p) hs.2.1 (by omega) fun h => by cases h

/-! ## Deletion -/

theorem not_mem_of_nodup {x : Nat × α} {xs ys : List (Nat × α)}
    (h : ((xs ++ x :: ys).map Prod.fst).Nodup) : x.1 ∉ (xs ++ ys).map Prod.fst := by
  rw [List.map_append, List.map_cons] at h
  rw [List.map_append]
  exact (List.nodup_cons.mp (List.perm_middle.nodup_iff.mp h)).1

def spliceOut (fuel : Nat) (h : RbHeap α) (y : RbPtr) : Option (RbHeap α) :=
  let x := if (h y).left = .nil then (h y).right else (h y).left
  let h := unlink h y x
  if (h y).color = .black then rbrepair fuel h x else some h

theorem spliceOut_holds {c : Color} {y : Nat × α} {l r : CTree (Nat × α)} {fuel : Nat}
    (H : Holds null h (.node c l y r) p) (hvalid : (plug (.node c l y r) p).Valid)
    (hlr : l = .leaf ∨ r = .leaf) (hfuel : 2 * p.length + 1 < fuel) :
    ∃ h' T', spliceOut fuel h (.node y.1) = some h' ∧ Holds null h' T' [] ∧ T'.Valid ∧
      T'.inorder = before p ++ (l.inorder ++ r.inorder) ++ after p ∧
      h' (.node y.1) = h (.node y.1) := by
  obtain ⟨x, hx, hxptr, hxlabels⟩ : ∃ x, (x = l ∧ r = .leaf ∨ x = r ∧ l = .leaf) ∧
      (if ptr l = .nil then ptr r else ptr l) = ptr x ∧ x.inorder = l.inorder ++ r.inorder := by
    by_cases hl : l = .leaf
    · subst hl
      exact ⟨r, Or.inr ⟨rfl, rfl⟩, if_pos rfl, rfl⟩
    · have hr := hlr.resolve_left hl
      subst hr
      exact ⟨l, Or.inl ⟨rfl, rfl⟩, if_neg fun h => hl (ptr_eq_nil.mp h),
        (List.append_nil _).symm⟩
  obtain ⟨H1, hnil, hy⟩ := unlink_holds H hx
  have hynode : h (.node y.1) = _ := H.tree.1
  have hxlr : x = l ∨ x = r := hx.imp And.left And.left
  have hlabels : (plug x p).inorder = before p ++ (l.inorder ++ r.inorder) ++ after p := by
    rw [inorder_plug, hxlabels]
  unfold spliceOut
  rw [hynode]
  dsimp only
  rw [hxptr]
  rw [hy, hynode]
  dsimp only
  cases c with
  | red =>
    rw [if_neg Color.noConfusion]
    exact ⟨_, plug x p, rfl, holds_plug.mpr H1, valid_of_red hxlr hvalid, hlabels, hy.trans hynode⟩
  | black =>
    rw [if_pos rfl]
    have hfuel' : rounds x p < fuel := by
      unfold rounds
      split <;> omega
    obtain ⟨h', t', p', heq, H2, hvalid', hlab⟩ :=
      rbrepair_reaches H1.reaches (short_of_valid hxlr hvalid) hnil hfuel'
    refine ⟨h', plug t' p', heq, H2.top.holds, hvalid', hlab.trans hlabels, ?_⟩
    rw [H2.same.2 y.1 ?_, hy, hynode]
    have hsplit : (plug (CTree.node .black l y r) p).inorder =
        (before p ++ l.inorder) ++ y :: (r.inorder ++ after p) := by
      rw [inorder_plug]
      simp only [CTree.inorder, List.append_assoc, List.cons_append]
    have hnodup := H.nodup
    rw [addrs, hsplit] at hnodup
    have hrest := not_mem_of_nodup hnodup
    rw [addrs, hlabels]
    simpa only [List.append_assoc] using hrest

theorem rbdelete_eq (t : Rbtree α) (z : RbPtr) : rbdelete t z =
    match spliced t.fuel t.heap z with
    | none => none
    | some y =>
      match spliceOut t.fuel t.heap y with
      | none => none
      | some h =>
        some ({ heap := if y ≠ z then replaceNode h z y else h, live := z.free t.live },
          (t.heap z).data) := rfl

theorem inorder_plug_node (c : Color) (l r : CTree (Nat × α)) (x : Nat × α) :
    (plug (.node c l x r) p).inorder = (before p ++ l.inorder) ++ x :: (r.inorder ++ after p) := by
  rw [inorder_plug]
  simp only [CTree.inorder, List.append_assoc, List.cons_append]

theorem notMem_of_nodup {x : Nat × α} {xs ys : List (Nat × α)}
    (h : ((xs ++ x :: ys).map Prod.fst).Nodup) : x ∉ xs ∧ x ∉ ys := by
  have hx := not_mem_of_nodup h
  rw [List.map_append, List.mem_append, not_or] at hx
  exact ⟨fun h => hx.1 (List.mem_map_of_mem h), fun h => hx.2 (List.mem_map_of_mem h)⟩

theorem replaced {h' : RbHeap α} {T1 : CTree (Nat × α)} {y z : Nat × α} {xs ys : List (Nat × α)}
    (H : Holds null h' T1 []) (hvalid : T1.Valid) (hlabels : T1.inorder = xs ++ z :: ys)
    (hy : y.1 ∉ addrs T1) (hdata : (h' (.node y.1)).data = y.2) :
    ∃ T', Holds null (replaceNode h' (.node z.1) (.node y.1)) T' [] ∧ T'.Valid ∧
      T'.inorder = xs ++ y :: ys := by
  have hz : z ∈ T1.inorder := hlabels ▸ List.mem_append_right xs List.mem_cons_self
  obtain ⟨c, l, r, p, rfl⟩ := exists_zipper hz
  refine ⟨plug (.node c l y r) p, holds_plug.mpr (replaceNode_holds (holds_plug.mp H) hy hdata),
    valid_relabel hvalid, ?_⟩
  have hnodup := H.nodup
  rw [plug, addrs, inorder_plug_node] at hnodup
  obtain ⟨hl, hr⟩ := notMem_of_nodup hnodup
  rw [inorder_plug_node] at hlabels
  obtain ⟨h1, -, h2⟩ := (List.append_cons_inj_of_notMem hl hr).mp hlabels
  rw [inorder_plug_node, h1, h2]

theorem IsTree.free {t : Rbtree α} {T T' : CTree (Nat × α)} {h' : RbHeap α} {z : Nat × α}
    {xs ys : List (Nat × α)} (H : IsTree null t T) (hlabels : T.inorder = xs ++ z :: ys)
    (H' : Holds null h' T' []) (hvalid : T'.Valid) (hlabels' : T'.inorder = xs ++ ys) :
    IsTree null { heap := h', live := t.live.erase z.1 } T' := by
  refine ⟨H', hvalid, ?_⟩
  have hperm : (addrs T).Perm (z.1 :: addrs T') := by
    rw [addrs, addrs, hlabels, hlabels', List.map_append, List.map_cons, List.map_append]
    exact List.perm_middle
  have herase := (H.live.trans hperm).erase z.1
  rwa [List.erase_cons_head] at herase

theorem rbdelete_spec {t : Rbtree α} {T : CTree (Nat × α)} {z : Nat × α} (H : IsTree null t T)
    (hz : z ∈ T.inorder) : ∃ t' T' xs ys, rbdelete t (.node z.1) = some (t', z.2) ∧
      IsTree null t' T' ∧ T.inorder = xs ++ z :: ys ∧ T'.inorder = xs ++ ys := by
  have hfuel {c : Color} {x : Nat × α} {l r : CTree (Nat × α)} {p : List (Frame (Nat × α))}
      (hT : plug (CTree.node c l x r) p = T) : 2 * p.length + 1 < t.fuel := by
    have hle := length_le_plug (CTree.node c l x r) p
    rw [hT, ← H.length_live] at hle
    rw [Rbtree.fuel]
    omega
  obtain ⟨c, l, r, p, hT⟩ := exists_zipper hz
  have Hp : Holds null t.heap (.node c l z r) p := by
    rw [← holds_plug, ← hT]
    exact H.holds
  have hlabels : T.inorder = (before p ++ l.inorder) ++ z :: (r.inorder ++ after p) := by
    rw [hT, inorder_plug_node]
  have hnode : t.heap (.node z.1) = _ := Hp.tree.1
  rw [rbdelete_eq, spliced, hnode]
  dsimp only
  by_cases hlr : l = .leaf ∨ r = .leaf
  · rw [if_pos (hlr.imp ptr_eq_nil.mpr ptr_eq_nil.mpr)]
    obtain ⟨h', T', heq, H', hvalid, hT', -⟩ :=
      spliceOut_holds Hp (hT ▸ H.valid) hlr (hfuel hT.symm)
    have hlabels' : T'.inorder = (before p ++ l.inorder) ++ (r.inorder ++ after p) := by
      rw [hT']
      simp only [List.append_assoc]
    dsimp only
    rw [heq]
    dsimp only
    rw [if_neg (not_not.mpr rfl)]
    exact ⟨_, T', _, _, rfl, H.free hlabels H' hvalid hlabels', hlabels, hlabels'⟩
  · obtain ⟨hl, hr⟩ := not_or.mp hlr
    rw [if_neg fun h => hlr (h.imp ptr_eq_nil.mp ptr_eq_nil.mp)]
    obtain ⟨cy, y, ry, hend, hbefore, hplug⟩ := leftEnd_spec r (⟨.right, c, z, l⟩ :: p) hr
    have hsucc : rbsuccessor t.fuel t.heap (.node z.1) = some (.node y.1) := by
      rw [rbsuccessor, hnode, if_pos fun h => hr (ptr_eq_nil.mp h),
        leftmost_leftEnd (p := ⟨.right, c, z, l⟩ :: p) Hp.tree.2.2 ?_ hr, hend]
      · rfl
      · have hlen := congrArg List.length hlabels
        rw [← H.length_live] at hlen
        simp only [List.length_append, List.length_cons] at hlen
        rw [Rbtree.fuel]
        omega
    generalize (leftEnd r (⟨.right, c, z, l⟩ :: p)).2 = py at hbefore hplug
    rw [hend] at hplug
    have hplugT : plug (CTree.node cy .leaf y ry) py = T := hplug.trans hT.symm
    have Hy : Holds null t.heap (.node cy .leaf y ry) py := by
      rw [← holds_plug, hplugT]
      exact H.holds
    obtain ⟨h', T1, heq, H1, hvalid, hT1, hy⟩ :=
      spliceOut_holds Hy (hplugT ▸ H.valid) (Or.inl rfl) (hfuel hplugT)
    have hbefore' : before py = (before p ++ l.inorder) ++ [z] := by
      rw [hbefore]
      simp only [before, List.append_assoc]
    have hlabelsy : T.inorder = before py ++ y :: (ry.inorder ++ after py) := by
      rw [← hplugT, inorder_plug_node, CTree.inorder, List.append_nil]
    have hT1' : T1.inorder = before py ++ (ry.inorder ++ after py) := by
      rw [hT1, CTree.inorder, List.nil_append, List.append_assoc]
    have hnodup : ((before py ++ y :: (ry.inorder ++ after py)).map Prod.fst).Nodup := by
      rw [← hlabelsy]
      exact H.holds.nodup
    have hy1 : y.1 ∉ addrs T1 := by
      rw [addrs, hT1']
      exact not_mem_of_nodup hnodup
    have hz1 : T1.inorder = (before p ++ l.inorder) ++ z :: (ry.inorder ++ after py) := by
      rw [hT1', hbefore', List.append_assoc, List.singleton_append]
    have hdata : (h' (.node y.1)).data = y.2 := by
      rw [hy, Hy.tree.1]
    obtain ⟨T', H', hvalid', hT'⟩ := replaced H1 hvalid hz1 hy1 hdata
    have hrest : r.inorder ++ after p = y :: (ry.inorder ++ after py) := by
      have hboth := hlabels.symm.trans hlabelsy
      rw [hbefore', List.append_assoc (before p ++ l.inorder), List.singleton_append] at hboth
      exact List.cons_inj_right z |>.mp (List.append_cancel_left hboth)
    have hyz : RbPtr.node y.1 ≠ .node z.1 := fun h => by
      refine hy1 ?_
      rw [RbPtr.node.inj h, addrs, hz1]
      exact List.mem_map_of_mem (List.mem_append_right _ List.mem_cons_self)
    rw [hsucc]
    dsimp only
    rw [heq]
    dsimp only
    rw [if_pos hyz]
    exact ⟨_, T', _, _, rfl, H.free hlabels H' hvalid' (hrest ▸ hT'), hlabels, hrest ▸ hT'⟩

end NextBSD.Sudoers
