import NextBSD.Sudoers.RedblackSteps

/-!
# sudoers redblack.c: search and insertion
-/

namespace NextBSD.Sudoers

open RedBlack

universe u v

variable {α : Type u} {σ : Type v} {null : α} {compar : α → α → Int} {ns : List Nat}
  {h0 h : RbHeap α} {t : CTree (Nat × α)} {p : List (Frame (Nat × α))}

def searchOrder (compar : α → α → Int) (data : α) (x : Nat × α) : Ordering :=
  if compar data x.2 = 0 then .eq else if compar data x.2 < 0 then .lt else .gt

theorem searchOrder_eq {data : α} {x : Nat × α} :
    searchOrder compar data x = .eq ↔ compar data x.2 = 0 := by
  unfold searchOrder
  split
  · next h => exact iff_of_true rfl h
  · next h => exact iff_of_false (by split <;> exact Ordering.noConfusion) h

theorem searchOrder_lt {data : α} {x : Nat × α} :
    searchOrder compar data x = .lt ↔ compar data x.2 < 0 := by
  unfold searchOrder
  split
  · next h => exact iff_of_false Ordering.noConfusion (by omega)
  · split
    · next h => exact iff_of_true rfl h
    · next h => exact iff_of_false Ordering.noConfusion h

theorem searchOrder_gt {data : α} {x : Nat × α} :
    searchOrder compar data x = .gt ↔ 0 < compar data x.2 := by
  unfold searchOrder
  split
  · next h => exact iff_of_false Ordering.noConfusion (by omega)
  · split
    · next h => exact iff_of_false Ordering.noConfusion (by omega)
    · next h => exact iff_of_true rfl (by omega)

def lastNode (t : CTree (Nat × α)) (p : List (Frame (Nat × α))) : RbPtr :=
  match t with
  | .leaf => parentPtr p
  | .node _ _ x _ => .node x.1

theorem insertionPoint_descend (data : α) {fuel : Nat} {parent : RbPtr} (hs : Stores h parent t)
    (hfuel : t.inorder.length < fuel) :
    insertionPoint compar h data fuel (ptr t) (parentPtr p) =
      some (ptr (descend (searchOrder compar data) t p).1,
        lastNode (descend (searchOrder compar data) t p).1
          (descend (searchOrder compar data) t p).2) := by
  induction t generalizing fuel parent p with
  | leaf =>
    cases fuel with
    | zero => exact absurd hfuel (Nat.not_lt_zero _)
    | succ fuel => rfl
  | node c l x r ihl ihr =>
    cases fuel with
    | zero => exact absurd hfuel (Nat.not_lt_zero _)
    | succ fuel =>
      rw [CTree.inorder, List.length_append, List.length_cons] at hfuel
      have hx : h (.node x.1) = _ := hs.1
      unfold insertionPoint descend
      rw [show ptr (CTree.node c l x r) = .node x.1 from rfl, if_neg RbPtr.noConfusion, hx]
      dsimp only
      by_cases heq : compar data x.2 = 0
      · rw [if_pos heq, searchOrder_eq.mpr heq]
        rfl
      · rw [if_neg heq]
        by_cases hlt : compar data x.2 < 0
        · rw [if_pos hlt, searchOrder_lt.mpr hlt]
          exact ihl (p := ⟨.left, c, x, r⟩ :: p) hs.2.1 (by omega)
        · rw [if_neg hlt, searchOrder_gt.mpr (by omega)]
          exact ihr (p := ⟨.right, c, x, l⟩ :: p) hs.2.2 (by omega)

theorem rbfindLoop_descend (key : α) {fuel : Nat} {parent : RbPtr} (hs : Stores h parent t)
    (hfuel : t.inorder.length < fuel) :
    rbfindLoop compar h key fuel (ptr t) = some
      (match (descend (searchOrder compar key) t p).1 with
      | .leaf => none
      | .node _ _ x _ => some (.node x.1)) := by
  induction t generalizing fuel parent p with
  | leaf =>
    cases fuel with
    | zero => exact absurd hfuel (Nat.not_lt_zero _)
    | succ fuel => rfl
  | node c l x r ihl ihr =>
    cases fuel with
    | zero => exact absurd hfuel (Nat.not_lt_zero _)
    | succ fuel =>
      rw [CTree.inorder, List.length_append, List.length_cons] at hfuel
      have hx : h (.node x.1) = _ := hs.1
      unfold rbfindLoop descend
      rw [show ptr (CTree.node c l x r) = .node x.1 from rfl, if_neg RbPtr.noConfusion, hx]
      dsimp only
      by_cases heq : compar key x.2 = 0
      · rw [if_pos heq, searchOrder_eq.mpr heq]
      · rw [if_neg heq]
        by_cases hlt : compar key x.2 < 0
        · rw [if_pos hlt, searchOrder_lt.mpr hlt]
          exact ihl (p := ⟨.left, c, x, r⟩ :: p) hs.2.1 (by omega)
        · rw [if_neg hlt, searchOrder_gt.mpr (by omega)]
          exact ihr (p := ⟨.right, c, x, l⟩ :: p) hs.2.2 (by omega)

def applyAll (func : α → σ → Int × σ) : List α → σ → Int × σ
  | [], cookie => (0, cookie)
  | x :: xs, cookie =>
    if (func x cookie).1 ≠ 0 then func x cookie else applyAll func xs (func x cookie).2

theorem applyAll_append (func : α → σ → Int × σ) (xs ys : List α) (cookie : σ) :
    some (applyAll func (xs ++ ys) cookie) =
      unlessError (applyAll func xs cookie) fun cookie => some (applyAll func ys cookie) := by
  induction xs generalizing cookie with
  | nil => rfl
  | cons x xs ih =>
    rw [List.cons_append, applyAll, applyAll]
    by_cases h : (func x cookie).1 ≠ 0
    · rw [if_pos h, if_pos h, unlessError, if_pos h]
    · rw [if_neg h, if_neg h]
      exact ih _

def visited (order : Rbtraversal) : CTree (Nat × α) → List α
  | .leaf => []
  | .node _ l x r =>
    (if order = .preorder then [x.2] else []) ++ visited order l ++
      (if order = .inorder then [x.2] else []) ++ visited order r ++
      (if order = .postorder then [x.2] else [])

theorem visited_inorder (t : CTree (Nat × α)) : visited .inorder t = t.inorder.map Prod.snd := by
  induction t with
  | leaf => rfl
  | node c l x r ihl ihr => simp [visited, CTree.inorder, ihl, ihr]

theorem applyAt_eq (func : α → σ → Int × σ) (data : α) (now : Bool) (cookie : σ) :
    applyAt func data now cookie = applyAll func (if now then [data] else []) cookie := by
  cases now with
  | false => rfl
  | true =>
    show func data cookie = _
    simp only [if_true, applyAll]
    split
    · rfl
    · next h =>
      have h0 := not_not.mp h
      exact Prod.ext h0 rfl

theorem rbapplyNode_visited (func : α → σ → Int × σ) (order : Rbtraversal) {fuel : Nat}
    {parent : RbPtr} (hs : Stores h parent t) (hfuel : t.inorder.length < fuel) (cookie : σ) :
    rbapplyNode h func order fuel (ptr t) cookie =
      some (applyAll func (visited order t) cookie) := by
  induction t generalizing fuel parent cookie with
  | leaf =>
    cases fuel with
    | zero => exact absurd hfuel (Nat.not_lt_zero _)
    | succ fuel => rfl
  | node c l x r ihl ihr =>
    cases fuel with
    | zero => exact absurd hfuel (Nat.not_lt_zero _)
    | succ fuel =>
      rw [CTree.inorder, List.length_append, List.length_cons] at hfuel
      have hx : h (.node x.1) = _ := hs.1
      have hl (cookie : σ) : rbapplyNode h func order fuel (ptr l) cookie =
          some (applyAll func (visited order l) cookie) := ihl hs.2.1 (by omega) cookie
      have hr (cookie : σ) : rbapplyNode h func order fuel (ptr r) cookie =
          some (applyAll func (visited order r) cookie) := ihr hs.2.2 (by omega) cookie
      unfold rbapplyNode
      rw [show ptr (CTree.node c l x r) = .node x.1 from rfl, if_neg RbPtr.noConfusion, hx]
      simp only [hl, hr, applyAt_eq, visited, applyAll_append, List.append_assoc, decide_eq_true_eq]

/-! ## Insertion -/

theorem insertRepair_reaches {fuel : Nat} (H : Reaches null ns h0 h t p) (hred : Reddened t p)
    (hfuel : p.length < fuel) : ∃ h' t' p', insertRepair fuel h (ptr t) = some h' ∧
      Reaches null ns h0 h' t' p' ∧ Reddened t' p' ∧ pathColor p' = .black ∧
      (plug t' p').inorder = (plug t p).inorder := by
  induction fuel generalizing h t p with
  | zero => exact absurd hfuel (Nat.not_lt_zero _)
  | succ fuel ih =>
    have htc : t.color = .red := hred.choose_spec.2.1
    have hleaf := CTree.ne_leaf_of_red htc
    unfold insertRepair
    rw [H.holds.parent hleaf, H.holds.parent_color]
    by_cases hc : pathColor p = .red
    · rw [if_pos hc]
      cases p with
      | nil => exact Color.noConfusion hc
      | cons f p =>
        have hf : f.color = .red := hc
        cases p with
        | nil =>
          obtain ⟨n, -, -, hfits⟩ := hred
          exact absurd rfl ((fits_red hf).mp hfits).2.2.2.1
        | cons g p =>
          have hside : h.side (parentPtr (f :: g :: p)) = g.side := by
            have hs := H.attach.holds.side (CTree.branch_ne_leaf _ _ _ _ _)
            rwa [Frame.attach, ptr_branch] at hs
          obtain ⟨H1, hptr⟩ := insertCase_reaches H htc hf
          have hlen := insertRound_length (f := f) (g := g) (p := p) htc
          rw [hside]
          generalize insertCase g.side h (ptr t) = r at H1 hptr ⊢
          obtain ⟨h1, node⟩ := r
          dsimp only at H1 hptr ⊢
          subst hptr
          obtain ⟨h', t', p', heq, H', hred', hblack, hlabels⟩ :=
            ih H1 (insertRound_reddened hred hf) (by omega)
          exact ⟨h', t', p', heq, H', hred', hblack,
            hlabels.trans (insertRound_labels t f g p)⟩
    · rw [if_neg hc]
      refine ⟨h, t, p, rfl, H, hred, ?_, rfl⟩
      cases hb : pathColor p with
      | red => exact absurd hb hc
      | black => rfl

theorem linkNode_holds {data : α} {n : Nat} (H : Holds null h .leaf p)
    (hn : n ∉ pathAddrs p) (hside : ∀ f q, p = f :: q →
      (f.side = .left ↔ compar data f.label.2 < 0)) :
    Holds null (linkNode compar h data (.node n) (parentPtr p))
      (.node .red .leaf (n, data) .leaf) p := by
  have hnodup : (addrs (plug (CTree.node .red .leaf (n, data) .leaf) p)).Nodup := by
    have hnd := H.nodup
    rw [addrs, inorder_plug] at hnd ⊢
    simp only [CTree.inorder, List.append_nil, List.nil_append, List.append_assoc,
      List.singleton_append, List.map_append, List.map_cons] at hnd ⊢
    refine List.perm_middle.nodup_iff.mpr (List.nodup_cons.mpr ⟨fun h => hn ?_, hnd⟩)
    rwa [pathAddrs, List.map_append]
  have hpar : parentPtr p ≠ .node n := parentPtr_ne hnodup (mem_addrs_of_ptr rfl)
  unfold linkNode
  generalize hh1 : h.modify (.node n) (fun _ =>
    { left := .nil, right := .nil, parent := parentPtr p, data := data, color := .red }) = h1
  have h1n : h1 (.node n) =
      { left := .nil, right := .nil, parent := parentPtr p, data := data, color := .red } := by
    rw [← hh1, RbHeap.modify_self]
  have h1q {q : RbPtr} (hq : q ≠ .node n) : h1 q = h q := by
    rw [← hh1, RbHeap.modify_ne _ _ hq]
  have hs : (if parentPtr p = .root ∨ compar data (h1 (parentPtr p)).data < 0 then Side.left
      else .right) = holeSide p := by
    rw [h1q hpar]
    cases p with
    | nil => exact if_pos (Or.inl rfl)
    | cons f q =>
      have hdata : (h (parentPtr (f :: q))).data = f.label.2 := by
        rw [show h (parentPtr (f :: q)) = _ from H.path.1, rbnode_data]
      rw [hdata]
      by_cases hlt : compar data f.label.2 < 0
      · rw [if_pos (Or.inr hlt)]
        exact ((hside f q rfl).mpr hlt).symm
      · rw [if_neg (not_or.mpr ⟨RbPtr.noConfusion, hlt⟩)]
        cases hfs : f.side with
        | left => exact absurd ((hside f q rfl).mp hfs) hlt
        | right => exact hfs.symm
  dsimp only
  rw [hs]
  have hne {q : RbPtr} (hq : q ≠ parentPtr p) :
      h1.setChild (parentPtr p) (holeSide p) (.node n) q = h1 q := RbHeap.modify_ne _ _ hq
  refine H.replace ⟨?_, trivial, trivial⟩ ?_ (fun hp => ?_) (fun m hm hp => ?_) ?_ hnodup
  · rw [hne hpar.symm, h1n]
    rfl
  · rw [RbHeap.setChild, RbHeap.modify_self, h1q hpar]
    rfl
  · rw [hne hp.symm, h1q RbPtr.noConfusion]
  · rw [hne hp, h1q fun h => hn (RbPtr.node.inj h ▸ hm)]
  · rw [hne (parentPtr_ne_nil p).symm, h1q RbPtr.noConfusion]
    exact H.nil

/-- The heap of the tree has `T`, a red-black tree, and its nodes are those that are allocated. -/
structure IsTree (null : α) (t : Rbtree α) (T : CTree (Nat × α)) : Prop where
  holds : Holds null t.heap T []
  valid : T.Valid
  live : t.live.Perm (addrs T)

namespace IsTree

variable {t : Rbtree α} {T : CTree (Nat × α)}

theorem length_live (H : IsTree null t T) : t.live.length = T.inorder.length := by
  rw [H.live.length_eq, addrs, List.length_map]

theorem first (H : IsTree null t T) : rbfirst t.heap = ptr T := by
  show (t.heap .root).left = ptr T
  rw [show t.heap .root = _ from H.holds.path]

theorem stores (H : IsTree null t T) : Stores t.heap .root T := H.holds.tree

end IsTree

theorem malloc_eq_some {live : List Nat} {offer : Option Nat} {n : Nat} :
    malloc live offer = some n ↔ offer = some n ∧ n ∉ live := by
  simp [malloc, Option.filter_eq_some_iff]

section Rbinsert

variable {t : Rbtree α} {T : CTree (Nat × α)} {data : α} (H : IsTree null t T)
  (hcut : T.inorder.Pairwise (Cut (searchOrder compar data)))

include H

theorem insertionPoint_first :
    insertionPoint compar t.heap data t.fuel (rbfirst t.heap) .root =
      some (ptr (descend (searchOrder compar data) T []).1,
        lastNode (descend (searchOrder compar data) T []).1
          (descend (searchOrder compar data) T []).2) := by
  rw [H.first]
  refine insertionPoint_descend (p := []) data H.stores ?_
  rw [← H.length_live, Rbtree.fuel]
  omega

theorem rbinsert_present {c : Color} {l r : CTree (Nat × α)} {x : Nat × α}
    (hd : (descend (searchOrder compar data) T []).1 = .node c l x r) (offer : Option Nat) :
    rbinsert compar t data offer =
      some { tree := t, ret := 1, existing := some (.node x.1) } := by
  unfold rbinsert
  rw [insertionPoint_first H, hd]
  exact if_pos RbPtr.noConfusion

include hcut

theorem rbinsert_absent (hd : (descend (searchOrder compar data) T []).1 = .leaf)
    (offer : Option Nat) :
    (malloc t.live offer = none ∧ rbinsert compar t data offer =
      some { tree := t, ret := -1, existing := none }) ∨
    ∃ n t' T' l r, rbinsert compar t data offer = some { tree := t', ret := 0, existing := none } ∧
      IsTree null t' T' ∧ T.inorder = l ++ r ∧ T'.inorder = l ++ (n, data) :: r ∧
      (∀ x ∈ l, 0 < compar data x.2) ∧ (∀ x ∈ r, compar data x.2 < 0) := by
  have hplug : plug (descend (searchOrder compar data) T []).1
      (descend (searchOrder compar data) T []).2 = T := plug_descend T []
  obtain ⟨hbefore, hafter⟩ := @descend_sides _ (searchOrder compar data) T [] hcut
    (fun x hx => absurd hx List.not_mem_nil) (fun x hx => absurd hx List.not_mem_nil)
  have hpoint : insertionPoint compar t.heap data t.fuel (rbfirst t.heap) .root = _ :=
    insertionPoint_first H
  rw [hd] at hplug hpoint
  generalize (descend (searchOrder compar data) T []).2 = p at hplug hbefore hafter hpoint
  unfold rbinsert
  rw [hpoint]
  dsimp only [ptr, lastNode]
  rw [if_neg (not_not.mpr rfl)]
  cases hm : malloc t.live offer with
  | none => exact Or.inl ⟨rfl, rfl⟩
  | some n =>
    right
    have hfresh := (malloc_eq_some.mp hm).2
    have hn : n ∉ addrs T := fun h => hfresh (H.live.mem_iff.mpr h)
    have Hp : Holds null t.heap .leaf p := by
      rw [← holds_plug, hplug]
      exact H.holds
    have hvalid : (plug CTree.leaf p).Valid := hplug ▸ H.valid
    obtain ⟨m, hm0, hfits, -⟩ := fits_of_valid hvalid
    obtain rfl : m = 0 := hm0
    have hside : ∀ f q, p = f :: q → (f.side = .left ↔ compar data f.label.2 < 0) := by
      rintro f q rfl
      cases hfs : f.side with
      | left =>
        have hmem : f.label ∈ after (f :: q) := by simp [after, hfs]
        exact iff_of_true rfl (searchOrder_lt.mp (hafter _ hmem))
      | right =>
        have hmem : f.label ∈ before (f :: q) := by simp [before, hfs]
        have hpos := searchOrder_gt.mp (hbefore _ hmem)
        exact iff_of_false Side.noConfusion (by omega)
    have Hl := linkNode_holds Hp (fun h => hn (hplug ▸ mem_addrs_plug.mpr (Or.inr h))) hside
    have hred : Reddened (CTree.node .red .leaf (n, data) .leaf) p :=
      ⟨0, ⟨rfl, rfl, rfl, rfl⟩, rfl, hfits⟩
    have hfuel : p.length < t.fuel := by
      have hle := length_le_plug CTree.leaf p
      rw [hplug, ← H.length_live] at hle
      rw [Rbtree.fuel]
      omega
    obtain ⟨h', t1, p1, heq, H1, hred1, hblack, hlabels⟩ :=
      insertRepair_reaches Hl.reaches hred hfuel
    have heq' : insertRepair t.fuel (linkNode compar t.heap data (.node n) (parentPtr p))
        (.node n) = some h' := heq
    dsimp only
    rw [heq']
    have H2 := H1.top.paint (c := .black) (Or.inr rfl)
    rw [← H1.top.first] at H2
    have hT : T.inorder = before p ++ after p := by
      rw [← hplug, inorder_plug]
      simp [CTree.inorder]
    have hT' : ((plug t1 p1).paint .black).inorder = before p ++ (n, data) :: after p := by
      rw [CTree.inorder_paint, hlabels, inorder_plug]
      simp [CTree.inorder]
    refine ⟨n, _, _, before p, after p, rfl, ⟨H2.holds, hred1.valid hblack, ?_⟩, hT, hT',
      fun x hx => searchOrder_gt.mp (hbefore x hx), fun x hx => searchOrder_lt.mp (hafter x hx)⟩
    show (n :: t.live).Perm _
    rw [addrs, hT', List.map_append, List.map_cons]
    refine ((H.live.cons n).trans ?_).trans List.perm_middle.symm
    rw [addrs, hT, List.map_append]

end Rbinsert

end NextBSD.Sudoers
