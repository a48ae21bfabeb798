import NextBSD.Sudoers.Redblack

/-!
# sudoers redblack.c: trees in the heap

What the heap has of a tree with a hole.  A label is the number of a node and its data.
-/

namespace NextBSD.Sudoers

open RedBlack

universe u

variable {α : Type u}

def rbnode (s : Side) (near far parent : RbPtr) (data : α) (c : Color) : Rbnode α :=
  match s with
  | .left => { left := near, right := far, parent := parent, data := data, color := c }
  | .right => { left := far, right := near, parent := parent, data := data, color := c }

section Node

variable (s : Side) (near far parent p : RbPtr) (data : α) (c : Color)

@[simp] theorem rbnode_near : (rbnode s near far parent data c).child s = near := by cases s <;> rfl

@[simp] theorem rbnode_far : (rbnode s near far parent data c).child s.flip = far := by
  cases s <;> rfl

@[simp] theorem rbnode_parent : (rbnode s near far parent data c).parent = parent := by
  cases s <;> rfl

@[simp] theorem rbnode_data : (rbnode s near far parent data c).data = data := by cases s <;> rfl

@[simp] theorem rbnode_color : (rbnode s near far parent data c).color = c := by cases s <;> rfl

@[simp] theorem rbnode_setChild_near :
    (rbnode s near far parent data c).setChild s p = rbnode s p far parent data c := by
  cases s <;> rfl

@[simp] theorem rbnode_setChild_far :
    (rbnode s near far parent data c).setChild s.flip p = rbnode s near p parent data c := by
  cases s <;> rfl

@[simp] theorem rbnode_setParent :
    { rbnode s near far parent data c with parent := p } = rbnode s near far p data c := by
  cases s <;> rfl

@[simp] theorem rbnode_setColor (c' : Color) :
    { rbnode s near far parent data c with color := c' } = rbnode s near far parent data c' := by
  cases s <;> rfl

theorem rbnode_left :
    (rbnode s near far parent data c).left = match s with | .left => near | .right => far := by
  cases s <;> rfl

end Node

@[simp] theorem setChild_parent (n : Rbnode α) (s : Side) (p : RbPtr) :
    (n.setChild s p).parent = n.parent := by cases s <;> rfl

@[simp] theorem setChild_color (n : Rbnode α) (s : Side) (p : RbPtr) :
    (n.setChild s p).color = n.color := by cases s <;> rfl

namespace RbHeap

variable (h : RbHeap α) {p q : RbPtr}

theorem modify_self (f : Rbnode α → Rbnode α) : h.modify p f p = f (h p) := if_pos rfl

theorem modify_ne (f : Rbnode α → Rbnode α) (hne : q ≠ p) : h.modify p f q = h q := if_neg hne

end RbHeap

def ptr : CTree (Nat × α) → RbPtr
  | .leaf => .nil
  | .node _ _ x _ => .node x.1

@[simp] theorem ptr_branch (s : Side) (c : Color) (x : Nat × α) (near far : CTree (Nat × α)) :
    ptr (CTree.branch s c x near far) = .node x.1 := by cases s <;> rfl

@[simp] theorem ptr_paint (t : CTree (Nat × α)) (c : Color) : ptr (t.paint c) = ptr t := by
  cases t <;> rfl

theorem ptr_eq_nil {t : CTree (Nat × α)} : ptr t = .nil ↔ t = .leaf := by
  cases t with
  | leaf => exact iff_of_true rfl rfl
  | node c l x r => exact iff_of_false RbPtr.noConfusion nofun

def addrs (t : CTree (Nat × α)) : List Nat := t.inorder.map Prod.fst

theorem mem_addrs_branch {s : Side} {c : Color} {x : Nat × α} {near far : CTree (Nat × α)}
    {n : Nat} : n ∈ addrs (CTree.branch s c x near far) ↔
      n ∈ addrs near ∨ n = x.1 ∨ n ∈ addrs far := by
  cases s
  · simp [addrs, CTree.branch, CTree.inorder]
  · simp only [addrs, CTree.branch, CTree.inorder, List.map_append, List.map_cons, List.mem_append,
      List.mem_cons]
    tauto

structure Apart (n : Nat) (near far : CTree (Nat × α)) : Prop where
  nodupNear : (addrs near).Nodup
  nodupFar : (addrs far).Nodup
  notNear : n ∉ addrs near
  notFar : n ∉ addrs far
  disjoint : ∀ m ∈ addrs near, m ∉ addrs far

theorem Apart.symm {n : Nat} {near far : CTree (Nat × α)} (h : Apart n near far) :
    Apart n far near where
  nodupNear := h.nodupFar
  nodupFar := h.nodupNear
  notNear := h.notFar
  notFar := h.notNear
  disjoint m hfar hnear := h.disjoint m hnear hfar

theorem apart_node {c : Color} {x : Nat × α} {l r : CTree (Nat × α)}
    (h : (addrs (CTree.node c l x r)).Nodup) : Apart x.1 l r := by
  have h' : (addrs l ++ x.1 :: addrs r).Nodup := by simpa [addrs, CTree.inorder] using h
  obtain ⟨hl, hr, hlr⟩ := List.nodup_append.mp h'
  obtain ⟨hx, hr⟩ := List.nodup_cons.mp hr
  exact
    { nodupNear := hl
      nodupFar := hr
      notNear := fun hn => hlr _ hn _ List.mem_cons_self rfl
      notFar := hx
      disjoint := fun m hm hm' => hlr m hm m (List.mem_cons_of_mem _ hm') rfl }

theorem apart_branch {s : Side} {c : Color} {x : Nat × α} {near far : CTree (Nat × α)}
    (h : (addrs (CTree.branch s c x near far)).Nodup) : Apart x.1 near far := by
  cases s
  · exact apart_node h
  · exact (apart_node h).symm

theorem mem_addrs_of_ptr {t : CTree (Nat × α)} {n : Nat} (h : ptr t = .node n) : n ∈ addrs t := by
  cases t with
  | leaf => exact RbPtr.noConfusion h
  | node c l x r =>
    obtain rfl : x.1 = n := RbPtr.node.inj h
    simp [addrs, CTree.inorder]

def Stores (h : RbHeap α) : RbPtr → CTree (Nat × α) → Prop
  | _, .leaf => True
  | parent, .node c l x r =>
    h (.node x.1) = { left := ptr l, right := ptr r, parent := parent, data := x.2, color := c } ∧
      Stores h (.node x.1) l ∧ Stores h (.node x.1) r

theorem stores_branch {h : RbHeap α} {parent : RbPtr} {s : Side} {c : Color} {x : Nat × α}
    {near far : CTree (Nat × α)} : Stores h parent (CTree.branch s c x near far) ↔
      h (.node x.1) = rbnode s (ptr near) (ptr far) parent x.2 c ∧
        Stores h (.node x.1) near ∧ Stores h (.node x.1) far := by
  cases s
  · exact Iff.rfl
  · exact ⟨fun hs => ⟨hs.1, hs.2.2, hs.2.1⟩, fun hs => ⟨hs.1, hs.2.2, hs.2.1⟩⟩

theorem Stores.congr {h h' : RbHeap α} {t : CTree (Nat × α)} {parent : RbPtr}
    (hs : Stores h parent t) (heq : ∀ n ∈ addrs t, h' (.node n) = h (.node n)) :
    Stores h' parent t := by
  induction t generalizing parent with
  | leaf => trivial
  | node c l x r ihl ihr =>
    have hmem {n : Nat} : n ∈ addrs (CTree.node c l x r) ↔ n ∈ addrs l ∨ n = x.1 ∨ n ∈ addrs r :=
      mem_addrs_branch (s := .left)
    refine ⟨?_, ihl hs.2.1 fun n hn => heq n (hmem.mpr (Or.inl hn)),
      ihr hs.2.2 fun n hn => heq n (hmem.mpr (Or.inr (Or.inr hn)))⟩
    rw [heq x.1 (hmem.mpr (Or.inr (Or.inl rfl)))]
    exact hs.1

theorem Stores.reparent {h h' : RbHeap α} {t : CTree (Nat × α)} {parent parent' : RbPtr}
    (hs : Stores h parent t) (hnodup : (addrs t).Nodup)
    (hroot : t ≠ .leaf → h' (ptr t) = { h (ptr t) with parent := parent' })
    (heq : ∀ n ∈ addrs t, .node n ≠ ptr t → h' (.node n) = h (.node n)) : Stores h' parent' t := by
  cases t with
  | leaf => trivial
  | node c l x r =>
    have hnd := apart_node hnodup
    have hmem {n : Nat} : n ∈ addrs (CTree.node c l x r) ↔ n ∈ addrs l ∨ n = x.1 ∨ n ∈ addrs r :=
      mem_addrs_branch (s := .left)
    have hne {n : Nat} (hn : n ≠ x.1) : RbPtr.node n ≠ ptr (CTree.node c l x r) := fun h =>
      hn (RbPtr.node.inj h)
    refine ⟨?_, hs.2.1.congr fun n hn => heq n (hmem.mpr (Or.inl hn)) (hne ?_),
      hs.2.2.congr fun n hn => heq n (hmem.mpr (Or.inr (Or.inr hn))) (hne ?_)⟩
    · have h0 := hroot nofun
      rw [show ptr (CTree.node c l x r) = .node x.1 from rfl] at h0
      rw [h0, hs.1]
    · rintro rfl
      exact hnd.notNear hn
    · rintro rfl
      exact hnd.notFar hn

/-! ## Frames -/

def parentPtr : List (Frame (Nat × α)) → RbPtr
  | [] => .root
  | f :: _ => .node f.label.1

def holeSide : List (Frame (Nat × α)) → Side
  | [] => .left
  | f :: _ => f.side

def pathAddrs (p : List (Frame (Nat × α))) : List Nat := (before p ++ after p).map Prod.fst

theorem mem_pathAddrs_cons {f : Frame (Nat × α)} {p : List (Frame (Nat × α))} {n : Nat} :
    n ∈ pathAddrs (f :: p) ↔ n = f.label.1 ∨ n ∈ addrs f.sibling ∨ n ∈ pathAddrs p := by
  obtain ⟨s, c, x, sib⟩ := f
  cases s
  · simp only [pathAddrs, addrs, before, after, List.map_append, List.map_cons, List.mem_append,
      List.mem_cons]
    tauto
  · simp only [pathAddrs, addrs, before, after, List.map_append, List.map_cons, List.mem_append,
      List.mem_cons, List.map_nil, List.not_mem_nil]
    tauto

theorem mem_addrs_plug {t : CTree (Nat × α)} {p : List (Frame (Nat × α))} {n : Nat} :
    n ∈ addrs (plug t p) ↔ n ∈ addrs t ∨ n ∈ pathAddrs p := by
  simp only [addrs, pathAddrs, inorder_plug, List.map_append, List.mem_append]
  tauto

theorem nodup_plug {t : CTree (Nat × α)} {p : List (Frame (Nat × α))}
    (h : (addrs (plug t p)).Nodup) : (addrs t).Nodup ∧ ∀ n ∈ addrs t, n ∉ pathAddrs p := by
  rw [addrs, inorder_plug, List.map_append, List.map_append] at h
  obtain ⟨hbt, -, hbta⟩ := List.nodup_append.mp h
  obtain ⟨-, ht, hbt⟩ := List.nodup_append.mp hbt
  refine ⟨ht, fun n hn hp => ?_⟩
  rw [pathAddrs, List.map_append, List.mem_append] at hp
  rcases hp with hp | hp
  · exact hbt n hp n hn rfl
  · exact hbta n (List.mem_append_right _ hn) n hp rfl

/-- The heap has the frames above a hole where the pointer is `hole`. -/
def StoresPath (null : α) (h : RbHeap α) : List (Frame (Nat × α)) → RbPtr → Prop
  | [], hole =>
    h .root = { left := hole, right := .nil, parent := .nil, data := null, color := .black }
  | f :: p, hole =>
    h (.node f.label.1) = rbnode f.side hole (ptr f.sibling) (parentPtr p) f.label.2 f.color ∧
      Stores h (.node f.label.1) f.sibling ∧ StoresPath null h p (.node f.label.1)

theorem StoresPath.congr {null : α} {h h' : RbHeap α} {p : List (Frame (Nat × α))} {hole : RbPtr}
    (hs : StoresPath null h p hole) (hroot : h' .root = h .root)
    (heq : ∀ n ∈ pathAddrs p, h' (.node n) = h (.node n)) : StoresPath null h' p hole := by
  induction p generalizing hole with
  | nil => exact hroot.trans hs
  | cons f p ih =>
    refine ⟨?_, hs.2.1.congr fun n hn => heq n (mem_pathAddrs_cons.mpr (Or.inr (Or.inl hn))),
      ih hs.2.2 fun n hn => heq n (mem_pathAddrs_cons.mpr (Or.inr (Or.inr hn)))⟩
    rw [heq _ (mem_pathAddrs_cons.mpr (Or.inl rfl))]
    exact hs.1

/-- The heap has the tree `plug t p`. -/
structure Holds (null : α) (h : RbHeap α) (t : CTree (Nat × α)) (p : List (Frame (Nat × α))) :
    Prop where
  tree : Stores h (parentPtr p) t
  path : StoresPath null h p (ptr t)
  nil : (h .nil).color = .black
  nodup : (addrs (plug t p)).Nodup

variable {null : α} {h h' : RbHeap α} {t t' : CTree (Nat × α)} {p : List (Frame (Nat × α))}

theorem holds_attach {f : Frame (Nat × α)} :
    Holds null h t (f :: p) ↔ Holds null h (f.attach t) p := by
  constructor
  · intro H
    exact
      { tree := stores_branch.mpr ⟨H.path.1, H.tree, H.path.2.1⟩
        path := by rw [Frame.attach, ptr_branch]; exact H.path.2.2
        nil := H.nil
        nodup := H.nodup }
  · intro H
    obtain ⟨hnode, ht, hsib⟩ := stores_branch.mp H.tree
    exact
      { tree := ht
        path := ⟨hnode, hsib, by have hp := H.path; rwa [Frame.attach, ptr_branch] at hp⟩
        nil := H.nil
        nodup := H.nodup }

theorem holds_plug : Holds null h (plug t p) [] ↔ Holds null h t p := by
  induction p generalizing t with
  | nil => exact Iff.rfl
  | cons f p ih => exact ih.trans holds_attach.symm

theorem Holds.color (H : Holds null h t p) : (h (ptr t)).color = t.color := by
  cases t with
  | leaf => exact H.nil
  | node c l x r =>
    show (h (.node x.1)).color = c
    rw [H.tree.1]

theorem Holds.parent_child (H : Holds null h t p) :
    (h (parentPtr p)).child (holeSide p) = ptr t := by
  cases p with
  | nil =>
    show (h .root).left = ptr t
    rw [H.path]
  | cons f p =>
    show (h (.node f.label.1)).child f.side = ptr t
    rw [H.path.1, rbnode_near]

theorem Holds.parent_color (H : Holds null h t p) : (h (parentPtr p)).color = pathColor p := by
  cases p with
  | nil =>
    show (h .root).color = .black
    rw [H.path]
  | cons f p =>
    show (h (.node f.label.1)).color = f.color
    rw [H.path.1, rbnode_color]

theorem Holds.parent (H : Holds null h t p) (ht : t ≠ .leaf) :
    (h (ptr t)).parent = parentPtr p := by
  cases t with
  | leaf => exact absurd rfl ht
  | node c l x r =>
    show (h (.node x.1)).parent = parentPtr p
    rw [H.tree.1]

theorem Holds.side_of (H : Holds null h t p) (hparent : (h (ptr t)).parent = parentPtr p)
    (hne : ∀ f q, p = f :: q → ptr f.sibling ≠ ptr t) : h.side (ptr t) = holeSide p := by
  unfold RbHeap.side
  rw [hparent]
  cases p with
  | nil =>
    show (if ptr t = (h .root).left then Side.left else .right) = .left
    rw [H.path, if_pos rfl]
  | cons f q =>
    show (if ptr t = (h (.node f.label.1)).left then Side.left else .right) = f.side
    rw [H.path.1, rbnode_left]
    cases hs : f.side with
    | left => exact if_pos rfl
    | right => exact if_neg (Ne.symm (hne f q rfl))

theorem ptr_sibling_ne {f : Frame (Nat × α)} (hnodup : (addrs (plug t (f :: p))).Nodup)
    (ht : t ≠ .leaf) : ptr f.sibling ≠ ptr t := by
  intro heq
  cases t with
  | leaf => exact ht rfl
  | node c l x r =>
    have hmem := mem_addrs_of_ptr heq
    have hx : x.1 ∈ addrs (CTree.node c l x r) := mem_addrs_of_ptr rfl
    exact (nodup_plug hnodup).2 x.1 hx (mem_pathAddrs_cons.mpr (Or.inr (Or.inl hmem)))

theorem Holds.side (H : Holds null h t p) (ht : t ≠ .leaf) : h.side (ptr t) = holeSide p := by
  refine H.side_of (H.parent ht) fun f q hp => ?_
  subst hp
  exact ptr_sibling_ne H.nodup ht

theorem parentPtr_ne (hnodup : (addrs (plug t p)).Nodup) {n : Nat} (hn : n ∈ addrs t) :
    parentPtr p ≠ .node n := by
  cases p with
  | nil => exact RbPtr.noConfusion
  | cons f q =>
    intro heq
    obtain rfl : f.label.1 = n := RbPtr.node.inj heq
    exact (nodup_plug hnodup).2 _ hn (mem_pathAddrs_cons.mpr (Or.inl rfl))

theorem Holds.replace (H : Holds null h t p) (ht : Stores h' (parentPtr p) t')
    (hparent : h' (parentPtr p) = (h (parentPtr p)).setChild (holeSide p) (ptr t'))
    (hroot : parentPtr p ≠ .root → h' .root = h .root)
    (hpath : ∀ n ∈ pathAddrs p, .node n ≠ parentPtr p → h' (.node n) = h (.node n))
    (hnil : (h' .nil).color = .black) (hnodup : (addrs (plug t' p)).Nodup) :
    Holds null h' t' p := by
  refine { tree := ht, path := ?_, nil := hnil, nodup := hnodup }
  cases p with
  | nil =>
    show h' .root = _
    have hpar : h' .root = (h .root).setChild .left (ptr t') := hparent
    rw [hpar, show h .root = _ from H.path]
    rfl
  | cons f q =>
    have hapart := apart_branch (nodup_plug (t := f.attach t) H.nodup).1
    have hf : f.label.1 ∈ addrs (f.attach t) := mem_addrs_branch.mpr (Or.inr (Or.inl rfl))
    have hfq := (nodup_plug (t := f.attach t) H.nodup).2 _ hf
    refine ⟨?_, H.path.2.1.congr fun n hn => ?_, H.path.2.2.congr ?_ fun n hn => ?_⟩
    · have hpar : h' (.node f.label.1) = (h (.node f.label.1)).setChild f.side (ptr t') := hparent
      rw [hpar, H.path.1, rbnode_setChild_near]
    · refine hpath n (mem_pathAddrs_cons.mpr (Or.inr (Or.inl hn))) fun heq => ?_
      obtain rfl : n = f.label.1 := RbPtr.node.inj heq
      exact hapart.notFar hn
    · exact hroot RbPtr.noConfusion
    · refine hpath n (mem_pathAddrs_cons.mpr (Or.inr (Or.inr hn))) fun heq => ?_
      obtain rfl : n = f.label.1 := RbPtr.node.inj heq
      exact hfq hn

def SameOff (ns : List Nat) (h h' : RbHeap α) : Prop :=
  h' .nil = h .nil ∧ ∀ n, n ∉ ns → h' (.node n) = h (.node n)

theorem SameOff.refl (ns : List Nat) (h : RbHeap α) : SameOff ns h h := ⟨rfl, fun _ _ => rfl⟩

theorem SameOff.trans {ns : List Nat} {h1 h2 h3 : RbHeap α} (h12 : SameOff ns h1 h2)
    (h23 : SameOff ns h2 h3) : SameOff ns h1 h3 :=
  ⟨h23.1.trans h12.1, fun n hn => (h23.2 n hn).trans (h12.2 n hn)⟩

/-! ## Rotations and colors -/

theorem rotate_apply {s r : Side} {h : RbHeap α} {x y : Nat} {a b c parent : RbPtr} {dx dy : α}
    {cx cy : Color} (hx : h (.node x) = rbnode s a (.node y) parent dx cx)
    (hy : h (.node y) = rbnode s b c (.node x) dy cy) (hxy : x ≠ y) (hpx : parent ≠ .node x)
    (hpy : parent ≠ .node y) (hbx : b ≠ .node x) (hby : b ≠ .node y) (hbp : b ≠ parent)
    (hside : h.side (.node x) = r) (q : RbPtr) :
    rotate s h (.node x) q =
      if q = .node x then rbnode s a b (.node y) dx cx
      else if q = .node y then rbnode s (.node x) c parent dy cy
      else if q = parent then (h parent).setChild r (.node y)
      else if q = b ∧ b ≠ .nil then { h b with parent := .node x }
      else h q := by
  have hxy' : RbPtr.node x ≠ .node y := fun h => hxy (RbPtr.node.inj h)
  unfold rotate
  rw [hx, rbnode_far]
  dsimp only
  rw [hy, rbnode_near]
  -- the child of the node
  generalize hh1 : h.setChild (.node x) s.flip b = h1
  have h1x : h1 (.node x) = rbnode s a b parent dx cx := by
    rw [← hh1, RbHeap.setChild, RbHeap.modify_self, hx, rbnode_setChild_far]
  have h1q {q : RbPtr} (hq : q ≠ .node x) : h1 q = h q := by
    rw [← hh1, RbHeap.setChild, RbHeap.modify_ne _ _ hq]
  rw [h1q hxy'.symm, hy, rbnode_near]
  -- its parent
  generalize hh2 : (if b ≠ .nil then h1.setParent b (.node x) else h1) = h2
  have h2q {q : RbPtr} (hq : q ≠ b) : h2 q = h1 q := by
    rw [← hh2]
    split
    · exact RbHeap.modify_ne _ _ hq
    · rfl
  have h2b (hb : b ≠ .nil) : h2 b = { h b with parent := .node x } := by
    rw [← hh2, if_pos hb, RbHeap.setParent, RbHeap.modify_self, h1q hbx]
  rw [h2q hbx.symm, h1x, rbnode_parent]
  generalize hh3 : h2.setParent (.node y) parent = h3
  have h3q {q : RbPtr} (hq : q ≠ .node y) : h3 q = h2 q := by
    rw [← hh3, RbHeap.setParent, RbHeap.modify_ne _ _ hq]
  have h3y : h3 (.node y) = rbnode s b c parent dy cy := by
    rw [← hh3, RbHeap.setParent, RbHeap.modify_self, h2q hby.symm, h1q hxy'.symm, hy,
      rbnode_setParent]
  have h3x : h3 (.node x) = rbnode s a b parent dx cx := by rw [h3q hxy', h2q hbx.symm, h1x]
  have h3p : h3 parent = h parent := by rw [h3q hpy, h2q hbp.symm, h1q hpx]
  have h3side : h3.side (.node x) = r := by
    rw [← hside, RbHeap.side, RbHeap.side, h3x, rbnode_parent, h3p, hx, rbnode_parent]
  rw [h3side, h3x, rbnode_parent]
  -- the link from above, and the two nodes to one another
  generalize hh4 : h3.setChild parent r (.node y) = h4
  have h4q {q : RbPtr} (hq : q ≠ parent) : h4 q = h3 q := by
    rw [← hh4, RbHeap.setChild, RbHeap.modify_ne _ _ hq]
  have h4p : h4 parent = (h parent).setChild r (.node y) := by
    rw [← hh4, RbHeap.setChild, RbHeap.modify_self, h3p]
  have h6q {q : RbPtr} (hqx : q ≠ .node x) (hqy : q ≠ .node y) :
      ((h4.setChild (.node y) s (.node x)).setParent (.node x) (.node y)) q = h4 q := by
    rw [RbHeap.setParent, RbHeap.modify_ne _ _ hqx, RbHeap.setChild, RbHeap.modify_ne _ _ hqy]
  by_cases hqx : q = .node x
  · rw [if_pos hqx, hqx, RbHeap.setParent, RbHeap.modify_self, RbHeap.setChild,
      RbHeap.modify_ne _ _ hxy', h4q hpx.symm, h3x, rbnode_setParent]
  · rw [if_neg hqx]
    by_cases hqy : q = .node y
    · rw [if_pos hqy, hqy, RbHeap.setParent, RbHeap.modify_ne _ _ hxy'.symm, RbHeap.setChild,
        RbHeap.modify_self, h4q hpy.symm, h3y, rbnode_setChild_near]
    · rw [if_neg hqy, h6q hqx hqy]
      by_cases hqp : q = parent
      · rw [if_pos hqp, hqp, h4p]
      · rw [if_neg hqp, h4q hqp, h3q hqy]
        by_cases hqb : q = b ∧ b ≠ .nil
        · rw [if_pos hqb, hqb.1, h2b hqb.2]
        · rw [if_neg hqb, ← hh2]
          split
          · next hb =>
            have hqb' : q ≠ b := fun h => hqb ⟨h, hb⟩
            rw [RbHeap.setParent, RbHeap.modify_ne _ _ hqb', h1q hqx]
          · exact h1q hqx

theorem ptr_ne {t : CTree (Nat × α)} {q : RbPtr} (hnil : q ≠ .nil)
    (h : ∀ n ∈ addrs t, q ≠ .node n) : ptr t ≠ q := by
  intro heq
  cases t with
  | leaf => exact hnil heq.symm
  | node c l x r => exact h x.1 (mem_addrs_of_ptr rfl) heq.symm

theorem parentPtr_ne_nil (p : List (Frame (Nat × α))) : parentPtr p ≠ .nil := by
  cases p <;> exact RbPtr.noConfusion

theorem Holds.rotate {s : Side} {cx cy : Color} {x y : Nat × α} {A B C : CTree (Nat × α)}
    (H : Holds null h (CTree.branch s cx x A (CTree.branch s cy y B C)) p) :
    Holds null (rotate s h (.node x.1)) (CTree.branch s cy y (CTree.branch s cx x A B) C) p ∧
      SameOff (addrs (plug (CTree.branch s cx x A (CTree.branch s cy y B C)) p)) h
        (Sudoers.rotate s h (.node x.1)) := by
  obtain ⟨hx, hA, hyBC⟩ := stores_branch.mp H.tree
  obtain ⟨hy, hB, hC⟩ := stores_branch.mp hyBC
  rw [ptr_branch] at hx
  obtain ⟨hnd, hoff⟩ := nodup_plug H.nodup
  have hax := apart_branch hnd
  have hay := apart_branch hax.nodupFar
  have hyx : y.1 ∈ addrs (CTree.branch s cy y B C) := mem_addrs_branch.mpr (Or.inr (Or.inl rfl))
  have hxy : x.1 ≠ y.1 := fun h => hax.notFar (h ▸ hyx)
  have hBmem {n : Nat} (hn : n ∈ addrs B) : n ∈ addrs (CTree.branch s cy y B C) :=
    mem_addrs_branch.mpr (Or.inl hn)
  have hCmem {n : Nat} (hn : n ∈ addrs C) : n ∈ addrs (CTree.branch s cy y B C) :=
    mem_addrs_branch.mpr (Or.inr (Or.inr hn))
  have hmem {n : Nat} (hn : n ∈ addrs (CTree.branch s cy y B C)) :
      n ∈ addrs (CTree.branch s cx x A (CTree.branch s cy y B C)) :=
    mem_addrs_branch.mpr (Or.inr (Or.inr hn))
  have hnode {m n : Nat} (hmn : m ≠ n) : RbPtr.node m ≠ .node n := fun h => hmn (RbPtr.node.inj h)
  have hpn {n : Nat} (hn : n ∈ addrs (CTree.branch s cx x A (CTree.branch s cy y B C))) :
      parentPtr p ≠ .node n := parentPtr_ne H.nodup hn
  have hbx : ptr B ≠ .node x.1 := ptr_ne RbPtr.noConfusion fun n hn =>
    hnode fun h => hax.notFar (h ▸ hBmem hn)
  have hby : ptr B ≠ .node y.1 := ptr_ne RbPtr.noConfusion fun n hn =>
    hnode fun h => hay.notNear (h ▸ hn)
  have hbp : ptr B ≠ parentPtr p := ptr_ne (parentPtr_ne_nil p) fun n hn => hpn (hmem (hBmem hn))
  have hxmem : x.1 ∈ addrs (CTree.branch s cx x A (CTree.branch s cy y B C)) :=
    mem_addrs_branch.mpr (Or.inr (Or.inl rfl))
  have hside : h.side (.node x.1) = holeSide p := by
    have hs := H.side (fun h => by rw [← ptr_eq_nil, ptr_branch] at h; exact RbPtr.noConfusion h)
    rwa [ptr_branch] at hs
  have happ := rotate_apply hx hy hxy (hpn hxmem) (hpn (hmem hyx)) hbx hby hbp hside
  generalize hh' : Sudoers.rotate s h (.node x.1) = h' at happ ⊢
  have hrest {q : RbPtr} (hqx : q ≠ .node x.1) (hqy : q ≠ .node y.1) (hqp : q ≠ parentPtr p)
      (hqb : q = ptr B → ptr B = .nil) : h' q = h q := by
    rw [happ, if_neg hqx, if_neg hqy, if_neg hqp, if_neg fun hq => hq.2 (hqb hq.1)]
  have hlabels : addrs (plug (CTree.branch s cy y (CTree.branch s cx x A B) C) p) =
      addrs (plug (CTree.branch s cx x A (CTree.branch s cy y B C)) p) := by
    rw [addrs, addrs, inorder_plug, inorder_plug, CTree.inorder_rotate]
  have hnil : h' .nil = h .nil :=
    hrest RbPtr.noConfusion RbPtr.noConfusion (parentPtr_ne_nil p).symm Eq.symm
  constructor
  · refine H.replace ?_ ?_ (fun hp => ?_) (fun n hn hp => ?_) (by rw [hnil]; exact H.nil)
      (hlabels ▸ H.nodup)
    · rw [stores_branch, stores_branch, ptr_branch]
      refine ⟨?_, ⟨?_, hA.congr fun n hn => ?_, hB.reparent hay.nodupNear (fun hne => ?_) ?_⟩,
        hC.congr fun n hn => ?_⟩
      · rw [happ, if_neg (hnode hxy.symm), if_pos rfl]
      · rw [happ, if_pos rfl]
      · refine hrest (hnode fun h => hax.notNear (h ▸ hn))
          (hnode fun h => hax.disjoint _ hn (h ▸ hyx))
          (hpn (mem_addrs_branch.mpr (Or.inl hn))).symm fun h => ?_
        exact absurd (hBmem (mem_addrs_of_ptr h.symm)) (hax.disjoint _ hn)
      · rw [happ, if_neg hbx, if_neg hby, if_neg hbp,
          if_pos ⟨rfl, fun h => hne (ptr_eq_nil.mp h)⟩]
      · intro n hn hroot
        exact hrest (hnode fun h => hax.notFar (h ▸ hBmem hn))
          (hnode fun h => hay.notNear (h ▸ hn)) (hpn (hmem (hBmem hn))).symm
          fun h => absurd h hroot
      · refine hrest (hnode fun h => hax.notFar (h ▸ hCmem hn))
          (hnode fun h => hay.notFar (h ▸ hn)) (hpn (hmem (hCmem hn))).symm fun h => ?_
        exact absurd hn (hay.disjoint _ (mem_addrs_of_ptr h.symm))
    · rw [happ, if_neg (hpn hxmem), if_neg (hpn (hmem hyx)), if_pos rfl, ptr_branch]
    · refine hrest RbPtr.noConfusion RbPtr.noConfusion hp.symm fun h => ?_
      exact absurd h.symm (ptr_ne RbPtr.noConfusion fun n _ => RbPtr.noConfusion)
    · have hnt {m : Nat} (hm : m ∈ addrs (CTree.branch s cx x A (CTree.branch s cy y B C))) :
          RbPtr.node n ≠ .node m := hnode fun h => hoff m hm (h ▸ hn)
      refine hrest (hnt hxmem) (hnt (hmem hyx)) hp fun h => ?_
      exact absurd rfl (hnt (hmem (hBmem (mem_addrs_of_ptr h.symm))))
  · refine ⟨hnil, fun n hn => ?_⟩
    have hnt {m : Nat} (hm : m ∈ addrs (CTree.branch s cx x A (CTree.branch s cy y B C))) :
        RbPtr.node n ≠ .node m := hnode fun h =>
      hn (mem_addrs_plug.mpr (Or.inl (h ▸ hm)))
    refine hrest (hnt hxmem) (hnt (hmem hyx)) (fun h => ?_) fun h => ?_
    · cases p with
      | nil => exact RbPtr.noConfusion h
      | cons f q =>
        obtain rfl : n = f.label.1 := RbPtr.node.inj h
        exact hn (mem_addrs_plug.mpr (Or.inr (mem_pathAddrs_cons.mpr (Or.inl rfl))))
    · exact absurd rfl (hnt (hmem (hBmem (mem_addrs_of_ptr h.symm))))

end NextBSD.Sudoers
