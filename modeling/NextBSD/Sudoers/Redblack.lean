import NextBSD.Library.RedBlack

/-!
# sudoers redblack.c

Nodes point to their parents as well.  The sentinels `nil` and `root` are in the tree itself; the
fake root has the first node on its left.  The two branches of each loop are mirror images, which a
side tells apart.  A loop that runs out of `fuel` is `none`.
-/

namespace NextBSD.Sudoers

open RedBlack (Side Color)

universe u v

variable {α : Type u} {σ : Type v}

/-- The address of a node; `node` of one that was allocated. -/
inductive RbPtr where
  | nil
  | root
  | node (n : Nat)
  deriving DecidableEq, Repr

structure Rbnode (α : Type u) where
  left : RbPtr
  right : RbPtr
  parent : RbPtr
  data : α
  color : Color
  deriving DecidableEq, Repr

def Rbnode.child (n : Rbnode α) : Side → RbPtr
  | .left => n.left
  | .right => n.right

def Rbnode.setChild (n : Rbnode α) (s : Side) (p : RbPtr) : Rbnode α :=
  match s with
  | .left => { n with left := p }
  | .right => { n with right := p }

abbrev RbHeap (α : Type u) : Type u := RbPtr → Rbnode α

namespace RbHeap

def modify (h : RbHeap α) (p : RbPtr) (f : Rbnode α → Rbnode α) : RbHeap α :=
  fun q => if q = p then f (h q) else h q

def setChild (h : RbHeap α) (p : RbPtr) (s : Side) (c : RbPtr) : RbHeap α :=
  h.modify p (·.setChild s c)

def setParent (h : RbHeap α) (p parent : RbPtr) : RbHeap α :=
  h.modify p ({ · with parent := parent })

def setColor (h : RbHeap α) (p : RbPtr) (c : Color) : RbHeap α := h.modify p ({ · with color := c })

def side (h : RbHeap α) (node : RbPtr) : Side :=
  if node = (h (h node).parent).left then .left else .right

end RbHeap

/-- `live` are the nodes that are allocated. -/
structure Rbtree (α : Type u) where
  heap : RbHeap α
  live : List Nat

def rbfirst (h : RbHeap α) : RbPtr := (h .root).left

def Rbtree.fuel (t : Rbtree α) : Nat := 2 * t.live.length + 2

def rbcreate (null : α) : Rbtree α :=
  { heap := fun _ =>
      { left := .nil, right := .nil, parent := .nil, data := null, color := .black }
    live := [] }

/-- `malloc` has memory for a node where `offer` says, unless there is a node. -/
def malloc (live : List Nat) (offer : Option Nat) : Option Nat := offer.filter fun n => n ∉ live

/-- `rotate_left` and `rotate_right`: to the side `s`. -/
def rotate (s : Side) (h : RbHeap α) (node : RbPtr) : RbHeap α :=
  let child := (h node).child s.flip
  let h := h.setChild node s.flip ((h child).child s)
  let h := if (h child).child s ≠ .nil then h.setParent ((h child).child s) node else h
  let h := h.setParent child (h node).parent
  let h := h.setChild (h node).parent (h.side node) child
  let h := h.setChild child s node
  h.setParent node child

def rotateLeft : RbHeap α → RbPtr → RbHeap α := rotate .left

def rotateRight : RbHeap α → RbPtr → RbHeap α := rotate .right

/-- The loop that finds where `data` goes: the node that it ends at, `nil` if there is none yet, and
the last node before. -/
def insertionPoint (compar : α → α → Int) (h : RbHeap α) (data : α) :
    Nat → RbPtr → RbPtr → Option (RbPtr × RbPtr)
  | 0, _, _ => none
  | fuel + 1, node, parent =>
    if node = .nil then some (node, parent)
    else
      let res := compar data (h node).data
      if res = 0 then some (node, node)
      else
        insertionPoint compar h data fuel (if res < 0 then (h node).left else (h node).right) node

/-- A round of the loop that follows an insertion, with the parent on the side `s` of its own. -/
def insertCase (s : Side) (h : RbHeap α) (node : RbPtr) : RbHeap α × RbPtr :=
  let parent := (h node).parent
  let grand := (h parent).parent
  let uncle := (h grand).child s.flip
  if (h uncle).color = .red then
    (((h.setColor parent .black).setColor uncle .black).setColor grand .red, grand)
  else
    let (h, node) :=
      if node = (h parent).child s.flip then (rotate s h parent, parent) else (h, node)
    let h := h.setColor (h node).parent .black
    let h := h.setColor (h (h node).parent).parent .red
    (rotate s.flip h (h (h node).parent).parent, node)

def insertRepair : Nat → RbHeap α → RbPtr → Option (RbHeap α)
  | 0, _, _ => none
  | fuel + 1, h, node =>
    if (h (h node).parent).color = .red then
      let (h, node) := insertCase (h.side (h node).parent) h node
      insertRepair fuel h node
    else some h

/-- What `rbinsert` leaves and returns, and the node that it reports as `existing`. -/
structure RbInsert (α : Type u) where
  tree : Rbtree α
  ret : Int
  existing : Option RbPtr

def linkNode (compar : α → α → Int) (h : RbHeap α) (data : α) (node parent : RbPtr) : RbHeap α :=
  let h := h.modify node fun _ =>
    { left := .nil, right := .nil, parent := parent, data := data, color := .red }
  h.setChild parent
    (if parent = .root ∨ compar data (h parent).data < 0 then .left else .right) node

def rbinsert (compar : α → α → Int) (t : Rbtree α) (data : α) (offer : Option Nat) :
    Option (RbInsert α) :=
  match insertionPoint compar t.heap data t.fuel (rbfirst t.heap) .root with
  | none => none
  | some (node, parent) =>
    if node ≠ .nil then some { tree := t, ret := 1, existing := some node }
    else
      match malloc t.live offer with
      | none => some { tree := t, ret := -1, existing := none }
      | some n =>
        match insertRepair t.fuel (linkNode compar t.heap data (.node n) parent) (.node n) with
        | none => none
        | some h =>
          some
            { tree := { heap := h.setColor (rbfirst h) .black, live := n :: t.live }
              ret := 0
              existing := none }

def rbfindLoop (compar : α → α → Int) (h : RbHeap α) (key : α) : Nat → RbPtr → Option (Option RbPtr)
  | 0, _ => none
  | fuel + 1, node =>
    if node = .nil then some none
    else
      let res := compar key (h node).data
      if res = 0 then some (some node)
      else rbfindLoop compar h key fuel (if res < 0 then (h node).left else (h node).right)

def rbfind (compar : α → α → Int) (t : Rbtree α) (key : α) : Option (Option RbPtr) :=
  rbfindLoop compar t.heap key t.fuel (rbfirst t.heap)

inductive Rbtraversal where
  | preorder
  | inorder
  | postorder
  deriving DecidableEq, Repr

/-- `func` returns the error and the cookie that it leaves. -/
def applyAt (func : α → σ → Int × σ) (data : α) (now : Bool) (cookie : σ) : Int × σ :=
  if now then func data cookie else (0, cookie)

def unlessError (r : Int × σ) (k : σ → Option (Int × σ)) : Option (Int × σ) :=
  if r.1 ≠ 0 then some r else k r.2

def rbapplyNode (h : RbHeap α) (func : α → σ → Int × σ) (order : Rbtraversal) :
    Nat → RbPtr → σ → Option (Int × σ)
  | 0, _, _ => none
  | fuel + 1, node, cookie =>
    if node = .nil then some (0, cookie)
    else
      unlessError (applyAt func (h node).data (order = .preorder) cookie) fun cookie =>
        match rbapplyNode h func order fuel (h node).left cookie with
        | none => none
        | some r =>
          unlessError r fun cookie =>
            unlessError (applyAt func (h node).data (order = .inorder) cookie) fun cookie =>
              match rbapplyNode h func order fuel (h node).right cookie with
              | none => none
              | some r =>
                unlessError r fun cookie =>
                  some (applyAt func (h node).data (order = .postorder) cookie)

def rbapply (t : Rbtree α) (func : α → σ → Int × σ) (cookie : σ) (order : Rbtraversal) :
    Option (Int × σ) :=
  rbapplyNode t.heap func order t.fuel (rbfirst t.heap) cookie

def leftmost (h : RbHeap α) : Nat → RbPtr → Option RbPtr
  | 0, _ => none
  | fuel + 1, succ => if (h succ).left ≠ .nil then leftmost h fuel (h succ).left else some succ

def climb (h : RbHeap α) : Nat → RbPtr → RbPtr → Option RbPtr
  | 0, _, _ => none
  | fuel + 1, node, succ =>
    if node = (h succ).right then climb h fuel succ (h succ).parent
    else some (if succ = .root then .nil else succ)

def rbsuccessor (fuel : Nat) (h : RbHeap α) (node : RbPtr) : Option RbPtr :=
  if (h node).right ≠ .nil then leftmost h fuel (h node).right
  else climb h fuel node (h node).parent

/-- The end of the repair, with a red node below the sibling on its farther side. -/
def repairLast (s : Side) (h : RbHeap α) (node sibling : RbPtr) : RbHeap α × RbPtr :=
  let h := h.setColor sibling (h (h node).parent).color
  let h := h.setColor (h node).parent .black
  let h := h.setColor ((h sibling).child s.flip) .black
  let h := rotate s h (h node).parent
  (h, rbfirst h)

/-- What a round of `rbrepair` does once the sibling is black. -/
def repairBlack (s : Side) (h : RbHeap α) (node sibling : RbPtr) : RbHeap α × RbPtr :=
  if (h ((h sibling).child .right)).color = .black ∧
      (h ((h sibling).child .left)).color = .black then
    (h.setColor sibling .red, (h node).parent)
  else if (h ((h sibling).child s.flip)).color = .black then
    let h := (h.setColor ((h sibling).child s) .black).setColor sibling .red
    let h := rotate s.flip h sibling
    repairLast s h node ((h (h node).parent).child s.flip)
  else repairLast s h node sibling

/-- A round of `rbrepair` at a node on the side `s` of its parent. -/
def repairCase (s : Side) (h : RbHeap α) (node : RbPtr) : RbHeap α × RbPtr :=
  let sibling := (h (h node).parent).child s.flip
  if (h sibling).color = .red then
    let h := (h.setColor sibling .black).setColor (h node).parent .red
    let h := rotate s h (h node).parent
    repairBlack s h node ((h (h node).parent).child s.flip)
  else repairBlack s h node sibling

def rbrepair : Nat → RbHeap α → RbPtr → Option (RbHeap α)
  | 0, _, _ => none
  | fuel + 1, h, node =>
    if (h node).color = .black ∧ node ≠ rbfirst h then
      let (h, node) := repairCase (h.side node) h node
      rbrepair fuel h node
    else some (h.setColor node .black)

/-- `y`, which has at most one child `x`, goes out of the tree. -/
def unlink (h : RbHeap α) (y x : RbPtr) : RbHeap α :=
  let h := h.setParent x (h y).parent
  if (h y).parent = .root then h.setChild .root .left x
  else h.setChild (h y).parent (h.side y) x

def replaceNode (h : RbHeap α) (z y : RbPtr) : RbHeap α :=
  let h := h.modify y ({ · with
    left := (h z).left, right := (h z).right, parent := (h z).parent, color := (h z).color })
  let h := h.setParent (h z).right y
  let h := h.setParent (h z).left y
  h.setChild (h z).parent (h.side z) y

def spliced (fuel : Nat) (h : RbHeap α) (z : RbPtr) : Option RbPtr :=
  if (h z).left = .nil ∨ (h z).right = .nil then some z else rbsuccessor fuel h z

def RbPtr.free (live : List Nat) : RbPtr → List Nat
  | .node n => live.erase n
  | _ => live

def rbdelete (t : Rbtree α) (z : RbPtr) : Option (Rbtree α × α) :=
  match spliced t.fuel t.heap z with
  | none => none
  | some y =>
    let x := if (t.heap y).left = .nil then (t.heap y).right else (t.heap y).left
    let h := unlink t.heap y x
    match (if (h y).color = .black then rbrepair t.fuel h x else some h) with
    | none => none
    | some h =>
      let h := if y ≠ z then replaceNode h z y else h
      some ({ heap := h, live := z.free t.live }, (t.heap z).data)

end NextBSD.Sudoers
