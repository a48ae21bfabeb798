import Mathlib.Data.List.Pairwise
import NextBSD.Sudoers.RedblackDelete

/-!
# sudoers redblack.c: the map that a tree is

A tree refines a finite map: the list of what is in it, in ascending order.
-/

namespace NextBSD.Sudoers

open RedBlack

universe u v

variable {α : Type u} {null : α} {compar : α → α → Int}

/-- The function that compares is a total order; what it returns 0 for has the same key. -/
structure TotalOrder (compar : α → α → Int) : Prop where
  swap : ∀ a b, 0 < compar a b ↔ compar b a < 0
  trans : ∀ a b c, compar a b ≤ 0 → compar b c ≤ 0 → compar a c ≤ 0

namespace TotalOrder

variable (hord : TotalOrder compar)

include hord

theorem lt_of_le_of_lt {a b c : α} (hab : compar a b ≤ 0) (hbc : compar b c < 0) :
    compar a c < 0 := by
  have hcb := (hord.swap c b).mpr hbc
  refine (hord.swap c a).mp (Int.not_le.mp fun hca => ?_)
  have hle := hord.trans c a b hca hab
  omega

theorem lt_of_lt_of_le {a b c : α} (hab : compar a b < 0) (hbc : compar b c ≤ 0) :
    compar a c < 0 := by
  have hba := (hord.swap b a).mpr hab
  refine (hord.swap c a).mp (Int.not_le.mp fun hca => ?_)
  have hle := hord.trans b c a hbc hca
  omega

theorem le_swap {a b : α} : 0 ≤ compar a b ↔ compar b a ≤ 0 := by
  have h := hord.swap b a
  omega

theorem cut {xs : List (Nat × α)} (hsorted : xs.Pairwise fun x y => compar x.2 y.2 < 0) (key : α) :
    xs.Pairwise (Cut (searchOrder compar key)) := by
  refine hsorted.imp fun {x y} hxy => ⟨fun hx => ?_, fun hy => ?_⟩
  · rw [Ne, searchOrder_gt] at hx
    exact searchOrder_lt.mpr (hord.lt_of_le_of_lt (by omega) hxy)
  · rw [Ne, searchOrder_lt] at hy
    refine searchOrder_gt.mpr ((hord.swap key x.2).mpr ?_)
    exact hord.lt_of_lt_of_le hxy (hord.le_swap.mp (by omega))

end TotalOrder

/-- `delete` is of the node that has the key, as `rbfind` finds it. -/
inductive RbOp (α : Type u) where
  | insert (data : α) (offer : Option Nat)
  | find (key : α)
  | delete (key : α)

inductive RbAnswer (α : Type u) where
  | inserted (ret : Int) (existing : Option α)
  | found (data : Option α)
  | deleted (data : Option α)
  deriving DecidableEq, Repr

def rbstep (compar : α → α → Int) (t : Rbtree α) : RbOp α → Option (Rbtree α × RbAnswer α)
  | .insert data offer =>
    (rbinsert compar t data offer).map fun r =>
      (r.tree, .inserted r.ret (r.existing.map fun node => (r.tree.heap node).data))
  | .find key =>
    (rbfind compar t key).map fun node => (t, .found (node.map fun node => (t.heap node).data))
  | .delete key =>
    match rbfind compar t key with
    | none => none
    | some none => some (t, .deleted none)
    | some (some node) => (rbdelete t node).map fun (t, data) => (t, .deleted (some data))

/-- The operations on a finite map; a new node needs memory, and `live` are the nodes there are. -/
inductive MapStep (compar : α → α → Int) (live : List Nat) :
    List α → RbOp α → RbAnswer α → List α → Prop
  | present {m : List α} {data x : α} {offer : Option Nat} (hx : x ∈ m) (heq : compar data x = 0) :
    MapStep compar live m (.insert data offer) (.inserted 1 (some x)) m
  | inserted {xs ys : List α} {data : α} {offer : Option Nat} (hxs : ∀ x ∈ xs, 0 < compar data x)
      (hys : ∀ y ∈ ys, compar data y < 0) :
    MapStep compar live (xs ++ ys) (.insert data offer) (.inserted 0 none) (xs ++ data :: ys)
  | noMemory {m : List α} {data : α} {offer : Option Nat} (hm : ∀ x ∈ m, compar data x ≠ 0)
      (hoffer : malloc live offer = none) :
    MapStep compar live m (.insert data offer) (.inserted (-1) none) m
  | found {m : List α} {key x : α} (hx : x ∈ m) (heq : compar key x = 0) :
    MapStep compar live m (.find key) (.found (some x)) m
  | notFound {m : List α} {key : α} (hm : ∀ x ∈ m, compar key x ≠ 0) :
    MapStep compar live m (.find key) (.found none) m
  | deleted {xs ys : List α} {key x : α} (heq : compar key x = 0) :
    MapStep compar live (xs ++ x :: ys) (.delete key) (.deleted (some x)) (xs ++ ys)
  | notThere {m : List α} {key : α} (hm : ∀ x ∈ m, compar key x ≠ 0) :
    MapStep compar live m (.delete key) (.deleted none) m

inductive RbRun (compar : α → α → Int) :
    Rbtree α → List α → List (RbOp α) → List (RbAnswer α) → Rbtree α → List α → Prop
  | nil {t : Rbtree α} {m : List α} : RbRun compar t m [] [] t m
  | cons {t t1 t2 : Rbtree α} {m m1 m2 : List α} {op : RbOp α} {a : RbAnswer α}
      {ops : List (RbOp α)} {as : List (RbAnswer α)} (hstep : rbstep compar t op = some (t1, a))
      (hmap : MapStep compar t.live m op a m1) (hrun : RbRun compar t1 m1 ops as t2 m2) :
    RbRun compar t m (op :: ops) (a :: as) t2 m2

/-! ## Refinement -/

/-- The tree has `m`, in ascending order. -/
structure IsMap (compar : α → α → Int) (null : α) (t : Rbtree α) (T : CTree (Nat × α))
    (m : List α) : Prop where
  tree : IsTree null t T
  data : T.inorder.map Prod.snd = m
  sorted : m.Pairwise fun x y => compar x y < 0

theorem rbcreate_isMap (compar : α → α → Int) (null : α) :
    IsMap compar null (rbcreate null) .leaf [] :=
  { tree :=
      { holds := { tree := trivial, path := rfl, nil := rfl, nodup := List.nodup_nil }
        valid := ⟨rfl, 0, rfl⟩
        live := List.Perm.refl _ }
    data := rfl
    sorted := List.Pairwise.nil }

theorem IsTree.data {t : Rbtree α} {T : CTree (Nat × α)} (H : IsTree null t T) {x : Nat × α}
    (hx : x ∈ T.inorder) : (t.heap (.node x.1)).data = x.2 := by
  obtain ⟨c, l, r, p, rfl⟩ := exists_zipper hx
  have hnode : t.heap (.node x.1) = _ := (holds_plug.mp H.holds).tree.1
  rw [hnode]

namespace IsMap

variable {t : Rbtree α} {T : CTree (Nat × α)} {m : List α} (H : IsMap compar null t T m)

include H

theorem mem {x : Nat × α} (hx : x ∈ T.inorder) : x.2 ∈ m := by
  rw [← H.data]
  exact List.mem_map_of_mem hx

theorem exists_node {x : α} (hx : x ∈ m) : ∃ n, (n, x) ∈ T.inorder := by
  rw [← H.data] at hx
  obtain ⟨⟨n, y⟩, hmem, rfl⟩ := List.mem_map.mp hx
  exact ⟨n, hmem⟩

variable (hord : TotalOrder compar)

include hord

theorem cut (key : α) : T.inorder.Pairwise (Cut (searchOrder compar key)) := by
  have hsorted := H.sorted
  rw [← H.data, List.pairwise_map] at hsorted
  exact hord.cut hsorted key

theorem descend_cases (key : α) :
    ((descend (searchOrder compar key) T []).1 = .leaf ∧ ∀ x ∈ m, compar key x ≠ 0) ∨
    ∃ c l r x, (descend (searchOrder compar key) T []).1 = .node c l x r ∧ x ∈ T.inorder ∧
      compar key x.2 = 0 := by
  have hplug : plug (descend (searchOrder compar key) T []).1
      (descend (searchOrder compar key) T []).2 = T := plug_descend T []
  rcases @descend_found _ (searchOrder compar key) T [] with hd | ⟨c, l, x, r, hd, heq⟩
  · refine Or.inl ⟨hd, fun x hx => ?_⟩
    obtain ⟨hbefore, hafter⟩ := descend_sides (p := []) (H.cut hord key)
      (fun x hx => absurd hx List.not_mem_nil) (fun x hx => absurd hx List.not_mem_nil)
    obtain ⟨n, hn⟩ := H.exists_node hx
    rw [hd] at hplug
    rw [← hplug, inorder_plug, CTree.inorder, List.append_nil, List.mem_append] at hn
    rcases hn with hn | hn
    · have hpos := searchOrder_gt.mp (hbefore _ hn)
      dsimp only at hpos
      omega
    · have hneg := searchOrder_lt.mp (hafter _ hn)
      dsimp only at hneg
      omega
  · refine Or.inr ⟨c, l, r, x, hd, ?_, searchOrder_eq.mp heq⟩
    rw [hd] at hplug
    rw [← hplug, inorder_plug_node]
    exact List.mem_append_right _ List.mem_cons_self

theorem rbfind_cases (key : α) :
    (rbfind compar t key = some none ∧ ∀ x ∈ m, compar key x ≠ 0) ∨
    ∃ x ∈ T.inorder, rbfind compar t key = some (some (.node x.1)) ∧ compar key x.2 = 0 := by
  have hfind := @rbfindLoop_descend _ compar t.heap T [] key t.fuel .root H.tree.stores (by
    rw [← H.tree.length_live, Rbtree.fuel]
    omega)
  rw [← H.tree.first] at hfind
  rcases H.descend_cases hord key with ⟨hd, hm⟩ | ⟨c, l, r, x, hd, hx, heq⟩
  · rw [hd] at hfind
    exact Or.inl ⟨hfind, hm⟩
  · rw [hd] at hfind
    exact Or.inr ⟨x, hx, hfind, heq⟩

theorem unique {x y : Nat × α} (hx : x ∈ T.inorder) (hy : y ∈ T.inorder)
    (heq : compar x.2 y.2 = 0) : x = y := by
  have hsorted := H.sorted
  rw [← H.data, List.pairwise_map] at hsorted
  have hne : T.inorder.Pairwise fun x y => compar x.2 y.2 ≠ 0 := hsorted.imp fun h => by omega
  have hsymm : Std.Symm fun x y : Nat × α => compar x.2 y.2 ≠ 0 :=
    { symm := fun x y h h' => by
        have hle := (hord.le_swap (a := y.2) (b := x.2)).mp (by omega)
        have hge := (hord.le_swap (a := x.2) (b := y.2)).mpr (by omega)
        omega }
  by_contra hxy
  exact hne.forall hx hy hxy heq

theorem rbfind_live {n : Nat} (hn : n ∈ t.live) :
    rbfind compar t (t.heap (.node n)).data = some (some (.node n)) := by
  obtain ⟨⟨n', x⟩, hmem, rfl⟩ := List.mem_map.mp (H.tree.live.mem_iff.mp hn)
  have hdata := H.tree.data hmem
  dsimp only at hdata
  have hrefl : compar x x = 0 := by
    have h := hord.swap x x
    omega
  rw [hdata]
  rcases H.rbfind_cases hord x with ⟨-, hm⟩ | ⟨y, hy, hfind, heq⟩
  · exact absurd hrefl (hm x (H.mem hmem))
  · rw [hfind, H.unique hord hmem hy heq]

theorem rbinsert_mem {data x : α} (hx : x ∈ m) (heq : compar data x = 0) (offer : Option Nat) :
    ∃ n, rbinsert compar t data offer = some { tree := t, ret := 1, existing := some (.node n) } ∧
      (t.heap (.node n)).data = x := by
  obtain ⟨n, hn⟩ := H.exists_node hx
  rcases H.descend_cases hord data with ⟨-, hm⟩ | ⟨c, l, r, y, hd, hy, hdy⟩
  · exact absurd heq (hm x hx)
  · have hle := (hord.le_swap (a := data) (b := x)).mp (by omega)
    have hge := (hord.le_swap (a := data) (b := y.2)).mp (by omega)
    have hxy := hord.trans x data y.2 hle (by omega)
    have hyx := hord.trans y.2 data x hge (by omega)
    have hxy' := hord.le_swap.mpr hyx
    have heq : (n, x) = y := H.unique hord hn hy (show compar x y.2 = 0 by omega)
    exact ⟨y.1, rbinsert_present H.tree hd offer, by rw [H.tree.data hy, ← heq]⟩

theorem rbstep_refines (op : RbOp α) : ∃ t' a T' m', rbstep compar t op = some (t', a) ∧
    MapStep compar t.live m op a m' ∧ IsMap compar null t' T' m' := by
  cases op with
  | insert data offer =>
    rcases H.descend_cases hord data with ⟨hd, hm⟩ | ⟨c, l, r, x, hd, hx, heq⟩
    · rcases rbinsert_absent H.tree (H.cut hord data) hd offer with
        ⟨hmalloc, hins⟩ | ⟨n, t', T', l, r, hins, H', hT, hT', hl, hr⟩
      · refine ⟨t, .inserted (-1) none, T, m, ?_, .noMemory hm hmalloc, H⟩
        rw [rbstep, hins]
        rfl
      · have hm : m = l.map Prod.snd ++ r.map Prod.snd := by rw [← H.data, hT, List.map_append]
        have hl' : ∀ x ∈ l.map Prod.snd, 0 < compar data x := List.forall_mem_map.mpr hl
        have hr' : ∀ x ∈ r.map Prod.snd, compar data x < 0 := List.forall_mem_map.mpr hr
        refine
          ⟨t', .inserted 0 none, T', l.map Prod.snd ++ data :: r.map Prod.snd, ?_, ?_, H', ?_, ?_⟩
        · rw [rbstep, hins]
          rfl
        · rw [hm]
          exact .inserted hl' hr'
        · rw [hT', List.map_append, List.map_cons]
        · have hsorted := H.sorted
          rw [hm, List.pairwise_append] at hsorted
          obtain ⟨hsl, hsr, hlr⟩ := hsorted
          refine List.pairwise_append.mpr ⟨hsl, List.pairwise_cons.mpr
            ⟨hr', hsr⟩, fun x hx y hy => ?_⟩
          rcases List.mem_cons.mp hy with rfl | hy
          · exact (hord.swap _ _).mp (hl' x hx)
          · exact hlr x hx y hy
    · refine ⟨t, .inserted 1 (some x.2), T, m, ?_, .present (H.mem hx) heq, H⟩
      rw [rbstep, rbinsert_present H.tree hd offer]
      simp only [Option.map_some, H.tree.data hx]
  | find key =>
    rcases H.rbfind_cases hord key with ⟨hfind, hm⟩ | ⟨x, hx, hfind, heq⟩
    · refine ⟨t, .found none, T, m, ?_, .notFound hm, H⟩
      rw [rbstep, hfind]
      rfl
    · refine ⟨t, .found (some x.2), T, m, ?_, .found (H.mem hx) heq, H⟩
      rw [rbstep, hfind]
      simp only [Option.map_some, H.tree.data hx]
  | delete key =>
    rcases H.rbfind_cases hord key with ⟨hfind, hm⟩ | ⟨x, hx, hfind, heq⟩
    · refine ⟨t, .deleted none, T, m, ?_, .notThere hm, H⟩
      rw [rbstep, hfind]
    · obtain ⟨t', T', xs, ys, hdel, H', hT, hT'⟩ := rbdelete_spec H.tree hx
      have hm : m = xs.map Prod.snd ++ x.2 :: ys.map Prod.snd := by
        rw [← H.data, hT, List.map_append, List.map_cons]
      refine ⟨t', .deleted (some x.2), T', xs.map Prod.snd ++ ys.map Prod.snd, ?_, ?_, H', ?_, ?_⟩
      · rw [rbstep, hfind]
        dsimp only
        rw [hdel]
        rfl
      · rw [hm]
        exact .deleted heq
      · rw [hT', List.map_append]
      · refine H.sorted.sublist ?_
        rw [hm]
        exact (List.sublist_cons_self _ _).append_left _

theorem rbrun_refines (ops : List (RbOp α)) : ∃ as t' T' m',
    RbRun compar t m ops as t' m' ∧ IsMap compar null t' T' m' := by
  induction ops generalizing t T m with
  | nil => exact ⟨[], t, T, m, .nil, H⟩
  | cons op ops ih =>
    obtain ⟨t1, a, T1, m1, hstep, hmap, H1⟩ := H.rbstep_refines hord op
    obtain ⟨as, t2, T2, m2, hrun, H2⟩ := ih H1
    exact ⟨a :: as, t2, T2, m2, .cons hstep hmap hrun, H2⟩

omit hord in
theorem rbapply_inorder {σ : Type v} (func : α → σ → Int × σ) (cookie : σ) :
    rbapply t func cookie .inorder = some (applyAll func m cookie) := by
  rw [rbapply, H.tree.first, rbapplyNode_visited func .inorder H.tree.stores ?_, visited_inorder,
    H.data]
  rw [← H.tree.length_live, Rbtree.fuel]
  omega

end IsMap

/-- Every sequence of operations on a tree is one on a finite map: it ends with the answers of the
map, in a red-black tree of the elements in ascending order. -/
theorem rbtree_refines_map (hord : TotalOrder compar) (null : α) (ops : List (RbOp α)) :
    ∃ as t T m, RbRun compar (rbcreate null) [] ops as t m ∧
      Holds null t.heap T [] ∧ T.Valid ∧ T.inorder.map Prod.snd = m ∧
      m.Pairwise (fun x y => compar x y < 0) ∧
      (∀ data offer, ∀ x ∈ m, compar data x = 0 → ∃ n,
        rbinsert compar t data offer = some { tree := t, ret := 1, existing := some (.node n) } ∧
        (t.heap (.node n)).data = x) ∧
      (∀ n, n ∈ t.live ↔ n ∈ addrs T) ∧
      (∀ n ∈ t.live, rbfind compar t (t.heap (.node n)).data = some (some (.node n))) ∧
      ∀ {σ : Type v} (func : α → σ → Int × σ) (cookie : σ),
        rbapply t func cookie .inorder = some (applyAll func m cookie) := by
  obtain ⟨as, t, T, m, hrun, H⟩ := (rbcreate_isMap compar null).rbrun_refines hord ops
  exact ⟨as, t, T, m, hrun, H.tree.holds, H.tree.valid, H.data, H.sorted,
    fun data offer x hx heq => H.rbinsert_mem hord hx heq offer,
    fun n => H.tree.live.mem_iff, fun n hn => H.rbfind_live hord hn,
    fun func cookie => H.rbapply_inorder func cookie⟩

theorem totalOrder_sub : TotalOrder fun a b : Int => a - b :=
  { swap := fun a b => by omega
    trans := fun a b c hab hbc => by omega }

theorem rbtree_refines_map_sub : ∃ as t T m,
    RbRun (fun a b : Int => a - b) (rbcreate 0) []
      [.insert 2 (some 0), .insert 1 (some 1), .insert 3 (some 2), .insert 2 (some 3), .find 3,
        .delete 2] as t m ∧
      Holds 0 t.heap T [] ∧ T.Valid ∧ T.inorder.map Prod.snd = m ∧
      m.Pairwise (fun x y => x - y < 0) := by
  obtain ⟨as, t, T, m, hrun, H, hvalid, hdata, hsorted, -⟩ :=
    rbtree_refines_map.{0, 0} totalOrder_sub 0
      [.insert 2 (some 0), .insert 1 (some 1), .insert 3 (some 2), .insert 2 (some 3), .find 3,
        .delete 2]
  exact ⟨as, t, T, m, hrun, H, hvalid, hdata, hsorted⟩

end NextBSD.Sudoers
