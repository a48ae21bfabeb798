import NextBSD.Sudoers.RedblackMap

/-!
# redblack.c: how long a search is and how a tree ends

A search looks at no more nodes than twice a logarithm of their number, and `rbdestroy` frees every
node once and reads none that it has freed.
-/

namespace NextBSD
namespace RedBlack.CTree

universe u

variable {β : Type u} {t : CTree β} {n : Nat}

def depth : CTree β → Nat
  | leaf => 0
  | node _ l _ r => max (depth l) (depth r) + 1

theorem Balanced.depth_le (h : t.Balanced n) :
    t.depth ≤ 2 * n + 1 ∧ (t.color = .black → t.depth ≤ 2 * n) := by
  induction t generalizing n with
  | leaf => simp [depth]
  | node c l x r ihl ihr =>
    rw [depth]
    cases c with
    | red =>
      obtain ⟨hl, hr, hcl, hcr⟩ := h
      have hdl := (ihl hl).2 hcl
      have hdr := (ihr hr).2 hcr
      exact ⟨by omega, fun hc => Color.noConfusion hc⟩
    | black =>
      obtain ⟨m, rfl, hl, hr⟩ := h
      have hdl := (ihl hl).1
      have hdr := (ihr hr).1
      exact ⟨by omega, fun _ => by omega⟩

theorem Balanced.pow_le (h : t.Balanced n) : 2 ^ n ≤ t.inorder.length + 1 := by
  induction t generalizing n with
  | leaf =>
    obtain rfl : n = 0 := h
    exact Nat.le_refl 1
  | node c l x r ihl ihr =>
    rw [inorder, List.length_append, List.length_cons]
    cases c with
    | red =>
      have hl := ihl h.1
      omega
    | black =>
      obtain ⟨m, rfl, hl, hr⟩ := h
      have hpl := ihl hl
      have hpr := ihr hr
      rw [Nat.pow_succ]
      omega

theorem Valid.depth_le (h : t.Valid) : t.depth ≤ 2 * Nat.log2 (t.inorder.length + 1) := by
  obtain ⟨hblack, n, hn⟩ := h
  have hdepth := hn.depth_le.2 hblack
  have hlog := (Nat.le_log2 (by omega)).mpr hn.pow_le
  omega

end RedBlack.CTree

namespace Sudoers

open RedBlack (CTree)

universe u v

variable {α : Type u} {h : RbHeap α} {parent : RbPtr} {t : CTree (Nat × α)} {fuel : Nat}

section

variable {compar : α → α → Int}

theorem rbfindLoop_stable (hs : Stores h parent t) (key : α) {fuel' : Nat} (hfuel : t.depth < fuel)
    (hfuel' : t.depth < fuel') :
    rbfindLoop compar h key fuel (ptr t) = rbfindLoop compar h key fuel' (ptr t) := by
  induction t generalizing fuel fuel' parent with
  | leaf =>
    obtain ⟨k, rfl⟩ := Nat.exists_eq_succ_of_ne_zero (by omega : fuel ≠ 0)
    obtain ⟨k', rfl⟩ := Nat.exists_eq_succ_of_ne_zero (by omega : fuel' ≠ 0)
    rfl
  | node c l x r ihl ihr =>
    rw [CTree.depth] at hfuel hfuel'
    obtain ⟨k, rfl⟩ := Nat.exists_eq_succ_of_ne_zero (by omega : fuel ≠ 0)
    obtain ⟨k', rfl⟩ := Nat.exists_eq_succ_of_ne_zero (by omega : fuel' ≠ 0)
    have hl := @ihl (.node x.1) k hs.2.1 k' (by omega) (by omega)
    have hr := @ihr (.node x.1) k hs.2.2 k' (by omega) (by omega)
    have hptr : ptr (CTree.node c l x r) = .node x.1 := rfl
    have hx : h (.node x.1) = _ := hs.1
    rw [hptr, rbfindLoop, rbfindLoop, hx]
    dsimp only
    by_cases hres : compar key x.2 < 0
    · rw [if_pos hres, hl]
    · rw [if_neg hres, hr]

/-- After any operations on a new tree, a search ends within twice the logarithm of the number of
elements, and one round more. -/
theorem rbfind_logarithmic (hord : TotalOrder compar) (null : α) (ops : List (RbOp α)) :
    ∃ as t m, RbRun compar (rbcreate null) [] ops as t m ∧ ∀ key,
      rbfindLoop compar t.heap key (2 * Nat.log2 (m.length + 1) + 1) (rbfirst t.heap) =
        rbfind compar t key := by
  obtain ⟨as, t, T, m, hrun, H⟩ := (rbcreate_isMap compar null).rbrun_refines hord ops
  refine ⟨as, t, m, hrun, fun key => ?_⟩
  have hdepth := H.tree.valid.depth_le
  have hlog : Nat.log2 (T.inorder.length + 1) < T.inorder.length + 1 :=
    (Nat.log2_lt (by omega)).mpr Nat.lt_two_pow_self
  have hlength : m.length = T.inorder.length := by rw [← H.data, List.length_map]
  have hlive := H.tree.length_live
  rw [rbfind, H.tree.first, hlength]
  refine rbfindLoop_stable H.tree.stores key (by omega) ?_
  rw [Rbtree.fuel]
  omega

theorem rbfind_logarithmic_sub : ∃ as t m,
    RbRun (fun a b : Int => a - b) (rbcreate 0) [] [.insert 2 (some 0), .insert 1 (some 1)] as t m ∧
      ∀ key, rbfindLoop (fun a b : Int => a - b) t.heap key (2 * Nat.log2 (m.length + 1) + 1)
        (rbfirst t.heap) = rbfind (fun a b : Int => a - b) t key :=
  rbfind_logarithmic totalOrder_sub 0 [.insert 2 (some 0), .insert 1 (some 1)]

end

section

variable {σ : Type v}

def callDestroy (destroy : Option (α → σ → σ)) (s : σ) (data : α) : σ :=
  destroy.elim s fun destroy => destroy data s

/-- `rbdestroy_int`, with the nodes that are allocated; `none` where it reads or frees another. -/
def rbdestroyInt (h : RbHeap α) (destroy : Option (α → σ → σ)) :
    Nat → RbPtr → List Nat × σ → Option (List Nat × σ)
  | 0, _, _ => none
  | fuel + 1, node, s =>
    match node with
    | .nil => some s
    | .root => none
    | .node n =>
      if n ∉ s.1 then none
      else
        (rbdestroyInt h destroy fuel (h (.node n)).left s).bind fun s =>
          if n ∉ s.1 then none
          else
            (rbdestroyInt h destroy fuel (h (.node n)).right s).bind fun s =>
              if n ∉ s.1 then none
              else some (s.1.erase n, callDestroy destroy s.2 (h (.node n)).data)

def rbdestroy (t : Rbtree α) (destroy : Option (α → σ → σ)) (s : σ) : Option (List Nat × σ) :=
  rbdestroyInt t.heap destroy t.fuel (rbfirst t.heap) (t.live, s)

theorem visited_postorder_perm (t : CTree (Nat × α)) :
    (visited .postorder t).Perm (t.inorder.map Prod.snd) := by
  induction t with
  | leaf => exact List.Perm.refl _
  | node c l x r ihl ihr =>
    have hnode : visited .postorder (CTree.node c l x r) =
        visited .postorder l ++ (visited .postorder r ++ [x.2]) := by simp [visited]
    rw [hnode, CTree.inorder, List.map_append, List.map_cons]
    exact ihl.append ((List.perm_append_singleton _ _).trans (ihr.cons _))

/-- The nodes of a subtree are freed, those elsewhere stay. -/
theorem rbdestroyInt_postorder (hs : Stores h parent t) (hfuel : t.inorder.length < fuel)
    {live others : List Nat} (hlive : live.Perm (addrs t ++ others))
    (destroy : Option (α → σ → σ)) (s : σ) :
    ∃ live', rbdestroyInt h destroy fuel (ptr t) (live, s) =
      some (live', (visited .postorder t).foldl (callDestroy destroy) s) ∧ live'.Perm others := by
  induction t generalizing fuel parent live others s with
  | leaf =>
    obtain ⟨k, rfl⟩ := Nat.exists_eq_succ_of_ne_zero (by omega : fuel ≠ 0)
    exact ⟨live, rfl, hlive⟩
  | node c l x r ihl ihr =>
    obtain ⟨k, rfl⟩ := Nat.exists_eq_succ_of_ne_zero (by omega : fuel ≠ 0)
    rw [CTree.inorder, List.length_append, List.length_cons] at hfuel
    have haddrs : addrs (CTree.node c l x r) ++ others =
        addrs l ++ (x.1 :: (addrs r ++ others)) := by
      simp [addrs, CTree.inorder]
    have hnode : visited .postorder (CTree.node c l x r) =
        visited .postorder l ++ (visited .postorder r ++ [x.2]) := by simp [visited]
    rw [haddrs] at hlive
    obtain ⟨live1, hleft, hperm1⟩ := @ihl (.node x.1) k hs.2.1 (by omega) live _ hlive s
    have hperm1' := hperm1.trans List.perm_middle.symm
    obtain ⟨live2, hright, hperm2⟩ := @ihr (.node x.1) k hs.2.2 (by omega) live1 (x.1 :: others)
      hperm1' ((visited .postorder l).foldl (callDestroy destroy) s)
    have hmem : x.1 ∈ live := hlive.mem_iff.mpr (by simp)
    have hmem1 : x.1 ∈ live1 := hperm1.mem_iff.mpr List.mem_cons_self
    have hmem2 : x.1 ∈ live2 := hperm2.mem_iff.mpr List.mem_cons_self
    have hptr : ptr (CTree.node c l x r) = .node x.1 := rfl
    have hx : h (.node x.1) = _ := hs.1
    refine ⟨live2.erase x.1, ?_, ?_⟩
    · rw [hptr, rbdestroyInt, hx, hnode, List.foldl_append, List.foldl_append]
      simp only [hmem, hmem1, hmem2, not_true_eq_false, if_false, hleft, hright, Option.bind_some]
      rfl
    · have herase := hperm2.erase x.1
      rwa [List.erase_cons_head] at herase

/-- After any operations on a new tree, `rbdestroy` reads only nodes that are allocated, frees each
of them once, and calls `destroy` once for each element. -/
theorem rbdestroy_releases {compar : α → α → Int} (hord : TotalOrder compar) (null : α)
    (ops : List (RbOp α)) : ∃ as t m, RbRun compar (rbcreate null) [] ops as t m ∧
      ∀ (destroy : Option (α → σ → σ)) (s : σ), ∃ order : List α, order.Perm m ∧
        rbdestroy t destroy s = some ([], order.foldl (callDestroy destroy) s) := by
  obtain ⟨as, t, T, m, hrun, H⟩ := (rbcreate_isMap compar null).rbrun_refines hord ops
  refine ⟨as, t, m, hrun, fun destroy s => ⟨visited .postorder T, ?_, ?_⟩⟩
  · rw [← H.data]
    exact visited_postorder_perm T
  · have hlive : t.live.Perm (addrs T ++ []) := by
      rw [List.append_nil]
      exact H.tree.live
    have hlength := H.tree.length_live
    obtain ⟨live', hdestroy, hperm⟩ := rbdestroyInt_postorder H.tree.stores
      (show T.inorder.length < t.fuel by rw [Rbtree.fuel]; omega) hlive destroy s
    rw [rbdestroy, H.tree.first, hdestroy, hperm.eq_nil]

theorem rbdestroy_releases_sub : ∃ as t m,
    RbRun (fun a b : Int => a - b) (rbcreate 0) []
      [.insert 2 (some 0), .insert 1 (some 1), .delete 2] as t m ∧
      ∀ (destroy : Option (Int → List Int → List Int)) (s : List Int), ∃ order : List Int,
        order.Perm m ∧ rbdestroy t destroy s = some ([], order.foldl (callDestroy destroy) s) :=
  rbdestroy_releases totalOrder_sub 0 [.insert 2 (some 0), .insert 1 (some 1), .delete 2]

end

end Sudoers
end NextBSD
