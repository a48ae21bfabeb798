import Mathlib.Data.List.Chain
import Mathlib.Data.List.Induction
import Mathlib.Data.List.Nodup
import Mathlib.Data.Set.Insert
import Mathlib.Logic.Relation

/-!
# Finish orders and cycles of a directed graph

A finish order lists nodes so that every successor of a node comes later in the
list: the order in which a depth-first search without a back edge finishes, latest
first.  Any set of its nodes has a member that no member points to, and a finish
order of the opposite graph, read backwards, is a topological order.
-/

namespace NextBSD.Digraph

universe u

variable {α : Type u} {E : α → α → Prop}

inductive FinishOrder (E : α → α → Prop) : List α → Prop
  | nil : FinishOrder E []
  | cons {v : α} {l : List α} (fresh : v ∉ l) (successors : ∀ w, E v w → w ∈ l)
      (rest : FinishOrder E l) : FinishOrder E (v :: l)

theorem FinishOrder.successor_mem {l : List α} (h : FinishOrder E l) {v w : α} (hv : v ∈ l)
    (hvw : E v w) : w ∈ l := by
  induction h with
  | nil => cases hv
  | cons _ successors _ ih =>
    rcases List.mem_cons.mp hv with hv | hv
    · subst hv
      exact List.mem_cons_of_mem _ (successors w hvw)
    · exact List.mem_cons_of_mem _ (ih hv)

theorem FinishOrder.exists_source {l : List α} (h : FinishOrder E l) {s : List α} (hne : s ≠ [])
    (hs : ∀ v ∈ s, v ∈ l) : ∃ v ∈ s, ∀ u ∈ s, ¬ E u v := by
  induction h with
  | nil =>
    cases s with
    | nil => exact absurd rfl hne
    | cons v s => cases hs v List.mem_cons_self
  | @cons v l fresh successors rest ih =>
    by_cases hv : v ∈ s
    · refine ⟨v, hv, fun u hu huv => ?_⟩
      rcases List.mem_cons.mp (hs u hu) with hul | hul
      · subst hul
        exact fresh (successors u huv)
      · exact fresh (rest.successor_mem hul huv)
    · refine ih fun u hu => ?_
      rcases List.mem_cons.mp (hs u hu) with hul | hul
      · exact absurd (hul ▸ hu) hv
      · exact hul

theorem FinishOrder.idxOf_reverse_lt [DecidableEq α] {l : List α}
    (h : FinishOrder (fun v w => E w v) l.reverse) {v w : α} (hw : w ∈ l) (hvw : E v w) :
    l.idxOf v < l.idxOf w := by
  induction l using List.reverseRecOn with
  | nil => cases hw
  | append_singleton l x ih =>
    rw [List.reverse_append, List.reverse_singleton, List.singleton_append] at h
    cases h with
    | cons fresh successors rest =>
      have hvl : v ∈ l := by
        rw [← List.mem_reverse]
        rcases List.mem_append.mp hw with hwl | hwx
        · exact rest.successor_mem (List.mem_reverse.mpr hwl) hvw
        · exact successors v (List.mem_singleton.mp hwx ▸ hvw)
      rw [List.idxOf_append_of_mem hvl]
      by_cases hwl : w ∈ l
      · rw [List.idxOf_append_of_mem hwl]
        exact ih rest hwl
      · rw [List.idxOf_append_of_notMem hwl]
        exact Nat.lt_add_right _ (List.idxOf_lt_length_of_mem hvl)

def closedWalk (l : List α) : List α := l.getLast?.toList ++ l ++ l.head?.toList

structure IsCycle (E : α → α → Prop) (l : List α) : Prop where
  nonempty : l ≠ []
  nodup : l.Nodup
  edges : (closedWalk l).IsChain E

theorem closedWalk_reverse (l : List α) : closedWalk l.reverse = (closedWalk l).reverse := by
  rw [closedWalk, closedWalk, List.getLast?_reverse, List.head?_reverse]
  cases l.getLast? <;> cases l.head? <;> simp

theorem IsCycle.reverse {l : List α} (h : IsCycle (fun v w => E w v) l) : IsCycle E l.reverse where
  nonempty := by
    intro hnil
    exact h.nonempty (List.reverse_eq_nil_iff.mp hnil)
  nodup := List.nodup_reverse.mpr h.nodup
  edges := by
    rw [closedWalk_reverse]
    exact List.isChain_reverse.mpr h.edges

end NextBSD.Digraph
