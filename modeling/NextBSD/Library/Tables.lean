import Mathlib.Data.List.Basic
import Mathlib.Data.List.Nodup

/-!
# Search trees under any comparison

A search goes down a binary tree by the sign of a comparison with what it looks for.  It ends at a
node that compares equal or at an empty place, and there a new node can be put.  The comparison
need not be an order: a node that is put into the tree is in it.
-/

namespace NextBSD

universe u

inductive KeyTree (α : Type u) where
  | nil
  | node (left right : KeyTree α) (a : α)
  deriving Repr, DecidableEq

namespace KeyTree

variable {α : Type u}

def nodes : KeyTree α → List α
  | nil => []
  | node left right a => a :: (left.nodes ++ right.nodes)

variable (cmp : α → Int)

def find : KeyTree α → Option α
  | nil => none
  | node left right a =>
    if cmp a = 0 then some a else if cmp a < 0 then left.find else right.find

def insert (new : α) : KeyTree α → KeyTree α
  | nil => node nil nil new
  | node left right a =>
    if cmp a = 0 then node left right a
    else if cmp a < 0 then node (left.insert new) right a
    else node left (right.insert new) a

variable {cmp} {t : KeyTree α} {a new : α}

theorem find_mem (h : t.find cmp = some a) : a ∈ t.nodes ∧ cmp a = 0 := by
  induction t with
  | nil => exact absurd h.symm (Option.some_ne_none a)
  | node left right b ihl ihr =>
    unfold find at h
    by_cases h0 : cmp b = 0
    · rw [if_pos h0] at h
      cases h
      exact ⟨List.mem_cons_self, h0⟩
    · rw [if_neg h0] at h
      by_cases hneg : cmp b < 0
      · rw [if_pos hneg] at h
        exact ⟨List.mem_cons_of_mem _ (List.mem_append_left _ (ihl h).1), (ihl h).2⟩
      · rw [if_neg hneg] at h
        exact ⟨List.mem_cons_of_mem _ (List.mem_append_right _ (ihr h).1), (ihr h).2⟩

theorem mem_insert (h : t.find cmp = none) :
    a ∈ (t.insert cmp new).nodes ↔ a = new ∨ a ∈ t.nodes := by
  induction t with
  | nil => exact List.mem_cons
  | node left right b ihl ihr =>
    unfold find at h
    unfold insert
    by_cases h0 : cmp b = 0
    · rw [if_pos h0] at h
      exact absurd h (Option.some_ne_none b)
    · rw [if_neg h0] at h
      rw [if_neg h0]
      by_cases hneg : cmp b < 0
      · rw [if_pos hneg] at h
        rw [if_pos hneg]
        simp only [nodes, List.mem_cons, List.mem_append, ihl h, or_assoc, or_left_comm]
      · rw [if_neg hneg] at h
        rw [if_neg hneg]
        simp only [nodes, List.mem_cons, List.mem_append, ihr h, or_left_comm]

end KeyTree
end NextBSD

/-!
## Tables as lists of pairs

A lookup finds an entry of the list, and with distinct keys it finds every entry.
Updates keep the entries in their order; a new key goes to the end.
-/

namespace NextBSD.Assoc

universe u v

variable {α : Type u} {β : Type v} [BEq α]

def upsert (l : List (α × β)) (a : α) (new : β) (f : β → β) : List (α × β) :=
  match l.lookup a with
  | some _ => l.map fun e => (e.1, if e.1 == a then f e.2 else e.2)
  | none => l ++ [(a, new)]

def add (l : List (α × β)) (a : α) (new : β) : List (α × β) :=
  match l.lookup a with
  | some _ => l
  | none => l ++ [(a, new)]

variable [LawfulBEq α]

theorem mem_of_lookup {l : List (α × β)} {a : α} {b : β} (h : l.lookup a = some b) :
    (a, b) ∈ l := by
  obtain ⟨l₁, l₂, hl, -⟩ := List.lookup_eq_some_iff.mp h
  rw [hl]
  exact List.mem_append_right _ List.mem_cons_self

theorem lookup_of_mem {l : List (α × β)} (hnodup : (l.map Prod.fst).Nodup) {a : α} {b : β}
    (h : (a, b) ∈ l) : l.lookup a = some b := by
  obtain ⟨l₁, l₂, hl⟩ := List.append_of_mem h
  refine List.lookup_eq_some_iff.mpr ⟨l₁, l₂, hl, fun p hp => ?_⟩
  have hne : a ≠ p.1 := by
    intro he
    rw [hl, List.map_append, List.map_cons, List.nodup_append] at hnodup
    exact hnodup.2.2 p.1 (List.mem_map_of_mem hp) a List.mem_cons_self he.symm
  exact bne_iff_ne.mpr hne

theorem lookup_map (g : α → β → β) (l : List (α × β)) (a : α) :
    (l.map fun e => (e.1, g e.1 e.2)).lookup a = (l.lookup a).map (g a) := by
  induction l with
  | nil => rfl
  | cons e l ih =>
    rw [List.map_cons, List.lookup_cons, List.lookup_cons, ih]
    by_cases h : a = e.1
    · rw [← h, beq_self_eq_true]
      rfl
    · rw [beq_false_of_ne h]

omit [LawfulBEq α] in
theorem lookup_concat (l : List (α × β)) (a : α) (new : β) (b : α) :
    (l ++ [(a, new)]).lookup b = (l.lookup b).or (if b == a then some new else none) := by
  rw [List.lookup_append, List.lookup_cons, List.lookup_nil]
  cases b == a <;> rfl

theorem lookup_upsert [DecidableEq α] (l : List (α × β)) (a : α) (new : β) (f : β → β) (b : α) :
    (upsert l a new f).lookup b = if b = a then some ((l.lookup a).elim new f) else l.lookup b := by
  rw [upsert]
  cases h : l.lookup a with
  | some c =>
    have hmap := lookup_map (fun k v => if k == a then f v else v) l b
    rw [hmap]
    by_cases hb : b = a
    · rw [if_pos hb, hb, h, Option.map_some, beq_self_eq_true]
      rfl
    · rw [if_neg hb, beq_false_of_ne hb]
      simp
  | none =>
    simp only [lookup_concat]
    by_cases hb : b = a
    · rw [if_pos hb, hb, h, beq_self_eq_true]
      rfl
    · rw [if_neg hb, beq_false_of_ne hb]
      simp

end NextBSD.Assoc
