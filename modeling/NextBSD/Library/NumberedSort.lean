import Mathlib.Data.List.Nodup
import Mathlib.Data.List.Perm.Basic

/-!
# Numbers of what is kept

A sort that keeps a record of its comparisons, and numbers given to the elements of a list that are
kept.  A reader who counts all elements finds each of them at its number just if the kept elements
come first.
-/

namespace NextBSD.NumberedSort

universe u

variable {α : Type u}

structure Outcome (α : Type u) where
  sorted : List α
  compared : List (α × α)

/-- An outcome of a sort by comparisons: the elements are in order, no element is compared with
itself, and of two that compare equal neither is placed without having met an equal one. -/
structure Sorts (cmp : α → α → Int) (items : List α) (o : Outcome α) : Prop where
  perm : o.sorted.Perm items
  ordered : o.sorted.Pairwise (fun a b => cmp a b ≤ 0)
  compared_mem : ∀ a b, (a, b) ∈ o.compared → a ∈ items ∧ b ∈ items ∧ a ≠ b
  meets : ∀ a ∈ items, ∀ b ∈ items, a ≠ b → cmp a b = 0 →
    ∃ c, cmp a c = 0 ∧ ((a, c) ∈ o.compared ∨ (c, a) ∈ o.compared)

def neighbours : List α → List (α × α)
  | a :: b :: l => (a, b) :: neighbours (b :: l)
  | _ => []

variable {cmp : α → α → Int} {l : List α}

theorem mem_neighbours_iff {a b : α} : (a, b) ∈ neighbours l ↔ ∃ l₁ l₂, l = l₁ ++ a :: b :: l₂ := by
  induction l with
  | nil => simp [neighbours]
  | cons x l ih =>
    cases l with
    | nil =>
      constructor
      · intro h
        exact absurd h List.not_mem_nil
      · rintro ⟨l₁, l₂, h⟩
        have hlength := congrArg List.length h
        simp only [List.length_append, List.length_cons, List.length_nil] at hlength
        omega
    | cons y l =>
      rw [neighbours, List.mem_cons, ih]
      constructor
      · rintro (h | ⟨l₁, l₂, h⟩)
        · obtain ⟨rfl, rfl⟩ := Prod.mk.inj h
          exact ⟨[], l, rfl⟩
        · exact ⟨x :: l₁, l₂, congrArg (x :: ·) h⟩
      · rintro ⟨l₁, l₂, h⟩
        cases l₁ with
        | nil =>
          obtain ⟨hx, htail⟩ := List.cons.inj h
          obtain ⟨hy, -⟩ := List.cons.inj htail
          exact Or.inl (Prod.ext hx.symm hy.symm)
        | cons z l₁ => exact Or.inr ⟨l₁, l₂, (List.cons.inj h).2⟩

theorem sorts_neighbours {items : List α} (hnodup : items.Nodup) (hperm : l.Perm items)
    (hordered : l.Pairwise (fun a b => cmp a b ≤ 0)) (hswap : ∀ a b, cmp b a = -cmp a b)
    (htrans : ∀ a b c, cmp a b ≤ 0 → cmp b c ≤ 0 → cmp a c ≤ 0) :
    Sorts cmp items { sorted := l, compared := neighbours l } := by
  have hl := hperm.nodup_iff.mpr hnodup
  -- Between two equal elements all are equal, the neighbours among them.
  have hnext : ∀ a l₁ l₂ b, l = l₁ ++ a :: l₂ → b ∈ l₂ → cmp a b = 0 →
      ∃ c l₃, l₂ = c :: l₃ ∧ cmp a c = 0 := by
    intro a l₁ l₂ b heq hb hab
    have hpair := hordered
    rw [heq, List.pairwise_append] at hpair
    have hrest := List.pairwise_cons.mp hpair.2.1
    cases l₂ with
    | nil => exact absurd hb List.not_mem_nil
    | cons c l₃ =>
      refine ⟨c, l₃, rfl, ?_⟩
      have hac := hrest.1 c List.mem_cons_self
      rcases List.mem_cons.mp hb with rfl | hb
      · exact hab
      · have hcb := (List.pairwise_cons.mp hrest.2).1 b hb
        have hba := hswap a b
        have hca := htrans c b a hcb (by omega)
        have hswapped := hswap a c
        omega
  constructor
  · exact hperm
  · exact hordered
  · intro a b hab
    obtain ⟨l₁, l₂, heq⟩ := mem_neighbours_iff.mp hab
    have hmem : a ∈ l ∧ b ∈ l := by
      rw [heq]
      simp
    refine ⟨hperm.mem_iff.mp hmem.1, hperm.mem_iff.mp hmem.2, ?_⟩
    rintro rfl
    rw [heq] at hl
    have htail := (List.nodup_append.mp hl).2.1
    exact (List.nodup_cons.mp htail).1 List.mem_cons_self
  · intro a ha b hb hne hab
    obtain ⟨l₁, l₂, heq⟩ := List.append_of_mem (hperm.mem_iff.mpr ha)
    have hbl : b ∈ l := hperm.mem_iff.mpr hb
    rw [heq, List.mem_append, List.mem_cons] at hbl
    rcases hbl with hbl | hbl | hbl
    · -- The element before is an equal one as well.
      obtain ⟨l₃, l₄, hsplit⟩ := List.append_of_mem hbl
      have hpair := hordered
      rw [heq, hsplit, List.append_assoc, List.cons_append] at hpair
      have hrest := List.pairwise_cons.mp (List.pairwise_append.mp hpair).2.1
      rcases List.eq_nil_or_concat l₄ with hnil | ⟨l₅, c, hconcat⟩
      · refine ⟨b, hab, Or.inr (mem_neighbours_iff.mpr ⟨l₃, l₂, ?_⟩)⟩
        rw [heq, hsplit, hnil, List.append_assoc]
        rfl
      · refine ⟨c, ?_, Or.inr (mem_neighbours_iff.mpr ⟨l₃ ++ b :: l₅, l₂, ?_⟩)⟩
        · have hbc := hrest.1 c (by rw [hconcat]; simp)
          have hca : cmp c a ≤ 0 := by
            have hlater := (List.pairwise_append.mp hrest.2).2.2
            exact hlater c (by rw [hconcat]; simp) a List.mem_cons_self
          have hac := htrans a b c (by omega) hbc
          have hswapped := hswap a c
          omega
        · rw [heq, hsplit, hconcat]
          simp
    · exact absurd hbl.symm hne
    · obtain ⟨c, l₃, hl₂, hac⟩ := hnext a l₁ l₂ b heq hbl hab
      exact ⟨c, hac, Or.inl (mem_neighbours_iff.mpr ⟨l₁, l₃, by rw [heq, hl₂]⟩)⟩

@[grind =]
def numbered (kept : α → Bool) : Nat → List α → List (α × Nat)
  | _, [] => []
  | n, a :: l => if kept a then (a, n) :: numbered kept (n + 1) l else numbered kept n l

def KeptFirst (kept : α → Bool) (l : List α) : Prop :=
  l.Pairwise (fun a b => kept b = true → kept a = true)

variable {kept : α → Bool} {n : Nat}

theorem le_of_mem_numbered {e : α × Nat} (h : e ∈ numbered kept n l) : n ≤ e.2 := by
  induction l generalizing n with
  | nil => exact absurd h List.not_mem_nil
  | cons a l ih =>
    rw [numbered] at h
    by_cases ha : kept a = true
    · rw [if_pos ha] at h
      rcases List.mem_cons.mp h with rfl | h
      · exact Nat.le_refl _
      · have hle := ih h
        omega
    · rw [if_neg ha] at h
      exact ih h

theorem mem_of_mem_numbered {e : α × Nat} (h : e ∈ numbered kept n l) : e.1 ∈ l := by
  induction l generalizing n with
  | nil => exact absurd h List.not_mem_nil
  | cons a l ih =>
    rw [numbered] at h
    by_cases ha : kept a = true
    · rw [if_pos ha] at h
      rcases List.mem_cons.mp h with rfl | h
      · exact List.mem_cons_self
      · exact List.mem_cons_of_mem _ (ih h)
    · rw [if_neg ha] at h
      exact List.mem_cons_of_mem _ (ih h)

theorem numbered_first (kept : α → Bool) (n : Nat) (l : List α) :
    (∀ a ∈ l, kept a = false) ∨ ∃ a rest, numbered kept n l = (a, n) :: rest ∧ kept a = true := by
  induction l with
  | nil => exact Or.inl (fun a ha => absurd ha List.not_mem_nil)
  | cons a l ih =>
    rw [numbered]
    by_cases ha : kept a = true
    · rw [if_pos ha]
      exact Or.inr ⟨a, _, rfl, ha⟩
    · rw [if_neg ha]
      rcases ih with hnone | hfirst
      · exact Or.inl (List.forall_mem_cons.mpr ⟨by simpa using ha, hnone⟩)
      · exact Or.inr hfirst

theorem numbered_of_none (h : ∀ a ∈ l, kept a = false) : numbered kept n l = [] := by
  induction l with
  | nil => rfl
  | cons a l ih =>
    rw [List.forall_mem_cons] at h
    rw [numbered, h.1]
    exact ih h.2

theorem numbered_eq_zipIdx (h : KeptFirst kept l) :
    numbered kept n l = (l.zipIdx n).filter (fun e => kept e.1) := by
  induction l generalizing n with
  | nil => rfl
  | cons a l ih =>
    obtain ⟨hfirst, hrest⟩ := List.pairwise_cons.mp h
    rw [numbered, List.zipIdx_cons]
    by_cases ha : kept a = true
    · rw [if_pos ha, List.filter_cons, if_pos ha, ih hrest]
    · rw [if_neg ha, List.filter_cons, if_neg ha, ← ih hrest]
      have hnone : ∀ b ∈ l, kept b = false := by
        intro b hb
        by_contra hkept
        exact ha (hfirst b hb (by simpa using hkept))
      rw [numbered_of_none hnone, numbered_of_none hnone]

theorem keptFirst_of_numbered (h : ∀ e ∈ numbered kept n l, l[e.2 - n]? = some e.1) :
    KeptFirst kept l := by
  induction l generalizing n with
  | nil => exact List.Pairwise.nil
  | cons a l ih =>
    rw [numbered] at h
    by_cases ha : kept a = true
    · rw [if_pos ha] at h
      refine List.pairwise_cons.mpr ⟨fun b _ _ => ha, @ih (n + 1) ?_⟩
      intro e he
      have hle := le_of_mem_numbered he
      have hplace := h e (List.mem_cons_of_mem _ he)
      have hsub : e.2 - n = (e.2 - (n + 1)) + 1 := by omega
      rw [hsub, List.getElem?_cons_succ] at hplace
      exact hplace
    · rw [if_neg ha] at h
      rcases numbered_first kept n l with hnone | ⟨b, rest, heq, hb⟩
      · have hnever : ∀ b ∈ a :: l, kept b = false :=
          List.forall_mem_cons.mpr ⟨by simpa using ha, hnone⟩
        refine List.Pairwise.imp_of_mem ?_ (List.pairwise_of_forall (R := fun _ _ => True)
          (fun _ _ => trivial))
        intro x y _ hy _ hkept
        rw [hnever y hy] at hkept
        exact absurd hkept Bool.false_ne_true
      · -- The number of the first kept element is the place of the one before it.
        have hplace := h (b, n) (by rw [heq]; exact List.mem_cons_self)
        rw [Nat.sub_self, List.getElem?_cons_zero] at hplace
        rw [Option.some.inj hplace] at ha
        exact absurd hb ha

end NextBSD.NumberedSort
