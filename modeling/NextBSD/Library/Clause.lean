import Mathlib.Data.List.Pairwise
import Mathlib.Logic.Function.Basic

/-!
# Clauses over Boolean variables

A clause is a list of literals and holds when one of them does.  The shapes a
dependency problem is made of are an implication from one variable to a choice,
the exclusion of a pair, a choice, and the exclusion of every pair of a list.
-/

namespace NextBSD.Clause

universe u

structure Literal (α : Type u) where
  var : α
  positive : Bool
  deriving DecidableEq, Repr

variable {α : Type u}

def Literal.Holds (σ : α → Bool) (l : Literal α) : Prop := σ l.var = l.positive

def Holds (σ : α → Bool) (c : List (Literal α)) : Prop := ∃ l ∈ c, l.Holds σ

instance (σ : α → Bool) (c : List (Literal α)) : Decidable (Holds σ c) :=
  inferInstanceAs (Decidable (∃ l ∈ c, σ l.var = l.positive))

def pos (a : α) : Literal α := { var := a, positive := true }

def neg (a : α) : Literal α := { var := a, positive := false }

def choice (bs : List α) : List (Literal α) := bs.map pos

def implies (a : α) (bs : List α) : List (Literal α) := neg a :: bs.map pos

def excludes (a b : α) : List (Literal α) := [neg a, neg b]

def excludePairs : List α → List (List (Literal α))
  | [] => []
  | a :: l => l.map (excludes a) ++ excludePairs l

theorem holds_choice {σ : α → Bool} {bs : List α} : Holds σ (choice bs) ↔ ∃ b ∈ bs, σ b = true := by
  simp [Holds, choice, pos, Literal.Holds]

theorem holds_implies {σ : α → Bool} {a : α} {bs : List α} :
    Holds σ (implies a bs) ↔ (σ a = true → ∃ b ∈ bs, σ b = true) := by
  have hcons : Holds σ (implies a bs) ↔ σ a = false ∨ Holds σ (choice bs) := by
    simp [Holds, implies, choice, neg, Literal.Holds]
  rw [hcons, holds_choice]
  cases σ a <;> simp

theorem holds_excludes {σ : α → Bool} {a b : α} :
    Holds σ (excludes a b) ↔ ¬ (σ a = true ∧ σ b = true) := by
  simp only [Holds, excludes, neg, Literal.Holds, List.mem_cons, List.not_mem_nil, or_false,
    exists_eq_or_imp, exists_eq_left]
  cases σ a <;> cases σ b <;> simp

theorem holds_excludePairs {σ : α → Bool} {l : List α} :
    (∀ c ∈ excludePairs l, Holds σ c) ↔ l.Pairwise (fun a b => ¬ (σ a = true ∧ σ b = true)) := by
  induction l with
  | nil => simp [excludePairs]
  | cons a l ih =>
    simp only [excludePairs, List.mem_append, List.mem_map, List.pairwise_cons]
    rw [← ih]
    constructor
    · intro h
      refine ⟨fun b hb => holds_excludes.mp (h _ (Or.inl ⟨b, hb, rfl⟩)), fun c hc => ?_⟩
      exact h c (Or.inr hc)
    · intro h c hc
      rcases hc with ⟨b, hb, hbc⟩ | hc
      · rw [← hbc]
        exact holds_excludes.mpr (h.1 b hb)
      · exact h.2 c hc

theorem eq_of_holds_excludePairs {σ : α → Bool} {l : List α}
    (h : ∀ c ∈ excludePairs l, Holds σ c) {a b : α} (ha : a ∈ l) (hb : b ∈ l)
    (hσa : σ a = true) (hσb : σ b = true) : a = b := by
  have hpairs := holds_excludePairs.mp h
  induction l with
  | nil => cases ha
  | cons x l ih =>
    obtain ⟨hx, hl⟩ := List.pairwise_cons.mp hpairs
    have htail : ∀ c ∈ excludePairs l, Holds σ c := holds_excludePairs.mpr hl
    by_cases hax : a = x
    · by_cases hbx : b = x
      · rw [hax, hbx]
      · have hbl : b ∈ l := (List.mem_cons.mp hb).resolve_left hbx
        exact absurd ⟨hax ▸ hσa, hσb⟩ (hx b hbl)
    · have hal : a ∈ l := (List.mem_cons.mp ha).resolve_left hax
      by_cases hbx : b = x
      · exact absurd ⟨hbx ▸ hσb, hσa⟩ (hx a hal)
      · exact ih htail hal ((List.mem_cons.mp hb).resolve_left hbx) hl

end NextBSD.Clause
