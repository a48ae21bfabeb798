import Mathlib.Data.List.Basic

/-!
# Scans of a map that changes

A scan looks at one entry after another, and between two entries the map may change.  What is
still to come is a list of keys.  A key that stays in the map stays in that list, or out of it,
whatever happens to the other keys and however often its own entry is replaced.
-/

namespace NextBSD.ScanWalk

universe u v w

variable {σ : Type u} {κ : Type v} {ν : Type w}

/-- One entry that the scan looks at, and the states of the map after each change made there. -/
structure Visit (σ : Type u) (ν : Type w) where
  before : σ
  node : ν
  during : List σ
  called : Bool

def Visit.after (v : Visit σ ν) : σ := v.during.getLastD v.before

variable (find : σ → κ → Option ν) (key : ν → κ)

/-- From `pending` in the state `s`, by the visits, to another list in the state `s'`. -/
inductive Walk : List κ → σ → List (Visit σ ν) → List κ → σ → Prop
  | done (pending : List κ) {s s' : σ} (hsame : ∀ k, find s' k = find s k) :
      Walk pending s [] pending s'
  | look {rest pending' : List κ} {s : σ} {v : Visit σ ν} {vs : List (Visit σ ν)}
      {left : List κ} {s' : σ} (hbefore : ∀ k, find v.before k = find s k)
      (hnode : find v.before (key v.node) = some v.node)
      (hkeep : ∀ k, find s k ≠ none → (∀ t ∈ v.during, find t k ≠ none) →
        (k ∈ pending' ↔ k ∈ rest))
      (hnodup : pending'.Nodup) (hrest : Walk pending' v.after vs left s') :
      Walk (key v.node :: rest) s (v :: vs) left s'

/-- The key is in the map before the visits and after every change made in them. -/
def AlwaysThere (s : σ) (vs : List (Visit σ ν)) (k : κ) : Prop :=
  find s k ≠ none ∧ ∀ v ∈ vs, ∀ t ∈ v.during, find t k ≠ none

def visitsTo [DecidableEq κ] (vs : List (Visit σ ν)) (k : κ) : List (Visit σ ν) :=
  vs.filter (fun v => key v.node = k)

variable {find key}

theorem Walk.split {pending left : List κ} {s s' : σ} {a b : List (Visit σ ν)}
    (h : Walk find key pending s (a ++ b) left s') :
    ∃ mid t, Walk find key pending s a mid t ∧ Walk find key mid t b left s' := by
  induction a generalizing pending s with
  | nil => exact ⟨pending, s, .done pending (fun _ => rfl), h⟩
  | cons v a ih =>
    cases h with
    | look hbefore hnode hkeep hnodup hrest =>
      obtain ⟨mid, t, ha, hb⟩ := ih hrest
      exact ⟨mid, t, .look hbefore hnode hkeep hnodup ha, hb⟩

theorem Walk.congr {pending left : List κ} {s t s' : σ} {vs : List (Visit σ ν)}
    (h : Walk find key pending s vs left s') (hsame : ∀ k, find s k = find t k) :
    Walk find key pending t vs left s' := by
  cases h with
  | done _ hdone => exact .done pending (fun k => (hdone k).trans (hsame k))
  | look hbefore hnode hkeep hnodup hrest =>
    refine .look (fun k => (hbefore k).trans (hsame k)) hnode (fun k hk => ?_) hnodup hrest
    exact hkeep k (by rw [hsame]; exact hk)

theorem Walk.append {pending mid left : List κ} {s t t' s' : σ} {a b : List (Visit σ ν)}
    (ha : Walk find key pending s a mid t) (hsame : ∀ k, find t' k = find t k)
    (hb : Walk find key mid t' b left s') : Walk find key pending s (a ++ b) left s' := by
  induction ha with
  | done _ hdone => exact hb.congr (fun k => (hsame k).trans (hdone k))
  | look hbefore hnode hkeep hnodup _ ih =>
    exact .look hbefore hnode hkeep hnodup (ih hsame hb)

theorem Walk.current {pending left : List κ} {s s' : σ} {vs : List (Visit σ ν)}
    (h : Walk find key pending s vs left s') :
    ∀ v ∈ vs, find v.before (key v.node) = some v.node := by
  induction h with
  | done => exact fun v hv => absurd hv List.not_mem_nil
  | look hbefore hnode hkeep hnodup hrest ih =>
    intro v hv
    rcases List.mem_cons.mp hv with rfl | hv
    · exact hnode
    · exact ih v hv

theorem find_after {s : σ} {v : Visit σ ν} {k : κ} {P : Option ν → Prop}
    (hbefore : ∀ k, find v.before k = find s k) (hs : P (find s k))
    (hduring : ∀ t ∈ v.during, P (find t k)) : P (find v.after k) := by
  have hafter : v.after ∈ v.before :: v.during := List.getLastD_mem_cons
  rcases List.mem_cons.mp hafter with h | h
  · rw [h, hbefore]
    exact hs
  · exact hduring _ h

variable [DecidableEq κ]

theorem Walk.count {pending left : List κ} {s s' : σ} {vs : List (Visit σ ν)}
    (h : Walk find key pending s vs left s') (hnodup : pending.Nodup) {k : κ}
    (hthere : AlwaysThere find s vs k) :
    (visitsTo key vs k).length + (if k ∈ left then 1 else 0) = if k ∈ pending then 1 else 0 := by
  induction h with
  | done => exact Nat.zero_add _
  | @look rest pending' s v vs left s' hbefore hnode hkeep hnodup' hrest ih =>
    have hduring : ∀ t ∈ v.during, find t k ≠ none := fun t ht => hthere.2 v List.mem_cons_self t ht
    have hlater : AlwaysThere find v.after vs k :=
      ⟨find_after (P := (· ≠ none)) hbefore hthere.1 hduring,
        fun w hw => hthere.2 w (List.mem_cons_of_mem v hw)⟩
    have hcount := ih hnodup' hlater
    have hiff := hkeep k hthere.1 hduring
    have hfirst := (List.nodup_cons.mp hnodup).1
    by_cases hk : key v.node = k
    · have hnot : k ∉ pending' := fun hmem => hfirst (hk ▸ hiff.mp hmem)
      have hsplit : visitsTo key (v :: vs) k = v :: visitsTo key vs k :=
        List.filter_cons_of_pos (decide_eq_true hk)
      rw [if_neg hnot] at hcount
      have hmem : k ∈ key v.node :: rest := by
        rw [hk]
        exact List.mem_cons_self
      rw [hsplit, List.length_cons, if_pos hmem]
      omega
    · have hsplit : visitsTo key (v :: vs) k = visitsTo key vs k :=
        List.filter_cons_of_neg (fun h => hk (of_decide_eq_true h))
      have hpending : k ∈ key v.node :: rest ↔ k ∈ pending' := by
        rw [hiff, List.mem_cons]
        exact or_iff_right (fun h => hk h.symm)
      rw [hsplit, hcount]
      exact if_congr hpending.symm rfl rfl

theorem Walk.atMostOnce {pending left : List κ} {s s' : σ} {vs : List (Visit σ ν)}
    (h : Walk find key pending s vs left s') (hnodup : pending.Nodup) {a b : List (Visit σ ν)}
    (hvs : vs = a ++ b) {k : κ} (hthere : AlwaysThere find s a k) :
    (visitsTo key a k).length ≤ 1 := by
  subst hvs
  obtain ⟨mid, t, ha, -⟩ := h.split
  have hcount := ha.count hnodup hthere
  split at hcount <;> split at hcount <;> omega

theorem Walk.once {pending : List κ} {s s' : σ} {vs : List (Visit σ ν)}
    (h : Walk find key pending s vs [] s') (hnodup : pending.Nodup) {k : κ} (hk : k ∈ pending)
    (hthere : AlwaysThere find s vs k) : ∃ v, visitsTo key vs k = [v] := by
  have hcount := h.count hnodup hthere
  rw [if_neg List.not_mem_nil, if_pos hk] at hcount
  exact List.length_eq_one_iff.mp hcount

theorem Walk.untouched {pending left : List κ} {s s' : σ} {vs : List (Visit σ ν)}
    (h : Walk find key pending s vs left s') {k : κ} {n : ν} (hs : find s k = some n)
    (hduring : ∀ v ∈ vs, ∀ t ∈ v.during, find t k = some n) :
    ∀ v ∈ visitsTo key vs k, v.node = n := by
  induction h with
  | done => exact fun v hv => absurd hv List.not_mem_nil
  | @look rest pending' s v vs left s' hbefore hnode hkeep hnodup' hrest ih =>
    intro w hw
    obtain ⟨hmem, hkey⟩ := List.mem_filter.mp hw
    have hkey : key w.node = k := of_decide_eq_true hkey
    have hfirst : ∀ t ∈ v.during, find t k = some n := hduring v List.mem_cons_self
    rcases List.mem_cons.mp hmem with rfl | hmem
    · rw [hkey, hbefore, hs] at hnode
      exact (Option.some.inj hnode).symm
    · refine ih (find_after (P := (· = some n)) hbefore hs hfirst)
        (fun w' hw' => hduring w' (List.mem_cons_of_mem v hw')) w ?_
      exact List.mem_filter.mpr ⟨hmem, decide_eq_true hkey⟩

end NextBSD.ScanWalk
