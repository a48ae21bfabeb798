import Mathlib.Data.List.Forall2
import Mathlib.Order.Compare

/-!
# Interning

A cache keeps the first of the values that compare equal, and answers with it for all of
them.  Each value kept has a number of its own, the address under which it is found.
-/

namespace NextBSD.Interning

universe u

structure Kept (α : Type u) where
  addr : Nat
  value : α
  deriving DecidableEq, Repr

variable {α : Type u} (cmp : α → α → Ordering)

def intern (cache : List (Kept α)) (a : α) : List (Kept α) × Kept α :=
  match cache.find? (fun k => cmp a k.value = .eq) with
  | some k => (cache, k)
  | none => (cache ++ [⟨cache.length, a⟩], ⟨cache.length, a⟩)

/-- What holds of every cache: addresses are positions, and no two values compare equal. -/
structure Wf (cache : List (Kept α)) : Prop where
  addr_lt : ∀ k ∈ cache, k.addr < cache.length
  addr_inj : ∀ k ∈ cache, ∀ k' ∈ cache, k.addr = k'.addr → k = k'
  value_inj : ∀ k ∈ cache, ∀ k' ∈ cache, cmp k.value k'.value = .eq → k = k'

/-- `k` is what the cache answers for `a`. -/
structure Answers (cache : List (Kept α)) (a : α) (k : Kept α) : Prop where
  kept : k ∈ cache
  same : cmp a k.value = .eq

theorem wf_nil : Wf cmp ([] : List (Kept α)) :=
  ⟨fun _ hk => absurd hk (List.not_mem_nil), fun _ hk => absurd hk (List.not_mem_nil),
    fun _ hk => absurd hk (List.not_mem_nil)⟩

variable {cmp} {cache : List (Kept α)} {a b : α} {k k' : Kept α}

theorem Answers.grow (h : Answers cmp cache a k) (more : List (Kept α)) :
    Answers cmp (cache ++ more) a k :=
  ⟨List.mem_append_left more h.kept, h.same⟩

theorem intern_grows (cache : List (Kept α)) (a : α) :
    ∃ more, (intern cmp cache a).1 = cache ++ more := by
  unfold intern
  split
  · exact ⟨[], (List.append_nil cache).symm⟩
  · exact ⟨_, rfl⟩

variable (cmp) in
/-- The values asked for so far with their answers, and a cache that holds nothing else. -/
structure Holds (cache : List (Kept α)) (asked : List (α × Kept α)) : Prop where
  wf : Wf cmp cache
  answers : ∀ p ∈ asked, Answers cmp cache p.1 p.2
  source : ∀ k ∈ cache, (k.value, k) ∈ asked

variable {asked : List (α × Kept α)} {p q : α × Kept α}

theorem holds_nil : Holds cmp ([] : List (Kept α)) [] :=
  ⟨wf_nil cmp, fun _ hp => absurd hp List.not_mem_nil, fun _ hk => absurd hk List.not_mem_nil⟩

theorem Holds.eq_of_addr (h : Holds cmp cache asked) (hp : p ∈ asked) (hq : q ∈ asked)
    (haddr : p.2.addr = q.2.addr) : p.2 = q.2 :=
  h.wf.addr_inj p.2 (h.answers p hp).kept q.2 (h.answers q hq).kept haddr

theorem Holds.rel_answer {R : α → α → Prop} (h : Holds cmp cache asked)
    (hrel : ∀ p ∈ asked, ∀ q ∈ asked, cmp p.1 q.1 = .eq → R p.1 q.1) (hp : p ∈ asked) :
    R p.1 p.2.value :=
  hrel p hp (p.2.value, p.2) (h.source p.2 (h.answers p hp).kept) (h.answers p hp).same

section Preorder

variable [Std.TransCmp cmp]

theorem intern_answers (cache : List (Kept α)) (a : α) :
    Answers cmp (intern cmp cache a).1 a (intern cmp cache a).2 := by
  unfold intern
  split
  · next k hfind =>
    have hsame := List.find?_some hfind
    exact ⟨List.mem_of_find?_eq_some hfind, of_decide_eq_true hsame⟩
  · exact ⟨List.mem_append_right cache List.mem_cons_self, Std.ReflCmp.compare_self⟩

theorem intern_wf (h : Wf cmp cache) (a : α) : Wf cmp (intern cmp cache a).1 := by
  unfold intern
  split
  · exact h
  · next hfind =>
    have hnew (k : Kept α) (hk : k ∈ cache) : cmp a k.value ≠ .eq := by
      have hfalse := List.find?_eq_none.mp hfind k hk
      exact fun hsame => hfalse (decide_eq_true hsame)
    constructor
    · intro k hk
      rw [List.length_append, List.length_singleton]
      rcases List.mem_append.mp hk with hk | hk
      · have hlt := h.addr_lt k hk
        omega
      · rw [List.mem_singleton.mp hk]
        exact Nat.lt_succ_self _
    · intro k hk k' hk' haddr
      rcases List.mem_append.mp hk with hk | hk <;> rcases List.mem_append.mp hk' with hk' | hk'
      · exact h.addr_inj k hk k' hk' haddr
      · rw [List.mem_singleton.mp hk'] at haddr
        exact absurd haddr (Nat.ne_of_lt (h.addr_lt k hk))
      · rw [List.mem_singleton.mp hk] at haddr
        exact absurd haddr.symm (Nat.ne_of_lt (h.addr_lt k' hk'))
      · rw [List.mem_singleton.mp hk, List.mem_singleton.mp hk']
    · intro k hk k' hk' hsame
      rcases List.mem_append.mp hk with hk | hk <;> rcases List.mem_append.mp hk' with hk' | hk'
      · exact h.value_inj k hk k' hk' hsame
      · rw [List.mem_singleton.mp hk'] at hsame
        exact absurd (Std.OrientedCmp.eq_symm hsame) (hnew k hk)
      · rw [List.mem_singleton.mp hk] at hsame
        exact absurd hsame (hnew k' hk')
      · rw [List.mem_singleton.mp hk, List.mem_singleton.mp hk']

theorem Answers.addr_eq_iff (hwf : Wf cmp cache) (h : Answers cmp cache a k)
    (h' : Answers cmp cache b k') : k.addr = k'.addr ↔ cmp a b = .eq := by
  constructor
  · intro haddr
    obtain rfl := hwf.addr_inj k h.kept k' h'.kept haddr
    exact Std.TransCmp.eq_trans h.same (Std.OrientedCmp.eq_symm h'.same)
  · intro hsame
    have hkeep : cmp k.value k'.value = .eq :=
      Std.TransCmp.eq_trans (Std.OrientedCmp.eq_symm h.same) (Std.TransCmp.eq_trans hsame h'.same)
    rw [hwf.value_inj k h.kept k' h'.kept hkeep]

theorem Holds.intern (h : Holds cmp cache asked) (a : α) :
    Holds cmp (intern cmp cache a).1 (asked ++ [(a, (intern cmp cache a).2)]) := by
  obtain ⟨more, hmore⟩ := @intern_grows α cmp cache a
  constructor
  · exact intern_wf h.wf a
  · intro p hp
    rcases List.mem_append.mp hp with hp | hp
    · rw [hmore]
      exact (h.answers p hp).grow more
    · rw [List.mem_singleton.mp hp]
      exact intern_answers cache a
  · intro k hk
    unfold Interning.intern at hk ⊢
    split at hk
    · exact List.mem_append_left _ (h.source k hk)
    · rcases List.mem_append.mp hk with hk | hk
      · exact List.mem_append_left _ (h.source k hk)
      · rw [List.mem_singleton.mp hk]
        exact List.mem_append_right asked List.mem_cons_self

theorem Holds.addr_eq_iff (h : Holds cmp cache asked) (hp : p ∈ asked) (hq : q ∈ asked) :
    p.2.addr = q.2.addr ↔ cmp p.1 q.1 = .eq :=
  (h.answers p hp).addr_eq_iff h.wf (h.answers q hq)

end Preorder

end NextBSD.Interning
