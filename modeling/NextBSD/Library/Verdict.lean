import Mathlib.Data.List.Basic

/-!
# Verdicts and the last match

A rule allows, denies or says nothing, and in a list of rules the last one that
says something decides.
-/

namespace NextBSD

inductive Verdict where
  | allow
  | deny
  | unspec
  deriving DecidableEq, Repr

namespace Verdict

universe u v

variable {α : Type u} {β : Type v}

def specified : Verdict → Bool
  | allow => true
  | deny => true
  | unspec => false

/-- The verdict of what is written with a `!`, when `negated` is set. -/
def signed (negated : Bool) : Verdict → Verdict
  | allow => if negated then deny else allow
  | deny => if negated then allow else deny
  | unspec => unspec

@[simp] theorem specified_allow : allow.specified = true := rfl

@[simp] theorem specified_deny : deny.specified = true := rfl

@[simp] theorem specified_unspec : unspec.specified = false := rfl

@[simp] theorem signed_unspec (b : Bool) : signed b unspec = unspec := rfl

theorem specified_iff {v : Verdict} : v.specified = true ↔ v ≠ unspec := by
  cases v <;> decide

theorem not_specified {v : Verdict} : v.specified = false ↔ v = unspec := by
  cases v <;> decide

@[simp] theorem specified_signed (b : Bool) (v : Verdict) :
    (signed b v).specified = v.specified := by
  cases v <;> cases b <;> rfl

@[simp] theorem signed_signed (b : Bool) (v : Verdict) : signed b (signed b v) = v := by
  cases v <;> cases b <;> rfl

theorem signed_injective {b : Bool} {v w : Verdict} (h : signed b v = signed b w) : v = w := by
  rw [← signed_signed b v, h, signed_signed]

def orElse (v w : Verdict) : Verdict := if v.specified then v else w

@[simp] theorem orElse_of_specified {v w : Verdict} (h : v.specified = true) : v.orElse w = v :=
  if_pos h

@[simp] theorem orElse_unspec (w : Verdict) : unspec.orElse w = w := rfl

@[simp] theorem orElse_unspec_right (v : Verdict) : v.orElse unspec = v := by
  cases v <;> rfl

theorem orElse_assoc (u v w : Verdict) : (u.orElse v).orElse w = u.orElse (v.orElse w) := by
  cases u <;> rfl

theorem orElse_eq_unspec {v w : Verdict} : v.orElse w = unspec ↔ v = unspec ∧ w = unspec := by
  cases v <;> simp [orElse]

def lastMatch (f : α → Verdict) : List α → Verdict
  | [] => unspec
  | a :: l => (lastMatch f l).orElse (f a)

@[simp] theorem lastMatch_nil (f : α → Verdict) : lastMatch f [] = unspec := rfl

theorem lastMatch_cons (f : α → Verdict) (a : α) (l : List α) :
    lastMatch f (a :: l) = (lastMatch f l).orElse (f a) := rfl

theorem lastMatch_append (f : α → Verdict) (l m : List α) :
    lastMatch f (l ++ m) = (lastMatch f m).orElse (lastMatch f l) := by
  induction l with
  | nil =>
    show lastMatch f m = (lastMatch f m).orElse unspec
    rw [orElse_unspec_right]
  | cons a l ih =>
    show (lastMatch f (l ++ m)).orElse (f a) = _
    rw [ih, orElse_assoc]
    rfl

theorem lastMatch_concat (f : α → Verdict) (l : List α) (a : α) :
    lastMatch f (l ++ [a]) = (f a).orElse (lastMatch f l) := by
  rw [lastMatch_append]
  rfl

theorem lastMatch_eq_unspec {f : α → Verdict} {l : List α} :
    lastMatch f l = unspec ↔ ∀ a ∈ l, f a = unspec := by
  induction l with
  | nil => simp
  | cons a l ih =>
    rw [lastMatch_cons, orElse_eq_unspec, ih, List.forall_mem_cons]
    exact And.comm

theorem lastMatch_eq_find? (f : α → Verdict) (l : List α) :
    lastMatch f l = ((l.reverse.find? (fun a => (f a).specified)).map f).getD unspec := by
  induction l with
  | nil => rfl
  | cons a l ih =>
    rw [lastMatch_cons, ih, List.reverse_cons, List.find?_append]
    cases hfind : l.reverse.find? (fun a => (f a).specified) with
    | none =>
      have hsingle : ([a].find? (fun a => (f a).specified)) =
          if (f a).specified then some a else none := by
        cases hfa : f a <;> simp [List.find?, hfa]
      rw [Option.none_or, hsingle]
      cases hfa : f a <;> simp [hfa]
    | some b =>
      have hb : (f b).specified = true := by simpa using List.find?_some hfind
      rw [Option.some_or]
      exact orElse_of_specified hb

theorem find?_reverse_eq_some {f : α → Verdict} {l : List α} {a : α} :
    l.reverse.find? (fun a => (f a).specified) = some a ↔
      f a ≠ unspec ∧ ∃ pre post, l = pre ++ a :: post ∧ ∀ b ∈ post, f b = unspec := by
  rw [List.find?_eq_some_iff_append, specified_iff]
  apply and_congr_right
  intro _
  constructor
  · intro ⟨as, bs, hsplit, has⟩
    refine ⟨bs.reverse, as.reverse, ?_, ?_⟩
    · have := congrArg List.reverse hsplit
      simpa using this
    · intro b hb
      exact not_specified.mp (by simpa using has b (List.mem_reverse.mp hb))
  · intro ⟨pre, post, hsplit, hpost⟩
    refine ⟨post.reverse, pre.reverse, by simp [hsplit], ?_⟩
    intro b hb
    rw [hpost b (List.mem_reverse.mp hb)]
    rfl

theorem lastMatch_of_decisive {f : α → Verdict} {pre post : List α} {a : α}
    (ha : f a ≠ unspec) (hpost : ∀ b ∈ post, f b = unspec) :
    lastMatch f (pre ++ a :: post) = f a := by
  rw [lastMatch_append, lastMatch_cons, lastMatch_eq_unspec.mpr hpost, orElse_unspec,
    orElse_of_specified (specified_iff.mpr ha)]

/-- An element that denies decides, and without one an element that allows does. -/
def denyFirst (f : α → Verdict) (l : List α) : Verdict :=
  if l.any (fun a => f a = deny) then deny
  else if l.any (fun a => f a = allow) then allow
  else unspec

theorem denyFirst_perm (f : α → Verdict) {l m : List α} (h : l.Perm m) :
    denyFirst f l = denyFirst f m := by
  unfold denyFirst
  rw [h.any_eq, h.any_eq]

theorem denyFirst_map (f : β → Verdict) (g : α → β) (l : List α) :
    denyFirst f (l.map g) = denyFirst (fun a => f (g a)) l := by
  unfold denyFirst
  rw [List.any_map, List.any_map]
  rfl

theorem denyFirst_unspec (l : List α) : denyFirst (fun _ => unspec) l = unspec := by
  unfold denyFirst
  simp

theorem denyFirst_eq_deny {f : α → Verdict} {l : List α} :
    denyFirst f l = deny ↔ ∃ a ∈ l, f a = deny := by
  have hany (v : Verdict) : l.any (fun a => f a = v) = true ↔ ∃ a ∈ l, f a = v := by
    simp only [List.any_eq_true, decide_eq_true_eq]
  unfold denyFirst
  rw [← hany deny]
  split
  · next hdeny => exact iff_of_true rfl hdeny
  · next hdeny =>
    refine iff_of_false (fun h => ?_) hdeny
    split at h <;> exact Verdict.noConfusion h

theorem denyFirst_eq_allow {f : α → Verdict} {l : List α} (hdeny : ∀ a ∈ l, f a ≠ deny) :
    denyFirst f l = allow ↔ ∃ a ∈ l, f a = allow := by
  have hany (v : Verdict) : l.any (fun a => f a = v) = true ↔ ∃ a ∈ l, f a = v := by
    simp only [List.any_eq_true, decide_eq_true_eq]
  unfold denyFirst
  rw [if_neg (fun h => by
    obtain ⟨a, ha, hfa⟩ := (hany deny).mp h
    exact hdeny a ha hfa), ← hany allow]
  split
  · next hallow => exact iff_of_true rfl hallow
  · next hallow => exact iff_of_false Verdict.noConfusion hallow

theorem lastMatch_denyLast (f : α → Verdict) (p : α → Bool) (l : List α)
    (hdeny : ∀ a, p a = true → f a ≠ allow) (hallow : ∀ a, p a = false → f a ≠ deny) :
    lastMatch f (l.filter (fun a => !p a) ++ l.filter p) = denyFirst f l := by
  have hcases (v : Verdict) : v = allow ∨ v = deny ∨ v = unspec := by cases v <;> decide
  have hlast (m : List α) (v : Verdict) (h : ∀ a ∈ m, f a = v ∨ f a = unspec) :
      lastMatch f m = if m.any (fun a => f a = v) then v else unspec := by
    induction m with
    | nil => rfl
    | cons a m ih =>
      rw [lastMatch_cons, ih (fun b hb => h b (List.mem_cons_of_mem a hb)), List.any_cons]
      rcases h a List.mem_cons_self with ha | ha
      · rw [ha]
        cases m.any (fun a => f a = v) <;> cases v <;> rfl
      · rw [ha]
        cases m.any (fun a => f a = v) <;> cases v <;> rfl
  have hpos (a : α) (ha : a ∈ l.filter (fun a => !p a)) : f a = allow ∨ f a = unspec := by
    have hp : p a = false := by simpa using (List.mem_filter.mp ha).2
    rcases hcases (f a) with h | h | h
    · exact Or.inl h
    · exact absurd h (hallow a hp)
    · exact Or.inr h
  have hneg (a : α) (ha : a ∈ l.filter p) : f a = deny ∨ f a = unspec := by
    have hp : p a = true := (List.mem_filter.mp ha).2
    rcases hcases (f a) with h | h | h
    · exact absurd h (hdeny a hp)
    · exact Or.inl h
    · exact Or.inr h
  have hanydeny : (l.filter p).any (fun a => f a = deny) = l.any (fun a => f a = deny) := by
    rw [Bool.eq_iff_iff]
    simp only [List.any_eq_true, decide_eq_true_eq, List.mem_filter]
    constructor
    · rintro ⟨a, ⟨ha, -⟩, hfa⟩
      exact ⟨a, ha, hfa⟩
    · rintro ⟨a, ha, hfa⟩
      refine ⟨a, ⟨ha, ?_⟩, hfa⟩
      by_contra hp
      exact hallow a (eq_false_of_ne_true hp) hfa
  have hanyallow : (l.filter (fun a => !p a)).any (fun a => f a = allow) =
      l.any (fun a => f a = allow) := by
    rw [Bool.eq_iff_iff]
    simp only [List.any_eq_true, decide_eq_true_eq, List.mem_filter]
    constructor
    · rintro ⟨a, ⟨ha, -⟩, hfa⟩
      exact ⟨a, ha, hfa⟩
    · rintro ⟨a, ha, hfa⟩
      refine ⟨a, ⟨ha, ?_⟩, hfa⟩
      rw [Bool.not_eq_true']
      by_contra hp
      exact hdeny a (eq_true_of_ne_false hp) hfa
  unfold denyFirst
  rw [lastMatch_append, hlast _ deny hneg, hlast _ allow hpos, hanydeny, hanyallow]
  cases l.any (fun a => f a = deny) <;> rfl

end Verdict
end NextBSD
