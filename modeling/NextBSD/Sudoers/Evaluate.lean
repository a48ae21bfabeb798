import Mathlib
import NextBSD.Library.Verdict
import NextBSD.Sudoers.Policy

/-!
# Walking a member list

The four evaluators of `match.c` walk a list of members from its end, look an alias up
with `alias_get`, walk the alias's own list, and give the alias back with `alias_put`.
They differ in what a member that is no alias matches, and that is what `MemberRules`
holds.  `σ` is what a matcher writes as it goes.
-/

namespace NextBSD.Sudoers

structure MemberRules (σ : Type) where
  /-- The type under which it looks an alias up. -/
  aliasType : AliasType
  /-- A member that is not an alias. -/
  leaf : MemberType → Bool → σ → Verdict × σ
  /-- An alias member for which `alias_get` returns `NULL`. -/
  missing : String → Bool → σ → Verdict × σ
  /-- What is kept of the member that decided. -/
  matched : Member → σ → σ
  /-- A list in which no member decided. -/
  unmatched : Verdict

/-- The `used` marks of the aliases, and what the matcher has written. -/
structure EvalState (σ : Type) where
  used : List AliasKey
  st : σ

abbrev EvalM (σ : Type) := StateT (EvalState σ) Option

variable {σ : Type}

/-- `alias_get`: `NULL` for an alias that is not there or is in use. -/
def aliasGet (tree : ParseTree) (type : AliasType) (name : String) : EvalM σ (Option Alias) :=
  fun s =>
    match tree.findAlias type name with
    | none => some (none, s)
    | some a =>
      if a.key ∈ s.used then some (none, s)
      else some (some a, { s with used := a.key :: s.used })

def aliasPut (a : Alias) : EvalM σ Unit :=
  fun s => some ((), { s with used := s.used.filter (fun k => k ≠ a.key) })

def liftMatcher (f : σ → Verdict × σ) : EvalM σ Verdict :=
  fun s => some ((f s.st).1, { s with st := (f s.st).2 })

/-- `TAILQ_FOREACH_REVERSE` with its early exit; the list is in the order of the walk. -/
def scanMatches (R : MemberRules σ) (eval : Member → EvalM σ Verdict) :
    List Member → EvalM σ Verdict
  | [] => pure R.unmatched
  | m :: ms => fun s =>
    match eval m s with
    | none => none
    | some (v, s') =>
      if v.specified then some (v, { s' with st := R.matched m s'.st })
      else scanMatches R eval ms s'

def memberMatches (R : MemberRules σ) (tree : ParseTree) : Nat → Member → EvalM σ Verdict
  | 0, _ => fun _ => none
  | fuel + 1, m =>
    match m.type with
    | .alias name => do
      match ← aliasGet tree R.aliasType name with
      | some a => do
        let rc ← scanMatches R (memberMatches R tree fuel) a.members.reverse
        aliasPut a
        pure (rc.signed m.negated)
      | none => liftMatcher (R.missing name m.negated)
    | type => liftMatcher (R.leaf type m.negated)

/-- A list of members.  Every alias in use is another one, which bounds the depth. -/
def listMatches (R : MemberRules σ) (tree : ParseTree) (list : List Member) : EvalM σ Verdict :=
  scanMatches R (memberMatches R tree (tree.aliases.length + 1)) list.reverse

/-! ## The marks -/

def unmarked (tree : ParseTree) (used : List AliasKey) : Nat :=
  tree.aliases.countP (fun a => a.key ∉ used)

theorem unmarked_le (tree : ParseTree) (used : List AliasKey) :
    unmarked tree used ≤ tree.aliases.length := List.countP_le_length

theorem unmarked_cons_lt {tree : ParseTree} {used : List AliasKey} {a : Alias}
    (hmem : a ∈ tree.aliases) (hfree : a.key ∉ used) :
    unmarked tree (a.key :: used) < unmarked tree used := by
  obtain ⟨l, r, hlr⟩ := List.append_of_mem hmem
  have hmono : ∀ as : List Alias, as.countP (fun b => b.key ∉ a.key :: used) ≤
      as.countP (fun b => b.key ∉ used) := by
    intro as
    refine List.countP_mono_left (fun b _ hb => ?_)
    have hb' : b.key ∉ a.key :: used := by simpa using hb
    have : b.key ∉ used := fun h => hb' (List.mem_cons_of_mem _ h)
    simpa using this
  have hl := hmono l
  have hr := hmono r
  have hnow : (a :: r).countP (fun b => b.key ∉ a.key :: used) =
      r.countP (fun b => b.key ∉ a.key :: used) := List.countP_cons_of_neg (by simp)
  have hbefore : (a :: r).countP (fun b => b.key ∉ used) =
      r.countP (fun b => b.key ∉ used) + 1 := List.countP_cons_of_pos (by simpa using hfree)
  unfold unmarked
  rw [hlr, List.countP_append, List.countP_append, hnow, hbefore]
  omega

theorem filter_marked {used : List AliasKey} {k : AliasKey} (hk : k ∉ used) :
    (k :: used).filter (fun j => j ≠ k) = used := by
  rw [List.filter_cons_of_neg (by simp), List.filter_eq_self]
  intro j hj
  have hne : j ≠ k := fun h => hk (h ▸ hj)
  simpa using hne

def KeepsMarks {α : Type} (x : EvalM σ α) : Prop := ∀ s v s', x s = some (v, s') → s'.used = s.used

theorem liftMatcher_keepsMarks (f : σ → Verdict × σ) : KeepsMarks (liftMatcher f) := by
  intro s v s' h
  obtain ⟨-, rfl⟩ : (f s.st).1 = v ∧ { s with st := (f s.st).2 } = s' := by
    simpa [liftMatcher] using h
  rfl

theorem scanMatches_keepsMarks {R : MemberRules σ} {eval : Member → EvalM σ Verdict}
    (heval : ∀ m, KeepsMarks (eval m)) (ms : List Member) :
    KeepsMarks (scanMatches R eval ms) := by
  induction ms with
  | nil =>
    intro s v s' h
    obtain ⟨-, rfl⟩ : R.unmatched = v ∧ s = s' := by simpa [scanMatches, pure, StateT.pure] using h
    rfl
  | cons m ms ih =>
    intro s v s' h
    simp only [scanMatches] at h
    cases hm : eval m s with
    | none => simp [hm] at h
    | some r =>
      obtain ⟨w, s₁⟩ := r
      have hused : s₁.used = s.used := heval m s w s₁ hm
      simp only [hm] at h
      by_cases hw : w.specified = true
      · rw [if_pos hw] at h
        obtain ⟨-, rfl⟩ : w = v ∧ { s₁ with st := R.matched m s₁.st } = s' := by simpa using h
        exact hused
      · rw [if_neg hw] at h
        rw [ih s₁ v s' h, hused]

theorem aliasGet_eq_some {tree : ParseTree} {type : AliasType} {name : String} {s s' : EvalState σ}
    {a : Alias} (h : aliasGet tree type name s = some (some a, s')) :
    tree.findAlias type name = some a ∧ a.key ∉ s.used ∧
      s' = { s with used := a.key :: s.used } := by
  unfold aliasGet at h
  cases hfind : tree.findAlias type name with
  | none => simp [hfind] at h
  | some b =>
    simp only [hfind] at h
    by_cases hb : b.key ∈ s.used
    · simp [hb] at h
    · rw [if_neg hb] at h
      obtain ⟨rfl, rfl⟩ : b = a ∧ { s with used := b.key :: s.used } = s' := by simpa using h
      exact ⟨rfl, hb, rfl⟩

theorem aliasGet_eq_none {tree : ParseTree} {type : AliasType} {name : String} {s s' : EvalState σ}
    (h : aliasGet tree type name s = some (none, s')) :
    s' = s ∧ ∀ a, tree.findAlias type name = some a → a.key ∈ s.used := by
  unfold aliasGet at h
  cases hfind : tree.findAlias type name with
  | none =>
    have hs : s = s' := by simpa [hfind] using h
    exact ⟨hs.symm, fun a ha => by simp at ha⟩
  | some b =>
    simp only [hfind] at h
    by_cases hb : b.key ∈ s.used
    · have hs : s = s' := by simpa [hb] using h
      refine ⟨hs.symm, fun a ha => ?_⟩
      obtain rfl : b = a := by simpa using ha
      exact hb
    · simp [hb] at h

theorem aliasGet_isSome (tree : ParseTree) (type : AliasType) (name : String) (s : EvalState σ) :
    ∃ r, aliasGet tree type name s = some r := by
  unfold aliasGet
  cases tree.findAlias type name with
  | none => exact ⟨_, rfl⟩
  | some a =>
    show ∃ r, (if a.key ∈ s.used then _ else _) = some r
    split
    · exact ⟨_, rfl⟩
    · exact ⟨_, rfl⟩

theorem memberMatches_alias {R : MemberRules σ} {tree : ParseTree} {fuel : Nat} {m : Member}
    {name : String} (hm : m.type = .alias name) (s : EvalState σ) :
    memberMatches R tree (fuel + 1) m s =
      match aliasGet tree R.aliasType name s with
      | none => none
      | some (none, s₁) => liftMatcher (R.missing name m.negated) s₁
      | some (some a, s₁) =>
        match scanMatches R (memberMatches R tree fuel) a.members.reverse s₁ with
        | none => none
        | some (rc, s₂) =>
          some (rc.signed m.negated,
            { s₂ with used := s₂.used.filter (fun k => k ≠ a.key) }) := by
  simp only [memberMatches, hm, bind, StateT.bind, Option.bind]
  cases aliasGet tree R.aliasType name s with
  | none => rfl
  | some r =>
    obtain ⟨oa, s₁⟩ := r
    cases oa with
    | none => rfl
    | some a =>
      simp only [StateT.bind, bind, Option.bind]
      cases scanMatches R (memberMatches R tree fuel) a.members.reverse s₁ with
      | none => rfl
      | some r => rfl

theorem memberMatches_leaf {R : MemberRules σ} {tree : ParseTree} {fuel : Nat} {m : Member}
    (hm : ∀ name, m.type ≠ .alias name) :
    memberMatches R tree (fuel + 1) m = liftMatcher (R.leaf m.type m.negated) := by
  unfold memberMatches
  split
  · rename_i name h
    exact absurd h (hm name)
  · rfl

theorem memberMatches_keepsMarks (R : MemberRules σ) (tree : ParseTree) (fuel : Nat) :
    ∀ m, KeepsMarks (memberMatches R tree fuel m) := by
  induction fuel with
  | zero => intro m s v s' h; simp [memberMatches] at h
  | succ fuel ih =>
    intro m
    by_cases hm : ∃ name, m.type = .alias name
    · obtain ⟨name, hm⟩ := hm
      intro s v s' h
      rw [memberMatches_alias hm] at h
      cases hget : aliasGet tree R.aliasType name s with
      | none => simp [hget] at h
      | some r =>
        obtain ⟨oa, s₁⟩ := r
        simp only [hget] at h
        cases oa with
        | none =>
          obtain ⟨rfl, -⟩ := aliasGet_eq_none hget
          exact liftMatcher_keepsMarks _ s₁ v s' h
        | some a =>
          obtain ⟨-, hfree, rfl⟩ := aliasGet_eq_some hget
          cases hscan : scanMatches R (memberMatches R tree fuel) a.members.reverse
              { s with used := a.key :: s.used } with
          | none => simp [hscan] at h
          | some r =>
            obtain ⟨rc, s₂⟩ := r
            have hs₂ : s₂.used = a.key :: s.used := scanMatches_keepsMarks ih _ _ rc s₂ hscan
            simp only [hscan, Option.some.injEq, Prod.mk.injEq] at h
            obtain ⟨-, rfl⟩ := h
            show s₂.used.filter _ = s.used
            rw [hs₂]
            exact filter_marked hfree
    · have hm' : ∀ name, m.type ≠ .alias name := fun name h => hm ⟨name, h⟩
      rw [memberMatches_leaf hm']
      exact liftMatcher_keepsMarks _

theorem listMatches_keepsMarks (R : MemberRules σ) (tree : ParseTree) (list : List Member) :
    KeepsMarks (listMatches R tree list) :=
  scanMatches_keepsMarks (memberMatches_keepsMarks R tree _) _

/-! ## Termination -/

theorem scanMatches_isSome {R : MemberRules σ} {eval : Member → EvalM σ Verdict}
    {used : List AliasKey} (hkeep : ∀ m, KeepsMarks (eval m))
    (heval : ∀ m s, s.used = used → ∃ r, eval m s = some r) (ms : List Member) :
    ∀ s, s.used = used → ∃ r, scanMatches R eval ms s = some r := by
  induction ms with
  | nil => exact fun s _ => ⟨(R.unmatched, s), rfl⟩
  | cons m ms ih =>
    intro s hs
    obtain ⟨⟨v, s₁⟩, hm⟩ := heval m s hs
    simp only [scanMatches, hm]
    by_cases hv : v.specified = true
    · rw [if_pos hv]
      exact ⟨_, rfl⟩
    · rw [if_neg hv]
      exact ih s₁ (by rw [hkeep m s v s₁ hm, hs])

theorem memberMatches_isSome (R : MemberRules σ) (tree : ParseTree) (fuel : Nat) :
    ∀ m s, unmarked tree s.used < fuel → ∃ r, memberMatches R tree fuel m s = some r := by
  induction fuel with
  | zero => intro m s h; omega
  | succ fuel ih =>
    intro m s h
    by_cases hm : ∃ name, m.type = .alias name
    · obtain ⟨name, hm⟩ := hm
      rw [memberMatches_alias hm]
      obtain ⟨⟨oa, s₁⟩, hget⟩ := aliasGet_isSome tree R.aliasType name s
      simp only [hget]
      cases oa with
      | none => exact ⟨_, rfl⟩
      | some a =>
        obtain ⟨hfind, hfree, rfl⟩ := aliasGet_eq_some hget
        have hlt := unmarked_cons_lt (ParseTree.findAlias_eq_some hfind).1 hfree
        have hsome : ∀ m s', s'.used = a.key :: s.used →
            ∃ r, memberMatches R tree fuel m s' = some r := by
          intro m s' hs'
          refine ih m s' ?_
          rw [hs']
          omega
        obtain ⟨r, hr⟩ := scanMatches_isSome (R := R) (memberMatches_keepsMarks R tree fuel) hsome
          a.members.reverse { s with used := a.key :: s.used } rfl
        simp only [hr]
        exact ⟨_, rfl⟩
    · have hm' : ∀ name, m.type ≠ .alias name := fun name h => hm ⟨name, h⟩
      rw [memberMatches_leaf hm']
      exact ⟨_, rfl⟩

theorem listMatches_isSome (R : MemberRules σ) (tree : ParseTree) (list : List Member)
    (s : EvalState σ) : ∃ r, listMatches R tree list s = some r := by
  refine scanMatches_isSome (memberMatches_keepsMarks R tree _) ?_ _ s rfl
  intro m s' _
  refine memberMatches_isSome R tree _ m s' ?_
  have := unmarked_le tree s'.used
  omega

/-! ## Running a walk

Marks that are clear before a walk are clear after it, so callers need not carry them. -/

def runWalk (x : EvalM σ Verdict) (s : σ) : Verdict × σ :=
  match x { used := [], st := s } with
  | some (v, t) => (v, t.st)
  | none => (.unspec, s)

section Projection

variable {τ : Type}

/-- `R'` does with the part `π` of the state what `R` does with all of it. -/
structure Projects (π : σ → τ) (R : MemberRules σ) (R' : MemberRules τ) : Prop where
  aliasType : R.aliasType = R'.aliasType
  leaf : ∀ t b s, ((R.leaf t b s).1, π (R.leaf t b s).2) = R'.leaf t b (π s)
  missing : ∀ n b s, ((R.missing n b s).1, π (R.missing n b s).2) = R'.missing n b (π s)
  matched : ∀ m s, π (R.matched m s) = R'.matched m (π s)
  unmatched : R.unmatched = R'.unmatched

def projectRun (π : σ → τ) (r : Verdict × EvalState σ) : Verdict × EvalState τ :=
  (r.1, { used := r.2.used, st := π r.2.st })

variable {π : σ → τ} {R : MemberRules σ} {R' : MemberRules τ}

theorem scanMatches_project (h : Projects π R R') {eval : Member → EvalM σ Verdict}
    {eval' : Member → EvalM τ Verdict}
    (heval : ∀ m s, (eval m s).map (projectRun π) = eval' m { used := s.used, st := π s.st })
    (ms : List Member) :
    ∀ s, (scanMatches R eval ms s).map (projectRun π) =
      scanMatches R' eval' ms { used := s.used, st := π s.st } := by
  induction ms with
  | nil =>
    intro s
    show some (R.unmatched, _) = some (R'.unmatched, _)
    rw [h.unmatched]
  | cons m ms ih =>
    intro s
    have hm := heval m s
    simp only [scanMatches]
    cases hrun : eval m s with
    | none =>
      rw [hrun] at hm
      simp only [← hm, Option.map_none]
    | some r =>
      obtain ⟨v, s₁⟩ := r
      rw [hrun] at hm
      simp only [← hm, Option.map_some, projectRun]
      by_cases hv : v.specified = true
      · rw [if_pos hv, if_pos hv, Option.map_some, ← h.matched]
        rfl
      · rw [if_neg hv, if_neg hv]
        exact ih s₁

theorem memberMatches_project (h : Projects π R R') (tree : ParseTree) (fuel : Nat) :
    ∀ m s, (memberMatches R tree fuel m s).map (projectRun π) =
      memberMatches R' tree fuel m { used := s.used, st := π s.st } := by
  induction fuel with
  | zero => exact fun _ _ => rfl
  | succ fuel ih =>
    intro m s
    by_cases hm : ∃ name, m.type = .alias name
    · obtain ⟨name, hm⟩ := hm
      rw [memberMatches_alias hm, memberMatches_alias hm, ← h.aliasType]
      simp only [aliasGet]
      cases tree.findAlias R.aliasType name with
      | none =>
        show some ((R.missing name m.negated s.st).1, _) =
          some ((R'.missing name m.negated (π s.st)).1, _)
        rw [← h.missing]
      | some a =>
        by_cases ha : a.key ∈ s.used
        · simp only [if_pos ha]
          show some ((R.missing name m.negated s.st).1, _) =
            some ((R'.missing name m.negated (π s.st)).1, _)
          rw [← h.missing]
        · simp only [if_neg ha]
          have hscan := scanMatches_project h ih a.members.reverse
            { s with used := a.key :: s.used }
          simp only at hscan
          rw [← hscan]
          cases scanMatches R (memberMatches R tree fuel) a.members.reverse
            { s with used := a.key :: s.used } with
          | none => rfl
          | some r => rfl
    · have hm' : ∀ name, m.type ≠ .alias name := fun name h => hm ⟨name, h⟩
      rw [memberMatches_leaf hm', memberMatches_leaf hm']
      show some ((R.leaf m.type m.negated s.st).1, _) =
        some ((R'.leaf m.type m.negated (π s.st)).1, _)
      rw [← h.leaf]

end Projection

theorem memberMatches_fixed {R : MemberRules σ} {s₀ : σ} (hleaf : ∀ t b, (R.leaf t b s₀).2 = s₀)
    (hmissing : ∀ n b, (R.missing n b s₀).2 = s₀) (hmatched : ∀ m, R.matched m s₀ = s₀)
    (tree : ParseTree) (fuel : Nat) :
    ∀ m s v s', s.st = s₀ → memberMatches R tree fuel m s = some (v, s') → s'.st = s₀ := by
  induction fuel with
  | zero => intro m s v s' _ h; simp [memberMatches] at h
  | succ fuel ih =>
    have hscan : ∀ ms s v s', s.st = s₀ →
        scanMatches R (memberMatches R tree fuel) ms s = some (v, s') → s'.st = s₀ := by
      intro ms
      induction ms with
      | nil =>
        intro s v s' hs h
        obtain ⟨-, rfl⟩ : R.unmatched = v ∧ s = s' := by
          simpa [scanMatches, pure, StateT.pure] using h
        exact hs
      | cons m ms ihms =>
        intro s v s' hs h
        simp only [scanMatches] at h
        cases hm : memberMatches R tree fuel m s with
        | none => simp [hm] at h
        | some r =>
          obtain ⟨w, s₁⟩ := r
          have hs₁ : s₁.st = s₀ := ih m s w s₁ hs hm
          simp only [hm] at h
          by_cases hw : w.specified = true
          · rw [if_pos hw] at h
            obtain ⟨-, rfl⟩ : w = v ∧ { s₁ with st := R.matched m s₁.st } = s' := by simpa using h
            show R.matched m s₁.st = s₀
            rw [hs₁, hmatched]
          · rw [if_neg hw] at h
            exact ihms s₁ v s' hs₁ h
    intro m s v s' hs h
    by_cases hm : ∃ name, m.type = .alias name
    · obtain ⟨name, hm⟩ := hm
      rw [memberMatches_alias hm] at h
      cases hget : aliasGet tree R.aliasType name s with
      | none => simp [hget] at h
      | some r =>
        obtain ⟨oa, s₁⟩ := r
        simp only [hget] at h
        cases oa with
        | none =>
          obtain ⟨rfl, -⟩ := aliasGet_eq_none hget
          obtain ⟨-, rfl⟩ : _ ∧ { s₁ with st := (R.missing name m.negated s₁.st).2 } = s' := by
            simpa [liftMatcher] using h
          show (R.missing name m.negated s₁.st).2 = s₀
          rw [hs, hmissing]
        | some a =>
          obtain ⟨-, -, rfl⟩ := aliasGet_eq_some hget
          cases hrun : scanMatches R (memberMatches R tree fuel) a.members.reverse
              { s with used := a.key :: s.used } with
          | none => simp [hrun] at h
          | some r =>
            obtain ⟨rc, s₂⟩ := r
            simp only [hrun, Option.some.injEq, Prod.mk.injEq] at h
            obtain ⟨-, rfl⟩ := h
            exact hscan _ { s with used := a.key :: s.used } rc s₂ hs hrun
    · have hm' : ∀ name, m.type ≠ .alias name := fun name h => hm ⟨name, h⟩
      rw [memberMatches_leaf hm'] at h
      obtain ⟨-, rfl⟩ : _ ∧ { s with st := (R.leaf m.type m.negated s.st).2 } = s' := by
        simpa [liftMatcher] using h
      show (R.leaf m.type m.negated s.st).2 = s₀
      rw [hs, hleaf]

end NextBSD.Sudoers
