import Mathlib
import NextBSD.Sudoers.Match

/-!
# Aliases replaced in place

The value of a list is the last match in it when every alias member stands for the value
of the alias's own list, negated where the member is.  The value is missing where an alias
is met again inside its own list.  The walk with the `used` marks computes it, except that
`runas_grouplist_matches` lets an alias's list fall back on the groups of the target user.
-/

namespace NextBSD.Sudoers

variable {σ : Type}

def walkValue (R : MemberRules σ) (value : Member → σ → Option (Verdict × σ)) :
    List Member → σ → Option (Verdict × σ)
  | [], s => some (.unspec, s)
  | m :: ms, s =>
    match value m s with
    | none => none
    | some (v, s') =>
      if v.specified then some (v, R.matched m s') else walkValue R value ms s'

local instance lawfulBEq_aliasKey : LawfulBEq AliasKey := inferInstance

/-- The value of a member inside the lists of the aliases of `path`. -/
def memberValue (R : MemberRules σ) (tree : ParseTree) :
    Nat → List AliasKey → Member → σ → Option (Verdict × σ)
  | 0, _, _, _ => none
  | fuel + 1, path, m, s =>
    match m.type with
    | .alias name =>
      match tree.findAlias R.aliasType name with
      | none => some (R.missing name m.negated s)
      | some a =>
        if a.key ∈ path then none
        else
          (walkValue R (memberValue R tree fuel (a.key :: path)) a.members.reverse s).map
            (fun r => (r.1.signed m.negated, r.2))
    | type => some (R.leaf type m.negated s)

def listValue (R : MemberRules σ) (tree : ParseTree) (list : List Member) (s : σ) :
    Option (Verdict × σ) :=
  walkValue R (memberValue R tree (tree.aliases.length + 1) []) list.reverse s

def namedAlias (R : MemberRules σ) (tree : ParseTree) (m : Member) : Option Alias :=
  match m.type with
  | .alias name => tree.findAlias R.aliasType name
  | _ => none

theorem namedAlias_eq_some {R : MemberRules σ} {tree : ParseTree} {m : Member} {a : Alias}
    (h : namedAlias R tree m = some a) :
    ∃ name, m.type = .alias name ∧ tree.findAlias R.aliasType name = some a := by
  unfold namedAlias at h
  split at h
  · rename_i name hm
    exact ⟨name, hm, h⟩
  · simp at h

theorem memberValue_leaf {R : MemberRules σ} {tree : ParseTree} {fuel : Nat}
    {path : List AliasKey} {m : Member} (hm : ∀ name, m.type ≠ .alias name) (s : σ) :
    memberValue R tree (fuel + 1) path m s = some (R.leaf m.type m.negated s) := by
  unfold memberValue
  split
  · rename_i name h
    exact absurd h (hm name)
  · rfl

theorem memberValue_missing {R : MemberRules σ} {tree : ParseTree} {fuel : Nat}
    {path : List AliasKey} {m : Member} {name : String} (hm : m.type = .alias name)
    (hfind : tree.findAlias R.aliasType name = none) (s : σ) :
    memberValue R tree (fuel + 1) path m s = some (R.missing name m.negated s) := by
  simp only [memberValue, hm, hfind]

theorem memberValue_alias {R : MemberRules σ} {tree : ParseTree} {fuel : Nat}
    {path : List AliasKey} {m : Member} {name : String} {a : Alias} (hm : m.type = .alias name)
    (hfind : tree.findAlias R.aliasType name = some a) {s s' : σ} {v : Verdict}
    (h : memberValue R tree (fuel + 1) path m s = some (v, s')) :
    a.key ∉ path ∧ ∃ rc, v = rc.signed m.negated ∧
      walkValue R (memberValue R tree fuel (a.key :: path)) a.members.reverse s =
        some (rc, s') := by
  simp only [memberValue, hm, hfind] at h
  by_cases hpath : a.key ∈ path
  · simp [hpath] at h
  · rw [if_neg hpath, Option.map_eq_some_iff] at h
    obtain ⟨⟨rc, s₁⟩, hwalk, hv⟩ := h
    obtain ⟨rfl, rfl⟩ : rc.signed m.negated = v ∧ s₁ = s' := by simpa using hv
    exact ⟨hpath, rc, rfl, hwalk⟩

/-! ## The walk computes the value -/

/-- The run of `x` with the aliases of `path` in use gives `r`, and marks no other. -/
def Computes {α : Type} (x : EvalM σ α) (path : List AliasKey) (s : σ) (r : α × σ) : Prop :=
  x { used := path, st := s } = some (r.1, { used := path, st := r.2 })

theorem scanMatches_computes {R : MemberRules σ} (hR : R.unmatched = .unspec)
    {eval : Member → EvalM σ Verdict} {value : Member → σ → Option (Verdict × σ)}
    {path : List AliasKey}
    (heval : ∀ m s r, value m s = some r → Computes (eval m) path s r) (ms : List Member) :
    ∀ s r, walkValue R value ms s = some r → Computes (scanMatches R eval ms) path s r := by
  induction ms with
  | nil =>
    intro s r h
    obtain rfl : (Verdict.unspec, s) = r := by simpa [walkValue] using h
    show some (R.unmatched, _) = _
    rw [hR]
  | cons m ms ih =>
    intro s r h
    simp only [walkValue] at h
    cases hm : value m s with
    | none => simp [hm] at h
    | some w =>
      obtain ⟨v, s₁⟩ := w
      have hrun : eval m { used := path, st := s } = some (v, { used := path, st := s₁ }) :=
        heval m s (v, s₁) hm
      simp only [hm] at h
      unfold Computes
      simp only [scanMatches, hrun]
      by_cases hv : v.specified = true
      · rw [if_pos hv] at h ⊢
        obtain rfl : (v, R.matched m s₁) = r := by simpa using h
        rfl
      · rw [if_neg hv] at h ⊢
        exact ih s₁ r h

theorem aliasGet_free {tree : ParseTree} {type : AliasType} {name : String} {a : Alias}
    {s : EvalState σ} (hfind : tree.findAlias type name = some a) (hfree : a.key ∉ s.used) :
    aliasGet tree type name s = some (some a, { s with used := a.key :: s.used }) := by
  simp only [aliasGet, hfind, if_neg hfree]

theorem memberMatches_computes {R : MemberRules σ} (hR : R.unmatched = .unspec)
    (tree : ParseTree) (fuel : Nat) :
    ∀ path m s r, memberValue R tree fuel path m s = some r →
      Computes (memberMatches R tree fuel m) path s r := by
  induction fuel with
  | zero => intro path m s r h; simp [memberValue] at h
  | succ fuel ih =>
    intro path m s r h
    by_cases hm : ∃ name, m.type = .alias name
    · obtain ⟨name, hm⟩ := hm
      unfold Computes
      rw [memberMatches_alias hm]
      cases hfind : tree.findAlias R.aliasType name with
      | none =>
        have hget : aliasGet tree R.aliasType name { used := path, st := s } =
            some (none, { used := path, st := s }) := by simp only [aliasGet, hfind]
        rw [memberValue_missing hm hfind] at h
        obtain rfl : R.missing name m.negated s = r := by simpa using h
        simp only [hget]
        rfl
      | some a =>
        obtain ⟨hfree, rc, hv, hwalk⟩ := memberValue_alias hm hfind h
        have hget := aliasGet_free (s := { used := path, st := s }) hfind hfree
        have hscan := scanMatches_computes hR (fun m s r => ih (a.key :: path) m s r)
          a.members.reverse s (rc, r.2) hwalk
        unfold Computes at hscan
        simp only [hget, hscan, hv, filter_marked hfree]
    · have hm' : ∀ name, m.type ≠ .alias name := fun name h => hm ⟨name, h⟩
      rw [memberValue_leaf hm'] at h
      obtain rfl : R.leaf m.type m.negated s = r := by simpa using h
      rw [memberMatches_leaf hm']
      rfl

theorem listMatches_computes {R : MemberRules σ} (hR : R.unmatched = .unspec)
    {tree : ParseTree} {list : List Member} {s : σ} {r : Verdict × σ}
    (h : listValue R tree list s = some r) : Computes (listMatches R tree list) [] s r :=
  scanMatches_computes hR (memberMatches_computes hR tree _ []) _ s r h

/-! ## A fallback inside the lists of aliases

`R.unmatched` is what the source gives for any list that matches nothing, an alias's list
included, where the value of such an alias is left unspecified.  This section says when
that makes no difference.  The rules have no state of their own. -/

/-- What the fallback makes of a list in which nothing matches: its last alias is walked,
and so on down, and each `!` on the way turns the fallback round. -/
def fallbackVerdict (R : MemberRules Unit) (tree : ParseTree) : Nat → List Member → Verdict
  | 0, _ => R.unmatched
  | fuel + 1, ms =>
    match ms.findSome? (fun m => (namedAlias R tree m).map (fun a => (m, a))) with
    | none => R.unmatched
    | some (m, a) => (fallbackVerdict R tree fuel a.members.reverse).signed m.negated

/-- The walk of `ms` with `inner` said of the list of an alias that decides.  An alias that
the walk passes, since nothing in its list matches, has to come out of the fallback with
the verdict of the rest of the list. -/
def scanAgrees (R : MemberRules Unit) (tree : ParseTree) (fuel : Nat) (path : List AliasKey)
    (inner : Alias → Prop) : List Member → Prop
  | [] => True
  | m :: ms =>
    match memberValue R tree (fuel + 1) path m (), namedAlias R tree m with
    | none, _ => True
    | some (v, _), none => v.specified = true ∨ scanAgrees R tree fuel path inner ms
    | some (v, _), some a =>
      if v.specified then inner a
      else
        match walkValue R (memberValue R tree (fuel + 1) path) ms () with
        | none => True
        | some (w, _) =>
          (fallbackVerdict R tree fuel a.members.reverse).signed m.negated = w.orElse R.unmatched

def walkAgrees (R : MemberRules Unit) (tree : ParseTree) : Nat → List AliasKey → List Member → Prop
  | 0, _, _ => True
  | fuel + 1, path, ms =>
    scanAgrees R tree fuel path
      (fun a => walkAgrees R tree fuel (a.key :: path) a.members.reverse) ms

/-- The fallback makes no difference inside the aliases of `list`. -/
def FallbackAgrees (R : MemberRules Unit) (tree : ParseTree) (list : List Member) : Prop :=
  walkAgrees R tree (tree.aliases.length + 1) [] list.reverse

variable {R : MemberRules Unit} {tree : ParseTree}

theorem fallbackVerdict_specified (hR : R.unmatched.specified = true) (fuel : Nat) :
    ∀ ms, (fallbackVerdict R tree fuel ms).specified = true := by
  induction fuel with
  | zero => exact fun _ => hR
  | succ fuel ih =>
    intro ms
    unfold fallbackVerdict
    split
    · exact hR
    · rw [Verdict.specified_signed]
      exact ih _

theorem fallbackVerdict_cons_none {fuel : Nat} {m : Member} {ms : List Member}
    (hm : namedAlias R tree m = none) :
    fallbackVerdict R tree (fuel + 1) (m :: ms) = fallbackVerdict R tree (fuel + 1) ms := by
  unfold fallbackVerdict
  rw [List.findSome?_cons, hm]
  rfl

theorem fallbackVerdict_cons_some {fuel : Nat} {m : Member} {ms : List Member} {a : Alias}
    (hm : namedAlias R tree m = some a) :
    fallbackVerdict R tree (fuel + 1) (m :: ms) =
      (fallbackVerdict R tree fuel a.members.reverse).signed m.negated := by
  show (match (m :: ms).findSome? (fun m => (namedAlias R tree m).map (fun a => (m, a))) with
    | none => R.unmatched
    | some (m, a) => (fallbackVerdict R tree fuel a.members.reverse).signed m.negated) = _
  rw [List.findSome?_cons, hm]
  rfl

theorem memberMatches_of_namedAlias_none {fuel : Nat} {path : List AliasKey} {m : Member}
    (hm : namedAlias R tree m = none) {v : Verdict} {u : Unit}
    (h : memberValue R tree (fuel + 1) path m () = some (v, u)) :
    memberMatches R tree (fuel + 1) m { used := path, st := () } =
      some (v, { used := path, st := () }) := by
  by_cases halias : ∃ name, m.type = .alias name
  · obtain ⟨name, hname⟩ := halias
    have hfind : tree.findAlias R.aliasType name = none := by
      simpa only [namedAlias, hname] using hm
    have hget : aliasGet tree R.aliasType name { used := path, st := () } =
        some (none, { used := path, st := () }) := by simp only [aliasGet, hfind]
    rw [memberValue_missing hname hfind, Option.some.injEq] at h
    rw [memberMatches_alias hname, hget]
    show some ((R.missing name m.negated ()).1, _) = _
    rw [h]
  · have hm' : ∀ name, m.type ≠ .alias name := fun name h => halias ⟨name, h⟩
    rw [memberValue_leaf hm', Option.some.injEq] at h
    rw [memberMatches_leaf hm']
    show some ((R.leaf m.type m.negated ()).1, _) = _
    rw [h]

theorem memberMatches_of_namedAlias_some {fuel : Nat} {path : List AliasKey} {m : Member}
    {a : Alias} (hm : namedAlias R tree m = some a) (hfree : a.key ∉ path) {c : Verdict}
    (h : scanMatches R (memberMatches R tree fuel) a.members.reverse
      { used := a.key :: path, st := () } = some (c, { used := a.key :: path, st := () })) :
    memberMatches R tree (fuel + 1) m { used := path, st := () } =
      some (c.signed m.negated, { used := path, st := () }) := by
  obtain ⟨name, hname, hfind⟩ := namedAlias_eq_some hm
  have hget := aliasGet_free (s := { used := path, st := () }) hfind hfree
  rw [memberMatches_alias hname]
  simp only [hget, h, filter_marked hfree]

theorem scanMatches_stop {eval : Member → EvalM Unit Verdict} {m : Member} {ms : List Member}
    {path : List AliasKey} {c : Verdict}
    (h : eval m { used := path, st := () } = some (c, { used := path, st := () }))
    (hc : c.specified = true) :
    scanMatches R eval (m :: ms) { used := path, st := () } =
      some (c, { used := path, st := () }) := by
  simp only [scanMatches, h, if_pos hc]

theorem scanMatches_pass {eval : Member → EvalM Unit Verdict} {m : Member} {ms : List Member}
    {path : List AliasKey}
    (h : eval m { used := path, st := () } = some (.unspec, { used := path, st := () })) :
    scanMatches R eval (m :: ms) { used := path, st := () } =
      scanMatches R eval ms { used := path, st := () } := by
  simp only [scanMatches, h]
  rfl

theorem walkValue_pass {value : Member → Unit → Option (Verdict × Unit)} {m : Member}
    {ms : List Member} {u : Unit} (h : value m () = some (.unspec, u)) :
    walkValue R value (m :: ms) () = walkValue R value ms () := by
  simp only [walkValue, h]
  rfl

theorem walkValue_stop {value : Member → Unit → Option (Verdict × Unit)} {m : Member}
    {ms : List Member} {u : Unit} {v : Verdict} (h : value m () = some (v, u))
    (hv : v.specified = true) : walkValue R value (m :: ms) () = some (v, ()) := by
  simp only [walkValue, h, if_pos hv]

theorem scanMatches_fallback (hR : R.unmatched.specified = true) (fuel : Nat) :
    ∀ path ms u, walkValue R (memberValue R tree fuel path) ms () = some (.unspec, u) →
      scanMatches R (memberMatches R tree fuel) ms { used := path, st := () } =
        some (fallbackVerdict R tree fuel ms, { used := path, st := () }) := by
  induction fuel with
  | zero =>
    intro path ms u h
    cases ms with
    | nil => rfl
    | cons m ms => simp [walkValue, memberValue] at h
  | succ fuel ih =>
    intro path ms
    induction ms with
    | nil => exact fun _ _ => rfl
    | cons m ms ihms =>
      intro u h
      cases hval : memberValue R tree (fuel + 1) path m () with
      | none => simp [walkValue, hval] at h
      | some r =>
        obtain ⟨v, w⟩ := r
        by_cases hv : v.specified = true
        · rw [walkValue_stop hval hv] at h
          obtain rfl : v = .unspec := by simpa using h
          exact absurd hv (by decide)
        · obtain rfl : v = .unspec := Verdict.not_specified.mp (by simpa using hv)
          rw [walkValue_pass hval] at h
          cases hm : namedAlias R tree m with
          | none =>
            rw [scanMatches_pass (memberMatches_of_namedAlias_none hm hval), ihms u h,
              fallbackVerdict_cons_none hm]
          | some a =>
            obtain ⟨name, hname, hfind⟩ := namedAlias_eq_some hm
            obtain ⟨hfree, rc, hrc, hwalk⟩ := memberValue_alias hname hfind hval
            obtain rfl : rc = .unspec :=
              @Verdict.signed_injective m.negated rc .unspec (by rw [← hrc]; rfl)
            have hrun := memberMatches_of_namedAlias_some hm hfree
              (ih (a.key :: path) a.members.reverse w hwalk)
            have hspec : ((fallbackVerdict R tree fuel a.members.reverse).signed
                m.negated).specified = true := by
              rw [Verdict.specified_signed]
              exact fallbackVerdict_specified hR fuel _
            rw [scanMatches_stop hrun hspec, fallbackVerdict_cons_some hm]

/-- The walk gives the value of the list with the fallback at its end exactly when the
fallback agrees inside the aliases. -/
theorem scanMatches_eq_iff (hR : R.unmatched.specified = true) (fuel : Nat) :
    ∀ path ms v u, walkValue R (memberValue R tree fuel path) ms () = some (v, u) →
      ∃ c, scanMatches R (memberMatches R tree fuel) ms { used := path, st := () } =
          some (c, { used := path, st := () }) ∧
        (c = v.orElse R.unmatched ↔ walkAgrees R tree fuel path ms) ∧ c.specified = true := by
  induction fuel with
  | zero =>
    intro path ms v u h
    cases ms with
    | nil =>
      obtain rfl : Verdict.unspec = v := by simpa [walkValue] using h
      exact ⟨R.unmatched, rfl, by simp [walkAgrees], hR⟩
    | cons m ms => simp [walkValue, memberValue] at h
  | succ fuel ih =>
    intro path ms
    induction ms with
    | nil =>
      intro v u h
      obtain rfl : Verdict.unspec = v := by simpa [walkValue] using h
      exact ⟨R.unmatched, rfl, by simp [walkAgrees, scanAgrees], hR⟩
    | cons m ms ihms =>
      intro v u h
      cases hval : memberValue R tree (fuel + 1) path m () with
      | none => simp [walkValue, hval] at h
      | some r =>
        obtain ⟨vm, w⟩ := r
        cases hm : namedAlias R tree m with
        | none =>
          have hrun := memberMatches_of_namedAlias_none hm hval
          have hagree : walkAgrees R tree (fuel + 1) path (m :: ms) ↔
              vm.specified = true ∨ walkAgrees R tree (fuel + 1) path ms := by
            simp only [walkAgrees, scanAgrees, hval, hm]
          by_cases hv : vm.specified = true
          · rw [walkValue_stop hval hv] at h
            obtain rfl : vm = v := by simpa using h
            refine ⟨vm, scanMatches_stop hrun hv, ?_, hv⟩
            rw [hagree, Verdict.orElse_of_specified hv]
            exact ⟨fun _ => Or.inl hv, fun _ => rfl⟩
          · obtain rfl : vm = .unspec := Verdict.not_specified.mp (by simpa using hv)
            rw [walkValue_pass hval] at h
            obtain ⟨c, hc, hiff, hspec⟩ := ihms v u h
            refine ⟨c, by rw [scanMatches_pass hrun, hc], ?_, hspec⟩
            rw [hagree, hiff]
            exact ⟨Or.inr, fun h => h.resolve_left hv⟩
        | some a =>
          obtain ⟨name, hname, hfind⟩ := namedAlias_eq_some hm
          obtain ⟨hfree, rc, hrc, hwalk⟩ := memberValue_alias hname hfind hval
          by_cases hv : vm.specified = true
          · -- The alias decides, here as in its own list.
            have hagree : walkAgrees R tree (fuel + 1) path (m :: ms) ↔
                walkAgrees R tree fuel (a.key :: path) a.members.reverse := by
              simp only [walkAgrees, scanAgrees, hval, hm, hv, if_true]
            have hrcs : rc.specified = true := by
              rw [hrc, Verdict.specified_signed] at hv
              exact hv
            obtain ⟨c, hc, hiff, hspec⟩ := ih (a.key :: path) a.members.reverse rc w hwalk
            rw [Verdict.orElse_of_specified hrcs] at hiff
            have hrun := memberMatches_of_namedAlias_some hm hfree hc
            have hcs : (c.signed m.negated).specified = true := by
              rw [Verdict.specified_signed]
              exact hspec
            rw [walkValue_stop hval hv] at h
            obtain rfl : vm = v := by simpa using h
            refine ⟨c.signed m.negated, scanMatches_stop hrun hcs, ?_, hcs⟩
            rw [hagree, ← hiff, Verdict.orElse_of_specified hv, hrc]
            exact ⟨Verdict.signed_injective, fun e => by rw [e]⟩
          · -- The alias says nothing, but its list falls back.
            obtain rfl : vm = .unspec := Verdict.not_specified.mp (by simpa using hv)
            obtain rfl : rc = .unspec :=
              @Verdict.signed_injective m.negated rc .unspec (by rw [← hrc]; rfl)
            have hrun := memberMatches_of_namedAlias_some hm hfree
              (scanMatches_fallback hR fuel (a.key :: path) a.members.reverse w hwalk)
            have hcs : ((fallbackVerdict R tree fuel a.members.reverse).signed
                m.negated).specified = true := by
              rw [Verdict.specified_signed]
              exact fallbackVerdict_specified hR fuel _
            rw [walkValue_pass hval] at h
            have hagree : walkAgrees R tree (fuel + 1) path (m :: ms) ↔
                (fallbackVerdict R tree fuel a.members.reverse).signed m.negated =
                  v.orElse R.unmatched := by
              simp only [walkAgrees, scanAgrees, hval, hm, Verdict.specified_unspec,
                Bool.false_eq_true, if_false, h]
            exact ⟨_, scanMatches_stop hrun hcs, hagree.symm, hcs⟩

/-- A walk of any list ends with the marks clear, and gives the list the value that it has
with its aliases replaced. -/
structure Transparent (eval : List Member → EvalM σ Verdict) (R : MemberRules σ)
    (tree : ParseTree) : Prop where
  ends : ∀ list s, ∃ v s', eval list { used := [], st := s } = some (v, { used := [], st := s' })
  value : ∀ list s v s', listValue R tree list s = some (v, s') →
    eval list { used := [], st := s } = some (v, { used := [], st := s' })

theorem listMatches_ends (R : MemberRules σ) (tree : ParseTree) (list : List Member) (s : σ) :
    ∃ v s', listMatches R tree list { used := [], st := s } =
      some (v, { used := [], st := s' }) := by
  obtain ⟨⟨v, t⟩, h⟩ := listMatches_isSome R tree list { used := [], st := s }
  have hused : t.used = [] := listMatches_keepsMarks R tree list _ v t h
  refine ⟨v, t.st, ?_⟩
  rw [h, ← hused]

theorem listMatches_transparent {R : MemberRules σ} (hR : R.unmatched = .unspec)
    (tree : ParseTree) : Transparent (listMatches R tree) R tree where
  ends := listMatches_ends R tree
  value := fun _ _ _ _ h => listMatches_computes hR h

theorem listMatches_eq_iff {R : MemberRules Unit} {tree : ParseTree} {list : List Member}
    {v : Verdict} {u : Unit} (h : listValue R tree list () = some (v, u)) :
    listMatches R tree list { used := [], st := () } =
        some (v.orElse R.unmatched, { used := [], st := () }) ↔
      R.unmatched = .unspec ∨ FallbackAgrees R tree list := by
  by_cases hR : R.unmatched = .unspec
  · have hrun := listMatches_computes hR h
    unfold Computes at hrun
    rw [hrun, hR, Verdict.orElse_unspec_right]
    exact ⟨fun _ => Or.inl rfl, fun _ => rfl⟩
  · obtain ⟨c, hc, hiff, -⟩ := scanMatches_eq_iff (Verdict.specified_iff.mpr hR)
      (tree.aliases.length + 1) [] list.reverse v u h
    have hrun : listMatches R tree list { used := [], st := () } =
        some (c, { used := [], st := () }) := hc
    rw [hrun]
    constructor
    · intro heq
      refine Or.inr (hiff.mp ?_)
      simpa using heq
    · intro hor
      rw [hiff.mpr (hor.resolve_left hR)]

/-- Every evaluator but that of run-as groups is transparent.  That one walks every list to
its end too, and its verdict is the value of the list, or else the fallback, exactly where
the fallback agrees inside the aliases. -/
theorem aliases_transparent (env : MatchEnv) (ctx : SudoersContext) (tree : ParseTree) :
    (∀ pw, Transparent (userlistMatches env ctx tree pw) (userRules env ctx tree pw) tree) ∧
    Transparent (runasUserlistMatches env ctx tree) (runasUserRules env ctx tree) tree ∧
    (∀ pw, Transparent (hostlistMatches env ctx tree pw)
      (hostRules env pw (lhostOf ctx tree) (shostOf ctx tree)) tree) ∧
    (∀ commandMatches : SudoCommand → σ → Bool × σ,
      Transparent (cmndlistMatches commandMatches tree) (cmndRules commandMatches) tree ∧
      Transparent (cmndlistMatchesAll commandMatches tree) (cmndAllRules commandMatches) tree) ∧
    ∀ gr list,
      (∃ v, runasGrouplistMatches env ctx tree gr list { used := [], st := () } =
        some (v, { used := [], st := () })) ∧
      ∀ v u, listValue (runasGroupRules env ctx gr) tree list () = some (v, u) →
        (runasGrouplistMatches env ctx tree gr list { used := [], st := () } =
            some (v.orElse (if runasGroupMember env ctx gr then .allow else .unspec),
              { used := [], st := () }) ↔
          runasGroupMember env ctx gr = false ∨
            FallbackAgrees (runasGroupRules env ctx gr) tree list) := by
  refine ⟨fun pw => listMatches_transparent rfl tree, listMatches_transparent rfl tree,
    fun pw => listMatches_transparent rfl tree,
    fun cm => ⟨listMatches_transparent rfl tree, listMatches_transparent rfl tree⟩,
    fun gr list => ⟨?_, fun v u h => ?_⟩⟩
  · obtain ⟨v, u, h⟩ := listMatches_ends (runasGroupRules env ctx gr) tree list ()
    exact ⟨v, h⟩
  · have hiff := listMatches_eq_iff h
    have hfall : (runasGroupRules env ctx gr).unmatched = .unspec ↔
        runasGroupMember env ctx gr = false := by
      show (if runasGroupMember env ctx gr then Verdict.allow else .unspec) = .unspec ↔ _
      cases runasGroupMember env ctx gr <;> simp
    rw [hfall] at hiff
    exact hiff

/-! `Runas_Alias OPS = wheel` and the run-as group list `!OPS`, for a target user whose own
group is asked for.  With `!wheel` in its place the group is allowed. -/

def quietEnv : MatchEnv where
  innetgr := fun _ _ _ => false
  userInGroup := fun _ _ => false
  groupPluginQuery := fun _ _ _ => false
  addrMatches := fun _ => false
  fnmatchCasefold := fun _ _ => false
  strtoid := fun _ => none
  gidlist := fun pw => some [pw.gid]
  useNetgroups := true
  netgroupTuple := false
  groupPlugin := false
  alwaysQueryGroupPlugin := false
  caseInsensitiveUser := true
  caseInsensitiveGroup := false
  preserveGroups := false
  runasDefault := "root"

def asOperator : SudoersContext where
  user := { pw := { name := "ann", uid := 1001, gid := 1001 }, name := "ann", gidList := [1001],
            path := some "/bin:/usr/bin", cmnd := some "/bin/ls", cmndArgs := none,
            cmndBase := "ls", cmndDir := some "/bin", cmndList := none,
            cmndStat := some { dev := 1, ino := 7 } }
  runas := { pw := { name := "operator", uid := 2, gid := 5 },
             gr := some { name := "operator", gid := 5 }, chroot := none, host := "host.example",
             shost := "host", argv := ["ls"] }
  runasUserSpecified := true
  runasGroupSpecified := true
  modeCheck := false

def opsTree : ParseTree where
  userspecs := []
  defaults := []
  aliases := [{ name := "OPS", type := .runas, members := [{ type := .word "wheel", negated := false }] }]
  shost := none
  lhost := none

/-- The list of the negated alias matches nothing, and yet it denies the group. -/
theorem not_aliases_transparent_negatedAlias :
    ¬ ∀ list v u, listValue (runasGroupRules quietEnv asOperator { name := "operator", gid := 5 })
        opsTree list () = some (v, u) →
      runasGrouplistMatches quietEnv asOperator opsTree { name := "operator", gid := 5 } list
          { used := [], st := () } =
        some (v.orElse .allow, { used := [], st := () }) := by
  intro h
  have hvalue : listValue (runasGroupRules quietEnv asOperator { name := "operator", gid := 5 })
      opsTree [{ type := .alias "OPS", negated := true }] () = some (.unspec, ()) := by decide
  have hcode : (runasGrouplistMatches quietEnv asOperator opsTree
      { name := "operator", gid := 5 } [{ type := .alias "OPS", negated := true }]
      { used := [], st := () }).map Prod.fst = some .deny := by decide
  rw [h _ _ _ hvalue] at hcode
  exact absurd hcode (by decide)

end NextBSD.Sudoers
