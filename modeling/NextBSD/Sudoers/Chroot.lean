import NextBSD.Sudoers.MatchCommand
import NextBSD.Sudoers.Expansion

/-!
# One rule after another

`command_matches` leaves the request as it found it unless the rule has a root of its own.
Then it puts `cmnd` and `cmnd_stat` back after a command that was found, and `cmnd_dir` and
`cmnd_list` never.
-/

namespace NextBSD.Sudoers

variable (env : CommandEnv)

/-- What `set_cmnd_path` writes under the root is what the request had, in the fields that
`command_matches` does not put back. -/
def Restores (ctx : SudoersContext) (runchroot : Option String) : Prop :=
  match ctx.runas.chroot, runchroot with
  | none, some root =>
    let fresh := (setCmndPath env ctx root).2.user
    fresh.cmndDir = ctx.user.cmndDir ∧ fresh.cmndList = ctx.user.cmndList ∧
      (((setCmndPath env ctx root).1 ≠ .found ∨ ctx.user.cmnd = none) →
        fresh.cmndStat = ctx.user.cmndStat) ∧
      ((setCmndPath env ctx root).1 = .found → ctx.user.cmnd = none → fresh.cmnd = none)
  | _, _ => True

instance (ctx : SudoersContext) (runchroot : Option String) :
    Decidable (Restores env ctx runchroot) := by
  unfold Restores
  split
  · infer_instance
  · infer_instance

/-- A command of the policy and the `CHROOT=` of its rule. -/
structure Rule where
  runchroot : Option String
  cmnd : SudoCommand
  deriving DecidableEq, Repr

/-- The answers to a list of rules, one after another, with the request after each. -/
def evaluate : List Rule → SudoersContext × Option CmndInfo → List (Bool × SudoersContext)
  | [], _ => []
  | r :: rules, s =>
    ((commandMatches env r.runchroot r.cmnd s).1, (commandMatches env r.runchroot r.cmnd s).2.1) ::
      evaluate rules (commandMatches env r.runchroot r.cmnd s).2

def answerAlone (ctx : SudoersContext) (r : Rule) : Bool :=
  (commandMatches env r.runchroot r.cmnd (ctx, none)).1

variable {env}

theorem commandMatches_plain {runchroot : Option String} {c : SudoCommand}
    {s : SudoersContext × Option CmndInfo} (h : s.1.runas.chroot ≠ none ∨ runchroot = none) :
    (commandMatches env runchroot c s).2 = s := by
  unfold commandMatches
  cases hroot : s.1.runas.chroot with
  | some root =>
    show (if _ then (false, s) else (_, s)).2 = s
    split
    · rfl
    · rfl
  | none =>
    obtain rfl : runchroot = none := h.resolve_left (fun hne => hne hroot)
    rfl

theorem commandMatches_ownRoot {ruleRoot : String} {c : SudoCommand}
    {s : SudoersContext × Option CmndInfo} (h : s.1.runas.chroot = none) :
    commandMatches env (some ruleRoot) c s = commandMatchesOwnRoot env ruleRoot c s := by
  simp only [commandMatches, h]

theorem commandMatches_info (runchroot : Option String) (c : SudoCommand) (ctx : SudoersContext)
    (info : Option CmndInfo) :
    (commandMatches env runchroot c (ctx, info)).1 =
        (commandMatches env runchroot c (ctx, none)).1 ∧
      (commandMatches env runchroot c (ctx, info)).2.1 =
        (commandMatches env runchroot c (ctx, none)).2.1 := by
  simp only [commandMatches]
  cases ctx.runas.chroot with
  | some root =>
    by_cases hroot : runchroot.any (fun ruleRoot => ruleRoot ≠ "*" ∧ ruleRoot ≠ root) = true
    · simp only [if_pos hroot, and_self]
    · simp only [if_neg hroot, and_self]
  | none =>
    cases runchroot with
    | none => exact ⟨rfl, rfl⟩
    | some ruleRoot =>
      show (commandMatchesOwnRoot env ruleRoot c (ctx, info)).1 = _ ∧ _
      unfold commandMatchesOwnRoot
      by_cases hfound : (setCmndPath env ctx ruleRoot).1 = .found
      · cases hcmnd : ctx.user.cmnd with
        | none => simp only [if_pos hfound, hcmnd, and_self]
        | some cmnd => simp only [if_pos hfound, hcmnd, and_self]
      · simp only [if_neg hfound, and_self]

theorem setCmndPath_eq_iff (env : CommandEnv) (ctx : SudoersContext) (root : String)
    (cmnd : Option String) (st : Option Stat) :
    { (setCmndPath env ctx root).2 with
        user := { (setCmndPath env ctx root).2.user with cmnd := cmnd, cmndStat := st } } = ctx ↔
      cmnd = ctx.user.cmnd ∧ st = ctx.user.cmndStat ∧
        (setCmndPath env ctx root).2.user.cmndDir = ctx.user.cmndDir ∧
        (setCmndPath env ctx root).2.user.cmndList = ctx.user.cmndList := by
  constructor
  · intro h
    exact ⟨congrArg (fun c => c.user.cmnd) h, congrArg (fun c => c.user.cmndStat) h,
      congrArg (fun c => c.user.cmndDir) h, congrArg (fun c => c.user.cmndList) h⟩
  · rintro ⟨hcmnd, hst, hdir, hlist⟩
    rw [hcmnd, hst]
    obtain ⟨user, runas, f, g, check⟩ := ctx
    simp only [setCmndPath] at hdir hlist ⊢
    rw [hdir, hlist]

theorem commandMatches_frame_iff (runchroot : Option String) (c : SudoCommand)
    (ctx : SudoersContext) (info : Option CmndInfo) :
    (commandMatches env runchroot c (ctx, info)).2.1 = ctx ↔ Restores env ctx runchroot := by
  by_cases hplain : ctx.runas.chroot ≠ none ∨ runchroot = none
  · rw [commandMatches_plain (s := (ctx, info)) hplain]
    have hrestores : Restores env ctx runchroot := by
      unfold Restores
      split
      · rename_i hroot
        rcases hplain with h | h
        · exact absurd hroot h
        · cases h
      · trivial
    exact ⟨fun _ => hrestores, fun _ => rfl⟩
  · have hroot : ctx.runas.chroot = none := by
      by_contra h
      exact hplain (Or.inl h)
    obtain ⟨ruleRoot, rfl⟩ : ∃ ruleRoot, runchroot = some ruleRoot := by
      cases runchroot with
      | none => exact absurd (Or.inr rfl) hplain
      | some ruleRoot => exact ⟨ruleRoot, rfl⟩
    rw [commandMatches_ownRoot (s := (ctx, info)) hroot]
    unfold commandMatchesOwnRoot Restores
    simp only [hroot]
    by_cases hfound : (setCmndPath env ctx ruleRoot).1 = .found
    · cases hcmnd : ctx.user.cmnd with
      | none =>
        have h := setCmndPath_eq_iff env ctx ruleRoot (setCmndPath env ctx ruleRoot).2.user.cmnd
          (setCmndPath env ctx ruleRoot).2.user.cmndStat
        rw [hcmnd] at h
        simp only [if_pos hfound]
        refine h.trans ⟨?_, ?_⟩
        · rintro ⟨hc, hst, hdir, hlist⟩
          exact ⟨hdir, hlist, fun _ => hst, fun _ _ => hc⟩
        · rintro ⟨hdir, hlist, hst, hc⟩
          exact ⟨hc hfound trivial, hst (Or.inr trivial), hdir, hlist⟩
      | some cmnd =>
        have h := setCmndPath_eq_iff env ctx ruleRoot (some cmnd) ctx.user.cmndStat
        rw [hcmnd] at h
        simp only [if_pos hfound]
        refine h.trans ⟨?_, ?_⟩
        · rintro ⟨-, -, hdir, hlist⟩
          exact ⟨hdir, hlist, fun hor => by simp [hfound] at hor, fun _ hn => by simp at hn⟩
        · rintro ⟨hdir, hlist, -, -⟩
          exact ⟨rfl, rfl, hdir, hlist⟩
    · have h := setCmndPath_eq_iff env ctx ruleRoot ctx.user.cmnd
        (setCmndPath env ctx ruleRoot).2.user.cmndStat
      simp only [if_neg hfound]
      refine h.trans ⟨?_, ?_⟩
      · rintro ⟨-, hst, hdir, hlist⟩
        exact ⟨hdir, hlist, fun _ => hst, fun hf => absurd hf hfound⟩
      · rintro ⟨hdir, hlist, hst, -⟩
        exact ⟨rfl, hst (Or.inl hfound), hdir, hlist⟩

/-- The request stays what it was, and every answer is the one given alone, exactly when
every rule restores the request. -/
theorem evaluate_undisturbed_iff (rules : List Rule) (ctx : SudoersContext)
    (info : Option CmndInfo) :
    evaluate env rules (ctx, info) = rules.map (fun r => (answerAlone env ctx r, ctx)) ↔
      ∀ r ∈ rules, Restores env ctx r.runchroot := by
  induction rules generalizing info with
  | nil => simp [evaluate]
  | cons r rules ih =>
    have hframe := @commandMatches_frame_iff env r.runchroot r.cmnd ctx info
    rw [List.forall_mem_cons, List.map_cons, evaluate, List.cons.injEq, Prod.mk.injEq, hframe]
    constructor
    · rintro ⟨⟨-, hr⟩, hrest⟩
      refine ⟨hr, (ih (commandMatches env r.runchroot r.cmnd (ctx, info)).2.2).mp ?_⟩
      rw [← hrest]
      congr 1
      exact Prod.ext (hframe.mpr hr).symm rfl
    · rintro ⟨hr, hrest⟩
      refine ⟨⟨(commandMatches_info r.runchroot r.cmnd ctx info).1, hr⟩, ?_⟩
      rw [← (ih (commandMatches env r.runchroot r.cmnd (ctx, info)).2.2).mpr hrest]
      congr 1
      exact Prod.ext (hframe.mpr hr) rfl

/-! A jail in which `ls` is found in `/usr/bin`.  The rule for the jail matches nothing, and
the rule for `/bin/ls` that comes after it is lost. -/

def jailEnv : CommandEnv where
  pathMax := 1024
  runchroot := none
  securePath := none
  fdexecAlways := false
  fastGlob := false
  resolveCmnd := fun cmnd _ _ =>
    { status := .found, outfile := "/usr/bin/" ++ cmnd, lastStat := some { dev := 9, ino := 9 } }
  canonPath := some
  openFile := fun _ _ => true
  statFile := fun _ => some { dev := 1, ino := 7 }
  digestMatches := fun _ _ _ => true
  fnmatch := fun _ _ => false
  fnmatchPathname := fun _ _ => false
  regexMatches := fun _ _ => false
  glob := fun _ => []

def jailRule : Rule where
  runchroot := some "/jail"
  cmnd := { cmnd := some "/sbin/reboot", args := none, digests := [] }

def lsRule : Rule where
  runchroot := none
  cmnd := { cmnd := some "/bin/ls", args := none, digests := [] }

/-- Alone the second rule matches, after the first it does not. -/
theorem not_evaluate_undisturbed_jail :
    evaluate jailEnv [jailRule, lsRule] (asOperator, none) ≠
        [jailRule, lsRule].map (fun r => (answerAlone jailEnv asOperator r, asOperator)) ∧
      answerAlone jailEnv asOperator lsRule = true ∧
      (evaluate jailEnv [jailRule, lsRule] (asOperator, none)).map Prod.fst = [false, false] := by
  decide

end NextBSD.Sudoers
