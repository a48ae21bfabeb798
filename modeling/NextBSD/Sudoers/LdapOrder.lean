import NextBSD.Sudoers.LdapUtil
import NextBSD.Sudoers.Lookup

/-!
# The order of a role's values

The values of an LDAP attribute come in no order.  `sudo_ldap_role_to_priv` puts the negated ones
behind the others, so that a negated value that matches decides the walk from the end.
-/

namespace NextBSD.Sudoers

/-! ## The request between two commands of a role -/

section Request

variable (cenv : CommandEnv)

/-- The request after a command has been tested for a rule with a root of its own. -/
def afterOwnRoot (ruleRoot : String) (ctx : SudoersContext) : SudoersContext :=
  let fresh := (setCmndPath cenv ctx ruleRoot).2
  if (setCmndPath cenv ctx ruleRoot).1 = .found then
    match ctx.user.cmnd with
    | none => fresh
    | some cmnd =>
      { fresh with user := { fresh.user with cmnd := some cmnd, cmndStat := ctx.user.cmndStat } }
  else { fresh with user := { fresh.user with cmnd := ctx.user.cmnd } }

def afterTest (runchroot : Option String) (ctx : SudoersContext) : SudoersContext :=
  match ctx.runas.chroot, runchroot with
  | none, some ruleRoot => afterOwnRoot cenv ruleRoot ctx
  | _, _ => ctx

def testsTrue (runchroot : Option String) (ctx : SudoersContext) (c : SudoCommand) : Bool :=
  (commandMatches cenv runchroot c (ctx, none)).1

variable {cenv}

theorem commandMatchesOwnRoot_ctx (ruleRoot : String) (c : SudoCommand) (ctx : SudoersContext)
    (info : Option CmndInfo) :
    (commandMatchesOwnRoot cenv ruleRoot c (ctx, info)).2.1 = afterOwnRoot cenv ruleRoot ctx := by
  unfold commandMatchesOwnRoot afterOwnRoot
  dsimp only
  split
  · cases ctx.user.cmnd <;> rfl
  · rfl

theorem setCmndPath_congr {ctx ctx' : SudoersContext} {ruleRoot : String}
    {cmnd cmndList cmndDir : Option String} {cmndStat : Option Stat}
    (hctx : ctx' = { ctx with user :=
      { ctx.user with
        cmnd := cmnd, cmndList := cmndList, cmndDir := cmndDir, cmndStat := cmndStat } })
    (hstat : cmndStat.map (fun own => (resolveUnder cenv ctx ruleRoot).lastStat.getD own) =
      ctx.user.cmndStat.map (fun own => (resolveUnder cenv ctx ruleRoot).lastStat.getD own)) :
    setCmndPath cenv ctx' ruleRoot = setCmndPath cenv ctx ruleRoot := by
  subst hctx
  have hresolve : resolveUnder cenv
      { ctx with user :=
        { ctx.user with
          cmnd := cmnd, cmndList := cmndList, cmndDir := cmndDir, cmndStat := cmndStat } }
      ruleRoot = resolveUnder cenv ctx ruleRoot := rfl
  unfold setCmndPath
  rw [hresolve]
  dsimp only
  rw [hstat]

theorem setCmndPath_afterOwnRoot (ruleRoot : String) (ctx : SudoersContext) :
    setCmndPath cenv (afterOwnRoot cenv ruleRoot ctx) ruleRoot = setCmndPath cenv ctx ruleRoot := by
  have htwice : (ctx.user.cmndStat.map
      (fun own => (resolveUnder cenv ctx ruleRoot).lastStat.getD own)).map
        (fun own => (resolveUnder cenv ctx ruleRoot).lastStat.getD own) =
      ctx.user.cmndStat.map (fun own => (resolveUnder cenv ctx ruleRoot).lastStat.getD own) := by
    cases ctx.user.cmndStat with
    | none => rfl
    | some own => cases (resolveUnder cenv ctx ruleRoot).lastStat <;> rfl
  unfold afterOwnRoot
  dsimp only
  split
  · cases ctx.user.cmnd with
    | none => exact setCmndPath_congr rfl htwice
    | some cmnd => exact setCmndPath_congr rfl rfl
  · exact setCmndPath_congr rfl htwice

theorem commandMatchesOwnRoot_again (ruleRoot : String) (c : SudoCommand) (ctx : SudoersContext) :
    (commandMatchesOwnRoot cenv ruleRoot c (afterOwnRoot cenv ruleRoot ctx, none)).1 =
      (commandMatchesOwnRoot cenv ruleRoot c (ctx, none)).1 := by
  unfold commandMatchesOwnRoot
  dsimp only
  rw [setCmndPath_afterOwnRoot]
  split
  · next hfound =>
    cases (afterOwnRoot cenv ruleRoot ctx).user.cmnd <;> cases ctx.user.cmnd <;> rfl
  · next hmissing =>
    have hcmnd : (afterOwnRoot cenv ruleRoot ctx).user.cmnd = ctx.user.cmnd := by
      unfold afterOwnRoot
      rw [if_neg hmissing]
    rw [hcmnd]

theorem afterOwnRoot_again (ruleRoot : String) (ctx : SudoersContext) :
    afterOwnRoot cenv ruleRoot (afterOwnRoot cenv ruleRoot ctx) =
      afterOwnRoot cenv ruleRoot ctx := by
  have hset := @setCmndPath_afterOwnRoot cenv ruleRoot ctx
  generalize hagain : afterOwnRoot cenv ruleRoot ctx = again at hset
  unfold afterOwnRoot at hagain ⊢
  dsimp only at hagain ⊢
  rw [hset]
  by_cases hfound : (setCmndPath cenv ctx ruleRoot).1 = .found
  · rw [if_pos hfound] at hagain ⊢
    cases hcmnd : ctx.user.cmnd with
    | none =>
      rw [hcmnd] at hagain
      dsimp only at hagain
      subst hagain
      split
      · rfl
      · next cmnd hfresh => rw [← hfresh]
    | some cmnd =>
      rw [hcmnd] at hagain
      dsimp only at hagain
      subst hagain
      rfl
  · rw [if_neg hfound] at hagain ⊢
    subst hagain
    rfl

theorem afterTest_eq (runchroot : Option String) (ctx : SudoersContext) :
    ∃ cmnd cmndList cmndDir cmndStat, afterTest cenv runchroot ctx =
      { ctx with user :=
        { ctx.user with
          cmnd := cmnd, cmndList := cmndList, cmndDir := cmndDir, cmndStat := cmndStat } } := by
  unfold afterTest
  split
  · next ruleRoot _ =>
    unfold afterOwnRoot
    dsimp only
    split
    · cases ctx.user.cmnd with
      | none => exact ⟨_, _, _, _, rfl⟩
      | some cmnd => exact ⟨_, _, _, _, rfl⟩
    · exact ⟨_, _, _, _, rfl⟩
  · exact ⟨_, _, _, _, rfl⟩

theorem runas_afterTest (runchroot : Option String) (ctx : SudoersContext) :
    (afterTest cenv runchroot ctx).runas = ctx.runas := by
  obtain ⟨cmnd, cmndList, cmndDir, cmndStat, h⟩ := @afterTest_eq cenv runchroot ctx
  rw [h]

theorem runaslistMatches_afterTest (env : MatchEnv) (runchroot : Option String)
    (ctx : SudoersContext) (tree : ParseTree) (userList groupList : Option (List Member)) :
    runaslistMatches env (afterTest cenv runchroot ctx) tree userList groupList =
      runaslistMatches env ctx tree userList groupList := by
  obtain ⟨cmnd, cmndList, cmndDir, cmndStat, h⟩ := @afterTest_eq cenv runchroot ctx
  rw [h]
  rfl

theorem commandMatches_ctx (runchroot : Option String) (c : SudoCommand) (ctx : SudoersContext)
    (info : Option CmndInfo) :
    (commandMatches cenv runchroot c (ctx, info)).2.1 = afterTest cenv runchroot ctx := by
  cases hroot : ctx.runas.chroot with
  | some root =>
    have hafter : afterTest cenv runchroot ctx = ctx := by
      unfold afterTest
      rw [hroot]
    have hplain : ctx.runas.chroot ≠ none := by
      rw [hroot]
      exact Option.some_ne_none root
    rw [hafter, commandMatches_plain (s := (ctx, info)) (Or.inl hplain)]
  | none =>
    cases runchroot with
    | none =>
      have hafter : afterTest cenv none ctx = ctx := by
        unfold afterTest
        rw [hroot]
      rw [hafter, commandMatches_plain (s := (ctx, info)) (Or.inr rfl)]
    | some ruleRoot =>
      have hafter : afterTest cenv (some ruleRoot) ctx = afterOwnRoot cenv ruleRoot ctx := by
        unfold afterTest
        rw [hroot]
      rw [hafter, commandMatches_ownRoot (s := (ctx, info)) hroot]
      exact commandMatchesOwnRoot_ctx ruleRoot c ctx info

theorem testsTrue_afterTest (runchroot : Option String) (ctx : SudoersContext) (c : SudoCommand) :
    testsTrue cenv runchroot (afterTest cenv runchroot ctx) c = testsTrue cenv runchroot ctx c := by
  have hrunas := @runas_afterTest cenv runchroot ctx
  unfold testsTrue
  generalize hafter : afterTest cenv runchroot ctx = after at hrunas
  unfold afterTest at hafter
  split at hafter
  · next ruleRoot hroot =>
    rw [commandMatches_ownRoot (s := (after, none)) (by rw [hrunas]; exact hroot),
      commandMatches_ownRoot (s := (ctx, none)) hroot, ← hafter]
    exact commandMatchesOwnRoot_again ruleRoot c ctx
  · rw [hafter]

theorem afterTest_again (runchroot : Option String) (ctx : SudoersContext) :
    afterTest cenv runchroot (afterTest cenv runchroot ctx) = afterTest cenv runchroot ctx := by
  have hrunas := @runas_afterTest cenv runchroot ctx
  generalize hafter : afterTest cenv runchroot ctx = after at hrunas
  unfold afterTest at hafter ⊢
  rw [hrunas]
  split at hafter
  · next ruleRoot hroot =>
    show afterOwnRoot cenv ruleRoot after = after
    rw [← hafter]
    exact afterOwnRoot_again ruleRoot ctx
  · rfl

end Request

/-! ## A list of values -/

section Lists

variable {σ : Type}

def LeavesTest (R : MemberRules σ) (test : MemberType → Bool) : Prop :=
  ∀ type negated s, R.leaf type negated s = (verdictOf (test type) negated, s)

theorem verdictOf_ne_deny (test : Bool) : verdictOf test false ≠ .deny := by
  cases test <;> decide

theorem verdictOf_ne_allow (test : Bool) : verdictOf test true ≠ .allow := by
  cases test <;> decide

theorem verdictOf_eq_deny {test negated : Bool} :
    verdictOf test negated = .deny ↔ negated = true ∧ test = true := by
  cases test <;> cases negated <;> decide

theorem verdictOf_eq_allow {test negated : Bool} :
    verdictOf test negated = .allow ↔ negated = false ∧ test = true := by
  cases test <;> cases negated <;> decide

theorem scanMatches_leaves {R : MemberRules σ} {eval : Member → EvalM σ Verdict}
    {f : Member → Verdict} (ms : List Member) (heval : ∀ m ∈ ms, ∀ s, eval m s = some (f m, s)) :
    ∀ s, ∃ s', scanMatches R eval ms s =
      some ((Verdict.lastMatch f ms.reverse).orElse R.unmatched, s') := by
  induction ms with
  | nil => exact fun s => ⟨s, rfl⟩
  | cons m ms ih =>
    intro s
    obtain ⟨s', hrest⟩ := ih (fun m' hm' => heval m' (List.mem_cons_of_mem m hm')) s
    rw [List.reverse_cons, Verdict.lastMatch_concat]
    unfold scanMatches
    rw [heval m List.mem_cons_self]
    dsimp only
    by_cases hv : (f m).specified = true
    · rw [if_pos hv, Verdict.orElse_of_specified hv, Verdict.orElse_of_specified hv]
      exact ⟨_, rfl⟩
    · have hnone : f m = .unspec := Verdict.not_specified.mp (eq_false_of_ne_true hv)
      rw [if_neg hv, hnone, Verdict.orElse_unspec]
      exact ⟨s', hrest⟩

theorem listMatches_leaves {R : MemberRules σ} {test : MemberType → Bool} (hR : LeavesTest R test)
    (tree : ParseTree) {list : List Member} (hlist : ∀ m ∈ list, ∀ name, m.type ≠ .alias name)
    (s : σ) :
    (runWalk (listMatches R tree list) s).1 =
      (Verdict.lastMatch (fun m => verdictOf (test m.type) m.negated) list).orElse
        R.unmatched := by
  have heval : ∀ m ∈ list.reverse, ∀ s : EvalState σ,
      memberMatches R tree (tree.aliases.length + 1) m s =
        some (verdictOf (test m.type) m.negated, s) := by
    intro m hm s
    rw [memberMatches_leaf (hlist m (List.mem_reverse.mp hm))]
    unfold liftMatcher
    rw [hR]
  obtain ⟨s', hscan⟩ := @scanMatches_leaves σ R _ _ list.reverse heval { used := [], st := s }
  unfold runWalk listMatches
  rw [hscan, List.reverse_reverse]

theorem listMatches_values {α : Type} {R : MemberRules σ} {test : MemberType → Bool}
    (hR : LeavesTest R test) (tree : ParseTree) (member : α → Member)
    (hmember : ∀ value name, (member value).type ≠ .alias name) (values : List α) (s : σ) :
    (runWalk (listMatches R tree (negatedLast (values.map member))) s).1 =
      (Verdict.denyFirst (fun value => verdictOf (test (member value).type) (member value).negated)
        values).orElse R.unmatched := by
  have hleaf : ∀ m ∈ negatedLast (values.map member), ∀ name, m.type ≠ .alias name := by
    intro m hm
    have hm' : m ∈ values.map member := by
      rcases List.mem_append.mp hm with h | h
      · exact (List.mem_filter.mp h).1
      · exact (List.mem_filter.mp h).1
    obtain ⟨value, -, rfl⟩ := List.mem_map.mp hm'
    exact hmember value
  rw [listMatches_leaves hR tree hleaf]
  unfold negatedLast
  rw [Verdict.lastMatch_denyLast (fun m : Member => verdictOf (test m.type) m.negated)
    (fun m => m.negated), Verdict.denyFirst_map]
  · intro m hm
    show verdictOf (test m.type) m.negated ≠ .allow
    rw [hm]
    exact verdictOf_ne_allow _
  · intro m hm
    show verdictOf (test m.type) m.negated ≠ .deny
    rw [hm]
    exact verdictOf_ne_deny _

theorem nameToMember_leaf (value name : String) : (nameToMember value).type ≠ .alias name := by
  unfold nameToMember nameType
  dsimp only
  split
  · exact MemberType.noConfusion
  · exact MemberType.noConfusion
  · exact MemberType.noConfusion
  · split <;> exact MemberType.noConfusion

theorem hostToMember_leaf (lenv : LdapEnv) (value name : String) :
    (hostToMember lenv value).type ≠ .alias name := by
  unfold hostToMember hostType
  dsimp only
  split
  · exact MemberType.noConfusion
  · split
    · exact MemberType.noConfusion
    · split <;> exact MemberType.noConfusion

end Lists

section Named

variable (lenv : LdapEnv) (env : MatchEnv) (ctx : SudoersContext) (tree : ParseTree)

def leafNamed {σ : Type} (R : MemberRules σ) (s : σ) (type : MemberType) : Bool :=
  (R.leaf type false s).1 = .allow

/-- What a `sudoHost` names apart from its `!` is the host. -/
def hostNamed (host : String) : Bool :=
  leafNamed (hostRules env ctx.user.pw (lhostOf ctx tree) (shostOf ctx tree)) ()
    (hostToMember lenv host).type

def runasUserNamed (user : String) : Bool :=
  leafNamed (runasUserRules env ctx tree) none (nameToMember user).type

def runasGroupNamed (gr : Group) (group : String) : Bool :=
  leafNamed (runasGroupRules env ctx gr) () (nameToMember group).type

def negatedValue (value : String) : Bool := (sudoLdapIsNegated value).1

end Named

variable {env : MatchEnv} {cenv : CommandEnv} {ctx : SudoersContext} {tree : ParseTree}

theorem leavesTest_leafNamed {σ : Type} {R : MemberRules σ}
    (hR : ∀ type, ∃ test, ∀ negated s, R.leaf type negated s = (verdictOf test negated, s)) (s : σ) :
    LeavesTest R (leafNamed R s) := by
  intro type negated s'
  obtain ⟨test, htest⟩ := hR type
  unfold leafNamed
  rw [htest, htest]
  cases test <;> rfl

theorem leavesTest_host (pw : Passwd) (lhost shost : String) :
    LeavesTest (hostRules env pw lhost shost) (leafNamed (hostRules env pw lhost shost) ()) := by
  refine leavesTest_leafNamed (fun type => ?_) ()
  cases type with
  | all c => exact ⟨true, fun _ _ => rfl⟩
  | netgroup name => exact ⟨_, fun _ _ => rfl⟩
  | ntwkaddr name => exact ⟨_, fun _ _ => rfl⟩
  | word name => exact ⟨_, fun _ _ => rfl⟩
  | _ => exact ⟨false, fun _ _ => rfl⟩

theorem leavesTest_runasUser :
    LeavesTest (runasUserRules env ctx tree) (leafNamed (runasUserRules env ctx tree) none) := by
  refine leavesTest_leafNamed (fun type => ?_) none
  cases type with
  | all c => exact ⟨true, fun _ _ => rfl⟩
  | myself => exact ⟨_, fun _ _ => rfl⟩
  | netgroup name => exact ⟨_, fun _ _ => rfl⟩
  | usergroup name => exact ⟨_, fun _ _ => rfl⟩
  | word name => exact ⟨_, fun _ _ => rfl⟩
  | _ => exact ⟨false, fun _ _ => rfl⟩

theorem leavesTest_runasGroup (gr : Group) :
    LeavesTest (runasGroupRules env ctx gr) (leafNamed (runasGroupRules env ctx gr) ()) := by
  refine leavesTest_leafNamed (fun type => ?_) ()
  cases type with
  | all c => exact ⟨true, fun _ _ => rfl⟩
  | word name => exact ⟨_, fun _ _ => rfl⟩
  | _ => exact ⟨false, fun _ _ => rfl⟩

theorem hostMatch_role (lenv : LdapEnv) (hosts : List String) {priv : Privilege}
    (hpriv : priv.hostlist =
      if hosts.isEmpty then [⟨.all none, false⟩] else negatedLast (hosts.map (hostToMember lenv))) :
    hostMatch env ctx tree priv =
      if hosts.isEmpty then .allow
      else Verdict.denyFirst
        (fun host => verdictOf (hostNamed lenv env ctx tree host) (negatedValue host)) hosts := by
  unfold hostMatch hostlistMatches
  rw [hpriv]
  split
  · rfl
  · rw [listMatches_values (leavesTest_host ctx.user.pw (lhostOf ctx tree) (shostOf ctx tree)) tree
      (hostToMember lenv) (hostToMember_leaf lenv) hosts ()]
    exact Verdict.orElse_unspec_right _

/-- The user part of `runaslist_matches` for a role. -/
def runasUserVerdict (env : MatchEnv) (ctx : SudoersContext) (tree : ParseTree)
    (users : List String) : Verdict :=
  if users.isEmpty then
    (runWalk (runasUserlistMatches env ctx tree
      [{ type := .word env.runasDefault, negated := false }]) none).1
  else
    Verdict.denyFirst
      (fun user => verdictOf (runasUserNamed env ctx tree user) (negatedValue user)) users

/-- The group part, `UNSPEC` where no group is asked for. -/
def runasGroupVerdict (env : MatchEnv) (ctx : SudoersContext) (groups : List String) : Verdict :=
  match ctx.runas.gr with
  | none => .unspec
  | some gr =>
    if ctx.runasGroupSpecified then
      (Verdict.denyFirst
        (fun group => verdictOf (runasGroupNamed env ctx gr group) (negatedValue group))
          groups).orElse (if runasGroupMember env ctx gr then .allow else .unspec)
    else .unspec

/-- How `runaslist_matches` puts its two parts together. -/
def combineRunas (user group : Verdict) (gr : Option Group) : Verdict :=
  if user = .deny ∨ group = .deny then .deny
  else if user = group ∨ gr = none then user
  else .unspec

theorem runasGrouplist_role (gr : Group) (groups : List String) :
    (runWalk (runasGrouplistMatches env ctx tree gr ((runasList groups).getD [])) ()).1 =
      (Verdict.denyFirst
        (fun group => verdictOf (runasGroupNamed env ctx gr group) (negatedValue group))
          groups).orElse (if runasGroupMember env ctx gr then .allow else .unspec) := by
  have hlist : (runasList groups).getD [] = negatedLast (groups.map nameToMember) := by
    unfold runasList arrayToMemberList
    cases groups <;> rfl
  unfold runasGrouplistMatches
  rw [hlist, listMatches_values (leavesTest_runasGroup gr) tree nameToMember nameToMember_leaf
    groups ()]
  rfl

theorem runaslistMatches_fst (env : MatchEnv) (ctx : SudoersContext) (tree : ParseTree)
    (userList groupList : Option (List Member)) :
    (runaslistMatches env ctx tree userList groupList).1 =
      combineRunas
        (runWalk (runasUserlistMatches env ctx tree
          (userList.getD [{ type := .word env.runasDefault, negated := false }])) none).1
        (match ctx.runas.gr with
          | none => .unspec
          | some gr =>
            if ctx.runasGroupSpecified then
              (runWalk (runasGrouplistMatches env ctx tree gr (groupList.getD [])) ()).1
            else .unspec)
        ctx.runas.gr := by
  have hcombine (user : Verdict × Option Member) (group : Verdict) :
      (if user.1 = .deny ∨ group = .deny then (Verdict.deny, user.2)
        else if user.1 = group ∨ ctx.runas.gr = none then user
        else (.unspec, user.2)).1 = combineRunas user.1 group ctx.runas.gr := by
    unfold combineRunas
    split
    · rfl
    · split <;> rfl
  unfold runaslistMatches
  cases userList with
  | none => exact hcombine _ _
  | some list => exact hcombine _ _

theorem runaslistMatches_role (env : MatchEnv) (ctx : SudoersContext) (tree : ParseTree)
    (users groups : List String) :
    (runaslistMatches env ctx tree (runasList users) (runasList groups)).1 =
      combineRunas (runasUserVerdict env ctx tree users) (runasGroupVerdict env ctx groups)
        ctx.runas.gr := by
  have huser : (runWalk (runasUserlistMatches env ctx tree
      ((runasList users).getD [{ type := .word env.runasDefault, negated := false }])) none).1 =
      runasUserVerdict env ctx tree users := by
    unfold runasUserVerdict runasList
    split
    · rfl
    · unfold runasUserlistMatches arrayToMemberList
      rw [Option.getD_some, listMatches_values leavesTest_runasUser tree nameToMember
        nameToMember_leaf users none]
      exact Verdict.orElse_unspec_right _
  rw [runaslistMatches_fst, huser]
  unfold runasGroupVerdict
  cases hgr : ctx.runas.gr with
  | none => rfl
  | some gr =>
    dsimp only
    rw [runasGrouplist_role]

def commandOf : MemberType → SudoCommand
  | .all (some c) => c
  | .command c => c
  | _ => ⟨none, none, []⟩

def specVerdict (env : MatchEnv) (cenv : CommandEnv) (tree : ParseTree) (now : Int)
    (ctx : SudoersContext) (cs : Cmndspec) : Verdict :=
  if dateMatch now cs ≠ .deny ∧
      (runaslistMatches env ctx tree cs.runasuserlist cs.runasgrouplist).1 = .allow then
    verdictOf (testsTrue cenv cs.runchroot ctx (commandOf cs.cmnd.type)) cs.cmnd.negated
  else .unspec

theorem fillCommand_cmnd (spec : Cmndspec) (cmnd : String) :
    (fillCommand spec cmnd).cmnd = (fillCommand newCmndspec cmnd).cmnd := by
  unfold fillCommand
  dsimp only
  split
  · rfl
  · rfl

theorem fillCommand_negated (spec : Cmndspec) (cmnd : String) :
    (fillCommand spec cmnd).cmnd.negated = negatedValue cmnd := by
  unfold fillCommand
  dsimp only
  split
  · rfl
  · rfl

def SameRule (spec cs : Cmndspec) : Prop :=
  cs.runasuserlist = spec.runasuserlist ∧ cs.runasgrouplist = spec.runasgrouplist ∧
    cs.notbefore = spec.notbefore ∧ cs.notafter = spec.notafter ∧ cs.runchroot = spec.runchroot

theorem sameRule_fillCommand {settings spec : Cmndspec} (h : SameRule settings spec)
    (cmnd : String) : SameRule settings (fillCommand spec cmnd) := by
  unfold fillCommand
  dsimp only
  split
  · exact h
  · exact h

theorem sameRule_inheritCmndspec {settings prev : Cmndspec} (h : SameRule settings prev) :
    SameRule settings (inheritCmndspec prev) := h

def IsCommand (type : MemberType) : Prop :=
  type = .all (some (commandOf type)) ∨ type = .command (commandOf type)

theorem isCommand_fillCommand (spec : Cmndspec) (cmnd : String) :
    IsCommand (fillCommand spec cmnd).cmnd.type := by
  unfold fillCommand
  dsimp only
  split
  · exact Or.inl rfl
  · exact Or.inr rfl

theorem mem_roleCmndspecs {settings cs : Cmndspec} {cmnds : List String}
    (hcs : cs ∈ roleCmndspecs settings cmnds) :
    IsCommand cs.cmnd.type ∧ SameRule settings cs := by
  have hsettings : SameRule settings settings := ⟨rfl, rfl, rfl, rfl, rfl⟩
  cases cmnds with
  | nil => exact absurd hcs List.not_mem_nil
  | cons cmnd cmnds =>
    have hfirst := sameRule_fillCommand hsettings cmnd
    rcases List.mem_cons.mp hcs with rfl | hcs
    · exact ⟨isCommand_fillCommand settings cmnd, hfirst⟩
    · obtain ⟨cmnd', -, rfl⟩ := List.mem_map.mp hcs
      exact ⟨isCommand_fillCommand _ cmnd',
        sameRule_fillCommand (sameRule_inheritCmndspec hfirst) cmnd'⟩

theorem map_roleCmndspecs {β : Type} {f : Cmndspec → β} {g : String → β} {settings : Cmndspec}
    (h : ∀ spec cmnd, SameRule settings spec → f (fillCommand spec cmnd) = g cmnd)
    (cmnds : List String) : (roleCmndspecs settings cmnds).map f = cmnds.map g := by
  have hsettings : SameRule settings settings := ⟨rfl, rfl, rfl, rfl, rfl⟩
  cases cmnds with
  | nil => rfl
  | cons cmnd cmnds =>
    have hrest : ∀ c ∈ cmnds,
        f (fillCommand (inheritCmndspec (fillCommand settings cmnd)) c) = g c :=
      fun c _ => h _ c (sameRule_inheritCmndspec (sameRule_fillCommand hsettings cmnd))
    unfold roleCmndspecs
    rw [List.map_cons, List.map_cons, List.map_map, h settings cmnd hsettings]
    exact congrArg (g cmnd :: ·) (List.map_congr_left hrest)

theorem cmndMatches_command {cs : Cmndspec} (hc : IsCommand cs.cmnd.type) (s : SudoersContext)
    (info : CmndInfo) :
    (runWalk (cmndMatches (commandMatches cenv cs.runchroot) tree cs.cmnd) (s, some info)).1 =
        verdictOf (testsTrue cenv cs.runchroot s (commandOf cs.cmnd.type)) cs.cmnd.negated ∧
      (runWalk (cmndMatches (commandMatches cenv cs.runchroot) tree cs.cmnd) (s, some info)).2.1 =
        afterTest cenv cs.runchroot s := by
  have hleaf : ∀ name, cs.cmnd.type ≠ .alias name := by
    intro name hname
    rcases hc with h | h
    · rw [hname] at h
      exact MemberType.noConfusion h
    · rw [hname] at h
      exact MemberType.noConfusion h
  have hrun : runWalk (cmndMatches (commandMatches cenv cs.runchroot) tree cs.cmnd)
      (s, some info) =
        (verdictOf (commandMatches cenv cs.runchroot (commandOf cs.cmnd.type) (s, some info)).1
          cs.cmnd.negated,
          (commandMatches cenv cs.runchroot (commandOf cs.cmnd.type) (s, some info)).2) := by
    unfold runWalk cmndMatches
    rw [memberMatches_leaf hleaf]
    unfold liftMatcher
    rcases hc with h | h
    · rw [h]
      rfl
    · rw [h]
      rfl
  rw [hrun]
  exact ⟨by unfold testsTrue; rw [(commandMatches_info cs.runchroot _ s (some info)).1],
    commandMatches_ctx cs.runchroot _ s (some info)⟩

theorem lookupCmndspec_role {cs : Cmndspec} (hc : IsCommand cs.cmnd.type) {s : CheckState}
    (hs : s.ctx = ctx ∨ s.ctx = afterTest cenv cs.runchroot ctx) (now : Int) :
    (lookupCmndspec env cenv tree now cs s).1 = specVerdict env cenv tree now ctx cs ∧
      ((lookupCmndspec env cenv tree now cs s).2.2.ctx = ctx ∨
        (lookupCmndspec env cenv tree now cs s).2.2.ctx = afterTest cenv cs.runchroot ctx) := by
  have hrunas : runaslistMatches env s.ctx tree cs.runasuserlist cs.runasgrouplist =
      runaslistMatches env ctx tree cs.runasuserlist cs.runasgrouplist := by
    rcases hs with h | h
    · rw [h]
    · rw [h, runaslistMatches_afterTest]
  have htest : testsTrue cenv cs.runchroot s.ctx (commandOf cs.cmnd.type) =
      testsTrue cenv cs.runchroot ctx (commandOf cs.cmnd.type) := by
    rcases hs with h | h
    · rw [h]
    · rw [h, testsTrue_afterTest]
  have hafter : afterTest cenv cs.runchroot s.ctx = afterTest cenv cs.runchroot ctx := by
    rcases hs with h | h
    · rw [h]
    · rw [h, afterTest_again]
  obtain ⟨hverdict, hctx⟩ := @cmndMatches_command cenv tree cs hc s.ctx s.info
  unfold lookupCmndspec specVerdict
  rw [hrunas]
  by_cases hdate : dateMatch now cs = .deny
  · rw [if_pos hdate, if_neg (fun h => h.1 hdate)]
    exact ⟨rfl, hs⟩
  · rw [if_neg hdate]
    by_cases hallow :
        (runaslistMatches env ctx tree cs.runasuserlist cs.runasgrouplist).1 = .allow
    · dsimp only
      rw [if_pos hallow, if_pos ⟨hdate, hallow⟩, ← htest, ← hverdict, ← hafter]
      exact ⟨rfl, Or.inr hctx⟩
    · dsimp only
      rw [if_neg hallow, if_neg (fun h => hallow h.2)]
      exact ⟨rfl, hs⟩

theorem lookupCmndspecs_role {runchroot : Option String} {l : List Cmndspec}
    (hl : ∀ cs ∈ l, IsCommand cs.cmnd.type ∧ cs.runchroot = runchroot) (now : Int)
    (priv : Privilege) :
    ∀ s : CheckState, (s.ctx = ctx ∨ s.ctx = afterTest cenv runchroot ctx) →
      Decision.result (lookupCmndspecs env cenv tree now priv l s).1 =
        Verdict.lastMatch (specVerdict env cenv tree now ctx) l.reverse := by
  induction l with
  | nil => exact fun _ _ => rfl
  | cons cs l ih =>
    intro s hs
    obtain ⟨hc, hroot⟩ := hl cs List.mem_cons_self
    obtain ⟨hverdict, hctx⟩ := @lookupCmndspec_role env cenv ctx tree cs hc s
      (by rw [hroot]; exact hs) now
    rw [hroot] at hctx
    rw [List.reverse_cons, Verdict.lastMatch_concat, ← hverdict]
    unfold lookupCmndspecs
    dsimp only
    by_cases hv : (lookupCmndspec env cenv tree now cs s).1.specified = true
    · rw [if_pos hv, Verdict.orElse_of_specified hv]
      rfl
    · have hnone : (lookupCmndspec env cenv tree now cs s).1 = .unspec :=
        Verdict.not_specified.mp (eq_false_of_ne_true hv)
      rw [if_neg hv, hnone, Verdict.orElse_unspec]
      exact ih (fun cs' hcs' => hl cs' (List.mem_cons_of_mem cs hcs')) _ hctx

/-! ## A role -/

def withRunas (runasusers runasgroups : Option (List Member)) (st : OptionState) : OptionState :=
  { st with
    spec := { st.spec with runasuserlist := runasusers, runasgrouplist := runasgroups } }

theorem keepOption_withRunas (storeOptions : Bool) (op : Int) (var : String) (val : Option String)
    (u g : Option (List Member)) (st : OptionState) :
    keepOption storeOptions op var val (withRunas u g st) =
      withRunas u g (keepOption storeOptions op var val st) := by
  unfold keepOption
  cases storeOptions with
  | true => rfl
  | false =>
    have htags : (withRunas u g st).spec.tags = st.spec.tags := rfl
    rw [htags, if_neg Bool.false_ne_true, if_neg Bool.false_ne_true]
    cases sudoersDefaultsToTags var op st.spec.tags <;> rfl

theorem addOption_withRunas (storeOptions : Bool) (u g : Option (List Member)) (st : OptionState)
    (opt : String) :
    addOption storeOptions (withRunas u g st) opt =
      withRunas u g (addOption storeOptions st opt) := by
  unfold addOption
  obtain ⟨op, var, val⟩ := sudoLdapParseOption opt
  cases val with
  | none => exact keepOption_withRunas storeOptions op var none u g st
  | some val =>
    dsimp only
    split
    case h_9 => exact keepOption_withRunas storeOptions op var (some val) u g st
    all_goals rfl

theorem roleSettings_withRunas (lenv : LdapEnv) (runasusers runasgroups opts : List String)
    (notbefore notafter : Option String) (storeOptions : Bool) :
    roleSettings lenv runasusers runasgroups opts notbefore notafter storeOptions =
      withRunas (runasList runasusers) (runasList runasgroups)
        (roleSettings lenv [] [] opts notbefore notafter storeOptions) := by
  unfold roleSettings
  rw [← List.foldl_hom (withRunas (runasList runasusers) (runasList runasgroups))
    (fun st opt => (addOption_withRunas storeOptions _ _ st opt))]
  rfl

theorem memberMatches_userspecs {σ : Type} (R : MemberRules σ) (tree : ParseTree)
    (userspecs : List Userspec) (fuel : Nat) :
    memberMatches R { tree with userspecs := userspecs } fuel = memberMatches R tree fuel := by
  induction fuel with
  | zero => rfl
  | succ fuel ih =>
    funext m
    unfold memberMatches
    rw [ih]
    rfl

/-- The values of a `sudoRole` that come in no order. -/
structure RoleAttrs where
  hosts : List String
  runasusers : List String
  runasgroups : List String
  cmnds : List String

structure RoleAttrs.Perm (a b : RoleAttrs) : Prop where
  hosts : a.hosts.Perm b.hosts
  runasusers : a.runasusers.Perm b.runasusers
  runasgroups : a.runasgroups.Perm b.runasgroups
  cmnds : a.cmnds.Perm b.cmnds

structure RoleFrame where
  users : List Member
  opts : List String
  notbefore : Option String
  notafter : Option String
  storeOptions : Bool

section Role

variable (lenv : LdapEnv) (env : MatchEnv) (cenv : CommandEnv) (tree : ParseTree) (now : Int)
  (f : RoleFrame)

def rolePriv (a : RoleAttrs) : Privilege :=
  sudoLdapRoleToPriv lenv a.hosts a.runasusers a.runasgroups a.cmnds f.opts f.notbefore f.notafter
    f.storeOptions

def frameSettings : Cmndspec :=
  (roleSettings lenv [] [] f.opts f.notbefore f.notafter f.storeOptions).spec

def roleUserspec (a : RoleAttrs) : Userspec := { users := f.users, privileges := [rolePriv lenv f a] }

/-- What `sudoers_lookup_check` returns for the role. -/
def roleDecision (a : RoleAttrs) (s : CheckState) : Verdict :=
  Decision.result (sudoersLookupCheck env cenv
    { tree with userspecs := [roleUserspec lenv f a] } now s).1

/-- The role is for the user, the host, the run-as user and group and the time. -/
def RoleApplies (a : RoleAttrs) (ctx : SudoersContext) : Prop :=
  userMatch env ctx tree (roleUserspec lenv f a) = .allow ∧
    hostMatch env ctx tree (rolePriv lenv f a) = .allow ∧
    (runaslistMatches env ctx tree (runasList a.runasusers) (runasList a.runasgroups)).1 = .allow ∧
    dateMatch now (frameSettings lenv f) ≠ .deny

instance (a : RoleAttrs) (ctx : SudoersContext) :
    Decidable (RoleApplies lenv env tree now f a ctx) := by
  unfold RoleApplies
  infer_instance

/-- What a `sudoCommand` names apart from its `!` is the command of the request. -/
def commandNamed (ctx : SudoersContext) (cmnd : String) : Bool :=
  testsTrue cenv (frameSettings lenv f).runchroot ctx
    (commandOf (fillCommand newCmndspec cmnd).cmnd.type)

def commandVerdict (ctx : SudoersContext) (cmnds : List String) : Verdict :=
  Verdict.denyFirst (fun cmnd => verdictOf (commandNamed lenv cenv f ctx cmnd) (negatedValue cmnd))
    cmnds

variable {lenv env cenv tree now f}

theorem sameRule_roleSettings (lenv : LdapEnv) (f : RoleFrame) (a : RoleAttrs) :
    SameRule
      { frameSettings lenv f with
        runasuserlist := runasList a.runasusers, runasgrouplist := runasList a.runasgroups }
      (roleSettings lenv a.runasusers a.runasgroups f.opts f.notbefore f.notafter
        f.storeOptions).spec := by
  rw [roleSettings_withRunas]
  exact ⟨rfl, rfl, rfl, rfl, rfl⟩

theorem lastMatch_cmndlist (a : RoleAttrs) (ctx : SudoersContext) :
    Verdict.lastMatch (specVerdict env cenv tree now ctx) (rolePriv lenv f a).cmndlist =
      if dateMatch now (frameSettings lenv f) ≠ .deny ∧
          (runaslistMatches env ctx tree (runasList a.runasusers)
            (runasList a.runasgroups)).1 = .allow then
        commandVerdict lenv cenv f ctx a.cmnds
      else .unspec := by
  obtain ⟨huser, hgroup, hbefore, hafter, hroot⟩ := sameRule_roleSettings lenv f a
  generalize hsettings : (roleSettings lenv a.runasusers a.runasgroups f.opts f.notbefore
    f.notafter f.storeOptions).spec = settings at huser hgroup hbefore hafter hroot
  have hlist : (rolePriv lenv f a).cmndlist =
      (roleCmndspecs settings a.cmnds).filter (fun s => !s.cmnd.negated) ++
        (roleCmndspecs settings a.cmnds).filter (fun s => s.cmnd.negated) := by
    rw [← hsettings]
    rfl
  have hverdict : ∀ spec cmnd, SameRule settings spec →
      specVerdict env cenv tree now ctx (fillCommand spec cmnd) =
        if dateMatch now (frameSettings lenv f) ≠ .deny ∧
            (runaslistMatches env ctx tree (runasList a.runasusers)
              (runasList a.runasgroups)).1 = .allow then
          verdictOf (commandNamed lenv cenv f ctx cmnd) (negatedValue cmnd)
        else .unspec := by
    intro spec cmnd hspec
    obtain ⟨husers, hgroups, hnotbefore, hnotafter, hrunchroot⟩ := sameRule_fillCommand hspec cmnd
    have hdate : dateMatch now (fillCommand spec cmnd) = dateMatch now (frameSettings lenv f) := by
      unfold dateMatch
      rw [hnotbefore, hnotafter, hbefore, hafter]
    unfold specVerdict commandNamed
    rw [hdate, husers, hgroups, huser, hgroup, hrunchroot, hroot, fillCommand_negated,
      fillCommand_cmnd spec cmnd]
  have hmap := map_roleCmndspecs hverdict a.cmnds
  rw [hlist, Verdict.lastMatch_denyLast (specVerdict env cenv tree now ctx)
    (fun s => s.cmnd.negated)]
  · have hdeny := Verdict.denyFirst_map (fun v : Verdict => v) (specVerdict env cenv tree now ctx)
      (roleCmndspecs settings a.cmnds)
    rw [← hdeny, hmap, Verdict.denyFirst_map]
    split
    · rfl
    · exact Verdict.denyFirst_unspec a.cmnds
  · intro cs hneg
    unfold specVerdict
    rw [hneg]
    split
    · exact verdictOf_ne_allow _
    · exact Verdict.noConfusion
  · intro cs hneg
    unfold specVerdict
    rw [hneg]
    split
    · exact verdictOf_ne_deny _
    · exact Verdict.noConfusion

theorem mem_cmndlist {a : RoleAttrs} {cs : Cmndspec} (hcs : cs ∈ (rolePriv lenv f a).cmndlist) :
    IsCommand cs.cmnd.type ∧ cs.runchroot = (frameSettings lenv f).runchroot := by
  have hmem : cs ∈ roleCmndspecs (roleSettings lenv a.runasusers a.runasgroups f.opts f.notbefore
      f.notafter f.storeOptions).spec a.cmnds := by
    rcases List.mem_append.mp hcs with h | h
    · exact (List.mem_filter.mp h).1
    · exact (List.mem_filter.mp h).1
  obtain ⟨hc, -, -, -, -, hroot⟩ := mem_roleCmndspecs hmem
  exact ⟨hc, hroot.trans (sameRule_roleSettings lenv f a).2.2.2.2⟩

theorem listMatches_userspecs {σ : Type} (R : MemberRules σ) (tree : ParseTree)
    (userspecs : List Userspec) (list : List Member) :
    listMatches R { tree with userspecs := userspecs } list = listMatches R tree list := by
  unfold listMatches
  rw [memberMatches_userspecs]

theorem runaslistMatches_userspecs (env : MatchEnv) (ctx : SudoersContext) (tree : ParseTree)
    (userspecs : List Userspec) (userList groupList : Option (List Member)) :
    runaslistMatches env ctx { tree with userspecs := userspecs } userList groupList =
      runaslistMatches env ctx tree userList groupList := by
  have huser (list : List Member) :
      runasUserlistMatches env ctx { tree with userspecs := userspecs } list =
        runasUserlistMatches env ctx tree list :=
    listMatches_userspecs (runasUserRules env ctx tree) tree userspecs list
  have hgroup (gr : Group) (list : List Member) :
      runasGrouplistMatches env ctx { tree with userspecs := userspecs } gr list =
        runasGrouplistMatches env ctx tree gr list :=
    listMatches_userspecs (runasGroupRules env ctx gr) tree userspecs list
  unfold runaslistMatches
  simp only [huser, hgroup]

theorem result_lookupPrivileges_single (priv : Privilege) (s : CheckState) :
    Decision.result (lookupPrivileges env cenv tree now [priv] s).1 =
      if hostMatch env s.ctx tree priv = .allow then
        Decision.result (lookupCmndspecs env cenv tree now priv priv.cmndlist.reverse
          { s with noHost := false }).1
      else .unspec := by
  unfold lookupPrivileges
  split
  · obtain ⟨d, s'⟩ := lookupCmndspecs env cenv tree now priv priv.cmndlist.reverse
      { s with noHost := false }
    cases d <;> rfl
  · rfl

theorem result_lookupUserspecs_single (us : Userspec) (s : CheckState) :
    Decision.result (lookupUserspecs env cenv tree now [us] s).1 =
      if userMatch env s.ctx tree us = .allow then
        Decision.result (lookupPrivileges env cenv tree now us.privileges.reverse
          { s with noUser := false }).1
      else .unspec := by
  unfold lookupUserspecs
  split
  · obtain ⟨d, s'⟩ := lookupPrivileges env cenv tree now us.privileges.reverse
      { s with noUser := false }
    cases d <;> rfl
  · rfl

theorem roleDecision_eq (a : RoleAttrs) (s : CheckState) :
    roleDecision lenv env cenv tree now f a s =
      if RoleApplies lenv env tree now f a s.ctx then commandVerdict lenv cenv f s.ctx a.cmnds
      else .unspec := by
  generalize htree : { tree with userspecs := [roleUserspec lenv f a] } = tree'
  have huser : userMatch env s.ctx tree' (roleUserspec lenv f a) =
      userMatch env s.ctx tree (roleUserspec lenv f a) := by
    rw [← htree]
    unfold userMatch userlistMatches
    rw [listMatches_userspecs]
    rfl
  have hhost : hostMatch env s.ctx tree' (rolePriv lenv f a) =
      hostMatch env s.ctx tree (rolePriv lenv f a) := by
    rw [← htree]
    unfold hostMatch hostlistMatches
    rw [listMatches_userspecs]
    rfl
  have hrunas : runaslistMatches env s.ctx tree' (runasList a.runasusers)
      (runasList a.runasgroups) = runaslistMatches env s.ctx tree (runasList a.runasusers)
        (runasList a.runasgroups) := by
    rw [← htree]
    exact runaslistMatches_userspecs env s.ctx tree _ _ _
  have hreverse : tree'.userspecs.reverse = [roleUserspec lenv f a] := by
    rw [← htree]
    rfl
  have hpriv : (roleUserspec lenv f a).privileges.reverse = [rolePriv lenv f a] := rfl
  have hwalk := @lookupCmndspecs_role env cenv s.ctx tree' (frameSettings lenv f).runchroot
    (rolePriv lenv f a).cmndlist.reverse
    (fun cs hcs => mem_cmndlist (List.mem_reverse.mp hcs)) now (rolePriv lenv f a)
    { ctx := s.ctx, info := zeroInfo, noUser := false, noHost := false } (Or.inl rfl)
  rw [List.reverse_reverse, lastMatch_cmndlist, hrunas] at hwalk
  unfold roleDecision sudoersLookupCheck
  rw [htree, hreverse, result_lookupUserspecs_single, hpriv, result_lookupPrivileges_single]
  dsimp only
  rw [huser, hhost, hwalk]
  by_cases hu : userMatch env s.ctx tree (roleUserspec lenv f a) = .allow
  · by_cases hh : hostMatch env s.ctx tree (rolePriv lenv f a) = .allow
    · rw [if_pos hu, if_pos hh]
      exact if_congr ⟨fun h => ⟨hu, hh, h.2, h.1⟩, fun h => ⟨h.2.2.2, h.2.2.1⟩⟩ rfl rfl
    · rw [if_pos hu, if_neg hh, if_neg (fun h => hh h.2.1)]
  · rw [if_neg hu, if_neg (fun h => hu h.1)]

theorem roleApplies_perm {a b : RoleAttrs} (h : a.Perm b) (ctx : SudoersContext) :
    RoleApplies lenv env tree now f a ctx ↔ RoleApplies lenv env tree now f b ctx := by
  have hempty {l m : List String} (hlm : l.Perm m) : l.isEmpty = m.isEmpty := by
    rw [Bool.eq_iff_iff, List.isEmpty_iff, List.isEmpty_iff]
    exact ⟨fun hl => List.nil_perm.mp (hl ▸ hlm), fun hm => List.perm_nil.mp (hm ▸ hlm)⟩
  have hhost : hostMatch env ctx tree (rolePriv lenv f a) =
      hostMatch env ctx tree (rolePriv lenv f b) := by
    rw [hostMatch_role lenv a.hosts rfl, hostMatch_role lenv b.hosts rfl, hempty h.hosts,
      Verdict.denyFirst_perm _ h.hosts]
  have hrunas : (runaslistMatches env ctx tree (runasList a.runasusers)
      (runasList a.runasgroups)).1 =
        (runaslistMatches env ctx tree (runasList b.runasusers) (runasList b.runasgroups)).1 := by
    rw [runaslistMatches_role, runaslistMatches_role]
    unfold runasUserVerdict runasGroupVerdict
    simp only [hempty h.runasusers, Verdict.denyFirst_perm _ h.runasusers,
      Verdict.denyFirst_perm _ h.runasgroups]
  unfold RoleApplies
  rw [hhost, hrunas]
  exact Iff.rfl

theorem denyFirst_value_deny {named : String → Bool} {values : List String}
    (h : ∃ value ∈ values, negatedValue value = true ∧ named value = true) :
    Verdict.denyFirst (fun value => verdictOf (named value) (negatedValue value)) values = .deny := by
  obtain ⟨value, hvalue, hneg, hnamed⟩ := h
  exact Verdict.denyFirst_eq_deny.mpr ⟨value, hvalue, verdictOf_eq_deny.mpr ⟨hneg, hnamed⟩⟩

theorem not_roleApplies_host {a : RoleAttrs} {ctx : SudoersContext}
    (h : ∃ host ∈ a.hosts, negatedValue host = true ∧ hostNamed lenv env ctx tree host = true) :
    ¬ RoleApplies lenv env tree now f a ctx := by
  rintro ⟨-, hhost, -, -⟩
  have hsome : a.hosts.isEmpty = false := by
    obtain ⟨host, hmem, -⟩ := h
    exact List.isEmpty_eq_false_iff_exists_mem.mpr ⟨host, hmem⟩
  rw [hostMatch_role lenv a.hosts rfl, hsome, if_neg Bool.false_ne_true,
    denyFirst_value_deny h] at hhost
  exact Verdict.noConfusion hhost

theorem not_roleApplies_runasUser {a : RoleAttrs} {ctx : SudoersContext}
    (h : ∃ user ∈ a.runasusers, negatedValue user = true ∧
      runasUserNamed env ctx tree user = true) :
    ¬ RoleApplies lenv env tree now f a ctx := by
  rintro ⟨-, -, hrunas, -⟩
  have hsome : a.runasusers.isEmpty = false := by
    obtain ⟨user, hmem, -⟩ := h
    exact List.isEmpty_eq_false_iff_exists_mem.mpr ⟨user, hmem⟩
  have hdeny : runasUserVerdict env ctx tree a.runasusers = .deny := by
    unfold runasUserVerdict
    rw [hsome, if_neg Bool.false_ne_true, denyFirst_value_deny h]
  rw [runaslistMatches_role] at hrunas
  unfold combineRunas at hrunas
  rw [if_pos (Or.inl hdeny)] at hrunas
  exact Verdict.noConfusion hrunas

theorem not_roleApplies_runasGroup {a : RoleAttrs} {ctx : SudoersContext} {gr : Group}
    (hgr : ctx.runas.gr = some gr) (hasked : ctx.runasGroupSpecified = true)
    (h : ∃ group ∈ a.runasgroups, negatedValue group = true ∧
      runasGroupNamed env ctx gr group = true) :
    ¬ RoleApplies lenv env tree now f a ctx := by
  rintro ⟨-, -, hrunas, -⟩
  have hdeny : runasGroupVerdict env ctx a.runasgroups = .deny := by
    unfold runasGroupVerdict
    rw [hgr]
    dsimp only
    rw [if_pos hasked, denyFirst_value_deny h]
    rfl
  rw [runaslistMatches_role] at hrunas
  unfold combineRunas at hrunas
  rw [if_pos (Or.inr hdeny)] at hrunas
  exact Verdict.noConfusion hrunas

end Role

end NextBSD.Sudoers
