import NextBSD.Sudoers.Evaluate

/-!
# match.c: users, run-as users and groups, hosts

The group, host and netgroup databases, `fnmatch` and the settings that the matchers
consult are a `MatchEnv`.  Each evaluator is `listMatches` for its own rules.
-/

namespace NextBSD.Sudoers

/-- What the matchers ask the system, and the `Defaults` they read. -/
structure MatchEnv where
  /-- `innetgr`, of the source's own or of the system, with the NIS domain. -/
  innetgr : String → Option String → Option String → Bool
  userInGroup : Passwd → String → Bool
  groupPluginQuery : String → String → Passwd → Bool
  addrMatches : String → Bool
  /-- `fnmatch(pattern, host, FNM_CASEFOLD) == 0`. -/
  fnmatchCasefold : String → String → Bool
  /-- `sudo_strtoid`, without a value where it reports an error. -/
  strtoid : String → Option Nat
  /-- `sudo_get_gidlist(pw, ENTRY_TYPE_QUERIED)`. -/
  gidlist : Passwd → Option (List Nat)
  useNetgroups : Bool
  netgroupTuple : Bool
  groupPlugin : Bool
  alwaysQueryGroupPlugin : Bool
  caseInsensitiveUser : Bool
  caseInsensitiveGroup : Bool
  preserveGroups : Bool
  runasDefault : String

/-- `strcasecmp(a, b) == 0`. -/
def strcaseeq (a b : String) : Bool := a.toList.map Char.toLower = b.toList.map Char.toLower

def hasMeta (s : String) : Bool := s.toList.any (fun c => c ∈ ['\\', '?', '*', '[', ']'])

variable (env : MatchEnv)

def idMatches (name : String) (id : Nat) : Bool :=
  match name.toList with
  | '#' :: rest => env.strtoid (String.ofList rest) == some id
  | _ => false

def userpwMatches (sudoersUser : String) (pw : Passwd) : Bool :=
  idMatches env sudoersUser pw.uid ||
    (if env.caseInsensitiveUser then strcaseeq sudoersUser pw.name else sudoersUser == pw.name)

def groupMatches (sudoersGroup : String) (gr : Group) : Bool :=
  idMatches env sudoersGroup gr.gid ||
    (if env.caseInsensitiveGroup then strcaseeq sudoersGroup gr.name else sudoersGroup == gr.name)

def usergrMatches (group : String) (pw : Passwd) : Bool :=
  match group.toList with
  | '%' :: ':' :: rest =>
    if env.groupPlugin then env.groupPluginQuery pw.name (String.ofList rest) pw
    else env.userInGroup pw (String.ofList (':' :: rest))
  | '%' :: rest =>
    env.userInGroup pw (String.ofList rest) ||
      (env.groupPlugin && env.alwaysQueryGroupPlugin &&
        env.groupPluginQuery pw.name (String.ofList rest) pw)
  | _ => false

def netgrMatches (netgr : String) (lhost shost user : Option String) : Bool :=
  env.useNetgroups &&
    match netgr.toList with
    | '+' :: rest =>
      env.innetgr (String.ofList rest) lhost user || env.innetgr (String.ofList rest) shost user
    | _ => false

def hostnameMatches (shost lhost pattern : String) : Bool :=
  let host := if pattern.toList.contains '.' then lhost else shost
  if hasMeta pattern then env.fnmatchCasefold pattern host else strcaseeq host pattern

/-- `ALLOW`, or `DENY` under a `!`, where the test succeeds. -/
def verdictOf (test negated : Bool) : Verdict :=
  if test then Verdict.signed negated .allow else .unspec

/-- `parse_tree->lhost`, or the host of the request. -/
def lhostOf (ctx : SudoersContext) (tree : ParseTree) : String := tree.lhost.getD ctx.runas.host

def shostOf (ctx : SudoersContext) (tree : ParseTree) : String := tree.shost.getD ctx.runas.shost

def netgroupHost (host : String) : Option String := if env.netgroupTuple then some host else none

/-- The member types that `user_matches` and `runas_userlist_matches` test alike. -/
def userLeaf (ctx : SudoersContext) (tree : ParseTree) (pw : Passwd) (type : MemberType)
    (negated : Bool) : Verdict :=
  match type with
  | .all _ => verdictOf true negated
  | .netgroup name =>
    verdictOf (netgrMatches env name (netgroupHost env (lhostOf ctx tree))
      (netgroupHost env (shostOf ctx tree)) (some pw.name)) negated
  | .usergroup name => verdictOf (usergrMatches env name pw) negated
  | .word name => verdictOf (userpwMatches env name pw) negated
  | _ => .unspec

/-- `user_matches`.  An alias that is not available falls through to `WORD`. -/
def userRules (ctx : SudoersContext) (tree : ParseTree) (pw : Passwd) : MemberRules Unit where
  aliasType := .user
  leaf := fun type negated s => (userLeaf env ctx tree pw type negated, s)
  missing := fun name negated s => (verdictOf (userpwMatches env name pw) negated, s)
  matched := fun _ s => s
  unmatched := .unspec

def userlistMatches (ctx : SudoersContext) (tree : ParseTree) (pw : Passwd)
    (list : List Member) : EvalM Unit Verdict :=
  listMatches (userRules env ctx tree pw) tree list

/-- An empty run-as user matches for a group given without a user, or for the user's own
name. -/
def myselfMatches (ctx : SudoersContext) : Bool :=
  (!ctx.runasUserSpecified && ctx.runasGroupSpecified) || ctx.user.name == ctx.runas.pw.name

/-- `runas_userlist_matches`.  The state is `matching_user`, which an alias member leaves
to the members of its list. -/
def runasUserRules (ctx : SudoersContext) (tree : ParseTree) : MemberRules (Option Member) where
  aliasType := .runas
  leaf := fun type negated s =>
    (match type with
      | .myself => verdictOf (myselfMatches ctx) negated
      | type => userLeaf env ctx tree ctx.runas.pw type negated, s)
  missing := fun name negated s => (verdictOf (userpwMatches env name ctx.runas.pw) negated, s)
  matched := fun m s =>
    match m.type with
    | .alias _ => s
    | _ => some m
  unmatched := .unspec

def runasUserlistMatches (ctx : SudoersContext) (tree : ParseTree) (list : List Member) :
    EvalM (Option Member) Verdict :=
  listMatches (runasUserRules env ctx tree) tree list

def runasGroupMember (ctx : SudoersContext) (gr : Group) : Bool :=
  ctx.runas.pw.gid == gr.gid ||
    (if env.preserveGroups then ctx.user.gidList.contains gr.gid
      else ((env.gidlist ctx.runas.pw).getD []).contains gr.gid)

/-- `runas_grouplist_matches`.  A list that matches nothing is allowed where the group is
one of the target user's own, and the source asks that at the end of every list it walks,
an alias's among them. -/
def runasGroupRules (ctx : SudoersContext) (gr : Group) : MemberRules Unit where
  aliasType := .runas
  leaf := fun type negated s =>
    (match type with
      | .all _ => verdictOf true negated
      | .word name => verdictOf (groupMatches env name gr) negated
      | _ => .unspec, s)
  missing := fun name negated s => (verdictOf (groupMatches env name gr) negated, s)
  matched := fun _ s => s
  unmatched := if runasGroupMember env ctx gr then .allow else .unspec

def runasGrouplistMatches (ctx : SudoersContext) (tree : ParseTree) (gr : Group)
    (list : List Member) : EvalM Unit Verdict :=
  listMatches (runasGroupRules env ctx gr) tree list

/-- `runaslist_matches`, with the member that it hands back as `matching_user`, none where the
default user is tried.  A group that is asked for has been looked up. -/
def runaslistMatches (ctx : SudoersContext) (tree : ParseTree)
    (userList groupList : Option (List Member)) : Verdict × Option Member :=
  let user :=
    match userList with
    | none =>
      ((runWalk (runasUserlistMatches env ctx tree
        [{ type := .word env.runasDefault, negated := false }]) none).1, none)
    | some list => runWalk (runasUserlistMatches env ctx tree list) none
  let group :=
    match ctx.runas.gr with
    | none => Verdict.unspec
    | some gr =>
      if ctx.runasGroupSpecified then
        (runWalk (runasGrouplistMatches env ctx tree gr (groupList.getD [])) ()).1
      else .unspec
  if user.1 = .deny ∨ group = .deny then (.deny, user.2)
  else if user.1 = group ∨ ctx.runas.gr = none then user
  else (.unspec, user.2)

/-- `host_matches`. -/
def hostRules (pw : Passwd) (lhost shost : String) : MemberRules Unit where
  aliasType := .host
  leaf := fun type negated s =>
    (match type with
      | .all _ => verdictOf true negated
      | .netgroup name =>
        verdictOf (netgrMatches env name (some lhost) (some shost)
          (if env.netgroupTuple then some pw.name else none)) negated
      | .ntwkaddr name => verdictOf (env.addrMatches name) negated
      | .word name => verdictOf (hostnameMatches env shost lhost name) negated
      | _ => .unspec, s)
  missing := fun name negated s => (verdictOf (hostnameMatches env shost lhost name) negated, s)
  matched := fun _ s => s
  unmatched := .unspec

def hostlistMatches (ctx : SudoersContext) (tree : ParseTree) (pw : Passwd)
    (list : List Member) : EvalM Unit Verdict :=
  listMatches (hostRules env pw (lhostOf ctx tree) (shostOf ctx tree)) tree list

/-- `cmnd_matches`, with `command_matches` as the test of a single command.  There is no
falling through to a word here. -/
def cmndRules {σ : Type} (commandMatches : SudoCommand → σ → Bool × σ) : MemberRules σ where
  aliasType := .cmnd
  leaf := fun type negated s =>
    match type with
    | .all (some c) => (verdictOf (commandMatches c s).1 negated, (commandMatches c s).2)
    | .command c => (verdictOf (commandMatches c s).1 negated, (commandMatches c s).2)
    | _ => (.unspec, s)
  missing := fun _ _ s => (.unspec, s)
  matched := fun _ s => s
  unmatched := .unspec

def cmndMatches {σ : Type} (commandMatches : SudoCommand → σ → Bool × σ) (tree : ParseTree)
    (m : Member) : EvalM σ Verdict :=
  memberMatches (cmndRules commandMatches) tree (tree.aliases.length + 1) m

def cmndlistMatches {σ : Type} (commandMatches : SudoCommand → σ → Bool × σ) (tree : ParseTree)
    (list : List Member) : EvalM σ Verdict :=
  listMatches (cmndRules commandMatches) tree list

/-- `cmnd_matches_all`, for which only `ALL` is a command. -/
def cmndAllRules {σ : Type} (commandMatches : SudoCommand → σ → Bool × σ) : MemberRules σ where
  aliasType := .cmnd
  leaf := fun type negated s =>
    match type with
    | .all (some c) => (verdictOf (commandMatches c s).1 negated, (commandMatches c s).2)
    | _ => (.unspec, s)
  missing := fun _ _ s => (.unspec, s)
  matched := fun _ s => s
  unmatched := .unspec

/-- `cmnd_matches_all` on each member of a list, from its end. -/
def cmndlistMatchesAll {σ : Type} (commandMatches : SudoCommand → σ → Bool × σ)
    (tree : ParseTree) (list : List Member) : EvalM σ Verdict :=
  listMatches (cmndAllRules commandMatches) tree list

end NextBSD.Sudoers
