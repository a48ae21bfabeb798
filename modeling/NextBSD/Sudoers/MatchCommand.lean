import NextBSD.Sudoers.Match

/-!
# match_command.c

Whether a command of the policy matches the request.  The file system, the pattern and
digest tests and the settings are a `CommandEnv`.  A path that is too long for a
`PATH_MAX` buffer is an error where the source makes it one.  What a match writes into
`ctx->runas` (`cmnd`, `execfd`) no matcher reads, and it is left out.
-/

namespace NextBSD.Sudoers

/-- `FOUND` and the four ways of not being found. -/
inductive CmndStatus where
  | found
  | notFound
  | notFoundDot
  | notFoundError
  | notFoundPath
  deriving DecidableEq, Repr

/-- The outcome of `resolve_cmnd`: its status, `*outfile`, and the file that `find_path` looked at
last, whose `struct stat` it leaves in `ctx->user.cmnd_stat`. -/
structure Resolution where
  status : CmndStatus
  outfile : String
  lastStat : Option Stat
  deriving DecidableEq, Repr

structure CommandEnv where
  pathMax : Nat
  /-- `def_runchroot`. -/
  runchroot : Option String
  /-- `def_secure_path`, unless the user is exempt. -/
  securePath : Option String
  fdexecAlways : Bool
  fastGlob : Bool
  /-- `resolve_cmnd` of a command under a search path and a root. -/
  resolveCmnd : String → Option String → String → Resolution
  canonPath : String → Option String
  /-- Opening a file for execution or for its digest; the flag is whether there is no digest. -/
  openFile : String → Bool → Bool
  statFile : String → Option Stat
  digestMatches : String → Option String → List CommandDigest → Bool
  fnmatch : String → String → Bool
  /-- `fnmatch` with `FNM_PATHNAME`. -/
  fnmatchPathname : String → String → Bool
  regexMatches : String → String → Bool
  glob : String → List String

structure CmndInfo where
  cmndStat : Option Stat
  cmndPath : Option String
  status : CmndStatus
  deriving DecidableEq, Repr

/-- `memset(info, 0, sizeof(*info))`; `FOUND` is zero. -/
def zeroInfo : CmndInfo := { cmndStat := none, cmndPath := none, status := .found }

def sudoBasename (path : String) : String :=
  String.ofList (path.toList.reverse.takeWhile (fun c => c ≠ '/')).reverse

def dirPart (path : String) : Option String :=
  if '/' ∈ path.toList then
    some (String.ofList ((path.toList.reverse.dropWhile (fun c => c ≠ '/')).drop 1).reverse)
  else none

def endsInSlash (path : String) : Bool := path.toList.getLast? == some '/'

def startsWithSlash (path : String) : Bool := path.toList.head? == some '/'

variable (env : CommandEnv)

def underRoot (runchroot : Option String) (path : String) : Option String :=
  match runchroot with
  | none => some path
  | some root => if (root ++ path).length < env.pathMax then some (root ++ path) else none

def commandArgsMatch (ctx : SudoersContext) (sudoersCmnd : String)
    (sudoersArgs : Option String) : Bool :=
  let args := ctx.user.cmndArgs.getD ""
  match sudoersArgs with
  | none => true
  | some pattern =>
    if pattern = "\"\"" then ctx.user.cmndArgs.isNone
    else if pattern.toList.head? = some '^' ∧ pattern.toList.getLast? = some '$' then
      env.regexMatches pattern args
    else if sudoersCmnd = "sudoedit" then env.fnmatchPathname pattern args
    else env.fnmatch pattern args

def openCmnd (path : String) (runchroot : Option String) (digests : List CommandDigest) : Bool :=
  if ¬ env.fdexecAlways ∧ digests = [] then true
  else
    match underRoot env runchroot path with
    | none => false
    | some p => env.openFile p digests.isEmpty

def doStat (path : String) (runchroot : Option String) : Option Stat :=
  (underRoot env runchroot path).bind env.statFile

/-- The canonical directory of the request is not another one than that of `dir`. -/
def sameCanonicalDir (ctx : SudoersContext) (dir : String) : Bool :=
  match ctx.user.cmndDir with
  | none => true
  | some cmndDir =>
    match env.canonPath dir with
    | none => true
    | some resolved => resolved == cmndDir

def sameParentDir (ctx : SudoersContext) (path : String) : Bool :=
  match dirPart path with
  | none => true
  | some dir => sameCanonicalDir env ctx dir

/-- The file of the request and the file of the rule are the same, as far as is known. -/
def sameFile (ctx : SudoersContext) (st : Stat) : Bool :=
  match ctx.user.cmndStat with
  | none => true
  | some own => own == st

def commandMatchesDir (ctx : SudoersContext) (sudoersDir : String) (runchroot : Option String)
    (digests : List CommandDigest) : Bool :=
  match underRoot env runchroot sudoersDir with
  | none => false
  | some dir =>
    let path := dir ++ "/" ++ ctx.user.cmndBase
    sameCanonicalDir env ctx dir && decide (path.length < env.pathMax) &&
      openCmnd env path none digests &&
      match doStat env path none with
      | none => false
      | some st => sameFile ctx st && env.digestMatches path none digests

/-- `command_matches_all`.  A file that does not exist is no error for `ALL`. -/
def commandMatchesAll (ctx : SudoersContext) (cmnd : String) (runchroot : Option String)
    (digests : List CommandDigest) : Bool :=
  let opened := !cmnd.toList.contains '/' || openCmnd env cmnd runchroot digests ||
    (doStat env cmnd runchroot).isNone
  opened && env.digestMatches cmnd runchroot digests

/-- `command_matches_fnmatch` and `command_matches_regex`: `test` is tried on the command as
it was found, and then on its canonical path. -/
def commandMatchesPattern (test : String → Bool) (ctx : SudoersContext) (cmnd sudoersCmnd : String)
    (sudoersArgs : Option String) (runchroot : Option String)
    (digests : List CommandDigest) : Bool :=
  let canonical : Option String :=
    match ctx.user.cmndDir with
    | none => none
    | some dir =>
      let buf := dir ++ "/" ++ ctx.user.cmndBase
      if buf.length < env.pathMax ∧ test buf then some buf else none
  let matching := if startsWithSlash cmnd && test cmnd then some cmnd else canonical
  match matching with
  | none => false
  | some path =>
    commandArgsMatch env ctx sudoersCmnd sudoersArgs && openCmnd env path runchroot digests &&
      (doStat env path runchroot).isSome && env.digestMatches path runchroot digests

/-- How the first loop of `command_matches_glob` ends: with a path, failed closed, or
without an exact match, and then whether a digest was bad. -/
inductive GlobExact where
  | found (path : String)
  | failed
  | none (badDigest : Bool)

def globExact (ctx : SudoersContext) (cmnd : String) (runchroot : Option String)
    (digests : List CommandDigest) : List String → Bool → GlobExact
  | [], badDigest => .none badDigest
  | cp :: rest, badDigest =>
    if cp = cmnd ∧ openCmnd env cp runchroot digests then
      match doStat env cp runchroot with
      | none => globExact ctx cmnd runchroot digests rest badDigest
      | some st =>
        if sameFile ctx st then
          if env.digestMatches cp runchroot digests then .found cp
          else globExact ctx cmnd runchroot digests rest true
        else .failed
    else globExact ctx cmnd runchroot digests rest badDigest

/-- The loop over base name, directory and file.  A directory spec that matches is a match
whatever the arguments are. -/
def globBase (ctx : SudoersContext) (sudoersCmnd : String) (sudoersArgs : Option String)
    (runchroot : Option String) (digests : List CommandDigest) : List String → Bool
  | [] => false
  | cp :: rest =>
    let next := globBase ctx sudoersCmnd sudoersArgs runchroot digests rest
    if endsInSlash cp then commandMatchesDir env ctx cp runchroot digests || next
    else if ctx.user.cmndBase = sudoBasename cp ∧ sameParentDir env ctx cp ∧
        openCmnd env cp runchroot digests then
      match doStat env cp runchroot with
      | none => next
      | some st =>
        if sameFile ctx st && env.digestMatches cp runchroot digests then
          commandArgsMatch env ctx sudoersCmnd sudoersArgs
        else next
    else next

def commandMatchesGlob (ctx : SudoersContext) (cmnd pattern : String)
    (sudoersArgs : Option String) (runchroot : Option String)
    (digests : List CommandDigest) : Bool :=
  match underRoot env runchroot pattern with
  | none => false
  | some sudoersCmnd =>
    if ¬ endsInSlash sudoersCmnd ∧ ¬ hasMeta (sudoBasename sudoersCmnd) ∧
        ctx.user.cmndBase ≠ sudoBasename sudoersCmnd then false
    else
      let paths := (env.glob sudoersCmnd).map
        (fun p => String.ofList (p.toList.drop (runchroot.getD "").length))
      match if startsWithSlash cmnd then globExact env ctx cmnd runchroot digests paths false
          else GlobExact.none false with
      | .found _ => commandArgsMatch env ctx sudoersCmnd sudoersArgs
      | .failed => false
      | .none true => false
      | .none false => globBase env ctx sudoersCmnd sudoersArgs runchroot digests paths

def commandMatchesNormal (ctx : SudoersContext) (cmnd sudoersCmnd : String)
    (sudoersArgs : Option String) (runchroot : Option String)
    (digests : List CommandDigest) : Bool :=
  if endsInSlash sudoersCmnd then commandMatchesDir env ctx sudoersCmnd runchroot digests
  else
    ctx.user.cmndBase == sudoBasename sudoersCmnd &&
      (match dirPart sudoersCmnd with
        | none => true
        | some dir =>
          ctx.user.cmndDir.isNone ||
            (decide (dir.length < env.pathMax) && sameCanonicalDir env ctx dir)) &&
      openCmnd env sudoersCmnd runchroot digests &&
      (match ctx.user.cmndStat, doStat env sudoersCmnd runchroot with
        | some own, some st => own == st
        | _, _ => cmnd == sudoersCmnd) &&
      commandArgsMatch env ctx sudoersCmnd sudoersArgs &&
      env.digestMatches sudoersCmnd runchroot digests

/-- The body of `command_matches`, with the root settled.  The source reads the command
through the pointer, and where that is `NULL` there is no match here. -/
def commandMatchesUnder (ctx : SudoersContext) (c : SudoCommand) (runchroot : Option String) :
    Bool :=
  match ctx.user.cmnd with
  | none => false
  | some cmnd =>
    match c.cmnd with
    | none => commandMatchesAll env ctx cmnd runchroot c.digests
    | some sudoersCmnd =>
      if sudoersCmnd.toList.head? = some '^' then
        commandMatchesPattern env (env.regexMatches sudoersCmnd) ctx cmnd sudoersCmnd c.args
          runchroot c.digests
      else if ¬ startsWithSlash sudoersCmnd then
        (sudoersCmnd == "list" || sudoersCmnd == "sudoedit") && cmnd == sudoersCmnd &&
          commandArgsMatch env ctx sudoersCmnd c.args
      else if hasMeta sudoersCmnd then
        if env.fastGlob then
          commandMatchesPattern env (env.fnmatchPathname sudoersCmnd) ctx cmnd sudoersCmnd c.args
            runchroot c.digests
        else commandMatchesGlob env ctx cmnd sudoersCmnd c.args runchroot c.digests
      else commandMatchesNormal env ctx cmnd sudoersCmnd c.args runchroot c.digests

/-- The search path and the command that `set_cmnd_path` hands to `resolve_cmnd`. -/
def resolveUnder (ctx : SudoersContext) (runchroot : String) : Resolution :=
  let cmndIn := if ctx.modeCheck then ctx.runas.argv.getD 1 "" else ctx.runas.argv.getD 0 ""
  let path := match env.securePath with
    | some p => some p
    | none => ctx.user.path
  env.resolveCmnd cmndIn path runchroot

/-- `set_cmnd_path`: the status, and the context with `cmnd`, `cmnd_list`, `cmnd_dir` and
what `cmnd_stat` points to written anew. -/
def setCmndPath (ctx : SudoersContext) (runchroot : String) : CmndStatus × SudoersContext :=
  let r := resolveUnder env ctx runchroot
  let found := r.status = .found
  let out := if found then some r.outfile else none
  (r.status,
    { ctx with user := { ctx.user with
        cmnd := if ctx.modeCheck then none else out
        cmndList := if ctx.modeCheck then out else none
        cmndDir := if found then (dirPart r.outfile).bind env.canonPath else none
        cmndStat := ctx.user.cmndStat.map (fun own => r.lastStat.getD own) } })

/-- The command of `info` is what was found under the root of the rule. -/
def keepInfo (fresh : UserContext) (info : CmndInfo) : CmndInfo :=
  { info with
    cmndPath := fresh.cmnd
    cmndStat := match fresh.cmndStat with
      | some st => some st
      | none => info.cmndStat }

/-- `command_matches` for a rule with a root of its own: the command is resolved again. -/
def commandMatchesOwnRoot (ruleRoot : String) (c : SudoCommand)
    (s : SudoersContext × Option CmndInfo) : Bool × SudoersContext × Option CmndInfo :=
  let saved := s.1.user
  let status := (setCmndPath env s.1 ruleRoot).1
  let fresh := (setCmndPath env s.1 ruleRoot).2
  let info := s.2.map (fun i => { i with status := status })
  if status = .found then
    match saved.cmnd with
    | none => (commandMatchesUnder env fresh c (some ruleRoot), fresh, info)
    | some cmnd =>
      (commandMatchesUnder env fresh c (some ruleRoot),
        { fresh with user := { fresh.user with cmnd := some cmnd, cmndStat := saved.cmndStat } },
        info.map (keepInfo fresh.user))
  else
    -- The old command is put back at once, and there is nothing left to restore at the end.
    let again := { fresh with user := { fresh.user with cmnd := saved.cmnd } }
    (commandMatchesUnder env again c (some ruleRoot), again, info)

def commandMatches (runchroot : Option String) (c : SudoCommand)
    (s : SudoersContext × Option CmndInfo) : Bool × SudoersContext × Option CmndInfo :=
  match s.1.runas.chroot with
  | some root =>
    if runchroot.any (fun ruleRoot => ruleRoot ≠ "*" ∧ ruleRoot ≠ root) then (false, s)
    else (commandMatchesUnder env s.1 c (some root), s)
  | none =>
    match runchroot with
    | none =>
      (commandMatchesUnder env s.1 c
        (if env.runchroot = some "*" then none else env.runchroot), s)
    | some ruleRoot => commandMatchesOwnRoot env ruleRoot c s

end NextBSD.Sudoers
