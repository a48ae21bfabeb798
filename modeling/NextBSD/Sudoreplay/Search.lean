import NextBSD.Sudoers.Timestamp

/-!
# sudoreplay: search expressions

The arguments after `-l` are terms with connectives and parentheses.  They are parsed into a list of
search nodes, and every log entry is tested with it.
-/

namespace NextBSD.Sudoreplay

open Sudoers (Timespec sudoTimespecLt)

/-- `regcomp`, `regexec` and `get_date`. -/
structure SearchEnv where
  Regex : Type
  regexCompile : String → Except String Regex
  regexec : Regex → String → Except String Bool
  getDate : String → Int

structure Eventlog where
  command : String
  runargv : List String
  cwd : Option String
  submithost : Option String
  submituser : Option String
  ttyname : Option String
  rungroup : Option String
  runuser : Option String
  eventTime : Timespec

/-! ## The list of nodes -/

/-- The node types but for `ST_EXPR`. -/
inductive TermType where
  | tty
  | user
  | pattern
  | runasuser
  | runasgroup
  | fromdate
  | todate
  | cwd
  | host
  deriving DecidableEq, Repr

inductive SearchTerm (env : SearchEnv) where
  | tty (tty : String)
  | user (user : String)
  | pattern (cmdre : env.Regex)
  | runasuser (runasUser : String)
  | runasgroup (runasGroup : String)
  | fromdate (tstamp : Timespec)
  | todate (tstamp : Timespec)
  | cwd (cwd : String)
  | host (host : String)

inductive SearchNode (env : SearchEnv) where
  | term (negated or : Bool) (term : SearchTerm env)
  | expr (negated or : Bool) (expr : List (SearchNode env))

inductive Word where
  | and
  | or
  | not
  | term (type : TermType)
  | opening
  | closing
  | ambiguous
  | unknown
  deriving DecidableEq, Repr

/-- `strncmp(*av, keyword, strlen(*av)) == 0`. -/
def abbreviates (av keyword : String) : Bool := av.toList.isPrefixOf keyword.toList

def keywordOr (av keyword : String) (word other : Word) : Word :=
  if abbreviates av keyword then word else other

def wordOf (av : String) : Word :=
  match av.toList with
  | 'a' :: _ => keywordOr av "and" .and .unknown
  | 'o' :: _ => keywordOr av "or" .or .unknown
  | '!' :: rest => if rest = [] then .not else .unknown
  | 'c' :: rest =>
    if rest = [] then .ambiguous
    else keywordOr av "cwd" (.term .cwd) (keywordOr av "command" (.term .pattern) .unknown)
  | 'f' :: _ => keywordOr av "fromdate" (.term .fromdate) .unknown
  | 'g' :: _ => keywordOr av "group" (.term .runasgroup) .unknown
  | 'h' :: _ => keywordOr av "host" (.term .host) .unknown
  | 'r' :: _ => keywordOr av "runas" (.term .runasuser) .unknown
  | 't' :: rest =>
    if rest = [] then .ambiguous
    else keywordOr av "todate" (.term .todate) (keywordOr av "tty" (.term .tty) .unknown)
  | 'u' :: _ => keywordOr av "user" (.term .user) .unknown
  | '(' :: rest => if rest = [] then .opening else .unknown
  | ')' :: rest => if rest = [] then .closing else .unknown
  | _ => .unknown

def dateTerm (env : SearchEnv) (arg : String) : Except String Timespec :=
  let tvSec := env.getDate arg
  if tvSec = -1 then .error s!"could not parse date \"{arg}\""
  else .ok { tvSec := tvSec, tvNsec := 0 }

def termOf (env : SearchEnv) (type : TermType) (arg : String) : Except String (SearchTerm env) :=
  match type with
  | .pattern =>
    match env.regexCompile arg with
    | .ok cmdre => .ok (.pattern cmdre)
    | .error errstr => .error s!"invalid regular expression \"{arg}\": {errstr}"
  | .todate => (dateTerm env arg).map .todate
  | .fromdate => (dateTerm env arg).map .fromdate
  | .tty => .ok (.tty arg)
  | .user => .ok (.user arg)
  | .runasuser => .ok (.runasuser arg)
  | .runasgroup => .ok (.runasgroup arg)
  | .cwd => .ok (.cwd arg)
  | .host => .ok (.host arg)

/-- The variables of a call of `parse_expr`. -/
structure ParseFrame (env : SearchEnv) where
  or : Bool
  not : Bool
  head : List (SearchNode env)

def ParseFrame.start (env : SearchEnv) : ParseFrame env := { or := false, not := false, head := [] }

/-- `STAILQ_INSERT_TAIL`, and the flags are reset. -/
def ParseFrame.insert {env : SearchEnv} (frame : ParseFrame env) (sn : SearchNode env) :
    ParseFrame env :=
  { or := false, not := false, head := frame.head ++ [sn] }

/-- The loop of `parse_expr`, and the calls that wait for this one to return. -/
def parseLoop (env : SearchEnv) :
    List (ParseFrame env) → ParseFrame env → List String → Except String (List (SearchNode env))
  | [], frame, [] =>
    if frame.or then .error "illegal trailing \"or\""
    else if frame.not then .error "illegal trailing \"!\""
    else .ok frame.head
  | _ :: _, _, [] => .error "unmatched '(' in expression"
  | callers, frame, av :: rest =>
    match wordOf av with
    | .and => parseLoop env callers frame rest
    | .or => parseLoop env callers { frame with or := true } rest
    | .not => parseLoop env callers { frame with not := true } rest
    | .opening => parseLoop env (frame :: callers) (.start env) rest
    | .closing =>
      match callers with
      | [] => .error "unmatched ')' in expression"
      | caller :: callers =>
        parseLoop env callers (caller.insert (.expr caller.not caller.or frame.head)) rest
    | .term type =>
      match rest with
      | [] => .error s!"{av} requires an argument"
      | arg :: rest =>
        match termOf env type arg with
        | .error e => .error e
        | .ok term => parseLoop env callers (frame.insert (.term frame.not frame.or term)) rest
    | .ambiguous => .error s!"ambiguous expression \"{av}\""
    | .unknown => .error s!"unknown search term \"{av}\""

def parseExpr (env : SearchEnv) (argv : List String) : Except String (List (SearchNode env)) :=
  parseLoop env [] (.start env) argv

def expandCommand (evlog : Eventlog) : String :=
  evlog.runargv.tail.foldl (fun buf arg => buf ++ " " ++ arg) evlog.command

/-- The test of a field; the last result stays when the entry lacks the field. -/
def testField (res : Bool) (arg : String) : Option String → Bool
  | none => res
  | some field => arg = field

def testTerm {env : SearchEnv} (evlog : Eventlog) (res : Bool) : SearchTerm env → Except String Bool
  | .cwd arg => .ok (testField res arg evlog.cwd)
  | .host arg => .ok (testField res arg evlog.submithost)
  | .tty arg => .ok (testField res arg evlog.ttyname)
  | .runasgroup arg => .ok (testField res arg evlog.rungroup)
  | .runasuser arg => .ok (testField res arg evlog.runuser)
  | .user arg => .ok (testField res arg evlog.submituser)
  | .pattern cmdre => env.regexec cmdre (expandCommand evlog)
  | .fromdate tstamp => .ok !(sudoTimespecLt evlog.eventTime tstamp)
  | .todate tstamp => .ok !(sudoTimespecLt tstamp evlog.eventTime)

def SearchNode.negated {env : SearchEnv} : SearchNode env → Bool
  | .term negated _ _ => negated
  | .expr negated _ _ => negated

def SearchNode.or {env : SearchEnv} : SearchNode env → Bool
  | .term _ or _ => or
  | .expr _ or _ => or

def combine (or res lastMatch : Bool) : Bool := if or then res || lastMatch else res && lastMatch

mutual

def matchNode {env : SearchEnv} (evlog : Eventlog) (res matched : Bool) :
    SearchNode env → Except String Bool
  | .term _ _ term => testTerm evlog res term
  | .expr _ _ expr => matchLoop evlog false matched expr

/-- The loop of `match_expr`, in which `matched` and `last_match` are the same. -/
def matchLoop {env : SearchEnv} (evlog : Eventlog) (res lastMatch : Bool) :
    List (SearchNode env) → Except String Bool
  | [] => .ok lastMatch
  | sn :: head =>
    match matchNode evlog res lastMatch sn with
    | .error e => .error e
    | .ok value =>
      let value := if sn.negated then !value else value
      matchLoop evlog value (combine sn.or value lastMatch) head

end

def matchExpr {env : SearchEnv} (evlog : Eventlog) (head : List (SearchNode env))
    (lastMatch : Bool) : Except String Bool :=
  matchLoop evlog false lastMatch head

/-- `parse_expr`, and `match_expr` as `list_session` calls it. -/
def searchMatches (env : SearchEnv) (argv : List String) (evlog : Eventlog) : Except String Bool :=
  match parseExpr env argv with
  | .error e => .error e
  | .ok head => matchExpr evlog head true

mutual

def nodeValue {env : SearchEnv} (evlog : Eventlog) : SearchNode env → Except String Bool
  | .term negated _ term => (testTerm evlog false term).map (negated ^^ ·)
  | .expr negated _ expr => (listValue evlog true expr).map (negated ^^ ·)

def listValue {env : SearchEnv} (evlog : Eventlog) (value : Bool) :
    List (SearchNode env) → Except String Bool
  | [] => .ok value
  | sn :: head =>
    match nodeValue evlog sn with
    | .error e => .error e
    | .ok own => listValue evlog (combine sn.or own value) head

end

def searchValue (env : SearchEnv) (argv : List String) (evlog : Eventlog) : Except String Bool :=
  match parseExpr env argv with
  | .error e => .error e
  | .ok head => listValue evlog true head

def SearchTerm.Has {env : SearchEnv} (evlog : Eventlog) : SearchTerm env → Prop
  | .cwd _ => evlog.cwd ≠ none
  | .host _ => evlog.submithost ≠ none
  | .tty _ => evlog.ttyname ≠ none
  | .runasgroup _ => evlog.rungroup ≠ none
  | .runasuser _ => evlog.runuser ≠ none
  | .user _ => evlog.submituser ≠ none
  | .pattern _ | .fromdate _ | .todate _ => True

def Decides {env : SearchEnv} (evlog : Eventlog) (head : List (SearchNode env)) : Prop :=
  ∃ sn ∈ head, nodeValue evlog sn = .ok sn.or

mutual

/-- Behind nodes of which the last has the value `previous` and all together have the value `value`,
a field is only missing if the last value was false, and a group only follows what is true or
decides its value itself. -/
def NodeStands {env : SearchEnv} (evlog : Eventlog) (previous value : Bool) : SearchNode env → Prop
  | .term _ _ term => term.Has evlog ∨ previous = false
  | .expr _ _ expr => ListStands evlog false value expr ∧ (value = true ∨ Decides evlog expr)

def ListStands {env : SearchEnv} (evlog : Eventlog) (previous value : Bool) :
    List (SearchNode env) → Prop
  | [] => True
  | sn :: head =>
    NodeStands evlog previous value sn ∧
      ∀ own, nodeValue evlog sn = .ok own → ListStands evlog own (combine sn.or own value) head

end

/-! ## Expressions that are matched as they mean -/

section Matching

variable {env : SearchEnv} {evlog : Eventlog}

theorem testTerm_eq {res : Bool} {term : SearchTerm env} (h : term.Has evlog ∨ res = false) :
    testTerm evlog res term = testTerm evlog false term := by
  rcases h with h | rfl
  case inr => rfl
  have hfield : ∀ {arg : String} {field : Option String}, field ≠ none →
      testField res arg field = testField false arg field := by
    intro arg field hne
    cases field with
    | none => exact absurd rfl hne
    | some field => rfl
  cases term with
  | tty _ | user _ | runasuser _ | runasgroup _ | cwd _ | host _ =>
    exact congrArg Except.ok (hfield h)
  | pattern _ | fromdate _ | todate _ => rfl

theorem listValue_cons_ok {sn : SearchNode env} {head : List (SearchNode env)} {own value : Bool}
    (h : nodeValue evlog sn = .ok own) :
    listValue evlog value (sn :: head) = listValue evlog (combine sn.or own value) head := by
  rw [listValue, h]

theorem listValue_cons_error {sn : SearchNode env} {head : List (SearchNode env)} {value : Bool}
    {e : String} (h : nodeValue evlog sn = .error e) :
    listValue evlog value (sn :: head) = .error e := by
  rw [listValue, h]

theorem listValue_eq_of_decides {head : List (SearchNode env)} (h : Decides evlog head)
    (value value' : Bool) : listValue evlog value head = listValue evlog value' head := by
  obtain ⟨sn, hmem, hown⟩ := h
  induction head generalizing value value' with
  | nil => exact absurd hmem List.not_mem_nil
  | cons first head ih =>
    cases hfirst : nodeValue evlog first with
    | error e => rw [listValue_cons_error hfirst, listValue_cons_error hfirst]
    | ok own =>
      rw [listValue_cons_ok hfirst, listValue_cons_ok hfirst]
      rcases List.mem_cons.mp hmem with rfl | hmem
      · obtain rfl : own = sn.or := Except.ok.inj (hfirst.symm.trans hown)
        have hdecided : ∀ value, combine sn.or sn.or value = sn.or := by
          intro value
          cases h : sn.or <;> simp [combine]
        rw [hdecided, hdecided]
      · exact ih _ _ hmem

mutual

theorem matchNode_eq {previous value : Bool} (sn : SearchNode env)
    (h : NodeStands evlog previous value sn) :
    (matchNode evlog previous value sn).map (sn.negated ^^ ·) = nodeValue evlog sn := by
  cases sn with
  | term negated or term =>
    rw [NodeStands] at h
    rw [matchNode, testTerm_eq h, nodeValue]
    rfl
  | expr negated or expr =>
    rw [NodeStands] at h
    obtain ⟨hstands, hdecides⟩ := h
    rw [matchNode, matchLoop_eq expr hstands, nodeValue]
    have hstart : listValue evlog value expr = listValue evlog true expr := by
      rcases hdecides with rfl | hdecides
      · rfl
      · exact listValue_eq_of_decides hdecides value true
    rw [hstart]
    rfl

theorem matchLoop_eq {previous value : Bool} (head : List (SearchNode env))
    (h : ListStands evlog previous value head) :
    matchLoop evlog previous value head = listValue evlog value head := by
  cases head with
  | nil => rw [matchLoop, listValue]
  | cons sn head =>
    rw [ListStands] at h
    obtain ⟨hnode, hrest⟩ := h
    have hown := matchNode_eq sn hnode
    rw [matchLoop]
    cases hmatch : matchNode evlog previous value sn with
    | error e =>
      rw [hmatch] at hown
      rw [listValue_cons_error hown.symm]
    | ok res =>
      rw [hmatch] at hown
      have hvalue : (if sn.negated = true then !res else res) = (sn.negated ^^ res) := by
        cases sn.negated <;> cases res <;> rfl
      dsimp only
      rw [hvalue, listValue_cons_ok hown.symm]
      exact matchLoop_eq head (hrest _ hown.symm)

end

end Matching

/-- An expression of which all nodes stand where their value is their own is matched as it means. -/
theorem searchMatches_eq_searchValue (env : SearchEnv) (argv : List String) (evlog : Eventlog)
    (hstands : ∀ head, parseExpr env argv = .ok head → ListStands evlog false true head) :
    searchMatches env argv evlog = searchValue env argv evlog := by
  unfold searchMatches searchValue
  cases hparse : parseExpr env argv with
  | error e => rfl
  | ok head => exact matchLoop_eq head (hstands head hparse)

def plainEnv : SearchEnv where
  Regex := Unit
  regexCompile _ := .error "not supported"
  regexec _ _ := .ok false
  getDate _ := -1

def entryOf (submituser : String) : Eventlog where
  command := "/bin/ls"
  runargv := []
  cwd := none
  submithost := none
  submituser := some submituser
  ttyname := none
  rungroup := none
  runuser := some "root"
  eventTime := { tvSec := 0, tvNsec := 0 }

/-- A group that decides, and a field that is missing in front of it. -/
theorem searchMatches_eq_searchValue_group :
    searchMatches plainEnv ["user", "root", "or", "(", "tty", "console", "or", "runas", "root", ")"]
        (entryOf "alice") =
      searchValue plainEnv ["user", "root", "or", "(", "tty", "console", "or", "runas", "root", ")"]
        (entryOf "alice") := by
  refine searchMatches_eq_searchValue plainEnv _ _ fun head hhead => ?_
  obtain rfl := Except.ok.inj ((show Except.ok
    [.term false false (.user "root"), .expr false true [.term false false (.tty "console"),
      .term false true (.runasuser "root")]] = parseExpr plainEnv _ from rfl).trans hhead)
  have hdecides : @Decides plainEnv (entryOf "alice")
      [.term false false (.tty "console"), .term false true (.runasuser "root")] :=
    ⟨.term false true (.runasuser "root"), by simp, rfl⟩
  simp [ListStands, NodeStands, SearchTerm.Has, hdecides]
  simp [entryOf]

/-- A group behind something false is false, and a field that is missing takes over the last
result. -/
theorem searchMatches_ne_searchValue :
    searchMatches plainEnv ["user", "root", "or", "(", "user", "alice", ")"] (entryOf "alice") ≠
        searchValue plainEnv ["user", "root", "or", "(", "user", "alice", ")"]
          (entryOf "alice") ∧
      searchMatches plainEnv ["user", "alice", "tty", "console"] (entryOf "alice") ≠
        searchValue plainEnv ["user", "alice", "tty", "console"] (entryOf "alice") := by
  decide

end NextBSD.Sudoreplay
