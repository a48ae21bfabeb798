import NextBSD.Libpkg.Ports.Line

/-!
# utils.c: format_exec_cmd

The script of a keyword is a template.  Behind a percent sign there is a letter or the number of an
argument; the loop goes on behind it, also where the string ended at the percent sign.
-/

namespace NextBSD.Libpkg.Ports

open Manifest (Bytes ascii)

/-- The arguments of `format_exec_cmd` besides the template. -/
structure ExecEnv where
  pkgPrefix : Bytes
  plistFile : Option Bytes
  line : Option Bytes
  argv : Option (List Bytes)
  lua : Bool

def ExecEnv.args (env : ExecEnv) : List Bytes := env.argv.getD []

def ExecEnv.argc (env : ExecEnv) : Nat := env.args.length

inductive ExecOutcome where
  | ok (dest : Bytes)
  | fatal (message : Bytes)
  /-- Something is read that is not there. -/
  | outOfBounds
  deriving DecidableEq, Repr

def MAXPATHLEN : Nat := 1024

def isdigit (c : UInt8) : Bool := 48 ≤ c && c ≤ 57

def decimal (n : Int) : Bytes := ascii (toString n)

def digitsNumber (digits : Bytes) : Nat := digits.foldl (fun n c => n * 10 + (c.toNat - 48)) 0

def strtolInt (digits : Bytes) : Int :=
  let n : Int := min (digitsNumber digits) (2 ^ 63 - 1)
  (n + 2 ^ 31) % 2 ^ 32 - 2 ^ 31

def afterLastSlash (path : Bytes) : Bytes := (path.reverse.takeWhile (· ≠ 47)).reverse

def beforeLastSlash (path : Bytes) : Option Bytes :=
  match path.reverse.dropWhile (· ≠ 47) with
  | [] => none
  | _ :: front => some front.reverse

def ExecEnv.filePath (env : ExecEnv) (file : Bytes) : Bytes :=
  if env.pkgPrefix.getLast? = some 47 then env.pkgPrefix ++ file
  else env.pkgPrefix ++ 47 :: file

def ExecEnv.file (env : ExecEnv) : Option Bytes :=
  match env.plistFile with
  | some [] => none
  | file => file

def withFile (env : ExecEnv) (selector : UInt8) (rest : Bytes)
    (value : Bytes → Except ExecOutcome (Bytes × Nat)) : Except ExecOutcome (Bytes × Nat) :=
  match env.file with
  | none => .error (.fatal (ascii "No files defined %" ++ selector ::
      ascii " couldn't be expanded, ignoring " ++ selector :: rest))
  | some file => value file

def fileDirectory (env : ExecEnv) (file : Bytes) : Except ExecOutcome (Bytes × Nat) :=
  if env.pkgPrefix = [] then .error .outOfBounds
  else
    match beforeLastSlash ((env.filePath file).take (MAXPATHLEN - 1)) with
    | none => .error .outOfBounds
    | some path => .ok (path, 0)

/-- The `switch` on the character behind a percent sign: what is written, and how many of the
characters that follow are taken with it. -/
def formatSelector (env : ExecEnv) (rest : Bytes) : UInt8 → Except ExecOutcome (Bytes × Nat)
  | 68 => .ok (env.pkgPrefix, 0)
  | 70 => withFile env 70 rest fun file => .ok (file, 0)
  | 102 => withFile env 102 rest fun file => .ok (afterLastSlash file, 0)
  | 66 => withFile env 66 rest (fileDirectory env)
  | 37 => .ok ([37], 0)
  | 64 =>
    match env.line with
    | some line => .ok (line, 0)
    -- `%@` is `%#` here.
    | none => .ok (decimal env.argc, 0)
  | 35 => .ok (decimal env.argc, 0)
  | selector =>
    if isdigit selector then
      let digits := selector :: rest.takeWhile isdigit
      let pos := strtolInt digits
      if (env.argc : Int) < pos then
        .error (.fatal (ascii "Requesting argument %" ++ decimal pos ++ ascii " while only " ++
          decimal env.argc ++ ascii " arguments are available"))
      else if pos < 1 then .error .outOfBounds
      else
        match env.args[(pos - 1).toNat]? with
        | none => .error .outOfBounds
        | some arg => .ok (arg, digits.length - 1)
    else .ok ([37, selector], 0)

/-- The loop of `format_exec_cmd`.  The next `skip` characters were taken with a number. -/
def formatLoop (env : ExecEnv) (buf : Bytes) : Nat → Bytes → ExecOutcome
  | _, [] => .ok buf
  | skip + 1, _ :: rest => formatLoop env buf skip rest
  | 0, c :: rest =>
    if c ≠ 37 then formatLoop env (buf ++ [c]) 0 rest
    else
      match rest with
      -- The null is put into the buffer, and the loop goes on behind it.
      | [] => .outOfBounds
      | selector :: rest =>
        match formatSelector env rest selector with
        | .error outcome => outcome
        | .ok (value, skip) => formatLoop env (buf ++ value) skip rest

def argsComment (env : ExecEnv) : Bytes :=
  match env.line, env.argv with
  | some line, some _ => ascii (if env.lua then "-- args: " else "# args: ") ++ line ++ [10]
  | _, _ => []

def formatExecCmd (env : ExecEnv) (template : Bytes) : ExecOutcome :=
  formatLoop env (argsComment env) 0 template

inductive Piece where
  | text (c : UInt8)
  | select (c : UInt8)
  | arg (digits : Bytes)
  | lone
  deriving DecidableEq, Repr

inductive TemplateState where
  | text
  | percent
  | number (digits : Bytes)

/-- The template is cut at percent signs, and numbers are as long as they can be. -/
def pieces : TemplateState → Bytes → List Piece
  | .text, [] => []
  | .percent, [] => [.lone]
  | .number digits, [] => [.arg digits]
  | .text, c :: rest => if c = 37 then pieces .percent rest else .text c :: pieces .text rest
  | .percent, c :: rest =>
    if isdigit c then pieces (.number [c]) rest else .select c :: pieces .text rest
  | .number digits, c :: rest =>
    if isdigit c then pieces (.number (digits ++ [c])) rest
    else if c = 37 then .arg digits :: pieces .percent rest
    else .arg digits :: .text c :: pieces .text rest

def Piece.source : Piece → Bytes
  | .text c => [c]
  | .select c => [37, c]
  | .arg digits => 37 :: digits
  | .lone => [37]

/-- The piece uses a file, and there is none, or an argument that there is not. -/
def Piece.Fails (env : ExecEnv) : Piece → Prop
  | .select c => (c = 70 ∨ c = 102 ∨ c = 66) ∧ env.file = none
  | .arg digits => ¬(1 ≤ digitsNumber digits ∧ digitsNumber digits ≤ env.argc)
  | _ => False

instance (env : ExecEnv) (piece : Piece) : Decidable (piece.Fails env) := by
  unfold Piece.Fails
  split <;> infer_instance

def Piece.value (env : ExecEnv) : Piece → Bytes
  | .text c => [c]
  | .select c =>
    if c = 68 then env.pkgPrefix
    else if c = 70 then env.file.getD []
    else if c = 102 then afterLastSlash (env.file.getD [])
    else if c = 66 then (beforeLastSlash (env.filePath (env.file.getD []))).getD []
    else if c = 37 then [37]
    else if c = 64 then env.line.getD (decimal env.argc)
    else if c = 35 then decimal env.argc
    else [37, c]
  | .arg digits => (env.args[digitsNumber digits - 1]?).getD []
  | .lone => [37]

/-- A piece that the code is made for: a percent sign is not the end, the number of an argument is
positive and fits an `int`, and the path of a file fits its buffer. -/
def Piece.Sane (env : ExecEnv) : Piece → Prop
  | .lone => False
  | .arg digits => 1 ≤ digitsNumber digits ∧ digitsNumber digits < 2 ^ 31
  | .select c => c = 66 → ∀ file, env.file = some file → (env.filePath file).length < MAXPATHLEN
  | .text _ => True

/-! ## The loop and the pieces -/

theorem pieces_select {c : UInt8} (h : isdigit c = false) (rest : Bytes) :
    pieces .percent (c :: rest) = .select c :: pieces .text rest := by
  rw [pieces, if_neg (by simp [h])]

theorem pieces_number (digits rest : Bytes) :
    pieces (.number digits) rest =
      .arg (digits ++ rest.takeWhile isdigit) :: pieces .text (rest.dropWhile isdigit) := by
  induction rest generalizing digits with
  | nil => rw [List.takeWhile_nil, List.append_nil]; rfl
  | cons c rest ih =>
    rw [pieces]
    by_cases hc : isdigit c = true
    · rw [if_pos hc, ih, List.takeWhile_cons_of_pos hc, List.dropWhile_cons_of_pos hc,
        List.append_assoc, List.singleton_append]
    · rw [if_neg hc, List.takeWhile_cons_of_neg hc, List.dropWhile_cons_of_neg hc, List.append_nil,
        pieces]
      split <;> rfl

theorem flatMap_source_pieces (state : TemplateState) (template : Bytes) :
    (pieces state template).flatMap Piece.source =
      (match state with
        | .text => []
        | .percent => [37]
        | .number digits => 37 :: digits) ++ template := by
  induction template generalizing state with
  | nil => cases state <;> simp [pieces, Piece.source]
  | cons c rest ih =>
    cases state with
    | text =>
      rw [pieces]
      split
      case isTrue h => rw [ih, h]; rfl
      case isFalse h => rw [List.flatMap_cons, ih]; rfl
    | percent =>
      rw [pieces]
      split
      · rw [ih]; rfl
      · rw [List.flatMap_cons, ih]; rfl
    | number digits =>
      rw [pieces]
      split
      · rw [ih]; simp
      · split
        case isTrue h => rw [List.flatMap_cons, ih, h]; simp [Piece.source]
        case isFalse h => rw [List.flatMap_cons, List.flatMap_cons, ih]; simp [Piece.source]

theorem formatLoop_text {c : UInt8} (hc : c ≠ 37) (env : ExecEnv) (buf rest : Bytes) :
    formatLoop env buf 0 (c :: rest) = formatLoop env (buf ++ [c]) 0 rest := by
  cases rest <;> exact if_pos hc

theorem formatLoop_percent (env : ExecEnv) (buf rest : Bytes) (selector : UInt8) :
    formatLoop env buf 0 (37 :: selector :: rest) =
      match formatSelector env rest selector with
      | .error outcome => outcome
      | .ok (value, skip) => formatLoop env (buf ++ value) skip rest := rfl

theorem formatLoop_takeWhile (env : ExecEnv) (buf rest : Bytes) :
    formatLoop env buf (rest.takeWhile isdigit).length rest =
      formatLoop env buf 0 (rest.dropWhile isdigit) := by
  induction rest with
  | nil => rfl
  | cons c rest ih =>
    by_cases hc : isdigit c = true
    · rw [List.takeWhile_cons_of_pos hc, List.dropWhile_cons_of_pos hc, List.length_cons,
        formatLoop, ih]
    · rw [List.takeWhile_cons_of_neg hc, List.dropWhile_cons_of_neg hc, List.length_nil]

theorem strtolInt_of_lt {digits : Bytes} (h : digitsNumber digits < 2 ^ 31) :
    strtolInt digits = digitsNumber digits := by
  unfold strtolInt
  dsimp only
  omega

theorem exists_beforeLastSlash {path : Bytes} (h : 47 ∈ path) :
    ∃ front, beforeLastSlash path = some front := by
  unfold beforeLastSlash
  have hmem : 47 ∈ path.reverse := List.mem_reverse.mpr h
  generalize path.reverse = back at hmem
  induction back with
  | nil => exact absurd hmem List.not_mem_nil
  | cons c back ih =>
    by_cases hc : c = 47
    · rw [hc, List.dropWhile_cons_of_neg (by decide)]
      exact ⟨_, rfl⟩
    · rw [List.dropWhile_cons_of_pos (by simpa using hc)]
      exact ih ((List.mem_cons.mp hmem).resolve_left (Ne.symm hc))

theorem ExecEnv.slash_mem_filePath (env : ExecEnv) (file : Bytes) : 47 ∈ env.filePath file := by
  unfold ExecEnv.filePath
  split
  case isTrue h => exact List.mem_append_left _ (List.mem_of_getLast? h)
  case isFalse => simp

def Agrees (env : ExecEnv) (outcome : ExecOutcome) (buf : Bytes) (rest : List Piece) : Prop :=
  ((∃ message, outcome = .fatal message) ↔ ∃ piece ∈ rest, piece.Fails env) ∧
    ((∀ piece ∈ rest, ¬piece.Fails env) →
      outcome = .ok (buf ++ rest.flatMap (Piece.value env)))

variable {env : ExecEnv} {outcome : ExecOutcome} {buf : Bytes} {piece : Piece} {rest : List Piece}

theorem Agrees.cons (hpiece : ¬piece.Fails env) (h : Agrees env outcome (buf ++ piece.value env) rest) :
    Agrees env outcome buf (piece :: rest) := by
  obtain ⟨hfatal, hok⟩ := h
  constructor
  · rw [hfatal]
    simp [hpiece]
  · intro hrest
    rw [hok fun piece h => hrest piece (List.mem_cons_of_mem _ h), List.flatMap_cons,
      List.append_assoc]

theorem agrees_fatal (hpiece : piece.Fails env) (message : Bytes) :
    Agrees env (.fatal message) buf (piece :: rest) :=
  ⟨⟨fun _ => ⟨piece, List.mem_cons_self, hpiece⟩, fun _ => ⟨message, rfl⟩⟩,
    fun h => absurd hpiece (h piece List.mem_cons_self)⟩

theorem formatSelector_letter {selector : UInt8} {rest : Bytes} (hnonempty : env.pkgPrefix ≠ [])
    (hdigit : isdigit selector = false) (hsane : (Piece.select selector).Sane env) :
    ((Piece.select selector).Fails env ∧
        ∃ message, formatSelector env rest selector = .error (.fatal message)) ∨
      (¬(Piece.select selector).Fails env ∧
        formatSelector env rest selector = .ok ((Piece.select selector).value env, 0)) := by
  have hfile : ∀ {c : UInt8} {value : Bytes → Except ExecOutcome (Bytes × Nat)}
      {piece : Bytes → Bytes}, (∀ file, env.file = some file → value file = .ok (piece file, 0)) →
      (env.file = none ∧ ∃ message, withFile env c rest value = .error (.fatal message)) ∨
        (env.file ≠ none ∧ withFile env c rest value = .ok (piece (env.file.getD []), 0)) := by
    intro c value piece hvalue
    unfold withFile
    cases hfile : env.file with
    | none => exact Or.inl ⟨rfl, _, rfl⟩
    | some file => exact Or.inr ⟨Option.some_ne_none _, hvalue file hfile⟩
  unfold formatSelector
  split
  · exact Or.inr ⟨by simp [Piece.Fails], rfl⟩
  · rcases @hfile 70 (fun file => .ok (file, 0)) id (fun _ _ => rfl) with ⟨h, hr⟩ | ⟨h, hr⟩
    · exact Or.inl ⟨⟨by simp, h⟩, hr⟩
    · exact Or.inr ⟨by simp [Piece.Fails, h], hr⟩
  · rcases @hfile 102 (fun file => .ok (afterLastSlash file, 0)) afterLastSlash (fun _ _ => rfl)
      with ⟨h, hr⟩ | ⟨h, hr⟩
    · exact Or.inl ⟨⟨by simp, h⟩, hr⟩
    · exact Or.inr ⟨by simp [Piece.Fails, h], hr⟩
  · rcases @hfile 66 (fileDirectory env) (fun file => (beforeLastSlash (env.filePath file)).getD []) (by
      intro file h
      obtain ⟨front, hfront⟩ := exists_beforeLastSlash (env.slash_mem_filePath file)
      have hlen := hsane rfl file h
      rw [fileDirectory, if_neg hnonempty, List.take_of_length_le (by omega), hfront]
      rfl) with ⟨h, hr⟩ | ⟨h, hr⟩
    · exact Or.inl ⟨⟨by simp, h⟩, hr⟩
    · exact Or.inr ⟨by simp [Piece.Fails, h], hr⟩
  · exact Or.inr ⟨by simp [Piece.Fails], rfl⟩
  · refine Or.inr ⟨by simp [Piece.Fails], ?_⟩
    cases hline : env.line <;> simp [Piece.value, hline]
  · exact Or.inr ⟨by simp [Piece.Fails], rfl⟩
  · rename_i h68 h70 h102 h66 h37 h64 h35
    refine Or.inr ⟨?_, ?_⟩
    · rintro ⟨h | h | h, -⟩ <;> contradiction
    · rw [if_neg (by simp [hdigit])]
      rw [Piece.value, if_neg h68, if_neg h70, if_neg h102, if_neg h66, if_neg h37, if_neg h64,
        if_neg h35]

theorem formatSelector_digit {selector : UInt8} {rest : Bytes} (hdigit : isdigit selector = true)
    (hsane : (Piece.arg (selector :: rest.takeWhile isdigit)).Sane env) :
    ((Piece.arg (selector :: rest.takeWhile isdigit)).Fails env ∧
        ∃ message, formatSelector env rest selector = .error (.fatal message)) ∨
      (¬(Piece.arg (selector :: rest.takeWhile isdigit)).Fails env ∧
        formatSelector env rest selector =
          .ok ((Piece.arg (selector :: rest.takeWhile isdigit)).value env,
            (rest.takeWhile isdigit).length)) := by
  obtain ⟨hpos, hlt⟩ := hsane
  have hformat : ∀ {r : Except ExecOutcome (Bytes × Nat)},
      (if (env.argc : Int) < strtolInt (selector :: rest.takeWhile isdigit) then
        .error (.fatal (ascii "Requesting argument %" ++
          decimal (strtolInt (selector :: rest.takeWhile isdigit)) ++ ascii " while only " ++
          decimal env.argc ++ ascii " arguments are available"))
      else if strtolInt (selector :: rest.takeWhile isdigit) < 1 then .error .outOfBounds
      else
        match env.args[(strtolInt (selector :: rest.takeWhile isdigit) - 1).toNat]? with
        | none => .error .outOfBounds
        | some arg => .ok (arg, (selector :: rest.takeWhile isdigit).length - 1)) = r →
      formatSelector env rest selector = r := by
    intro r hr
    unfold formatSelector
    split
    all_goals first
      | exact absurd hdigit (by decide)
      | (rw [if_pos hdigit]; exact hr)
  rw [strtolInt_of_lt hlt] at hformat
  generalize hn : digitsNumber (selector :: rest.takeWhile isdigit) = n at hpos hlt hformat
  by_cases hargc : n ≤ env.argc
  · refine Or.inr ⟨?_, hformat ?_⟩
    · simp only [Piece.Fails, hn]
      omega
    · rw [if_neg (by omega), if_neg (by omega), show ((n : Int) - 1).toNat = n - 1 by omega]
      have hget : n - 1 < env.args.length := by
        unfold ExecEnv.argc at hargc
        omega
      simp [Piece.value, hn, List.getElem?_eq_getElem hget]
  · refine Or.inl ⟨?_, _, hformat (if_pos (by omega))⟩
    simp only [Piece.Fails, hn]
    omega

theorem formatLoop_selector {buf rest : Bytes} {selector : UInt8} (hnonempty : env.pkgPrefix ≠ [])
    (hsane : ∀ piece ∈ pieces .percent (selector :: rest), piece.Sane env)
    (hrest : ∀ (buf : Bytes) (skip : Nat),
      (∀ piece ∈ pieces .text (rest.drop skip), piece.Sane env) →
      Agrees env (formatLoop env buf 0 (rest.drop skip)) buf (pieces .text (rest.drop skip))) :
    Agrees env
      (match formatSelector env rest selector with
        | .error outcome => outcome
        | .ok (value, skip) => formatLoop env (buf ++ value) skip rest) buf
      (pieces .percent (selector :: rest)) := by
  by_cases hdigit : isdigit selector = true
  · rw [pieces, if_pos hdigit, pieces_number, List.singleton_append] at hsane ⊢
    have hdrop : rest.dropWhile isdigit = rest.drop (rest.takeWhile isdigit).length := by
      have hsplit := @List.takeWhile_append_dropWhile _ isdigit rest
      calc rest.dropWhile isdigit
          = (rest.takeWhile isdigit ++ rest.dropWhile isdigit).drop
              (rest.takeWhile isdigit).length := List.drop_left.symm
        _ = rest.drop (rest.takeWhile isdigit).length := by rw [hsplit]
    rcases formatSelector_digit hdigit (hsane _ List.mem_cons_self) with ⟨h, message, hr⟩ | ⟨h, hr⟩
    · rw [hr]
      exact agrees_fatal h message
    · rw [hr]
      dsimp only
      rw [formatLoop_takeWhile]
      refine Agrees.cons h ?_
      rw [hdrop] at hsane ⊢
      exact hrest _ _ fun piece h => hsane piece (List.mem_cons_of_mem _ h)
  · have hdigit : isdigit selector = false := by simpa using hdigit
    rw [pieces_select hdigit] at hsane ⊢
    rcases @formatSelector_letter env selector rest hnonempty hdigit (hsane _ List.mem_cons_self)
      with ⟨h, message, hr⟩ | ⟨h, hr⟩
    · rw [hr]
      exact agrees_fatal h message
    · rw [hr]
      refine Agrees.cons h ?_
      have hzero := hrest (buf ++ (Piece.select selector).value env) 0
      rw [List.drop_zero] at hzero
      exact hzero fun piece h => hsane piece (List.mem_cons_of_mem _ h)

theorem formatLoop_agrees (hnonempty : env.pkgPrefix ≠ []) (n : Nat) :
    ∀ (template buf : Bytes), template.length ≤ n →
      (∀ piece ∈ pieces .text template, piece.Sane env) →
      Agrees env (formatLoop env buf 0 template) buf (pieces .text template) := by
  induction n with
  | zero =>
    intro template buf hlen _
    obtain rfl : template = [] := List.eq_nil_of_length_eq_zero (Nat.le_zero.mp hlen)
    exact ⟨by simp [formatLoop, pieces], fun _ => by simp [formatLoop, pieces]⟩
  | succ n ih =>
    intro template buf hlen hsane
    cases template with
    | nil => exact ⟨by simp [formatLoop, pieces], fun _ => by simp [formatLoop, pieces]⟩
    | cons c rest =>
      rw [List.length_cons] at hlen
      by_cases hc : c = 37
      · subst hc
        rw [pieces, if_pos rfl] at hsane ⊢
        cases rest with
        | nil => exact (hsane .lone List.mem_cons_self).elim
        | cons selector rest =>
          rw [List.length_cons] at hlen
          rw [formatLoop_percent]
          exact formatLoop_selector hnonempty hsane fun buf skip => ih (rest.drop skip) buf (by
            rw [List.length_drop]
            omega)
      · rw [pieces, if_neg hc] at hsane ⊢
        rw [formatLoop_text hc]
        exact Agrees.cons id (ih rest _ (by omega)
          fun piece h => hsane piece (List.mem_cons_of_mem _ h))

/-- Where all pieces are sane, a template fails just when a piece does, and otherwise its pieces are
replaced by what they stand for, behind the comment with the arguments. -/
theorem formatExecCmd_agrees (env : ExecEnv) (template : Bytes) (hnonempty : env.pkgPrefix ≠ [])
    (hsane : ∀ piece ∈ pieces .text template, piece.Sane env) :
    (pieces .text template).flatMap Piece.source = template ∧
      ((∃ message, formatExecCmd env template = .fatal message) ↔
        ∃ piece ∈ pieces .text template, piece.Fails env) ∧
      ((∀ piece ∈ pieces .text template, ¬piece.Fails env) →
        formatExecCmd env template =
          .ok (argsComment env ++ (pieces .text template).flatMap (Piece.value env))) :=
  ⟨flatMap_source_pieces .text template,
    formatLoop_agrees hnonempty template.length template (argsComment env) (Nat.le_refl _) hsane⟩

def fileKeyword : ExecEnv where
  pkgPrefix := ascii "/usr/local"
  plistFile := some (ascii "bin/x")
  line := some (ascii "a")
  argv := some [ascii "a"]
  lua := false

theorem formatExecCmd_agrees_file :
    (pieces .text (ascii "%D/%F %1 %%")).flatMap Piece.source = ascii "%D/%F %1 %%" ∧
      ((∃ message, formatExecCmd fileKeyword (ascii "%D/%F %1 %%") = .fatal message) ↔
        ∃ piece ∈ pieces .text (ascii "%D/%F %1 %%"), piece.Fails fileKeyword) ∧
      ((∀ piece ∈ pieces .text (ascii "%D/%F %1 %%"), ¬piece.Fails fileKeyword) →
        formatExecCmd fileKeyword (ascii "%D/%F %1 %%") =
          .ok (argsComment fileKeyword ++
            (pieces .text (ascii "%D/%F %1 %%")).flatMap (Piece.value fileKeyword))) := by
  refine formatExecCmd_agrees fileKeyword (ascii "%D/%F %1 %%") (by decide) ?_
  have hpieces : pieces .text (ascii "%D/%F %1 %%") =
      [.select 68, .text 47, .select 70, .text 32, .arg [49], .text 32, .select 37] := by decide
  rw [hpieces]
  simp [Piece.Sane, digitsNumber]

/-- The output begins with a comment that is not in the template, a percent sign at the end makes
the loop leave the string, and `%0` is not an argument. -/
theorem formatExecCmd_not_replaced :
    formatExecCmd fileKeyword (ascii "x") = .ok (ascii "# args: a\nx") ∧
      formatExecCmd fileKeyword (ascii "50%") = .outOfBounds ∧
      formatExecCmd fileKeyword (ascii "%0") = .outOfBounds ∧
      formatExecCmd fileKeyword (ascii "%4294967297") = .ok (ascii "# args: a\na") := by
  decide +kernel

end NextBSD.Libpkg.Ports
