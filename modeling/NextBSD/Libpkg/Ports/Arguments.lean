import NextBSD.Libpkg.Ports.Line

/-!
# utils.c: the arguments of a keyword

A keyword line is cut at blanks and at quotes.  The array for the arguments is as long as there are
blanks, and one more; a quoted argument ends without a blank, however.
-/

namespace NextBSD.Libpkg.Ports

open Manifest (Bytes ascii)

inductive ParseState where
  | start
  | ordinaryText
  | openSingleQuotes
  | inSingleQuotes
  | openDoubleQuotes
  | inDoubleQuotes
  deriving DecidableEq, Repr

/-- From `finish` on, where `p` is at a character that ends the argument. -/
def finish (state : ParseState) (argument rest : Bytes) : Bytes × Option Bytes :=
  if rest = [] ∨ state = .start then (argument, none) else (argument, some rest)

/-- The loop of `pkg_utils_tokenize`.  What is between `p_start` and `p` is `argument`. -/
def tokenizeLoop (state : ParseState) (argument : Bytes) : Bytes → Bytes × Option Bytes
  | [] => (argument, none)
  | p :: rest =>
    match state with
    | .start =>
      if isspace p then tokenizeLoop .start [p] rest
      else if p = 34 then tokenizeLoop .openDoubleQuotes (argument ++ [p]) rest
      else if p = 39 then tokenizeLoop .openSingleQuotes (argument ++ [p]) rest
      else tokenizeLoop .ordinaryText [p] rest
    | .ordinaryText =>
      if isspace p then finish .ordinaryText argument rest
      else tokenizeLoop .ordinaryText (argument ++ [p]) rest
    | .openSingleQuotes =>
      if p = 39 then finish .openSingleQuotes [] rest else tokenizeLoop .inSingleQuotes [p] rest
    | .inSingleQuotes =>
      if p = 39 then finish .inSingleQuotes argument rest
      else tokenizeLoop .inSingleQuotes (argument ++ [p]) rest
    | .openDoubleQuotes =>
      if p = 34 then finish .openDoubleQuotes [] rest else tokenizeLoop .inDoubleQuotes [p] rest
    | .inDoubleQuotes =>
      if p = 34 then finish .inDoubleQuotes argument rest
      else tokenizeLoop .inDoubleQuotes (argument ++ [p]) rest

/-- `pkg_utils_tokenize`: an argument, and what `*args` is set to. -/
def pkgUtilsTokenize (args : Bytes) : Bytes × Option Bytes := tokenizeLoop .start [] args

def pkgUtilsCountSpaces (args : Bytes) : Nat := args.countP isspace

/-- The loop of `apply_keyword_file` over the arguments; nothing if it goes on after so many. -/
def keywordArguments : Nat → Bytes → Option (List Bytes)
  | 0, _ => none
  | fuel + 1, buf =>
    match pkgUtilsTokenize buf with
    | (argument, none) => some [argument]
    | (argument, some rest) => (keywordArguments fuel rest).map (argument :: ·)

inductive Place where
  | outside
  | word
  | quoted (quote : UInt8)
  deriving DecidableEq, Repr

def Place.next (p : UInt8) : Place → Place
  | .outside =>
    if isspace p then .outside else if p = 34 ∨ p = 39 then .quoted p else .word
  | .word => if isspace p then .outside else .word
  | .quoted quote => if p = quote then .outside else .quoted quote

def Place.closes (p : UInt8) (rest : Bytes) : Place → Bool
  | .quoted quote => p = quote && rest ≠ []
  | _ => false

def Place.parts (p : UInt8) (rest : Bytes) : Place → Bool
  | .word => isspace p && rest ≠ []
  | _ => false

def quotedInFront (place : Place) : Bytes → Nat
  | [] => 0
  | p :: rest => (place.closes p rest).toNat + quotedInFront (place.next p) rest

/-- The blanks that do not stand between an unquoted argument and something behind it. -/
def spareBlanks (place : Place) : Bytes → Nat
  | [] => 0
  | p :: rest =>
    (isspace p && !place.parts p rest).toNat + spareBlanks (place.next p) rest

/-! ## The bound -/

def ParseState.place : ParseState → Place
  | .start => .outside
  | .ordinaryText => .word
  | .openSingleQuotes | .inSingleQuotes => .quoted 39
  | .openDoubleQuotes | .inDoubleQuotes => .quoted 34

theorem pkgUtilsCountSpaces_cons (p : UInt8) (rest : Bytes) :
    pkgUtilsCountSpaces (p :: rest) = (isspace p).toNat + pkgUtilsCountSpaces rest := by
  unfold pkgUtilsCountSpaces
  rw [List.countP_cons, Nat.add_comm]
  cases isspace p <;> rfl

def Balanced (place : Place) (line : Bytes) (rest : Option Bytes) : Prop :=
  match rest with
  | none => spareBlanks place line = quotedInFront place line + pkgUtilsCountSpaces line
  | some rest =>
    rest.length < line.length ∧
      spareBlanks place line + quotedInFront .outside rest + pkgUtilsCountSpaces rest + 1 =
        quotedInFront place line + pkgUtilsCountSpaces line + spareBlanks .outside rest

theorem Balanced.cons {place : Place} {p : UInt8} {rest : Bytes} {after : Option Bytes}
    (h : Balanced (place.next p) rest after) (hcloses : place.closes p rest = false)
    (hparts : place.parts p rest = false) : Balanced place (p :: rest) after := by
  cases after with
  | none =>
    simp only [Balanced, spareBlanks, quotedInFront, pkgUtilsCountSpaces_cons, hcloses, hparts,
      Bool.not_false, Bool.and_true, Bool.toNat_false] at h ⊢
    omega
  | some after =>
    simp only [Balanced, spareBlanks, quotedInFront, pkgUtilsCountSpaces_cons, hcloses, hparts,
      Bool.not_false, Bool.and_true, Bool.toNat_false, List.length_cons] at h ⊢
    omega

theorem balanced_finish {state : ParseState} {argument : Bytes} {place : Place} {p : UInt8}
    {rest : Bytes} (hstate : state ≠ .start) (hnext : place.next p = .outside)
    (hends : rest ≠ [] →
      (place.closes p rest).toNat + (isspace p).toNat =
        (isspace p && !place.parts p rest).toNat + 1)
    (hlast : rest = [] → place.closes p rest = false ∧ place.parts p rest = false) :
    Balanced place (p :: rest) (finish state argument rest).2 := by
  unfold finish
  split
  case isTrue h =>
    obtain rfl : rest = [] := h.resolve_right hstate
    obtain ⟨hcloses, hparts⟩ := hlast rfl
    have hcount : pkgUtilsCountSpaces [p] = (isspace p).toNat := pkgUtilsCountSpaces_cons p []
    simp [Balanced, spareBlanks, quotedInFront, hcount, hcloses, hparts]
  case isFalse h =>
    have hne : rest ≠ [] := fun hnil => h (Or.inl hnil)
    have hends := hends hne
    simp only [Balanced, spareBlanks, quotedInFront, pkgUtilsCountSpaces_cons, hnext,
      List.length_cons]
    omega

theorem balanced_quote {state : ParseState} {argument : Bytes} {quote : UInt8} {rest : Bytes}
    (hstate : state ≠ .start) (hquote : isspace quote = false) :
    Balanced (.quoted quote) (quote :: rest) (finish state argument rest).2 := by
  apply balanced_finish hstate
  · simp [Place.next]
  · intro hne
    simp [Place.closes, Place.parts, hquote, hne]
  · intro hnil
    simp [Place.closes, Place.parts, hnil]

theorem tokenizeLoop_balanced (state : ParseState) (argument line : Bytes) :
    Balanced state.place line (tokenizeLoop state argument line).2 := by
  induction line generalizing state argument with
  | nil => rfl
  | cons p rest ih =>
    have hmove : ∀ {state' : ParseState} {argument' : Bytes},
        state'.place = state.place.next p → state.place.closes p rest = false →
        state.place.parts p rest = false →
        Balanced state.place (p :: rest) (tokenizeLoop state' argument' rest).2 := by
      intro state' argument' hplace hcloses hparts
      exact Balanced.cons (hplace ▸ ih state' argument') hcloses hparts
    cases state with
    | start =>
      simp only [tokenizeLoop]
      split
      · exact hmove (by simp_all [ParseState.place, Place.next]) rfl rfl
      · split
        · exact hmove (by simp_all [ParseState.place, Place.next]) rfl rfl
        · split
          · exact hmove (by simp_all [ParseState.place, Place.next]) rfl rfl
          · exact hmove (by simp_all [ParseState.place, Place.next]) rfl rfl
    | ordinaryText =>
      simp only [tokenizeLoop]
      split
      case isTrue hspace =>
        apply balanced_finish (by decide)
        · simp [ParseState.place, Place.next, hspace]
        · intro hne
          simp [ParseState.place, Place.closes, Place.parts, hspace, hne]
        · intro hnil
          simp [ParseState.place, Place.closes, Place.parts, hnil]
      case isFalse hspace =>
        exact hmove (by simp [ParseState.place, Place.next, hspace]) rfl
          (by simp [ParseState.place, Place.parts, hspace])
    | openSingleQuotes | inSingleQuotes | openDoubleQuotes | inDoubleQuotes =>
      simp only [tokenizeLoop]
      split
      case isTrue hquote =>
        subst hquote
        exact balanced_quote (by decide) (by decide)
      case isFalse hquote =>
        exact hmove (by simp [ParseState.place, Place.next, hquote])
          (by simp [ParseState.place, Place.closes, hquote]) rfl

theorem keywordArguments_length {fuel : Nat} {line : Bytes} (hfuel : line.length < fuel) :
    ∃ arguments, keywordArguments fuel line = some arguments ∧
      arguments.length + spareBlanks .outside line =
        quotedInFront .outside line + pkgUtilsCountSpaces line + 1 := by
  induction fuel generalizing line with
  | zero => omega
  | succ fuel ih =>
    have hbalanced := tokenizeLoop_balanced .start [] line
    rw [keywordArguments, pkgUtilsTokenize]
    generalize tokenizeLoop .start [] line = r at hbalanced
    obtain ⟨argument, after⟩ := r
    cases after with
    | none =>
      refine ⟨[argument], rfl, ?_⟩
      simp only [Balanced, ParseState.place] at hbalanced
      rw [List.length_singleton]
      omega
    | some after =>
      obtain ⟨hshort, hcounts⟩ := hbalanced
      obtain ⟨arguments, harguments, hlength⟩ := @ih after (by omega)
      refine ⟨argument :: arguments, by dsimp only; rw [harguments]; rfl, ?_⟩
      simp only [ParseState.place] at hcounts
      rw [List.length_cons]
      omega

/-- The loop over the arguments ends, and they fit the array just when the quoted arguments that
something is behind are not more than the spare blanks. -/
theorem keywordArguments_fit_iff (line : Bytes) :
    ∀ fuel, line.length < fuel →
      ∃ arguments, keywordArguments fuel line = some arguments ∧
        (arguments.length ≤ pkgUtilsCountSpaces line + 1 ↔
          quotedInFront .outside line ≤ spareBlanks .outside line) := by
  intro fuel hfuel
  obtain ⟨arguments, harguments, hlength⟩ := keywordArguments_length hfuel
  exact ⟨arguments, harguments, by omega⟩

theorem keywordArguments_fit_iff_quoted :
    ∃ arguments, keywordArguments 20 (ascii "\"a b\" 'c' d") = some arguments ∧
      (arguments.length ≤ pkgUtilsCountSpaces (ascii "\"a b\" 'c' d") + 1 ↔
        quotedInFront .outside (ascii "\"a b\" 'c' d") ≤
          spareBlanks .outside (ascii "\"a b\" 'c' d")) :=
  keywordArguments_fit_iff _ 20 (by decide)

/-- Two arguments, and an array for one. -/
theorem keywordArguments_overflow :
    ∃ arguments, keywordArguments 5 (ascii "\"\"\"\"") = some arguments ∧
      pkgUtilsCountSpaces (ascii "\"\"\"\"") + 1 < arguments.length :=
  ⟨[[], []], by decide, by decide⟩

end NextBSD.Libpkg.Ports
