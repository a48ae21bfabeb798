import Mathlib

/-!
# The C string functions

A pointer into a string is the list of the characters from there to its end.
Classification is that of the C locale, and `long` and `long long` have 64 bits.
-/

namespace NextBSD.Libpkg

def isspace (c : Char) : Bool := c = ' ' || (9 ≤ c.toNat && c.toNat ≤ 13)

def leadingNumber (s : List Char) : Nat :=
  (s.takeWhile Char.isDigit).foldl (fun n c => 10 * n + (c.toNat - '0'.toNat)) 0

/-- `strtoll`, where it is called on a digit: the value saturates at `LLONG_MAX`. -/
def strtoll (s : List Char) : Int := min (leadingNumber s) (2 ^ 63 - 1)

/-- `strtoul`: blanks, a sign, digits.  A value out of range gives `ULONG_MAX`, and
a minus sign negates modulo `2 ^ 64` what is in range. -/
def strtoul (s : List Char) : Nat :=
  let s := s.dropWhile isspace
  let magnitude (s : List Char) := min (leadingNumber s) (2 ^ 64 - 1)
  match s with
  | '+' :: t => magnitude t
  | '-' :: t =>
    if leadingNumber t ≤ 2 ^ 64 - 1 then (2 ^ 64 - leadingNumber t) % 2 ^ 64 else 2 ^ 64 - 1
  | s => magnitude s

/-- `strrchr`: the suffix that starts at the last occurrence. -/
def strrchr : List Char → Char → Option (List Char)
  | [], _ => none
  | c :: t, x =>
    match strrchr t x with
    | some r => some r
    | none => if c = x then some (c :: t) else none

/-- `strtonum`: the whole string is a number and lies between the bounds. -/
def strtonum (s : List Char) (minval maxval : Int) : Option Int :=
  let s := s.dropWhile isspace
  let number (negative : Bool) (digits : List Char) : Option Int :=
    let value : Int := if negative then -(leadingNumber digits) else leadingNumber digits
    if digits ≠ [] ∧ digits.all Char.isDigit ∧ minval ≤ value ∧ value ≤ maxval then some value
    else none
  match s with
  | '+' :: t => number false t
  | '-' :: t => number true t
  | s => number false s

/-- `strsep` with one delimiter: the field, and what follows the delimiter. -/
def strsep : List Char → Char → List Char × Option (List Char)
  | [], _ => ([], none)
  | c :: t, d =>
    if c = d then ([], some t)
    else (c :: (strsep t d).1, (strsep t d).2)

def strEndsWith (str suffix : String) : Bool := suffix.toList.isSuffixOf str.toList

/-- `strstr`: the suffix of `hay` that starts at the first occurrence of `needle`. -/
def strstr (hay needle : List Char) : Option (List Char) :=
  if needle <+: hay then some hay
  else match hay with
    | [] => none
    | _ :: t => strstr t needle

theorem strstr_eq_none {hay needle : List Char} : strstr hay needle = none ↔ ¬ needle <:+: hay := by
  induction hay with
  | nil => unfold strstr; simp
  | cons c t ih =>
    unfold strstr
    split
    · rename_i h; simp [h.isInfix]
    · rename_i h; simp [ih, List.infix_cons_iff, h]

theorem strstr_eq_some {hay needle q : List Char} (h : strstr hay needle = some q) :
    needle <+: q ∧ ∃ s, hay = s ++ q ∧
      ∀ a b, hay = a ++ needle ++ b → ∃ a', a = s ++ a' := by
  induction hay with
  | nil =>
    unfold strstr at h
    split at h
    · rename_i hp
      obtain rfl : [] = q := by simpa using h
      exact ⟨hp, [], rfl, fun a b _ => ⟨a, rfl⟩⟩
    · simp at h
  | cons c t ih =>
    unfold strstr at h
    split at h
    · rename_i hp
      obtain rfl : c :: t = q := by simpa using h
      exact ⟨hp, [], rfl, fun a b _ => ⟨a, rfl⟩⟩
    · rename_i hp
      obtain ⟨hq, s, hs, hfirst⟩ := ih h
      refine ⟨hq, c :: s, by simp [hs], fun a b hab => ?_⟩
      cases a with
      | nil => exact absurd ⟨b, by simpa using hab.symm⟩ hp
      | cons d a =>
        obtain ⟨rfl, ht⟩ : c = d ∧ t = a ++ needle ++ b := by simpa using hab
        obtain ⟨a', rfl⟩ := hfirst a b ht
        exact ⟨a', rfl⟩

end NextBSD.Libpkg
