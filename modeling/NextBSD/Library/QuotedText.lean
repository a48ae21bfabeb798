import Mathlib.Data.List.Basic

/-!
# Quoted text

Literals between two quotes, in which a quote is written twice, and brackets counted
outside of them.
-/

namespace NextBSD.QuotedText

variable {α : Type}

/-- `text` with each character of `special` written twice. -/
@[grind =]
def double (special : α → Bool) : List α → List α
  | [] => []
  | c :: text => if special c then c :: c :: double special text else c :: double special text

variable {special : α → Bool} {text text' rest rest' : List α} {c : α}

theorem double_special (h : special c = true) :
    double special (c :: text) = c :: c :: double special text := by
  rw [double, if_pos h]

theorem double_plain (h : special c = false) :
    double special (c :: text) = c :: double special text := by
  rw [double, if_neg (by simp [h])]

variable [DecidableEq α]

/-- The text that was written with the characters of `special` twice, if each of them is. -/
@[grind =]
def undouble (special : α → Bool) : List α → Option (List α)
  | [] => some []
  | [c] => if special c then none else some [c]
  | c :: d :: text =>
    if special c then
      if d = c then (undouble special text).map (c :: ·) else none
    else (undouble special (d :: text)).map (c :: ·)

@[grind =]
def afterLiteral (quote : α) : List α → Option (List α)
  | [] => none
  | [c] => if c = quote then some [] else none
  | c :: d :: text =>
    if c = quote then
      if d = quote then afterLiteral quote text else some (d :: text)
    else afterLiteral quote (d :: text)

variable {quote : α}

theorem undouble_plain (h : special c = false) :
    undouble special (c :: text) = (undouble special text).map (c :: ·) := by
  cases text with
  | nil => simp [undouble, h]
  | cons d text => rw [undouble, if_neg (by simp [h])]

theorem undouble_double (text : List α) : undouble special (double special text) = some text := by
  induction text with
  | nil => rfl
  | cons c text ih =>
    cases h : special c with
    | true => rw [double_special h, undouble, if_pos h, if_pos rfl, ih]; rfl
    | false => rw [double_plain h, undouble_plain h, ih]; rfl

theorem afterLiteral_other (h : c ≠ quote) :
    afterLiteral quote (c :: text) = afterLiteral quote text := by
  cases text with
  | nil => simp [afterLiteral, h]
  | cons d text => rw [afterLiteral, if_neg h]

theorem afterLiteral_close (h : rest.head? ≠ some quote) :
    afterLiteral quote (quote :: rest) = some rest := by
  cases rest with
  | nil => simp [afterLiteral]
  | cons d rest =>
    have hd : d ≠ quote := by simpa using h
    rw [afterLiteral, if_pos rfl, if_neg hd]

theorem afterLiteral_double (hquote : special quote = true) (h : rest.head? ≠ some quote)
    (text : List α) : afterLiteral quote (double special text ++ quote :: rest) = some rest := by
  induction text with
  | nil => exact afterLiteral_close h
  | cons c text ih =>
    by_cases hc : c = quote
    · subst hc
      rw [double_special hquote, List.cons_append, List.cons_append, afterLiteral, if_pos rfl,
        if_pos rfl, ih]
    · cases hs : special c with
      | true =>
        rw [double_special hs, List.cons_append, List.cons_append, afterLiteral_other hc,
          afterLiteral_other hc, ih]
      | false => rw [double_plain hs, List.cons_append, afterLiteral_other hc, ih]

theorem rest_eq_of_literal_eq (hquote : special quote = true) (h : rest.head? ≠ some quote)
    (h' : rest'.head? ≠ some quote)
    (heq : double special text ++ quote :: rest = double special text' ++ quote :: rest') :
    rest = rest' := by
  have hread := afterLiteral_double hquote h text
  rw [heq, afterLiteral_double hquote h' text'] at hread
  exact (Option.some.inj hread).symm

structure Marks (α : Type) where
  quote : α
  opening : α
  closing : α

variable {m : Marks α} {d e k : Nat} {b b' : Bool}

/-- The open brackets and whether a literal is open, after `text`.  A quote inside a literal
closes it and its double opens it again. -/
@[grind =]
def scan (m : Marks α) : Nat → Bool → List α → Option (Nat × Bool)
  | d, b, [] => some (d, b)
  | d, b, c :: text =>
    if c = m.quote then scan m d (!b) text
    else if b then scan m d b text
    else if c = m.opening then scan m (d + 1) b text
    else if c = m.closing then
      match d with
      | 0 => none
      | d + 1 => scan m d b text
    else scan m d b text

def WellBracketed (m : Marks α) (text : List α) : Prop := scan m 0 false text = some (0, false)

instance : Decidable (WellBracketed m text) := by unfold WellBracketed; infer_instance

theorem scan_quote (text : List α) :
    scan m d b (m.quote :: text) = scan m d (!b) text := by simp only [scan, if_true]

theorem scan_inside (h : c ≠ m.quote) : scan m d true (c :: text) = scan m d true text := by
  simp only [scan, if_neg h, if_true]

theorem scan_append (text rest : List α) (d : Nat) (b : Bool) :
    scan m d b (text ++ rest) =
      (scan m d b text).bind (fun p => scan m p.1 p.2 rest) := by
  induction text generalizing d b with
  | nil => rfl
  | cons c text ih =>
    simp only [List.cons_append, scan]
    split_ifs
    · exact ih d (!b)
    · exact ih d b
    · exact ih (d + 1) b
    · cases d with
      | zero => rfl
      | succ d => exact ih d b
    · exact ih d b

theorem scan_add (k : Nat) (text : List α) {d e : Nat} {b b' : Bool}
    (h : scan m d b text = some (e, b')) :
    scan m (d + k) b text = some (e + k, b') := by
  induction text generalizing d b with
  | nil =>
    obtain ⟨rfl, rfl⟩ : d = e ∧ b = b' := by simpa [scan] using h
    rfl
  | cons c text ih =>
    simp only [scan] at h ⊢
    split_ifs at h ⊢
    · exact ih h
    · exact ih h
    · have hstep := ih h
      rwa [Nat.add_right_comm] at hstep
    · cases d with
      | zero => cases h
      | succ d =>
        rw [Nat.add_right_comm]
        exact ih h
    · exact ih h

theorem scan_next {d e : Nat} {b b' : Bool} (h : scan m d b text = some (e, b'))
    (rest : List α) : scan m d b (text ++ rest) = scan m e b' rest := by
  rw [scan_append, h, Option.bind_some]

theorem scan_balanced (h : WellBracketed m text) (d : Nat) :
    scan m d false text = some (d, false) := by
  have hadd := scan_add d text h
  rwa [Nat.zero_add] at hadd

theorem scan_plain (h : ∀ c ∈ text, c ≠ m.quote ∧ c ≠ m.opening ∧ c ≠ m.closing) (d : Nat) :
    scan m d false text = some (d, false) := by
  induction text with
  | nil => rfl
  | cons c text ih =>
    obtain ⟨hquote, hopening, hclosing⟩ := h c (.head _)
    simp only [scan, if_neg hquote, if_neg hopening, if_neg hclosing, Bool.false_eq_true, if_false]
    exact ih fun c' hc' => h c' (.tail _ hc')

theorem scan_double (hquote : special m.quote = true) (d : Nat) (text : List α) :
    scan m d true (double special text) = some (d, true) := by
  induction text with
  | nil => rfl
  | cons c text ih =>
    by_cases hc : c = m.quote
    · subst hc
      rw [double_special hquote, scan_quote, scan_quote]
      exact ih
    · cases hs : special c with
      | true => rw [double_special hs, scan_inside hc, scan_inside hc, ih]
      | false => rw [double_plain hs, scan_inside hc, ih]

theorem scan_literal (hquote : special m.quote = true) (d : Nat) (text : List α) :
    scan m d false (m.quote :: (double special text ++ [m.quote])) = some (d, false) := by
  rw [scan_quote, scan_append, Bool.not_false, scan_double hquote]
  exact scan_quote []

end NextBSD.QuotedText
