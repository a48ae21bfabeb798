import Mathlib.Data.List.DropRight

/-!
# Lists of segments

A list is cut into segments at a separator and put together from them.  Separators that stand
together have empty segments between them; `skip` leaves out those at the front, `trimEnd` those
at the end.
-/

namespace NextBSD.Segments

variable {α : Type} {sep : α} {s p : List α} {ps qs : List (List α)}

/-- All separators at the front are left out.  The last segment stays, even if it is empty. -/
def skip : List (List α) → List (List α)
  | [] :: p :: ps => skip (p :: ps)
  | ps => ps

theorem skip_suffix (ps : List (List α)) : skip ps <:+ ps := by
  fun_induction skip ps with
  | case1 p ps ih => exact ih.trans (List.suffix_cons [] (p :: ps))
  | case2 ps hne => exact List.suffix_rfl

theorem skip_ne_nil (h : ps ≠ []) : skip ps ≠ [] := by
  fun_induction skip ps with
  | case1 p ps ih => exact ih (List.cons_ne_nil p ps)
  | case2 ps hne => exact h

theorem skip_eq_cons_nil (h : skip ps = [] :: qs) : qs = [] := by
  fun_induction skip ps with
  | case1 p ps ih => exact ih h
  | case2 ps hne =>
    cases qs with
    | nil => rfl
    | cons q qs => exact absurd h (hne q qs)

theorem intercalate_cons (h : ps ≠ []) :
    [sep].intercalate (p :: ps) = p ++ sep :: [sep].intercalate ps := by
  rw [List.intercalate_cons_of_ne_nil h]
  simp

def rooted (sep : α) (ps : List (List α)) : List α := sep :: ps.flatMap (· ++ [sep])

theorem rooted_concat (ps : List (List α)) (p : List α) :
    rooted sep (ps ++ [p]) = rooted sep ps ++ (p ++ [sep]) := by
  simp [rooted]

def absolute (sep : α) (ps : List (List α)) : List α := sep :: [sep].intercalate ps

theorem intercalate_concat (h : ps ≠ []) :
    [sep].intercalate (ps ++ [p]) = [sep].intercalate ps ++ sep :: p := by
  induction ps with
  | nil => exact absurd rfl h
  | cons q ps ih =>
    cases ps with
    | nil => rw [List.singleton_append, intercalate_cons (List.cons_ne_nil p [])]; simp
    | cons r ps =>
      rw [List.cons_append, intercalate_cons (by simp), ih (List.cons_ne_nil r ps),
        intercalate_cons (List.cons_ne_nil r ps), List.append_assoc, List.cons_append]

theorem rooted_eq (h : ps ≠ []) : rooted sep ps = absolute sep ps ++ [sep] := by
  induction ps using List.reverseRecOn with
  | nil => exact absurd rfl h
  | append_singleton ps p ih =>
    rw [rooted_concat, absolute]
    by_cases hps : ps = []
    · subst hps
      simp [rooted]
    · rw [ih hps, intercalate_concat hps, absolute]
      simp

theorem absolute_concat (ps : List (List α)) (p : List α) :
    absolute sep (ps ++ [p]) = rooted sep ps ++ p := by
  by_cases h : ps = []
  · subst h
    simp [rooted, absolute]
  · rw [rooted_eq h, absolute, absolute, intercalate_concat h]
    simp

variable [DecidableEq α]

theorem dropWhile_intercalate (h : ∀ p ∈ ps, sep ∉ p) :
    ([sep].intercalate ps).dropWhile (· = sep) = [sep].intercalate (skip ps) := by
  fun_induction skip ps with
  | case1 p ps ih =>
    rw [intercalate_cons (List.cons_ne_nil p ps), List.nil_append,
      List.dropWhile_cons_of_pos (by simp)]
    exact ih fun q hq => h q (.tail _ hq)
  | case2 ps hne =>
    cases ps with
    | nil => rfl
    | cons p ps =>
      cases p with
      | nil =>
        cases ps with
        | nil => rfl
        | cons q ps => exact absurd rfl (hne q ps)
      | cons c p =>
        have hc : c ≠ sep := fun e => h (c :: p) (.head _) (e ▸ .head _)
        have hfront : ∃ t, [sep].intercalate ((c :: p) :: ps) = c :: t := by
          cases ps with
          | nil => exact ⟨p, List.intercalate_singleton⟩
          | cons q ps =>
            exact ⟨_, (intercalate_cons (List.cons_ne_nil q ps)).trans (List.cons_append)⟩
        obtain ⟨t, ht⟩ := hfront
        rw [ht, List.dropWhile_cons_of_neg (by simpa using hc)]

def trimEnd (sep : α) : List α → List α
  | [] => []
  | c :: s => c :: s.rdropWhile (· = sep)

theorem trimEnd_append_sep (h : s ≠ []) : trimEnd sep (s ++ [sep]) = trimEnd sep s := by
  cases s with
  | nil => exact absurd rfl h
  | cons c s =>
    rw [List.cons_append, trimEnd, trimEnd, List.rdropWhile_concat_pos _ _ _ (by simp)]

theorem trimEnd_append (hp : p ≠ []) (hsep : sep ∉ p) (hs : s ≠ []) :
    trimEnd sep (s ++ p) = s ++ p := by
  cases s with
  | nil => exact absurd rfl hs
  | cons c s =>
    rw [List.cons_append, trimEnd]
    congr 1
    rw [List.rdropWhile_eq_self_iff]
    intro hl hlast
    rw [List.getLast_append_of_ne_nil hl hp, decide_eq_true_eq] at hlast
    exact hsep (hlast ▸ List.getLast_mem hp)

theorem trimEnd_rooted (h : ∀ p ∈ ps, sep ∉ p) :
    trimEnd sep (rooted sep ps) = absolute sep (ps.rdropWhile List.isEmpty) := by
  induction ps using List.reverseRecOn with
  | nil => rfl
  | append_singleton ps p ih =>
    have hps : ∀ q ∈ ps, sep ∉ q := fun q hq => h q (List.mem_append_left _ hq)
    have hp : sep ∉ p := h p (List.mem_append_right _ (.head _))
    rw [rooted_concat, ← List.append_assoc, trimEnd_append_sep (by simp [rooted])]
    by_cases hnil : p = []
    · rw [List.rdropWhile_concat_pos _ _ _ (by simpa using hnil), hnil, List.append_nil, ih hps]
    · rw [List.rdropWhile_concat_neg _ _ _ (by simpa using hnil), absolute_concat,
        trimEnd_append hnil hp (by simp [rooted])]

theorem absolute_inj (hps : ∀ p ∈ ps, sep ∉ p) (hqs : ∀ q ∈ qs, sep ∉ q)
    (hlast : ps ≠ [[]]) (hlast' : qs ≠ [[]]) (h : absolute sep ps = absolute sep qs) :
    ps = qs := by
  have hinter : [sep].intercalate ps = [sep].intercalate qs := (List.cons.inj h).2
  have hsplit := congrArg (List.splitOn sep) hinter
  rcases eq_or_ne ps [] with rfl | hpsne
  · rcases eq_or_ne qs [] with rfl | hqsne
    · rfl
    · rw [List.splitOn_intercalate sep hqs hqsne] at hsplit
      exact absurd (by rw [← hsplit]; rfl) hlast'
  · rw [List.splitOn_intercalate sep hps hpsne] at hsplit
    rcases eq_or_ne qs [] with rfl | hqsne
    · exact absurd (by rw [hsplit]; rfl) hlast
    · rwa [List.splitOn_intercalate sep hqs hqsne] at hsplit

end NextBSD.Segments
