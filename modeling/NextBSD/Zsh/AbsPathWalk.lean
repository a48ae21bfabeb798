import NextBSD.Zsh.AbsPath

/-!
# The components of `:a`

The loop is followed component by component.  A slash that is left over behind `..` stands in what
is written for a component without a name.
-/

namespace NextBSD.Zsh.AbsPath

open Rounds Segments

def dot : Bytes := [46]

def dotdot : Bytes := [46, 46]

/-- The components read one after the other, where `up` says what `..` does: it is given the
components so far and those that follow. -/
def walk (up : List Bytes → List Bytes → List Bytes) : List Bytes → List Bytes → List Bytes
  | M, [] => M
  | M, c :: ps =>
    if c = [] ∨ c = dot then walk up M ps
    else if c = dotdot then walk up (up M ps) ps
    else walk up (M ++ [c]) ps

/-- Lexical resolution: `..` takes back a component, if there is one. -/
def resolve (ps : List Bytes) : List Bytes := walk (fun M _ => M.dropLast) [] ps

/-- A slash is left over behind `..`: the first one at the root, the second one elsewhere. -/
def leavesSlash (M : List Bytes) : List Bytes → Bool
  | [] => false
  | [_] => M = []
  | p :: _ :: _ => M = [] || p.isEmpty

/-- `..`, if a slash that is left over counts as a component without a name. -/
def upSlash (M ps : List Bytes) : List Bytes := M.dropLast ++ if leavesSlash M ps then [[]] else []

def endsDots (M : List Bytes) : Bool := M.getLast?.any fun c => [46, 46] <:+ c

def upCode (M ps : List Bytes) : List Bytes :=
  if endsDots M then M ++ [dotdot] else upSlash M ps

theorem walk_skip (up : List Bytes → List Bytes → List Bytes) (M ps : List Bytes) :
    walk up M (skip ps) = walk up M ps := by
  fun_induction skip ps with
  | case1 p ps ih =>
    rw [ih]
    conv_rhs => rw [walk, if_pos (.inl rfl)]
  | case2 ps hne => rfl

/-! ## The run -/

variable {s : Loop} {M ps : List Bytes} {n : Nat}

def Piece (p : Bytes) : Prop := ∃ y, 47 ∉ y ∧ metafy y = p

theorem Piece.not_mem_slash {p : Bytes} (h : Piece p) : 47 ∉ p := by
  obtain ⟨y, hy, rfl⟩ := h
  exact not_mem_metafy rfl rfl hy

theorem Piece.not_mem_nul {p : Bytes} (h : Piece p) : 0 ∉ p := by
  obtain ⟨y, -, rfl⟩ := h
  exact not_mem_metafy_nul y

theorem piece_nil : Piece [] := ⟨[], by simp, rfl⟩

theorem piece_dotdot : Piece dotdot := ⟨dotdot, by decide, by decide⟩

def behind (ps : List Bytes) : Bytes := if ps = [] then [0] else 47 :: ([47].intercalate ps ++ [0])

theorem intercalate_behind (p : Bytes) (ps : List Bytes) :
    [47].intercalate (p :: ps) ++ [0] = p ++ behind ps := by
  unfold behind
  split_ifs with h
  · rw [h, List.intercalate_singleton]
  · rw [intercalate_cons h, List.append_assoc, List.cons_append]

theorem dropWhile_text (h : ∀ p ∈ ps, Piece p) :
    ([47].intercalate ps ++ [0]).dropWhile (· = 47) = [47].intercalate (skip ps) ++ [0] := by
  rw [← dropWhile_intercalate fun p hp => (h p hp).not_mem_slash, List.dropWhile_append]
  split_ifs with hempty
  · rw [List.isEmpty_iff.mp hempty]
    rfl
  · rfl

def Finishes (n : Nat) (s : Loop) (ps : List Bytes) : Prop :=
  ∃ s', run step n s = some (some (true, s')) ∧
    s'.mem.takeWhile (· ≠ 0) = absolute 47 (ps.rdropWhile List.isEmpty) ∧
      ∀ w ∈ s'.writes, w.1 ≤ w.2

theorem Finishes.next {s' : Loop} (hstep : step s = .inl s') (h : Finishes n s' ps) :
    Finishes (n + 1) s ps := by
  obtain ⟨t, hrun, h⟩ := h
  refine ⟨t, ?_, h⟩
  rw [run, hstep]
  exact hrun

theorem not_mem_nul_rooted (hM : ∀ p ∈ M, Piece p) : 0 ∉ rooted 47 M := by
  intro h
  rcases List.mem_cons.mp h with h | h
  · cases h
  · obtain ⟨p, hp, hmem⟩ := List.mem_flatMap.mp h
    rcases List.mem_append.mp hmem with hmem | hmem
    · exact (hM p hp).not_mem_nul hmem
    · cases List.mem_singleton.mp hmem

theorem finishes_slash (hM : ∀ p ∈ M, Piece p) (h : Holds s (rooted 47 M) [0]) :
    Finishes (n + 1) s M := by
  obtain ⟨s', hstep, htext, hwrites⟩ := step_end h (not_mem_nul_rooted hM)
  refine ⟨s', ?_, ?_, hwrites⟩
  · rw [run, hstep]
  · rw [htext, trimEnd_rooted fun p hp => (hM p hp).not_mem_slash]

theorem finishes_name {p : Bytes} (hM : ∀ p ∈ M, Piece p) (hp : Piece p) (hne : p ≠ [])
    (h : Holds s (rooted 47 M ++ p) [0]) : Finishes (n + 1) s (M ++ [p]) := by
  have hnul : 0 ∉ rooted 47 M ++ p := fun hmem =>
    (List.mem_append.mp hmem).elim (not_mem_nul_rooted hM) hp.not_mem_nul
  obtain ⟨s', hstep, htext, hwrites⟩ := step_end h hnul
  refine ⟨s', ?_, ?_, hwrites⟩
  · rw [run, hstep]
  · rw [htext, trimEnd_append hne hp.not_mem_slash (by simp [rooted]),
      List.rdropWhile_concat_neg _ _ _ (by simpa using hne), absolute_concat]

theorem piece_mem_skip (h : ∀ p ∈ ps, Piece p) : ∀ p ∈ skip ps, Piece p :=
  fun p hp => h p ((skip_suffix ps).subset hp)

theorem length_skip (h : ∀ p ∈ ps, Piece p) :
    ([47].intercalate (skip ps)).length ≤ ([47].intercalate ps).length := by
  rw [← dropWhile_intercalate fun p hp => (h p hp).not_mem_slash]
  exact (List.dropWhile_sublist _).length_le

theorem skip_skip (ps : List Bytes) : skip (skip ps) = skip ps := by
  fun_induction skip ps with
  | case1 p ps ih => exact ih
  | case2 ps hne =>
    rw [skip]
    exact hne

theorem upCode_root (h : ps ≠ []) : upCode [] ps = [[]] := by
  rcases ps with _ | ⟨p, _ | ⟨q, ps⟩⟩
  · exact absurd rfl h
  · rfl
  · rfl

theorem upSlash_of_skip (M : List Bytes) (p : Bytes) (h : skip ps = ps) :
    upSlash (M ++ [p]) ps = M := by
  have hleaves : leavesSlash (M ++ [p]) ps = false := by
    rcases ps with _ | ⟨_ | ⟨c, q⟩, _ | ⟨r, ps⟩⟩
    · rfl
    · simp [leavesSlash]
    · have hlength := (skip_suffix (r :: ps)).length_le
      rw [skip] at h
      rw [h, List.length_cons] at hlength
      omega
    · simp [leavesSlash]
    · simp [leavesSlash]
  rw [upSlash, hleaves, List.dropLast_concat]
  exact List.append_nil M

theorem upSlash_nil (M : List Bytes) (p q : Bytes) (qs : List Bytes) :
    upSlash (M ++ [p]) ([] :: q :: qs) = M ++ [[]] := by
  rw [upSlash, List.dropLast_concat]
  simp [leavesSlash]

theorem exists_of_skip_ne (h : skip ps ≠ ps) : ∃ q qs, ps = [] :: q :: qs := by
  fun_induction skip ps with
  | case1 p ps ih => exact ⟨p, ps, rfl⟩
  | case2 ps hne => exact absurd rfl h

theorem finishes_walk (hM : ∀ p ∈ M, Piece p) (hps : ∀ p ∈ ps, Piece p) (hne : ps ≠ [])
    (hskip : skip ps = ps) (h : Holds s (rooted 47 M) ([47].intercalate ps ++ [0]))
    (hn : ([47].intercalate ps ++ [0]).length ≤ n) : Finishes n s (walk upCode M ps) := by
  induction n using Nat.strong_induction_on generalizing s M ps with
  | _ n ih =>
    obtain ⟨c, ps, rfl⟩ := List.exists_cons_of_ne_nil hne
    have hps' : ∀ p ∈ ps, Piece p := fun p hp => hps p (.tail _ hp)
    have hc : Piece c := hps c (.head _)
    rw [intercalate_behind] at h hn
    -- behind a slash the loop goes on with the components that have a name
    have hslash : ∀ {m t D M'}, m < n → (behind ps).length ≤ m + 1 → ps ≠ [] →
        (∀ p ∈ M', Piece p) → Holds t D ([47].intercalate (skip ps) ++ [0]) →
        D = rooted 47 M' → Finishes m t (walk upCode M' ps) := by
      rintro m t D M' hm hlength hpsne hM' ht rfl
      rw [← walk_skip]
      refine ih m hm hM' (piece_mem_skip hps') (skip_ne_nil hpsne) (skip_skip ps) ht ?_
      have hle := length_skip hps'
      rw [behind, if_neg hpsne, List.length_cons] at hlength
      rw [List.length_append] at hlength ⊢
      omega
    -- behind a component, whether a slash follows or not
    have hname : ∀ {m t p}, m < n → (behind ps).length ≤ m → Piece p → p ≠ [] →
        Holds t (rooted 47 M ++ p) (behind ps) →
        Finishes m t (walk upCode (M ++ [p]) ps) := by
      intro m t p hm hlength hp hpne ht
      obtain ⟨m, rfl⟩ : ∃ k, m = k + 1 := ⟨m - 1, by
        have : 0 < (behind ps).length := by unfold behind; split_ifs <;> simp
        omega⟩
      unfold behind at ht
      split_ifs at ht with hnil
      · subst hnil
        exact finishes_name hM hp hpne ht
      · obtain ⟨t', hstep, ht'⟩ := step_slash ht
        rw [dropWhile_text hps'] at ht'
        refine Finishes.next hstep (hslash (by omega) hlength hnil ?_ ht' ?_)
        · intro q hq
          rcases List.mem_append.mp hq with hq | hq
          · exact hM q hq
          · rwa [List.mem_singleton.mp hq]
        · rw [rooted_concat, List.append_assoc]
    have hbehind : 0 < (behind ps).length := by
      unfold behind
      split_ifs <;> simp
    by_cases hcnil : c = []
    · -- the end
      subst hcnil
      obtain rfl := skip_eq_cons_nil hskip
      rw [List.nil_append] at h hn
      obtain ⟨m, rfl⟩ : ∃ m, n = m + 1 := ⟨n - 1, by omega⟩
      exact finishes_slash hM h
    have hclen : 0 < c.length := List.length_pos_of_ne_nil hcnil
    rw [List.length_append] at hn
    obtain ⟨m, rfl⟩ : ∃ m, n = m + 1 := ⟨n - 1, by omega⟩
    by_cases hdot : c = dot
    · subst hdot
      rw [walk, if_pos (.inr rfl)]
      unfold behind at h
      split_ifs at h with hnil
      · obtain ⟨s', hstep, h'⟩ := step_dot h (.inr rfl)
        subst hnil
        obtain ⟨k, rfl⟩ : ∃ k, m = k + 1 := ⟨m - 1, by omega⟩
        exact Finishes.next hstep (finishes_slash hM h')
      · obtain ⟨s', hstep, h'⟩ := step_dot h (.inl rfl)
        rw [List.dropWhile_cons_of_pos (by decide), dropWhile_text hps'] at h'
        exact Finishes.next hstep (hslash (Nat.lt_succ_self m) (by omega) hnil hM h' rfl)
    by_cases hdotdot : c = dotdot
    · subst hdotdot
      rw [walk, if_neg (by rintro (h | h) <;> cases h), if_pos rfl]
      have hround : step s = s.dotdot := by
        unfold behind at h
        split_ifs at h with hnil
        · exact step_dotdot h (.inl rfl)
        · exact step_dotdot h (.inr rfl)
      rcases List.eq_nil_or_concat' M with rfl | ⟨M, p, rfl⟩
      · -- at the root
        have hstep := hround.trans (dotdot_root h)
        have h' : Holds { s with current := s.current + 2 } (rooted 47 []) (behind ps) :=
          Holds.skip [46, 46] h
        refine Finishes.next hstep ?_
        obtain ⟨k, rfl⟩ : ∃ k, m = k + 1 := ⟨m - 1, by omega⟩
        unfold behind at h'
        split_ifs at h' with hnil
        · subst hnil
          exact finishes_slash hM h'
        · obtain ⟨t, hnext, ht⟩ := step_slash h'
          rw [dropWhile_text hps'] at ht
          rw [upCode_root hnil]
          refine Finishes.next hnext (hslash (by omega) (by omega) hnil ?_ ht rfl)
          intro q hq
          rw [List.mem_singleton.mp hq]
          exact piece_nil
      · by_cases hdots : [46, 46] <:+ p
        · obtain ⟨s', hkeep, h'⟩ := keepDots_holds h
          have hup : upCode (M ++ [p]) ps = M ++ [p] ++ [dotdot] := by
            simp [upCode, endsDots, hdots]
          rw [hup]
          refine Finishes.next ((hround.trans (dotdot_keep hdots h)).trans hkeep) ?_
          exact hname (Nat.lt_succ_self m) (by omega) piece_dotdot (List.cons_ne_nil _ _) h'
        · have hread : Holds s (rooted 47 (M ++ [p])) (46 :: 46 :: behind ps) := h
          obtain ⟨s', hdrop, h'⟩ := dropName_holds (hM p (by simp)).not_mem_slash hread
          have hup : upCode (M ++ [p]) ps = upSlash (M ++ [p]) ps := by
            simp [upCode, endsDots, hdots]
          rw [hup]
          refine Finishes.next ((hround.trans (dotdot_drop hdots h)).trans hdrop) ?_
          have hM' : ∀ q ∈ M, Piece q := fun q hq => hM q (List.mem_append_left _ hq)
          obtain ⟨k, rfl⟩ : ∃ k, m = k + 1 := ⟨m - 1, by omega⟩
          by_cases hnil : ps = []
          · subst hnil
            rw [upSlash_of_skip M p rfl]
            exact finishes_slash hM' h'
          rw [behind, if_neg hnil, List.head?_cons, if_pos rfl, List.tail_cons] at h'
          by_cases hskip' : skip ps = ps
          · rw [upSlash_of_skip M p hskip']
            refine ih (k + 1) (by omega) hM' hps' hnil hskip' h' ?_
            rw [behind, if_neg hnil, List.length_cons] at hn
            omega
          · obtain ⟨q, qs, rfl⟩ := exists_of_skip_ne hskip'
            rw [intercalate_cons (List.cons_ne_nil q qs), List.nil_append, List.cons_append] at h'
            obtain ⟨t, hnext, ht⟩ := step_slash h'
            rw [dropWhile_text fun r hr => hps' r (.tail _ hr)] at ht
            rw [upSlash_nil]
            refine Finishes.next hnext (hslash (by omega) (by omega) hnil ?_ ht ?_)
            · intro r hr
              rcases List.mem_append.mp hr with hr | hr
              · exact hM' r hr
              · rw [List.mem_singleton.mp hr]
                exact piece_nil
            · rw [rooted_concat, List.nil_append]
    · obtain ⟨y, hy, rfl⟩ := hc
      rw [walk, if_neg (by rintro (h | h); exacts [hcnil h, hdot h]), if_neg hdotdot]
      have hcopied : ∃ s', step s = .inl s' ∧ Holds s' (rooted 47 M ++ metafy y) (behind ps) := by
        unfold behind at h ⊢
        split_ifs at h ⊢ with hnil
        · exact step_name hy hcnil hdot hdotdot (.inr rfl) h
        · exact step_name hy hcnil hdot hdotdot (.inl rfl) h
      obtain ⟨s', hstep, h'⟩ := hcopied
      refine Finishes.next hstep ?_
      exact hname (Nat.lt_succ_self m) (by omega) ⟨y, hy, rfl⟩ hcnil h'

end NextBSD.Zsh.AbsPath
