import NextBSD.Zsh.AbsPathWalk

/-!
# When `:a` is right

`:a` gives the lexical resolution of a path unless it takes a component that ends in `..` for `..`,
or slashes that are left over behind `..` get in the way.
-/

namespace NextBSD.Zsh.AbsPath

open Rounds Segments

variable {M ps : List Bytes} {here x : Bytes}

def IsName (p : Bytes) : Prop := p ≠ [] ∧ p ≠ dot ∧ p ≠ dotdot

def segments (path : Bytes) : List Bytes := path.tail.splitOn 47

theorem walk_names (up : List Bytes → List Bytes → List Bytes) (h : ∀ p ∈ ps, IsName p) :
    walk up M ps = M ++ ps := by
  induction ps generalizing M with
  | nil => exact (List.append_nil M).symm
  | cons c ps ih =>
    obtain ⟨hnil, hdot, hdotdot⟩ := h c (.head _)
    rw [walk, if_neg (by rintro (h | h); exacts [hnil h, hdot h]), if_neg hdotdot,
      ih fun p hp => h p (.tail _ hp), List.append_assoc, List.singleton_append]

theorem mem_resolve {p : Bytes} (hM : ∀ q ∈ M, IsName q ∧ Piece q) (hps : ∀ q ∈ ps, Piece q)
    (h : p ∈ walk (fun M _ => M.dropLast) M ps) : IsName p ∧ Piece p := by
  induction ps generalizing M with
  | nil => exact hM p h
  | cons c ps ih =>
    have hrest : ∀ q ∈ ps, Piece q := fun q hq => hps q (.tail _ hq)
    rw [walk] at h
    split_ifs at h with hnone hdotdot
    · exact ih hM hrest h
    · exact ih (fun q hq => hM q (List.mem_of_mem_dropLast hq)) hrest h
    · refine ih (fun q hq => ?_) hrest h
      rcases List.mem_append.mp hq with hq | hq
      · exact hM q hq
      · rw [List.mem_singleton.mp hq]
        exact ⟨⟨fun e => hnone (.inl e), fun e => hnone (.inr e), hdotdot⟩, hps c (.head _)⟩

theorem segments_absolute {T : List Bytes} (hT : ∀ p ∈ T, 47 ∉ p) (hne : T ≠ []) :
    segments (absolute 47 T) = T :=
  List.splitOn_intercalate 47 hT hne

theorem walk_absolute (up : List Bytes → List Bytes → List Bytes) {T : List Bytes}
    (hT : ∀ p ∈ T, IsName p ∧ 47 ∉ p) : walk up [] (segments (absolute 47 T)) = T := by
  by_cases hnil : T = []
  · subst hnil
    rfl
  · rw [segments_absolute (fun p hp => (hT p hp).2) hnil, walk_names _ fun p hp => (hT p hp).1,
      List.nil_append]

/-- A `..` is taken for one that has to be kept, because of the component in front of it. -/
def keepsDots : List Bytes → List Bytes → Bool
  | _, [] => false
  | M, c :: ps =>
    if c = [] ∨ c = dot then keepsDots M ps
    else if c = dotdot then endsDots M || keepsDots (upSlash M ps) ps
    else keepsDots (M ++ [c]) ps

theorem walk_upCode (h : keepsDots M ps = false) : walk upCode M ps = walk upSlash M ps := by
  induction ps generalizing M with
  | nil => rfl
  | cons c ps ih =>
    rw [keepsDots] at h
    rw [walk, walk]
    split_ifs at h ⊢ with hnone hdotdot
    · exact ih h
    · rw [Bool.or_eq_false_iff] at h
      rw [upCode, h.1, if_neg Bool.false_ne_true]
      exact ih h.2
    · exact ih h

theorem dotdot_mem_walk (h : dotdot ∈ M) : dotdot ∈ walk upCode M ps := by
  induction ps generalizing M with
  | nil => exact h
  | cons c ps ih =>
    rw [walk]
    split_ifs with hnone hdotdot
    · exact ih h
    · refine ih ?_
      unfold upCode
      split_ifs with hends
      · exact List.mem_append_left _ h
      · refine List.mem_append_left _ ?_
        rcases List.eq_nil_or_concat' M with rfl | ⟨M, p, rfl⟩
        · cases h
        · rw [List.dropLast_concat]
          rcases List.mem_append.mp h with h | h
          · exact h
          · rw [← List.mem_singleton.mp h] at hends
            exact absurd (by simp [endsDots, dotdot]) hends
    · exact ih (List.mem_append_left _ h)

theorem dotdot_mem_of_keepsDots (h : keepsDots M ps = true) : dotdot ∈ walk upCode M ps := by
  induction ps generalizing M with
  | nil => cases h
  | cons c ps ih =>
    rw [keepsDots] at h
    rw [walk]
    split_ifs at h ⊢ with hnone hdotdot
    · exact ih h
    · rw [upCode]
      split_ifs with hends
      · exact dotdot_mem_walk (by simp)
      · rw [Bool.not_eq_true] at hends
        rw [hends, Bool.false_or] at h
        exact ih h
    · exact ih h

theorem piece_walk (hM : ∀ p ∈ M, Piece p) (hps : ∀ p ∈ ps, Piece p) :
    ∀ p ∈ walk upCode M ps, Piece p := by
  induction ps generalizing M with
  | nil => exact hM
  | cons c ps ih =>
    have hrest : ∀ p ∈ ps, Piece p := fun p hp => hps p (.tail _ hp)
    have hconcat : ∀ {M : List Bytes} {q : Bytes}, (∀ p ∈ M, Piece p) → Piece q →
        ∀ p ∈ M ++ [q], Piece p := by
      intro M q hM hq p hp
      rcases List.mem_append.mp hp with hp | hp
      · exact hM p hp
      · rwa [List.mem_singleton.mp hp]
    rw [walk]
    split_ifs with hnone hdotdot
    · exact ih hM hrest
    · refine ih ?_ hrest
      have hdrop : ∀ p ∈ M.dropLast, Piece p := fun p hp => hM p (List.mem_of_mem_dropLast hp)
      unfold upCode upSlash
      split_ifs
      · exact hconcat hM piece_dotdot
      · exact hconcat hdrop piece_nil
      · rwa [List.append_nil]
    · exact ih (hconcat hM (hps c (.head _))) hrest

/-- An absolute path without empty components, `.` and `..`. -/
def IsDirectory (here : Bytes) : Prop :=
  ∃ names, here = absolute 47 names ∧ ∀ p ∈ names, IsName p ∧ 47 ∉ p ∧ 0 ∉ p

theorem metafy_slash (y : Bytes) : metafy (47 :: y) = 47 :: metafy y := rfl

theorem fullPath_eq (hhere : IsDirectory here) (x : Bytes) :
    ∃ z, fullPath here (metafy x) = 47 :: metafy z := by
  obtain ⟨names, rfl, hnames⟩ := hhere
  unfold fullPath
  split_ifs with habs hroot
  · cases x with
    | nil => cases habs
    | cons c x =>
      have hc : c = 47 := by
        rw [metafy_cons] at habs
        split_ifs at habs
        · cases habs
        · exact Option.some.inj habs
      exact ⟨x, by rw [hc]; rfl⟩
  · have hnil : names = [] := by
      rcases List.eq_nil_or_concat' names with rfl | ⟨names, p, rfl⟩
      · rfl
      · obtain ⟨⟨hne, -⟩, hslash, -⟩ := hnames p (by simp)
        rw [absolute_concat, List.getLast?_append_of_ne_nil _ hne] at hroot
        exact absurd (List.mem_of_getLast? hroot) hslash
    exact ⟨x, by rw [hnil]; rfl⟩
  · refine ⟨[47].intercalate names ++ 47 :: x, ?_⟩
    rw [absolute, metafy_slash, metafy_append, metafy_slash, List.cons_append]

theorem splitOn_metafy (z : Bytes) : ∀ p ∈ (metafy z).splitOn 47, Piece p := by
  induction z with
  | nil =>
    intro p hp
    rw [List.mem_singleton.mp hp]
    exact piece_nil
  | cons c z ih =>
    obtain ⟨q, qs, hsplit⟩ := List.exists_cons_of_ne_nil (List.splitOn_ne_nil 47 (metafy z))
    rw [hsplit] at ih
    obtain ⟨y, hy, rfl⟩ := ih q (.head _)
    have hrest : ∀ p ∈ qs, Piece p := fun p hp => ih p (.tail _ hp)
    by_cases hslash : c = 47
    · subst hslash
      intro p hp
      rw [metafy_slash, List.splitOn_cons_eq_if_modifyHead, if_pos (BEq.refl _), hsplit] at hp
      rcases List.mem_cons.mp hp with rfl | hp
      · exact piece_nil
      · exact ih p hp
    · have hcons : (metafy (c :: z)).splitOn 47 = metafy (c :: y) :: qs := by
        rw [metafy_cons, metafy_cons]
        split_ifs with himeta
        · have hflip : (c ^^^ 32 == 47) = false := by
            rw [beq_eq_false_iff_ne]
            intro e
            have hback := flip_flip c
            rw [e] at hback
            rw [← hback] at himeta
            cases himeta
          simp [List.splitOn_cons_eq_if_modifyHead, hflip, hsplit]
        · simp [List.splitOn_cons_eq_if_modifyHead, hslash, hsplit]
      intro p hp
      rw [hcons] at hp
      rcases List.mem_cons.mp hp with rfl | hp
      · exact ⟨c :: y, by simpa [Ne.symm hslash] using hy, rfl⟩
      · exact hrest p hp

theorem chabspath_eq (hx : x ≠ []) (hhere : IsDirectory here) :
    ∃ a, chabspath here (metafy x) = some a ∧ a.ret = true ∧
      a.path = absolute 47
        ((walk upCode [] (segments (fullPath here (metafy x)))).rdropWhile List.isEmpty) ∧
      ∀ w ∈ a.writes, w.1 ≤ w.2 := by
  obtain ⟨z, hz⟩ := fullPath_eq hhere x
  have hne : metafy x ≠ [] := by
    obtain ⟨c, x, rfl⟩ := List.exists_cons_of_ne_nil hx
    rw [metafy_cons]
    split_ifs <;> simp
  have hpieces := splitOn_metafy z
  have hstart : Holds ⟨fullPath here (metafy x) ++ [0], 0, 0, []⟩ []
      (47 :: (metafy z ++ [0])) :=
    ⟨[], by rw [hz]; rfl, rfl, rfl, fun _ h => absurd h List.not_mem_nil⟩
  obtain ⟨s, hstep, hs⟩ := step_slash hstart
  have htext : metafy z = [47].intercalate ((metafy z).splitOn 47) :=
    (List.intercalate_splitOn 47).symm
  rw [htext, dropWhile_text hpieces] at hs
  have hwalk := finishes_walk (M := []) (n := (fullPath here (metafy x) ++ [0]).length)
    (fun _ h => absurd h List.not_mem_nil) (piece_mem_skip hpieces)
    (skip_ne_nil (List.splitOn_ne_nil 47 _)) (skip_skip _) hs ?_
  · rw [walk_skip] at hwalk
    obtain ⟨s', hrun, hpath, hwrites⟩ := hwalk.next hstep
    refine ⟨⟨true, s'.mem.takeWhile (· ≠ 0), s'.writes⟩, ?_, rfl, ?_, hwrites⟩
    · rw [chabspath, if_neg hne]
      dsimp only
      rw [hrun]
    · rw [hpath, hz]
      rfl
  · have hle := length_skip hpieces
    rw [← htext] at hle
    rw [hz]
    simp only [List.length_append, List.length_cons, List.length_nil]
    omega

/-! ## Exactness -/

/-- The path starts with one slash and has no empty component, no `.` and no `..`. -/
def IsCanonical (path : Bytes) : Prop :=
  path.head? = some 47 ∧ (path = [47] ∨ ∀ p ∈ segments path, IsName p)

/-- The path is made canonical in place, and stays as it is when that is done again. -/
def Canonicalizes (here path : Bytes) : Prop :=
  ∃ a, chabspath here path = some a ∧ a.ret = true ∧ IsCanonical a.path ∧
    resolve (segments a.path) = resolve (segments (fullPath here path)) ∧
    (∃ b, chabspath here a.path = some b ∧ b.ret = true ∧ b.path = a.path) ∧
    ∀ w ∈ a.writes, w.1 ≤ w.2

/-- No `..` comes behind a component that is kept and ends in `..`, and if the slashes that are left
over behind `..` count as components they are found at the end only. -/
def Settles (ps : List Bytes) : Prop :=
  keepsDots [] ps = false ∧ ∃ n, walk upSlash [] ps = resolve ps ++ List.replicate n []

theorem exists_replicate (ps : List Bytes) :
    ∃ n, ps = ps.rdropWhile List.isEmpty ++ List.replicate n [] := by
  refine ⟨(ps.rtakeWhile List.isEmpty).length, ?_⟩
  have hall : ps.rtakeWhile List.isEmpty = List.replicate (ps.rtakeWhile List.isEmpty).length [] :=
    List.eq_replicate_of_mem fun p hp => List.isEmpty_iff.mp (List.mem_rtakeWhile_imp hp)
  rw [← hall]
  exact List.rdropWhile_append_rtakeWhile.symm

theorem rdropWhile_replicate {T : List Bytes} (hT : ∀ p ∈ T, p ≠ []) (n : Nat) :
    (T ++ List.replicate n []).rdropWhile List.isEmpty = T := by
  induction n with
  | zero =>
    rw [List.replicate_zero, List.append_nil, List.rdropWhile_eq_self_iff]
    intro hl hempty
    exact hT _ (List.getLast_mem hl) (List.isEmpty_iff.mp hempty)
  | succ n ih =>
    rw [List.replicate_succ', ← List.append_assoc, List.rdropWhile_concat_pos _ _ _ rfl, ih]

theorem exists_metafy_absolute {T : List Bytes} (hT : ∀ p ∈ T, Piece p) :
    ∃ y, absolute 47 T = metafy (47 :: y) := by
  have hinter : ∃ y, [47].intercalate T = metafy y := by
    induction T with
    | nil => exact ⟨[], rfl⟩
    | cons p T ih =>
      obtain ⟨y, hy⟩ := ih fun q hq => hT q (.tail _ hq)
      obtain ⟨w, -, rfl⟩ := hT p (.head _)
      by_cases hnil : T = []
      · exact ⟨w, by rw [hnil, List.intercalate_singleton]⟩
      · exact ⟨w ++ 47 :: y, by rw [intercalate_cons hnil, hy, metafy_append, metafy_slash]⟩
  obtain ⟨y, hy⟩ := hinter
  exact ⟨y, by rw [absolute, hy, metafy_slash]⟩

theorem isCanonical_absolute {T : List Bytes} (hT : ∀ p ∈ T, IsName p ∧ 47 ∉ p) :
    IsCanonical (absolute 47 T) := by
  refine ⟨rfl, ?_⟩
  by_cases hnil : T = []
  · exact .inl (by rw [hnil]; rfl)
  · refine .inr fun p hp => ?_
    rw [segments_absolute (fun p hp => (hT p hp).2) hnil] at hp
    exact (hT p hp).1

theorem names_of_isCanonical {T : List Bytes} (hT : ∀ p ∈ T, 47 ∉ p) (hlast : T ≠ [[]])
    (h : IsCanonical (absolute 47 T)) : ∀ p ∈ T, IsName p := by
  by_cases hnil : T = []
  · subst hnil
    exact fun p hp => absurd hp List.not_mem_nil
  · rcases h.2 with hroot | hnames
    · have hsame : absolute 47 T = absolute 47 [] := hroot
      exact absurd (absolute_inj hT (by simp) hlast (by simp) hsame) hnil
    · rwa [segments_absolute hT hnil] at hnames

/-- `:a` gives the lexical resolution of a path exactly when dots and slashes settle. -/
theorem chabspath_iff (hx : x ≠ []) (hhere : IsDirectory here) :
    Canonicalizes here (metafy x) ↔ Settles (segments (fullPath here (metafy x))) := by
  obtain ⟨a, hcall, hret, hpath, hwrites⟩ := chabspath_eq hx hhere
  obtain ⟨z, hz⟩ := fullPath_eq hhere x
  obtain ⟨ps, hps⟩ : ∃ ps, segments (fullPath here (metafy x)) = ps := ⟨_, rfl⟩
  have hpieces : ∀ p ∈ ps, Piece p := by
    rw [← hps, hz]
    exact splitOn_metafy z
  rw [hps] at hpath ⊢
  have hresolved : ∀ p ∈ resolve ps, IsName p ∧ 47 ∉ p := by
    intro p hp
    obtain ⟨hname, hpiece⟩ := mem_resolve (fun q hq => absurd hq List.not_mem_nil) hpieces hp
    exact ⟨hname, hpiece.not_mem_slash⟩
  constructor
  · rintro ⟨a', hcall', -, hcanonical, hresolve, -, -⟩
    obtain rfl := Option.some.inj (hcall.symm.trans hcall')
    obtain ⟨n, hn⟩ := exists_replicate (walk upCode [] ps)
    have hpieces' := piece_walk (fun p hp => absurd hp List.not_mem_nil) hpieces
    have hlast : (walk upCode [] ps).rdropWhile List.isEmpty ≠ [[]] := by
      intro h
      have hidem := List.rdropWhile_idempotent List.isEmpty (walk upCode [] ps)
      rw [h] at hidem
      cases hidem
    generalize hT : (walk upCode [] ps).rdropWhile List.isEmpty = T at hpath hn hlast
    have hslash : ∀ p ∈ T, 47 ∉ p := fun p hp =>
      (hpieces' p (by rw [hn]; exact List.mem_append_left _ hp)).not_mem_slash
    rw [hpath] at hcanonical hresolve
    have hnames := names_of_isCanonical hslash hlast hcanonical
    have hsame : T = resolve ps := by
      rw [← hps, ← hresolve]
      exact (walk_absolute _ fun p hp => ⟨hnames p hp, hslash p hp⟩).symm
    have hkeeps : keepsDots [] ps = false := by
      rw [← Bool.not_eq_true]
      intro hkeeps
      have hmem := dotdot_mem_of_keepsDots hkeeps
      rw [hn] at hmem
      rcases List.mem_append.mp hmem with hmem | hmem
      · exact (hnames _ hmem).2.2 rfl
      · cases List.eq_of_mem_replicate hmem
    refine ⟨hkeeps, n, ?_⟩
    rw [← walk_upCode hkeeps, hn, hsame]
  · rintro ⟨hkeeps, n, hn⟩
    rw [walk_upCode hkeeps, hn, rdropWhile_replicate fun p hp => (hresolved p hp).1.1] at hpath
    refine ⟨a, hcall, hret, ?_, ?_, ?_, hwrites⟩
    · rw [hpath]
      exact isCanonical_absolute hresolved
    · rw [hpath, hps]
      exact walk_absolute _ hresolved
    · have hpiece : ∀ p ∈ resolve ps, Piece p := fun p hp =>
        (mem_resolve (fun q hq => absurd hq List.not_mem_nil) hpieces hp).2
      obtain ⟨y, hy⟩ := exists_metafy_absolute hpiece
      obtain ⟨b, hagain, hret', hpath', -⟩ := chabspath_eq (x := 47 :: y) (List.cons_ne_nil _ _) hhere
      have hfull : fullPath here (metafy (47 :: y)) = absolute 47 (resolve ps) := by
        rw [hy]
        exact if_pos rfl
      rw [hfull, walk_absolute _ hresolved] at hpath'
      refine ⟨b, ?_, hret', ?_⟩
      · rw [hpath, hy]
        exact hagain
      · have hkept := rdropWhile_replicate (fun p hp => (hresolved p hp).1.1) 0
        rw [List.replicate_zero, List.append_nil] at hkept
        rw [hpath', hpath, hkept]

/-- `a/.././b` in `/c`. -/
theorem chabspath_b : Canonicalizes [47, 99] (metafy [97, 47, 46, 46, 47, 46, 47, 98]) :=
  (chabspath_iff (List.cons_ne_nil _ _)
    ⟨[[99]], rfl, by simp [IsName, dot, dotdot]⟩).mpr ⟨by decide, 0, by decide⟩

/-- `/../a` becomes `//a`. -/
theorem not_canonicalizes_root : ¬Canonicalizes [47] (metafy [47, 46, 46, 47, 97]) := by
  rintro ⟨a, hcall, -, ⟨-, hcanonical⟩, -⟩
  have hpath : (chabspath [47] (metafy [47, 46, 46, 47, 97])).map Answer.path =
      some [47, 47, 97] := by decide
  rw [hcall, Option.map_some, Option.some.injEq] at hpath
  rw [hpath] at hcanonical
  rcases hcanonical with h | h
  · cases h
  · exact (h [] (by decide)).1 rfl

end NextBSD.Zsh.AbsPath
