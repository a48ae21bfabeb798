import Mathlib.Data.List.Infix

/-!
# Lexical resolution of slash-separated paths

A path is read as the list of its components, the pieces between slashes.
Resolution folds over the components: an empty piece and `.` are dropped and
`..` pops what was read last.  Nothing here looks at a file system.
-/

namespace NextBSD.LexicalPath

def dot : List Char := ['.']

def dotdot : List Char := ['.', '.']

def components (path : List Char) : List (List Char) := path.splitOn '/'

def step (stack : List (List Char)) (c : List Char) : List (List Char) :=
  if c = [] ∨ c = dot then stack
  else if c = dotdot then stack.dropLast
  else stack ++ [c]

def resolve (path : List Char) : List (List Char) := (components path).foldl step []

theorem components_append_slash (p q : List Char) :
    components (p ++ '/' :: q) = components p ++ components q :=
  List.splitOn_append_cons_self p q

theorem components_of_not_mem {p : List Char} (h : '/' ∉ p) : components p = [p] :=
  List.splitOn_eq_singleton h

theorem components_slash (q : List Char) : components ('/' :: q) = [] :: components q := by
  simpa [components_of_not_mem] using components_append_slash [] q

/-- A component stands at the start of the path or after a slash, and at its end
or before one.  The induction is on what follows the first slash. -/
theorem exists_of_mem_components {q : List Char} : ∀ {p : List Char}, q ∈ components p →
    ∃ a b, p = a ++ q ++ b ∧ (a = [] ∨ ∃ a', a = a' ++ ['/']) ∧
      (b = [] ∨ ∃ b', b = '/' :: b') := by
  intro p
  induction hn : p.length using Nat.strong_induction_on generalizing p with
  | _ n ih =>
    intro h
    by_cases hs : '/' ∈ p
    · obtain ⟨x, y, hxy, hx⟩ := List.eq_append_cons_of_mem hs
      subst hxy
      rw [components_append_slash, components_of_not_mem hx, List.singleton_append] at h
      rcases List.mem_cons.mp h with rfl | h
      · exact ⟨[], '/' :: y, by simp, Or.inl rfl, Or.inr ⟨y, rfl⟩⟩
      · have hlt : y.length < n := by simp only [List.length_append, List.length_cons] at hn; omega
        obtain ⟨a, b, rfl, ha, hb⟩ := ih y.length hlt rfl h
        refine ⟨x ++ '/' :: a, b, by simp, Or.inr ?_, hb⟩
        rcases ha with rfl | ⟨a', rfl⟩
        · exact ⟨x, rfl⟩
        · exact ⟨x ++ '/' :: a', by simp⟩
    · rw [components_of_not_mem hs, List.mem_singleton] at h
      exact ⟨[], [], by simp [h], Or.inl rfl, Or.inl rfl⟩

theorem mem_components_of_slash {a q b : List Char} (hq : '/' ∉ q)
    (hb : b = [] ∨ ∃ b', b = '/' :: b') : q ∈ components (a ++ '/' :: (q ++ b)) := by
  rw [components_append_slash, List.mem_append]
  refine Or.inr ?_
  rcases hb with rfl | ⟨b', rfl⟩
  · simp [components_of_not_mem hq]
  · simp [components_append_slash, components_of_not_mem hq]

/-- Whether resolution keeps a component that is not `..`. -/
def isNamed (c : List Char) : Bool := !(c = [] ∨ c = dot)

theorem foldl_step_of_not_mem {cs : List (List Char)} (h : dotdot ∉ cs) (stack : List (List Char)) :
    cs.foldl step stack = stack ++ cs.filter isNamed := by
  induction cs generalizing stack with
  | nil => simp
  | cons c cs ih =>
    have hc : c ≠ dotdot := fun e => h (by simp [e])
    have hcs : dotdot ∉ cs := fun e => h (List.mem_cons_of_mem c e)
    rw [List.foldl_cons, ih hcs]
    by_cases hd : c = [] ∨ c = dot
    · rw [List.filter_cons_of_neg (by simp [isNamed, hd]), step, if_pos hd]
    · rw [List.filter_cons_of_pos (by simp [isNamed, hd]), step, if_neg hd, if_neg hc,
        List.append_assoc, List.singleton_append]

theorem resolve_of_not_mem {p : List Char} (h : dotdot ∉ components p) :
    resolve p = (components p).filter isNamed := by
  simpa [resolve] using foldl_step_of_not_mem h []

theorem resolve_prefix {p q : List Char} (h : dotdot ∉ components (p ++ '/' :: q)) :
    resolve p <+: resolve (p ++ '/' :: q) := by
  have hp : dotdot ∉ components p := fun e =>
    h (by rw [components_append_slash]; exact List.mem_append_left _ e)
  rw [resolve_of_not_mem h, resolve_of_not_mem hp, components_append_slash, List.filter_append]
  exact List.prefix_append _ _

end NextBSD.LexicalPath

/-!
## Names on a path

A list of names written as a path, with a slash between the names or after each of them.
-/

namespace NextBSD.PathNames

open LexicalPath

structure IsName (n : List Char) : Prop where
  ne_nil : n ≠ []
  no_slash : '/' ∉ n
  ne_dot : n ≠ dot
  ne_dotdot : n ≠ dotdot

def slashed (p : List (List Char)) : List Char := p.flatMap (fun n => n ++ ['/'])

def pathName : List (List Char) → List Char
  | [] => []
  | [n] => n
  | n :: p => n ++ '/' :: pathName p

variable {n m : List Char} {p q : List (List Char)} {x y : List Char}

theorem slashed_cons (n : List Char) (p : List (List Char)) :
    slashed (n :: p) = n ++ '/' :: slashed p := by
  unfold slashed
  rw [List.flatMap_cons, List.append_assoc]
  rfl

theorem slashed_append (p q : List (List Char)) : slashed (p ++ q) = slashed p ++ slashed q := by
  unfold slashed
  exact List.flatMap_append

theorem slashed_concat (p : List (List Char)) (n : List Char) :
    slashed (p ++ [n]) = (slashed p ++ n) ++ ['/'] := by
  rw [slashed_append, slashed_cons, List.append_assoc]
  rfl

theorem pathName_cons (n : List Char) (h : p ≠ []) :
    pathName (n :: p) = n ++ '/' :: pathName p := by
  cases p with
  | nil => exact absurd rfl h
  | cons m p => rfl

theorem pathName_append (c : List (List Char)) (h : p ≠ []) :
    pathName (c ++ p) = slashed c ++ pathName p := by
  induction c with
  | nil => rfl
  | cons n c ih =>
    rw [List.cons_append, pathName_cons n (List.append_ne_nil_of_right_ne_nil c h), ih,
      slashed_cons, List.append_assoc]
    rfl

theorem pathName_concat (p : List (List Char)) (n : List Char) :
    pathName (p ++ [n]) = slashed p ++ n := pathName_append p (List.cons_ne_nil n [])

theorem pathName_slash (h : p ≠ []) : pathName p ++ ['/'] = slashed p := by
  obtain ⟨q, n, rfl⟩ := (List.eq_nil_or_concat' p).resolve_left h
  rw [pathName_concat, slashed_concat]

theorem slashed_ne_nil (h : p ≠ []) : slashed p ≠ [] := by
  rw [← pathName_slash h]
  exact List.append_ne_nil_of_right_ne_nil _ (List.cons_ne_nil _ _)

theorem name_prefix (hn : '/' ∉ n) (hm : '/' ∉ m) (h : n ++ '/' :: x <+: m ++ '/' :: y) :
    n = m ∧ x <+: y := by
  induction n generalizing m with
  | nil =>
    cases m with
    | nil => exact ⟨rfl, (List.cons_prefix_cons.mp h).2⟩
    | cons c m =>
      have hc := (List.cons_prefix_cons.mp h).1
      exact absurd (hc ▸ List.mem_cons_self) hm
  | cons a n ih =>
    cases m with
    | nil =>
      have ha := (List.cons_prefix_cons.mp h).1
      exact absurd (ha ▸ List.mem_cons_self) hn
    | cons c m =>
      obtain ⟨hac, hrest⟩ := List.cons_prefix_cons.mp h
      have htail := ih (fun hmem => hn (List.mem_cons_of_mem _ hmem))
        (fun hmem => hm (List.mem_cons_of_mem _ hmem)) hrest
      exact ⟨by rw [hac, htail.1], htail.2⟩

theorem slashed_prefix_iff (hp : ∀ n ∈ p, IsName n) (hq : ∀ n ∈ q, IsName n) :
    slashed p <+: slashed q ↔ p <+: q := by
  constructor
  · intro h
    induction p generalizing q with
    | nil => exact List.nil_prefix
    | cons n p ih =>
      rw [List.forall_mem_cons] at hp
      cases q with
      | nil => exact absurd (List.prefix_nil.mp h) (slashed_ne_nil (List.cons_ne_nil n p))
      | cons m q =>
        rw [List.forall_mem_cons] at hq
        rw [slashed_cons, slashed_cons] at h
        obtain ⟨rfl, hrest⟩ := name_prefix hp.1.no_slash hq.1.no_slash h
        exact List.cons_prefix_cons.mpr ⟨rfl, ih hp.2 hq.2 hrest⟩
  · rintro ⟨r, rfl⟩
    rw [slashed_append]
    exact List.prefix_append _ _

theorem slashed_inj (hp : ∀ n ∈ p, IsName n) (hq : ∀ n ∈ q, IsName n)
    (h : slashed p = slashed q) : p = q := by
  have hpq := (slashed_prefix_iff hp hq).mp (h ▸ List.prefix_refl _)
  have hqp := (slashed_prefix_iff hq hp).mp (h ▸ List.prefix_refl _)
  exact hpq.eq_of_length (Nat.le_antisymm hpq.length_le hqp.length_le)

theorem pathName_ne_nil (hp : ∀ n ∈ p, IsName n) (h : p ≠ []) : pathName p ≠ [] := by
  obtain ⟨q, n, rfl⟩ := (List.eq_nil_or_concat' p).resolve_left h
  rw [pathName_concat]
  exact List.append_ne_nil_of_right_ne_nil _
    (hp n (List.mem_append_right _ List.mem_cons_self)).ne_nil

theorem pathName_inj (hp : ∀ n ∈ p, IsName n) (hq : ∀ n ∈ q, IsName n)
    (h : pathName p = pathName q) : p = q := by
  by_cases hpnil : p = []
  · by_cases hqnil : q = []
    · rw [hpnil, hqnil]
    · rw [hpnil] at h
      exact absurd h.symm (pathName_ne_nil hq hqnil)
  · by_cases hqnil : q = []
    · rw [hqnil] at h
      exact absurd h (pathName_ne_nil hp hpnil)
    · apply slashed_inj hp hq
      rw [← pathName_slash hpnil, ← pathName_slash hqnil, h]

theorem slashed_of_prefix (hp : ∀ n ∈ p, IsName n) (h : x ++ ['/'] <+: pathName p) :
    ∃ c, c <+: p ∧ x ++ ['/'] = slashed c := by
  induction p generalizing x with
  | nil => exact absurd (List.prefix_nil.mp h) (List.append_ne_nil_of_right_ne_nil x (by simp))
  | cons n p ih =>
    rw [List.forall_mem_cons] at hp
    have hslash : ∀ z, x ++ ['/'] ++ z ≠ n := by
      intro z hz
      apply hp.1.no_slash
      rw [← hz]
      simp
    by_cases hnil : p = []
    · obtain ⟨z, hz⟩ := h
      rw [hnil] at hz
      exact absurd hz (hslash z)
    · rw [pathName_cons n hnil] at h
      have hfirst : n ++ ['/'] <+: n ++ '/' :: pathName p := by
        rw [List.append_cons n '/' (pathName p)]
        exact List.prefix_append _ _
      rcases List.prefix_or_prefix_of_prefix h hfirst with hshort | ⟨z, hz⟩
      · -- The slash is the one after the first name.
        obtain ⟨z, hz⟩ := hshort
        rcases List.eq_nil_or_concat' z with hznil | ⟨z', e, hzcat⟩
        · refine ⟨[n], List.prefix_append [n] p, ?_⟩
          rw [hznil, List.append_nil] at hz
          rw [hz]
          exact (List.append_nil _).symm
        · rw [hzcat, ← List.append_assoc] at hz
          exact absurd (List.append_inj' hz rfl).1 (hslash z')
      · rw [← hz] at h
        rcases List.eq_nil_or_concat' z with hznil | ⟨z', e, hzcat⟩
        · refine ⟨[n], List.prefix_append [n] p, ?_⟩
          rw [hznil, List.append_nil] at hz
          rw [← hz]
          exact (List.append_nil _).symm
        · rw [hzcat, ← List.append_assoc] at hz
          have he : e = '/' := (List.cons.inj (List.append_inj' hz rfl).2).1
          have hrest : z' ++ ['/'] <+: pathName p := by
            rw [hzcat, he, List.append_cons n '/' (pathName p), List.prefix_append_right_inj] at h
            exact h
          obtain ⟨c, hc, hslashed⟩ := ih hp.2 hrest
          refine ⟨n :: c, List.cons_prefix_cons.mpr ⟨rfl, hc⟩, ?_⟩
          rw [slashed_cons, ← hslashed, ← hz, he]
          simp

end NextBSD.PathNames
