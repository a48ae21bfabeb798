import Mathlib.Data.List.Nodup
import NextBSD.Libpkg.Solve.Problem

/-!
# File conflicts between two chains

`pkg_conflicts_register_chain` of `libpkg/pkg_jobs_conflicts.c`.  A package has one
entry for each uid it conflicts with, so of a chain of candidates it can name only
one: the first that it meets.
-/

namespace NextBSD.Libpkg

/-- A candidate of a chain, with the files and directories it has once they are loaded, and
whether `pkgdb_ensure_loaded` can load them. -/
structure ChainItem where
  pkg : Pkg
  loads : Bool
  deriving DecidableEq, Repr

def pkgGetConflict (p : Pkg) (uid : String) : Option PkgConflict :=
  p.conflicts.find? fun c => c.uid = uid

/-- `pkg_conflictv_insert_sorted`: nothing happens if there is an entry for the uid. -/
def pkgConflictvInsertSorted (v : List PkgConflict) (c : PkgConflict) : List PkgConflict :=
  if v.any fun e => e.uid = c.uid then v
  else v.takeWhile (fun e => e.uid < c.uid) ++ c :: v.dropWhile (fun e => e.uid < c.uid)

def pkgConflictsNeedConflict (p1 p2 : ChainItem) : Bool :=
  if !p1.loads || !p2.loads then false
  else if (pkgGetConflict p1.pkg p2.pkg.uid).isSome && (pkgGetConflict p2.pkg p1.pkg.uid).isSome then
    false
  else p1.pkg.files.any fun f => p2.pkg.files.contains f || p2.pkg.dirs.contains f

def pkgConflictsRegisterOne (p op : ChainItem) (type : ConflictType) : ChainItem :=
  { p with pkg := { p.pkg with conflicts := pkgConflictvInsertSorted p.pkg.conflicts
                                 { uid := op.pkg.uid, digest := op.pkg.digest, type } } }

def pairConflictType (p1 p2 : Pkg) : ConflictType :=
  if p1.type = .installed && p2.type = .installed then .localLocal
  else if p1.type = .installed || p2.type = .installed then .remoteLocal
  else .remoteRemote

/-- The body of the two loops: the two packages, and whether a conflict was registered. -/
def registerPair (p1 p2 : ChainItem) : ChainItem × ChainItem × Bool :=
  let type := pairConflictType p1.pkg p2.pkg
  if type ≠ .localLocal && pkgConflictsNeedConflict p1 p2 then
    -- the second call sees the first package with its new entry
    let p1' := pkgConflictsRegisterOne p1 p2 type
    (p1', pkgConflictsRegisterOne p2 p1' type, true)
  else (p1, p2, false)

def registerRow (p1 : ChainItem) : List ChainItem → ChainItem × List ChainItem × Nat
  | [] => (p1, [], 0)
  | p2 :: uv2 =>
    let (p1, p2, ret) := registerPair p1 p2
    let (p1, uv2, n) := registerRow p1 uv2
    (p1, p2 :: uv2, n + if ret then 1 else 0)

/-- `pkg_conflicts_register_chain`: the two chains afterwards, and by how much
`conflicts_registered` grew, which is zero where the function returns false. -/
def pkgConflictsRegisterChain : List ChainItem → List ChainItem →
    List ChainItem × List ChainItem × Nat
  | [], uv2 => ([], uv2, 0)
  | p1 :: uv1, uv2 =>
    let (p1, uv2, n) := registerRow p1 uv2
    let (uv1, uv2, m) := pkgConflictsRegisterChain uv1 uv2
    (p1 :: uv1, uv2, n + m)

/-! ### What is left in the chains -/

def sharesPath (p1 p2 : ChainItem) : Bool :=
  pairConflictType p1.pkg p2.pkg ≠ .localLocal && p1.loads && p2.loads &&
    p1.pkg.files.any fun f => p2.pkg.files.contains f || p2.pkg.dirs.contains f

def conflictEntry (p op : ChainItem) : PkgConflict :=
  { uid := op.pkg.uid, digest := op.pkg.digest, type := pairConflictType p.pkg op.pkg }

/-- `p` with an entry for `op`, unless it has one for that uid. -/
def enter (p op : ChainItem) : ChainItem :=
  if (pkgGetConflict p.pkg op.pkg.uid).isSome then p
  else { p with pkg := { p.pkg with conflicts := [conflictEntry p op] } }

def enterFirst (p : ChainItem) (op : Option ChainItem) : ChainItem := op.elim p (enter p)

def FreshOrNames (p : ChainItem) (uid : String) : Prop :=
  p.pkg.conflicts = [] ∨ (pkgGetConflict p.pkg uid).isSome = true

theorem pairConflictType_comm (p1 p2 : Pkg) : pairConflictType p1 p2 = pairConflictType p2 p1 := by
  simp only [pairConflictType, Bool.and_comm, Bool.or_comm]

theorem registerOne_eq {p op : ChainItem} (h : FreshOrNames p op.pkg.uid) :
    pkgConflictsRegisterOne p op (pairConflictType p.pkg op.pkg) = enter p op := by
  by_cases hnamed : (pkgGetConflict p.pkg op.pkg.uid).isSome = true
  · have hany : (p.pkg.conflicts.any fun e => e.uid = op.pkg.uid) = true := by
      simpa [pkgGetConflict, List.find?_isSome] using hnamed
    rw [enter, if_pos hnamed, pkgConflictsRegisterOne, pkgConflictvInsertSorted, if_pos hany]
  · have hnil : p.pkg.conflicts = [] := h.resolve_right hnamed
    rw [enter, if_neg hnamed]
    simp [pkgConflictsRegisterOne, conflictEntry, hnil, pkgConflictvInsertSorted]

theorem enter_fields (p op : ChainItem) :
    (enter p op).pkg.uid = p.pkg.uid ∧ (enter p op).pkg.digest = p.pkg.digest ∧
      (enter p op).pkg.type = p.pkg.type := by
  rw [enter]
  split <;> exact ⟨rfl, rfl, rfl⟩

theorem enter_names (p op : ChainItem) :
    (pkgGetConflict (enter p op).pkg op.pkg.uid).isSome = true := by
  by_cases h : (pkgGetConflict p.pkg op.pkg.uid).isSome = true
  · rw [enter, if_pos h]
    exact h
  · rw [enter, if_neg h]
    simp [pkgGetConflict, conflictEntry]

theorem enter_of_names {p op : ChainItem} (h : (pkgGetConflict p.pkg op.pkg.uid).isSome = true) :
    enter p op = p := by
  rw [enter, if_pos h]

theorem enter_enter_right (p op q : ChainItem) : enter p (enter op q) = enter p op := by
  obtain ⟨huid, hdig, htype⟩ := enter_fields op q
  have hentry : conflictEntry p (enter op q) = conflictEntry p op := by
    simp only [conflictEntry, pairConflictType, huid, hdig, htype]
  rw [enter, huid, hentry, enter]

theorem sharesPath_enter_left (p op q : ChainItem) :
    sharesPath (enter p op) q = sharesPath p q := by
  rw [enter]
  split <;> rfl

theorem sharesPath_enter_right (p q op : ChainItem) :
    sharesPath p (enter q op) = sharesPath p q := by
  rw [enter]
  split <;> rfl

/-- The test for a conflict that is registered already changes nothing: what it skips
would not be registered again. -/
theorem registerPair_eq {p1 p2 : ChainItem} (h1 : FreshOrNames p1 p2.pkg.uid)
    (h2 : FreshOrNames p2 p1.pkg.uid) :
    ((registerPair p1 p2).1, (registerPair p1 p2).2.1) =
      if sharesPath p1 p2 then (enter p1 p2, enter p2 p1) else (p1, p2) := by
  by_cases hshare : sharesPath p1 p2 = true
  · rw [if_pos hshare]
    simp only [sharesPath, Bool.and_eq_true, decide_eq_true_eq] at hshare
    obtain ⟨⟨⟨htype, hl1⟩, hl2⟩, hfiles⟩ := hshare
    by_cases hboth : ((pkgGetConflict p1.pkg p2.pkg.uid).isSome &&
        (pkgGetConflict p2.pkg p1.pkg.uid).isSome) = true
    · have hneed : pkgConflictsNeedConflict p1 p2 = false := by
        rw [pkgConflictsNeedConflict, hl1, hl2, if_neg (by decide), if_pos hboth]
      rw [Bool.and_eq_true] at hboth
      simp only [registerPair, hneed, Bool.and_false, Bool.false_eq_true, if_false,
        enter_of_names hboth.1, enter_of_names hboth.2]
    · have hneed : pkgConflictsNeedConflict p1 p2 = true := by
        rw [pkgConflictsNeedConflict, hl1, hl2, if_neg (by decide), if_neg hboth, hfiles]
      have htype' : decide (pairConflictType p1.pkg p2.pkg ≠ .localLocal) = true := by
        simpa using htype
      obtain ⟨huid, -, htyp⟩ := enter_fields p1 p2
      have hcomm : pairConflictType p1.pkg p2.pkg = pairConflictType p2.pkg (enter p1 p2).pkg := by
        rw [pairConflictType_comm]
        simp only [pairConflictType, htyp]
      have hsecond : pkgConflictsRegisterOne p2 (enter p1 p2)
          (pairConflictType p1.pkg p2.pkg) = enter p2 p1 := by
        rw [hcomm, registerOne_eq (by rw [huid]; exact h2), enter_enter_right]
      simp only [registerPair, hneed, htype', Bool.and_self, if_true, registerOne_eq h1, hsecond]
  · rw [if_neg hshare]
    have hskip : (decide (pairConflictType p1.pkg p2.pkg ≠ .localLocal) &&
        pkgConflictsNeedConflict p1 p2) = false := by
      by_contra hgo
      rw [Bool.not_eq_false, Bool.and_eq_true, pkgConflictsNeedConflict] at hgo
      obtain ⟨htype, hneed⟩ := hgo
      split at hneed
      · cases hneed
      · rename_i hloads
        split at hneed
        · cases hneed
        · apply hshare
          simp only [Bool.or_eq_true, Bool.not_eq_true', not_or, Bool.not_eq_false] at hloads
          simp only [sharesPath, htype, hloads.1, hloads.2, hneed, Bool.and_self]
    simp only [registerPair, hskip, Bool.false_eq_true, if_false]

theorem registerRow_eq {p1 : ChainItem} {uv2 : List ChainItem} {u2 : String}
    (h1 : FreshOrNames p1 u2) (huid : ∀ q ∈ uv2, q.pkg.uid = u2)
    (h2 : ∀ q ∈ uv2, FreshOrNames q p1.pkg.uid) :
    (registerRow p1 uv2).1 = enterFirst p1 (uv2.find? (sharesPath p1)) ∧
      (registerRow p1 uv2).2.1 = uv2.map fun q => if sharesPath p1 q then enter q p1 else q := by
  induction uv2 generalizing p1 with
  | nil => exact ⟨rfl, rfl⟩
  | cons q uv2 ih =>
    have hq : q.pkg.uid = u2 := huid q List.mem_cons_self
    have hpair := @registerPair_eq p1 q (by rw [hq]; exact h1) (h2 q List.mem_cons_self)
    simp only [registerRow]
    by_cases hshare : sharesPath p1 q = true
    · rw [if_pos hshare] at hpair
      obtain ⟨hp1, hq'⟩ := Prod.mk.inj hpair
      have hnamed : (pkgGetConflict (enter p1 q).pkg u2).isSome = true := by
        rw [← hq]
        exact enter_names p1 q
      obtain ⟨huid1, -⟩ := enter_fields p1 q
      obtain ⟨ih1, ih2⟩ := @ih (enter p1 q) (Or.inr hnamed)
        (fun r hr => huid r (List.mem_cons_of_mem _ hr))
        (fun r hr => by rw [huid1]; exact h2 r (List.mem_cons_of_mem _ hr))
      have hlater : ∀ o : Option ChainItem, (∀ r, o = some r → r ∈ uv2) →
          enterFirst (enter p1 q) o = enter p1 q := by
        intro o ho
        cases o with
        | none => rfl
        | some r =>
          refine enter_of_names ?_
          rw [huid r (List.mem_cons_of_mem _ (ho r rfl))]
          exact hnamed
      rw [hp1, hq', ih1, ih2, hlater _ (fun r hr => List.mem_of_find?_eq_some hr),
        List.find?_cons_of_pos hshare, List.map_cons, if_pos hshare]
      refine ⟨rfl, ?_⟩
      simp only [sharesPath_enter_left, enter_enter_right]
    · rw [if_neg hshare] at hpair
      obtain ⟨hp1, hq'⟩ := Prod.mk.inj hpair
      obtain ⟨ih1, ih2⟩ := ih h1 (fun r hr => huid r (List.mem_cons_of_mem _ hr))
        (fun r hr => h2 r (List.mem_cons_of_mem _ hr))
      rw [hp1, hq', ih1, ih2, List.find?_cons_of_neg hshare, List.map_cons, if_neg hshare]
      exact ⟨rfl, rfl⟩

/-- The packages that a pair of chains ends up with: each names the first of the other
chain that it shares a path with. -/
theorem registerChain_eq {uv1 uv2 : List ChainItem} {u1 u2 : String}
    (hu1 : ∀ p ∈ uv1, p.pkg.uid = u1) (hu2 : ∀ q ∈ uv2, q.pkg.uid = u2)
    (h1 : ∀ p ∈ uv1, FreshOrNames p u2) (h2 : ∀ q ∈ uv2, FreshOrNames q u1) :
    (pkgConflictsRegisterChain uv1 uv2).1 =
        uv1.map (fun p => enterFirst p (uv2.find? (sharesPath p))) ∧
      (pkgConflictsRegisterChain uv1 uv2).2.1 =
        uv2.map (fun q => enterFirst q (uv1.find? fun p => sharesPath p q)) := by
  induction uv1 generalizing uv2 with
  | nil =>
    refine ⟨rfl, ?_⟩
    exact (List.map_id _).symm
  | cons p uv1 ih =>
    have hp : p.pkg.uid = u1 := hu1 p List.mem_cons_self
    obtain ⟨hrow1, hrow2⟩ := registerRow_eq (h1 p List.mem_cons_self) hu2
      (fun q hq => by rw [hp]; exact h2 q hq)
    have hmem : ∀ r ∈ uv2.map (fun q => if sharesPath p q then enter q p else q),
        r.pkg.uid = u2 ∧ FreshOrNames r u1 := by
      intro r hr
      obtain ⟨q, hq, hqr⟩ := List.mem_map.mp hr
      rw [← hqr]
      split
      · refine ⟨(enter_fields q p).1.trans (hu2 q hq), Or.inr ?_⟩
        rw [← hp]
        exact enter_names q p
      · exact ⟨hu2 q hq, h2 q hq⟩
    obtain ⟨ih1, ih2⟩ := ih (fun r hr => hu1 r (List.mem_cons_of_mem _ hr))
      (fun r hr => (hmem r hr).1) (fun r hr => h1 r (List.mem_cons_of_mem _ hr))
      (fun r hr => (hmem r hr).2)
    simp only [pkgConflictsRegisterChain, hrow1, hrow2, ih1, ih2, List.map_cons]
    constructor
    · congr 1
      refine List.map_congr_left fun r _ => ?_
      have hfind : (uv2.map fun q => if sharesPath p q then enter q p else q).find?
          (sharesPath r) =
          (uv2.find? (sharesPath r)).map fun q => if sharesPath p q then enter q p else q := by
        rw [List.find?_map]
        congr 2
        funext q
        simp only [Function.comp_apply]
        split
        · exact sharesPath_enter_right r q p
        · rfl
      rw [hfind]
      cases uv2.find? (sharesPath r) with
      | none => rfl
      | some q =>
        simp only [Option.map_some, enterFirst, Option.elim_some]
        split
        · exact enter_enter_right r q p
        · rfl
    · rw [List.map_map]
      refine List.map_congr_left fun q hq => ?_
      simp only [Function.comp_apply]
      by_cases hshare : sharesPath p q = true
      · have hfirst : (p :: uv1).find? (fun r => sharesPath r q) = some p :=
          List.find?_cons_of_pos hshare
        rw [if_pos hshare, hfirst]
        simp only [sharesPath_enter_right]
        cases ho : uv1.find? fun r => sharesPath r q with
        | none => rfl
        | some r =>
          refine enter_of_names ?_
          rw [hu1 r (List.mem_cons_of_mem _ (List.mem_of_find?_eq_some ho)), ← hp]
          exact enter_names q p
      · have hlater : (p :: uv1).find? (fun r => sharesPath r q) =
            uv1.find? (fun r => sharesPath r q) := List.find?_cons_of_neg hshare
        rw [if_neg hshare, hlater]

/-! ### Which pairs are covered -/

/-- A chain of one uid as `pkg_conflicts_register_chain` may find it before any conflict is
registered. -/
structure FreshChain (uid : String) (uv : List ChainItem) : Prop where
  uid_eq : ∀ p ∈ uv, p.pkg.uid = uid
  conflicts_nil : ∀ p ∈ uv, p.pkg.conflicts = []
  digest_nodup : (uv.map fun p => p.pkg.digest).Nodup

/-- Not both installed, and a file of the first is a file or a directory of the second. -/
def Clashes (p q : ChainItem) : Prop :=
  ¬ (p.pkg.type = .installed ∧ q.pkg.type = .installed) ∧
    ∃ f ∈ p.pkg.files, f ∈ q.pkg.files ∨ f ∈ q.pkg.dirs

/-- `p` has an entry with the uid and the digest of `q`, of a type for which
`pkg_solve_add_conflict_rule` makes a clause of the pair. -/
def Names (p q : ChainItem) : Prop :=
  ∃ c ∈ p.pkg.conflicts, c.uid = q.pkg.uid ∧ c.digest = q.pkg.digest ∧
    conflictApplies p.pkg c q.pkg = true

instance (p q : ChainItem) : Decidable (Clashes p q) :=
  inferInstanceAs (Decidable (¬ _ ∧ ∃ f ∈ p.pkg.files, f ∈ q.pkg.files ∨ f ∈ q.pkg.dirs))

instance (p q : ChainItem) : Decidable (Names p q) :=
  inferInstanceAs (Decidable (∃ c ∈ p.pkg.conflicts, c.uid = q.pkg.uid ∧ c.digest = q.pkg.digest ∧
    conflictApplies p.pkg c q.pkg = true))

theorem sharesPath_iff {p q : ChainItem} :
    sharesPath p q = true ↔ Clashes p q ∧ p.loads = true ∧ q.loads = true := by
  have htype : pairConflictType p.pkg q.pkg ≠ .localLocal ↔
      ¬ (p.pkg.type = .installed ∧ q.pkg.type = .installed) := by
    rw [pairConflictType]
    by_cases hp : p.pkg.type = .installed <;> by_cases hq : q.pkg.type = .installed <;>
      simp [hp, hq]
  simp only [sharesPath, Clashes, Bool.and_eq_true, decide_eq_true_eq, htype, List.any_eq_true,
    Bool.or_eq_true, List.contains_iff_mem]
  constructor
  · intro h
    exact ⟨⟨h.1.1.1, h.2⟩, h.1.1.2, h.1.2⟩
  · intro h
    exact ⟨⟨⟨h.1.1, h.2.1⟩, h.2.2⟩, h.1.2⟩

theorem conflictApplies_entry {p q : ChainItem} (h : sharesPath p q = true) :
    conflictApplies p.pkg (conflictEntry p q) q.pkg = true := by
  obtain ⟨⟨htype, -⟩, -⟩ := sharesPath_iff.mp h
  simp only [conflictApplies, conflictEntry, pairConflictType]
  by_cases hp : p.pkg.type = .installed <;> by_cases hq : q.pkg.type = .installed
  · exact absurd ⟨hp, hq⟩ htype
  · cases q.pkg.digest <;> simp [hp, hq]
  · cases q.pkg.digest <;> simp [hp, hq]
  · cases q.pkg.digest <;> simp [hp, hq]

theorem conflictApplies_entry_comm {p q : ChainItem} (h : sharesPath p q = true) :
    conflictApplies q.pkg (conflictEntry q p) p.pkg = true := by
  obtain ⟨⟨htype, -⟩, -⟩ := sharesPath_iff.mp h
  simp only [conflictApplies, conflictEntry, pairConflictType]
  by_cases hp : p.pkg.type = .installed <;> by_cases hq : q.pkg.type = .installed
  · exact absurd ⟨hp, hq⟩ htype
  · cases p.pkg.digest <;> simp [hp, hq]
  · cases p.pkg.digest <;> simp [hp, hq]
  · cases p.pkg.digest <;> simp [hp, hq]

theorem names_enterFirst {uid : String} {uv : List ChainItem} (huv : FreshChain uid uv)
    {p q q' : ChainItem} {o : Option ChainItem} (hp : p.pkg.conflicts = [])
    (ho : ∀ op, o = some op → op ∈ uv ∧ conflictApplies p.pkg (conflictEntry p op) op.pkg = true)
    (hq : q ∈ uv) (hq' : q' = enterFirst q none ∨ ∃ r, q' = enterFirst q (some r)) :
    Names (enterFirst p o) q' ↔ o = some q := by
  have hfields : q'.pkg.uid = q.pkg.uid ∧ q'.pkg.digest = q.pkg.digest ∧
      q'.pkg.type = q.pkg.type := by
    rcases hq' with hq' | ⟨r, hq'⟩
    · rw [hq']
      exact ⟨rfl, rfl, rfl⟩
    · rw [hq']
      exact enter_fields q r
  obtain ⟨huid, hdig, htype⟩ := hfields
  have happ (c : PkgConflict) (a : Pkg) : conflictApplies a c q'.pkg = conflictApplies a c q.pkg := by
    simp only [conflictApplies, htype, hdig]
  cases o with
  | none => simp [Names, enterFirst, hp]
  | some op =>
    obtain ⟨hop, hentry⟩ := ho op rfl
    have hnamed : (pkgGetConflict p.pkg op.pkg.uid).isSome = false := by
      simp [pkgGetConflict, hp]
    simp only [Names, enterFirst, Option.elim_some, enter, hnamed, Bool.false_eq_true, if_false,
      List.mem_singleton, exists_eq_left, huid, hdig, happ, Option.some.injEq]
    constructor
    · intro h
      exact List.inj_on_of_nodup_map huv.digest_nodup hop hq h.2.1
    · intro h
      rw [← h]
      exact ⟨rfl, rfl, hentry⟩

/-- After `pkg_conflicts_register_chain` every pair of two chains that clashes is covered
by an entry, on one side or the other, exactly if for every such pair the files of both
can be loaded and one of the two is the first of its chain to share a path with the
other. -/
theorem registerChain_covers_iff (uid1 uid2 : String) (uv1 uv2 : List ChainItem)
    (h1 : FreshChain uid1 uv1) (h2 : FreshChain uid2 uv2) :
    (∀ (i k : Nat) (p q : ChainItem), uv1[i]? = some p → uv2[k]? = some q → Clashes p q →
      ∃ p' q', (pkgConflictsRegisterChain uv1 uv2).1[i]? = some p' ∧
        (pkgConflictsRegisterChain uv1 uv2).2.1[k]? = some q' ∧ (Names p' q' ∨ Names q' p')) ↔
    ∀ p ∈ uv1, ∀ q ∈ uv2, Clashes p q → (p.loads = true ∧ q.loads = true) ∧
      (uv2.find? (sharesPath p) = some q ∨ uv1.find? (fun r => sharesPath r q) = some p) := by
  obtain ⟨hres1, hres2⟩ := registerChain_eq h1.uid_eq h2.uid_eq
    (fun p hp => Or.inl (h1.conflicts_nil p hp)) (fun q hq => Or.inl (h2.conflicts_nil q hq))
  have hpair : ∀ p ∈ uv1, ∀ q ∈ uv2,
      (Names (enterFirst p (uv2.find? (sharesPath p)))
          (enterFirst q (uv1.find? fun r => sharesPath r q)) ∨
        Names (enterFirst q (uv1.find? fun r => sharesPath r q))
          (enterFirst p (uv2.find? (sharesPath p)))) ↔
      (uv2.find? (sharesPath p) = some q ∨ uv1.find? (fun r => sharesPath r q) = some p) := by
    intro p hp q hq
    have hform (x : ChainItem) (o : Option ChainItem) :
        enterFirst x o = enterFirst x none ∨ ∃ r, enterFirst x o = enterFirst x (some r) := by
      cases o with
      | none => exact Or.inl rfl
      | some r => exact Or.inr ⟨r, rfl⟩
    refine or_congr ?_ ?_
    · refine names_enterFirst h2 (h1.conflicts_nil p hp) (fun op ho => ?_) hq (hform q _)
      exact ⟨List.mem_of_find?_eq_some ho, conflictApplies_entry (List.find?_some ho)⟩
    · refine names_enterFirst h1 (h2.conflicts_nil q hq) (fun op ho => ?_) hp (hform p _)
      exact ⟨List.mem_of_find?_eq_some ho,
        conflictApplies_entry_comm (List.find?_some (p := fun r => sharesPath r q) ho)⟩
  rw [hres1, hres2]
  constructor
  · intro h p hp q hq hclash
    obtain ⟨i, hi⟩ := List.mem_iff_getElem?.mp hp
    obtain ⟨k, hk⟩ := List.mem_iff_getElem?.mp hq
    obtain ⟨p', q', hp', hq', hnames⟩ := h i k p q hi hk hclash
    rw [List.getElem?_map, hi, Option.map_some] at hp'
    rw [List.getElem?_map, hk, Option.map_some] at hq'
    rw [← Option.some.inj hp', ← Option.some.inj hq', hpair p hp q hq] at hnames
    refine ⟨?_, hnames⟩
    rcases hnames with hfirst | hfirst
    · exact (sharesPath_iff.mp (List.find?_some hfirst)).2
    · have hshare : sharesPath p q = true := List.find?_some (p := fun r => sharesPath r q) hfirst
      exact (sharesPath_iff.mp hshare).2
  · intro h i k p q hi hk hclash
    have hp := List.mem_of_getElem? hi
    have hq := List.mem_of_getElem? hk
    refine ⟨_, _, by rw [List.getElem?_map, hi, Option.map_some],
      by rw [List.getElem?_map, hk, Option.map_some], ?_⟩
    exact (hpair p hp q hq).mpr (h p hp q hq hclash).2

def remoteCandidate (uid digest : String) (files : List String) : ChainItem :=
  { pkg := { type := .remote, name := uid, uid := uid, digest := some digest, files := files },
    loads := true }

def chainA : List ChainItem :=
  [remoteCandidate "a" "a1" ["/bin/x"], remoteCandidate "a" "a2" ["/bin/x"]]

def chainB : List ChainItem :=
  [remoteCandidate "b" "b1" ["/bin/x"], remoteCandidate "b" "b2" ["/bin/x"]]

theorem freshChain_chainA : FreshChain "a" chainA := ⟨by decide, by decide, by decide⟩

theorem freshChain_chainB : FreshChain "b" chainB := ⟨by decide, by decide, by decide⟩

theorem registerChain_covers_iff_chainA :
    ∃ p' q', (pkgConflictsRegisterChain chainA (chainB.take 1)).1[1]? = some p' ∧
      (pkgConflictsRegisterChain chainA (chainB.take 1)).2.1[0]? = some q' ∧
      (Names p' q' ∨ Names q' p') :=
  (registerChain_covers_iff "a" "b" chainA (chainB.take 1) freshChain_chainA
    ⟨by decide, by decide, by decide⟩).mpr (by decide) 1 0 _ _ rfl rfl (by decide)

/-- With two candidates on each side that all have the same file, the second of the one
chain and the second of the other do not name each other. -/
theorem registerChain_chainA_chainB :
    FreshChain "a" chainA ∧ FreshChain "b" chainB ∧
    ∃ p q p' q', chainA[1]? = some p ∧ chainB[1]? = some q ∧ Clashes p q ∧
      (pkgConflictsRegisterChain chainA chainB).1[1]? = some p' ∧
      (pkgConflictsRegisterChain chainA chainB).2.1[1]? = some q' ∧
      ¬ (Names p' q' ∨ Names q' p') :=
  ⟨freshChain_chainA, freshChain_chainB, _, _, _, _, rfl, rfl, by decide, rfl, rfl, by decide⟩

end NextBSD.Libpkg
