import NextBSD.Libpkg.Types

/-!
# The job scheduling graph

The nodes and edges of `libpkg/pkg_jobs_schedule.c`.  The jobs live in a list, the
heap, and the address of a job is its position there: `xlink` is such an address, and
`j->jobs` before the sort is every address in order.  A failed assertion or a null
pointer ends the run with a `Failure`.
-/

namespace NextBSD.Libpkg

inductive Failure where
  | assertion | nullPointer | outOfFuel
  deriving DecidableEq, Repr

inductive ScheduleEdge where
  | none | newDepNew | oldDepOld | oldConflictNew | splitUpgrade
  deriving DecidableEq, Repr

def directDepends (a b : Pkg) : Bool := a.depends.any fun dep => b.uid = dep.uid

def oldConflicts (aOld bNew : Pkg) : Bool :=
  aOld.conflicts.any fun conflict => bNew.uid = conflict.uid

/-- `pkg_solved_extract_pkg`: the new package and the old one. -/
def pkgSolvedExtractPkg (s : PkgSolved) : Except Failure (Option Pkg × Option Pkg) :=
  match s.type with
  | .install => .ok (some s.items0, none)
  | .upgradeInstall => .ok (some s.items0, none)
  | .delete => .ok (none, some s.items0)
  | .upgradeRemove => .ok (none, some s.items0)
  | .upgrade =>
    match s.items1 with
    | some old => .ok (some s.items0, some old)
    | none => .error .nullPointer
  | .fetch => .error .assertion

def bothSet (r : Pkg → Pkg → Bool) : Option Pkg → Option Pkg → Bool
  | some a, some b => r a b
  | _, _ => false

def packageEdge (aNew aOld bNew bOld : Option Pkg) : ScheduleEdge :=
  if bothSet directDepends bNew aNew then .newDepNew
  else if bothSet oldConflicts aOld bNew then .oldConflictNew
  else if bothSet directDepends aOld bOld && !bothSet directDepends aNew bNew then .oldDepOld
  else .none

def isSplitHalf (s : PkgSolved) : Bool := s.type = .upgradeInstall || s.type = .upgradeRemove

def pkgJobsScheduleGraphEdge (heap : List PkgSolved) (a b : Nat) : Except Failure ScheduleEdge :=
  if a = b then .ok .none
  else
    match heap[a]?, heap[b]? with
    | some ja, some jb =>
      if ja.xlink = some b || jb.xlink = some a then
        if ja.xlink = some b && jb.xlink = some a && isSplitHalf ja && isSplitHalf jb &&
            ja.type ≠ jb.type then
          .ok (if ja.type = .upgradeRemove then .splitUpgrade else .none)
        else .error .assertion
      else
        match pkgSolvedExtractPkg ja, pkgSolvedExtractPkg jb with
        | .ok (aNew, aOld), .ok (bNew, bOld) => .ok (packageEdge aNew aOld bNew bOld)
        | .error e, _ => .error e
        | _, .error e => .error e
    | _, _ => .error .nullPointer

def edgeOf (heap : List PkgSolved) (a b : Nat) : ScheduleEdge :=
  match pkgJobsScheduleGraphEdge heap a b with
  | .ok e => e
  | .error _ => .none

def HasEdge (heap : List PkgSolved) (a b : Nat) : Prop := edgeOf heap a b ≠ .none

instance (heap : List PkgSolved) (a b : Nat) : Decidable (HasEdge heap a b) :=
  inferInstanceAs (Decidable (edgeOf heap a b ≠ .none))

/-- A job as the solver makes it: an install, a delete, or an upgrade with its old package. -/
structure PkgSolved.Solved (s : PkgSolved) : Prop where
  type : s.type = .install ∨ s.type = .delete ∨ s.type = .upgrade
  old : s.type = .upgrade → s.items1.isSome
  xlink : s.xlink = none

structure SplitHalves (heap : List PkgSolved) (remove install : Nat) : Prop where
  removes : ∃ s, heap[remove]? = some s ∧ s.type = .upgradeRemove ∧ s.xlink = some install
  installs : ∃ s, heap[install]? = some s ∧ s.type = .upgradeInstall ∧ s.xlink = some remove

structure WellLinked (heap : List PkgSolved) : Prop where
  packages : ∀ s ∈ heap, ∃ p, pkgSolvedExtractPkg s = .ok p
  halves : ∀ a b s, heap[a]? = some s → s.xlink = some b →
    SplitHalves heap a b ∨ SplitHalves heap b a

theorem PkgSolved.Solved.extract {s : PkgSolved} (h : s.Solved) :
    ∃ p, pkgSolvedExtractPkg s = .ok p := by
  rcases h.type with ht | ht | ht
  · exact ⟨_, by rw [pkgSolvedExtractPkg, ht]⟩
  · exact ⟨_, by rw [pkgSolvedExtractPkg, ht]⟩
  · obtain ⟨old, hold⟩ := Option.isSome_iff_exists.mp (h.old ht)
    exact ⟨(some s.items0, some old), by rw [pkgSolvedExtractPkg, ht, hold]⟩

section
variable {heap : List PkgSolved}

theorem graphEdge_self (a : Nat) : pkgJobsScheduleGraphEdge heap a a = .ok .none := by
  rw [pkgJobsScheduleGraphEdge, if_pos rfl]

theorem not_hasEdge_self (a : Nat) : ¬ HasEdge heap a a := by
  intro h
  exact h (by rw [edgeOf, graphEdge_self])

theorem HasEdge.lt {a b : Nat} (h : HasEdge heap a b) : a < heap.length ∧ b < heap.length := by
  by_contra hout
  refine h ?_
  have hne : a ≠ b := by
    intro hab
    subst hab
    exact not_hasEdge_self a h
  have hnull : pkgJobsScheduleGraphEdge heap a b = .error .nullPointer := by
    rw [pkgJobsScheduleGraphEdge, if_neg hne]
    by_cases ha : a < heap.length
    · have hb : heap[b]? = none := List.getElem?_eq_none (by omega)
      rw [hb, List.getElem?_eq_getElem ha]
    · have ha : heap[a]? = none := List.getElem?_eq_none (by omega)
      rw [ha]
  rw [edgeOf, hnull]

theorem SplitHalves.graphEdge {remove install : Nat} (h : SplitHalves heap remove install) :
    pkgJobsScheduleGraphEdge heap remove install = .ok .splitUpgrade ∧
      pkgJobsScheduleGraphEdge heap install remove = .ok .none := by
  obtain ⟨r, hr, hrt, hrx⟩ := h.removes
  obtain ⟨i, hi, hit, hix⟩ := h.installs
  have hne : remove ≠ install := by
    intro he
    rw [he, hi] at hr
    rw [← Option.some.inj hr, hit] at hrt
    cases hrt
  constructor
  · rw [pkgJobsScheduleGraphEdge, if_neg hne, hr, hi]
    simp [hrx, hix, hrt, hit, isSplitHalf]
  · rw [pkgJobsScheduleGraphEdge, if_neg hne.symm, hr, hi]
    simp [hrx, hix, hrt, hit, isSplitHalf]

theorem graphEdge_unlinked {a b : Nat} (hab : a ≠ b) {ja jb : PkgSolved} (ha : heap[a]? = some ja)
    (hb : heap[b]? = some jb) (hla : ja.xlink ≠ some b) (hlb : jb.xlink ≠ some a)
    {aNew aOld bNew bOld : Option Pkg} (hpa : pkgSolvedExtractPkg ja = .ok (aNew, aOld))
    (hpb : pkgSolvedExtractPkg jb = .ok (bNew, bOld)) :
    pkgJobsScheduleGraphEdge heap a b = .ok (packageEdge aNew aOld bNew bOld) := by
  rw [pkgJobsScheduleGraphEdge, if_neg hab, ha, hb]
  simp [hla, hlb, hpa, hpb]

theorem WellLinked.linked (h : WellLinked heap) {a b : Nat} {ja jb : PkgSolved}
    (ha : heap[a]? = some ja) (hb : heap[b]? = some jb)
    (hl : ja.xlink = some b ∨ jb.xlink = some a) : SplitHalves heap a b ∨ SplitHalves heap b a := by
  rcases hl with hl | hl
  · exact h.halves a b ja ha hl
  · exact (h.halves b a jb hb hl).symm

theorem WellLinked.graphEdge_eq (h : WellLinked heap) {a b : Nat} (ha : a < heap.length)
    (hb : b < heap.length) : pkgJobsScheduleGraphEdge heap a b = .ok (edgeOf heap a b) := by
  suffices hok : ∃ e, pkgJobsScheduleGraphEdge heap a b = .ok e by
    obtain ⟨e, he⟩ := hok
    rw [edgeOf, he]
  by_cases hab : a = b
  · subst hab
    exact ⟨_, graphEdge_self a⟩
  have hja := List.getElem?_eq_getElem ha
  have hjb := List.getElem?_eq_getElem hb
  by_cases hl : heap[a].xlink = some b ∨ heap[b].xlink = some a
  · rcases h.linked hja hjb hl with hh | hh
    · exact ⟨_, hh.graphEdge.1⟩
    · exact ⟨_, hh.graphEdge.2⟩
  · obtain ⟨pa, hpa⟩ := h.packages _ (List.getElem_mem ha)
    obtain ⟨pb, hpb⟩ := h.packages _ (List.getElem_mem hb)
    exact ⟨_, graphEdge_unlinked hab hja hjb (fun hx => hl (Or.inl hx)) (fun hx => hl (Or.inr hx))
      hpa hpb⟩

theorem edgeOf_split {a b : Nat} (h : edgeOf heap a b = .splitUpgrade) :
    ∃ ja jb, heap[a]? = some ja ∧ heap[b]? = some jb ∧ isSplitHalf ja = true ∧
      isSplitHalf jb = true := by
  rw [edgeOf, pkgJobsScheduleGraphEdge] at h
  by_cases hab : a = b
  · rw [if_pos hab] at h
    cases h
  rw [if_neg hab] at h
  cases ha : heap[a]? with
  | none => simp [ha] at h
  | some ja =>
    cases hb : heap[b]? with
    | none => simp [ha, hb] at h
    | some jb =>
      refine ⟨ja, jb, rfl, rfl, ?_⟩
      simp only [ha, hb] at h
      by_cases hl : (ja.xlink = some b || jb.xlink = some a) = true
      · rw [if_pos hl] at h
        by_cases hok : (ja.xlink = some b && jb.xlink = some a && isSplitHalf ja &&
            isSplitHalf jb && decide (ja.type ≠ jb.type)) = true
        · simp only [Bool.and_eq_true] at hok
          exact ⟨hok.1.1.2, hok.1.2⟩
        · rw [if_neg hok] at h
          cases h
      · rw [if_neg hl] at h
        cases hpa : pkgSolvedExtractPkg ja with
        | error e => simp [hpa] at h
        | ok pa =>
          cases hpb : pkgSolvedExtractPkg jb with
          | error e => simp [hpa, hpb] at h
          | ok pb =>
            simp only [hpa, hpb, packageEdge] at h
            split at h
            · cases h
            · split at h
              · cases h
              · split at h <;> cases h

end

end NextBSD.Libpkg
