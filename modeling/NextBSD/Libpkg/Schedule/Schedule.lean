import NextBSD.Libpkg.Schedule.Break
import NextBSD.Libpkg.Schedule.Sort

/-!
# The job schedule

`pkg_jobs_schedule`: break the cycles, then sort.  The two parts meet in the finish
order: a graph whose search found no cycle has one, and with it the sort cannot get
stuck.
-/

namespace NextBSD.Libpkg

open Digraph

/-- What `pkg_jobs_schedule` leaves: its return code, the jobs by their addresses, and
`j->jobs`. -/
structure Schedule where
  code : Epkg
  heap : List PkgSolved
  jobs : List Nat
  deriving DecidableEq, Repr

/-- `pkg_jobs_schedule`; the fuel bounds every loop and the depth of the search. -/
def pkgJobsSchedule (fuel : Nat) (jobs : List PkgSolved) : Except Failure Schedule :=
  match breakCycles fuel fuel jobs with
  | .error e => .error e
  | .ok (.ok, heap) =>
    match pkgJobsScheduleTopologicalSort heap fuel (List.range heap.length) with
    | .error e => .error e
    | .ok jobs => .ok { code := .ok, heap, jobs }
  | .ok (code, heap) => .ok { code, heap, jobs := List.range heap.length }

section
variable {jobs heap : List PkgSolved} {schedule : Schedule} {fuel : Nat}

theorem pkgJobsSchedule_ok (hret : pkgJobsSchedule fuel jobs = .ok schedule)
    (hok : schedule.code = .ok) :
    breakCycles fuel fuel jobs = .ok (.ok, schedule.heap) ∧
      pkgJobsScheduleTopologicalSort schedule.heap fuel (List.range schedule.heap.length) =
        .ok schedule.jobs := by
  rw [pkgJobsSchedule] at hret
  split at hret
  · cases hret
  · rename_i hbreak
    split at hret
    · cases hret
    · rename_i hsort
      cases hret
      exact ⟨hbreak, hsort⟩
  · rename_i code heap hne hbreak
    cases hret
    exact absurd hok (by simpa using hne)

theorem SortOutcome.idxOf_lt {short : Prop} {order : List Nat}
    (h : SortOutcome heap short (.ok order)) {a b : Nat} (hab : HasEdge heap a b) :
    order.idxOf a < order.idxOf b := by
  cases h with
  | sorted perm sorted =>
    exact sorted.idxOf_reverse_lt (perm.mem_iff.mpr (List.mem_range.mpr hab.lt.2)) hab

theorem hasEdge_of_graphEdge {a b : Nat} {e : ScheduleEdge}
    (h : pkgJobsScheduleGraphEdge heap a b = .ok e) (he : e ≠ .none) : HasEdge heap a b := by
  show edgeOf heap a b ≠ .none
  rw [edgeOf, h]
  exact he

theorem SplitHalves.hasEdge {a b : Nat} (h : SplitHalves heap a b) : HasEdge heap a b :=
  hasEdge_of_graphEdge h.graphEdge.1 (by decide)

theorem SplitHalves.extract {a b : Nat} (h : SplitHalves heap a b) {ja jb : PkgSolved}
    (ha : heap[a]? = some ja) (hb : heap[b]? = some jb) :
    pkgSolvedExtractPkg ja = .ok (none, some ja.items0) ∧
      pkgSolvedExtractPkg jb = .ok (some jb.items0, none) := by
  obtain ⟨r, hr, hrt, -⟩ := h.removes
  obtain ⟨i, hi, hit, -⟩ := h.installs
  rw [ha] at hr
  rw [hb] at hi
  have hja : ja.type = .upgradeRemove := Option.some.inj hr ▸ hrt
  have hjb : jb.type = .upgradeInstall := Option.some.inj hi ▸ hit
  exact ⟨by rw [pkgSolvedExtractPkg, hja], by rw [pkgSolvedExtractPkg, hjb]⟩

theorem hasEdge_of_depends (hlinked : WellLinked heap) {a b : Nat} (hab : a ≠ b)
    {ja jb : PkgSolved} (ha : heap[a]? = some ja) (hb : heap[b]? = some jb) {aNew bNew : Pkg}
    {aOld bOld : Option Pkg} (hpa : pkgSolvedExtractPkg ja = .ok (some aNew, aOld))
    (hpb : pkgSolvedExtractPkg jb = .ok (some bNew, bOld))
    (hdep : directDepends bNew aNew = true) : HasEdge heap a b := by
  by_cases hl : ja.xlink = some b ∨ jb.xlink = some a
  · rcases hlinked.linked ha hb hl with hh | hh
    · rw [(hh.extract ha hb).1] at hpa
      cases hpa
    · rw [(hh.extract hb ha).1] at hpb
      cases hpb
  · have hedge := graphEdge_unlinked hab ha hb (fun h => hl (Or.inl h)) (fun h => hl (Or.inr h))
      hpa hpb
    refine hasEdge_of_graphEdge hedge ?_
    rw [packageEdge, if_pos (show bothSet directDepends (some bNew) (some aNew) = true from hdep)]
    decide

theorem hasEdge_of_conflicts (hlinked : WellLinked heap) {a b : Nat} (hab : a ≠ b)
    {ja jb : PkgSolved} (ha : heap[a]? = some ja) (hb : heap[b]? = some jb) {aOld bNew : Pkg}
    {aNew bOld : Option Pkg} (hpa : pkgSolvedExtractPkg ja = .ok (aNew, some aOld))
    (hpb : pkgSolvedExtractPkg jb = .ok (some bNew, bOld))
    (hconf : oldConflicts aOld bNew = true) : HasEdge heap a b := by
  by_cases hl : ja.xlink = some b ∨ jb.xlink = some a
  · rcases hlinked.linked ha hb hl with hh | hh
    · exact hh.hasEdge
    · rw [(hh.extract hb ha).1] at hpb
      cases hpb
  · have hedge := graphEdge_unlinked hab ha hb (fun h => hl (Or.inl h)) (fun h => hl (Or.inr h))
      hpa hpb
    refine hasEdge_of_graphEdge hedge ?_
    rw [packageEdge]
    by_cases hdep : bothSet directDepends (some bNew) aNew = true
    · rw [if_pos hdep]
      decide
    · rw [if_neg hdep, if_pos (show bothSet oldConflicts (some aOld) (some bNew) = true from hconf)]
      decide

/-- When the scheduler succeeds, `j->jobs` has every job once, some upgrades split in two, and
each edge of the graph goes forward.  So dependencies are installed first, an old package that
conflicts with a new one is removed first, and a remove half comes before its install half. -/
theorem pkgJobsSchedule_ordered (hsolved : ∀ job ∈ jobs, job.Solved)
    (hret : pkgJobsSchedule fuel jobs = .ok schedule) (hok : schedule.code = .ok) :
    schedule.jobs.Perm (List.range schedule.heap.length) ∧ SplitOf jobs schedule.heap ∧
      (∀ a b e, pkgJobsScheduleGraphEdge schedule.heap a b = .ok e → e ≠ .none →
        schedule.jobs.idxOf a < schedule.jobs.idxOf b) ∧
      (∀ a b ja jb aNew aOld bNew bOld, a ≠ b → schedule.heap[a]? = some ja →
        schedule.heap[b]? = some jb → pkgSolvedExtractPkg ja = .ok (some aNew, aOld) →
        pkgSolvedExtractPkg jb = .ok (some bNew, bOld) → directDepends bNew aNew = true →
        schedule.jobs.idxOf a < schedule.jobs.idxOf b) ∧
      (∀ a b ja jb aNew aOld bNew bOld, a ≠ b → schedule.heap[a]? = some ja →
        schedule.heap[b]? = some jb → pkgSolvedExtractPkg ja = .ok (aNew, some aOld) →
        pkgSolvedExtractPkg jb = .ok (some bNew, bOld) → oldConflicts aOld bNew = true →
        schedule.jobs.idxOf a < schedule.jobs.idxOf b) ∧
      (∀ remove install, SplitHalves schedule.heap remove install →
        schedule.jobs.idxOf remove < schedule.jobs.idxOf install) := by
  obtain ⟨hbreak, hsort⟩ := pkgJobsSchedule_ok hret hok
  have hsplit := breakCycles_splitOf hsolved (splitOf_refl jobs) hbreak
  have hlinked := hsplit.wellLinked hsolved
  have hsorted := topologicalSort_outcome hlinked fuel
  rw [hsort] at hsorted
  have hperm : schedule.jobs.Perm (List.range schedule.heap.length) := by
    cases hsorted with
    | sorted perm sorted => exact perm
  refine ⟨hperm, hsplit, ?_, ?_, ?_, ?_⟩
  · intro a b e he hne
    exact hsorted.idxOf_lt (hasEdge_of_graphEdge he hne)
  · intro a b ja jb aNew aOld bNew bOld hab ha hb hpa hpb hdep
    exact hsorted.idxOf_lt (hasEdge_of_depends hlinked hab ha hb hpa hpb hdep)
  · intro a b ja jb aNew aOld bNew bOld hab ha hb hpa hpb hconf
    exact hsorted.idxOf_lt (hasEdge_of_conflicts hlinked hab ha hb hpa hpb hconf)
  · intro remove install hhalves
    exact hsorted.idxOf_lt hhalves.hasEdge

theorem upgrades_le : upgrades jobs ≤ jobs.length := List.countP_le_length

/-- With fuel for every job and half the scheduler returns, and it gives up only at a cycle
that splitting an upgrade would not break. -/
theorem pkgJobsSchedule_returns (hsolved : ∀ job ∈ jobs, job.Solved)
    (hfuel : 2 * jobs.length < fuel) :
    ∃ schedule, pkgJobsSchedule fuel jobs = .ok schedule ∧
      (schedule.code = .ok ∨
        (schedule.code = .fatal ∧ SplitOf jobs schedule.heap ∧
          ∃ l, IsCycle (HasEdge schedule.heap) l ∧ Unbreakable schedule.heap l)) := by
  have hup := @upgrades_le jobs
  have hrounds : upgrades jobs < fuel := by omega
  have hlen : jobs.length + upgrades jobs ≤ fuel := by omega
  obtain ⟨code, heap, hbreak, hle, hout⟩ :=
    breakCycles_outcome hsolved (splitOf_refl jobs) hrounds hlen
  have hsplit := breakCycles_splitOf hsolved (splitOf_refl jobs) hbreak
  rw [pkgJobsSchedule, hbreak]
  cases hout with
  | stuck cycle unbreakable =>
    exact ⟨_, rfl, Or.inr ⟨rfl, hsplit, _, cycle, unbreakable⟩⟩
  | acyclic finish all =>
    have hsorted := topologicalSort_outcome (hsplit.wellLinked hsolved) fuel
    cases hresult : pkgJobsScheduleTopologicalSort heap fuel (List.range heap.length) with
    | ok order => exact ⟨{ code := .ok, heap, jobs := order }, by simp only [hresult], Or.inl rfl⟩
    | error e =>
      rw [hresult] at hsorted
      exfalso
      cases hsorted with
      | outOfFuel hshort => omega
      | stuck nonempty inside waiting =>
        obtain ⟨v, hv, hsource⟩ := finish.exists_source nonempty fun v hv => all v (inside v hv)
        obtain ⟨u, hu, huv⟩ := waiting v hv
        exact hsource u hu huv

end

def oldPackage (uid conflict : String) : Pkg :=
  { type := .installed, name := uid, uid, conflicts := [{ uid := conflict }] }

def newPackage (uid : String) : Pkg := { type := .remote, name := uid, uid }

def crossingUpgrades : List PkgSolved :=
  [{ type := .upgrade, items0 := newPackage "a", items1 := some (oldPackage "a" "b") },
   { type := .upgrade, items0 := newPackage "b", items1 := some (oldPackage "b" "a") }]

/-- Each upgrade would break the cycle; the last one is split, and `a` is upgraded between
its halves. -/
def crossingSchedule : Schedule :=
  { code := .ok
    heap :=
      [{ type := .upgrade, items0 := newPackage "a", items1 := some (oldPackage "a" "b") },
       { type := .upgradeInstall, items0 := newPackage "b", xlink := some 2 },
       { type := .upgradeRemove, items0 := oldPackage "b" "a", xlink := some 1 }]
    jobs := [2, 0, 1] }

theorem crossingUpgrades_solved : ∀ job ∈ crossingUpgrades, job.Solved := by
  intro job hjob
  simp only [crossingUpgrades, List.mem_cons, List.not_mem_nil, or_false] at hjob
  rcases hjob with rfl | rfl
  · exact ⟨by simp, by simp, rfl⟩
  · exact ⟨by simp, by simp, rfl⟩

theorem pkgJobsSchedule_ordered_crossingUpgrades :
    pkgJobsSchedule 5 crossingUpgrades = .ok crossingSchedule ∧
      crossingSchedule.jobs.Perm (List.range 3) ∧ SplitOf crossingUpgrades crossingSchedule.heap ∧
      crossingSchedule.jobs.idxOf 2 < crossingSchedule.jobs.idxOf 1 := by
  obtain ⟨hperm, hsplit, hedges, -⟩ :=
    pkgJobsSchedule_ordered crossingUpgrades_solved
      (show pkgJobsSchedule 5 crossingUpgrades = .ok crossingSchedule from rfl) rfl
  exact ⟨rfl, hperm, hsplit, hedges 2 1 .splitUpgrade rfl (by decide)⟩

theorem pkgJobsSchedule_returns_crossingUpgrades :
    ∃ schedule, pkgJobsSchedule 5 crossingUpgrades = .ok schedule ∧
      (schedule.code = .ok ∨
        (schedule.code = .fatal ∧ SplitOf crossingUpgrades schedule.heap ∧
          ∃ l, IsCycle (HasEdge schedule.heap) l ∧ Unbreakable schedule.heap l)) :=
  pkgJobsSchedule_returns crossingUpgrades_solved (by decide)

end NextBSD.Libpkg
