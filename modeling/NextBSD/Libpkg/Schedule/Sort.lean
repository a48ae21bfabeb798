import Mathlib.Data.List.Range
import NextBSD.Library.Digraph
import NextBSD.Libpkg.Schedule.Graph

/-!
# The topological sort

`pkg_jobs_schedule_topological_sort`.  The jobs that are not yet in the sorted list are
split in two: the available ones have no incoming edge from any of them, and each of
the others has one.
-/

namespace NextBSD.Libpkg

open Digraph

def vecSwapRemove (v : List Nat) (index : Nat) : List Nat :=
  if index + 1 < v.length then (v.set index (v.getLastD 0)).dropLast else v.dropLast

def hasIncomingEdge (heap : List PkgSolved) (node : Nat) : List Nat → Except Failure Bool
  | [] => .ok false
  | n :: nodes =>
    match pkgJobsScheduleGraphEdge heap n node with
    | .error e => .error e
    | .ok .none => hasIncomingEdge heap node nodes
    | .ok _ => .ok true

def schedulePriority (node : PkgSolved) : Int :=
  match node.type with
  | .upgradeInstall => 1
  | .upgradeRemove => -1
  | _ => 0

def strcmp (a b : String) : Int := if a < b then -1 else if a = b then 0 else 1

def cmpAvailable (a b : PkgSolved) : Int :=
  let ret := schedulePriority a - schedulePriority b
  if ret = 0 then strcmp b.items0.uid a.items0.uid else ret

def isPreferred (heap : List PkgSolved) (a b : Nat) : Bool :=
  match heap[a]?, heap[b]? with
  | some a, some b => 0 < cmpAvailable a b
  | _, _ => false

/-- The loop for the highest priority: `i` is the place of the next job, `max` and `best`
the place and the address of the best one so far. -/
def selectMax (heap : List PkgSolved) : List Nat → Nat → Nat → Nat → Nat
  | [], _, max, _ => max
  | job :: rest, i, max, best =>
    if isPreferred heap job best then selectMax heap rest (i + 1) i job
    else selectMax heap rest (i + 1) max best

def isChecked (heap : List PkgSolved) (changed : Option Nat) (job : Nat) : Except Failure Bool :=
  match changed with
  | none => .ok true
  | some changed =>
    match pkgJobsScheduleGraphEdge heap changed job with
    | .error e => .error e
    | .ok .none => .ok false
    | .ok _ => .ok true

/-- The condition of `pkg_jobs_schedule_update_available`. -/
def becomesAvailable (heap : List PkgSolved) (changed : Option Nat)
    (unavailable available : List Nat) (job : Nat) : Except Failure Bool :=
  match isChecked heap changed job with
  | .error e => .error e
  | .ok false => .ok false
  | .ok true =>
    match hasIncomingEdge heap job unavailable with
    | .error e => .error e
    | .ok true => .ok false
    | .ok false =>
      match hasIncomingEdge heap job available with
      | .error e => .error e
      | .ok incoming => .ok !incoming

/-- `pkg_jobs_schedule_update_available`: the jobs that stay and the available ones. -/
def updateAvailable (heap : List PkgSolved) (changed : Option Nat) :
    Nat → Nat → List Nat → List Nat → Except Failure (List Nat × List Nat)
  | 0, _, _, _ => .error .outOfFuel
  | fuel + 1, i, unavailable, available =>
    match unavailable[i]? with
    | none => .ok (unavailable, available)
    | some job =>
      match becomesAvailable heap changed unavailable available job with
      | .error e => .error e
      | .ok true =>
        updateAvailable heap changed fuel i (vecSwapRemove unavailable i) (available ++ [job])
      | .ok false => updateAvailable heap changed fuel (i + 1) unavailable available

/-- The loop of the sort, which ends with the assertion that nothing is left. -/
def sortLoop (heap : List PkgSolved) (fuel : Nat) :
    Nat → List Nat → List Nat → List Nat → Except Failure (List Nat)
  | 0, _, _, _ => .error .outOfFuel
  | rounds + 1, unavailable, available, jobs =>
    match available with
    | [] => if unavailable.length = 0 then .ok jobs else .error .assertion
    | first :: rest =>
      let max := selectMax heap rest 1 0 first
      match available[max]? with
      | none => .error .nullPointer
      | some node =>
        match updateAvailable heap (some node) fuel 0 unavailable
            (vecSwapRemove available max) with
        | .error e => .error e
        | .ok (unavailable, available) =>
          sortLoop heap fuel rounds unavailable available (jobs ++ [node])

def pkgJobsScheduleTopologicalSort (heap : List PkgSolved) (fuel : Nat) (jobs : List Nat) :
    Except Failure (List Nat) :=
  match updateAvailable heap none fuel 0 jobs [] with
  | .error e => .error e
  | .ok (unavailable, available) => sortLoop heap fuel fuel unavailable available []

/-! ### The vectors -/

theorem vecSwapRemove_append (before after : List Nat) (job : Nat) :
    ∃ after', vecSwapRemove (before ++ job :: after) before.length = before ++ after' ∧
      after'.Perm after := by
  rw [vecSwapRemove]
  cases after using List.reverseRecOn with
  | nil => exact ⟨[], by simp, List.Perm.refl _⟩
  | append_singleton mid last =>
    refine ⟨last :: mid, ?_, (List.perm_append_singleton last mid).symm⟩
    have hlt : before.length + 1 < (before ++ job :: (mid ++ [last])).length := by
      simp
    have hlast : (before ++ job :: (mid ++ [last])).getLastD 0 = last := by
      rw [← List.cons_append, ← List.append_assoc, List.getLastD_concat]
    rw [if_pos hlt, hlast, List.set_append_right _ _ (Nat.le_refl _), Nat.sub_self,
      List.set_cons_zero, ← List.cons_append, ← List.append_assoc, List.dropLast_concat]

theorem vecSwapRemove_perm {v : List Nat} {i job : Nat} (h : v[i]? = some job) :
    (job :: vecSwapRemove v i).Perm v := by
  obtain ⟨hlt, hget⟩ := List.getElem?_eq_some_iff.mp h
  have hsplit : v = v.take i ++ job :: v.drop (i + 1) := by
    rw [← hget, List.getElem_cons_drop, List.take_append_drop]
  have hlen : (v.take i).length = i := List.length_take_of_le (Nat.le_of_lt hlt)
  obtain ⟨after', hremove, hperm⟩ := vecSwapRemove_append (v.take i) (v.drop (i + 1)) job
  rw [← hsplit, hlen] at hremove
  have hmove : (job :: (v.take i ++ after')).Perm (v.take i ++ job :: v.drop (i + 1)) :=
    ((hperm.append_left _).cons job).trans List.perm_middle.symm
  rw [hremove]
  exact hmove.trans (List.Perm.of_eq hsplit.symm)

theorem selectMax_lt {heap : List PkgSolved} {rest : List Nat} {i max best : Nat}
    (hmax : max < i + rest.length) : selectMax heap rest i max best < i + rest.length := by
  induction rest generalizing i max best with
  | nil => exact hmax
  | cons job rest ih =>
    rw [List.length_cons] at hmax ⊢
    rw [selectMax]
    split
    · have h := @ih (i + 1) i job (by omega)
      omega
    · have h := @ih (i + 1) max best (by omega)
      omega

section
variable {heap : List PkgSolved}

theorem hasIncomingEdge_eq (hlinked : WellLinked heap) {node : Nat} {nodes : List Nat}
    (hnode : node < heap.length) (hnodes : ∀ n ∈ nodes, n < heap.length) :
    hasIncomingEdge heap node nodes = .ok (nodes.any fun n => HasEdge heap n node) := by
  induction nodes with
  | nil => rfl
  | cons n nodes ih =>
    have hn : n < heap.length := hnodes n List.mem_cons_self
    have hrest := ih fun m hm => hnodes m (List.mem_cons_of_mem _ hm)
    rw [hasIncomingEdge, hlinked.graphEdge_eq hn hnode, List.any_cons]
    by_cases hedge : edgeOf heap n node = .none
    · have hno : ¬ HasEdge heap n node := fun h => h hedge
      simp only [hedge, hrest, hno, decide_false, Bool.false_or]
    · have hyes : HasEdge heap n node := hedge
      simp only [hyes, decide_true, Bool.true_or]

theorem isChecked_eq (hlinked : WellLinked heap) {changed : Option Nat} {job : Nat}
    (hchanged : ∀ c ∈ changed, c < heap.length) (hjob : job < heap.length) :
    isChecked heap changed job = .ok (changed.all fun c => HasEdge heap c job) := by
  cases changed with
  | none => rfl
  | some c =>
    have hc : c < heap.length := hchanged c rfl
    rw [isChecked, Option.all_some]
    simp only [hlinked.graphEdge_eq hc hjob]
    by_cases hedge : edgeOf heap c job = .none
    · have hno : ¬ HasEdge heap c job := fun h => h hedge
      simp only [hedge, hno, decide_false]
    · have hyes : HasEdge heap c job := hedge
      simp only [hyes, decide_true]

/-- The job is checked and nothing among the jobs that are left points to it. -/
def Ready (heap : List PkgSolved) (changed : Option Nat) (left : List Nat) (job : Nat) : Prop :=
  (∀ c ∈ changed, HasEdge heap c job) ∧ ∀ u ∈ left, ¬ HasEdge heap u job

theorem becomesAvailable_iff (hlinked : WellLinked heap) {changed : Option Nat}
    {unavailable available left : List Nat} {job : Nat}
    (hchanged : ∀ c ∈ changed, c < heap.length) (hjob : job < heap.length)
    (hleft : ∀ u, u ∈ left ↔ u ∈ unavailable ∨ u ∈ available)
    (hrange : ∀ u ∈ left, u < heap.length) :
    ∃ b, becomesAvailable heap changed unavailable available job = .ok b ∧
      (b = true ↔ Ready heap changed left job) := by
  have hu : ∀ u ∈ unavailable, u < heap.length := fun u h => hrange u ((hleft u).mpr (Or.inl h))
  have ha : ∀ u ∈ available, u < heap.length := fun u h => hrange u ((hleft u).mpr (Or.inr h))
  rw [becomesAvailable, isChecked_eq hlinked hchanged hjob, hasIncomingEdge_eq hlinked hjob hu,
    hasIncomingEdge_eq hlinked hjob ha]
  have hready : Ready heap changed left job ↔
      (changed.all fun c => HasEdge heap c job) = true ∧
        (unavailable.any fun n => HasEdge heap n job) = false ∧
        (available.any fun n => HasEdge heap n job) = false := by
    simp only [Ready, hleft, or_imp, forall_and, Option.all_eq_true, Option.mem_def,
      decide_eq_true_eq, List.any_eq_false]
  rw [hready]
  cases (changed.all fun c => HasEdge heap c job) with
  | false => exact ⟨false, rfl, by simp⟩
  | true =>
    cases (unavailable.any fun n => HasEdge heap n job) with
    | true => exact ⟨false, rfl, by simp⟩
    | false =>
      refine ⟨_, rfl, ?_⟩
      cases (available.any fun n => HasEdge heap n job) <;> simp

/-- What one update does: the jobs that are left are the same, exactly the ones that are ready
have become available. -/
structure Updated (heap : List PkgSolved) (changed : Option Nat)
    (left unavailable available unavailable' available' : List Nat) : Prop where
  perm : (unavailable' ++ available').Perm (unavailable ++ available)
  stays : ∀ u ∈ unavailable', u ∈ unavailable ∧ ¬ Ready heap changed left u
  moved : ∀ u ∈ available', u ∈ available ∨ Ready heap changed left u

theorem updateAvailable_outcome (hlinked : WellLinked heap) {changed : Option Nat} {fuel : Nat}
    {left before rest available : List Nat} (hchanged : ∀ c ∈ changed, c < heap.length)
    (hleft : ∀ u, u ∈ left ↔ u ∈ before ++ rest ∨ u ∈ available)
    (hrange : ∀ u ∈ left, u < heap.length)
    (hbefore : ∀ u ∈ before, ¬ Ready heap changed left u) :
    (updateAvailable heap changed fuel before.length (before ++ rest) available =
        .error .outOfFuel ∧ fuel ≤ rest.length) ∨
      ∃ unavailable' available',
        updateAvailable heap changed fuel before.length (before ++ rest) available =
          .ok (unavailable', available') ∧
        Updated heap changed left (before ++ rest) available unavailable' available' := by
  induction fuel generalizing before rest available with
  | zero => exact Or.inl ⟨rfl, Nat.zero_le _⟩
  | succ fuel ih =>
    rw [updateAvailable]
    cases rest with
    | nil =>
      have hend : (before ++ [])[before.length]? = none := by simp
      rw [hend]
      refine Or.inr ⟨_, _, rfl, List.Perm.refl _, fun u hu => ⟨hu, ?_⟩, fun u hu => Or.inl hu⟩
      exact hbefore u (List.append_nil before ▸ hu)
    | cons job rest =>
      have hget : (before ++ job :: rest)[before.length]? = some job := by simp
      have hjob : job ∈ left := by
        rw [hleft]
        exact Or.inl (List.mem_append_right _ List.mem_cons_self)
      obtain ⟨b, hb, hready⟩ := becomesAvailable_iff hlinked hchanged (hrange job hjob) hleft hrange
      simp only [hget, hb]
      cases b with
      | false =>
        have hshift : before ++ job :: rest = (before ++ [job]) ++ rest := by simp
        have hlen : before.length + 1 = (before ++ [job]).length := by simp
        have hnot : ¬ Ready heap changed left job := by
          intro h
          cases hready.mpr h
        have hbefore' : ∀ u ∈ before ++ [job], ¬ Ready heap changed left u := by
          intro u hu
          rcases List.mem_append.mp hu with hu | hu
          · exact hbefore u hu
          · rw [List.mem_singleton.mp hu]
            exact hnot
        rw [hshift] at hleft
        simp only [hshift, hlen]
        refine (ih hleft hbefore').imp_left fun ⟨hout, hle⟩ => ⟨hout, ?_⟩
        rw [List.length_cons]
        omega
      | true =>
        obtain ⟨rest', hremove, hperm⟩ := vecSwapRemove_append before rest job
        simp only [hremove]
        have hmove : ((before ++ rest') ++ (available ++ [job])).Perm
            ((before ++ job :: rest) ++ available) := by
          have hback : (rest' ++ [job]).Perm (job :: rest) :=
            (List.perm_append_singleton job rest').trans (hperm.cons job)
          have hswap : ((before ++ rest') ++ (available ++ [job])).Perm
              ((before ++ rest') ++ ([job] ++ available)) :=
            List.perm_append_comm.append_left (before ++ rest')
          refine hswap.trans ?_
          rw [← List.append_assoc, List.append_assoc before]
          exact (hback.append_left before).append_right available
        have hleft' : ∀ u, u ∈ left ↔ u ∈ before ++ rest' ∨ u ∈ available ++ [job] := by
          intro u
          rw [hleft u, ← List.mem_append, ← List.mem_append]
          exact hmove.mem_iff.symm
        rcases ih hleft' hbefore with ⟨hout, hle⟩ | ⟨u', a', hout, hupd⟩
        · refine Or.inl ⟨hout, ?_⟩
          rw [hperm.length_eq] at hle
          rw [List.length_cons]
          omega
        · refine Or.inr ⟨u', a', hout, hupd.perm.trans hmove, fun u hu => ?_, fun u hu => ?_⟩
          · obtain ⟨hmem, hnot⟩ := hupd.stays u hu
            refine ⟨?_, hnot⟩
            rcases List.mem_append.mp hmem with hmem | hmem
            · exact List.mem_append_left _ hmem
            · exact List.mem_append_right _ (List.mem_cons_of_mem _ (hperm.mem_iff.mp hmem))
          · rcases hupd.moved u hu with hmem | hr
            · rcases List.mem_append.mp hmem with hmem | hmem
              · exact Or.inl hmem
              · rw [List.mem_singleton.mp hmem]
                exact Or.inr (hready.mp rfl)
            · exact Or.inr hr

/-! ### The sort -/

structure Sorting (heap : List PkgSolved) (unavailable available jobs : List Nat) : Prop where
  perm : ((unavailable ++ available) ++ jobs).Perm (List.range heap.length)
  sorted : FinishOrder (fun v w => HasEdge heap w v) jobs.reverse
  free : ∀ v ∈ available, ∀ u ∈ unavailable ++ available, ¬ HasEdge heap u v
  waiting : ∀ v ∈ unavailable, ∃ u ∈ unavailable ++ available, HasEdge heap u v

/-- How the sort may end: in a topological order, short of fuel, or with the assertion, and
then every job that is left is pointed to by one that is left. -/
inductive SortOutcome (heap : List PkgSolved) (short : Prop) : Except Failure (List Nat) → Prop
  | sorted {jobs : List Nat} (perm : jobs.Perm (List.range heap.length))
      (sorted : FinishOrder (fun v w => HasEdge heap w v) jobs.reverse) :
      SortOutcome heap short (.ok jobs)
  | outOfFuel (h : short) : SortOutcome heap short (.error .outOfFuel)
  | stuck {left : List Nat} (nonempty : left ≠ []) (jobs : ∀ v ∈ left, v < heap.length)
      (waiting : ∀ v ∈ left, ∃ u ∈ left, HasEdge heap u v) :
      SortOutcome heap short (.error .assertion)

theorem SortOutcome.imp {short short' : Prop} {result : Except Failure (List Nat)}
    (h : SortOutcome heap short result) (himp : short → short') :
    SortOutcome heap short' result := by
  cases h with
  | sorted perm sorted => exact .sorted perm sorted
  | outOfFuel h => exact .outOfFuel (himp h)
  | stuck nonempty jobs waiting => exact .stuck nonempty jobs waiting

theorem Sorting.lt {unavailable available jobs : List Nat}
    (h : Sorting heap unavailable available jobs) {v : Nat}
    (hv : v ∈ unavailable ++ available ∨ v ∈ jobs) : v < heap.length :=
  List.mem_range.mp (h.perm.mem_iff.mp (List.mem_append.mpr hv))

theorem Sorting.emit {unavailable available available₁ jobs unavailable' available' : List Nat}
    {node : Nat} (h : Sorting heap unavailable available jobs)
    (hperm : (node :: available₁).Perm available)
    (hupd : Updated heap (some node) (unavailable ++ available₁) unavailable available₁
      unavailable' available') :
    Sorting heap unavailable' available' (jobs ++ [node]) := by
  have hnode : node ∈ available := hperm.mem_iff.mp List.mem_cons_self
  have hall : ((unavailable ++ available₁) ++ (jobs ++ [node])).Perm
      ((unavailable ++ available) ++ jobs) := by
    have hfront : (node :: (unavailable ++ available₁)).Perm (unavailable ++ available) :=
      List.perm_middle.symm.trans (hperm.append_left unavailable)
    rw [← List.append_assoc]
    exact (List.perm_append_singleton node _).trans (hfront.append_right jobs)
  have hleft : ∀ u, u ∈ unavailable' ++ available' ↔ u ∈ unavailable ++ available₁ :=
    fun u => hupd.perm.mem_iff
  have hsub : ∀ u ∈ unavailable ++ available₁, u ∈ unavailable ++ available := by
    intro u hu
    rcases List.mem_append.mp hu with hu | hu
    · exact List.mem_append_left _ hu
    · exact List.mem_append_right _ (hperm.mem_iff.mp (List.mem_cons_of_mem _ hu))
  have hnodup : ((unavailable ++ available) ++ jobs).Nodup := h.perm.nodup_iff.mpr List.nodup_range
  refine
    { perm := (hupd.perm.append_right _).trans (hall.trans h.perm)
      sorted := ?_
      free := ?_
      waiting := ?_ }
  · rw [List.reverse_append, List.reverse_singleton, List.singleton_append]
    refine .cons ?_ ?_ h.sorted
    · intro hmem
      exact (List.nodup_append.mp hnodup).2.2 node (List.mem_append_right _ hnode) node
        (List.mem_reverse.mp hmem) rfl
    · intro w hw
      have hrange : w ∈ (unavailable ++ available) ++ jobs :=
        h.perm.mem_iff.mpr (List.mem_range.mpr hw.lt.1)
      rcases List.mem_append.mp hrange with hmem | hmem
      · exact absurd hw (h.free node hnode w hmem)
      · exact List.mem_reverse.mpr hmem
  · intro v hv u hu
    have hu₁ := (hleft u).mp hu
    rcases hupd.moved v hv with hold | hready
    · exact h.free v (hperm.mem_iff.mp (List.mem_cons_of_mem _ hold)) u (hsub u hu₁)
    · exact hready.2 u hu₁
  · intro v hv
    obtain ⟨hmem, hnot⟩ := hupd.stays v hv
    by_cases hchecked : HasEdge heap node v
    · by_contra hfree
      refine hnot ⟨?_, fun u hu huv => hfree ⟨u, (hleft u).mpr hu, huv⟩⟩
      intro c hc
      rw [← Option.some.inj hc]
      exact hchecked
    · obtain ⟨u, hu, huv⟩ := h.waiting v hmem
      have hun : u ≠ node := by
        intro he
        exact hchecked (he ▸ huv)
      refine ⟨u, (hleft u).mpr ?_, huv⟩
      rcases List.mem_append.mp hu with hu | hu
      · exact List.mem_append_left _ hu
      · exact List.mem_append_right _ ((List.mem_cons.mp (hperm.mem_iff.mpr hu)).resolve_left hun)

theorem sortLoop_outcome (hlinked : WellLinked heap) {fuel rounds : Nat}
    {unavailable available jobs : List Nat} (h : Sorting heap unavailable available jobs) :
    SortOutcome heap (fuel ≤ heap.length ∨ rounds + jobs.length ≤ heap.length)
      (sortLoop heap fuel rounds unavailable available jobs) := by
  have htotal : (unavailable.length + available.length) + jobs.length = heap.length := by
    have hlen := h.perm.length_eq
    rwa [List.length_append, List.length_append, List.length_range] at hlen
  induction rounds generalizing unavailable available jobs with
  | zero => exact .outOfFuel (Or.inr (by omega))
  | succ rounds ih =>
    cases available with
    | nil =>
      rw [sortLoop]
      by_cases hnil : unavailable.length = 0
      · have hempty : unavailable = [] := List.length_eq_zero_iff.mp hnil
        subst hempty
        exact .sorted h.perm h.sorted
      · simp only [if_neg hnil]
        refine SortOutcome.stuck (fun he => hnil (List.length_eq_zero_iff.mpr he)) ?_ ?_
        · intro v hv
          exact h.lt (Or.inl (List.mem_append_left _ hv))
        · intro v hv
          obtain ⟨u, hu, huv⟩ := h.waiting v hv
          exact ⟨u, List.append_nil unavailable ▸ hu, huv⟩
    | cons first rest =>
      have hmax : selectMax heap rest 1 0 first < (first :: rest).length := by
        have hlt := @selectMax_lt heap rest 1 0 first (by omega)
        rw [List.length_cons]
        omega
      have hget := List.getElem?_eq_getElem hmax
      have hperm := vecSwapRemove_perm hget
      have hnode := h.lt (Or.inl (List.mem_append_right _ (List.getElem_mem hmax)))
      rw [sortLoop]
      simp only [hget]
      generalize (first :: rest)[selectMax heap rest 1 0 first] = node at hperm hnode
      generalize vecSwapRemove (first :: rest) (selectMax heap rest 1 0 first) = available₁ at hperm
      have hrange : ∀ u ∈ unavailable ++ available₁, u < heap.length := by
        intro u hu
        refine h.lt (Or.inl ?_)
        rcases List.mem_append.mp hu with hu | hu
        · exact List.mem_append_left _ hu
        · exact List.mem_append_right _ (hperm.mem_iff.mp (List.mem_cons_of_mem _ hu))
      have hchanged : ∀ c ∈ some node, c < heap.length := by
        intro c hc
        rw [← Option.some.inj hc]
        exact hnode
      have hupdate := @updateAvailable_outcome heap hlinked (some node) fuel
        (unavailable ++ available₁) [] unavailable available₁ hchanged
        (fun u => List.mem_append) hrange (by simp)
      rcases hupdate with ⟨hout, hle⟩ | ⟨unavailable', available', hout, hupd⟩
      · simp only [List.length_nil, List.nil_append] at hout
        simp only [hout]
        exact .outOfFuel (Or.inl (by omega))
      · simp only [List.length_nil, List.nil_append] at hout hupd
        simp only [hout]
        have hnext := h.emit hperm hupd
        have hlen := hupd.perm.length_eq
        have hlen₁ := hperm.length_eq
        simp only [List.length_append, List.length_cons] at hlen hlen₁ htotal
        refine (ih hnext ?_).imp fun hshort => ?_
        · rw [List.length_append, List.length_singleton]
          omega
        · rw [List.length_append, List.length_singleton] at hshort
          omega

theorem topologicalSort_outcome (hlinked : WellLinked heap) (fuel : Nat) :
    SortOutcome heap (fuel ≤ heap.length)
      (pkgJobsScheduleTopologicalSort heap fuel (List.range heap.length)) := by
  have hupdate := @updateAvailable_outcome heap hlinked none fuel (List.range heap.length) []
    (List.range heap.length) [] (by simp) (by simp) (fun u hu => List.mem_range.mp hu) (by simp)
  rw [pkgJobsScheduleTopologicalSort]
  rcases hupdate with ⟨hout, hle⟩ | ⟨unavailable, available, hout, hupd⟩
  · simp only [List.length_nil, List.nil_append] at hout
    rw [List.length_range] at hle
    simp only [hout]
    exact .outOfFuel hle
  · simp only [List.length_nil, List.nil_append] at hout hupd
    simp only [hout]
    have hmem : ∀ u, u ∈ unavailable ++ available ↔ u < heap.length := by
      intro u
      rw [hupd.perm.mem_iff, List.append_nil, List.mem_range]
    have hstart : Sorting heap unavailable available [] := by
      refine
        { perm := by simpa using hupd.perm
          sorted := .nil
          free := ?_
          waiting := ?_ }
      · intro v hv u hu huv
        rcases hupd.moved v hv with hnil | hready
        · cases hnil
        · exact hready.2 u (List.mem_range.mpr huv.lt.1) huv
      · intro v hv
        by_contra hfree
        refine (hupd.stays v hv).2 ⟨by simp, fun u hu huv => hfree ⟨u, ?_, huv⟩⟩
        exact (hmem u).mpr huv.lt.1
    refine (sortLoop_outcome hlinked hstart).imp fun hshort => ?_
    rw [List.length_nil] at hshort
    omega

end

end NextBSD.Libpkg
