import Mathlib.Data.List.Chain
import Mathlib.Data.List.Perm.Subperm
import Mathlib.Data.List.Range
import NextBSD.Library.Digraph
import NextBSD.Libpkg.Schedule.Graph

/-!
# The search for a cycle

`pkg_jobs_schedule_find_cycle` and the loop of `pkg_jobs_schedule` that calls it.
The marks and the `path_prev` links are functions of the address.  Along a search
the marked path is a list, last node first, and the nodes that are done form a
finish order of the graph.
-/

namespace NextBSD.Libpkg

open Digraph

inductive CycleMark where
  | none | done | path
  deriving DecidableEq, Repr

structure SearchState where
  mark : Nat → CycleMark
  pathPrev : Nat → Option Nat
  path : Option Nat

def SearchState.reset : SearchState :=
  { mark := fun _ => .none, pathPrev := fun _ => none, path := none }

abbrev SearchResult := Except Failure (Option Nat × SearchState)

def pushPath (node : Nat) (st : SearchState) : Except Failure SearchState :=
  if st.mark node ≠ .none then .error .assertion
  else if st.pathPrev node ≠ none then .error .assertion
  else
    .ok { mark := Function.update st.mark node .path,
          pathPrev := Function.update st.pathPrev node st.path,
          path := some node }

def popPath (node : Nat) (st : SearchState) : Except Failure SearchState :=
  if st.mark node ≠ .path then .error .assertion
  else
    .ok { mark := Function.update st.mark node .done,
          pathPrev := Function.update st.pathPrev node none,
          path := st.pathPrev node }

def visitJobs (heap : List PkgSolved) (findCycle : Nat → SearchState → SearchResult)
    (node : Nat) : List Nat → SearchState → SearchResult
  | [], st =>
    match popPath node st with
    | .ok st => .ok (none, st)
    | .error e => .error e
  | i :: jobs, st =>
    match pkgJobsScheduleGraphEdge heap node i with
    | .error e => .error e
    | .ok .none => visitJobs heap findCycle node jobs st
    | .ok _ =>
      match st.mark i with
      | .none =>
        match findCycle i st with
        | .ok (none, st) => visitJobs heap findCycle node jobs st
        | result => result
      | .done => visitJobs heap findCycle node jobs st
      | .path => .ok (some i, st)

/-- `pkg_jobs_schedule_find_cycle`; the fuel bounds the depth of the recursion. -/
def pkgJobsScheduleFindCycle (heap : List PkgSolved) : Nat → Nat → SearchState → SearchResult
  | 0, _, _ => .error .outOfFuel
  | fuel + 1, node, st =>
    match pushPath node st with
    | .ok st =>
      visitJobs heap (pkgJobsScheduleFindCycle heap fuel) node (List.range heap.length) st
    | .error e => .error e

def searchJobs (heap : List PkgSolved) (fuel : Nat) : List Nat → SearchState → SearchResult
  | [], st => .ok (none, st)
  | i :: jobs, st =>
    match st.mark i with
    | .none =>
      match pkgJobsScheduleFindCycle heap fuel i st with
      | .ok (none, st) => searchJobs heap fuel jobs st
      | result => result
    | .done => searchJobs heap fuel jobs st
    | .path => .error .assertion

/-! ### What the state of a search is -/

def PrevChain (pathPrev : Nat → Option Nat) : List Nat → Prop
  | [] => True
  | v :: path => pathPrev v = path.head? ∧ PrevChain pathPrev path

/-- The path of the search is `path`, last node first, and the nodes of `finished` are done. -/
structure Searching (heap : List PkgSolved) (st : SearchState) (path finished : List Nat) :
    Prop where
  end_eq : st.path = path.head?
  prev : PrevChain st.pathPrev path
  offPath : ∀ v, v ∉ path → st.pathPrev v = none
  edges : path.IsChain fun a b => HasEdge heap b a
  mark_path : ∀ v, st.mark v = .path ↔ v ∈ path
  mark_done : ∀ v, st.mark v = .done ↔ v ∈ finished
  nodup : path.Nodup
  jobs : ∀ v ∈ path, v < heap.length
  finish : FinishOrder (HasEdge heap) finished

/-- How a search that may not fail ends: it has finished the node, or it stands at a node
`last` with an edge back to a node of its path. -/
inductive SearchOutcome (heap : List PkgSolved) (path finished visited : List Nat) :
    SearchResult → Prop
  | finished {st : SearchState} {finished' : List Nat} (inv : Searching heap st path finished')
      (grows : finished ⊆ finished') (visits : visited ⊆ finished') :
      SearchOutcome heap path finished visited (.ok (none, st))
  | cycle {st : SearchState} {c last : Nat} {path' finished' : List Nat}
      (inv : Searching heap st (last :: path') finished') (mem : c ∈ last :: path')
      (back : HasEdge heap last c) : SearchOutcome heap path finished visited (.ok (some c, st))

theorem prevChain_congr {p q : Nat → Option Nat} {path : List Nat} (h : ∀ v ∈ path, p v = q v)
    (hp : PrevChain p path) : PrevChain q path := by
  induction path with
  | nil => trivial
  | cons v path ih =>
    refine ⟨?_, ih (fun w hw => h w (List.mem_cons_of_mem _ hw)) hp.2⟩
    rw [← h v List.mem_cons_self]
    exact hp.1

section
variable {heap : List PkgSolved} {st : SearchState} {path finished : List Nat}

theorem searching_reset : Searching heap .reset [] [] where
  end_eq := rfl
  prev := trivial
  offPath := fun _ _ => rfl
  edges := List.isChain_nil
  mark_path := by simp [SearchState.reset]
  mark_done := by simp [SearchState.reset]
  nodup := List.nodup_nil
  jobs := by simp
  finish := .nil

theorem Searching.mark_none (h : Searching heap st path finished) {v : Nat}
    (hv : st.mark v = .none) : v ∉ path ∧ v ∉ finished := by
  constructor
  · intro hp
    rw [(h.mark_path v).mpr hp] at hv
    cases hv
  · intro hd
    rw [(h.mark_done v).mpr hd] at hv
    cases hv

theorem Searching.length_le (h : Searching heap st path finished) : path.length ≤ heap.length := by
  have hsub : path ⊆ List.range heap.length := fun v hv => List.mem_range.mpr (h.jobs v hv)
  have hle := (h.nodup.subperm hsub).length_le
  rwa [List.length_range] at hle

theorem Searching.push (h : Searching heap st path finished) {node : Nat}
    (hnone : st.mark node = .none) (hjob : node < heap.length)
    (hedge : ∀ v ∈ path.head?, HasEdge heap v node) :
    ∃ st', pushPath node st = .ok st' ∧ Searching heap st' (node :: path) finished := by
  have hfresh := h.mark_none hnone
  have hprev : st.pathPrev node = none := h.offPath node hfresh.1
  refine ⟨_, by rw [pushPath, if_neg (by rw [hnone]; decide), if_neg (by rw [hprev]; decide)], ?_⟩
  refine
    { end_eq := rfl
      prev := ⟨?_, ?_⟩
      offPath := ?_
      edges := ?_
      mark_path := ?_
      mark_done := ?_
      nodup := List.nodup_cons.mpr ⟨hfresh.1, h.nodup⟩
      jobs := ?_
      finish := h.finish }
  · show Function.update st.pathPrev node st.path node = path.head?
    rw [Function.update_self, h.end_eq]
  · refine prevChain_congr (fun v hv => ?_) h.prev
    have hne : v ≠ node := fun he => hfresh.1 (he ▸ hv)
    exact (Function.update_of_ne hne _ _).symm
  · intro v hv
    have hne : v ≠ node := fun he => hv (he ▸ List.mem_cons_self)
    show Function.update st.pathPrev node st.path v = none
    rw [Function.update_of_ne hne]
    exact h.offPath v fun hp => hv (List.mem_cons_of_mem _ hp)
  · exact List.isChain_cons.mpr ⟨hedge, h.edges⟩
  · intro v
    show Function.update st.mark node .path v = .path ↔ _
    by_cases hv : v = node
    · subst hv
      simp
    · rw [Function.update_of_ne hv, h.mark_path v, List.mem_cons]
      exact (or_iff_right hv).symm
  · intro v
    show Function.update st.mark node .path v = .done ↔ _
    by_cases hv : v = node
    · subst hv
      simp [hfresh.2]
    · rw [Function.update_of_ne hv, h.mark_done v]
  · intro v hv
    rcases List.mem_cons.mp hv with hv | hv
    · rw [hv]
      exact hjob
    · exact h.jobs v hv

theorem Searching.pop {node : Nat} (h : Searching heap st (node :: path) finished)
    (hdone : ∀ w, HasEdge heap node w → w ∈ finished) :
    ∃ st', popPath node st = .ok st' ∧ Searching heap st' path (node :: finished) := by
  have hmark : st.mark node = .path := (h.mark_path node).mpr List.mem_cons_self
  have hnodup := List.nodup_cons.mp h.nodup
  have hfresh : node ∉ finished := by
    intro hd
    rw [(h.mark_done node).mpr hd] at hmark
    cases hmark
  refine ⟨_, by rw [popPath, if_neg (by rw [hmark]; decide)], ?_⟩
  refine
    { end_eq := h.prev.1
      prev := ?_
      offPath := ?_
      edges := (List.isChain_cons.mp h.edges).2
      mark_path := ?_
      mark_done := ?_
      nodup := hnodup.2
      jobs := fun v hv => h.jobs v (List.mem_cons_of_mem _ hv)
      finish := .cons hfresh hdone h.finish }
  · refine prevChain_congr (fun v hv => ?_) h.prev.2
    have hne : v ≠ node := fun he => hnodup.1 (he ▸ hv)
    exact (Function.update_of_ne hne _ _).symm
  · intro v hv
    show Function.update st.pathPrev node none v = none
    by_cases hvn : v = node
    · rw [hvn, Function.update_self]
    · rw [Function.update_of_ne hvn]
      exact h.offPath v fun hp => hv ((List.mem_cons.mp hp).resolve_left hvn)
  · intro v
    show Function.update st.mark node .done v = .path ↔ _
    by_cases hv : v = node
    · subst hv
      simp [hnodup.1]
    · rw [Function.update_of_ne hv, h.mark_path v, List.mem_cons]
      exact or_iff_right hv
  · intro v
    show Function.update st.mark node .done v = .done ↔ _
    by_cases hv : v = node
    · subst hv
      simp
    · rw [Function.update_of_ne hv, h.mark_done v, List.mem_cons]
      exact (or_iff_right hv).symm

/-! ### The search does not fail -/

theorem SearchOutcome.mono {finished₀ visited₀ visited : List Nat} {result : SearchResult}
    (h : SearchOutcome heap path finished visited result) (hgrow : finished₀ ⊆ finished)
    (hvisited : ∀ v ∈ visited₀, v ∈ finished ∨ v ∈ visited) :
    SearchOutcome heap path finished₀ visited₀ result := by
  cases h with
  | finished inv grows visits =>
    refine .finished inv (fun v hv => grows (hgrow hv)) fun v hv => ?_
    rcases hvisited v hv with hd | hd
    · exact grows hd
    · exact visits hd
  | cycle inv mem back => exact .cycle inv mem back

theorem visitJobs_outcome (hlinked : WellLinked heap)
    {findCycle : Nat → SearchState → SearchResult} {node : Nat}
    (hrec : ∀ i st finished, Searching heap st (node :: path) finished → st.mark i = .none →
      i < heap.length → HasEdge heap node i →
      SearchOutcome heap (node :: path) finished [i] (findCycle i st))
    {jobs : List Nat} (hjobs : ∀ i ∈ jobs, i < heap.length)
    (h : Searching heap st (node :: path) finished)
    (hsucc : ∀ w, HasEdge heap node w → w ∈ jobs ∨ w ∈ finished) :
    SearchOutcome heap path finished [node] (visitJobs heap findCycle node jobs st) := by
  induction jobs generalizing st finished with
  | nil =>
    have hdone : ∀ w, HasEdge heap node w → w ∈ finished := by
      intro w hw
      rcases hsucc w hw with hnil | hd
      · cases hnil
      · exact hd
    obtain ⟨st', hpop, inv⟩ := h.pop hdone
    rw [visitJobs, hpop]
    refine .finished inv (List.subset_cons_self _ _) fun v hv => ?_
    rw [List.mem_singleton.mp hv]
    exact List.mem_cons_self
  | cons i jobs ih =>
    have hi : i < heap.length := hjobs i List.mem_cons_self
    have htail : ∀ j ∈ jobs, j < heap.length := fun j hj => hjobs j (List.mem_cons_of_mem _ hj)
    have hnode : node < heap.length := h.jobs node List.mem_cons_self
    have hnext : ∀ w, HasEdge heap node w → w ≠ i → w ∈ jobs ∨ w ∈ finished := by
      intro w hw hwi
      exact (hsucc w hw).imp_left fun hm => (List.mem_cons.mp hm).resolve_left hwi
    rw [visitJobs, hlinked.graphEdge_eq hnode hi]
    by_cases hedge : edgeOf heap node i = .none
    · rw [hedge]
      refine ih htail h fun w hw => hnext w hw ?_
      intro hwi
      exact hw (hwi ▸ hedge)
    have hskip : SearchOutcome heap path finished [node]
        (match st.mark i with
          | .none =>
            match findCycle i st with
            | .ok (none, st) => visitJobs heap findCycle node jobs st
            | result => result
          | .done => visitJobs heap findCycle node jobs st
          | .path => .ok (some i, st)) := by
      cases hmark : st.mark i with
      | path => exact .cycle h ((h.mark_path i).mp hmark) hedge
      | done =>
        have hdone : i ∈ finished := (h.mark_done i).mp hmark
        refine ih htail h fun w hw => ?_
        by_cases hwi : w = i
        · exact Or.inr (hwi ▸ hdone)
        · exact hnext w hw hwi
      | none =>
        have hout := hrec i st finished h hmark hi hedge
        cases hresult : findCycle i st with
        | error e =>
          rw [hresult] at hout
          cases hout
        | ok result =>
          rw [hresult] at hout
          cases hout with
          | cycle inv mem back => exact .cycle inv mem back
          | @finished st' finished' inv grows visits =>
            have hvisit : i ∈ finished' := visits List.mem_cons_self
            refine (ih htail inv fun w hw => ?_).mono grows fun v hv => Or.inr hv
            by_cases hwi : w = i
            · exact Or.inr (hwi ▸ hvisit)
            · exact (hnext w hw hwi).imp_right fun hd => grows hd
    cases hcase : edgeOf heap node i with
    | none => exact absurd hcase hedge
    | newDepNew => exact hskip
    | oldDepOld => exact hskip
    | oldConflictNew => exact hskip
    | splitUpgrade => exact hskip

theorem findCycle_outcome (hlinked : WellLinked heap) {fuel node : Nat}
    (h : Searching heap st path finished) (hnone : st.mark node = .none)
    (hjob : node < heap.length) (hedge : ∀ v ∈ path.head?, HasEdge heap v node)
    (hfuel : heap.length ≤ fuel + path.length) :
    SearchOutcome heap path finished [node] (pkgJobsScheduleFindCycle heap fuel node st) := by
  induction fuel generalizing node st path finished with
  | zero =>
    obtain ⟨st', -, inv⟩ := h.push hnone hjob hedge
    have hle := inv.length_le
    rw [List.length_cons] at hle
    omega
  | succ fuel ih =>
    obtain ⟨st', hpush, inv⟩ := h.push hnone hjob hedge
    rw [pkgJobsScheduleFindCycle, hpush]
    refine visitJobs_outcome hlinked ?_ (fun i hi => List.mem_range.mp hi) inv fun w hw =>
      Or.inl (List.mem_range.mpr hw.lt.2)
    intro i st finished hinv hi hlt hback
    refine ih hinv hi hlt ?_ ?_
    · intro v hv
      have hvn : node = v := Option.some.inj hv
      rw [← hvn]
      exact hback
    · rw [List.length_cons]
      omega

theorem searchJobs_outcome (hlinked : WellLinked heap) {fuel : Nat}
    (hfuel : heap.length ≤ fuel) {jobs : List Nat} (hjobs : ∀ i ∈ jobs, i < heap.length)
    (h : Searching heap st [] finished) :
    SearchOutcome heap [] finished jobs (searchJobs heap fuel jobs st) := by
  induction jobs generalizing st finished with
  | nil => exact .finished h (List.Subset.refl _) (List.nil_subset _)
  | cons i jobs ih =>
    have hi : i < heap.length := hjobs i List.mem_cons_self
    have htail : ∀ j ∈ jobs, j < heap.length := fun j hj => hjobs j (List.mem_cons_of_mem _ hj)
    rw [searchJobs]
    cases hmark : st.mark i with
    | path => cases (h.mark_path i).mp hmark
    | done =>
      have hdone : i ∈ finished := (h.mark_done i).mp hmark
      refine (ih htail h).mono (List.Subset.refl _) fun v hv => ?_
      rcases List.mem_cons.mp hv with hv | hv
      · exact Or.inl (hv ▸ hdone)
      · exact Or.inr hv
    | none =>
      have hlen : heap.length ≤ fuel + ([] : List Nat).length := by
        rw [List.length_nil]
        omega
      have hout := findCycle_outcome hlinked h hmark hi (by simp) hlen
      cases hresult : pkgJobsScheduleFindCycle heap fuel i st with
      | error e =>
        rw [hresult] at hout
        cases hout
      | ok result =>
        rw [hresult] at hout
        cases hout with
        | cycle inv mem back => exact .cycle inv mem back
        | @finished st' finished' inv grows visits =>
          refine (ih htail inv).mono grows fun v hv => ?_
          rcases List.mem_cons.mp hv with hv | hv
          · exact Or.inl (visits (hv ▸ List.mem_cons_self))
          · exact Or.inr hv

end

end NextBSD.Libpkg
