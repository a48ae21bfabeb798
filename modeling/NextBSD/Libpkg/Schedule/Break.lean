import NextBSD.Libpkg.Schedule.Cycle

/-!
# Breaking the cycles

The outer loop of `pkg_jobs_schedule`: while there is a cycle, walk it backwards to an
upgrade job that breaks it when split, and split that job.  Each round either ends the
loop or leaves one upgrade job less.
-/

namespace NextBSD.Libpkg

open Digraph

/-- `pkg_jobs_schedule_graph_edge` with the assertion that there is an edge. -/
def assertEdge (heap : List PkgSolved) (a b : Nat) : Except Failure ScheduleEdge :=
  match pkgJobsScheduleGraphEdge heap a b with
  | .ok .none => .error .assertion
  | result => result

def breaksCycle (out into : ScheduleEdge) : Bool :=
  (out = .oldDepOld || out = .oldConflictNew) && (into = .newDepNew || into = .oldConflictNew)

/-- The walk along the closed path, from `path` back to `cycle`: the upgrade job to split. -/
def walkCycle (heap : List PkgSolved) (pathPrev : Nat → Option Nat) (cycle : Nat) :
    Nat → Nat → ScheduleEdge → ScheduleEdge → Except Failure (Option Nat)
  | 0, _, _, _ => .error .outOfFuel
  | fuel + 1, path, out, into =>
    match heap[path]? with
    | none => .error .nullPointer
    | some job =>
      if job.type = .upgrade && (out = .splitUpgrade || into = .splitUpgrade) then
        .error .assertion
      else if job.type = .upgrade && breaksCycle out into then .ok (some path)
      else if path = cycle then .ok none
      else
        match pathPrev path with
        | none => .error .assertion
        | some path =>
          match pathPrev path with
          | none => .error .nullPointer
          | some prev =>
            match assertEdge heap prev path with
            | .ok into' => walkCycle heap pathPrev cycle fuel path into into'
            | .error e => .error e

def chooseUpgrade (heap : List PkgSolved) (fuel cycle : Nat) (st : SearchState) :
    Except Failure (Option Nat) :=
  match st.path with
  | none => .error .assertion
  | some path =>
    if st.pathPrev path = none then .error .assertion
    else if path = cycle then .error .assertion
    else
      let pathPrev := Function.update st.pathPrev cycle (some path)
      match assertEdge heap path cycle with
      | .error e => .error e
      | .ok out =>
        match pathPrev path with
        | none => .error .nullPointer
        | some prev =>
          match assertEdge heap prev path with
          | .error e => .error e
          | .ok into => walkCycle heap pathPrev cycle fuel path out into

def splitInto (heap : List PkgSolved) (path : Nat) (job : PkgSolved) (old : Pkg) : List PkgSolved :=
  heap.set path { job with
    type := .upgradeInstall, items1 := none, xlink := some heap.length } ++
  [{ type := .upgradeRemove, items0 := old, xlink := some path }]

def splitUpgrade (heap : List PkgSolved) (path : Nat) : Except Failure (List PkgSolved) :=
  match heap[path]? with
  | none => .error .nullPointer
  | some job =>
    match job.items1 with
    | none => .error .nullPointer
    | some old => .ok (splitInto heap path job old)

/-- The outer loop: `EPKG_OK` with a graph without cycles, or `EPKG_FATAL`. -/
def breakCycles (fuel : Nat) : Nat → List PkgSolved → Except Failure (Epkg × List PkgSolved)
  | 0, _ => .error .outOfFuel
  | rounds + 1, heap =>
    match searchJobs heap fuel (List.range heap.length) .reset with
    | .error e => .error e
    | .ok (none, st) => if st.path ≠ none then .error .assertion else .ok (.ok, heap)
    | .ok (some cycle, st) =>
      match chooseUpgrade heap fuel cycle st with
      | .error e => .error e
      | .ok none => .ok (.fatal, heap)
      | .ok (some path) =>
        match splitUpgrade heap path with
        | .error e => .error e
        | .ok heap => breakCycles fuel rounds heap

/-! ### Walking the cycle -/

/-- No upgrade job of the cycle is left through an edge of its old package and entered
through an edge to its new package. -/
def Unbreakable (heap : List PkgSolved) (l : List Nat) : Prop :=
  ∀ a b c job, [a, b, c] <:+: closedWalk l → heap[b]? = some job → job.type = .upgrade →
    breaksCycle (edgeOf heap b c) (edgeOf heap a b) = false

section
variable {heap : List PkgSolved}

theorem WellLinked.assertEdge_eq (h : WellLinked heap) {a b : Nat} (hab : HasEdge heap a b) :
    assertEdge heap a b = .ok (edgeOf heap a b) := by
  rw [assertEdge, h.graphEdge_eq hab.lt.1 hab.lt.2]
  cases hcase : edgeOf heap a b with
  | none => exact absurd hcase hab
  | newDepNew => rfl
  | oldDepOld => rfl
  | oldConflictNew => rfl
  | splitUpgrade => rfl

theorem edgeOf_ne_split {a b : Nat} {job : PkgSolved} (hup : job.type = .upgrade)
    (h : heap[a]? = some job ∨ heap[b]? = some job) : edgeOf heap a b ≠ .splitUpgrade := by
  intro hsplit
  obtain ⟨ja, jb, ha, hb, hja, hjb⟩ := edgeOf_split hsplit
  have hnot : isSplitHalf job = false := by simp [isSplitHalf, hup]
  rcases h with h | h
  · rw [h] at ha
    rw [← Option.some.inj ha, hnot] at hja
    cases hja
  · rw [h] at hb
    rw [← Option.some.inj hb, hnot] at hjb
    cases hjb

theorem walkCycle_upgrade {pathPrev : Nat → Option Nat} {cycle fuel path p : Nat}
    {out into : ScheduleEdge} (h : walkCycle heap pathPrev cycle fuel path out into = .ok (some p)) :
    ∃ job, heap[p]? = some job ∧ job.type = .upgrade := by
  induction fuel generalizing path out into with
  | zero => cases h
  | succ fuel ih =>
    rw [walkCycle] at h
    cases hjob : heap[path]? with
    | none => simp [hjob] at h
    | some job =>
      simp only [hjob] at h
      split at h
      · cases h
      split at h
      · rename_i hbreaks
        have hpath : path = p := Option.some.inj (Except.ok.inj h)
        rw [Bool.and_eq_true] at hbreaks
        exact ⟨job, hpath ▸ hjob, of_decide_eq_true hbreaks.1⟩
      split at h
      · cases h
      split at h
      · cases h
      split at h
      · cases h
      split at h
      · exact ih h
      · cases h

theorem HasEdge.job_right {a b : Nat} (h : HasEdge heap a b) : ∃ job, heap[b]? = some job :=
  ⟨_, List.getElem?_eq_getElem h.lt.2⟩

theorem infix_triple {a b c x y z : Nat} {l : List Nat} (h : [a, b, c] <:+: x :: y :: z :: l) :
    (a = x ∧ b = y ∧ c = z) ∨ [a, b, c] <:+: y :: z :: l := by
  rcases List.infix_cons_iff.mp h with h | h
  · left
    simpa [List.cons_prefix_cons] using h
  · exact Or.inr h

theorem not_breaks {job : PkgSolved} {out into : ScheduleEdge}
    (h : ¬ (decide (job.type = .upgrade) && breaksCycle out into) = true)
    (hup : job.type = .upgrade) : breaksCycle out into = false := by
  simpa [hup] using h

theorem walkCycle_succ {pathPrev : Nat → Option Nat} {cycle fuel n x q : Nat} {job : PkgSolved}
    (hjob : heap[x]? = some job) :
    walkCycle heap pathPrev cycle (fuel + 1) x (edgeOf heap x n) (edgeOf heap q x) =
      if job.type = .upgrade && breaksCycle (edgeOf heap x n) (edgeOf heap q x) then .ok (some x)
      else if x = cycle then .ok none
      else
        match pathPrev x with
        | none => .error .assertion
        | some path =>
          match pathPrev path with
          | none => .error .nullPointer
          | some prev =>
            match assertEdge heap prev path with
            | .ok into' => walkCycle heap pathPrev cycle fuel path (edgeOf heap q x) into'
            | .error e => .error e := by
  have hassert : ¬ (decide (job.type = .upgrade) &&
      (decide (edgeOf heap x n = .splitUpgrade) || decide (edgeOf heap q x = .splitUpgrade)))
        = true := by
    intro h
    rw [Bool.and_eq_true, Bool.or_eq_true] at h
    have hup : job.type = .upgrade := of_decide_eq_true h.1
    rcases h.2 with ho | hi
    · exact edgeOf_ne_split hup (Or.inl hjob) (of_decide_eq_true ho)
    · exact edgeOf_ne_split hup (Or.inr hjob) (of_decide_eq_true hi)
  rw [walkCycle, hjob]
  exact if_neg hassert

/-- The walk stops at an upgrade job or goes once round the cycle.  The nodes before the one
where the path was closed are `before`, and `n` is the node that the walk came from. -/
theorem walkCycle_outcome (hlinked : WellLinked heap) {pathPrev : Nat → Option Nat}
    {cycle last fuel n x q : Nat} {before l : List Nat}
    (hshape : x :: q :: l = before ++ [cycle, last]) (hbefore : cycle ∉ before)
    (hchain : (x :: q :: l).IsChain fun a b => pathPrev a = some b ∧ HasEdge heap b a)
    (hfuel : before.length < fuel) :
    (∃ p, walkCycle heap pathPrev cycle fuel x (edgeOf heap x n) (edgeOf heap q x) =
        .ok (some p)) ∨
      (walkCycle heap pathPrev cycle fuel x (edgeOf heap x n) (edgeOf heap q x) = .ok none ∧
        ∀ a b c job, [a, b, c] <:+: n :: x :: q :: l → heap[b]? = some job →
          job.type = .upgrade → breaksCycle (edgeOf heap b a) (edgeOf heap c b) = false) := by
  induction before generalizing n x q l fuel with
  | nil =>
    obtain ⟨k, rfl⟩ : ∃ k, fuel = k + 1 := ⟨fuel - 1, by omega⟩
    obtain ⟨hx, hq, hl⟩ : x = cycle ∧ q = last ∧ l = [] := by simpa using hshape
    obtain ⟨job, hjob⟩ := (List.isChain_cons_cons.mp hchain).1.2.job_right
    rw [walkCycle_succ hjob]
    by_cases hbreak : (decide (job.type = .upgrade) &&
        breaksCycle (edgeOf heap x n) (edgeOf heap q x)) = true
    · exact Or.inl ⟨x, if_pos hbreak⟩
    · refine Or.inr ⟨by rw [if_neg hbreak, if_pos hx], ?_⟩
      intro a b c job' htriple hjob' hup
      rcases infix_triple htriple with ⟨ha, hb, hc⟩ | htriple
      · subst ha hb hc
        rw [hjob] at hjob'
        exact not_breaks hbreak (Option.some.inj hjob' ▸ hup)
      · have hle := htriple.length_le
        rw [hl] at hle
        simp at hle
  | cons y before ih =>
    obtain ⟨k, rfl⟩ : ∃ k, fuel = k + 1 := ⟨fuel - 1, by omega⟩
    obtain ⟨hxy, htail⟩ : x = y ∧ q :: l = before ++ [cycle, last] := by simpa using hshape
    obtain ⟨q', l', hl⟩ : ∃ q' l', l = q' :: l' := by
      cases l with
      | cons q' l' => exact ⟨q', l', rfl⟩
      | nil =>
        have hlen := congrArg List.length htail
        rw [List.length_append] at hlen
        simp at hlen
    subst hl
    obtain ⟨hxq, hrest⟩ := List.isChain_cons_cons.mp hchain
    have hqq' := (List.isChain_cons_cons.mp hrest).1
    obtain ⟨job, hjob⟩ := hxq.2.job_right
    rw [walkCycle_succ hjob]
    by_cases hbreak : (decide (job.type = .upgrade) &&
        breaksCycle (edgeOf heap x n) (edgeOf heap q x)) = true
    · exact Or.inl ⟨x, if_pos hbreak⟩
    have hxc : x ≠ cycle := by
      intro he
      exact hbefore (hxy ▸ he ▸ List.mem_cons_self)
    have hwalk : walkCycle heap pathPrev cycle k q (edgeOf heap q x) (edgeOf heap q' q) =
        if job.type = .upgrade && breaksCycle (edgeOf heap x n) (edgeOf heap q x) then .ok (some x)
        else if x = cycle then .ok none
        else
          match pathPrev x with
          | none => .error .assertion
          | some path =>
            match pathPrev path with
            | none => .error .nullPointer
            | some prev =>
              match assertEdge heap prev path with
              | .ok into' => walkCycle heap pathPrev cycle k path (edgeOf heap q x) into'
              | .error e => .error e := by
      rw [if_neg hbreak, if_neg hxc, hxq.1]
      simp only [hqq'.1, hlinked.assertEdge_eq hqq'.2]
    rw [← hwalk]
    have hlt : before.length < k := by
      rw [List.length_cons] at hfuel
      omega
    refine (ih htail (fun hc => hbefore (List.mem_cons_of_mem _ hc)) hrest hlt).imp_right ?_
    rintro ⟨hnone, htriples⟩
    refine ⟨hnone, fun a b c job' htriple hjob' hup => ?_⟩
    rcases infix_triple htriple with ⟨ha, hb, hc⟩ | htriple
    · subst ha hb hc
      rw [hjob] at hjob'
      exact not_breaks hbreak (Option.some.inj hjob' ▸ hup)
    · exact htriples a b c job' htriple hjob' hup

theorem closed_chain {pathPrev : Nat → Option Nat} {c last : Nat} {before rest : List Nat}
    (hprev : PrevChain pathPrev (before ++ c :: rest))
    (hedges : (before ++ c :: rest).IsChain fun a b => HasEdge heap b a) (hc : c ∉ before)
    (hback : HasEdge heap last c) :
    (before ++ [c, last]).IsChain fun a b =>
      Function.update pathPrev c (some last) a = some b ∧ HasEdge heap b a := by
  induction before with
  | nil => exact List.isChain_pair.mpr ⟨Function.update_self _ _ _, hback⟩
  | cons y before ih =>
    rw [List.cons_append] at hprev
    rw [List.cons_append, List.isChain_cons] at hedges
    rw [List.cons_append, List.isChain_cons]
    have hyc : y ≠ c := fun he => hc (he ▸ List.mem_cons_self)
    refine ⟨fun z hz => ?_, ih hprev.2 hedges.2 fun hm => hc (List.mem_cons_of_mem _ hm)⟩
    have hhead : (before ++ c :: rest).head? = (before ++ [c, last]).head? := by
      cases before <;> rfl
    refine ⟨?_, hedges.1 z (hhead ▸ hz)⟩
    rw [Function.update_of_ne hyc, hprev.1, hhead]
    exact hz

/-- From a closed path the program chooses an upgrade job to split, unless splitting none of
them would break the cycle. -/
theorem chooseUpgrade_outcome (hlinked : WellLinked heap) {st : SearchState}
    {path finished : List Nat} {c last fuel : Nat}
    (inv : Searching heap st (last :: path) finished) (hmem : c ∈ last :: path)
    (hback : HasEdge heap last c) (hfuel : heap.length ≤ fuel) :
    (∃ p, chooseUpgrade heap fuel c st = .ok (some p)) ∨
      (chooseUpgrade heap fuel c st = .ok none ∧
        ∃ l, IsCycle (HasEdge heap) l ∧ Unbreakable heap l) := by
  have hne : last ≠ c := by
    intro he
    rw [he] at hback
    exact not_hasEdge_self c hback
  have hpath : c ∈ path := (List.mem_cons.mp hmem).resolve_left fun he => hne he.symm
  obtain ⟨s, rest, hsplit⟩ := List.append_of_mem hpath
  subst hsplit
  have hnodup : (last :: s ++ c :: rest).Nodup := inv.nodup
  have hc : c ∉ last :: s := by
    intro hm
    exact (List.nodup_append.mp hnodup).2.2 c hm c List.mem_cons_self rfl
  have hchain : ((last :: s) ++ [c, last]).IsChain fun a b =>
      Function.update st.pathPrev c (some last) a = some b ∧ HasEdge heap b a :=
    closed_chain inv.prev inv.edges hc hback
  obtain ⟨q, l, hring⟩ : ∃ q l, s ++ [c, last] = q :: l := by
    cases s with
    | nil => exact ⟨c, [last], rfl⟩
    | cons y s => exact ⟨y, s ++ [c, last], rfl⟩
  rw [List.cons_append, hring] at hchain
  have hlink := (List.isChain_cons_cons.mp hchain).1
  have hprev : st.pathPrev last = some q := by
    rw [← hlink.1, Function.update_of_ne hne]
  have hlen : (last :: s).length < fuel := by
    have hle := inv.length_le
    simp only [List.length_cons, List.length_append] at hle ⊢
    omega
  have hchoose : chooseUpgrade heap fuel c st = walkCycle heap
      (Function.update st.pathPrev c (some last)) c fuel last (edgeOf heap last c)
      (edgeOf heap q last) := by
    have hend : st.path = some last := inv.end_eq
    rw [chooseUpgrade, hend]
    simp [hprev, hne, hlinked.assertEdge_eq hback, hlinked.assertEdge_eq hlink.2]
  have hshape : last :: q :: l = (last :: s) ++ [c, last] := by
    rw [List.cons_append, hring]
  rw [hchoose]
  refine (walkCycle_outcome hlinked hshape hc hchain hlen).imp_right ?_
  rintro ⟨hnone, htriples⟩
  have hwalk : closedWalk (last :: s ++ [c]) = c :: last :: q :: l := by
    rw [hshape, closedWalk, List.getLast?_concat]
    simp
  have hcycle : IsCycle (fun a b => HasEdge heap b a) (last :: s ++ [c]) :=
    { nonempty := by simp
      nodup := by
        refine hnodup.sublist (List.Sublist.append (List.Sublist.refl _) ?_)
        exact List.singleton_sublist.mpr List.mem_cons_self
      edges := by
        rw [hwalk]
        exact List.isChain_cons_cons.mpr ⟨hback, hchain.imp fun a b h => h.2⟩ }
  refine ⟨hnone, _, hcycle.reverse, ?_⟩
  intro a b d job htriple hjob hup
  rw [closedWalk_reverse, hwalk] at htriple
  exact htriples d b a job (by simpa using List.reverse_infix.mpr htriple) hjob hup

theorem chooseUpgrade_upgrade {st : SearchState} {fuel c p : Nat}
    (h : chooseUpgrade heap fuel c st = .ok (some p)) :
    ∃ job, heap[p]? = some job ∧ job.type = .upgrade := by
  rw [chooseUpgrade] at h
  split at h
  · cases h
  split at h
  · cases h
  split at h
  · cases h
  dsimp only at h
  split at h
  · cases h
  split at h
  · cases h
  split at h
  · cases h
  · exact walkCycle_upgrade h

end

/-! ### Splitting -/

/-- The upgrade job `s` was split: the install half stands at `a` and the remove half at `b`. -/
structure SplitAt (heap : List PkgSolved) (s : PkgSolved) (a b : Nat) : Prop where
  upgrade : s.type = .upgrade
  install : heap[a]? = some { s with type := .upgradeInstall, items1 := none, xlink := some b }
  remove : ∃ old, s.items1 = some old ∧
    heap[b]? = some { type := .upgradeRemove, items0 := old, xlink := some a }

/-- The heap holds the jobs, each at its place, with some upgrade jobs split. -/
structure SplitOf (jobs heap : List PkgSolved) : Prop where
  length_le : jobs.length ≤ heap.length
  kept : ∀ a s, jobs[a]? = some s →
    heap[a]? = some s ∨ ∃ b, jobs.length ≤ b ∧ SplitAt heap s a b
  added : ∀ b, jobs.length ≤ b → b < heap.length →
    ∃ a s, jobs[a]? = some s ∧ SplitAt heap s a b

def upgrades (heap : List PkgSolved) : Nat := heap.countP fun s => s.type = .upgrade

section
variable {jobs heap heap' : List PkgSolved}

theorem splitOf_refl (jobs : List PkgSolved) : SplitOf jobs jobs where
  length_le := Nat.le_refl _
  kept := fun _ _ h => Or.inl h
  added := by
    intro b hle hlt
    omega

theorem SplitAt.halves {s : PkgSolved} {a b : Nat} (h : SplitAt heap s a b) :
    SplitHalves heap b a := by
  obtain ⟨old, -, hb⟩ := h.remove
  exact ⟨⟨_, hb, rfl, rfl⟩, ⟨_, h.install, rfl, rfl⟩⟩

theorem SplitAt.congr {s : PkgSolved} {a b p : Nat} {job : PkgSolved} (h : SplitAt heap s a b)
    (hp : heap[p]? = some job) (hup : job.type = .upgrade)
    (hsame : ∀ i, i < heap.length → i ≠ p → heap'[i]? = heap[i]?) : SplitAt heap' s a b := by
  obtain ⟨old, hold, hb⟩ := h.remove
  have ha := h.install
  have hap : a ≠ p := by
    intro he
    rw [he, hp] at ha
    rw [Option.some.inj ha] at hup
    cases hup
  have hbp : b ≠ p := by
    intro he
    rw [he, hp] at hb
    rw [Option.some.inj hb] at hup
    cases hup
  have halt : a < heap.length := (List.getElem?_eq_some_iff.mp ha).1
  have hblt : b < heap.length := (List.getElem?_eq_some_iff.mp hb).1
  exact ⟨h.upgrade, (hsame a halt hap).trans ha, old, hold, (hsame b hblt hbp).trans hb⟩

theorem SplitOf.wellLinked (h : SplitOf jobs heap) (hsolved : ∀ job ∈ jobs, job.Solved) :
    WellLinked heap where
  packages := by
    intro s hs
    obtain ⟨i, hi⟩ := List.mem_iff_getElem?.mp hs
    have hlt : i < heap.length := (List.getElem?_eq_some_iff.mp hi).1
    by_cases hjob : i < jobs.length
    · have hj := List.getElem?_eq_getElem hjob
      rcases h.kept i _ hj with hk | ⟨b, -, hsplit⟩
      · rw [hi] at hk
        rw [Option.some.inj hk]
        exact (hsolved _ (List.getElem_mem hjob)).extract
      · have hinst := hsplit.install
        rw [hi] at hinst
        rw [Option.some.inj hinst]
        exact ⟨_, rfl⟩
    · obtain ⟨a, s', -, hsplit⟩ := h.added i (by omega) hlt
      obtain ⟨old, -, hrem⟩ := hsplit.remove
      rw [hi] at hrem
      rw [Option.some.inj hrem]
      exact ⟨_, rfl⟩
  halves := by
    intro a b s hs hlink
    have hlt : a < heap.length := (List.getElem?_eq_some_iff.mp hs).1
    by_cases hjob : a < jobs.length
    · have hj := List.getElem?_eq_getElem hjob
      rcases h.kept a _ hj with hk | ⟨b', -, hsplit⟩
      · rw [hs] at hk
        rw [Option.some.inj hk, (hsolved _ (List.getElem_mem hjob)).xlink] at hlink
        cases hlink
      · have hinst := hsplit.install
        rw [hs] at hinst
        rw [Option.some.inj hinst] at hlink
        have hbb : b' = b := Option.some.inj hlink
        exact Or.inr (hbb ▸ hsplit.halves)
    · obtain ⟨a', s', -, hsplit⟩ := h.added a (by omega) hlt
      obtain ⟨old, -, hrem⟩ := hsplit.remove
      rw [hs] at hrem
      rw [Option.some.inj hrem] at hlink
      have hab : a' = b := Option.some.inj hlink
      exact Or.inl (hab ▸ hsplit.halves)

theorem splitInto_getElem? {p : Nat} {job : PkgSolved} {old : Pkg} :
    ∀ i, i < heap.length → i ≠ p → (splitInto heap p job old)[i]? = heap[i]? := by
  intro i hi hip
  rw [splitInto, List.getElem?_append_left (by rw [List.length_set]; exact hi),
    List.getElem?_set_ne hip.symm]

theorem splitInto_splitAt {p : Nat} {job : PkgSolved} {old : Pkg} (hp : p < heap.length)
    (hup : job.type = .upgrade) (hold : job.items1 = some old) :
    SplitAt (splitInto heap p job old) job p heap.length where
  upgrade := hup
  install := by
    rw [splitInto, List.getElem?_append_left (by rw [List.length_set]; exact hp),
      List.getElem?_set_self hp]
  remove := by
    refine ⟨old, hold, ?_⟩
    rw [splitInto, List.getElem?_append_right (by rw [List.length_set]), List.length_set,
      Nat.sub_self]
    rfl

theorem length_splitInto {p : Nat} {job : PkgSolved} {old : Pkg} :
    (splitInto heap p job old).length = heap.length + 1 := by
  simp [splitInto]

theorem upgrades_splitInto {p : Nat} {job : PkgSolved} {old : Pkg} (hp : heap[p]? = some job)
    (hup : job.type = .upgrade) : upgrades (splitInto heap p job old) + 1 = upgrades heap := by
  obtain ⟨hlt, hget⟩ := List.getElem?_eq_some_iff.mp hp
  have hpos : 0 < upgrades heap :=
    List.countP_pos_iff.mpr ⟨job, List.mem_of_getElem? hp, decide_eq_true hup⟩
  have hcount : upgrades (splitInto heap p job old) = upgrades heap - 1 := by
    simp [upgrades, splitInto, List.countP_append, List.countP_set, hlt, hget, hup]
  omega

theorem splitUpgrade_outcome (h : SplitOf jobs heap) (hsolved : ∀ job ∈ jobs, job.Solved)
    {p : Nat} {job : PkgSolved} (hp : heap[p]? = some job) (hup : job.type = .upgrade) :
    ∃ heap', splitUpgrade heap p = .ok heap' ∧ SplitOf jobs heap' ∧
      heap'.length = heap.length + 1 ∧ upgrades heap' + 1 = upgrades heap := by
  have hlt : p < heap.length := (List.getElem?_eq_some_iff.mp hp).1
  have hpjobs : p < jobs.length := by
    by_contra hge
    obtain ⟨a, s, -, hsplit⟩ := h.added p (by omega) hlt
    obtain ⟨old, -, hrem⟩ := hsplit.remove
    rw [hp] at hrem
    rw [Option.some.inj hrem] at hup
    cases hup
  have hj := List.getElem?_eq_getElem hpjobs
  have hsame : jobs[p] = job := by
    rcases h.kept p _ hj with hk | ⟨b, -, hsplit⟩
    · rw [hp] at hk
      exact (Option.some.inj hk).symm
    · have hinst := hsplit.install
      rw [hp] at hinst
      rw [Option.some.inj hinst] at hup
      cases hup
  rw [hsame] at hj
  obtain ⟨old, hold⟩ := Option.isSome_iff_exists.mp
    ((hsolved job (List.mem_of_getElem? hj)).old hup)
  have hnew := splitInto_splitAt hlt hup hold
  have hle := h.length_le
  refine ⟨splitInto heap p job old, by rw [splitUpgrade, hp]; simp only [hold], ?_,
    length_splitInto, upgrades_splitInto hp hup⟩
  refine
    { length_le := by
        rw [length_splitInto]
        omega
      kept := ?_
      added := ?_ }
  · intro a s hs
    have halt : a < heap.length := by
      have := (List.getElem?_eq_some_iff.mp hs).1
      omega
    by_cases hap : a = p
    · subst hap
      have hsj : job = s := by
        rw [hj] at hs
        exact Option.some.inj hs
      exact Or.inr ⟨heap.length, hle, hsj ▸ hnew⟩
    · rcases h.kept a s hs with hk | ⟨b, hb, hsplit⟩
      · exact Or.inl ((splitInto_getElem? a halt hap).trans hk)
      · exact Or.inr ⟨b, hb, hsplit.congr hp hup splitInto_getElem?⟩
  · intro b hb hblt
    rw [length_splitInto] at hblt
    by_cases hlast : b = heap.length
    · subst hlast
      exact ⟨p, job, hj, hnew⟩
    · obtain ⟨a, s, hs, hsplit⟩ := h.added b hb (by omega)
      exact ⟨a, s, hs, hsplit.congr hp hup splitInto_getElem?⟩

/-- How the loop may end: without a cycle, or at a cycle that no split would break. -/
inductive BreakOutcome (heap : List PkgSolved) : Epkg → Prop
  | acyclic {finished : List Nat} (finish : FinishOrder (HasEdge heap) finished)
      (all : ∀ v, v < heap.length → v ∈ finished) : BreakOutcome heap .ok
  | stuck {l : List Nat} (cycle : IsCycle (HasEdge heap) l) (unbreakable : Unbreakable heap l) :
      BreakOutcome heap .fatal

theorem breakCycles_splitOf (hsolved : ∀ job ∈ jobs, job.Solved) {fuel rounds : Nat} {code : Epkg}
    (h : SplitOf jobs heap) (hret : breakCycles fuel rounds heap = .ok (code, heap')) :
    SplitOf jobs heap' := by
  induction rounds generalizing heap with
  | zero => cases hret
  | succ rounds ih =>
    rw [breakCycles] at hret
    split at hret
    · cases hret
    · split at hret
      · cases hret
      · cases hret
        exact h
    · split at hret
      · cases hret
      · cases hret
        exact h
      · rename_i hchoose
        obtain ⟨job, hp, hup⟩ := chooseUpgrade_upgrade hchoose
        obtain ⟨heap₁, hsplit, h₁, -, -⟩ := splitUpgrade_outcome h hsolved hp hup
        rw [hsplit] at hret
        exact ih h₁ hret

theorem breakCycles_outcome (hsolved : ∀ job ∈ jobs, job.Solved) {fuel rounds : Nat}
    (h : SplitOf jobs heap) (hrounds : upgrades heap < rounds)
    (hfuel : heap.length + upgrades heap ≤ fuel) :
    ∃ code heap', breakCycles fuel rounds heap = .ok (code, heap') ∧
      heap'.length ≤ heap.length + upgrades heap ∧ BreakOutcome heap' code := by
  induction rounds generalizing heap with
  | zero => omega
  | succ rounds ih =>
    have hlinked := h.wellLinked hsolved
    have hlen : heap.length ≤ fuel := by omega
    have hsearch : SearchOutcome heap [] [] (List.range heap.length)
        (searchJobs heap fuel (List.range heap.length) .reset) :=
      searchJobs_outcome hlinked hlen (fun i hi => List.mem_range.mp hi) searching_reset
    rw [breakCycles]
    cases hresult : searchJobs heap fuel (List.range heap.length) .reset with
    | error e =>
      rw [hresult] at hsearch
      cases hsearch
    | ok result =>
      rw [hresult] at hsearch
      cases hsearch with
      | @finished st finished' inv grows visits =>
        have hend : st.path = none := inv.end_eq
        refine ⟨.ok, heap, if_neg (by simp [hend]), by omega, .acyclic inv.finish fun v hv => ?_⟩
        exact visits (List.mem_range.mpr hv)
      | @cycle st c last path' finished' inv mem back =>
        rcases chooseUpgrade_outcome hlinked inv mem back hlen with ⟨p, hchoose⟩ | ⟨hnone, l, hl, hun⟩
        · obtain ⟨job, hp, hup⟩ := chooseUpgrade_upgrade hchoose
          obtain ⟨heap₁, hsplit, h₁, hlen₁, hup₁⟩ := splitUpgrade_outcome h hsolved hp hup
          obtain ⟨code, heap', hbreak, hle, hout⟩ := ih h₁ (by omega) (by omega)
          refine ⟨code, heap', ?_, by omega, hout⟩
          simp only [hchoose, hsplit]
          exact hbreak
        · refine ⟨.fatal, heap, ?_, by omega, .stuck hl hun⟩
          simp only [hnone]

end

end NextBSD.Libpkg
