import NextBSD.Libpkg.Audit
import Mathlib.Data.List.TakeWhile

/-!
# What the indexed search finds

The search over the sorted items against the plain scan of the entries.
-/

namespace NextBSD.Libpkg

open Compare

def AuditItem.prefixBytes (it : AuditItem) : List UInt8 := it.pkgname.take it.noglobLen

def AuditItem.Made (it : AuditItem) : Prop := it.noglobLen = strNoglobLen it.pkgname

theorem strNoglobLen_le (s : List UInt8) : strNoglobLen s ≤ s.length :=
  (List.takeWhile_sublist _).length_le

theorem AuditItem.Made.length_le {it : AuditItem} (h : it.Made) :
    it.noglobLen ≤ it.pkgname.length := by
  rw [h]
  exact strNoglobLen_le it.pkgname

theorem strncmp_prefixes (la lb : Nat) (a b : List UInt8) (ha : la ≤ a.length)
    (hb : lb ≤ b.length) :
    (if strncmp a b (min la lb) = 0 then (if la < lb then -1 else if la > lb then 1
      else strncmp a b (min la lb)) else strncmp a b (min la lb)) =
      toInt (compare (a.take la) (b.take lb)) := by
  induction la generalizing a b lb with
  | zero =>
    rw [Nat.zero_min]
    cases lb with
    | zero => simp [strncmp, toInt]
    | succ lb =>
      cases b with
      | nil => exact absurd hb (Nat.not_succ_le_zero lb)
      | cons y b => simp [strncmp, toInt, List.compare_nil_cons]
  | succ la ih =>
    cases a with
    | nil => exact absurd ha (Nat.not_succ_le_zero la)
    | cons x a =>
      cases lb with
      | zero =>
        rw [Nat.min_zero]
        simp [strncmp, toInt, List.compare_cons_nil]
      | succ lb =>
        cases b with
        | nil => exact absurd hb (Nat.not_succ_le_zero lb)
        | cons y b =>
          have hrest := ih lb a b (Nat.le_of_succ_le_succ ha) (Nat.le_of_succ_le_succ hb)
          rw [show min (la + 1) (lb + 1) = min la lb + 1 by omega, List.take_succ_cons,
            List.take_succ_cons, List.compare_cons_cons]
          by_cases hxy : x = y
          · subst hxy
            rw [Std.compare_eq_iff_eq.mpr rfl, Ordering.eq_then, ← hrest]
            simp only [strncmp, if_true, Nat.add_lt_add_iff_right, gt_iff_lt]
          · by_cases hlt : x < y
            · rw [Std.compare_eq_lt.mpr hlt]
              simp [strncmp, hxy, hlt, toInt]
            · have hgt : y < x := by
                rw [UInt8.lt_iff_toNat_lt] at hlt ⊢
                have hne : x.toNat ≠ y.toNat := fun h => hxy (UInt8.toNat_inj.mp h)
                omega
              rw [Std.compare_eq_gt.mpr hgt]
              simp [strncmp, hxy, hlt, toInt]

theorem auditEntryCmp_eq {e1 e2 : AuditItem} (h1 : e1.Made) (h2 : e2.Made) :
    auditEntryCmp e1 e2 = toInt (compare e1.prefixBytes e2.prefixBytes) :=
  strncmp_prefixes e1.noglobLen e2.noglobLen e1.pkgname e2.pkgname h1.length_le h2.length_le

theorem compare_lt_of_strncmp {name x : List UInt8} {n : Nat} (hn : n ≤ x.length)
    (h : strncmp name x n < 0) {q : List UInt8} (hq : q <+: name) :
    compare q (x.take n) = .lt := by
  induction n generalizing name x q with
  | zero => simp [strncmp] at h
  | succ n ih =>
    cases x with
    | nil => exact absurd hn (Nat.not_succ_le_zero n)
    | cons y x =>
      rw [List.take_succ_cons]
      cases q with
      | nil => exact List.compare_nil_cons
      | cons c q =>
        cases name with
        | nil => exact absurd (List.prefix_nil.mp hq) (List.cons_ne_nil c q)
        | cons d name =>
          obtain ⟨rfl, hq'⟩ := List.cons_prefix_cons.mp hq
          rw [List.compare_cons_cons]
          by_cases hcy : c = y
          · subst hcy
            rw [Std.compare_eq_iff_eq.mpr rfl, Ordering.eq_then]
            refine ih (Nat.le_of_succ_le_succ hn) ?_ hq'
            simpa [strncmp] using h
          · by_cases hlt : c < y
            · rw [Std.compare_eq_lt.mpr hlt]
              rfl
            · simp [strncmp, hcy, hlt] at h

theorem not_prefix_of_strncmp {name x : List UInt8} {n : Nat} (hn : n ≤ x.length)
    (h : 0 < strncmp name x n) : ¬ x.take n <+: name := by
  induction n generalizing name x with
  | zero => simp [strncmp] at h
  | succ n ih =>
    cases x with
    | nil => exact absurd hn (Nat.not_succ_le_zero n)
    | cons y x =>
      rw [List.take_succ_cons]
      intro hprefix
      cases name with
      | nil => exact absurd (List.prefix_nil.mp hprefix) (List.cons_ne_nil y _)
      | cons c name =>
        obtain ⟨rfl, hprefix'⟩ := List.cons_prefix_cons.mp hprefix
        exact ih (Nat.le_of_succ_le_succ hn) (by simpa [strncmp] using h) hprefix'

def nameAt (l : List AuditItem) (k : Nat) : Option (List UInt8) := l[k]?.map AuditItem.pkgname

/-- From every item the increment leads past items with the same name only, and not past the
last one. -/
def IncrOk (l : List AuditItem) (incr : Nat → Nat) : Prop :=
  ∀ k < l.length, 1 ≤ incr k ∧ k + incr k ≤ l.length ∧
    ∀ x < incr k, nameAt l (k + x) = nameAt l k

theorem fillIncrs_ok {l : List AuditItem} {incr : Nat → Nat} {base tofill : Nat}
    (hincr : IncrOk l incr) (hend : base + tofill ≤ l.length)
    (hsame : ∀ j, base ≤ j → j < base + tofill → nameAt l j = nameAt l (base + tofill - 1)) :
    IncrOk l (fillIncrs incr base tofill) := by
  induction tofill generalizing incr base with
  | zero => exact hincr
  | succ tofill ih =>
    cases tofill with
    | zero => exact hincr
    | succ t =>
      unfold fillIncrs
      refine ih ?_ (by omega) ?_
      · intro k hk
        by_cases hkb : k = base
        · subst hkb
          rw [Function.update_self]
          refine ⟨by omega, by omega, ?_⟩
          intro x hx
          rw [hsame (k + x) (by omega) (by omega), hsame k (by omega) (by omega)]
        · rw [Function.update_of_ne hkb]
          exact hincr k hk
      · intro j hj hj'
        rw [hsame j (by omega) (by omega)]
        congr 1
        omega

/-- What the loop over the sorted items keeps: before item `n`, the last `tofill` items have
one name. -/
structure IncrInv (l : List AuditItem) (n : Nat) (s : IncrState) : Prop where
  ok : IncrOk l s.incr
  le : s.tofill ≤ n
  same : ∀ j, n - s.tofill ≤ j → j < n → nameAt l j = nameAt l (n - 1)

theorem incrStep_inv {l : List AuditItem} {prev cur : AuditItem} {n : Nat} {s : IncrState}
    (hpos : 0 < n) (hprev : l[n - 1]? = some prev) (hcur : l[n]? = some cur)
    (hs : IncrInv l n s) : IncrInv l (n + 1) (incrStep prev cur n s) := by
  have hlen : n < l.length := (List.getElem?_eq_some_iff.mp hcur).1
  have hone : ∀ j, n + 1 - 1 ≤ j → j < n + 1 → nameAt l j = nameAt l (n + 1 - 1) := by
    intro j hj hj'
    rw [show j = n + 1 - 1 by omega]
  have hle := hs.le
  unfold incrStep
  by_cases hlength : prev.noglobLen ≠ cur.noglobLen
  · rw [if_pos hlength]
    refine ⟨fillIncrs_ok hs.ok (by omega) ?_, by show 1 ≤ n + 1; omega, hone⟩
    intro j hj hj'
    rw [show n - s.tofill + s.tofill - 1 = n - 1 by omega]
    exact hs.same j hj (by omega)
  · rw [if_neg hlength]
    by_cases hname : prev.pkgname = cur.pkgname
    · rw [if_pos hname]
      refine ⟨hs.ok, by show s.tofill + 1 ≤ n + 1; omega, ?_⟩
      intro j hj hj'
      have hj'' : n + 1 - (s.tofill + 1) ≤ j := hj
      rw [show n + 1 - 1 = n by omega]
      by_cases hjn : j = n
      · rw [hjn]
      · rw [hs.same j (by omega) (by omega)]
        unfold nameAt
        rw [hprev, hcur]
        exact congrArg some hname
    · rw [if_neg hname]
      exact ⟨hs.ok, by show 1 ≤ n + 1; omega, hone⟩

theorem incrLoop_ok {l done rest : List AuditItem} {prev : AuditItem} {n : Nat} {s : IncrState}
    (hl : l = done ++ prev :: rest) (hn : n = done.length + 1) (hs : IncrInv l n s) :
    IncrOk l (incrLoop prev rest n s).incr := by
  induction rest generalizing done prev n s with
  | nil => exact hs.ok
  | cons cur rest ih =>
    unfold incrLoop
    refine @ih (done ++ [prev]) _ _ _ ?_ ?_ ?_
    · rw [hl, List.append_assoc]
      rfl
    · rw [hn, List.length_append]
      rfl
    · apply incrStep_inv (by omega) _ _ hs
      · rw [hl, hn, Nat.add_sub_cancel, List.getElem?_append_right (Nat.le_refl _), Nat.sub_self]
        rfl
      · rw [hl, hn, List.getElem?_append_right (by omega),
          show done.length + 1 - done.length = 1 by omega]
        rfl

theorem nextPfxIncrs_ok (l : List AuditItem) : IncrOk l (nextPfxIncrs l) := by
  cases l with
  | nil => exact fun k hk => absurd hk (Nat.not_lt_zero k)
  | cons first rest =>
    refine @incrLoop_ok _ [] _ _ _ _ rfl rfl ⟨?_, Nat.zero_le _, ?_⟩
    · intro k hk
      refine ⟨Nat.le_refl 1, hk, ?_⟩
      intro x hx
      have hx' : x < 1 := hx
      rw [show x = 0 by omega]
      rfl
    · intro j hj hj'
      have : 1 - 0 ≤ j := hj
      omega

def JumpsOk (a : List AuditItem) : Prop :=
  ∀ k it, a[k]? = some it → 1 ≤ it.nextPfxIncr ∧ k + it.nextPfxIncr ≤ a.length ∧
    ∀ x < it.nextPfxIncr, nameAt a (k + x) = some it.pkgname

theorem JumpsOk.drop {a : List AuditItem} (h : JumpsOk a) (m : Nat) : JumpsOk (a.drop m) := by
  intro k it hk
  rw [List.getElem?_drop] at hk
  obtain ⟨hpos, hend, hsame⟩ := h (m + k) it hk
  refine ⟨hpos, by rw [List.length_drop]; omega, ?_⟩
  intro x hx
  have hx' := hsame x hx
  unfold nameAt at hx' ⊢
  rwa [List.getElem?_drop, ← Nat.add_assoc]

theorem JumpsOk.head {it : AuditItem} {a : List AuditItem} (h : JumpsOk (it :: a)) :
    it.nextPfxIncr = it.nextPfxIncr - 1 + 1 ∧ it.nextPfxIncr - 1 ≤ a.length ∧
      ∀ x ∈ a.take (it.nextPfxIncr - 1), x.pkgname = it.pkgname := by
  obtain ⟨hpos, hend, hsame⟩ := h 0 it rfl
  rw [List.length_cons] at hend
  refine ⟨by omega, by omega, ?_⟩
  intro x hx
  obtain ⟨k, hk, rfl⟩ := List.getElem_of_mem hx
  have hk' : k < it.nextPfxIncr - 1 := by
    rw [List.length_take] at hk
    omega
  have hname := hsame (k + 1) (by omega)
  unfold nameAt at hname
  rw [Nat.zero_add, List.getElem?_cons_succ, List.getElem?_eq_getElem (by omega)] at hname
  rw [List.getElem_take]
  exact Option.some.inj hname

/-! ## The search -/

def vulnerable (env : AuditEnv) (q : AuditQuery) (it : AuditItem) : Bool :=
  env.fnmatch it.pkgname q.name && inRanges q.version it.versions

def AuditItem.issue (it : AuditItem) : AuditIssue := { audit := it.e, pkgIdx := it.pkgIdx }

variable {env : AuditEnv} {q : AuditQuery}

/-- The search goes on: it has not returned, and has nothing to return at once. -/
def GoesOn (q : AuditQuery) (s : AuditSearch) : Prop :=
  s.returned = false ∧ (q.stopQuick && s.res) = false

/-- Between `s` and `s'` the items `l` were searched. -/
structure Finds (env : AuditEnv) (q : AuditQuery) (l : List AuditItem) (s s' : AuditSearch) :
    Prop where
  res : s'.res = (s.res || l.any (vulnerable env q))
  returned : s'.returned = (q.stopQuick && s'.res)
  issues : q.stopQuick = false →
    s'.issues = s.issues ++ (l.filter (vulnerable env q)).map AuditItem.issue

theorem Finds.ready {l : List AuditItem} {s s' : AuditSearch} (h : Finds env q l s s')
    (hs' : s'.returned = false) : GoesOn q s' := ⟨hs', by rw [← h.returned, hs']⟩

theorem Finds.refl {l : List AuditItem} {s : AuditSearch} (hs : GoesOn q s)
    (hl : ∀ it ∈ l, vulnerable env q it = false) : Finds env q l s s where
  res := by
    have hany : l.any (vulnerable env q) = false := by
      rw [List.any_eq_false]
      intro it hit
      simp [hl it hit]
    rw [hany, Bool.or_false]
  returned := by rw [hs.1, hs.2]
  issues := by
    intro _
    have hnone : l.filter (vulnerable env q) = [] := by
      rw [List.filter_eq_nil_iff]
      intro it hit
      simp [hl it hit]
    rw [hnone, List.map_nil, List.append_nil]

theorem Finds.append {l m : List AuditItem} {s s' s'' : AuditSearch} (h : Finds env q l s s')
    (h' : Finds env q m s' s'') : Finds env q (l ++ m) s s'' where
  res := by rw [h'.res, h.res, List.any_append, Bool.or_assoc]
  returned := h'.returned
  issues := by
    intro hq
    rw [h'.issues hq, h.issues hq, List.filter_append, List.map_append, List.append_assoc]

theorem Finds.stopped {l m : List AuditItem} {s s' : AuditSearch} (h : Finds env q l s s')
    (hs' : s'.returned = true) : Finds env q (l ++ m) s s' where
  res := by
    have hboth := h.returned
    rw [hs'] at hboth
    have hres : s'.res = true := (Bool.and_eq_true_iff.mp hboth.symm).2
    rw [List.any_append, ← Bool.or_assoc, ← h.res, hres, Bool.true_or]
  returned := h.returned
  issues := by
    intro hq
    have hboth := h.returned
    rw [hs', hq] at hboth
    cases hboth

theorem examineItem_finds {it : AuditItem} {s : AuditSearch} (hs : GoesOn q s) :
    Finds env q [it] s (examineItem env q it s) := by
  obtain ⟨hret, hquick⟩ := hs
  unfold examineItem
  by_cases hmatch : env.fnmatch it.pkgname q.name = true
  · rw [if_neg (not_not.mpr hmatch)]
    by_cases hrange : inRanges q.version it.versions = true
    · have hvuln : vulnerable env q it = true := by
        unfold vulnerable
        rw [hmatch, hrange]
        rfl
      simp only [if_pos hrange, Bool.true_and]
      by_cases hstop : q.stopQuick = true
      · rw [if_pos hstop]
        refine ⟨?_, ?_, ?_⟩
        · simp [hvuln]
        · simp [hstop]
        · intro hq
          rw [hstop] at hq
          cases hq
      · rw [if_neg hstop]
        refine ⟨?_, ?_, ?_⟩
        · simp [hvuln]
        · simp [hret, hstop]
        · intro _
          simp [hvuln, AuditItem.issue]
    · have hvuln : vulnerable env q it = false := by
        unfold vulnerable
        rw [Bool.eq_false_iff.mpr hrange, Bool.and_false]
      simp only [if_neg hrange]
      rw [Bool.and_comm, hquick, if_neg Bool.false_ne_true]
      exact Finds.refl ⟨hret, hquick⟩ (fun x hx => List.mem_singleton.mp hx ▸ hvuln)
  · have hvuln : vulnerable env q it = false := by
      unfold vulnerable
      rw [Bool.eq_false_iff.mpr hmatch, Bool.false_and]
    rw [if_pos hmatch]
    exact Finds.refl ⟨hret, hquick⟩ (fun x hx => List.mem_singleton.mp hx ▸ hvuln)

theorem examineItems_finds {n : Nat} {a : List AuditItem} {s : AuditSearch} (hn : n ≤ a.length)
    (hs : GoesOn q s) :
    ∃ s', examineItems env q n a s = some s' ∧ Finds env q (a.take n) s s' := by
  induction n generalizing a s with
  | zero => exact ⟨s, rfl, Finds.refl hs (fun it hit => by simp at hit)⟩
  | succ n ih =>
    cases a with
    | nil => exact absurd hn (Nat.not_succ_le_zero n)
    | cons it a =>
      have hone : Finds env q [it] s (examineItem env q it s) := examineItem_finds hs
      simp only [examineItems]
      rw [List.take_succ_cons]
      by_cases hret : (examineItem env q it s).returned = true
      · rw [if_pos hret]
        exact ⟨_, rfl, hone.stopped (m := a.take n) hret⟩
      · rw [if_neg hret]
        obtain ⟨s', hrun, hrest⟩ := ih (Nat.le_of_succ_le_succ hn)
          (hone.ready (Bool.eq_false_iff.mpr hret))
        exact ⟨s', hrun, hone.append hrest⟩

def RespectsPrefix (fnmatch : List UInt8 → List UInt8 → Bool) : Prop :=
  ∀ glob name, fnmatch glob name = true → glob.take (strNoglobLen glob) <+: name

def Ordered (a : List AuditItem) : Prop :=
  a.Pairwise (fun x y => (compare x.prefixBytes y.prefixBytes).isLE = true)

theorem not_vulnerable (hfn : RespectsPrefix env.fnmatch) {it : AuditItem} (hit : it.Made)
    (h : ¬ it.prefixBytes <+: q.name) : vulnerable env q it = false := by
  unfold vulnerable
  by_cases hmatch : env.fnmatch it.pkgname q.name = true
  · have hprefix := hfn it.pkgname q.name hmatch
    rw [← hit] at hprefix
    exact absurd hprefix h
  · rw [Bool.eq_false_iff.mpr hmatch, Bool.false_and]

theorem auditLoop_finds (hfn : RespectsPrefix env.fnmatch) {a : List AuditItem} {s : AuditSearch}
    (hmade : ∀ it ∈ a, it.Made) (hordered : Ordered a) (hjumps : JumpsOk a) (hs : GoesOn q s) :
    ∃ s', auditLoop env q a s = some s' ∧ Finds env q a s s' := by
  induction h : a.length using Nat.strong_induction_on generalizing a s with
  | h n ih =>
    cases a with
    | nil =>
      rw [auditLoop]
      exact ⟨s, rfl, Finds.refl hs (fun it hit => by cases hit)⟩
    | cons it a =>
      obtain ⟨hpos, hend, hsame⟩ := hjumps.head
      have hit := hmade it List.mem_cons_self
      have hrest {s : AuditSearch} (hs : GoesOn q s) :
          ∃ s', auditLoop env q (a.drop (it.nextPfxIncr - 1)) s = some s' ∧
            Finds env q (a.drop (it.nextPfxIncr - 1)) s s' := by
        refine ih _ ?_ ?_ ?_ ?_ hs rfl
        · rw [← h, List.length_drop, List.length_cons]
          omega
        · intro x hx
          exact hmade x (List.mem_cons_of_mem it (List.mem_of_mem_drop hx))
        · exact (List.pairwise_cons.mp hordered).2.sublist (List.drop_sublist _ _)
        · have := hjumps.drop (it.nextPfxIncr - 1 + 1)
          rwa [List.drop_succ_cons] at this
      have hsplit : it :: a =
          (it :: a.take (it.nextPfxIncr - 1)) ++ a.drop (it.nextPfxIncr - 1) := by
        rw [List.cons_append, List.take_append_drop]
      rw [auditLoop]
      by_cases hgt : strncmp q.name it.pkgname it.noglobLen > 0
      · -- the prefix of the item, and of those with its name, is not a prefix of the name
        rw [if_pos hgt]
        have hnot := not_prefix_of_strncmp hit.length_le hgt
        have hskip : ∀ x ∈ it :: a.take (it.nextPfxIncr - 1), vulnerable env q x = false := by
          intro x hx
          have hmem : x ∈ it :: a := by
            obtain rfl | hx := List.mem_cons.mp hx
            · exact List.mem_cons_self
            · exact List.mem_cons_of_mem it (List.mem_of_mem_take hx)
          have hname : x.pkgname = it.pkgname := by
            obtain rfl | hx := List.mem_cons.mp hx
            · rfl
            · exact hsame x hx
          refine not_vulnerable hfn (hmade x hmem) ?_
          unfold AuditItem.prefixBytes
          rw [hmade x hmem, hname, ← hit]
          exact hnot
        obtain ⟨s', hrun, hfinds⟩ := hrest hs
        refine ⟨s', hrun, ?_⟩
        rw [hsplit]
        exact (Finds.refl hs hskip).append hfinds
      · rw [if_neg hgt]
        by_cases hlt : strncmp q.name it.pkgname it.noglobLen < 0
        · -- the prefixes of all the items that are left are greater than what the name starts with
          rw [if_pos hlt]
          refine ⟨s, rfl, Finds.refl hs ?_⟩
          intro x hx
          refine not_vulnerable hfn (hmade x hx) ?_
          intro hprefix
          have hless := compare_lt_of_strncmp hit.length_le hlt hprefix
          have hle : (compare it.prefixBytes x.prefixBytes).isLE = true := by
            obtain rfl | hx := List.mem_cons.mp hx
            · exact Std.ReflCmp.isLE_rfl
            · exact (List.pairwise_cons.mp hordered).1 x hx
          have hgreater : compare it.prefixBytes x.prefixBytes = .gt := by
            rw [Std.OrientedCmp.gt_iff_lt]
            exact hless
          rw [hgreater] at hle
          cases hle
        · rw [if_neg hlt]
          have htake : (it :: a).take it.nextPfxIncr = it :: a.take (it.nextPfxIncr - 1) := by
            rw [hpos, List.take_succ_cons, Nat.add_sub_cancel]
          have hle : it.nextPfxIncr ≤ (it :: a).length := by
            rw [List.length_cons]
            omega
          obtain ⟨s1, hrun1, hfinds1⟩ := @examineItems_finds env q _ _ _ hle hs
          rw [htake] at hfinds1
          rw [hrun1]
          simp only []
          by_cases hret : s1.returned = true
          · rw [if_pos hret]
            refine ⟨s1, rfl, ?_⟩
            rw [hsplit]
            exact hfinds1.stopped hret
          · rw [if_neg hret]
            obtain ⟨s', hrun, hfinds⟩ := hrest (hfinds1.ready (Bool.eq_false_iff.mpr hret))
            refine ⟨s', hrun, ?_⟩
            rw [hsplit]
            exact hfinds1.append hfinds

/-! ## The table of first bytes -/

theorem drop_length_takeWhile {α : Type} (p : α → Bool) (l : List α) :
    l.drop (l.takeWhile p).length = l.dropWhile p := by
  induction l with
  | nil => rfl
  | cons a l ih =>
    by_cases h : p a = true
    · rw [List.takeWhile_cons_of_pos h, List.dropWhile_cons_of_pos h]
      exact ih
    · rw [List.takeWhile_cons_of_neg h, List.dropWhile_cons_of_neg h]
      rfl

theorem length_takeWhile_of_imp {α : Type} {p r : α → Bool} (h : ∀ a, p a = true → r a = true)
    (l : List α) :
    (l.takeWhile p).length + ((l.drop (l.takeWhile p).length).takeWhile r).length =
      (l.takeWhile r).length := by
  have hpos : ∀ a ∈ l.takeWhile p, r a = true := fun a ha => h a (List.mem_takeWhile_imp ha)
  have hsplit : l.takeWhile r = l.takeWhile p ++ (l.dropWhile p).takeWhile r := by
    rw [← List.takeWhile_append_of_pos hpos, List.takeWhile_append_dropWhile]
  rw [drop_length_takeWhile, hsplit, List.length_append]

def below (items : List AuditItem) (n : Nat) : List AuditItem :=
  items.takeWhile (fun it => firstIndex it.pkgname < n)

theorem advanceTo_eq (items : List AuditItem) {m n : Nat} (h : m ≤ n) :
    advanceTo items n (below items m).length = (below items n).length := by
  refine length_takeWhile_of_imp (fun it hit => ?_) items
  have hlt : firstIndex it.pkgname < m := by simpa using hit
  have hlt' : firstIndex it.pkgname < n := by omega
  simpa using hlt'

theorem fillFirstByte_get (items : List AuditItem) (todo : Nat) {m n k : Nat} (h : m ≤ n)
    (hk : k < todo) :
    (fillFirstByte items todo n (below items m).length)[k]? =
      some (below items (n + k)).length := by
  induction todo generalizing m n k with
  | zero => exact absurd hk (Nat.not_lt_zero k)
  | succ todo ih =>
    unfold fillFirstByte
    rw [advanceTo_eq items h]
    cases k with
    | zero => rfl
    | succ k =>
      rw [List.getElem?_cons_succ, ih (Nat.le_succ n) (by omega)]
      congr 3
      omega

theorem length_fillFirstByte (items : List AuditItem) (todo n i : Nat) :
    (fillFirstByte items todo n i).length = todo := by
  induction todo generalizing n i with
  | zero => rfl
  | succ todo ih =>
    show (fillFirstByte items todo (n + 1) _).length + 1 = todo + 1
    rw [ih]

theorem below_zero (items : List AuditItem) : below items 0 = [] := by
  cases items with
  | nil => rfl
  | cons it items => rfl

theorem firstByteIdx_get (items : List AuditItem) (n : Nat) :
    (firstByteIdx items)[n]? = if n < 256 then some (below items n).length else none := by
  cases n with
  | zero =>
    rw [below_zero]
    rfl
  | succ n =>
    unfold firstByteIdx
    rw [List.getElem?_cons_succ]
    by_cases hn : n + 1 < 256
    · have hget := fillFirstByte_get items 255 (m := 0) (n := 1) (k := n) (Nat.zero_le 1) (by omega)
      rw [below_zero] at hget
      rw [if_pos hn, Nat.add_comm n 1]
      exact hget
    · rw [if_neg hn, List.getElem?_eq_none]
      rw [length_fillFirstByte]
      omega

theorem firstIndex_lt_iff (name : List UInt8) : firstIndex name < 256 ↔ name.headD 0 < 128 := by
  unfold firstIndex charToSize
  have h : (name.headD 0).toNat < 256 := UInt8.toNat_lt _
  by_cases hc : name.headD 0 < 128
  · rw [if_pos hc]
    exact ⟨fun _ => hc, fun _ => h⟩
  · rw [if_neg hc]
    constructor
    · intro hlt
      omega
    · exact fun hlt => absurd hlt hc

def plainScan (env : AuditEnv) (entries : List AuditEntry) (q : AuditQuery) : List AuditIssue :=
  entries.flatMap (fun e => e.packages.zipIdx.flatMap (fun p =>
    p.1.names.filterMap (fun name => name.bind (fun glob =>
      if env.fnmatch glob q.name && inRanges q.version p.1.versions then
        some { audit := e, pkgIdx := p.2 }
      else none))))

def AuditItem.Laid (it : AuditItem) : Prop :=
  ∃ p glob, it.e.packages[it.pkgIdx]? = some p ∧ p.names[it.nameIdx]? = some (some glob) ∧
    it.noglobLen = strNoglobLen glob

theorem AuditItem.Laid.made {it : AuditItem} (h : it.Laid) : it.Made := by
  obtain ⟨p, glob, hp, hname, hlen⟩ := h
  have hpkgname : it.pkgname = glob := by
    unfold AuditItem.pkgname
    rw [hp]
    simp [List.getD_eq_getElem?_getD, hname]
  unfold AuditItem.Made
  rw [hpkgname]
  exact hlen

theorem auditItems_laid {entries : List AuditEntry} {it : AuditItem}
    (h : it ∈ auditItems entries) : it.Laid := by
  obtain ⟨e, _, h⟩ := List.mem_flatMap.mp h
  obtain ⟨⟨p, pi⟩, hp, h⟩ := List.mem_flatMap.mp h
  obtain ⟨⟨name, ni⟩, hname, h⟩ := List.mem_filterMap.mp h
  obtain ⟨glob, rfl, rfl⟩ := Option.map_eq_some_iff.mp h
  exact ⟨p, glob, List.mem_zipIdx_iff_getElem?.mp hp, List.mem_zipIdx_iff_getElem?.mp hname, rfl⟩

theorem packageItems_issues (env : AuditEnv) (q : AuditQuery) {e : AuditEntry} {p : AuditPackage}
    {pkgIdx : Nat} (hp : e.packages[pkgIdx]? = some p) :
    ((packageItems e pkgIdx p).filter (vulnerable env q)).map AuditItem.issue =
      p.names.filterMap (fun name => name.bind (fun glob =>
        if env.fnmatch glob q.name && inRanges q.version p.versions then
          some { audit := e, pkgIdx := pkgIdx }
        else none)) := by
  unfold packageItems
  rw [List.filter_filterMap, List.map_filterMap]
  have hnames : p.names = p.names.zipIdx.map Prod.fst := (List.zipIdx_map_fst 0 p.names).symm
  conv_rhs => rw [hnames, List.filterMap_map]
  refine List.filterMap_congr (fun name hname => ?_)
  have hget : p.names[name.2]? = some name.1 := List.mem_zipIdx_iff_getElem?.mp hname
  cases hglob : name.1 with
  | none => simp [hglob]
  | some glob =>
    have hvuln : vulnerable env q { e := e, pkgIdx := pkgIdx, nameIdx := name.2
                                    noglobLen := strNoglobLen glob, nextPfxIncr := 1 } =
        (env.fnmatch glob q.name && inRanges q.version p.versions) := by
      simp [vulnerable, AuditItem.pkgname, AuditItem.versions, hp, List.getD_eq_getElem?_getD,
        hget, hglob]
    simp only [Function.comp_apply, hglob, Option.map_some, Option.bind_some, Option.filter_some,
      hvuln]
    by_cases hv : (env.fnmatch glob q.name && inRanges q.version p.versions) = true
    · rw [if_pos hv, if_pos hv]
      rfl
    · rw [if_neg hv, if_neg hv]
      rfl

theorem auditItems_issues (env : AuditEnv) (q : AuditQuery) (entries : List AuditEntry) :
    ((auditItems entries).filter (vulnerable env q)).map AuditItem.issue =
      plainScan env entries q := by
  unfold auditItems plainScan
  rw [List.filter_flatMap, List.map_flatMap]
  refine List.flatMap_congr (fun e _ => ?_)
  rw [List.filter_flatMap, List.map_flatMap]
  refine List.flatMap_congr (fun p hp => ?_)
  exact packageItems_issues env q (List.mem_zipIdx_iff_getElem?.mp hp)

/-! ## The indexed search and the plain scan -/

variable {entries : List AuditEntry} {sorted : List AuditItem}

def AuditItem.link (it : AuditItem) (n : Nat) : AuditItem := { it with nextPfxIncr := n }

theorem map_items {β : Type} {f : AuditItem → β} (hf : ∀ it n, f (it.link n) = f it)
    (sorted : List AuditItem) : (auditPreprocess sorted).1.map f = sorted.map f := by
  apply List.ext_getElem
  · simp [auditPreprocess]
  · intro k _ _
    simp only [auditPreprocess, List.getElem_map, List.getElem_mapIdx]
    exact hf _ _

theorem nameAt_items (sorted : List AuditItem) (k : Nat) :
    nameAt (auditPreprocess sorted).1 k = nameAt sorted k := by
  unfold nameAt
  rw [← List.getElem?_map, ← List.getElem?_map, map_items (fun _ _ => rfl)]

theorem jumpsOk_items (sorted : List AuditItem) : JumpsOk (auditPreprocess sorted).1 := by
  intro k it hk
  have hlen : (auditPreprocess sorted).1.length = sorted.length := by simp [auditPreprocess]
  obtain ⟨hklt, hkit⟩ := List.getElem?_eq_some_iff.mp hk
  obtain ⟨hpos, hend, hsame⟩ := nextPfxIncrs_ok sorted k (hlen ▸ hklt)
  have hincr : it.nextPfxIncr = nextPfxIncrs sorted k := by
    rw [← hkit]
    simp [auditPreprocess]
  have hname : nameAt sorted k = some it.pkgname := by
    rw [← nameAt_items]
    unfold nameAt
    rw [hk]
    rfl
  rw [hincr, hlen]
  refine ⟨hpos, hend, ?_⟩
  intro x hx
  rw [nameAt_items, hsame x hx, hname]

theorem Sorted.made (h : Sorted entries sorted) : ∀ it ∈ sorted, it.Made :=
  fun _ hit => (auditItems_laid (h.perm.subset hit)).made

theorem made_items (h : Sorted entries sorted) : ∀ it ∈ (auditPreprocess sorted).1, it.Made := by
  intro it hit
  have hmem : (it.noglobLen, it.pkgname) ∈
      (auditPreprocess sorted).1.map (fun it => (it.noglobLen, it.pkgname)) :=
    List.mem_map.mpr ⟨it, hit, rfl⟩
  rw [map_items (fun _ _ => rfl)] at hmem
  obtain ⟨it', hit', heq⟩ := List.mem_map.mp hmem
  obtain ⟨hlen, hname⟩ := Prod.mk.inj heq
  have hmade := h.made it' hit'
  unfold AuditItem.Made at hmade ⊢
  rw [← hlen, ← hname]
  exact hmade

theorem ordered_items (h : Sorted entries sorted) : Ordered (auditPreprocess sorted).1 := by
  have hsorted : (sorted.map AuditItem.prefixBytes).Pairwise
      (fun x y => (compare x y).isLE = true) := by
    rw [List.pairwise_map]
    refine h.pairwise.imp_of_mem (fun {x y} hx hy hle => ?_)
    rw [auditEntryCmp_eq (h.made x hx) (h.made y hy)] at hle
    exact toInt_le_zero.mp hle
  rw [← map_items (fun _ _ => rfl), List.pairwise_map] at hsorted
  exact hsorted

theorem perm_plainScan (h : Sorted entries sorted) (q : AuditQuery) :
    (((auditPreprocess sorted).1.filter (vulnerable env q)).map AuditItem.issue).Perm
      (plainScan env entries q) := by
  have hpairs (l : List AuditItem) : (l.filter (vulnerable env q)).map AuditItem.issue =
      ((l.map (fun it => (vulnerable env q it, it.issue))).filter Prod.fst).map Prod.snd := by
    rw [List.filter_map, List.map_map]
    rfl
  rw [hpairs, map_items (fun _ _ => rfl), ← hpairs, ← auditItems_issues]
  exact (h.perm.filter _).map _

theorem below_append (items : List AuditItem) (n : Nat) :
    below items n ++ items.drop (below items n).length = items := by
  unfold below
  rw [drop_length_takeWhile, List.takeWhile_append_dropWhile]

theorem vulnerable_below (sorted : List AuditItem) (q : AuditQuery) (n : Nat) :
    (∀ it ∈ below (auditPreprocess sorted).1 n, vulnerable env q it = false) ↔
      ∀ it ∈ below sorted n, vulnerable env q it = false := by
  have htests (l : List AuditItem) : (∀ it ∈ below l n, vulnerable env q it = false) ↔
      ∀ t ∈ (l.map (fun it => (firstIndex it.pkgname, vulnerable env q it))).takeWhile
        (fun t => t.1 < n), t.2 = false := by
    unfold below
    rw [List.takeWhile_map]
    simp only [List.forall_mem_map, Function.comp_def]
  rw [htests, htests, map_items (fun _ _ => rfl)]

theorem auditIsVulnerable_finds (hfn : RespectsPrefix env.fnmatch) (h : Sorted entries sorted)
    (q : AuditQuery) (hignore : matchUclLists env q.name = false)
    (hascii : q.name.headD 0 < 128) :
    ∃ s, auditIsVulnerable env (auditPreprocess sorted) q = some s ∧
      Finds env q ((auditPreprocess sorted).1.drop
        (below (auditPreprocess sorted).1 (firstIndex q.name)).length)
        { res := false, issues := [], returned := false } s := by
  have htable : (auditPreprocess sorted).2[firstIndex q.name]? =
      some (below (auditPreprocess sorted).1 (firstIndex q.name)).length := by
    show (firstByteIdx (auditPreprocess sorted).1)[firstIndex q.name]? = _
    rw [firstByteIdx_get, if_pos ((firstIndex_lt_iff q.name).mpr hascii)]
  unfold auditIsVulnerable
  simp only [hignore, htable]
  refine auditLoop_finds hfn ?_ ?_ ?_ ⟨rfl, Bool.and_false _⟩
  · exact fun it hit => made_items h it (List.mem_of_mem_drop hit)
  · exact (ordered_items h).sublist (List.drop_sublist _ _)
  · exact (jumpsOk_items sorted).drop _

theorem auditIsVulnerable_none (sorted : List AuditItem) (q : AuditQuery)
    (hignore : matchUclLists env q.name = false) (hascii : ¬ q.name.headD 0 < 128) :
    auditIsVulnerable env (auditPreprocess sorted) q = none := by
  have htable : (auditPreprocess sorted).2[firstIndex q.name]? = none := by
    show (firstByteIdx (auditPreprocess sorted).1)[firstIndex q.name]? = _
    rw [firstByteIdx_get, if_neg (fun hlt => hascii ((firstIndex_lt_iff q.name).mp hlt))]
  unfold auditIsVulnerable
  simp only [hignore, htable]
  rfl

/-- The search reads the table in its range, and finds what the plain scan finds. -/
def AgreesWithScan (env : AuditEnv) (entries : List AuditEntry) (sorted : List AuditItem)
    (name : List UInt8) (version : Option String) : Prop :=
  ∃ full quick,
    auditIsVulnerable env (auditPreprocess sorted)
      { name := name, version := version, stopQuick := false } = some full ∧
    auditIsVulnerable env (auditPreprocess sorted)
      { name := name, version := version, stopQuick := true } = some quick ∧
    full.issues.Perm
      (plainScan env entries { name := name, version := version, stopQuick := false }) ∧
    (quick.res = true ↔
      plainScan env entries { name := name, version := version, stopQuick := false } ≠ [])

/-- The search finds what the plain scan finds exactly when an ignored package has no issue, and
for one that is not ignored the name starts with an ASCII byte and no item before the first one
whose first byte is not below that byte is vulnerable. -/
theorem agreesWithScan_iff (env : AuditEnv) (hfn : RespectsPrefix env.fnmatch)
    {entries : List AuditEntry} {sorted : List AuditItem} (hsorted : Sorted entries sorted)
    (name : List UInt8) (version : Option String) :
    AgreesWithScan env entries sorted name version ↔
      if matchUclLists env name then
        plainScan env entries { name := name, version := version, stopQuick := false } = []
      else name.headD 0 < 128 ∧
        ∀ it ∈ below sorted (firstIndex name),
          vulnerable env { name := name, version := version, stopQuick := false } it = false := by
  rw [← vulnerable_below sorted]
  by_cases hignore : matchUclLists env name = true
  · rw [if_pos hignore]
    have hrun (quick : Bool) : auditIsVulnerable env (auditPreprocess sorted)
        { name := name, version := version, stopQuick := quick } =
          some { res := false, issues := [], returned := false } := by
      unfold auditIsVulnerable
      exact if_pos hignore
    constructor
    · intro ⟨full, quick, hfull, _, hperm, _⟩
      rw [hrun] at hfull
      cases hfull
      exact List.perm_nil.mp hperm.symm
    · intro hnone
      refine ⟨_, _, hrun false, hrun true, ?_, ?_⟩
      · rw [hnone]
      · simp [hnone]
  · rw [if_neg hignore]
    have hignore' : matchUclLists env name = false := Bool.eq_false_iff.mpr hignore
    by_cases hascii : name.headD 0 < 128
    · obtain ⟨full, hfull, hfinds⟩ := auditIsVulnerable_finds hfn hsorted
        { name := name, version := version, stopQuick := false } hignore' hascii
      obtain ⟨quick, hquick, hfindsQuick⟩ := auditIsVulnerable_finds hfn hsorted
        { name := name, version := version, stopQuick := true } hignore' hascii
      have hperm := @perm_plainScan env _ _ hsorted
        { name := name, version := version, stopQuick := false }
      have hissues := hfinds.issues rfl
      have hres := hfindsQuick.res
      generalize hitems : (auditPreprocess sorted).1 = items at *
      have hsplit := below_append items (firstIndex name)
      generalize below items (firstIndex name) = skipped at *
      generalize items.drop skipped.length = seen at *
      rw [← hsplit, List.filter_append, List.map_append] at hperm
      rw [List.nil_append] at hissues
      constructor
      · intro ⟨full', _, hfull', _, hfound, _⟩
        obtain rfl : full = full' := Option.some.inj (hfull.symm.trans hfull')
        rw [hissues] at hfound
        have hlength := (hperm.trans hfound.symm).length_eq
        rw [List.length_append, List.length_map, List.length_map] at hlength
        have hnone := List.eq_nil_of_length_eq_zero (Nat.add_eq_right.mp hlength)
        refine ⟨hascii, ?_⟩
        intro it hit
        exact Bool.eq_false_iff.mpr (List.filter_eq_nil_iff.mp hnone it hit)
      · intro ⟨_, hskipped⟩
        have hnone : skipped.filter (vulnerable env
            { name := name, version := version, stopQuick := false }) = [] := by
          rw [List.filter_eq_nil_iff]
          intro it hit
          simp [hskipped it hit]
        rw [hnone, List.map_nil, List.nil_append] at hperm
        refine ⟨full, quick, hfull, hquick, ?_, ?_⟩
        · rw [hissues]
          exact hperm
        · rw [hres, Bool.false_or, List.any_eq_true, Ne, ← List.length_eq_zero_iff,
            ← hperm.length_eq, List.length_map, List.length_eq_zero_iff, List.filter_eq_nil_iff]
          simp only [not_forall, not_not, exists_prop]
          rfl
    · constructor
      · intro ⟨full, _, hfull, _⟩
        rw [auditIsVulnerable_none sorted _ hignore' hascii] at hfull
        cases hfull
      · exact fun h => absurd h.1 hascii

/-- A system whose `fnmatch` knows `*` only, with nothing ignored. -/
def starEnv : AuditEnv where
  fnmatch glob name := glob = [42] || glob = name && !glob.any isGlobByte
  regexec _ _ := false
  auditIgnoreGlob := []
  auditIgnoreRegex := []

theorem starEnv_respectsPrefix : RespectsPrefix starEnv.fnmatch := by
  intro glob name h
  have hglob : glob = [42] ∨ glob = name := by
    simp only [starEnv, Bool.or_eq_true, Bool.and_eq_true, decide_eq_true_eq] at h
    exact h.imp_right And.left
  cases hglob with
  | inl hstar =>
    subst hstar
    exact List.nil_prefix
  | inr hname =>
    subst hname
    exact List.take_prefix _ _

/-- An advisory on the packages whose name the glob matches, whatever their version. -/
def advisory (id : String) (glob : List UInt8) : AuditEntry :=
  { id := id
    packages := [{ names := [some glob], versions := [{ v1 := { version := none, type := .none }
                                                        v2 := { version := none, type := .none } }] }] }

/-- Advisories on `abc` and on every package, and their items as they are sorted. -/
def twoAdvisories : List AuditEntry := [advisory "abc" [97, 98, 99], advisory "any" [42]]

def twoItems : List AuditItem :=
  [{ e := advisory "any" [42], pkgIdx := 0, nameIdx := 0, noglobLen := 0, nextPfxIncr := 1 },
    { e := advisory "abc" [97, 98, 99], pkgIdx := 0, nameIdx := 0, noglobLen := 3
      nextPfxIncr := 1 }]

theorem twoItems_sorted : Sorted twoAdvisories twoItems where
  perm := by decide
  pairwise := by decide

/-- A name that starts with `!` comes before the glob. -/
theorem agreesWithScan_iff_twoAdvisories :
    AgreesWithScan starEnv twoAdvisories twoItems [33] none := by
  rw [agreesWithScan_iff starEnv starEnv_respectsPrefix twoItems_sorted]
  decide

/-- The advisory on every package is not found for `b`: the table leads past it. -/
theorem not_agreesWithScan_star :
    RespectsPrefix starEnv.fnmatch ∧ Sorted twoAdvisories twoItems ∧
      ¬ AgreesWithScan starEnv twoAdvisories twoItems [98] none := by
  refine ⟨starEnv_respectsPrefix, twoItems_sorted, ?_⟩
  intro ⟨full, _, hfull, _, hperm, _⟩
  have hrun : auditIsVulnerable starEnv (auditPreprocess twoItems)
      { name := [98], version := none, stopQuick := false } =
        some { res := false, issues := [], returned := false } := by
    show auditLoop starEnv _ [] _ = _
    rw [auditLoop]
  have hscan : (plainScan starEnv twoAdvisories
      { name := [98], version := none, stopQuick := false }).length = 1 := by
    decide
  rw [hrun] at hfull
  cases hfull
  have hlength := hperm.length_eq
  rw [hscan] at hlength
  exact absurd hlength (by decide)

end NextBSD.Libpkg
