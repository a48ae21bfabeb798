import NextBSD.Zsh.ScanTable

/-!
# Sorted scans

A sorted scan goes through an array of pointers that it has made at its start.  An entry whose
node is removed becomes `NULL`, and the loop over the array reads the flags of each entry without
a look at that.  A scan in the order of the buckets has no such entry.
-/

namespace NextBSD.Zsh

open ScanWalk

variable {Name : Type} [DecidableEq Name] {M : Methods Name} {ht ht' : HashTable Name}

/-- The entries from `i` on are the nodes of the names in `names`. -/
structure Snapshot (M : Methods Name) (i : Nat) (ht : HashTable Name) (names : List Name)
    (hashtab : List (Option Addr)) : Prop where
  scan : ht.scan = some (.sorted hashtab)
  drop : hashtab.drop i = names.map (fun k => (gethashnode2 M ht k).map HashNode.addr)
  there : ∀ k ∈ names, gethashnode2 M ht k ≠ none

theorem Snapshot.effect (wf : WellFormed M ht) {i : Nat} {names : List Name}
    {hashtab : List (Option Addr)} (hs : Snapshot M i ht names hashtab) {op : TableOp Name}
    (he : Effect M ht op ht')
    (hother : ∀ k, k ≠ op.name → gethashnode2 M ht' k = gethashnode2 M ht k)
    (hspares : ∀ k ∈ names, op ≠ .remove k) :
    ∃ hashtab', Snapshot M i ht' names hashtab' ∧ hashtab'.length = hashtab.length := by
  have haddr {k : Name} {n hp : HashNode Name} (hn : gethashnode2 M ht k = some n)
      (hp_mem : hp ∈ ht.all) (hne : k ≠ hp.nam) : n.addr ≠ hp.addr := by
    intro heq
    obtain ⟨hmem, hnam⟩ := (gethashnode2_eq_some wf).mp hn
    exact hne (hnam ▸ congrArg HashNode.nam (eq_of_addr_eq wf hmem hp_mem heq))
  cases he with
  | none h => exact ⟨hashtab, hs, rfl⟩
  | @new hn hget =>
    have hsame : ∀ k ∈ names, gethashnode2 M (putNew M ht hn) k = gethashnode2 M ht k :=
      fun k hk => hother k (fun h => hs.there k hk (h ▸ hget))
    refine ⟨hashtab, ⟨hs.scan, ?_, fun k hk => ?_⟩, rfl⟩
    · rw [hs.drop]
      exact List.map_congr_left (fun k hk => by rw [hsame k hk])
    · rw [hsame k hk]
      exact hs.there k hk
  | @replaced hn hp chain hget hswap hnew =>
    obtain ⟨hp_mem, hnam⟩ := (gethashnode2_eq_some wf).mp hget
    refine ⟨hashtab.map (patch hp.addr (some hn.addr)),
      ⟨?_, ?_, fun k hk => ?_⟩, List.length_map _⟩
    · show ht.scan.map _ = _
      rw [hs.scan]
      rfl
    · rw [← List.map_drop, hs.drop, List.map_map]
      refine List.map_congr_left (fun k hk => ?_)
      dsimp only [Function.comp]
      by_cases hk' : k = hn.nam
      · rw [hk', hget, hnew]
        exact patch_self _ _
      · obtain ⟨n, hn'⟩ := Option.ne_none_iff_exists'.mp (hs.there k hk)
        rw [hother k hk', hn']
        exact patch_of_ne _ (fun h => haddr hn' hp_mem (hnam ▸ hk') (Option.some.inj h))
    · by_cases hk' : k = hn.nam
      · rw [hk', hnew]
        exact Option.some_ne_none _
      · rw [hother k hk']
        exact hs.there k hk
  | @removed hp x y hget hchain =>
    obtain ⟨hp_mem, -⟩ := (gethashnode2_eq_some wf).mp hget
    have hne : ∀ k ∈ names, k ≠ hp.nam := fun k hk h => hspares k hk (by rw [h])
    refine ⟨hashtab.map (patch hp.addr none),
      ⟨?_, ?_, fun k hk => ?_⟩, List.length_map _⟩
    · show ht.scan.map _ = _
      rw [hs.scan]
      rfl
    · rw [← List.map_drop, hs.drop, List.map_map]
      refine List.map_congr_left (fun k hk => ?_)
      dsimp only [Function.comp]
      obtain ⟨n, hn'⟩ := Option.ne_none_iff_exists'.mp (hs.there k hk)
      rw [hother k (hne k hk), hn']
      exact patch_of_ne _ (fun h => haddr hn' hp_mem (hne k hk) (Option.some.inj h))
    · rw [hother k (hne k hk)]
      exact hs.there k hk

def Hole (i : Nat) (ht : HashTable Name) (len : Nat) : Prop :=
  ∃ hashtab, ht.scan = some (.sorted hashtab) ∧ hashtab.length = len ∧ none ∈ hashtab.drop i

theorem Hole.effect {i len : Nat} (h : Hole i ht len) {op : TableOp Name}
    (he : Effect M ht op ht') : Hole i ht' len := by
  obtain ⟨hashtab, hscan, hlen, hnone⟩ := h
  cases he with
  | none _ => exact ⟨hashtab, hscan, hlen, hnone⟩
  | new _ => exact ⟨hashtab, hscan, hlen, hnone⟩
  | @replaced hn hp chain _ _ _ =>
    refine ⟨hashtab.map (patch hp.addr (some hn.addr)), ?_, ?_, ?_⟩
    · show ht.scan.map _ = _
      rw [hscan]
      rfl
    · rw [List.length_map, hlen]
    · rw [← List.map_drop]
      exact List.mem_map.mpr ⟨none, hnone, patch_none _ _⟩
  | @removed hp x y _ _ =>
    refine ⟨hashtab.map (patch hp.addr none), ?_, ?_, ?_⟩
    · show ht.scan.map _ = _
      rw [hscan]
      rfl
    · rw [List.length_map, hlen]
    · rw [← List.map_drop]
      exact List.mem_map.mpr ⟨none, hnone, patch_none _ _⟩

theorem Snapshot.hole {i : Nat} {names : List Name} {hashtab : List (Option Addr)}
    (hs : Snapshot M i ht names hashtab) {nam : Name} (hnam : nam ∈ names)
    (he : Effect M ht (.remove nam) ht') : Hole i ht' hashtab.length := by
  cases he with
  | none h => exact absurd (h nam rfl) (hs.there nam hnam)
  | @removed hp x y hget _ =>
    refine ⟨hashtab.map (patch hp.addr none), ?_, List.length_map _, ?_⟩
    · show ht.scan.map _ = _
      rw [hs.scan]
      rfl
    · rw [← List.map_drop, hs.drop, List.map_map]
      refine List.mem_map.mpr ⟨hp.nam, hnam, ?_⟩
      dsimp only [Function.comp]
      rw [hget]
      exact patch_self _ _

/-! ## The sorted scan -/

theorem performs_cons {op : TableOp Name} {ops : List (TableOp Name)} {ts : List (HashTable Name)}
    (hop : perform M ht op = some ht') (hops : performs M ht' ops = some ts) :
    performs M ht (op :: ops) = some (ht' :: ts) := by
  show (perform M ht op).bind _ = _
  rw [hop]
  show (performs M ht' ops).bind _ = _
  rw [hops]
  rfl

theorem Snapshot.performs {names : List Name} {i : Nat} (ops : List (TableOp Name)) :
    ∀ {ht : HashTable Name}, WellFormed M ht → ∀ {hashtab : List (Option Addr)},
      Snapshot M i ht names hashtab → (∀ op ∈ ops, ∀ k ∈ names, op ≠ .remove k) →
      ∃ ts hashtab', performs M ht ops = some ts ∧ WellFormed M (ts.getLastD ht) ∧
        Snapshot M i (ts.getLastD ht) names hashtab' ∧ hashtab'.length = hashtab.length := by
  induction ops with
  | nil =>
    intro ht wf hashtab hs _
    exact ⟨[], hashtab, rfl, wf, hs, rfl⟩
  | cons op ops ih =>
    intro ht wf hashtab hs hspares
    have hscan : ht.scan ≠ none := by
      rw [hs.scan]
      exact Option.some_ne_none _
    obtain ⟨ht', hrun, wf', -, he, hother, -⟩ := perform_effect wf hscan op
    obtain ⟨hashtab₁, hs₁, hlen₁⟩ := hs.effect wf he hother (hspares op List.mem_cons_self)
    obtain ⟨ts, hashtab', hrest, wf'', hs', hlen'⟩ :=
      ih wf' hs₁ (fun op' hop' => hspares op' (List.mem_cons_of_mem op hop'))
    refine ⟨ht' :: ts, hashtab', performs_cons hrun hrest, ?_, ?_, hlen'.trans hlen₁⟩
    · rw [List.getLastD_cons]
      exact wf''
    · rw [List.getLastD_cons]
      exact hs'

theorem Hole.performs {i len : Nat} (ops : List (TableOp Name)) :
    ∀ {ht : HashTable Name}, WellFormed M ht → Hole i ht len →
      ∃ ts, performs M ht ops = some ts ∧ WellFormed M (ts.getLastD ht) ∧
        Hole i (ts.getLastD ht) len := by
  induction ops with
  | nil => exact fun {ht} wf h => ⟨[], rfl, wf, h⟩
  | cons op ops ih =>
    intro ht wf h
    have hscan : ht.scan ≠ none := by
      obtain ⟨hashtab, hscan, -⟩ := h
      rw [hscan]
      exact Option.some_ne_none _
    obtain ⟨ht', hrun, wf', -, he, -, -⟩ := perform_effect wf hscan op
    obtain ⟨ts, hrest, wf'', h'⟩ := ih wf' (h.effect he)
    refine ⟨ht' :: ts, performs_cons hrun hrest, ?_, ?_⟩
    · rw [List.getLastD_cons]
      exact wf''
    · rw [List.getLastD_cons]
      exact h'

theorem Snapshot.performs_hole {names : List Name} {i : Nat} (ops : List (TableOp Name)) :
    ∀ {ht : HashTable Name}, WellFormed M ht → ∀ {hashtab : List (Option Addr)},
      Snapshot M i ht names hashtab → (∃ op ∈ ops, ∃ k ∈ names, op = .remove k) →
      ∃ ts, Zsh.performs M ht ops = some ts ∧ WellFormed M (ts.getLastD ht) ∧
        Hole i (ts.getLastD ht) hashtab.length := by
  induction ops with
  | nil =>
    rintro ht wf hashtab hs ⟨op, hop, -⟩
    exact absurd hop List.not_mem_nil
  | cons op ops ih =>
    intro ht wf hashtab hs hex
    have hscan : ht.scan ≠ none := by
      rw [hs.scan]
      exact Option.some_ne_none _
    obtain ⟨ht', hrun, wf', -, he, hother, -⟩ := perform_effect wf hscan op
    by_cases hop : ∃ k ∈ names, op = .remove k
    · obtain ⟨k, hk, rfl⟩ := hop
      obtain ⟨ts, hrest, wf'', h'⟩ := Hole.performs ops wf' (hs.hole hk he)
      refine ⟨ht' :: ts, performs_cons hrun hrest, ?_, ?_⟩
      · rw [List.getLastD_cons]
        exact wf''
      · rw [List.getLastD_cons]
        exact h'
    · obtain ⟨hashtab₁, hs₁, hlen₁⟩ := hs.effect wf he hother (fun k hk h => hop ⟨k, hk, h⟩)
      have hlater : ∃ op ∈ ops, ∃ k ∈ names, op = .remove k := by
        obtain ⟨op', hop', k, hk, h⟩ := hex
        rcases List.mem_cons.mp hop' with rfl | hop'
        · exact absurd ⟨k, hk, h⟩ hop
        · exact ⟨op', hop', k, hk, h⟩
      obtain ⟨ts, hrest, wf'', h'⟩ := ih wf' hs₁ hlater
      rw [hlen₁] at h'
      refine ⟨ht' :: ts, performs_cons hrun hrest, ?_, ?_⟩
      · rw [List.getLastD_cons]
        exact wf''
      · rw [List.getLastD_cons]
        exact h'

section SortedLoop

variable (M) (filter : ScanFilter Name) (scanfunc : ScanFunc Name)

/-- No call of the scan function, the first of them for the first of the names, removes one of
the names behind its own. -/
def SparesPending : List Name → Nat → HashTable Name → Prop
  | [], _, _ => True
  | nam :: rest, i, ht =>
    ∀ hn, gethashnode2 M ht nam = some hn →
      if filter.selects hn then
        (∀ op ∈ scanfunc i, ∀ k ∈ rest, op ≠ .remove k) ∧
          ∀ ts, performs M ht (scanfunc i) = some ts → SparesPending rest (i + 1) (ts.getLastD ht)
      else SparesPending rest (i + 1) ht

variable {M}

theorem Snapshot.first {i : Nat} {nam : Name} {rest : List Name} {hashtab : List (Option Addr)}
    (hs : Snapshot M i ht (nam :: rest) hashtab) :
    ∃ hn, gethashnode2 M ht nam = some hn ∧ hashtab.getD i none = some hn.addr ∧
      Snapshot M (i + 1) ht rest hashtab := by
  obtain ⟨hn, hget⟩ := Option.ne_none_iff_exists'.mp (hs.there nam List.mem_cons_self)
  have hdrop := hs.drop
  rw [List.map_cons, hget] at hdrop
  have hfirst : hashtab[i]? = some (some hn.addr) := by
    have h := congrArg (fun l => l[0]?) hdrop
    rw [List.getElem?_drop, Nat.add_zero] at h
    exact h
  refine ⟨hn, hget, ?_, hs.scan, ?_, fun k hk => hs.there k (List.mem_cons_of_mem nam hk)⟩
  · rw [List.getD_eq_getElem?_getD, hfirst, Option.getD_some]
  · rw [← List.tail_drop, hdrop]
    rfl

theorem sortedLoop_walk (names : List Name) :
    ∀ {ht : HashTable Name}, WellFormed M ht → ∀ {i : Nat} {hashtab : List (Option Addr)},
      Snapshot M i ht names hashtab → names.Nodup →
      SparesPending M filter scanfunc names i ht →
      ∃ ht' vs, sortedLoop M filter scanfunc names.length i ht = .ok (ht', vs) ∧
        WellFormed M ht' ∧ (∀ v ∈ vs, v.called = filter.selects v.node) ∧
        Walk (gethashnode2 M) HashNode.nam names ht vs [] ht' := by
  induction names with
  | nil =>
    intro ht wf i hashtab hs _ _
    exact ⟨ht, [], rfl, wf, fun v hv => absurd hv List.not_mem_nil, .done _ (fun _ => rfl)⟩
  | cons nam rest ih =>
    intro ht wf i hashtab hs hnodup hspares
    obtain ⟨hn, hget, hentry, hrest⟩ := hs.first
    obtain ⟨hmem, hnam⟩ := (gethashnode2_eq_some wf).mp hget
    have hnodup' := (List.nodup_cons.mp hnodup).2
    have hspares' := hspares hn hget
    have hvisit : ∃ v hashtab', visitNode M filter scanfunc i ht hn = .ok v ∧ v.before = ht ∧
        v.node = hn ∧ v.called = filter.selects hn ∧ WellFormed M v.after ∧
        Snapshot M (i + 1) v.after rest hashtab' ∧
        SparesPending M filter scanfunc rest (i + 1) v.after := by
      unfold visitNode
      split at hspares'
      · next hsel =>
        obtain ⟨hops, hlater⟩ := hspares'
        obtain ⟨ts, hashtab', hrun, wf', hs', -⟩ := hrest.performs (scanfunc i) wf hops
        rw [if_pos hsel, hrun]
        exact ⟨_, hashtab', rfl, rfl, rfl, hsel.symm, wf', hs', hlater ts hrun⟩
      · next hsel =>
        rw [if_neg hsel]
        exact ⟨_, hashtab, rfl, rfl, rfl, (eq_false_of_ne_true hsel).symm, wf, hrest, hspares'⟩
    obtain ⟨v, hashtab', hv, hbefore, hnode, hcalled, wf', hs', hspares''⟩ := hvisit
    obtain ⟨ht', vs, hrun, wf'', hcalls, hwalk⟩ := ih wf' hs' hnodup' hspares''
    refine ⟨ht', v :: vs, ?_, wf'', ?_, ?_⟩
    · rw [List.length_cons]
      unfold sortedLoop
      rw [hs.scan]
      dsimp only
      rw [hentry, lookAt_mem wf hmem]
      dsimp only
      rw [hv]
      show (sortedLoop M filter scanfunc rest.length (i + 1) v.after).bind _ = _
      rw [hrun]
      rfl
    · intro w hw
      rcases List.mem_cons.mp hw with rfl | hw
      · rw [hcalled, hnode]
      · exact hcalls w hw
    · rw [← hnam, ← hnode]
      refine .look (by rw [hbefore]; exact fun _ => rfl) ?_ (fun _ _ _ => Iff.rfl) hnodup' hwalk
      rw [hbefore, hnode, hnam]
      exact hget

theorem sortedLoop_hole (n : Nat) :
    ∀ {ht : HashTable Name}, WellFormed M ht → ∀ {i : Nat}, Hole i ht (i + n) →
      ∃ e, sortedLoop M filter scanfunc n i ht = .error e := by
  induction n with
  | zero =>
    rintro ht wf i ⟨hashtab, -, hlen, hnone⟩
    rw [List.drop_eq_nil_of_le (by omega)] at hnone
    exact absurd hnone List.not_mem_nil
  | succ n ih =>
    rintro ht wf i ⟨hashtab, hscan, hlen, hnone⟩
    unfold sortedLoop
    rw [hscan]
    dsimp only
    cases hlook : lookAt ht (hashtab.getD i none) with
    | none => exact ⟨_, rfl⟩
    | some hn =>
      have hlt : i < hashtab.length := by omega
      have hlater : Hole (i + 1) ht (i + 1 + n) := by
        refine ⟨hashtab, hscan, by omega, ?_⟩
        rw [List.drop_eq_getElem_cons hlt] at hnone
        rcases List.mem_cons.mp hnone with h | h
        · rw [List.getD_eq_getElem?_getD, List.getElem?_eq_getElem hlt, ← h] at hlook
          exact nomatch hlook
        · exact h
      dsimp only
      unfold visitNode
      split
      · obtain ⟨ts, hrun, wf', h'⟩ := hlater.performs (scanfunc i) wf
        obtain ⟨e, he⟩ := ih wf' h'
        rw [hrun]
        refine ⟨e, ?_⟩
        show (sortedLoop M filter scanfunc n (i + 1) (ts.getLastD ht)).bind _ = _
        rw [he]
        rfl
      · obtain ⟨e, he⟩ := ih wf hlater
        refine ⟨e, ?_⟩
        show (sortedLoop M filter scanfunc n (i + 1) ht).bind _ = _
        rw [he]
        rfl

theorem sortedLoop_stops (names : List Name) :
    ∀ {ht : HashTable Name}, WellFormed M ht → ∀ {i : Nat} {hashtab : List (Option Addr)},
      Snapshot M i ht names hashtab → hashtab.length = i + names.length →
      ¬ SparesPending M filter scanfunc names i ht →
      ∃ e, sortedLoop M filter scanfunc names.length i ht = .error e := by
  induction names with
  | nil => exact fun _ _ _ _ _ h => absurd trivial h
  | cons nam rest ih =>
    intro ht wf i hashtab hs hlen hnot
    obtain ⟨hn, hget, hentry, hrest⟩ := hs.first
    obtain ⟨hmem, hnam⟩ := (gethashnode2_eq_some wf).mp hget
    rw [List.length_cons] at hlen ⊢
    have hlen' : hashtab.length = i + 1 + rest.length := by omega
    have hnot' : ¬ (if filter.selects hn then
        (∀ op ∈ scanfunc i, ∀ k ∈ rest, op ≠ .remove k) ∧
          ∀ ts, performs M ht (scanfunc i) = some ts →
            SparesPending M filter scanfunc rest (i + 1) (ts.getLastD ht)
        else SparesPending M filter scanfunc rest (i + 1) ht) := by
      intro h
      refine hnot (fun hn' hget' => ?_)
      rw [hget] at hget'
      cases hget'
      exact h
    unfold sortedLoop
    rw [hs.scan]
    dsimp only
    rw [hentry, lookAt_mem wf hmem]
    dsimp only
    unfold visitNode
    split
    · next hsel =>
      rw [if_pos hsel] at hnot'
      by_cases hops : ∀ op ∈ scanfunc i, ∀ k ∈ rest, op ≠ .remove k
      · obtain ⟨ts, hashtab', hrun, wf', hs', hlen₁⟩ := hrest.performs (scanfunc i) wf hops
        have hlater : ¬ SparesPending M filter scanfunc rest (i + 1) (ts.getLastD ht) := by
          intro h
          refine hnot' ⟨hops, fun ts' hts' => ?_⟩
          rw [hrun] at hts'
          cases hts'
          exact h
        obtain ⟨e, he⟩ := ih wf' hs' (hlen₁.trans hlen') hlater
        rw [hrun]
        refine ⟨e, ?_⟩
        show (sortedLoop M filter scanfunc rest.length (i + 1) (ts.getLastD ht)).bind _ = _
        rw [he]
        rfl
      · have hex : ∃ op ∈ scanfunc i, ∃ k ∈ rest, op = .remove k := by
          by_contra h
          exact hops (fun op hop k hk heq => h ⟨op, hop, k, hk, heq⟩)
        obtain ⟨ts, hrun, wf', hhole⟩ := hrest.performs_hole (scanfunc i) wf hex
        rw [hlen'] at hhole
        obtain ⟨e, he⟩ := sortedLoop_hole filter scanfunc rest.length wf' hhole
        rw [hrun]
        refine ⟨e, ?_⟩
        show (sortedLoop M filter scanfunc rest.length (i + 1) (ts.getLastD ht)).bind _ = _
        rw [he]
        rfl
    · next hsel =>
      rw [if_neg hsel] at hnot'
      obtain ⟨e, he⟩ := ih wf hrest hlen' hnot'
      refine ⟨e, ?_⟩
      show (sortedLoop M filter scanfunc rest.length (i + 1) ht).bind _ = _
      rw [he]
      rfl

end SortedLoop

/-! ## Scans and finite maps -/

structure IdleTable (M : Methods Name) where
  ht : HashTable Name
  wf : WellFormed M ht
  idle : ht.scan = none

def IdleTable.new (M : Methods Name) (size : Nat) (h : 0 < size) : IdleTable M where
  ht := newhashtable size
  wf := wellFormed_empty h none
  idle := rfl

/-- What a scan promises.  Each entry that it reads is the node that its name has then, and a name
that is there from the start is read once at most, and once if it is there to the end.  What is
selected is passed to the scan function, and the table is well formed in the end. -/
structure ToleratesChanges (M : Methods Name) (filter : ScanFilter Name) (ht : HashTable Name)
    (matched : Nat) (ht' : HashTable Name) (vs : List (TableVisit Name)) : Prop where
  current : ∀ v ∈ vs, gethashnode2 M v.before v.node.nam = some v.node
  passed : ∀ v ∈ vs, v.called = filter.selects v.node
  counted : matched = vs.countP Visit.called
  atMostOnce : ∀ a b, vs = a ++ b → ∀ k, AlwaysThere (gethashnode2 M) ht a k →
    (visitsTo HashNode.nam a k).length ≤ 1
  once : ∀ k, AlwaysThere (gethashnode2 M) ht vs k → ∃ v, visitsTo HashNode.nam vs k = [v]
  untouched : ∀ hn, gethashnode2 M ht hn.nam = some hn →
    (∀ v ∈ vs, ∀ t ∈ v.during, gethashnode2 M t hn.nam = some hn) →
    ∃ v, visitsTo HashNode.nam vs hn.nam = [v] ∧ v.node = hn
  wf : WellFormed M ht'
  idle : ht'.scan = none

theorem toleratesChanges_of_walk {filter : ScanFilter Name} {names : List Name}
    {vs : List (TableVisit Name)} (wf : WellFormed M ht) (wf' : WellFormed M ht')
    (hperm : names.Perm (ht.all.map HashNode.nam)) {start : HashTable Name}
    (hstart : ∀ k, gethashnode2 M start k = gethashnode2 M ht k)
    (hwalk : Walk (gethashnode2 M) HashNode.nam names start vs [] ht')
    (hcalls : ∀ v ∈ vs, v.called = filter.selects v.node) :
    ToleratesChanges M filter ht (vs.countP Visit.called) { ht' with scan := none } vs := by
  have hwalk' : Walk (gethashnode2 M) HashNode.nam names ht vs [] ht' := hwalk.congr hstart
  have hnodup : names.Nodup := hperm.nodup_iff.mpr wf.names
  have hmem : ∀ k, gethashnode2 M ht k ≠ none → k ∈ names := by
    intro k hk
    obtain ⟨hn, hget⟩ := Option.ne_none_iff_exists'.mp hk
    obtain ⟨hall, hnam⟩ := (gethashnode2_eq_some wf).mp hget
    rw [hperm.mem_iff, ← hnam]
    exact List.mem_map_of_mem hall
  have honce : ∀ k, AlwaysThere (gethashnode2 M) ht vs k → ∃ v, visitsTo HashNode.nam vs k = [v] :=
    fun k hk => hwalk'.once hnodup (hmem k hk.1) hk
  refine ⟨hwalk'.current, hcalls, rfl, fun a b hab k hk => hwalk'.atMostOnce hnodup hab hk, honce,
    fun hn hget hduring => ?_, wellFormed_scan wf' none, rfl⟩
  have hthere : AlwaysThere (gethashnode2 M) ht vs hn.nam := by
    refine ⟨by rw [hget]; exact Option.some_ne_none _, fun v hv t ht => ?_⟩
    rw [hduring v hv t ht]
    exact Option.some_ne_none _
  obtain ⟨v, hv⟩ := honce hn.nam hthere
  refine ⟨v, hv, hwalk'.untouched hget hduring v ?_⟩
  rw [hv]
  exact List.mem_singleton_self v

def sortedNames (M : Methods Name) (ht : HashTable Name) : List Name :=
  (hnsorttab M ht).map HashNode.nam

omit [DecidableEq Name] in
theorem sortedNames_perm (M : Methods Name) (ht : HashTable Name) :
    (sortedNames M ht).Perm (ht.all.map HashNode.nam) :=
  (List.mergeSort_perm _ _).map HashNode.nam

theorem snapshot_start (wf : WellFormed M ht) :
    Snapshot M 0 (startSorted M ht) (sortedNames M ht)
      ((hnsorttab M ht).map (fun hn => some hn.addr)) := by
  have hget : ∀ hn ∈ hnsorttab M ht, gethashnode2 M (startSorted M ht) hn.nam = some hn := by
    intro hn hmem
    have hall : hn ∈ ht.all := (List.mergeSort_perm _ _).mem_iff.mp hmem
    exact (gethashnode2_eq_some wf).mpr ⟨hall, rfl⟩
  refine ⟨rfl, ?_, fun k hk => ?_⟩
  · unfold sortedNames
    rw [List.drop_zero, List.map_map]
    refine List.map_congr_left (fun hn hmem => ?_)
    dsimp only [Function.comp]
    rw [hget hn hmem]
    rfl
  · obtain ⟨hn, hmem, rfl⟩ := List.mem_map.mp hk
    rw [hget hn hmem]
    exact Option.some_ne_none _

/-- A scan tolerates what the scan function does to the table, and the table is a finite map
between scans, exactly when no call in a sorted scan removes a name that is still to come. -/
theorem scanmatchtable_tolerates_iff (M : Methods Name) (t : IdleTable M)
    (filter : ScanFilter Name) (scanfunc : ScanFunc Name) (sorted : Bool) :
    (FiniteMap M t.ht ∧
        ∃ n ht' vs, scanmatchtable M filter scanfunc sorted t.ht = .ok (n, ht', vs) ∧
          ToleratesChanges M filter t.ht n ht' vs) ↔
      (sorted = true →
        SparesPending M filter scanfunc (sortedNames M t.ht) 0 (startSorted M t.ht)) := by
  have wf := t.wf
  have hmap := finiteMap_of_wellFormed wf t.idle
  cases sorted with
  | false =>
    refine iff_of_true ⟨hmap, ?_⟩ (fun h => nomatch h)
    obtain ⟨ht', vs, hrun, wf', hcalls, hwalk⟩ :=
      bucketsLoop_walk filter scanfunc t.ht.hsize wf 0 0 (Nat.zero_add _)
    refine ⟨vs.countP Visit.called, { ht' with scan := none }, vs, ?_,
      toleratesChanges_of_walk wf wf' (List.Perm.refl _) (fun _ => rfl) hwalk hcalls⟩
    unfold scanmatchtable
    rw [if_neg Bool.false_ne_true, hrun]
    rfl
  | true =>
    have wf₁ : WellFormed M (startSorted M t.ht) := wellFormed_scan wf _
    have hsnap := snapshot_start wf
    have hstart : ∀ k, gethashnode2 M (startSorted M t.ht) k = gethashnode2 M t.ht k := fun _ => rfl
    have hlen : t.ht.ct = (sortedNames M t.ht).length := by
      rw [wf.count, (sortedNames_perm M t.ht).length_eq, List.length_map]
    unfold scanmatchtable
    rw [if_pos rfl, hlen]
    constructor
    · rintro ⟨-, n, ht', vs, hrun, -⟩ -
      by_contra hnot
      obtain ⟨e, he⟩ := sortedLoop_stops filter scanfunc (sortedNames M t.ht) wf₁ hsnap
        (by unfold sortedNames; rw [List.length_map, List.length_map, Nat.zero_add]) hnot
      rw [he] at hrun
      exact nomatch hrun
    · intro hspares
      obtain ⟨ht', vs, hrun, wf', hcalls, hwalk⟩ := sortedLoop_walk filter scanfunc
        (sortedNames M t.ht) wf₁ hsnap ((sortedNames_perm M t.ht).nodup_iff.mpr wf.names)
        (hspares rfl)
      refine ⟨hmap, vs.countP Visit.called, { ht' with scan := none }, vs, ?_,
        toleratesChanges_of_walk wf wf' (sortedNames_perm M t.ht) hstart hwalk hcalls⟩
      rw [hrun]
      rfl

/-! A table of two names, whose sorted scan removes the second from within the first. -/

def twoMethods : Methods Nat where
  hash := fun nam => nam
  ztrle := fun a b => decide (a ≤ b)

def twoNames : HashTable Nat where
  hsize := 2
  ct := 2
  nodes := [[{ addr := 10, nam := 0, flags := 0 }], [{ addr := 11, nam := 1, flags := 0 }]]
  scan := none

def everyNode : ScanFilter Nat where
  flags1 := 0
  flags2 := 0
  pprog := none

/-- The scan reads the entry that is `NULL` by then. -/
theorem not_scanmatchtable_tolerates :
    WellFormed twoMethods twoNames ∧ twoNames.scan = none ∧
      scanmatchtable twoMethods everyNode (fun _ => [.remove 1]) true twoNames =
        .error (.absent none) ∧
      ¬ ∃ n ht' vs,
        scanmatchtable twoMethods everyNode (fun _ => [.remove 1]) true twoNames =
          .ok (n, ht', vs) ∧ ToleratesChanges twoMethods everyNode twoNames n ht' vs := by
  have hrun : scanmatchtable twoMethods everyNode (fun _ => [.remove 1]) true twoNames =
      .error (.absent none) := by
    have hsorted : hnsorttab twoMethods twoNames = twoNames.all := List.mergeSort_of_pairwise (by decide)
    unfold scanmatchtable startSorted
    rw [hsorted]
    rfl
  refine ⟨⟨by decide, rfl, ?_, by decide, by decide, by decide⟩, rfl, hrun, ?_⟩
  · intro i chain hi hn hmem
    match i with
    | 0 =>
      cases hi
      cases List.mem_singleton.mp hmem
      rfl
    | 1 =>
      cases hi
      cases List.mem_singleton.mp hmem
      rfl
    | i + 2 => exact nomatch hi
  · rintro ⟨n, ht', vs, hok, -⟩
    rw [hrun] at hok
    exact nomatch hok

end NextBSD.Zsh
