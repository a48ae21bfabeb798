import NextBSD.Library.ScanWalk
import NextBSD.Zsh.HashTable
import Mathlib.Data.List.Sort

/-!
# scanmatchtable

The scan function may add, remove and replace nodes of the table that is scanned.  Whatever it
does is a list of such operations; a node that it adds is in no chain.  The scan stops where it
would read an entry that the table does not hold.  Tables with a `scantab` of their own are left
out.
-/

namespace NextBSD.Zsh

open ScanWalk

/-- The entry that a scan reads is not there, or the model runs out of rounds. -/
inductive ScanFault where
  | absent (p : Option Addr)
  | rounds
  deriving DecidableEq, Repr

inductive TableOp (Name : Type) where
  | add (hn : HashNode Name)
  | remove (nam : Name)
  deriving DecidableEq, Repr

/-- `flags1`, `flags2` and `pprog`, which is `pattry` for a pattern. -/
structure ScanFilter (Name : Type) where
  flags1 : Nat
  flags2 : Nat
  pprog : Option (Name → Bool)

def ScanFilter.selects {Name : Type} (f : ScanFilter Name) (hn : HashNode Name) : Bool :=
  (f.flags1 == 0 || hn.flags &&& f.flags1 != 0) && hn.flags &&& f.flags2 == 0 &&
    f.pprog.all (fun pattry => pattry hn.nam)

variable {Name : Type} [DecidableEq Name]

abbrev TableVisit (Name : Type) := Visit (HashTable Name) (HashNode Name)

def lookAt (ht : HashTable Name) (p : Option Addr) : Option (HashNode Name) :=
  p.bind (fun addr => ht.all.find? (fun hn => hn.addr = addr))

/-- `hn->next`. -/
def nextAddr (addr : Addr) : List (HashNode Name) → Option Addr
  | [] => none
  | hp :: rest => if hp.addr = addr then rest.head?.map HashNode.addr else nextAddr addr rest

section Scan

variable (M : Methods Name)

def perform (ht : HashTable Name) : TableOp Name → Option (HashTable Name)
  | .add hn => if ht.Fresh hn then (addhashnode2 M ht hn).map Prod.snd else some ht
  | .remove nam => some (removehashnode M ht nam).2

def performs (ht : HashTable Name) : List (TableOp Name) → Option (List (HashTable Name))
  | [] => some []
  | op :: ops => do
    let ht' ← perform M ht op
    let rest ← performs ht' ops
    pure (ht' :: rest)

/-- What the scan function does when it is called at the `n`-th entry. -/
abbrev ScanFunc (Name : Type) := Nat → List (TableOp Name)

variable (filter : ScanFilter Name) (scanfunc : ScanFunc Name)

def visitNode (n : Nat) (ht : HashTable Name) (hn : HashNode Name) :
    Except ScanFault (TableVisit Name) :=
  if filter.selects hn then
    match performs M ht (scanfunc n) with
    | none => .error .rounds
    | some during => .ok { before := ht, node := hn, during := during, called := true }
  else .ok { before := ht, node := hn, during := [], called := false }

/-- The loop over the sorted array, from `i`, with `n` entries to go. -/
def sortedLoop : Nat → Nat → HashTable Name →
    Except ScanFault (HashTable Name × List (TableVisit Name))
  | 0, _, ht => .ok (ht, [])
  | n + 1, i, ht =>
    match ht.scan with
    | some (.sorted hashtab) =>
      match lookAt ht (hashtab.getD i none) with
      | none => .error (.absent (hashtab.getD i none))
      | some hn => do
        let v ← visitNode M filter scanfunc i ht hn
        let r ← sortedLoop n (i + 1) v.after
        .ok (r.1, v :: r.2)
    | _ => .ok (ht, [])

/-- The inner loop of an unsorted scan, over one chain; `n` entries have been read so far. -/
def chainLoop : Nat → Nat → HashTable Name →
    Except ScanFault (HashTable Name × List (TableVisit Name))
  | 0, _, _ => .error .rounds
  | fuel + 1, n, ht =>
    match ht.scan with
    | some (.chain (some p)) =>
      match lookAt ht (some p) with
      | none => .error (.absent (some p))
      | some hn => do
        let v ← visitNode M filter scanfunc n
          { ht with scan := some (.chain (nextAddr hn.addr (ht.chain M hn.nam))) } hn
        let r ← chainLoop fuel (n + 1) v.after
        .ok (r.1, v :: r.2)
    | _ => .ok (ht, [])

/-- The outer loop, from bucket `i`, with `k` buckets to go. -/
def bucketsLoop : Nat → Nat → Nat → HashTable Name →
    Except ScanFault (HashTable Name × List (TableVisit Name))
  | 0, _, _, ht => .ok (ht, [])
  | k + 1, i, n, ht => do
    let chain := ht.nodes.getD i []
    let r ← chainLoop M filter scanfunc (chain.length + 1) n
      { ht with scan := some (.chain (chain.head?.map HashNode.addr)) }
    let s ← bucketsLoop k (i + 1) (n + r.2.length) r.1
    .ok (s.1, r.2 ++ s.2)

def hnsorttab (ht : HashTable Name) : List (HashNode Name) :=
  ht.all.mergeSort (fun a b => M.ztrle a.nam b.nam)

def startSorted (ht : HashTable Name) : HashTable Name :=
  { ht with scan := some (.sorted ((hnsorttab M ht).map (fun hn => some hn.addr))) }

/-- `scanmatchtable`: what it returns, the table it leaves, and the entries it has read. -/
def scanmatchtable (sorted : Bool) (ht : HashTable Name) :
    Except ScanFault (Nat × HashTable Name × List (TableVisit Name)) := do
  let r ←
    if sorted then sortedLoop M filter scanfunc ht.ct 0 (startSorted M ht)
    else bucketsLoop M filter scanfunc ht.hsize 0 0 ht
  .ok (r.2.countP Visit.called, { r.1 with scan := none }, r.2)

end Scan

def TableOp.name : TableOp Name → Name
  | add hn => hn.nam
  | remove nam => nam

theorem perform_add (M : Methods Name) (ht : HashTable Name) (hn : HashNode Name) :
    perform M ht (.add hn) =
      if ht.Fresh hn then (addhashnodeWith M (expandhashtable M 2) ht hn).map Prod.snd
      else some ht := rfl

theorem perform_remove (M : Methods Name) (ht : HashTable Name) (nam : Name) :
    perform M ht (.remove nam) = some (removehashnode M ht nam).2 := rfl

inductive Effect (M : Methods Name) (ht : HashTable Name) :
    TableOp Name → HashTable Name → Prop
  | none {op : TableOp Name} (h : ∀ nam, op = .remove nam → gethashnode2 M ht nam = none) :
      Effect M ht op ht
  | new {hn : HashNode Name} (hget : gethashnode2 M ht hn.nam = none) :
      Effect M ht (.add hn) (putNew M ht hn)
  | replaced {hn hp : HashNode Name} {chain : List (HashNode Name)}
      (hget : gethashnode2 M ht hn.nam = some hp)
      (hswap : Swapped hp hn (ht.chain M hn.nam) chain)
      (hnew : gethashnode2 M (putReplaced M ht hp hn chain) hn.nam = some hn) :
      Effect M ht (.add hn) (putReplaced M ht hp hn chain)
  | removed {hp : HashNode Name} {x y : List (HashNode Name)}
      (hget : gethashnode2 M ht hp.nam = some hp) (hchain : ht.chain M hp.nam = x ++ hp :: y) :
      Effect M ht (.remove hp.nam) (putRemoved M ht hp (y.head?.map HashNode.addr) (x ++ y))

variable {M : Methods Name} {ht ht' : HashTable Name}

theorem perform_effect (wf : WellFormed M ht) (hscan : ht.scan ≠ none) (op : TableOp Name) :
    ∃ ht', perform M ht op = some ht' ∧ WellFormed M ht' ∧ ht'.scan ≠ none ∧ Effect M ht op ht' ∧
      (∀ k, k ≠ op.name → gethashnode2 M ht' k = gethashnode2 M ht k) ∧
      (∀ nam, op = .remove nam → gethashnode2 M ht' nam = none) := by
  have hmap (g : ScanStatus → ScanStatus) : ht.scan.map g ≠ none := by
    intro h
    exact hscan (Option.map_eq_none_iff.mp h)
  cases op with
  | add hn =>
    by_cases hfresh : ht.Fresh hn
    · cases hget : gethashnode2 M ht hn.nam with
      | none =>
        obtain ⟨hadd, wf', hall⟩ := add_new wf hget hfresh
        refine ⟨putNew M ht hn, ?_, wf', hscan, .new hget, fun k hk => ?_, fun nam h => nomatch h⟩
        · rw [perform_add, if_pos hfresh, hadd, if_neg (fun h => hscan h.2)]
          rfl
        · rw [get_of_inserted wf wf' hall.perm, if_neg (show k ≠ hn.nam from hk)]
      | some hp =>
        obtain ⟨chain, hswap, hadd, wf', hall⟩ := add_replaced wf hget hfresh (expandhashtable M 2)
        obtain ⟨-, hnam⟩ := (gethashnode2_eq_some wf).mp hget
        have hnew : gethashnode2 M (putReplaced M ht hp hn chain) hn.nam = some hn := by
          rw [get_of_swapped wf wf' hnam hall, if_pos rfl]
        refine ⟨putReplaced M ht hp hn chain, ?_, wf', hmap _, .replaced hget hswap hnew,
          fun k hk => ?_, fun nam h => nomatch h⟩
        · rw [perform_add, if_pos hfresh, hadd]
          rfl
        · rw [get_of_swapped wf wf' hnam hall, if_neg (show k ≠ hn.nam from hk)]
    · refine ⟨ht, ?_, wf, hscan, .none (fun nam h => nomatch h), fun _ _ => rfl,
        fun nam h => nomatch h⟩
      rw [perform_add, if_neg hfresh]
  | remove nam =>
    cases hget : gethashnode2 M ht nam with
    | none =>
      refine ⟨ht, ?_, wf, hscan, .none (fun n h => ?_), fun _ _ => rfl, fun n h => ?_⟩
      · rw [perform_remove, remove_none wf hget]
      · cases h
        exact hget
      · cases h
        exact hget
    | some hp =>
      obtain ⟨x, y, hchain, hremove, wf', hall⟩ := remove_some wf hget
      obtain ⟨-, rfl⟩ := (gethashnode2_eq_some wf).mp hget
      refine ⟨_, ?_, wf', hmap _, .removed hget hchain, fun k hk => ?_, fun n h => ?_⟩
      · rw [perform_remove, hremove]
      · rw [get_of_removed wf wf' hall.perm, if_neg (show k ≠ hp.nam from hk)]
      · cases h
        rw [get_of_removed wf wf' hall.perm, if_pos rfl]

/-! ## The cursor of an unsorted scan -/

/-- The scan is in bucket `i`, with `suf` to go. -/
structure Cursor (i : Nat) (ht : HashTable Name) (suf : List (HashNode Name)) : Prop where
  scan : ht.scan = some (.chain (suf.head?.map HashNode.addr))
  chain : ∃ pre, ht.nodes[i]? = some (pre ++ suf)

def pendingNames (i : Nat) (ht : HashTable Name) (suf : List (HashNode Name)) : List Name :=
  (suf ++ (ht.nodes.drop (i + 1)).flatten).map HashNode.nam

omit [DecidableEq Name] in
theorem mem_pendingNames {i : Nat} {suf : List (HashNode Name)} {k : Name} :
    k ∈ pendingNames i ht suf ↔
      k ∈ suf.map HashNode.nam ∨ k ∈ (ht.nodes.drop (i + 1)).flatten.map HashNode.nam := by
  unfold pendingNames
  rw [List.map_append, List.mem_append]

omit [DecidableEq Name] in
theorem pendingNames_nodup (wf : WellFormed M ht) {i : Nat} {suf : List (HashNode Name)}
    (h : ∃ pre, ht.nodes[i]? = some (pre ++ suf)) : (pendingNames i ht suf).Nodup := by
  obtain ⟨pre, hpre⟩ := h
  obtain ⟨hlt, hget⟩ := List.getElem?_eq_some_iff.mp hpre
  have hall : ht.all = (ht.nodes.take i).flatten ++ pre ++
      (suf ++ (ht.nodes.drop (i + 1)).flatten) := by
    have hsplit : ht.nodes.take i ++ (pre ++ suf) :: ht.nodes.drop (i + 1) = ht.nodes := by
      rw [← hget, List.getElem_cons_drop, List.take_append_drop]
    have hflat := congrArg List.flatten hsplit
    rw [List.flatten_append, List.flatten_cons] at hflat
    unfold HashTable.all
    rw [← hflat]
    simp only [List.append_assoc]
  have hnames := wf.names
  rw [hall, List.map_append] at hnames
  exact (List.nodup_append.mp hnames).2.1

omit [DecidableEq Name] in
theorem Inserted.mem_names {hn : HashNode Name} {l l' : List (HashNode Name)}
    (h : Inserted hn l l') {k : Name} (hk : k ≠ hn.nam) :
    k ∈ l'.map HashNode.nam ↔ k ∈ l.map HashNode.nam := by
  rw [(h.perm.map HashNode.nam).mem_iff, List.map_cons, List.mem_cons]
  exact or_iff_right hk

omit [DecidableEq Name] in
theorem Swapped.map_names {hp hn : HashNode Name} {l l' : List (HashNode Name)}
    (h : Swapped hp hn l l') (hnam : hp.nam = hn.nam) :
    l'.map HashNode.nam = l.map HashNode.nam := by
  obtain ⟨x, y, rfl, rfl⟩ := h
  rw [List.map_append, List.map_append, List.map_cons, List.map_cons, hnam]

omit [DecidableEq Name] in
theorem drop_split {a b : List (List (HashNode Name))} (i : Nat) :
    (a.length ≤ i ∧ ∀ c, (a ++ c :: b).drop (i + 1) = b.drop (i - a.length)) ∨
      (i < a.length ∧ ∀ c, (a ++ c :: b).drop (i + 1) = a.drop (i + 1) ++ c :: b) := by
  rcases Nat.lt_or_ge i a.length with h | h
  · right
    exact ⟨h, fun c => List.drop_append_of_le_length h⟩
  · left
    refine ⟨h, fun c => ?_⟩
    have hsub : i + 1 - a.length = (i - a.length) + 1 := by omega
    rw [List.drop_append, List.drop_eq_nil_of_le (by omega), hsub, List.drop_succ_cons,
      List.nil_append]

omit [DecidableEq Name] in
theorem append_eq_split {pre suf x y : List (HashNode Name)} {hp : HashNode Name}
    (h : pre ++ suf = x ++ hp :: y) :
    (∃ z, x = pre ++ z ∧ suf = z ++ hp :: y) ∨ (∃ z, pre = x ++ hp :: z ∧ y = z ++ suf) := by
  rcases List.append_eq_append_iff.mp h with ⟨z, hx, hsuf⟩ | ⟨z, hpre, hrest⟩
  · exact Or.inl ⟨z, hx, hsuf⟩
  · cases z with
    | nil => exact Or.inl ⟨[], by rw [hpre, List.append_nil, List.append_nil], hrest.symm⟩
    | cons q z =>
      obtain ⟨rfl, rfl⟩ := List.cons.inj hrest
      exact Or.inr ⟨z, hpre, rfl⟩

omit [DecidableEq Name] in
theorem head?_addr_ne {suf : List (HashNode Name)} {p : Addr} (h : ∀ n ∈ suf, n.addr ≠ p) :
    suf.head?.map HashNode.addr ≠ some p := by
  cases suf with
  | nil => exact fun hnil => nomatch hnil
  | cons n suf => exact fun hcons => h n List.mem_cons_self (Option.some.inj hcons)

omit [DecidableEq Name] in
theorem Cursor.addr_ne (wf : WellFormed M ht) {i : Nat} {suf : List (HashNode Name)}
    (hc : Cursor i ht suf) {hp : HashNode Name} (hp_mem : hp ∈ ht.all)
    (hbucket : ht.hashval M hp.nam ≠ i) : ∀ n ∈ suf, n.addr ≠ hp.addr := by
  intro n hn heq
  obtain ⟨pre, hpre⟩ := hc.chain
  have hmem : n ∈ pre ++ suf := List.mem_append_right pre hn
  have hall : n ∈ ht.all := List.mem_flatten_of_mem (List.mem_of_getElem? hpre) hmem
  have hsame := eq_of_addr_eq wf hall hp_mem heq
  exact hbucket (hsame ▸ wf.placed i _ hpre n hmem)

omit [DecidableEq Name] in
theorem chain_addr_ne (wf : WellFormed M ht) {nam : Name} {hp : HashNode Name}
    {x y : List (HashNode Name)} (hchain : ht.chain M nam = x ++ hp :: y) :
    ∀ n ∈ x ++ y, n.addr ≠ hp.addr := by
  intro n hn heq
  obtain ⟨a, b, hnodes, -, -⟩ := nodes_split wf nam
  have haddrs := wf.addrs
  unfold HashTable.all at haddrs
  have hperm : (a ++ ht.chain M nam :: b).flatten.Perm
      (hp :: (a.flatten ++ (x ++ y) ++ b.flatten)) := by
    rw [List.flatten_append, List.flatten_cons, hchain]
    have hassoc : a.flatten ++ (x ++ hp :: y ++ b.flatten) =
        (a.flatten ++ x) ++ hp :: (y ++ b.flatten) := by
      simp only [List.append_assoc, List.cons_append]
    rw [hassoc]
    refine List.perm_middle.trans ?_
    simp only [List.append_assoc]
    exact List.Perm.refl _
  rw [hnodes, (hperm.map HashNode.addr).nodup_iff, List.map_cons, List.nodup_cons] at haddrs
  refine haddrs.1 (heq ▸ List.mem_map_of_mem ?_)
  exact List.mem_append_left _ (List.mem_append_right _ hn)

omit [DecidableEq Name] in
theorem getElem?_other {a b : List (List (HashNode Name))} {i : Nat} (hi : i ≠ a.length)
    (c d : List (HashNode Name)) : (a ++ c :: b)[i]? = (a ++ d :: b)[i]? := by
  rcases Nat.lt_or_ge i a.length with h | h
  · rw [List.getElem?_append_left h, List.getElem?_append_left h]
  · obtain ⟨k, hk⟩ : ∃ k, i - a.length = k + 1 := ⟨i - a.length - 1, by omega⟩
    rw [List.getElem?_append_right h, List.getElem?_append_right h, hk]
    rfl

omit [DecidableEq Name] in
theorem getElem?_self {a b : List (List (HashNode Name))} (c : List (HashNode Name)) :
    (a ++ c :: b)[a.length]? = some c := by
  rw [List.getElem?_append_right (Nat.le_refl _), Nat.sub_self]
  rfl

omit [DecidableEq Name] in
theorem scan_replaced {suf : List (HashNode Name)} {hp hn : Addr}
    (h : ∀ n ∈ suf, n.addr ≠ hp) :
    ScanStatus.replaced hp hn (.chain (suf.head?.map HashNode.addr)) =
      .chain (suf.head?.map HashNode.addr) :=
  congrArg ScanStatus.chain (patch_of_ne _ (head?_addr_ne h))

omit [DecidableEq Name] in
theorem scan_removed {suf : List (HashNode Name)} {hp : Addr} (next : Option Addr)
    (h : ∀ n ∈ suf, n.addr ≠ hp) :
    ScanStatus.removed hp next (.chain (suf.head?.map HashNode.addr)) =
      .chain (suf.head?.map HashNode.addr) :=
  congrArg ScanStatus.chain (patch_of_ne _ (head?_addr_ne h))

omit [DecidableEq Name] in
theorem Cursor.new (wf : WellFormed M ht) {i : Nat} {suf : List (HashNode Name)}
    (hc : Cursor i ht suf) (hn : HashNode Name) :
    Cursor i (putNew M ht hn) suf ∧
      ∀ k, k ≠ hn.nam →
        (k ∈ pendingNames i (putNew M ht hn) suf ↔ k ∈ pendingNames i ht suf) := by
  obtain ⟨pre, hpre⟩ := hc.chain
  obtain ⟨a, b, hnodes, -, hset⟩ := nodes_split wf hn.nam
  have hnew : (putNew M ht hn).nodes = a ++ (hn :: ht.chain M hn.nam) :: b := hset _
  refine ⟨⟨hc.scan, ?_⟩, fun k hne => ?_⟩
  · rw [hnew]
    by_cases hi : i = a.length
    · rw [hnodes, hi, getElem?_self] at hpre
      rw [hi, getElem?_self, Option.some.inj hpre]
      exact ⟨hn :: pre, rfl⟩
    · rw [getElem?_other hi _ (ht.chain M hn.nam), ← hnodes]
      exact ⟨pre, hpre⟩
  · rw [mem_pendingNames, mem_pendingNames, hnew, hnodes]
    rcases @drop_split _ a b i with ⟨-, h⟩ | ⟨-, h⟩
    · rw [h, h]
    · have hins : Inserted hn (ht.chain M hn.nam) (hn :: ht.chain M hn.nam) :=
        ⟨[], ht.chain M hn.nam, rfl, rfl⟩
      rw [h, h, (hins.flatten (a.drop (i + 1)) b).mem_names hne]

theorem Cursor.replaced (wf : WellFormed M ht) {i : Nat} {suf chain : List (HashNode Name)}
    (hc : Cursor i ht suf) {hn hp : HashNode Name} (hget : gethashnode2 M ht hn.nam = some hp)
    (hswap : Swapped hp hn (ht.chain M hn.nam) chain) :
    ∃ suf', Cursor i (putReplaced M ht hp hn chain) suf' ∧ suf'.length = suf.length ∧
      pendingNames i (putReplaced M ht hp hn chain) suf' = pendingNames i ht suf := by
  obtain ⟨pre, hpre⟩ := hc.chain
  obtain ⟨hp_mem, hnam⟩ := (gethashnode2_eq_some wf).mp hget
  obtain ⟨a, b, hnodes, hlen, hset⟩ := nodes_split wf hn.nam
  have hnew : (putReplaced M ht hp hn chain).nodes = a ++ chain :: b := hset _
  have hscan : (putReplaced M ht hp hn chain).scan =
      some (ScanStatus.replaced hp.addr hn.addr (.chain (suf.head?.map HashNode.addr))) := by
    show ht.scan.map _ = _
    rw [hc.scan]
    rfl
  have hdrop : ((a ++ chain :: b).drop (i + 1)).flatten.map HashNode.nam =
      ((a ++ ht.chain M hn.nam :: b).drop (i + 1)).flatten.map HashNode.nam := by
    rcases @drop_split _ a b i with ⟨-, h⟩ | ⟨-, h⟩
    · rw [h, h]
    · rw [h, h]
      exact (hswap.flatten (a.drop (i + 1)) b).map_names hnam
  obtain ⟨x, y, hx, hy⟩ := hswap
  have hother := chain_addr_ne wf hx
  by_cases hi : i = a.length
  · rw [hnodes, hi, getElem?_self] at hpre
    have hchain := Option.some.inj hpre
    rcases append_eq_split (hchain.symm.trans hx) with ⟨z, hxz, hsuf⟩ | ⟨z, hprez, hyz⟩
    · -- The node is still to come, and the cursor may be on it.
      refine ⟨z ++ hn :: y, ⟨?_, pre, ?_⟩, ?_, ?_⟩
      · rw [hscan, hsuf]
        cases z with
        | nil => exact congrArg (fun u => some (ScanStatus.chain u)) (patch_self _ _)
        | cons q z =>
          refine congrArg (fun u => some (ScanStatus.chain u)) (patch_of_ne _ (fun heq => ?_))
          refine hother q ?_ (Option.some.inj heq)
          rw [hxz]
          exact List.mem_append_left y (List.mem_append_right pre List.mem_cons_self)
      · rw [hnew, hi, getElem?_self, hy, hxz, List.append_assoc]
      · rw [hsuf, List.length_append, List.length_append, List.length_cons, List.length_cons]
      · unfold pendingNames
        rw [hnew, hnodes, List.map_append, List.map_append, hdrop, hsuf, List.map_append,
          List.map_append, List.map_cons, List.map_cons, hnam]
    · refine ⟨suf, ⟨?_, x ++ hn :: z, ?_⟩, rfl, ?_⟩
      · rw [hscan, scan_replaced]
        intro n hmem
        refine hother n (List.mem_append_right x ?_)
        rw [hyz]
        exact List.mem_append_right z hmem
      · rw [hnew, hi, getElem?_self, hy, hyz, List.append_assoc]
        rfl
      · unfold pendingNames
        rw [hnew, hnodes, List.map_append, List.map_append, hdrop]
  · refine ⟨suf, ⟨?_, pre, ?_⟩, rfl, ?_⟩
    · rw [hscan, scan_replaced]
      refine hc.addr_ne wf hp_mem ?_
      rw [hnam, ← hlen]
      exact fun h => hi h.symm
    · rw [hnew, getElem?_other hi _ (ht.chain M hn.nam), ← hnodes]
      exact hpre
    · unfold pendingNames
      rw [hnew, hnodes, List.map_append, List.map_append, hdrop]

theorem Cursor.removed (wf : WellFormed M ht) {i : Nat} {suf x y : List (HashNode Name)}
    (hc : Cursor i ht suf) {hp : HashNode Name} (hget : gethashnode2 M ht hp.nam = some hp)
    (hx : ht.chain M hp.nam = x ++ hp :: y) :
    ∃ suf', Cursor i (putRemoved M ht hp (y.head?.map HashNode.addr) (x ++ y)) suf' ∧
      suf'.length ≤ suf.length ∧
      ∀ k, k ≠ hp.nam →
        (k ∈ pendingNames i (putRemoved M ht hp (y.head?.map HashNode.addr) (x ++ y)) suf' ↔
          k ∈ pendingNames i ht suf) := by
  obtain ⟨pre, hpre⟩ := hc.chain
  obtain ⟨hp_mem, -⟩ := (gethashnode2_eq_some wf).mp hget
  obtain ⟨a, b, hnodes, hlen, hset⟩ := nodes_split wf hp.nam
  generalize hnext : y.head?.map HashNode.addr = next
  have hnew : (putRemoved M ht hp next (x ++ y)).nodes = a ++ (x ++ y) :: b := hset _
  have hscan : (putRemoved M ht hp next (x ++ y)).scan =
      some (ScanStatus.removed hp.addr next (.chain (suf.head?.map HashNode.addr))) := by
    show ht.scan.map _ = _
    rw [hc.scan]
    rfl
  have hother := chain_addr_ne wf hx
  have hdrop : ∀ k, k ≠ hp.nam →
      (k ∈ ((a ++ (x ++ y) :: b).drop (i + 1)).flatten.map HashNode.nam ↔
        k ∈ ((a ++ ht.chain M hp.nam :: b).drop (i + 1)).flatten.map HashNode.nam) := by
    intro k hne
    rcases @drop_split _ a b i with ⟨-, h⟩ | ⟨-, h⟩
    · rw [h, h]
    · have hins : Inserted hp (x ++ y) (ht.chain M hp.nam) := ⟨x, y, rfl, hx⟩
      rw [h, h, (hins.flatten (a.drop (i + 1)) b).mem_names hne]
  by_cases hi : i = a.length
  · rw [hnodes, hi, getElem?_self] at hpre
    have hchain := Option.some.inj hpre
    rcases append_eq_split (hchain.symm.trans hx) with ⟨z, hxz, hsuf⟩ | ⟨z, hprez, hyz⟩
    · -- The node is still to come, and the cursor moves on where it is on it.
      refine ⟨z ++ y, ⟨?_, pre, ?_⟩, ?_, fun k hne => ?_⟩
      · rw [hscan, hsuf, ← hnext]
        cases z with
        | nil => exact congrArg (fun u => some (ScanStatus.chain u)) (patch_self _ _)
        | cons q z =>
          refine congrArg (fun u => some (ScanStatus.chain u)) (patch_of_ne _ (fun heq => ?_))
          refine hother q ?_ (Option.some.inj heq)
          rw [hxz]
          exact List.mem_append_left y (List.mem_append_right pre List.mem_cons_self)
      · rw [hnew, hi, getElem?_self, hxz, List.append_assoc]
      · rw [hsuf, List.length_append, List.length_append, List.length_cons]
        omega
      · have hins : Inserted hp (z ++ y) (z ++ hp :: y) := ⟨z, y, rfl, rfl⟩
        rw [mem_pendingNames, mem_pendingNames, hnew, hnodes, hsuf, hdrop k hne,
          hins.mem_names hne]
    · refine ⟨suf, ⟨?_, x ++ z, ?_⟩, Nat.le_refl _, fun k hne => ?_⟩
      · rw [hscan, scan_removed]
        intro n hmem
        refine hother n (List.mem_append_right x ?_)
        rw [hyz]
        exact List.mem_append_right z hmem
      · rw [hnew, hi, getElem?_self, hyz, List.append_assoc]
      · rw [mem_pendingNames, mem_pendingNames, hnew, hnodes, hdrop k hne]
  · refine ⟨suf, ⟨?_, pre, ?_⟩, Nat.le_refl _, fun k hne => ?_⟩
    · rw [hscan, scan_removed]
      refine hc.addr_ne wf hp_mem ?_
      rw [← hlen]
      exact fun h => hi h.symm
    · rw [hnew, getElem?_other hi _ (ht.chain M hp.nam), ← hnodes]
      exact hpre
    · rw [mem_pendingNames, mem_pendingNames, hnew, hnodes, hdrop k hne]

/-- What an operation leaves of an unsorted scan: a name that stays is still to come or not, as it
was before. -/
theorem Cursor.effect (wf : WellFormed M ht) {i : Nat} {suf : List (HashNode Name)}
    (hc : Cursor i ht suf) {op : TableOp Name} (he : Effect M ht op ht') :
    ∃ suf', Cursor i ht' suf' ∧ suf'.length ≤ suf.length ∧
      ∀ k, (k = op.name → gethashnode2 M ht k ≠ none ∧ ∀ nam, op ≠ .remove nam) →
        (k ∈ pendingNames i ht' suf' ↔ k ∈ pendingNames i ht suf) := by
  cases he with
  | none h => exact ⟨suf, hc, Nat.le_refl _, fun _ _ => Iff.rfl⟩
  | @new hn hget =>
    obtain ⟨hc', hnames⟩ := hc.new wf hn
    exact ⟨suf, hc', Nat.le_refl _, fun k hk => hnames k (fun h => (hk h).1 (h ▸ hget))⟩
  | replaced hget hswap _ =>
    obtain ⟨suf', hc', hlen, hnames⟩ := hc.replaced wf hget hswap
    refine ⟨suf', hc', Nat.le_of_eq hlen, fun k _ => ?_⟩
    rw [hnames]
  | removed hget hchain =>
    obtain ⟨suf', hc', hlen, hnames⟩ := hc.removed wf hget hchain
    exact ⟨suf', hc', hlen, fun k hk => hnames k (fun h => (hk h).2 _ rfl)⟩

/-! ## The unsorted scan -/

theorem Effect.hsize {op : TableOp Name} (he : Effect M ht op ht') : ht'.hsize = ht.hsize := by
  cases he <;> rfl

theorem Cursor.performs (ops : List (TableOp Name)) :
    ∀ {ht : HashTable Name}, WellFormed M ht → ∀ {i : Nat} {suf : List (HashNode Name)},
      Cursor i ht suf →
      ∃ ts suf', performs M ht ops = some ts ∧ WellFormed M (ts.getLastD ht) ∧
        Cursor i (ts.getLastD ht) suf' ∧ suf'.length ≤ suf.length ∧
        (ts.getLastD ht).hsize = ht.hsize ∧
        ∀ k, gethashnode2 M ht k ≠ none → (∀ t ∈ ts, gethashnode2 M t k ≠ none) →
          (k ∈ pendingNames i (ts.getLastD ht) suf' ↔ k ∈ pendingNames i ht suf) := by
  induction ops with
  | nil =>
    intro ht wf i suf hc
    exact ⟨[], suf, rfl, wf, hc, Nat.le_refl _, rfl, fun _ _ _ => Iff.rfl⟩
  | cons op ops ih =>
    intro ht wf i suf hc
    have hscan : ht.scan ≠ none := by
      rw [hc.scan]
      exact Option.some_ne_none _
    obtain ⟨ht', hrun, wf', -, he, -, hgone⟩ := perform_effect wf hscan op
    obtain ⟨suf₁, hc₁, hlen₁, hnames₁⟩ := hc.effect wf he
    obtain ⟨ts, suf', hrest, wf'', hc', hlen', hsize', hnames'⟩ := ih wf' hc₁
    refine ⟨ht' :: ts, suf', ?_, ?_, ?_, Nat.le_trans hlen' hlen₁, ?_, fun k hk hts => ?_⟩
    · show (perform M ht op).bind _ = _
      rw [hrun]
      show (Zsh.performs M ht' ops).bind _ = _
      rw [hrest]
      rfl
    · rw [List.getLastD_cons]
      exact wf''
    · rw [List.getLastD_cons]
      exact hc'
    · rw [List.getLastD_cons, hsize', he.hsize]
    · have hk' : gethashnode2 M ht' k ≠ none := hts ht' List.mem_cons_self
      rw [List.getLastD_cons, hnames' k hk' (fun t ht => hts t (List.mem_cons_of_mem ht' ht))]
      refine hnames₁ k (fun hop => ⟨hk, fun nam hnam => ?_⟩)
      refine hk' ?_
      rw [hop, hnam]
      exact hgone nam hnam

section Loops

variable (filter : ScanFilter Name) (scanfunc : ScanFunc Name)

theorem Cursor.visit (wf : WellFormed M ht) {i : Nat} {suf : List (HashNode Name)}
    (hc : Cursor i ht suf) (n : Nat) (hn : HashNode Name) :
    ∃ v suf', visitNode M filter scanfunc n ht hn = .ok v ∧ v.before = ht ∧ v.node = hn ∧
      v.called = filter.selects hn ∧ WellFormed M v.after ∧ Cursor i v.after suf' ∧
      suf'.length ≤ suf.length ∧ v.after.hsize = ht.hsize ∧
      ∀ k, gethashnode2 M ht k ≠ none → (∀ t ∈ v.during, gethashnode2 M t k ≠ none) →
        (k ∈ pendingNames i v.after suf' ↔ k ∈ pendingNames i ht suf) := by
  unfold visitNode
  split
  · next hsel =>
    obtain ⟨ts, suf', hrun, wf', hc', hlen, hsize, hnames⟩ := hc.performs (scanfunc n) wf
    rw [hrun]
    exact ⟨_, suf', rfl, rfl, rfl, hsel.symm, wf', hc', hlen, hsize, hnames⟩
  · next hsel =>
    exact ⟨_, suf, rfl, rfl, rfl, (eq_false_of_ne_true hsel).symm, wf, hc, Nat.le_refl _, rfl,
      fun _ _ _ => Iff.rfl⟩

omit [DecidableEq Name] in
theorem lookAt_mem (wf : WellFormed M ht) {hn : HashNode Name} (hmem : hn ∈ ht.all) :
    lookAt ht (some hn.addr) = some hn := by
  show ht.all.find? (fun n => n.addr = hn.addr) = some hn
  cases hfind : ht.all.find? (fun n => n.addr = hn.addr) with
  | none =>
    have hno := List.find?_eq_none.mp hfind hn hmem
    exact absurd (decide_eq_true rfl) hno
  | some n =>
    have haddr : n.addr = hn.addr := by simpa using List.find?_some hfind
    rw [eq_of_addr_eq wf (List.mem_of_find?_eq_some hfind) hmem haddr]

omit [DecidableEq Name] in
theorem nextAddr_append {pre rest : List (HashNode Name)} {hn : HashNode Name}
    (h : ∀ n ∈ pre, n.addr ≠ hn.addr) :
    nextAddr hn.addr (pre ++ hn :: rest) = rest.head?.map HashNode.addr := by
  induction pre with
  | nil => exact if_pos rfl
  | cons n pre ih =>
    show (if n.addr = hn.addr then _ else nextAddr hn.addr (pre ++ hn :: rest)) = _
    rw [if_neg (h n List.mem_cons_self)]
    exact ih (fun m hm => h m (List.mem_cons_of_mem n hm))

omit [DecidableEq Name] in
theorem wellFormed_scan (wf : WellFormed M ht) (scan : Option ScanStatus) :
    WellFormed M { ht with scan := scan } :=
  ⟨wf.pos, wf.length, wf.placed, wf.names, wf.addrs, wf.count⟩

theorem chainLoop_walk (fuel : Nat) :
    ∀ {ht : HashTable Name}, WellFormed M ht → ∀ {i : Nat} {suf : List (HashNode Name)} (n : Nat),
      Cursor i ht suf → suf.length < fuel →
      ∃ ht' vs, chainLoop M filter scanfunc fuel n ht = .ok (ht', vs) ∧ WellFormed M ht' ∧
        ht'.hsize = ht.hsize ∧ (∀ v ∈ vs, v.called = filter.selects v.node) ∧
        Walk (gethashnode2 M) HashNode.nam (pendingNames i ht suf) ht vs
          (pendingNames i ht' []) ht' := by
  induction fuel with
  | zero => exact fun _ _ _ _ _ hlen => absurd hlen (Nat.not_lt_zero _)
  | succ fuel ih =>
    intro ht wf i suf n hc hlen
    unfold chainLoop
    rw [hc.scan]
    cases suf with
    | nil =>
      exact ⟨ht, [], rfl, wf, rfl, fun v hv => absurd hv List.not_mem_nil,
        .done _ (fun _ => rfl)⟩
    | cons hn suf =>
      obtain ⟨pre, hpre⟩ := hc.chain
      have hmem : hn ∈ pre ++ hn :: suf := List.mem_append_right pre List.mem_cons_self
      have hall : hn ∈ ht.all := List.mem_flatten_of_mem (List.mem_of_getElem? hpre) hmem
      have hchain : ht.chain M hn.nam = pre ++ hn :: suf := by
        have hplace := wf.placed i _ hpre hn hmem
        have hget := nodes_chain wf hn.nam
        rw [hplace, hpre] at hget
        exact (Option.some.inj hget).symm
      have hother := chain_addr_ne wf hchain
      have hnext : nextAddr hn.addr (ht.chain M hn.nam) = suf.head?.map HashNode.addr := by
        rw [hchain]
        exact nextAddr_append (fun m hm => hother m (List.mem_append_left suf hm))
      dsimp only [List.head?_cons, Option.map_some]
      rw [lookAt_mem wf hall]
      dsimp only
      rw [hnext]
      generalize hmoved :
        { ht with scan := some (.chain (suf.head?.map HashNode.addr)) } = moved
      have wf₁ : WellFormed M moved := hmoved ▸ wellFormed_scan wf _
      have hc₁ : Cursor i moved suf := by
        rw [← hmoved]
        refine ⟨rfl, pre ++ [hn], ?_⟩
        show ht.nodes[i]? = _
        rw [hpre, List.append_assoc]
        rfl
      have hsame : ∀ k, gethashnode2 M moved k = gethashnode2 M ht k := by
        rw [← hmoved]
        exact fun _ => rfl
      have hpending : pendingNames i ht (hn :: suf) = hn.nam :: pendingNames i moved suf := by
        rw [← hmoved]
        rfl
      obtain ⟨v, suf', hvisit, hbefore, hnode, hcalled, wf₂, hc₂, hlen₂, hsize₂, hkeep⟩ :=
        hc₁.visit filter scanfunc wf₁ n hn
      have hlen' : suf'.length < fuel := by
        rw [List.length_cons] at hlen
        omega
      obtain ⟨ht', vs, hrun, wf', hsize', hcalls, hwalk⟩ := ih wf₂ (n + 1) hc₂ hlen'
      refine ⟨ht', v :: vs, ?_, wf', ?_, ?_, ?_⟩
      · rw [hvisit]
        show (chainLoop M filter scanfunc fuel (n + 1) v.after).bind _ = _
        rw [hrun]
        rfl
      · rw [hsize', hsize₂, ← hmoved]
      · intro w hw
        rcases List.mem_cons.mp hw with rfl | hw
        · rw [hcalled, hnode]
        · exact hcalls w hw
      · rw [hpending, ← hnode]
        refine .look ?_ ?_ ?_ (pendingNames_nodup wf₂ hc₂.chain) hwalk
        · rw [hbefore]
          exact hsame
        · rw [hbefore, hsame, hnode]
          exact (gethashnode2_eq_some wf).mpr ⟨hall, rfl⟩
        · intro k hk hduring
          exact hkeep k (by rw [hsame]; exact hk) hduring

theorem bucketsLoop_walk (k : Nat) :
    ∀ {ht : HashTable Name}, WellFormed M ht → ∀ (i n : Nat), i + k = ht.hsize →
      ∃ ht' vs, bucketsLoop M filter scanfunc k i n ht = .ok (ht', vs) ∧ WellFormed M ht' ∧
        (∀ v ∈ vs, v.called = filter.selects v.node) ∧
        Walk (gethashnode2 M) HashNode.nam ((ht.nodes.drop i).flatten.map HashNode.nam) ht vs []
          ht' := by
  induction k with
  | zero =>
    intro ht wf i n hi
    have hnil : ht.nodes.drop i = [] := by
      refine List.drop_eq_nil_of_le ?_
      have := wf.length
      omega
    rw [hnil]
    exact ⟨ht, [], rfl, wf, fun v hv => absurd hv List.not_mem_nil, .done _ (fun _ => rfl)⟩
  | succ k ih =>
    intro ht wf i n hi
    have hlt : i < ht.nodes.length := by
      have := wf.length
      omega
    generalize hchain : ht.nodes.getD i [] = chain
    have hget : ht.nodes[i]? = some chain := by
      rw [← hchain, List.getD_eq_getElem?_getD, List.getElem?_eq_getElem hlt, Option.getD_some]
    generalize hstart :
      { ht with scan := some (.chain (chain.head?.map HashNode.addr)) } = start
    have wf₁ : WellFormed M start := hstart ▸ wellFormed_scan wf _
    have hc : Cursor i start chain := by
      rw [← hstart]
      exact ⟨rfl, [], hget⟩
    have hpending : (ht.nodes.drop i).flatten.map HashNode.nam = pendingNames i start chain := by
      have hdrop : ht.nodes.drop i = chain :: ht.nodes.drop (i + 1) := by
        rw [List.drop_eq_getElem_cons hlt, (List.getElem_eq_iff hlt).mpr hget]
      rw [← hstart, hdrop]
      rfl
    have hsame : ∀ k, gethashnode2 M start k = gethashnode2 M ht k := by
      rw [← hstart]
      exact fun _ => rfl
    have hsize : start.hsize = ht.hsize := by rw [← hstart]
    obtain ⟨ht₁, vs₁, hrun₁, wf₂, hsize₁, hcalls₁, hwalk₁⟩ :=
      chainLoop_walk filter scanfunc (chain.length + 1) wf₁ n hc (Nat.lt_succ_self _)
    obtain ⟨ht₂, vs₂, hrun₂, wf₃, hcalls₂, hwalk₂⟩ := ih wf₂ (i + 1) (n + vs₁.length) (by omega)
    refine ⟨ht₂, vs₁ ++ vs₂, ?_, wf₃, ?_, ?_⟩
    · unfold bucketsLoop
      dsimp only
      rw [hchain, hstart, hrun₁]
      show (bucketsLoop M filter scanfunc k (i + 1) (n + vs₁.length) ht₁).bind _ = _
      rw [hrun₂]
      rfl
    · intro v hv
      rcases List.mem_append.mp hv with h | h
      · exact hcalls₁ v h
      · exact hcalls₂ v h
    · rw [hpending]
      exact (hwalk₁.append (fun _ => rfl) hwalk₂).congr hsame

end Loops

end NextBSD.Zsh
