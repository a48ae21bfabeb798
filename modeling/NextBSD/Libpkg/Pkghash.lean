import NextBSD.Library.OpenAddressing

/-!
# pkghash.c: the hash table

An entry whose key is `NULL` was never used or is a tombstone.  Allocations succeed, so sizes are
unbounded here, and the destructor of a value is left out.
-/

namespace NextBSD.Libpkg

open OpenAddressing

universe u v

variable {K : Type u} {V : Type v}

structure Pkghash (K : Type u) (V : Type v) where
  entries : List (Slot K V)
  count : Nat
  tombstones : Nat
  deriving DecidableEq, Repr

def Pkghash.capacity (table : Pkghash K V) : Nat := table.entries.length

def pkghashNew : Pkghash K V :=
  { entries := List.replicate 128 .unused, count := 0, tombstones := 0 }

def homeIndex (hash : K → UInt64) (capacity : Nat) (key : K) : Nat :=
  (hash key).toNat &&& (capacity - 1)

def nextIndex (capacity index : Nat) : Nat := if index + 1 ≥ capacity then 0 else index + 1

section Code

variable [DecidableEq K]

/-- The loop of `pkghash_get`, with the rounds that are left. -/
def getLoop (entries : List (Slot K V)) (key : K) : Nat → Nat → Option Nat
  | 0, _ => none
  | rounds + 1, index =>
    match entries[index]? with
    | some .unused => none
    | some (.live k _) =>
      if k = key then some index
      else getLoop entries key rounds (nextIndex entries.length index)
    | some .tombstone => getLoop entries key rounds (nextIndex entries.length index)
    | none => none

/-- `pkghash_get`: the entry of a key, by its index. -/
def pkghashGet (hash : K → UInt64) (table : Pkghash K V) (key : K) : Option Nat :=
  getLoop table.entries key table.capacity (homeIndex hash table.capacity key)

def entryValue (entries : List (Slot K V)) (index : Nat) : Option V :=
  match entries[index]? with
  | some (.live _ v) => some v
  | _ => none

def pkghashGetValue (hash : K → UInt64) (table : Pkghash K V) (key : K) : Option V :=
  (pkghashGet hash table key).bind (entryValue table.entries)

def setLoop (entries : List (Slot K V)) (key : K) (value : V) : Nat → Nat → Option (List (Slot K V))
  | 0, _ => none
  | rounds + 1, index =>
    match entries[index]? with
    | some (.live k _) =>
      if k = key then none
      else setLoop entries key value rounds (nextIndex entries.length index)
    | some _ => some (entries.set index (.live key value))
    | none => none

/-- `pkghash_set_entry`; `none` is `false`. -/
def pkghashSetEntry (hash : K → UInt64) (entries : List (Slot K V)) (key : K) (value : V) :
    Option (List (Slot K V)) :=
  setLoop entries key value entries.length (homeIndex hash entries.length key)

def pkghashExpand (hash : K → UInt64) (table : Pkghash K V) : Pkghash K V :=
  let newEntries := table.entries.foldl (fun newEntries entry =>
    match entry with
    | .live key value => (pkghashSetEntry hash newEntries key value).getD newEntries
    | _ => newEntries) (List.replicate (table.capacity * 2) .unused)
  { table with entries := newEntries, tombstones := 0 }

/-- The table that `pkghash_add` writes to. -/
def grown (hash : K → UInt64) (table : Pkghash K V) : Pkghash K V :=
  if table.tombstones > table.capacity / 4 ∨ table.count * 2 ≥ table.capacity then
    pkghashExpand hash table
  else table

def pkghashAdd (hash : K → UInt64) (table : Pkghash K V) (key : K) (value : V) :
    Pkghash K V × Bool :=
  let table := grown hash table
  match pkghashSetEntry hash table.entries key value with
  | some entries => ({ table with entries := entries, count := table.count + 1 }, true)
  | none => (table, false)

def buryEntry (table : Pkghash K V) (index : Nat) : Pkghash K V :=
  { entries := table.entries.set index .tombstone
    count := table.count - 1
    tombstones := table.tombstones + 1 }

def pkghashDel (hash : K → UInt64) (table : Pkghash K V) (key : K) : Pkghash K V × Bool :=
  match pkghashGet hash table key with
  | none => (table, false)
  | some index => (buryEntry table index, true)

/-- `pkghash_delete`: the value is handed out. -/
def pkghashDelete (hash : K → UInt64) (table : Pkghash K V) (key : K) : Pkghash K V × Option V :=
  match pkghashGet hash table key with
  | none => (table, none)
  | some index => (buryEntry table index, entryValue table.entries index)

end Code

def pkghashCount (table : Pkghash K V) : Nat := table.count

/-- The loop of `pkghash_next`: the next entry with a key, and the index behind it. -/
def scanEntries : List (Slot K V) → Nat → Option ((K × V) × Nat)
  | [], _ => none
  | .live key value :: _, index => some ((key, value), index + 1)
  | _ :: entries, index => scanEntries entries (index + 1)

/-- `pkghash_next` for an iterator at `index`. -/
def pkghashNext (table : Pkghash K V) (index : Nat) : Option ((K × V) × Nat) :=
  if table.count = 0 then none else scanEntries (table.entries.drop index) index

def iterate (table : Pkghash K V) : Nat → Nat → List (K × V)
  | 0, _ => []
  | fuel + 1, index =>
    match pkghashNext table index with
    | none => []
    | some (entry, index) => entry :: iterate table fuel index

/-! ## The table places its keys -/

def probes (hash : K → UInt64) (capacity : Nat) (key : K) : List Nat :=
  walk capacity capacity (homeIndex hash capacity key)

theorem homeIndex_lt (hash : K → UInt64) {capacity : Nat} (h : 0 < capacity) (key : K) :
    homeIndex hash capacity key < capacity := by
  have hle : (hash key).toNat &&& (capacity - 1) ≤ capacity - 1 := Nat.and_le_right
  unfold homeIndex
  omega

theorem mem_probes_iff (hash : K → UInt64) {capacity : Nat} (h : 0 < capacity) (key : K)
    (i : Nat) : i ∈ probes hash capacity key ↔ i < capacity :=
  mem_walk_iff (homeIndex_lt hash h key) i

section Refinement

variable [DecidableEq K]

theorem getLoop_eq (entries : List (Slot K V)) (key : K) (rounds index : Nat) :
    getLoop entries key rounds index = find entries key (walk entries.length rounds index) := by
  induction rounds generalizing index with
  | zero => rfl
  | succ rounds ih =>
    unfold getLoop walk find
    rw [ih]
    cases entries[index]? with
    | none => rfl
    | some s => cases s <;> rfl

theorem setLoop_eq (entries : List (Slot K V)) (key : K) (value : V) (rounds index : Nat) :
    setLoop entries key value rounds index =
      place entries key value (walk entries.length rounds index) := by
  induction rounds generalizing index with
  | zero => rfl
  | succ rounds ih =>
    unfold setLoop walk place
    rw [ih]
    cases entries[index]? with
    | none => rfl
    | some s => cases s <;> rfl

theorem pkghashGet_eq (hash : K → UInt64) (table : Pkghash K V) (key : K) :
    pkghashGet hash table key = find table.entries key (probes hash table.capacity key) :=
  getLoop_eq _ _ _ _

theorem pkghashSetEntry_eq (hash : K → UInt64) (entries : List (Slot K V)) (key : K) (value : V) :
    pkghashSetEntry hash entries key value =
      place entries key value (probes hash entries.length key) :=
  setLoop_eq _ _ _ _ _

structure Pkghash.Inv (hash : K → UInt64) (table : Pkghash K V) : Prop where
  placed : WellPlaced (probes hash table.capacity) table.entries
  count_eq : table.count = table.entries.countP Slot.isLive
  capacity_pos : 0 < table.capacity

omit [DecidableEq K] in
theorem pkghashNew_inv (hash : K → UInt64) :
    (pkghashNew (K := K) (V := V)).Inv hash ∧
      ∀ k v, ¬ Holds (pkghashNew (K := K) (V := V)).entries k v := by
  obtain ⟨hplaced, hnone⟩ := WellPlaced.unused (V := V) (probes hash 128) 128
  have hcount : (List.replicate 128 (Slot.unused (K := K) (V := V))).countP Slot.isLive = 0 :=
    List.countP_eq_zero.mpr fun s hs => by
      rw [List.eq_of_mem_replicate hs]
      exact Bool.false_ne_true
  exact ⟨⟨hplaced, hcount.symm, Nat.lt_of_lt_of_eq (by decide) List.length_replicate.symm⟩, hnone⟩

theorem expandLoop_eq (hash : K → UInt64) (entries newEntries : List (Slot K V)) :
    entries.foldl (fun newEntries entry =>
      match entry with
      | .live key value => (pkghashSetEntry hash newEntries key value).getD newEntries
      | _ => newEntries) newEntries =
    reinsert (probes hash newEntries.length) (bindings entries) newEntries := by
  induction entries generalizing newEntries with
  | nil => rfl
  | cons entry entries ih =>
    rw [List.foldl_cons, ih]
    cases entry with
    | unused => rfl
    | tombstone => rfl
    | live key value =>
      have hlength : ((pkghashSetEntry hash newEntries key value).getD newEntries).length =
          newEntries.length := by
        rw [pkghashSetEntry_eq]
        cases hplace : place newEntries key value (probes hash newEntries.length key) with
        | none => rfl
        | some entries' =>
          obtain ⟨-, index, -, -, -, -, -, -, rfl⟩ := place_sound hplace
          exact List.length_set
      dsimp only
      rw [hlength, pkghashSetEntry_eq]
      rfl

theorem pkghashExpand_inv {hash : K → UInt64} {table : Pkghash K V} (h : table.Inv hash) :
    (pkghashExpand hash table).Inv hash ∧
      (pkghashExpand hash table).entries.countP Slot.isLive < (pkghashExpand hash table).capacity ∧
      ∀ k v, Holds (pkghashExpand hash table).entries k v ↔ Holds table.entries k v := by
  have hpos := h.capacity_pos
  obtain ⟨hfresh, hnone⟩ :=
    WellPlaced.unused (V := V) (probes hash (table.capacity * 2)) (table.capacity * 2)
  have hlength : (List.replicate (table.capacity * 2) (Slot.unused (K := K) (V := V))).length =
      table.capacity * 2 := List.length_replicate
  have hcount : (List.replicate (table.capacity * 2)
      (Slot.unused (K := K) (V := V))).countP Slot.isLive = 0 :=
    List.countP_eq_zero.mpr fun s hs => by
      rw [List.eq_of_mem_replicate hs]
      exact Bool.false_ne_true
  have hlives : (bindings table.entries).length = table.entries.countP Slot.isLive :=
    length_bindings
  have hle : table.entries.countP Slot.isLive ≤ table.capacity := List.countP_le_length
  have hentries : (pkghashExpand hash table).entries =
      reinsert (probes hash (table.capacity * 2)) (bindings table.entries)
        (List.replicate (table.capacity * 2) .unused) := by
    have hloop := expandLoop_eq hash table.entries
      (List.replicate (table.capacity * 2) (Slot.unused (K := K) (V := V)))
    rw [hlength] at hloop
    exact hloop
  obtain ⟨hplaced, hsame, hlive, hholds⟩ := hfresh.reinsert h.placed.nodup
    (fun b _ v => hnone b.1 v)
    (fun k i => by rw [hlength]; exact mem_probes_iff hash (by omega) k i) (by omega)
  rw [← hentries] at hplaced hsame hlive hholds
  rw [hlength] at hsame
  rw [hcount, Nat.zero_add, hlives] at hlive
  have hcapacity : (pkghashExpand hash table).capacity = table.capacity * 2 := hsame
  refine ⟨⟨?_, ?_, ?_⟩, ?_, fun k v => ?_⟩
  · rw [hcapacity]
    exact hplaced
  · rw [hlive]
    exact h.count_eq
  · omega
  · omega
  · rw [hholds, mem_bindings]
    exact or_iff_left (hnone k v)

theorem grown_inv {hash : K → UInt64} {table : Pkghash K V} (h : table.Inv hash) :
    (grown hash table).Inv hash ∧
      (grown hash table).entries.countP Slot.isLive < (grown hash table).capacity ∧
      ∀ k v, Holds (grown hash table).entries k v ↔ Holds table.entries k v := by
  unfold grown
  split
  · exact pkghashExpand_inv h
  · next hsmall =>
    have hcount := h.count_eq
    have hpos := h.capacity_pos
    refine ⟨h, ?_, fun _ _ => Iff.rfl⟩
    omega

theorem pkghashAdd_absent {hash : K → UInt64} {table : Pkghash K V} (h : table.Inv hash)
    {key : K} (habsent : ∀ v, ¬ Holds table.entries key v) (value : V) :
    (pkghashAdd hash table key value).2 = true ∧
      (pkghashAdd hash table key value).1.Inv hash ∧
      ∀ k v, Holds (pkghashAdd hash table key value).1.entries k v ↔
        (k = key ∧ v = value) ∨ Holds table.entries k v := by
  obtain ⟨hinv, hroom, hsame⟩ := grown_inv h
  obtain ⟨entries, hplace, hplaced, hlength, hcount, hholds⟩ := hinv.placed.place value
    (fun v hv => habsent v ((hsame key v).mp hv))
    (fun i => mem_probes_iff hash hinv.capacity_pos key i) hroom
  have hset : pkghashSetEntry hash (grown hash table).entries key value = some entries :=
    (pkghashSetEntry_eq _ _ _ _).trans hplace
  unfold pkghashAdd
  dsimp only
  rw [hset]
  have hcapacity : entries.length = (grown hash table).capacity := hlength
  refine ⟨rfl, ⟨?_, ?_, ?_⟩, fun k v => ?_⟩
  · show WellPlaced (probes hash entries.length) entries
    rw [hcapacity]
    exact hplaced
  · show (grown hash table).count + 1 = entries.countP Slot.isLive
    rw [hcount, hinv.count_eq]
  · show 0 < entries.length
    rw [hcapacity]
    exact hinv.capacity_pos
  · show Holds entries k v ↔ _
    rw [hholds, hsame]

/-- A deleted slot lies on the way to a key that `pkghash_add` is asked to add again. -/
def hidden (hash : K → UInt64) (table : Pkghash K V) (key : K) : Bool :=
  shadowed (grown hash table).entries key (probes hash (grown hash table).capacity key)

theorem pkghashAdd_present {hash : K → UInt64} {table : Pkghash K V} (h : table.Inv hash)
    {key : K} {old : V} (hpresent : Holds table.entries key old) (value : V) :
    (pkghashAdd hash table key value).2 = hidden hash table key ∧
      (hidden hash table key = false → (pkghashAdd hash table key value).1 = grown hash table) := by
  obtain ⟨hinv, -, hsame⟩ := grown_inv h
  have hfound : (find (grown hash table).entries key
      (probes hash (grown hash table).capacity key)).isSome = true := by
    rw [Option.isSome_iff_ne_none]
    intro hnone
    exact hinv.placed.find_eq_none_iff.mp hnone old ((hsame key old).mpr hpresent)
  have hplace := place_eq_none_iff value hfound
  unfold pkghashAdd hidden
  dsimp only
  rw [pkghashSetEntry_eq]
  change place (grown hash table).entries key value
    (probes hash (grown hash table).entries.length key) = none ↔ _ at hplace
  cases hset : place (grown hash table).entries key value
      (probes hash (grown hash table).entries.length key) with
  | none =>
    rw [hplace.mp hset]
    exact ⟨rfl, fun _ => rfl⟩
  | some entries =>
    have hshadow := (not_congr hplace).mp (by rw [hset]; exact Option.some_ne_none entries)
    rw [Bool.not_eq_false] at hshadow
    rw [hshadow]
    exact ⟨rfl, fun hfalse => absurd hfalse.symm Bool.false_ne_true⟩

theorem buryEntry_inv {hash : K → UInt64} {table : Pkghash K V} (h : table.Inv hash) {key : K}
    {index : Nat} (hget : pkghashGet hash table key = some index) :
    (buryEntry table index).Inv hash ∧ (∃ v, entryValue table.entries index = some v ∧
      Holds table.entries key v) ∧
      ∀ k v, Holds (buryEntry table index).entries k v ↔ k ≠ key ∧ Holds table.entries k v := by
  rw [pkghashGet_eq] at hget
  obtain ⟨v, hentry⟩ := find_sound hget
  obtain ⟨hplaced, hholds⟩ := h.placed.erase hentry
  have hcount := countP_erase hentry
  have hlength : (table.entries.set index (.tombstone : Slot K V)).length = table.capacity :=
    List.length_set
  refine ⟨⟨?_, ?_, ?_⟩, ⟨v, ?_, index, hentry⟩, hholds⟩
  · show WellPlaced (probes hash (table.entries.set index .tombstone).length) _
    rw [hlength]
    exact hplaced
  · show table.count - 1 = (table.entries.set index .tombstone).countP Slot.isLive
    rw [h.count_eq]
    omega
  · show 0 < (table.entries.set index .tombstone).length
    rw [hlength]
    exact h.capacity_pos
  · unfold entryValue
    rw [hentry]

theorem pkghashGet_eq_none_iff {hash : K → UInt64} {table : Pkghash K V} (h : table.Inv hash)
    (key : K) : pkghashGet hash table key = none ↔ ∀ v, ¬ Holds table.entries key v := by
  rw [pkghashGet_eq]
  exact h.placed.find_eq_none_iff

/-! ## A finite map -/

def Represents (table : Pkghash K V) (map : K → Option V) : Prop :=
  ∀ k v, map k = some v ↔ Holds table.entries k v

omit [DecidableEq K] in
theorem Represents.none_iff {table : Pkghash K V} {map : K → Option V} (h : Represents table map)
    (k : K) : map k = none ↔ ∀ v, ¬ Holds table.entries k v := by
  rw [Option.eq_none_iff_forall_ne_some]
  exact forall_congr' fun v => not_congr (h k v)

inductive Op (K : Type u) (V : Type v)
  | add (key : K) (value : V)
  | del (key : K)
  | delete (key : K)
  | get (key : K)
  deriving DecidableEq, Repr

inductive Answer (V : Type v)
  | flag (b : Bool)
  | value (v : Option V)
  deriving DecidableEq, Repr

def call (hash : K → UInt64) (table : Pkghash K V) : Op K V → Pkghash K V × Answer V
  | .add key value => ((pkghashAdd hash table key value).1,
      .flag (pkghashAdd hash table key value).2)
  | .del key => ((pkghashDel hash table key).1, .flag (pkghashDel hash table key).2)
  | .delete key => ((pkghashDelete hash table key).1, .value (pkghashDelete hash table key).2)
  | .get key => (table, .value (pkghashGetValue hash table key))

def mapCall (map : K → Option V) : Op K V → (K → Option V) × Answer V
  | .add key value =>
    if (map key).isSome then (map, .flag false)
    else (Function.update map key (some value), .flag true)
  | .del key => (Function.update map key none, .flag (map key).isSome)
  | .delete key => (Function.update map key none, .value (map key))
  | .get key => (map, .value (map key))

/-- The branch of `pkghash_set_entry` that goes wrong is not taken. -/
def sound (hash : K → UInt64) (table : Pkghash K V) : Op K V → Bool
  | .add key _ => !hidden hash table key
  | _ => true

theorem pkghashGetValue_eq {hash : K → UInt64} {table : Pkghash K V} {map : K → Option V}
    (h : table.Inv hash) (hmap : Represents table map) (key : K) :
    pkghashGetValue hash table key = map key := by
  unfold pkghashGetValue
  cases hget : pkghashGet hash table key with
  | none => exact ((hmap.none_iff key).mpr ((pkghashGet_eq_none_iff h key).mp hget)).symm
  | some index =>
    obtain ⟨-, ⟨v, hvalue, hholds⟩, -⟩ := buryEntry_inv h hget
    exact hvalue.trans ((hmap key v).mpr hholds).symm

theorem Represents.bury {hash : K → UInt64} {table : Pkghash K V} {map : K → Option V}
    (h : table.Inv hash) (hmap : Represents table map) {key : K} {index : Nat}
    (hget : pkghashGet hash table key = some index) :
    (buryEntry table index).Inv hash ∧
      Represents (buryEntry table index) (Function.update map key none) ∧
      entryValue table.entries index = map key ∧ (map key).isSome = true := by
  obtain ⟨hinv, ⟨v, hvalue, hholds⟩, hrest⟩ := buryEntry_inv h hget
  have hbound := (hmap key v).mpr hholds
  refine ⟨hinv, fun k w => ?_, hvalue.trans hbound.symm, by rw [hbound]; rfl⟩
  rw [hrest]
  by_cases hk : k = key
  · rw [hk, Function.update_self]
    exact ⟨nofun, fun hw => absurd rfl hw.1⟩
  · rw [Function.update_of_ne hk, hmap]
    exact ⟨fun hw => ⟨hk, hw⟩, fun hw => hw.2⟩

theorem Represents.absent {hash : K → UInt64} {table : Pkghash K V} {map : K → Option V}
    (h : table.Inv hash) (hmap : Represents table map) {key : K}
    (hget : pkghashGet hash table key = none) :
    map key = none ∧ Represents table (Function.update map key none) := by
  have hnone := (hmap.none_iff key).mpr ((pkghashGet_eq_none_iff h key).mp hget)
  refine ⟨hnone, ?_⟩
  rw [← hnone, Function.update_eq_self]
  exact hmap

theorem call_step {hash : K → UInt64} {table : Pkghash K V} {map : K → Option V}
    (h : table.Inv hash) (hmap : Represents table map) (op : Op K V)
    (hsound : sound hash table op = true) :
    (call hash table op).1.Inv hash ∧ Represents (call hash table op).1 (mapCall map op).1 ∧
      (call hash table op).2 = (mapCall map op).2 := by
  cases op with
  | add key value =>
    have hhidden : hidden hash table key = false := Bool.not_inj hsound
    cases hbound : map key with
    | none =>
      obtain ⟨hflag, hinv, hholds⟩ := pkghashAdd_absent h ((hmap.none_iff key).mp hbound) value
      have hspec : mapCall map (.add key value) =
          (Function.update map key (some value), .flag true) :=
        if_neg (by rw [hbound]; exact Bool.false_ne_true)
      rw [hspec]
      refine ⟨hinv, fun k v => ?_, congrArg Answer.flag hflag⟩
      show Function.update map key (some value) k = some v ↔
        Holds (pkghashAdd hash table key value).1.entries k v
      rw [hholds]
      by_cases hk : k = key
      · rw [hk, Function.update_self]
        constructor
        · exact fun hv => Or.inl ⟨rfl, (Option.some.inj hv).symm⟩
        · rintro (⟨-, hv⟩ | hv)
          · rw [hv]
          · exact absurd hv ((hmap.none_iff key).mp hbound v)
      · rw [Function.update_of_ne hk, hmap]
        exact ⟨Or.inr, fun hv => hv.resolve_left fun hw => hk hw.1⟩
    | some old =>
      obtain ⟨hflag, hsame⟩ := pkghashAdd_present h ((hmap key old).mp hbound) value
      obtain ⟨hinv, -, hholds⟩ := grown_inv h
      have hspec : mapCall map (.add key value) = (map, .flag false) :=
        if_pos (by rw [hbound]; rfl)
      have hcode : call hash table (.add key value) = (grown hash table, .flag false) := by
        unfold call
        dsimp only
        rw [hflag, hhidden, hsame hhidden]
      rw [hspec, hcode]
      exact ⟨hinv, fun k v => (hmap k v).trans (hholds k v).symm, rfl⟩
  | del key =>
    show (pkghashDel hash table key).1.Inv hash ∧
      Represents (pkghashDel hash table key).1 (Function.update map key none) ∧
      Answer.flag (pkghashDel hash table key).2 = Answer.flag (map key).isSome
    unfold pkghashDel
    cases hget : pkghashGet hash table key with
    | none =>
      obtain ⟨hnone, hsame⟩ := hmap.absent h hget
      rw [hnone]
      exact ⟨h, hsame, rfl⟩
    | some index =>
      obtain ⟨hinv, hrest, -, hbound⟩ := hmap.bury h hget
      rw [hbound]
      exact ⟨hinv, hrest, rfl⟩
  | delete key =>
    show (pkghashDelete hash table key).1.Inv hash ∧
      Represents (pkghashDelete hash table key).1 (Function.update map key none) ∧
      Answer.value (pkghashDelete hash table key).2 = Answer.value (map key)
    unfold pkghashDelete
    cases hget : pkghashGet hash table key with
    | none =>
      obtain ⟨hnone, hsame⟩ := hmap.absent h hget
      rw [hnone]
      exact ⟨h, hsame, rfl⟩
    | some index =>
      obtain ⟨hinv, hrest, hvalue, -⟩ := hmap.bury h hget
      exact ⟨hinv, hrest, congrArg Answer.value hvalue⟩
  | get key => exact ⟨h, hmap, congrArg Answer.value (pkghashGetValue_eq h hmap key)⟩

omit [DecidableEq K] in
theorem scanEntries_spec (entries : List (Slot K V)) (index : Nat) :
    (scanEntries entries index = none ∧ bindings entries = []) ∨
      ∃ entry n, scanEntries entries index = some (entry, index + (n + 1)) ∧
        n < entries.length ∧ bindings entries = entry :: bindings (entries.drop (n + 1)) := by
  induction entries generalizing index with
  | nil => exact Or.inl ⟨rfl, rfl⟩
  | cons s entries ih =>
    have hskip : scanEntries (s :: entries) index = scanEntries entries (index + 1) →
        bindings (s :: entries) = bindings entries →
        (scanEntries (s :: entries) index = none ∧ bindings (s :: entries) = []) ∨
          ∃ entry n, scanEntries (s :: entries) index = some (entry, index + (n + 1)) ∧
            n < (s :: entries).length ∧
            bindings (s :: entries) = entry :: bindings ((s :: entries).drop (n + 1)) := by
      intro hscan hbindings
      rw [hscan, hbindings]
      rcases ih (index + 1) with hnone | ⟨entry, n, hsome, hn, hrest⟩
      · exact Or.inl hnone
      · refine Or.inr ⟨entry, n + 1, ?_, Nat.succ_lt_succ hn, hrest⟩
        rw [hsome, Nat.add_assoc, Nat.add_comm 1]
    cases s with
    | unused => exact hskip rfl rfl
    | tombstone => exact hskip rfl rfl
    | live key value => exact Or.inr ⟨(key, value), 0, rfl, Nat.succ_pos _, rfl⟩

omit [DecidableEq K] in
theorem iterate_eq {table : Pkghash K V} (hcount : table.count ≠ 0) (fuel index : Nat)
    (hfuel : table.capacity < fuel + index) :
    iterate table fuel index = bindings (table.entries.drop index) := by
  induction fuel generalizing index with
  | zero =>
    have hle : table.entries.length ≤ index := by
      have hlt : table.entries.length < 0 + index := hfuel
      omega
    rw [List.drop_of_length_le hle]
    rfl
  | succ fuel ih =>
    have hnext : pkghashNext table index = scanEntries (table.entries.drop index) index :=
      if_neg hcount
    unfold iterate
    rw [hnext]
    rcases scanEntries_spec (table.entries.drop index) index with
      ⟨hnone, hempty⟩ | ⟨entry, n, hsome, -, hrest⟩
    · rw [hnone, hempty]
    · rw [hsome, hrest, List.drop_drop]
      dsimp only
      rw [ih (index + (n + 1)) (by omega)]

omit [DecidableEq K] in
theorem iterate_all {hash : K → UInt64} {table : Pkghash K V} (h : table.Inv hash) {fuel : Nat}
    (hfuel : table.capacity < fuel) : iterate table fuel 0 = bindings table.entries := by
  by_cases hcount : table.count = 0
  · have hlength : (bindings table.entries).length = 0 := by
      rw [length_bindings, ← h.count_eq, hcount]
    rw [List.eq_nil_of_length_eq_zero hlength]
    have hnext : pkghashNext table 0 = none := if_pos hcount
    cases fuel with
    | zero => rfl
    | succ fuel =>
      unfold iterate
      rw [hnext]
  · exact iterate_eq hcount fuel 0 hfuel

structure Refines (hash : K → UInt64) (table : Pkghash K V) (map : K → Option V) : Prop where
  get_none : ∀ key, pkghashGet hash table key = none ↔ map key = none
  get_value : ∀ key, pkghashGetValue hash table key = map key
  visits : ∀ fuel, table.capacity < fuel →
    ((iterate table fuel 0).map Prod.fst).Nodup ∧
      (∀ k v, (k, v) ∈ iterate table fuel 0 ↔ map k = some v) ∧
      pkghashCount table = (iterate table fuel 0).length

theorem Represents.refines {hash : K → UInt64} {table : Pkghash K V} {map : K → Option V}
    (h : table.Inv hash) (hmap : Represents table map) : Refines hash table map := by
  refine ⟨fun key => ?_, pkghashGetValue_eq h hmap, fun fuel hfuel => ?_⟩
  · rw [pkghashGet_eq_none_iff h, hmap.none_iff]
  · rw [iterate_all h hfuel]
    refine ⟨h.placed.nodup, fun k v => ?_, ?_⟩
    · rw [mem_bindings, hmap]
    · rw [length_bindings]
      exact h.count_eq

def run (hash : K → UInt64) (table : Pkghash K V) : List (Op K V) → Pkghash K V × List (Answer V)
  | [] => (table, [])
  | op :: ops =>
    let (table, answer) := call hash table op
    let (table, answers) := run hash table ops
    (table, answer :: answers)

def mapRun (map : K → Option V) : List (Op K V) → (K → Option V) × List (Answer V)
  | [] => (map, [])
  | op :: ops =>
    let (map, answer) := mapCall map op
    let (map, answers) := mapRun map ops
    (map, answer :: answers)

def soundRun (hash : K → UInt64) (table : Pkghash K V) : List (Op K V) → Bool
  | [] => true
  | op :: ops => sound hash table op && soundRun hash (call hash table op).1 ops

theorem run_represents {hash : K → UInt64} {table : Pkghash K V} {map : K → Option V}
    (h : table.Inv hash) (hmap : Represents table map) (ops : List (Op K V))
    (hsound : soundRun hash table ops = true) :
    (run hash table ops).1.Inv hash ∧
      Represents (run hash table ops).1 (mapRun map ops).1 ∧
      (run hash table ops).2 = (mapRun map ops).2 := by
  induction ops generalizing table map with
  | nil => exact ⟨h, hmap, rfl⟩
  | cons op ops ih =>
    obtain ⟨hop, hops⟩ := (Bool.and_eq_true_iff).mp hsound
    obtain ⟨hinv, hstep, hanswer⟩ := call_step h hmap op hop
    obtain ⟨hinv', hrun, hanswers⟩ := ih hinv hstep hops
    exact ⟨hinv', hrun, congrArg₂ List.cons hanswer hanswers⟩

/-- A run from a new table in which no deleted slot hides a key from `pkghash_add` cannot be told
from the same run of a finite map. -/
theorem run_refines (hash : K → UInt64) (ops : List (Op K V))
    (hsound : soundRun hash pkghashNew ops = true) :
    (run hash pkghashNew ops).2 = (mapRun (fun _ => none) ops).2 ∧
      Refines hash (run hash pkghashNew ops).1 (mapRun (fun _ => none) ops).1 := by
  obtain ⟨hinv, hnone⟩ := pkghashNew_inv (V := V) hash
  have hempty : Represents (pkghashNew (K := K) (V := V)) (fun _ => none) :=
    fun k v => ⟨nofun, fun hv => absurd hv (hnone k v)⟩
  obtain ⟨hinv', hmap, hanswers⟩ := run_represents hinv hempty ops hsound
  exact ⟨hanswers, hmap.refines hinv'⟩

/-- Two keys on one path, one of them taken out and put in again. -/
theorem run_refines_collision :
    (run (fun _ : Nat => 5) pkghashNew
        [.add 1 'a', .add 2 'b', .del 1, .add 1 'c', .add 2 'd', .get 1]).2 =
      (mapRun (fun _ => none)
        [.add 1 'a', .add 2 'b', .del 1, .add 1 'c', .add 2 'd', .get (1 : Nat)]).2 ∧
      Refines (fun _ : Nat => 5)
        (run (fun _ : Nat => 5) pkghashNew
          [.add 1 'a', .add 2 'b', .del 1, .add 1 'c', .add 2 'd', .get 1]).1
        (mapRun (fun _ => none)
          [.add 1 'a', .add 2 'b', .del 1, .add 1 'c', .add 2 'd', .get 1]).1 :=
  run_refines (fun _ : Nat => 5)
    [.add 1 'a', .add 2 'b', .del 1, .add 1 'c', .add 2 'd', .get 1] (by decide +kernel)

/-- The first of two colliding keys is deleted and the second added again. -/
theorem run_duplicate : ¬ ∀ (hash : Nat → UInt64) (ops : List (Op Nat Char)),
    (run hash pkghashNew ops).2 = (mapRun (fun _ => none) ops).2 := by
  intro h
  exact absurd (h (fun _ => 5) [.add 1 'a', .add 2 'b', .del 1, .add 2 'c'])
    (by decide +kernel)

end Refinement

end NextBSD.Libpkg
