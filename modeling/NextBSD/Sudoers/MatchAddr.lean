import NextBSD.Library.Netmask
import NextBSD.Util.InetPton
import NextBSD.Util.StrtonumExact

/-!
# match_addr.c: networks

An IPv4 address is a word in network order, an IPv6 address its bytes.
-/

namespace NextBSD.Sudoers.MatchAddr

open Netmask
open Util (In6Addr inetPton4 inetPton6 sudoStrtonum Denotes)
open Iolog (Bytes)

/-- `union sudo_in_addr_un` with the family. -/
inductive Address where
  | ip4 (s_addr : BitVec 32)
  | ip6 (addr : In6Addr)
  deriving DecidableEq, Repr

inductive Interface where
  | inet (addr netmask : BitVec 32)
  | inet6 (addr netmask : In6Addr)
  deriving DecidableEq, Repr

def inAddr (octets : List UInt8) : BitVec 32 :=
  octets.foldl (fun word b => word <<< 8 ||| b.toBitVec.setWidth 32) 0

def address (n : Bytes) : Option Address :=
  match inetPton6 n with
  | some addr => some (.ip6 addr)
  | none => (inetPton4 n).map fun octets => .ip4 (inAddr octets)

def andBytes (addr mask : List UInt8) : List UInt8 := List.zipWith (· &&& ·) addr mask

def addrMatchesIf (interfaces : List Interface) (n : Bytes) : Bool :=
  match address n with
  | none => false
  | some (.ip4 addr) =>
    interfaces.any fun
      | .inet ifaddr netmask => ifaddr = addr || ifaddr &&& netmask = addr
      | .inet6 _ _ => false
  | some (.ip6 addr) =>
    interfaces.any fun
      | .inet _ _ => false
      | .inet6 ifaddr netmask =>
        ifaddr.s6_addr = addr.s6_addr || andBytes ifaddr.s6_addr netmask.s6_addr = addr.s6_addr

/-- A prefix length; nothing where `sudo_strtonum` reports an error. -/
def prefixLength (m : Bytes) (width : Int) : Option Nat :=
  match sudoStrtonum m 1 width with
  | some answer => if answer.errstr = none then some answer.value.toNat else none
  | none => none

def netmask4 (m : Bytes) : Option (BitVec 32) :=
  if 46 ∈ m then (inetPton4 m).map inAddr
  else (prefixLength m 32).map fun i => BitVec.allOnes 32 <<< (32 - i)

def prefixByte (j i : Nat) : UInt8 :=
  if j < i * 8 then 0 else if i * 8 + 8 ≤ j then 0xff else UInt8.ofNat (0xff00 >>> (j - i * 8))

def prefixBytes (j : Nat) : List UInt8 := (List.range 16).map (prefixByte j)

/-- The mask, and the address with which the interfaces are compared under it. -/
def netmask6 (addr : List UInt8) (m : Bytes) : Option (List UInt8 × List UInt8) :=
  match inetPton6 m with
  | some mask => some (mask.s6_addr, addr)
  | none => (prefixLength m 128).map fun j => (prefixBytes j, andBytes addr (prefixBytes j))

def addrMatchesIfNetmask (interfaces : List Interface) (n m : Bytes) : Bool :=
  match address n with
  | none => false
  | some (.ip4 addr) =>
    match netmask4 m with
    | none => false
    | some mask =>
      interfaces.any fun
        | .inet ifaddr _ => ifaddr &&& mask = addr &&& mask
        | .inet6 _ _ => false
  | some (.ip6 addr) =>
    match netmask6 addr.s6_addr m with
    | none => false
    | some (mask, addr) =>
      interfaces.any fun
        | .inet _ _ => false
        | .inet6 ifaddr _ => andBytes ifaddr.s6_addr mask = addr

/-- `addr_matches`, with `true` for `ALLOW`. -/
def addrMatches (interfaces : List Interface) (n : Bytes) : Bool :=
  if 47 ∈ n then
    addrMatchesIfNetmask interfaces (n.takeWhile (· ≠ 47)) (n.dropWhile (· ≠ 47)).tail
  else addrMatchesIf interfaces n

def Address.width : Address → Nat
  | .ip4 _ => 32
  | .ip6 _ => 128

def Address.bits : Address → List Bool
  | .ip4 s_addr => bitsOf s_addr
  | .ip6 addr => bytesBits addr.s6_addr

def Interface.address : Interface → Address
  | .inet addr _ => .ip4 addr
  | .inet6 addr _ => .ip6 addr

def OnNetwork (interfaces : List Interface) (addr : Address) (mask : List Bool) : Prop :=
  ∃ ifp ∈ interfaces, ifp.address.width = addr.width ∧
    masked ifp.address.bits mask = masked addr.bits mask

def PrefixText (addr : Address) (m : Bytes) (n : Nat) : Prop := Denotes m n [] ∧ n ≤ addr.width

def AddressText (addr : Address) (m : Bytes) (mask : List Bool) : Prop :=
  match addr with
  | .ip4 _ => ∃ octets, inetPton4 m = some octets ∧ mask = bitsOf (inAddr octets)
  | .ip6 _ => ∃ mask6, inetPton6 m = some mask6 ∧ mask = bytesBits mask6.s6_addr

def NetmaskText (addr : Address) (m : Bytes) (mask : List Bool) : Prop :=
  (∃ n, PrefixText addr m n ∧ mask = leading n addr.width) ∨ AddressText addr m mask

/-- `addr_matches` tells whether an interface is on the network. -/
def OneMeaning (interfaces : List Interface) (n m : Bytes) (addr : Address) (mask : List Bool) :
    Prop :=
  addrMatches interfaces (n ++ 47 :: m) = true ↔ OnNetwork interfaces addr mask

/-- The prefix length 0, which is refused, and an explicit IPv6 mask that leaves out bits of the
address, which is not masked then. -/
def Missed (addr : Address) (m : Bytes) (mask : List Bool) : Prop :=
  PrefixText addr m 0 ∨
    ∃ addr6, addr = .ip6 addr6 ∧ AddressText addr m mask ∧ masked addr.bits mask ≠ addr.bits

theorem denotes_unique {m : Bytes} {v w : Int} (h : Denotes m v []) (h' : Denotes m w []) :
    v = w := by
  obtain ⟨negative, digits, hparts, -, rfl⟩ := h
  exact ((Util.denotes_iff hparts).mp h').2.2.symm

theorem denotes_text {m : Bytes} {v : Int} (h : Denotes m v []) : 46 ∉ m ∧ 58 ∉ m := by
  obtain ⟨negative, digits, ⟨blanks, sign, rfl, hblanks, hsign, hdigits, -, -⟩, -, -⟩ := h
  have hplain : ∀ c ∈ blanks ++ (sign ++ (Iolog.digitText digits ++ [])), c ≠ 46 ∧ c ≠ 58 := by
    intro c hc
    rw [List.append_nil, List.mem_append, List.mem_append] at hc
    rcases hc with hc | hc | hc
    · have hspace := hblanks c hc
      constructor <;> rintro rfl <;> exact absurd hspace (by decide)
    · rcases hsign with ⟨-, rfl⟩ | ⟨-, rfl | rfl⟩
      · rw [List.mem_singleton.mp hc]
        decide
      · exact absurd hc List.not_mem_nil
      · rw [List.mem_singleton.mp hc]
        decide
    · have hdigit := Util.isdigit_of_mem_digitText hdigits hc
      constructor <;> rintro rfl <;> exact absurd hdigit (by decide)
  exact ⟨fun h => (hplain 46 h).1 rfl, fun h => (hplain 58 h).2 rfl⟩

theorem prefixLength_eq {m : Bytes} {n : Nat} {width : Int} (h : Denotes m n [])
    (hle : (n : Int) ≤ width) (hwidth : 1 ≤ width ∧ width ≤ 128) :
    prefixLength m width = if n = 0 then none else some n := by
  have hexact : Util.Exact m 1 width := by
    refine (Util.exact_iff (by decide) (by omega) hwidth.1).mpr ⟨?_, ?_⟩
    · rintro ⟨-, negative, hparts, -⟩
      exact ((Util.denotes_iff hparts).mp h).2.1 rfl
    · rintro ⟨negative, digits, hparts, -, hout, hfar, -⟩
      have hvalue := ((Util.denotes_iff hparts).mp h).2.2
      rw [← hvalue] at hfar
      cases negative with
      | true =>
        have hneg : width < 0 := hout
        omega
      | false =>
        have hbig : width < n := hfar
        omega
  obtain ⟨answer, hsome, htells⟩ := hexact
  unfold prefixLength
  rw [hsome]
  dsimp only
  by_cases hzero : n = 0
  · rw [if_pos hzero, if_neg]
    intro hnone
    obtain ⟨hdenotes, hone, -⟩ := (htells.success answer.value).mp ⟨hnone, rfl⟩
    have hvalue := denotes_unique h hdenotes
    omega
  · obtain ⟨hnone, hvalue⟩ := (htells.success n).mpr ⟨h, by omega, hle⟩
    rw [if_neg hzero, if_pos hnone, hvalue, Int.toNat_natCast]

theorem length_prefixBytes (j : Nat) : (prefixBytes j).length = 16 := by
  unfold prefixBytes
  rw [List.length_map, List.length_range]

theorem prefixByte_succ (j i : Nat) : prefixByte j (i + 1) = prefixByte (j - 8) i := by
  unfold prefixByte
  by_cases h : j < 8
  · have hzero : j - 8 = 0 := by omega
    rw [if_pos (by omega), hzero]
    cases i with
    | zero => rfl
    | succ i => rw [if_pos (by omega)]
  · have hlow : j < (i + 1) * 8 ↔ j - 8 < i * 8 := by omega
    have hhigh : (i + 1) * 8 + 8 ≤ j ↔ i * 8 + 8 ≤ j - 8 := by omega
    have hshift : j - (i + 1) * 8 = j - 8 - i * 8 := by omega
    simp only [hlow, hhigh, hshift]

theorem bitsOf_prefixByte (j : Nat) : bitsOf (prefixByte j 0).toBitVec = leading j 8 := by
  by_cases h : j < 8
  · have hall : ∀ j < 8, bitsOf (prefixByte j 0).toBitVec = leading j 8 := by decide
    exact hall j h
  · have hbyte : prefixByte j 0 = 0xff := by
      unfold prefixByte
      rw [if_neg (by omega), if_pos (by omega)]
    have hmin : min j 8 = 8 ∧ 8 - j = 0 := by omega
    unfold leading
    rw [hbyte, hmin.1, hmin.2]
    decide

theorem bytesBits_prefixByte (j k : Nat) :
    bytesBits ((List.range k).map (prefixByte j)) = leading j (8 * k) := by
  induction k generalizing j with
  | zero =>
    unfold leading
    rw [Nat.mul_zero, Nat.min_zero, Nat.zero_sub]
    rfl
  | succ k ih =>
    have hsucc : (List.map Nat.succ (List.range k)).map (prefixByte j) =
        (List.range k).map (prefixByte (j - 8)) := by
      rw [List.map_map]
      exact List.map_congr_left fun i _ => prefixByte_succ j i
    rw [List.range_succ_eq_map, List.map_cons, bytesBits_cons, hsucc, ih (j - 8),
      bitsOf_prefixByte, Nat.mul_add, Nat.add_comm (8 * k), ← leading_add]

theorem bytesBits_prefixBytes (j : Nat) : bytesBits (prefixBytes j) = leading j 128 :=
  bytesBits_prefixByte j 16

/-! ## What the comparison means -/

theorem sameWidth_ip4 {ifp : Interface} {s_addr : BitVec 32} :
    ifp.address.width = (Address.ip4 s_addr).width ↔ ∃ ifaddr netmask, ifp = .inet ifaddr netmask := by
  cases ifp with
  | inet ifaddr netmask => exact iff_of_true rfl ⟨ifaddr, netmask, rfl⟩
  | inet6 ifaddr netmask =>
    refine iff_of_false (show ¬ (128 = 32) by decide) ?_
    rintro ⟨ifaddr', netmask', h⟩
    exact Interface.noConfusion h

theorem sameWidth_ip6 {ifp : Interface} {addr : In6Addr} :
    ifp.address.width = (Address.ip6 addr).width ↔ ∃ ifaddr netmask, ifp = .inet6 ifaddr netmask := by
  cases ifp with
  | inet6 ifaddr netmask => exact iff_of_true rfl ⟨ifaddr, netmask, rfl⟩
  | inet ifaddr netmask =>
    refine iff_of_false (show ¬ (32 = 128) by decide) ?_
    rintro ⟨ifaddr', netmask', h⟩
    exact Interface.noConfusion h

theorem any_ip4_iff {interfaces : List Interface} {addr mask : BitVec 32} :
    (interfaces.any fun
        | .inet ifaddr _ => ifaddr &&& mask = addr &&& mask
        | .inet6 _ _ => false) = true ↔
      OnNetwork interfaces (.ip4 addr) (bitsOf mask) := by
  rw [List.any_eq_true]
  unfold OnNetwork
  refine exists_congr fun ifp => and_congr_right fun _ => ?_
  cases ifp with
  | inet ifaddr netmask =>
    rw [decide_eq_true_iff, and_iff_right (sameWidth_ip4.mpr ⟨ifaddr, netmask, rfl⟩)]
    show _ ↔ masked (bitsOf ifaddr) (bitsOf mask) = masked (bitsOf addr) (bitsOf mask)
    rw [← bitsOf_and, ← bitsOf_and, bitsOf_inj]
  | inet6 ifaddr netmask =>
    refine iff_of_false Bool.false_ne_true fun h => ?_
    obtain ⟨ifaddr', netmask', heq⟩ := sameWidth_ip4.mp h.1
    exact Interface.noConfusion heq

theorem any_ip6_iff {interfaces : List Interface} {addr6 : In6Addr} {mask addr : List UInt8}
    (hmask : mask.length = 16) (haddr : addr.length = 16) :
    (interfaces.any fun
        | .inet _ _ => false
        | .inet6 ifaddr _ => andBytes ifaddr.s6_addr mask = addr) = true ↔
      ∃ ifp ∈ interfaces, ifp.address.width = (Address.ip6 addr6).width ∧
        masked ifp.address.bits (bytesBits mask) = bytesBits addr := by
  rw [List.any_eq_true]
  refine exists_congr fun ifp => and_congr_right fun _ => ?_
  cases ifp with
  | inet ifaddr netmask =>
    refine iff_of_false Bool.false_ne_true fun h => ?_
    obtain ⟨ifaddr', netmask', heq⟩ := sameWidth_ip6.mp h.1
    exact Interface.noConfusion heq
  | inet6 ifaddr netmask =>
    have hlength : ifaddr.s6_addr.length = mask.length := ifaddr.size.trans hmask.symm
    have hand : (andBytes ifaddr.s6_addr mask).length = addr.length := by
      unfold andBytes
      rw [List.length_zipWith, hlength, Nat.min_self, hmask, haddr]
    rw [decide_eq_true_iff, and_iff_right (sameWidth_ip6.mpr ⟨ifaddr, netmask, rfl⟩)]
    show _ ↔ masked (bytesBits ifaddr.s6_addr) (bytesBits mask) = bytesBits addr
    rw [← bytesBits_and hlength]
    exact (bytesBits_inj hand).symm

theorem slash_not_mem {n : Bytes} {addr : Address} (h : address n = some addr) : 47 ∉ n := by
  unfold address at h
  cases h6 : inetPton6 n with
  | some addr6 => exact (Util.inetPton6_text h6).1
  | none =>
    rw [h6] at h
    obtain ⟨octets, hoctets, -⟩ := Option.map_eq_some_iff.mp h
    intro hmem
    rcases (Util.inetPton4_text hoctets).1 47 hmem with hdigit | hdot
    · exact absurd hdigit (by decide)
    · exact absurd hdot (by decide)

theorem addrMatches_slash {interfaces : List Interface} {n m : Bytes} (h : 47 ∉ n) :
    addrMatches interfaces (n ++ 47 :: m) = addrMatchesIfNetmask interfaces n m := by
  have hall : ∀ c ∈ n, decide (c ≠ 47) = true := fun c hc => decide_eq_true fun heq => h (heq ▸ hc)
  have hstop : ¬ decide ((47 : UInt8) ≠ 47) = true := by decide
  unfold addrMatches
  rw [if_pos (List.mem_append_right n List.mem_cons_self), List.takeWhile_append_of_pos hall,
    List.dropWhile_append_of_pos hall, List.takeWhile_cons, if_neg hstop, List.append_nil,
    List.dropWhile_cons, if_neg hstop, List.tail_cons]

theorem addrMatches_ip4 {interfaces : List Interface} {n m : Bytes} {addr : BitVec 32}
    (h : address n = some (.ip4 addr)) :
    addrMatches interfaces (n ++ 47 :: m) = true ↔
      ∃ mask, netmask4 m = some mask ∧ OnNetwork interfaces (.ip4 addr) (bitsOf mask) := by
  rw [addrMatches_slash (slash_not_mem h)]
  unfold addrMatchesIfNetmask
  rw [h]
  dsimp only
  cases netmask4 m with
  | none =>
    refine iff_of_false Bool.false_ne_true ?_
    rintro ⟨mask, hnone, -⟩
    exact Option.some_ne_none _ hnone.symm
  | some mask =>
    refine any_ip4_iff.trans ⟨fun hon => ⟨mask, rfl, hon⟩, ?_⟩
    rintro ⟨mask', hsome, hon⟩
    obtain rfl := Option.some.inj hsome
    exact hon

theorem addrMatches_ip6 {interfaces : List Interface} {n m : Bytes} {addr6 : In6Addr}
    (h : address n = some (.ip6 addr6)) {mask addr : List UInt8}
    (hmask : netmask6 addr6.s6_addr m = some (mask, addr)) (hsize : mask.length = 16)
    (hsize' : addr.length = 16) :
    addrMatches interfaces (n ++ 47 :: m) = true ↔
      ∃ ifp ∈ interfaces, ifp.address.width = (Address.ip6 addr6).width ∧
        masked ifp.address.bits (bytesBits mask) = bytesBits addr := by
  rw [addrMatches_slash (slash_not_mem h)]
  unfold addrMatchesIfNetmask
  rw [h]
  dsimp only
  rw [hmask]
  exact any_ip6_iff hsize hsize'

theorem addrMatches_ip6_none {interfaces : List Interface} {n m : Bytes} {addr6 : In6Addr}
    (h : address n = some (.ip6 addr6)) (hmask : netmask6 addr6.s6_addr m = none) :
    addrMatches interfaces (n ++ 47 :: m) = false := by
  rw [addrMatches_slash (slash_not_mem h)]
  unfold addrMatchesIfNetmask
  rw [h]
  dsimp only
  rw [hmask]

theorem inetPton6_denotes {m : Bytes} {v : Int} (h : Denotes m v []) : inetPton6 m = none := by
  cases h6 : inetPton6 m with
  | none => rfl
  | some addr => exact absurd (Util.inetPton6_text h6).2 (denotes_text h).2

theorem prefix_iff {interfaces : List Interface} {n m : Bytes} {addr : Address} {k : Nat}
    (haddr : address n = some addr) (h : PrefixText addr m k) :
    addrMatches interfaces (n ++ 47 :: m) = true ↔
      k ≠ 0 ∧ OnNetwork interfaces addr (leading k addr.width) := by
  obtain ⟨hdenotes, hle⟩ := h
  cases addr with
  | ip4 s_addr =>
    change k ≤ 32 at hle
    have hmask : netmask4 m =
        if k = 0 then none else some (BitVec.allOnes 32 <<< (32 - k)) := by
      unfold netmask4
      rw [if_neg (denotes_text hdenotes).1, prefixLength_eq hdenotes (by omega) (by decide)]
      split_ifs <;> rfl
    rw [addrMatches_ip4 haddr, hmask]
    by_cases hzero : k = 0
    · rw [if_pos hzero]
      refine iff_of_false ?_ fun hno => hno.1 hzero
      rintro ⟨mask, hnone, -⟩
      exact Option.some_ne_none _ hnone.symm
    · rw [if_neg hzero, and_iff_right hzero]
      show _ ↔ OnNetwork interfaces (.ip4 s_addr) (leading k 32)
      rw [← bitsOf_shiftLeft hle]
      constructor
      · rintro ⟨mask, hsome, hon⟩
        obtain rfl := Option.some.inj hsome
        exact hon
      · exact fun hon => ⟨_, rfl, hon⟩
  | ip6 addr6 =>
    change k ≤ 128 at hle
    have hlength : prefixLength m 128 = if k = 0 then none else some k :=
      prefixLength_eq hdenotes (by omega) (by decide)
    by_cases hzero : k = 0
    · have hmask : netmask6 addr6.s6_addr m = none := by
        unfold netmask6
        rw [inetPton6_denotes hdenotes]
        dsimp only
        rw [hlength, if_pos hzero, Option.map_none]
      rw [addrMatches_ip6_none haddr hmask]
      exact iff_of_false Bool.false_ne_true fun hno => hno.1 hzero
    · have hmask : netmask6 addr6.s6_addr m =
          some (prefixBytes k, andBytes addr6.s6_addr (prefixBytes k)) := by
        unfold netmask6
        rw [inetPton6_denotes hdenotes]
        dsimp only
        rw [hlength, if_neg hzero, Option.map_some]
      have hsize : addr6.s6_addr.length = (prefixBytes k).length :=
        addr6.size.trans (length_prefixBytes k).symm
      have hsize' : (andBytes addr6.s6_addr (prefixBytes k)).length = 16 := by
        unfold andBytes
        rw [List.length_zipWith, hsize, Nat.min_self, length_prefixBytes]
      rw [addrMatches_ip6 haddr hmask (length_prefixBytes k) hsize', and_iff_right hzero]
      show _ ↔ OnNetwork interfaces (.ip6 addr6) (leading k 128)
      unfold OnNetwork andBytes
      rw [bytesBits_and hsize, bytesBits_prefixBytes]
      rfl

theorem explicit_text {addr : Address} {m : Bytes} {mask : List Bool}
    (h : AddressText addr m mask) : ¬ ∃ k, PrefixText addr m k := by
  rintro ⟨k, hdenotes, -⟩
  obtain ⟨hdot, hcolon⟩ := denotes_text hdenotes
  cases addr with
  | ip4 s_addr =>
    obtain ⟨octets, hoctets, -⟩ := h
    exact hdot (Util.inetPton4_text hoctets).2.1
  | ip6 addr6 =>
    obtain ⟨mask6, hmask6, -⟩ := h
    exact hcolon (Util.inetPton6_text hmask6).2

theorem explicit4_iff {interfaces : List Interface} {n m : Bytes} {addr : BitVec 32}
    {mask : List Bool} (haddr : address n = some (.ip4 addr))
    (h : AddressText (.ip4 addr) m mask) :
    addrMatches interfaces (n ++ 47 :: m) = true ↔ OnNetwork interfaces (.ip4 addr) mask := by
  obtain ⟨octets, hoctets, rfl⟩ := h
  have hmask : netmask4 m = some (inAddr octets) := by
    unfold netmask4
    rw [if_pos (Util.inetPton4_text hoctets).2.1, hoctets, Option.map_some]
  rw [addrMatches_ip4 haddr, hmask]
  constructor
  · rintro ⟨mask, hsome, hon⟩
    obtain rfl := Option.some.inj hsome
    exact hon
  · exact fun hon => ⟨_, rfl, hon⟩

theorem explicit6_iff {interfaces : List Interface} {n m : Bytes} {addr6 : In6Addr}
    {mask : List Bool} (haddr : address n = some (.ip6 addr6))
    (h : AddressText (.ip6 addr6) m mask) :
    addrMatches interfaces (n ++ 47 :: m) = true ↔
      masked (bytesBits addr6.s6_addr) mask = bytesBits addr6.s6_addr ∧
        OnNetwork interfaces (.ip6 addr6) mask := by
  obtain ⟨mask6, hmask6, rfl⟩ := h
  have hmask : netmask6 addr6.s6_addr m = some (mask6.s6_addr, addr6.s6_addr) := by
    unfold netmask6
    rw [hmask6]
  rw [addrMatches_ip6 haddr hmask mask6.size addr6.size]
  constructor
  · rintro ⟨ifp, hifp, hwidth, heq⟩
    have hwhole := masked_of_masked_eq heq
    exact ⟨hwhole, ifp, hifp, hwidth, heq.trans hwhole.symm⟩
  · rintro ⟨hwhole, ifp, hifp, hwidth, heq⟩
    exact ⟨ifp, hifp, hwidth, heq.trans hwhole⟩

/-- Both families and both notations mean the same network, except where an interface is on it
and the rule has the prefix length 0, or an explicit IPv6 mask and bits outside it. -/
theorem addrMatches_iff {interfaces : List Interface} {n m : Bytes} {addr : Address}
    {mask : List Bool} (haddr : address n = some addr) (hmask : NetmaskText addr m mask) :
    OneMeaning interfaces n m addr mask ↔
      (Missed addr m mask → ¬ OnNetwork interfaces addr mask) := by
  unfold OneMeaning
  rcases hmask with ⟨k, hprefix, rfl⟩ | hexplicit
  · have hmissed : Missed addr m (leading k addr.width) ↔ k = 0 := by
      constructor
      · rintro (⟨hzero, -⟩ | ⟨addr6, rfl, hexplicit, -⟩)
        · exact Int.ofNat_inj.mp (denotes_unique hprefix.1 hzero)
        · exact absurd ⟨k, hprefix⟩ (explicit_text hexplicit)
      · rintro rfl
        exact Or.inl hprefix
    rw [prefix_iff haddr hprefix, hmissed]
    by_cases hzero : k = 0
    · constructor
      · exact fun h _ hon => (h.mpr hon).1 hzero
      · exact fun h => iff_of_false (fun hno => hno.1 hzero) (h hzero)
    · rw [and_iff_right hzero]
      exact iff_of_true Iff.rfl fun hno => absurd hno hzero
  · have hnoprefix : ¬ PrefixText addr m 0 := fun hzero => explicit_text hexplicit ⟨0, hzero⟩
    cases addr with
    | ip4 s_addr =>
      rw [explicit4_iff haddr hexplicit]
      refine iff_of_true Iff.rfl fun hmissed => ?_
      rcases hmissed with hzero | ⟨addr6, heq, -⟩
      · exact absurd hzero hnoprefix
      · exact Address.noConfusion heq
    | ip6 addr6 =>
      have hmissed : Missed (.ip6 addr6) m mask ↔
          masked (bytesBits addr6.s6_addr) mask ≠ bytesBits addr6.s6_addr := by
        constructor
        · rintro (hzero | ⟨addr6', -, -, hne⟩)
          · exact absurd hzero hnoprefix
          · exact hne
        · exact fun hne => Or.inr ⟨addr6, rfl, hexplicit, hne⟩
      rw [explicit6_iff haddr hexplicit, hmissed]
      by_cases hwhole : masked (bytesBits addr6.s6_addr) mask = bytesBits addr6.s6_addr
      · rw [and_iff_right hwhole]
        exact iff_of_true Iff.rfl fun hne => absurd hwhole hne
      · constructor
        · exact fun h _ hon => hwhole (h.mpr hon).1
        · exact fun h => iff_of_false (fun hno => hwhole hno.1) (h hwhole)

/-- An interface `10.0.0.1` is on the network `10.0.0.7/24`. -/
theorem oneMeaning_24 :
    OneMeaning [.inet 0x0a000001 0xffffff00] [49, 48, 46, 48, 46, 48, 46, 55] [50, 52]
        (.ip4 0x0a000007) (leading 24 32) ∧
      addrMatches [.inet 0x0a000001 0xffffff00]
        ([49, 48, 46, 48, 46, 48, 46, 55] ++ 47 :: [50, 52]) = true := by
  have hparts : Util.Parts [50, 52] false [2, 4] [] := Util.parts_eq_iff.mp (by decide)
  have hdenotes : Denotes [50, 52] 24 [] := ⟨false, [2, 4], hparts, by decide, by decide⟩
  have hmask : NetmaskText (.ip4 0x0a000007) [50, 52] (leading 24 32) :=
    Or.inl ⟨24, ⟨hdenotes, by decide⟩, rfl⟩
  refine ⟨(addrMatches_iff (by decide) hmask).mpr fun hmissed => ?_, by decide⟩
  rcases hmissed with ⟨hzero, -⟩ | ⟨addr6, heq, -⟩
  · exact absurd (denotes_unique hdenotes hzero) (by decide)
  · exact Address.noConfusion heq

def local6 : In6Addr :=
  { s6_addr := [0xfd, 0, 0, 0, 0, 0, 0, 0, 0, 0, 0, 0, 0, 0, 0, 1], size := rfl }

def host6 : In6Addr :=
  { s6_addr := [0xfd, 0, 0, 0, 0, 0, 0, 0, 0, 0, 0, 0, 0, 0, 0, 5], size := rfl }

def mask6 : In6Addr :=
  { s6_addr := [0xff, 0xff, 0, 0, 0, 0, 0, 0, 0, 0, 0, 0, 0, 0, 0, 0], size := rfl }

/-- The interface `fd00::1` is on the network `fd00::5/16`, and it is not found on
`fd00::5/ffff::`. -/
theorem not_oneMeaning_ip6 :
    address [102, 100, 48, 48, 58, 58, 53] = some (.ip6 host6) ∧
      NetmaskText (.ip6 host6) [102, 102, 102, 102, 58, 58] (leading 16 128) ∧
      NetmaskText (.ip6 host6) [49, 54] (leading 16 128) ∧
      addrMatches [.inet6 local6 mask6] ([102, 100, 48, 48, 58, 58, 53] ++ 47 :: [49, 54]) = true ∧
      ¬ OneMeaning [.inet6 local6 mask6] [102, 100, 48, 48, 58, 58, 53]
        [102, 102, 102, 102, 58, 58] (.ip6 host6) (leading 16 128) := by
  have hparts : Util.Parts [49, 54] false [1, 6] [] := Util.parts_eq_iff.mp (by decide)
  have hdenotes : Denotes [49, 54] 16 [] := ⟨false, [1, 6], hparts, by decide, by decide⟩
  refine ⟨by decide, Or.inr ⟨mask6, by decide, by decide⟩,
    Or.inl ⟨16, ⟨hdenotes, by decide⟩, rfl⟩, by decide, fun hone => ?_⟩
  have hfound := hone.mpr ⟨.inet6 local6 mask6, List.mem_cons_self, rfl, by decide⟩
  exact absurd hfound (by decide)

end NextBSD.Sudoers.MatchAddr
