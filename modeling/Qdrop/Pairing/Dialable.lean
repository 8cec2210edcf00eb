import Mathlib.Data.List.Lex
import Mathlib.Data.Nat.Bitwise
import Qdrop.Lib.SortDedup

/-!
# The addresses a pairing request tries (`qdrop-core/src/pairing.rs`)

`sorted_dialable` puts the addresses that mDNS found for a name into the order in which they are tried.  They come in
the order of a hash set; `sorted_dialable_canonical` says that this order does not matter.
-/

namespace Qdrop.StdNet

open Lib (sorted dedupAdjacent sortedByKey canonical canonical_congr canonical_strict eq_of_strict mem_canonical
  nodup_of_strict)

/-! ### Socket addresses -/

/-- `std::net::IpAddr`: four octets, or eight segments. -/
inductive IpAddr where
  | v4 (octets : Vector UInt8 4)
  | v6 (segments : Vector UInt16 8)
deriving DecidableEq

/-- `std::net::SocketAddr`. -/
inductive SocketAddr where
  | v4 (octets : Vector UInt8 4) (port : UInt16)
  | v6 (segments : Vector UInt16 8) (port : UInt16) (flowinfo scopeId : UInt32)

def SocketAddr.ip : SocketAddr → IpAddr
  | .v4 octets _ => .v4 octets
  | .v6 segments .. => .v6 segments

/-- What the derived order compares, one after the other. -/
def SocketAddr.fields : SocketAddr → List Nat
  | .v4 octets port => 0 :: (octets.toList.map UInt8.toNat ++ [port.toNat])
  | .v6 segments port flowinfo scopeId =>
    1 :: (segments.toList.map UInt16.toNat ++ [port.toNat, flowinfo.toNat, scopeId.toNat])

theorem SocketAddr.fields_inj {a b : SocketAddr} (h : a.fields = b.fields) : a = b := by
  cases a with
  | v4 octets port =>
    cases b with
    | v4 octets' port' =>
      obtain ⟨hoctets, hport⟩ := List.append_inj (List.cons.inj h).2 (by simp)
      have hoctets := List.map_injective_iff.2 (fun _ _ => UInt8.toNat_inj.1) hoctets
      rw [Vector.toList_inj.1 hoctets, UInt16.toNat_inj.1 (List.singleton_inj.1 hport)]
    | v6 => cases (List.cons.inj h).1
  | v6 segments port flowinfo scopeId =>
    cases b with
    | v4 => cases (List.cons.inj h).1
    | v6 segments' port' flowinfo' scopeId' =>
      obtain ⟨hsegments, hrest⟩ := List.append_inj (List.cons.inj h).2 (by simp)
      have hsegments := List.map_injective_iff.2 (fun _ _ => UInt16.toNat_inj.1) hsegments
      simp only [List.cons.injEq, and_true] at hrest
      rw [Vector.toList_inj.1 hsegments, UInt16.toNat_inj.1 hrest.1, UInt32.toNat_inj.1 hrest.2.1,
        UInt32.toNat_inj.1 hrest.2.2]

/-- `SocketAddr: Ord`. -/
instance : LinearOrder SocketAddr := LinearOrder.lift' SocketAddr.fields fun _ _ => SocketAddr.fields_inj

namespace IpAddr

def isUnspecified : IpAddr → Bool
  | .v4 octets => octets == Vector.replicate 4 0
  | .v6 segments => segments == Vector.replicate 8 0

def isLoopback : IpAddr → Bool
  | .v4 octets => octets[0] == 127
  | .v6 segments => segments == #v[0, 0, 0, 0, 0, 0, 0, 1]

/-- An IPv6 address of `fe80::/10`: its first ten bits are these. -/
def LinkLocalV6 : IpAddr → Prop
  | .v4 _ => False
  | .v6 segments => segments[0].toNat / 2 ^ 6 = 0xfe80 / 2 ^ 6

end IpAddr

/-! ### The order of the attempts -/

/-- Whether we can open a plain `TcpStream` to this address. -/
def isDialable : IpAddr → Bool
  | ip@(.v4 _) => !ip.isUnspecified
  | ip@(.v6 segments) => !ip.isUnspecified && segments[0] &&& 0xffc0 != 0xfe80

/-- Order addresses best-first: routable before loopback, IPv4 before IPv6. -/
def addrRank (ip : IpAddr) : Nat :=
  match ip, ip.isLoopback with
  | .v4 _, true => 2
  | .v6 _, true => 3
  | .v4 _, false => 0
  | .v6 _, false => 1

def sortedDialable (addrs : List SocketAddr) : List SocketAddr :=
  let addrs := addrs.filter fun a => isDialable a.ip
  let addrs := sorted addrs
  let addrs := dedupAdjacent addrs
  sortedByKey (fun a => addrRank a.ip) addrs

/-- The mask keeps the upper ten bits of a segment. -/
private theorem and_mask (x : Nat) (h : x < 2 ^ 16) : x &&& 0xffc0 = 2 ^ 6 * (x / 2 ^ 6) := by
  refine Nat.eq_of_testBit_eq fun i => ?_
  rw [Nat.testBit_and, Nat.testBit_two_pow_mul, Nat.testBit_div_two_pow]
  have hmask : ∀ i < 16, Nat.testBit 0xffc0 i = decide (6 ≤ i) := by decide
  by_cases hi : i < 16
  · rw [hmask i hi]
    by_cases hlow : 6 ≤ i
    · simp [hlow]
    · simp [hlow]
  · have hx : x.testBit i = false := Nat.testBit_lt_two_pow (h.trans_le (Nat.pow_le_pow_right (by decide) (by omega)))
    have hx' : x.testBit (i - 6 + 6) = false := by rwa [Nat.sub_add_cancel (by omega)]
    rw [hx, hx', Bool.false_and, Bool.and_false]

theorem isDialable_iff {ip : IpAddr} : isDialable ip = true ↔ ip.isUnspecified = false ∧ ¬ ip.LinkLocalV6 := by
  cases ip with
  | v4 octets => simp [isDialable, IpAddr.LinkLocalV6]
  | v6 segments =>
    have hmask : segments[0] &&& 0xffc0 = 0xfe80 ↔ segments[0].toNat / 2 ^ 6 = 0xfe80 / 2 ^ 6 := by
      rw [← UInt16.toNat_inj, UInt16.toNat_and]
      have hand := and_mask segments[0].toNat segments[0].toNat_lt
      constructor
      · intro h
        have h : segments[0].toNat &&& 0xffc0 = 0xfe80 := h
        omega
      · intro h
        show segments[0].toNat &&& 0xffc0 = 0xfe80
        omega
    rw [IpAddr.LinkLocalV6, ← hmask]
    simp [isDialable]

theorem sortedDialable_eq (addrs : List SocketAddr) :
    sortedDialable addrs = canonical (fun a => addrRank a.ip) (addrs.filter fun a => isDialable a.ip) := rfl

theorem mem_sortedDialable {a : SocketAddr} {addrs : List SocketAddr} :
    a ∈ sortedDialable addrs ↔ a ∈ addrs ∧ a.ip.isUnspecified = false ∧ ¬ a.ip.LinkLocalV6 := by
  rw [sortedDialable_eq, mem_canonical, List.mem_filter, isDialable_iff]

theorem sortedDialable_congr {addrs addrs' : List SocketAddr} (h : ∀ a, a ∈ addrs ↔ a ∈ addrs') :
    sortedDialable addrs = sortedDialable addrs' := by
  rw [sortedDialable_eq, sortedDialable_eq]
  refine canonical_congr _ fun a => ?_
  rw [List.mem_filter, List.mem_filter, h]

/-- Nothing is left to do for a list that is filtered and in order. -/
theorem sortedDialable_idem (addrs : List SocketAddr) :
    sortedDialable (sortedDialable addrs) = sortedDialable addrs := by
  have hmem : ∀ a, a ∈ sortedDialable (sortedDialable addrs) ↔ a ∈ sortedDialable addrs := fun a => by
    rw [mem_sortedDialable, mem_sortedDialable]
    tauto
  rw [sortedDialable_eq (sortedDialable addrs), sortedDialable_eq addrs] at hmem ⊢
  exact eq_of_strict (canonical_strict _ _) (canonical_strict _ _) hmem

/-- The dialable addresses of the input, each once, in strictly increasing order of rank and address; they depend only
on the set of the input, and sorting them again changes nothing. -/
theorem sorted_dialable_canonical (addrs : List SocketAddr) :
    (∀ a, a ∈ sortedDialable addrs ↔ a ∈ addrs ∧ a.ip.isUnspecified = false ∧ ¬ a.ip.LinkLocalV6) ∧
      (sortedDialable addrs).Nodup ∧
      (sortedDialable addrs).Pairwise (fun a b => toLex (addrRank a.ip, a) < toLex (addrRank b.ip, b)) ∧
      (∀ addrs', (∀ a, a ∈ addrs' ↔ a ∈ addrs) → sortedDialable addrs' = sortedDialable addrs) ∧
      sortedDialable (sortedDialable addrs) = sortedDialable addrs := by
  have hstrict := canonical_strict (fun a : SocketAddr => addrRank a.ip) (addrs.filter fun a => isDialable a.ip)
  exact ⟨fun a => mem_sortedDialable, nodup_of_strict hstrict, hstrict, fun _ h => sortedDialable_congr h,
    sortedDialable_idem addrs⟩

end Qdrop.StdNet
