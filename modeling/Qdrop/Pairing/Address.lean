import Qdrop.Lib.IpAddr
import Qdrop.Registry
import Qdrop.Registry.Edits

/-!
# The address recorded by pairing (`cmd_pair` in `qdrop/src/main.rs`)

`cmd_pair` strips a port from the target and records what is left; the daemon parses it again and adds the data port.
The target is cut at its last colon if a port could follow, so an IPv6 literal loses its last group where that is a
decimal number: it is then another device's address, or none.  `recorded_address_iff` says when it is the same.
-/

namespace Qdrop

open Lib

/-- The address `cmd_pair` records for a target. -/
def pairAddress (target : String) : String :=
  match rsplitOnce ':' target.toList with
  | some (host, port) => if host ≠ [] ∧ isU16 port = true then String.ofList host else target
  | none => target

/-- The value of a `u16` that `isU16` accepts. -/
def u16Value (s : List Char) : Nat :=
  decimal (match s with
    | '+' :: digits => digits
    | digits => digits)

/-- `to_socket_addrs`; `lookup` is the system's resolver. -/
def toSocketAddrs (lookup : String → Option (List IpAddr)) (s : String) : Option (List SockAddr) :=
  match parseSockAddr s.toList with
  | some sa => some [sa]
  | none =>
    match rsplitOnce ':' s.toList with
    | some (host, port) =>
      if isU16 port = true then
        (lookup (String.ofList host)).map fun ips => ips.map fun ip => ⟨ip, u16Value port, 0⟩
      else none
    | none => none

/-- What `static_addrs` asks of the standard library. -/
def stdResolver (lookup : String → Option (List IpAddr)) : Resolver where
  parseSocketAddr s := (parseSockAddr s.toList).map SockAddr.text
  parseIpAddr s := (parseIpAddr s.toList).map fun ip => SockAddr.text ⟨ip, defaultPort, 0⟩
  toSocketAddrs s := (toSocketAddrs lookup s).map fun addrs => addrs.map SockAddr.text

/-- The system's resolver knows no name that consists of hexadecimal digits and colons and is no address. -/
def NoColonNames (lookup : String → Option (List IpAddr)) : Prop :=
  ∀ host : String, ':' ∈ host.toList → (∀ c ∈ host.toList, c = ':' ∨ (hexDigit c).isSome = true) →
    parseIpAddr host.toList = none → lookup host = none

/-- The cut at the last colon takes nothing from the address: there is no colon, no port could follow the last one, or
all of several groups after a double colon are zero. -/
def KeptByCut (t : List Char) : Prop :=
  match rsplitOnce ':' t with
  | some (_, last) => isU16 last = false ∨ ZeroTail t
  | none => True

/-! ### Texts of addresses -/

theorem isWhitespace_eq_false {c : Char} (h : c = ':' ∨ c = '.' ∨ (hexDigit c).isSome = true) :
    isWhitespace c = false := by
  rcases h with rfl | rfl | h
  · decide
  · decide
  · have hrange : 48 ≤ c.toNat ∧ c.toNat ≤ 102 := by
      unfold hexDigit at h
      split at h
      · rename_i hd
        obtain ⟨hlo, hhi⟩ := Char.isDigit_iff_toNat.1 hd
        exact ⟨hlo, hhi.trans (by decide)⟩
      · split at h
        · omega
        · split at h
          · omega
          · cases h
    simp only [isWhitespace, Bool.or_eq_false_iff, Bool.and_eq_false_iff, decide_eq_false_iff_not, beq_eq_false_iff_ne]
    omega

/-- A literal is not changed by trimming. -/
theorem trim_literal {s : List Char} (h : ∀ c ∈ s, c = ':' ∨ c = '.' ∨ (hexDigit c).isSome = true) : trim s = s := by
  refine trim_eq_self fun c hc => isWhitespace_eq_false (h c ?_)
  rcases hc with hc | hc
  · exact List.mem_of_mem_head? hc
  · exact List.mem_of_mem_getLast? hc

theorem rtakeWhile_cut {last : List Char} (host : List Char) (h : ':' ∉ last) :
    (host ++ ':' :: last).rtakeWhile (· != ':') = last := by
  have hall : ∀ c ∈ last.reverse, (c != ':') = true := by
    intro c hc
    rw [bne_iff_ne]
    rintro rfl
    exact h (List.mem_reverse.1 hc)
  rw [List.rtakeWhile, List.reverse_append, List.reverse_cons, List.append_assoc, List.takeWhile_append_of_pos hall]
  simp

theorem isU16_chars {s : List Char} (h : isU16 s = true) : s ≠ [] ∧ ∀ c ∈ s, c = '+' ∨ c.isDigit = true := by
  unfold isU16 at h
  split at h
  · simp only [Bool.and_eq_true, List.all_eq_true] at h
    refine ⟨by simp, fun c hc => ?_⟩
    rcases List.mem_cons.1 hc with rfl | hc
    · exact Or.inl rfl
    · exact Or.inr (h.1.2 c hc)
  · simp only [Bool.and_eq_true, List.all_eq_true] at h
    refine ⟨?_, fun c hc => Or.inr (h.1.2 c hc)⟩
    rintro rfl
    cases h.1.1

theorem isU16_of_readNumber {s : List Char} {n : Nat} (h : readNumber (2 ^ 16) s = some n) : isU16 s = true := by
  unfold readNumber at h
  split at h
  · cases h
  · rename_i hs
    push Not at hs
    obtain ⟨hne, hdigits, hlt⟩ := hs
    have hall : s.all Char.isDigit = true := by simpa [List.all_eq_true] using hdigits
    have hplus : ∀ digits, s ≠ '+' :: digits := by
      rintro digits rfl
      exact absurd (List.all_eq_true.1 hall '+' List.mem_cons_self) (by decide)
    unfold isU16
    split
    · exact absurd rfl (hplus _)
    · simp only [Bool.and_eq_true, decide_eq_true_eq]
      exact ⟨⟨by simpa using hne, hall⟩, hlt⟩

/-! ### What the daemon makes of an address -/

section Resolve

variable {lookup : String → Option (List IpAddr)} {p : Peer} {raw : List Char}

theorem staticAddrs_of_trim {resolver : Resolver} (hp : p.address = some (String.ofList raw)) (hne : raw ≠ [])
    (htrim : trim raw = raw) :
    p.staticAddrs resolver =
      match resolver.parseSocketAddr (String.ofList raw), resolver.parseIpAddr (String.ofList raw) with
      | some sa, _ => [sa]
      | none, some sa => [sa]
      | none, none => (resolver.toSocketAddrs (withPort (String.ofList raw))).getD [] := by
  have hraw : String.ofList raw ≠ "" := by simpa using hne
  have hfilter : (p.address.map fun raw => String.ofList (trim raw.toList)).filter (· ≠ "") =
      some (String.ofList raw) := by
    rw [hp, Option.map_some, String.toList_ofList, htrim]
    simp [Option.filter_some, hraw]
  unfold Peer.staticAddrs
  generalize (p.address.map fun raw => String.ofList (trim raw.toList)).filter (· ≠ "") = found at hfilter ⊢
  subst hfilter
  rfl

/-- A literal is dialed at the default port. -/
theorem staticAddrs_literal {ip : IpAddr} (hp : p.address = some (String.ofList raw))
    (hip : parseIpAddr raw = some ip) (hsa : parseSockAddr raw = none) :
    p.staticAddrs (stdResolver lookup) = [SockAddr.text ⟨ip, defaultPort, 0⟩] := by
  obtain ⟨hne, hchars⟩ := parseIpAddr_chars hip
  rw [staticAddrs_of_trim hp hne (trim_literal hchars)]
  simp [stdResolver, hip, hsa]

/-- What is no literal however it is cut is not resolved. -/
theorem staticAddrs_noLiteral (hlookup : NoColonNames lookup) (hp : p.address = some (String.ofList raw))
    (hchars : ∀ c ∈ raw, c = ':' ∨ (hexDigit c).isSome = true) (hraw : NoLiteral raw) :
    p.staticAddrs (stdResolver lookup) = [] := by
  have hdot : '.' ∉ raw := fun hmem => absurd (hchars '.' hmem) (by decide)
  have hbracket : '[' ∉ raw := fun hmem => absurd (hchars '[' hmem) (by decide)
  have hip : parseIpAddr raw = none := by rw [parseIpAddr, parseIpv4_eq_none hraw.colon, hraw.here]; rfl
  have htrim : trim raw = raw := trim_literal fun c hc => (hchars c hc).imp_right Or.inr
  obtain ⟨⟨host, last⟩, hcut⟩ := Option.ne_none_iff_exists'.1 fun hnone => rsplitOnce_eq_none.1 hnone hraw.colon
  obtain ⟨hsplit, hlast⟩ := rsplitOnce_eq_some.1 hcut
  rw [staticAddrs_of_trim hp (List.ne_nil_of_mem hraw.colon) htrim]
  have hresolve : toSocketAddrs lookup (withPort (String.ofList raw)) = none := by
    have hport : (String.ofList raw).toList.rtakeWhile (· != ':') = last := by
      rw [String.toList_ofList, hsplit, rtakeWhile_cut host hlast]
    unfold withPort
    rw [hport]
    split
    · rename_i hu16
      have hbefore := hraw.before host last hcut (isU16_chars hu16).1
      have hnone : lookup (String.ofList host) = none := by
        refine hlookup _ (by simpa using hbefore.1) (fun c hc => hchars c ?_) ?_
        · rw [String.toList_ofList] at hc
          exact hsplit ▸ List.mem_append_left _ hc
        · rw [String.toList_ofList, parseIpAddr, parseIpv4_eq_none hbefore.1, hbefore.2]
          rfl
      rw [toSocketAddrs, String.toList_ofList, parseSockAddr_eq_none hdot hbracket, hcut]
      simp [hu16, hnone]
    · have hnone : lookup (String.ofList raw) = none := by
        refine hlookup _ (by simpa using hraw.colon) (by simpa using hchars) (by simpa using hip)
      have htext : (s!"{String.ofList raw}:{defaultPort}" : String).toList = raw ++ ':' :: "47654".toList := by
        have hraw' : (toString (String.ofList raw)).toList = raw := String.toList_ofList
        simp only [defaultPort, Nat.toString_eq_repr, String.toList_append, Nat.toList_repr, List.append_assoc, hraw']
        rfl
      have hcut' : rsplitOnce ':' (raw ++ ':' :: "47654".toList) = some (raw, "47654".toList) :=
        rsplitOnce_append raw (by decide)
      rw [toSocketAddrs, htext, parseSockAddr_eq_none (by simp [hdot]) (by simp [hbracket]), hcut']
      simp [hnone]
  simp [stdResolver, hip, parseSockAddr_eq_none hdot hbracket, hresolve]

end Resolve

/-! ### What is recorded -/

/-- The entry of the device paired last has the address given. -/
theorem findById_recordPeer (encode : Key → String) (doc : Peers) (paired : Paired) (address : String) :
    ∃ e, (doc.recordPeer encode paired (some address)).findById paired.deviceId = some e ∧
      e.address = some address := by
  refine ⟨_, (Peers.findById_upsert ..).trans (if_pos rfl), ?_⟩
  unfold Peers.entryFor
  split <;> rfl

/-- What cannot be cut is recorded as it is, and dialed. -/
private theorem staticAddrs_whole {lookup : String → Option (List IpAddr)} {p : Peer} {t : String} {ip : IpAddr}
    (hwhole : ∀ host last, rsplitOnce ':' t.toList = some (host, last) → isU16 last = false)
    (hip : parseIpAddr t.toList = some ip) (hp : p.address = some (pairAddress t)) :
    p.staticAddrs (stdResolver lookup) = [SockAddr.text ⟨ip, defaultPort, 0⟩] := by
  have hpair : pairAddress t = String.ofList t.toList := by
    rw [pairAddress, String.ofList_toList]
    split
    · rename_i host last hcut
      exact if_neg fun h => by simp [hwhole host last hcut] at h
    · rfl
  have hsa : parseSockAddr t.toList = none := by
    rw [parseSockAddr]
    split
    · rfl
    · rename_i host last hcut
      have hport : readNumber (2 ^ 16) last = none := by
        by_contra hsome
        obtain ⟨n, hn⟩ := Option.ne_none_iff_exists'.1 hsome
        have hu16 := isU16_of_readNumber hn
        rw [hwhole host last hcut] at hu16
        cases hu16
      rw [hport]
  rw [hpair] at hp
  exact staticAddrs_literal hp hip hsa

/-- An IPv6 literal that is cut is dialed exactly if only zero groups of a tail are cut. -/
private theorem staticAddrs_cut {lookup : String → Option (List IpAddr)} (hlookup : NoColonNames lookup) {p : Peer}
    {t : String} {gs : List Nat} {host last : List Char} (hcut : rsplitOnce ':' t.toList = some (host, last))
    (hu16 : isU16 last = true) (hgs : parseIpv6 t.toList = some gs) (hp : p.address = some (pairAddress t)) :
    p.staticAddrs (stdResolver lookup) = [SockAddr.text ⟨.v6 gs, defaultPort, 0⟩] ↔ ZeroTail t.toList := by
  have hdot : '.' ∉ last := fun hmem => absurd ((isU16_chars hu16).2 '.' hmem) (by decide)
  have hpair (hcolon : ':' ∈ host) : pairAddress t = String.ofList host := by
    simp [pairAddress, hcut, hu16, List.ne_nil_of_mem hcolon]
  obtain ⟨hchars, ⟨gs', hgs', hiff⟩ | ⟨hzero, hno⟩⟩ := parseIpv6_cut hgs hcut hdot
  · have hcolon := (parseIpv6_chars hgs').1
    have hip : parseIpAddr host = some (.v6 gs') := by rw [parseIpAddr, parseIpv4_eq_none hcolon, hgs']; rfl
    have hsa : parseSockAddr host = none :=
      parseSockAddr_eq_none (fun hmem => absurd (hchars '.' hmem) (by decide))
        fun hmem => absurd (hchars '[' hmem) (by decide)
    rw [hpair hcolon] at hp
    rw [staticAddrs_literal hp hip hsa, List.singleton_inj, ← hiff]
    have hne : ∀ {gs s}, parseIpv6 s = some gs → gs ≠ [] := fun hs =>
      List.ne_nil_of_length_pos (by rw [parseIpv6_length hs]; decide)
    exact ⟨SockAddr.text_v6_inj (hne hgs') (hne hgs), fun h => by rw [h]⟩
  · rw [hpair hno.colon] at hp
    rw [staticAddrs_noLiteral hlookup hp hchars hno]
    simp [hzero]

/-- The address recorded for an IP literal makes the daemon dial that address at the default port exactly if the cut at
the last colon takes nothing from it. -/
theorem recorded_address_iff (encode : Key → String) (lookup : String → Option (List IpAddr))
    (hlookup : NoColonNames lookup) (doc : Peers) (paired : Paired) (t : String) (ip : IpAddr)
    (hip : parseIpAddr t.toList = some ip) :
    ((doc.recordPeer encode paired (some (pairAddress t))).findById paired.deviceId).map
        (Peer.staticAddrs (stdResolver lookup)) = some [SockAddr.text ⟨ip, defaultPort, 0⟩] ↔
      KeptByCut t.toList := by
  obtain ⟨e, hfind, haddress⟩ := findById_recordPeer encode doc paired (pairAddress t)
  rw [hfind, Option.map_some, Option.some.injEq, KeptByCut]
  cases hcut : rsplitOnce ':' t.toList with
  | none => exact iff_of_true (staticAddrs_whole (by simp [hcut]) hip haddress) trivial
  | some cut =>
    obtain ⟨host, last⟩ := cut
    dsimp only
    cases hu16 : isU16 last with
    | false =>
      have hwhole : ∀ host' last', rsplitOnce ':' t.toList = some (host', last') → isU16 last' = false := by
        intro host' last' hcut'
        obtain ⟨-, rfl⟩ := Prod.mk.inj (Option.some.inj (hcut.symm.trans hcut'))
        exact hu16
      exact iff_of_true (staticAddrs_whole hwhole hip haddress) (Or.inl rfl)
    | true =>
      obtain ⟨hsplit, -⟩ := rsplitOnce_eq_some.1 hcut
      have hcolon : ':' ∈ t.toList := by simp [hsplit]
      rw [parseIpAddr, parseIpv4_eq_none hcolon] at hip
      obtain ⟨gs, hgs, rfl⟩ := Option.map_eq_some_iff.1 hip
      rw [staticAddrs_cut hlookup hcut hu16 hgs haddress]
      simp

private def box : Paired := ⟨"b", "box", Vector.replicate 32 0⟩

private def noNames : String → Option (List IpAddr) := fun _ => none

/-- The last group of this literal is no decimal number, so it is recorded whole. -/
theorem recorded_address_iff_hex :
    (((Peers.mk []).recordPeer (fun _ => "") box (some (pairAddress "2001:db8:1:2:3:4:5:abcd"))).findById "b").map
        (Peer.staticAddrs (stdResolver noNames)) = some ["[2001:db8:1:2:3:4:5:abcd]:47654"] :=
  (recorded_address_iff (fun _ => "") noNames (fun _ _ _ _ => rfl) ⟨[]⟩ box "2001:db8:1:2:3:4:5:abcd"
    (.v6 [0x2001, 0xdb8, 1, 2, 3, 4, 5, 0xabcd]) (by decide)).2 (Or.inl (by decide))

/-- The device paired at `2001:db8::5:1` is dialed at `2001:db8::5`, and the one paired at `fe80::1` not at all. -/
theorem recorded_without_last_group :
    parseIpAddr "2001:db8::5:1".toList = some (.v6 [0x2001, 0xdb8, 0, 0, 0, 0, 5, 1]) ∧
    (((Peers.mk []).recordPeer (fun _ => "") box (some (pairAddress "2001:db8::5:1"))).findById "b").map
        (Peer.staticAddrs (stdResolver noNames)) =
      some [SockAddr.text ⟨.v6 [0x2001, 0xdb8, 0, 0, 0, 0, 0, 5], defaultPort, 0⟩] ∧
    SockAddr.text ⟨.v6 [0x2001, 0xdb8, 0, 0, 0, 0, 0, 5], defaultPort, 0⟩ ≠
      SockAddr.text ⟨.v6 [0x2001, 0xdb8, 0, 0, 0, 0, 5, 1], defaultPort, 0⟩ ∧
    (((Peers.mk []).recordPeer (fun _ => "") box (some (pairAddress "fe80::1"))).findById "b").map
        (Peer.staticAddrs (stdResolver noNames)) = some [] := by
  refine ⟨by decide, by decide, by decide, by decide⟩

end Qdrop
