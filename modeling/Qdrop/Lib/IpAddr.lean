import Mathlib.Algebra.Group.Nat.Defs
import Mathlib.Data.List.Infix

/-!
# IP address literals

An IPv4 address is written as four decimal octets, an IPv6 address as eight groups of at most four hexadecimal digits;
a run of zero groups may be left out at a double colon, and the last two groups may be written as an IPv4 address.  A
socket address adds a port after a colon, with an IPv6 address in brackets.

What is left of an IPv6 literal when it is cut at its last colon is a literal only if the groups after a double colon
are cut (`parseIpv6_cut`), and then of the same address only if these groups are all zero.
-/

namespace Lib

inductive IpAddr where
  | v4 (octets : List Nat)
  | v6 (groups : List Nat)
deriving DecidableEq, Repr

structure SockAddr where
  ip : IpAddr
  port : Nat
  /-- The scope of an IPv6 address. -/
  scope : Nat
deriving DecidableEq, Repr

/-! ### Cutting a text -/

/-- The text before and after the last `sep`. -/
def rsplitOnce (sep : Char) : List Char → Option (List Char × List Char)
  | [] => none
  | c :: s =>
    match rsplitOnce sep s with
    | some (before, after) => some (c :: before, after)
    | none => if c = sep then some ([], s) else none

/-- The text before and after the first double colon. -/
def splitGap : List Char → Option (List Char × List Char)
  | ':' :: ':' :: s => some ([], s)
  | c :: s => (splitGap s).map fun (head, tail) => (c :: head, tail)
  | [] => none

/-! ### Literals -/

/-- The value of decimal digits. -/
def decimal (s : List Char) : Nat := s.foldl (fun n c => 10 * n + (c.toNat - 48)) 0

def hexDigit (c : Char) : Option Nat :=
  if c.isDigit then some (c.toNat - 48)
  else if 97 ≤ c.toNat ∧ c.toNat ≤ 102 then some (c.toNat - 87)
  else if 65 ≤ c.toNat ∧ c.toNat ≤ 70 then some (c.toNat - 55)
  else none

/-- One to four hexadecimal digits. -/
def hexGroup (s : List Char) : Option Nat :=
  if s = [] ∨ 4 < s.length ∨ s.any (fun c => (hexDigit c).isNone) then none
  else some (s.foldl (fun n c => 16 * n + (hexDigit c).getD 0) 0)

/-- A decimal number below 256 without leading zeros. -/
def octet (s : List Char) : Option Nat :=
  if s = [] ∨ 3 < s.length ∨ s.head? = some '0' ∧ s.length ≠ 1 ∨ s.any (fun c => !c.isDigit) then none
  else if decimal s < 256 then some (decimal s) else none

def parseIpv4 (s : List Char) : Option (List Nat) :=
  match s.splitOn '.' with
  | [a, b, c, d] =>
    match octet a, octet b, octet c, octet d with
    | some a, some b, some c, some d => some [a, b, c, d]
    | _, _, _, _ => none
  | _ => none

def readGroups : List (List Char) → Option (List Nat)
  | [] => some []
  | piece :: pieces =>
    match hexGroup piece, readGroups pieces with
    | some g, some gs => some (g :: gs)
    | _, _ => none

/-- The two groups an IPv4 address stands for. -/
def quadGroups : List Nat → List Nat
  | [a, b, c, d] => [256 * a + b, 256 * c + d]
  | _ => []

/-- Groups of which the last two may be written as an IPv4 address. -/
def readTail (pieces : List (List Char)) : Option (List Nat) :=
  match readGroups pieces with
  | some gs => some gs
  | none =>
    match readGroups pieces.dropLast, pieces.getLast?.bind parseIpv4 with
    | some gs, some quad => some (gs ++ quadGroups quad)
    | _, _ => none

/-- The pieces on one side of a double colon. -/
def sidePieces (s : List Char) : List (List Char) := if s = [] then [] else s.splitOn ':'

/-- The zero groups between `head` and `tail`; they are at least one. -/
def fillGap (head tail : List Nat) : Option (List Nat) :=
  if head.length + tail.length ≤ 7 then
    some (head ++ List.replicate (8 - (head.length + tail.length)) 0 ++ tail)
  else none

def parseIpv6 (s : List Char) : Option (List Nat) :=
  match splitGap s with
  | none => (readTail (s.splitOn ':')).filter (·.length = 8)
  | some (head, tail) =>
    match readGroups (sidePieces head), readTail (sidePieces tail) with
    | some hs, some ts => fillGap hs ts
    | _, _ => none

def parseIpAddr (s : List Char) : Option IpAddr :=
  match parseIpv4 s with
  | some octets => some (.v4 octets)
  | none => (parseIpv6 s).map .v6

/-- Decimal digits whose value is below `bound`. -/
def readNumber (bound : Nat) (s : List Char) : Option Nat :=
  if s = [] ∨ s.any (fun c => !c.isDigit) ∨ bound ≤ decimal s then none else some (decimal s)

/-- What stands in the brackets of a socket address: an IPv6 address, with its scope or without one. -/
def parseScoped (s : List Char) : Option (List Nat × Nat) :=
  match s.splitOn '%' with
  | [addr] => (parseIpv6 addr).map fun groups => (groups, 0)
  | [addr, scope] =>
    match parseIpv6 addr, readNumber (2 ^ 32) scope with
    | some groups, some scope => some (groups, scope)
    | _, _ => none
  | _ => none

def parseSockAddr (s : List Char) : Option SockAddr :=
  match rsplitOnce ':' s with
  | none => none
  | some (host, port) =>
    match readNumber (2 ^ 16) port with
    | none => none
    | some port =>
      match parseIpv4 host with
      | some octets => some ⟨.v4 octets, port, 0⟩
      | none =>
        if host.head? = some '[' ∧ host.getLast? = some ']' ∧ 2 ≤ host.length then
          (parseScoped host.tail.dropLast).map fun (groups, scope) => ⟨.v6 groups, port, scope⟩
        else none

/-- Several groups follow the double colon, and all of them are zero. -/
def ZeroTail (s : List Char) : Prop :=
  match splitGap s with
  | some (_, tail) => 2 ≤ (tail.splitOn ':').length ∧ ∀ piece ∈ tail.splitOn ':', hexGroup piece = some 0
  | none => False

/-! ### The text of a socket address -/

/-- With all groups written out. -/
def SockAddr.text (sa : SockAddr) : String :=
  let port := Nat.toDigits 10 sa.port
  match sa.ip with
  | .v4 octets => String.ofList (['.'].intercalate (octets.map (Nat.toDigits 10)) ++ ':' :: port)
  | .v6 groups =>
    let scope := if sa.scope = 0 then [] else '%' :: Nat.toDigits 10 sa.scope
    String.ofList ('[' :: [':'].intercalate (groups.map (Nat.toDigits 16)) ++ scope ++ ']' :: ':' :: port)

/-! ### Cuts -/

theorem rsplitOnce_eq_none {sep : Char} {s : List Char} : rsplitOnce sep s = none ↔ sep ∉ s := by
  induction s with
  | nil => simp [rsplitOnce]
  | cons c s ih =>
    rw [rsplitOnce]
    cases h : rsplitOnce sep s with
    | some cut =>
      have hmem : sep ∈ s := by
        rw [h] at ih
        simpa using ih
      simp [hmem]
    | none =>
      have hmem : sep ∉ s := ih.1 h
      by_cases hc : c = sep
      · simp [hc]
      · simp [hc, hmem, Ne.symm hc]

theorem rsplitOnce_append {sep : Char} {after : List Char} (before : List Char) (h : sep ∉ after) :
    rsplitOnce sep (before ++ sep :: after) = some (before, after) := by
  induction before with
  | nil => simp [rsplitOnce, rsplitOnce_eq_none.2 h]
  | cons c before ih => rw [List.cons_append, rsplitOnce, ih]

theorem rsplitOnce_eq_some {sep : Char} {s before after : List Char} :
    rsplitOnce sep s = some (before, after) ↔ s = before ++ sep :: after ∧ sep ∉ after := by
  constructor
  · intro h
    induction s generalizing before with
    | nil => cases h
    | cons c s ih =>
      rw [rsplitOnce] at h
      cases hs : rsplitOnce sep s with
      | some cut =>
        rw [hs] at h
        cases h
        obtain ⟨rfl, hafter⟩ := ih hs
        exact ⟨rfl, hafter⟩
      | none =>
        rw [hs] at h
        dsimp only at h
        split at h
        · rename_i hc
          cases h
          exact ⟨by rw [hc]; rfl, rsplitOnce_eq_none.1 hs⟩
        · cases h
  · rintro ⟨rfl, h⟩
    exact rsplitOnce_append before h

/-- No two colons follow each other. -/
def Gapless (s : List Char) : Prop := ¬ [':', ':'] <:+: s

theorem splitGap_cons (c : Char) (s : List Char) :
    splitGap (c :: s) = if c = ':' ∧ s.head? = some ':' then some ([], s.tail)
      else (splitGap s).map fun (head, tail) => (c :: head, tail) := by
  cases s with
  | nil => by_cases hc : c = ':' <;> simp [splitGap]
  | cons d s =>
    by_cases h : c = ':' ∧ d = ':'
    · obtain ⟨rfl, rfl⟩ := h
      simp [splitGap]
    · rw [if_neg (by simpa using h), splitGap]
      rintro s' rfl hs'
      cases hs'
      exact h ⟨rfl, rfl⟩

theorem Gapless.of_infix {s s' : List Char} (h : Gapless s) (hs : s' <:+: s) : Gapless s' :=
  fun hgap => h (hgap.trans hs)

theorem gapless_cons {c : Char} {s : List Char} :
    Gapless (c :: s) ↔ ¬ (c = ':' ∧ s.head? = some ':') ∧ Gapless s := by
  rw [Gapless, List.infix_cons_iff, not_or]
  refine and_congr_left' (not_congr ?_)
  constructor
  · rintro ⟨s', hs'⟩
    cases hs'
    exact ⟨rfl, rfl⟩
  · rintro ⟨rfl, hs⟩
    cases s with
    | nil => cases hs
    | cons d s =>
      cases hs
      exact ⟨s, rfl⟩

theorem gapless_singleton (c : Char) : Gapless [c] := fun h => absurd h.length_le (by simp)

theorem splitGap_eq_none {s : List Char} : splitGap s = none ↔ Gapless s := by
  induction s with
  | nil => simp [splitGap, Gapless]
  | cons c s ih =>
    rw [splitGap_cons, gapless_cons]
    split
    · rename_i h
      simp [h]
    · rename_i h
      rw [Option.map_eq_none_iff, ih, and_iff_right h]

theorem splitGap_append {head : List Char} (tail : List Char) (h : Gapless (head ++ [':'])) :
    splitGap (head ++ ':' :: ':' :: tail) = some (head, tail) := by
  induction head with
  | nil => rfl
  | cons c head ih =>
    rw [List.cons_append, gapless_cons] at h
    have hhead : (head ++ ':' :: ':' :: tail).head? = (head ++ [':']).head? := by cases head <;> rfl
    rw [List.cons_append, splitGap_cons, hhead, if_neg h.1, ih h.2]
    rfl

/-- The first double colon: none is inside of the head or begins with its last character. -/
theorem splitGap_eq_some {s head tail : List Char} :
    splitGap s = some (head, tail) ↔ s = head ++ ':' :: ':' :: tail ∧ Gapless (head ++ [':']) := by
  constructor
  · intro h
    induction s generalizing head with
    | nil => cases h
    | cons c s ih =>
      rw [splitGap_cons] at h
      split at h
      · rename_i hgap
        obtain ⟨rfl, hs⟩ := hgap
        cases h
        cases s with
        | nil => cases hs
        | cons d s =>
          cases hs
          exact ⟨rfl, gapless_singleton ':'⟩
      · rename_i hgap
        obtain ⟨⟨head', tail'⟩, hs, hcut⟩ := Option.map_eq_some_iff.1 h
        cases hcut
        obtain ⟨rfl, hgapless⟩ := ih hs
        refine ⟨rfl, ?_⟩
        rw [List.cons_append, gapless_cons]
        have hhead : (head' ++ ':' :: ':' :: tail).head? = (head' ++ [':']).head? := by cases head' <;> rfl
        exact ⟨hhead ▸ hgap, hgapless⟩
  · rintro ⟨rfl, h⟩
    exact splitGap_append tail h

/-! ### Pieces and groups -/

theorem mem_splitOn {sep c : Char} {s : List Char} (h : c ∈ s) : c = sep ∨ ∃ piece ∈ s.splitOn sep, c ∈ piece := by
  induction s with
  | nil => cases h
  | cons d s ih =>
    rw [List.splitOn_cons_eq_if_modifyHead]
    obtain ⟨p, ps, hps⟩ := List.exists_cons_of_ne_nil (List.splitOn_ne_nil sep s)
    rw [hps] at ih ⊢
    by_cases hd : d = sep
    · rw [if_pos (by simp [hd])]
      rcases List.mem_cons.1 h with rfl | h
      · exact Or.inl hd
      · rcases ih h with hc | ⟨piece, hpiece, hc⟩
        · exact Or.inl hc
        · exact Or.inr ⟨piece, List.mem_cons_of_mem _ hpiece, hc⟩
    · rw [if_neg (by simp [hd])]
      rcases List.mem_cons.1 h with rfl | h
      · exact Or.inr ⟨c :: p, List.mem_cons_self, List.mem_cons_self⟩
      · rcases ih h with hc | ⟨piece, hpiece, hc⟩
        · exact Or.inl hc
        · rcases List.mem_cons.1 hpiece with rfl | hpiece
          · exact Or.inr ⟨d :: piece, List.mem_cons_self, List.mem_cons_of_mem _ hc⟩
          · exact Or.inr ⟨piece, List.mem_cons_of_mem _ hpiece, hc⟩

theorem isSome_hexDigit {c : Char} (h : c.isDigit = true) : (hexDigit c).isSome = true := by
  rw [hexDigit, if_pos h]
  rfl

theorem hexGroup_some {s : List Char} {g : Nat} (h : hexGroup s = some g) :
    s ≠ [] ∧ ∀ c ∈ s, (hexDigit c).isSome = true := by
  unfold hexGroup at h
  split at h
  · cases h
  · rename_i hs
    push Not at hs
    refine ⟨hs.1, fun c hc => ?_⟩
    cases hd : hexDigit c with
    | some d => rfl
    | none => exact absurd (List.any_eq_true.2 ⟨c, hc, by simp [hd]⟩) hs.2.2

theorem readGroups_cons {piece : List Char} {pieces : List (List Char)} {gs : List Nat} :
    readGroups (piece :: pieces) = some gs ↔
      ∃ g gs', hexGroup piece = some g ∧ readGroups pieces = some gs' ∧ gs = g :: gs' := by
  rw [readGroups]
  cases hexGroup piece with
  | none => simp
  | some g =>
    cases readGroups pieces with
    | none => simp
    | some gs' => simp [eq_comm]

theorem readGroups_append {ps qs : List (List Char)} {gs : List Nat} :
    readGroups (ps ++ qs) = some gs ↔
      ∃ as bs, readGroups ps = some as ∧ readGroups qs = some bs ∧ gs = as ++ bs := by
  induction ps generalizing gs with
  | nil => simp [readGroups]
  | cons p ps ih =>
    rw [List.cons_append, readGroups_cons]
    constructor
    · rintro ⟨g, gs', hg, hgs', rfl⟩
      obtain ⟨as, bs, has, hbs, rfl⟩ := ih.1 hgs'
      exact ⟨g :: as, bs, readGroups_cons.2 ⟨g, as, hg, has, rfl⟩, hbs, rfl⟩
    · rintro ⟨as, bs, has, hbs, rfl⟩
      obtain ⟨g, as', hg, has', rfl⟩ := readGroups_cons.1 has
      exact ⟨g, as' ++ bs, hg, ih.2 ⟨as', bs, has', hbs, rfl⟩, rfl⟩

theorem readGroups_singleton {piece : List Char} {gs : List Nat} :
    readGroups [piece] = some gs ↔ ∃ g, hexGroup piece = some g ∧ gs = [g] := by
  rw [readGroups_cons]
  simp [readGroups]

theorem readGroups_length {pieces : List (List Char)} {gs : List Nat} (h : readGroups pieces = some gs) :
    gs.length = pieces.length := by
  induction pieces generalizing gs with
  | nil =>
    cases h
    rfl
  | cons piece pieces ih =>
    obtain ⟨g, gs', -, hgs', rfl⟩ := readGroups_cons.1 h
    rw [List.length_cons, List.length_cons, ih hgs']

theorem readGroups_mem {pieces : List (List Char)} {gs : List Nat} (h : readGroups pieces = some gs)
    {piece : List Char} (hmem : piece ∈ pieces) : ∃ g, hexGroup piece = some g := by
  induction pieces generalizing gs with
  | nil => cases hmem
  | cons p pieces ih =>
    obtain ⟨g, gs', hg, hgs', -⟩ := readGroups_cons.1 h
    rcases List.mem_cons.1 hmem with rfl | hmem
    · exact ⟨g, hg⟩
    · exact ih hgs' hmem

theorem readGroups_zero {pieces : List (List Char)} {gs : List Nat} (h : readGroups pieces = some gs) :
    (∀ piece ∈ pieces, hexGroup piece = some 0) ↔ ∀ g ∈ gs, g = 0 := by
  induction pieces generalizing gs with
  | nil =>
    cases h
    simp
  | cons piece pieces ih =>
    obtain ⟨g, gs', hg, hgs', rfl⟩ := readGroups_cons.1 h
    rw [List.forall_mem_cons, List.forall_mem_cons, ih hgs', hg, Option.some.injEq]

/-- The groups of a side consist of digits and colons. -/
theorem readGroups_chars {s : List Char} {gs : List Nat} (h : readGroups (s.splitOn ':') = some gs) :
    ∀ c ∈ s, c = ':' ∨ (hexDigit c).isSome = true := by
  intro c hc
  rcases mem_splitOn hc with hsep | ⟨piece, hpiece, hc⟩
  · exact Or.inl hsep
  · obtain ⟨g, hg⟩ := readGroups_mem h hpiece
    exact Or.inr ((hexGroup_some hg).2 c hc)

theorem readGroups_side_chars {s : List Char} {gs : List Nat} (h : readGroups (sidePieces s) = some gs) :
    ∀ c ∈ s, c = ':' ∨ (hexDigit c).isSome = true := by
  unfold sidePieces at h
  split at h
  · rename_i hs
    simp [hs]
  · exact readGroups_chars h

theorem colon_mem_of_readGroups {s : List Char} {gs : List Nat} (h : readGroups (s.splitOn ':') = some gs)
    (hlen : gs.length ≠ 1) : ':' ∈ s := by
  by_contra hcolon
  rw [List.splitOn_eq_singleton hcolon] at h
  exact hlen (readGroups_length h)

theorem parseIpv4_of_no_dot {s : List Char} (h : '.' ∉ s) : parseIpv4 s = none := by
  rw [parseIpv4, List.splitOn_eq_singleton h]

theorem octet_some {s : List Char} {n : Nat} (h : octet s = some n) : s ≠ [] ∧ ∀ c ∈ s, c.isDigit = true := by
  unfold octet at h
  split at h
  · cases h
  · rename_i hs
    push Not at hs
    refine ⟨hs.1, fun c hc => ?_⟩
    by_contra hd
    exact hs.2.2.2 (List.any_eq_true.2 ⟨c, hc, by simpa using hd⟩)

theorem parseIpv4_chars {s : List Char} {octets : List Nat} (h : parseIpv4 s = some octets) :
    ∀ c ∈ s, c = '.' ∨ c.isDigit = true := by
  intro c hc
  rcases mem_splitOn hc with hsep | ⟨piece, hpiece, hc⟩
  · exact Or.inl hsep
  · right
    unfold parseIpv4 at h
    split at h
    · rename_i p₁ p₂ p₃ p₄ hsplit
      split at h
      · rename_i a b c d ha hb hc' hd
        rw [hsplit] at hpiece
        simp only [List.mem_cons, List.not_mem_nil, or_false] at hpiece
        rcases hpiece with rfl | rfl | rfl | rfl
        · exact (octet_some ha).2 _ hc
        · exact (octet_some hb).2 _ hc
        · exact (octet_some hc').2 _ hc
        · exact (octet_some hd).2 _ hc
      · cases h
    · cases h

/-- Without dots there is no IPv4 address at the end. -/
theorem readTail_append (pieces : List (List Char)) {last : List Char} (h : '.' ∉ last) :
    readTail (pieces ++ [last]) = readGroups (pieces ++ [last]) := by
  have hquad : parseIpv4 last = none := parseIpv4_of_no_dot h
  rw [readTail]
  cases readGroups (pieces ++ [last]) with
  | some gs => rfl
  | none => simp [hquad]

theorem readTail_chars {pieces : List (List Char)} {gs : List Nat} (h : readTail pieces = some gs) :
    ∀ piece ∈ pieces, ∀ c ∈ piece, c = '.' ∨ (hexDigit c).isSome = true := by
  intro piece hpiece c hc
  unfold readTail at h
  split at h
  · rename_i gs' hgs'
    obtain ⟨g, hg⟩ := readGroups_mem hgs' hpiece
    exact Or.inr ((hexGroup_some hg).2 c hc)
  · split at h
    · rename_i gs' quad hgs' hquad
      obtain ⟨last, hlast, hparse⟩ := Option.bind_eq_some_iff.1 hquad
      rw [← List.dropLast_append_getLast? last hlast] at hpiece
      rcases List.mem_append.1 hpiece with hpiece | hpiece
      · obtain ⟨g, hg⟩ := readGroups_mem hgs' hpiece
        exact Or.inr ((hexGroup_some hg).2 c hc)
      · rw [List.mem_singleton.1 hpiece] at hc
        exact (parseIpv4_chars hparse c hc).imp_right isSome_hexDigit
    · cases h

theorem readTail_length {pieces : List (List Char)} {gs : List Nat} (h : readTail pieces = some gs) :
    gs.length ≤ pieces.length + 1 := by
  unfold readTail at h
  split at h
  · rename_i gs' hgs'
    cases h
    exact (readGroups_length hgs').le.trans (Nat.le_succ _)
  · split at h
    · rename_i gs' quad hgs' hquad
      cases h
      obtain ⟨last, hlast, -⟩ := Option.bind_eq_some_iff.1 hquad
      have hquadlen : (quadGroups quad).length ≤ 2 := by
        unfold quadGroups
        split <;> simp
      have hlen := congrArg List.length (List.dropLast_append_getLast? last hlast)
      rw [List.length_append, List.length_singleton] at hlen
      rw [List.length_append, readGroups_length hgs']
      omega
    · cases h

/-- What holds of the characters on both sides and of the colon. -/
theorem forall_mem_gap {P : Char → Prop} {head tail : List Char} (hhead : ∀ c ∈ head, P c) (hcolon : P ':')
    (htail : ∀ c ∈ tail, P c) : ∀ c ∈ head ++ ':' :: ':' :: tail, P c := by
  rw [List.forall_mem_append, List.forall_mem_cons, List.forall_mem_cons]
  exact ⟨hhead, hcolon, hcolon, htail⟩

theorem readTail_side_chars {s : List Char} {gs : List Nat} (h : readTail (s.splitOn ':') = some gs) :
    ∀ c ∈ s, c = ':' ∨ c = '.' ∨ (hexDigit c).isSome = true := by
  intro c hc
  rcases mem_splitOn hc with hsep | ⟨piece, hpiece, hc⟩
  · exact Or.inl hsep
  · exact Or.inr (readTail_chars h piece hpiece c hc)

theorem parseIpv6_chars {s : List Char} {gs : List Nat} (h : parseIpv6 s = some gs) :
    ':' ∈ s ∧ ∀ c ∈ s, c = ':' ∨ c = '.' ∨ (hexDigit c).isSome = true := by
  unfold parseIpv6 at h
  split at h
  · obtain ⟨hread, hlen⟩ := Option.filter_eq_some_iff.1 h
    refine ⟨?_, readTail_side_chars hread⟩
    by_contra hcolon
    rw [List.splitOn_eq_singleton hcolon] at hread
    have hle := readTail_length hread
    have hlen : gs.length = 8 := by simpa using hlen
    rw [hlen, List.length_singleton] at hle
    omega
  · rename_i head tail hgap
    obtain ⟨rfl, -⟩ := splitGap_eq_some.1 hgap
    split at h
    · rename_i hs ts hhead htail
      refine ⟨by simp, forall_mem_gap (fun c hc => ?_) (Or.inl rfl) fun c hc => ?_⟩
      · exact (readGroups_side_chars hhead c hc).imp_right Or.inr
      · rw [sidePieces, if_neg (List.ne_nil_of_mem hc)] at htail
        exact readTail_side_chars htail c hc
    · cases h

theorem parseIpv6_length {s : List Char} {gs : List Nat} (h : parseIpv6 s = some gs) : gs.length = 8 := by
  unfold parseIpv6 at h
  split at h
  · simpa using (Option.filter_eq_some_iff.1 h).2
  · split at h
    · unfold fillGap at h
      split at h
      · cases h
        simp only [List.length_append, List.length_replicate]
        omega
      · cases h
    · cases h

theorem parseIpv4_eq_none {s : List Char} (h : ':' ∈ s) : parseIpv4 s = none := by
  by_contra hsome
  obtain ⟨octets, ho⟩ := Option.ne_none_iff_exists'.1 hsome
  rcases parseIpv4_chars ho ':' h with hdot | hdigit
  · cases hdot
  · cases hdigit

/-- A literal consists of digits, colons and dots. -/
theorem parseIpAddr_chars {s : List Char} {ip : IpAddr} (h : parseIpAddr s = some ip) :
    s ≠ [] ∧ ∀ c ∈ s, c = ':' ∨ c = '.' ∨ (hexDigit c).isSome = true := by
  unfold parseIpAddr at h
  split at h
  · rename_i octets ho
    constructor
    · rintro rfl
      cases ho
    · intro c hc
      exact Or.inr ((parseIpv4_chars ho c hc).imp_right isSome_hexDigit)
  · obtain ⟨gs, hgs, -⟩ := Option.map_eq_some_iff.1 h
    obtain ⟨hcolon, hchars⟩ := parseIpv6_chars hgs
    exact ⟨List.ne_nil_of_mem hcolon, hchars⟩

/-- A text without dots and brackets is no socket address. -/
theorem parseSockAddr_eq_none {s : List Char} (hdot : '.' ∉ s) (hbracket : '[' ∉ s) : parseSockAddr s = none := by
  unfold parseSockAddr
  split
  · rfl
  · rename_i host port hcut
    obtain ⟨rfl, -⟩ := rsplitOnce_eq_some.1 hcut
    have hquad : parseIpv4 host = none := parseIpv4_of_no_dot fun hmem => hdot (List.mem_append_left _ hmem)
    split
    · rfl
    · rw [hquad]
      dsimp only
      rw [if_neg]
      rintro ⟨hhead, -⟩
      exact hbracket (List.mem_append_left _ (List.mem_of_mem_head? hhead))

/-! ### A literal cut at its last colon -/

theorem zeroTail_iff {s head tail : List Char} (h : splitGap s = some (head, tail)) :
    ZeroTail s ↔ 2 ≤ (tail.splitOn ':').length ∧ ∀ piece ∈ tail.splitOn ':', hexGroup piece = some 0 := by
  rw [ZeroTail, h]

theorem cons_eq_append_singleton {a b : Nat} {l : List Nat} : a :: l = l ++ [b] ↔ ∀ x ∈ l ++ [b], x = a := by
  induction l generalizing a with
  | nil => simp [eq_comm]
  | cons c l ih =>
    rw [List.cons_append, List.cons_eq_cons, ih, List.forall_mem_cons, eq_comm]
    exact and_congr_right fun hc => by rw [hc]

/-- Without its last group the tail fills the gap to another address, unless the tail is zero. -/
theorem fillGap_cut {hs ts gs : List Nat} {g : Nat} (h : fillGap hs (ts ++ [g]) = some gs) :
    ∃ gs', fillGap hs ts = some gs' ∧ (gs' = gs ↔ ∀ x ∈ ts ++ [g], x = 0) := by
  unfold fillGap at h ⊢
  rw [List.length_append, List.length_singleton] at h
  split at h
  · rename_i hlen
    obtain rfl := Option.some.inj h
    refine ⟨_, if_pos (by omega), ?_⟩
    have hgap : 8 - (hs.length + ts.length) = 8 - (hs.length + (ts.length + 1)) + 1 := by omega
    rw [hgap, List.replicate_succ', List.append_assoc, List.append_assoc, List.append_assoc, List.append_cancel_left_eq,
      List.append_cancel_left_eq, List.singleton_append, cons_eq_append_singleton]
  · cases h

theorem splitOn_cut {last : List Char} (before : List Char) (h : ':' ∉ last) :
    (before ++ ':' :: last).splitOn ':' = before.splitOn ':' ++ [last] := by
  rw [List.splitOn_append_cons_self, List.splitOn_eq_singleton h]

/-- Where the text before the last colon ends in one, there is no literal. -/
theorem parseIpv6_trailing {head : List Char} (h : Gapless (head ++ [':'])) : parseIpv6 (head ++ [':']) = none := by
  have hsplit : (head ++ [':']).splitOn ':' = head.splitOn ':' ++ [[]] := List.splitOn_append_cons_self head []
  have hread : readTail (head.splitOn ':' ++ [[]]) = none := by
    rw [readTail_append _ (by simp), Option.eq_none_iff_forall_ne_some]
    intro gs hgs
    obtain ⟨as, bs, -, hbs, -⟩ := readGroups_append.1 hgs
    obtain ⟨g, hg, -⟩ := readGroups_singleton.1 hbs
    exact (hexGroup_some hg).1 rfl
  rw [parseIpv6, splitGap_eq_none.2 h, hsplit, hread]
  rfl

/-- Fewer than eight groups without a double colon are no literal. -/
theorem parseIpv6_short {s : List Char} {gs : List Nat} (hgap : Gapless s) (h : readGroups (s.splitOn ':') = some gs)
    (hlen : gs.length ≠ 8) : parseIpv6 s = none := by
  have hread : readTail (s.splitOn ':') = some gs := by rw [readTail, h]
  rw [parseIpv6, splitGap_eq_none.2 hgap, hread]
  simp [hlen]

/-- The text is no IPv6 literal, and nor is what stands before its last colon, unless it ends in that colon. -/
structure NoLiteral (host : List Char) : Prop where
  colon : ':' ∈ host
  here : parseIpv6 host = none
  before : ∀ host' last, rsplitOnce ':' host = some (host', last) → last ≠ [] → ':' ∈ host' ∧ parseIpv6 host' = none

section Cut

variable {head tail init host last : List Char} {gs : List Nat}

/-- Eight groups become seven. -/
private theorem parseIpv6_cut_groups (hgap : splitGap (host ++ ':' :: last) = none)
    (h : parseIpv6 (host ++ ':' :: last) = some gs) (hcolon : ':' ∉ last) (hdot : '.' ∉ last) :
    (∀ c ∈ host, c = ':' ∨ (hexDigit c).isSome = true) ∧ NoLiteral host := by
  have hgapless := splitGap_eq_none.1 hgap
  rw [parseIpv6, hgap, splitOn_cut host hcolon] at h
  dsimp only at h
  rw [readTail_append _ hdot, Option.filter_eq_some_iff] at h
  obtain ⟨hread, hlen⟩ := h
  obtain ⟨as, bs, has, hbs, rfl⟩ := readGroups_append.1 hread
  obtain ⟨g, -, rfl⟩ := readGroups_singleton.1 hbs
  have hlen : as.length = 7 := by simpa using hlen
  refine ⟨readGroups_chars has, ?_, ?_, ?_⟩
  · exact colon_mem_of_readGroups has (by omega)
  · exact parseIpv6_short (hgapless.of_infix (List.prefix_append _ _).isInfix) has (by omega)
  · intro host' last' hcut' _
    obtain ⟨rfl, hcolon'⟩ := rsplitOnce_eq_some.1 hcut'
    rw [splitOn_cut host' hcolon'] at has
    obtain ⟨as', bs', has', hbs', rfl⟩ := readGroups_append.1 has
    obtain ⟨g', -, rfl⟩ := readGroups_singleton.1 hbs'
    have hlen' : as'.length = 6 := by simpa using hlen
    refine ⟨colon_mem_of_readGroups has' (by omega), parseIpv6_short (hgapless.of_infix ?_) has' (by omega)⟩
    rw [List.append_assoc]
    exact (List.prefix_append _ _).isInfix

/-- The double colon loses one of its colons. -/
private theorem noLiteral_trailing (hgapless : Gapless (head ++ [':'])) : NoLiteral (head ++ [':']) := by
  refine ⟨by simp, parseIpv6_trailing hgapless, fun host' last' hcut hlast => ?_⟩
  rw [rsplitOnce_append head List.not_mem_nil] at hcut
  cases hcut
  exact absurd rfl hlast

/-- The tail loses its last group. -/
private theorem parseIpv6_cut_tail {hs ts : List Nat} (hgapless : Gapless (head ++ [':']))
    (hhead : readGroups (sidePieces head) = some hs) (htail : readTail (sidePieces (init ++ ':' :: last)) = some ts)
    (h : fillGap hs ts = some gs) (hcolon : ':' ∉ last) (hdot : '.' ∉ last) :
    (∀ c ∈ init, c = ':' ∨ (hexDigit c).isSome = true) ∧
      ∃ gs', parseIpv6 (head ++ ':' :: ':' :: init) = some gs' ∧
        (gs' = gs ↔ ZeroTail (head ++ ':' :: ':' :: (init ++ ':' :: last))) := by
  have hside : sidePieces (init ++ ':' :: last) = init.splitOn ':' ++ [last] := by
    rw [sidePieces, if_neg (by simp), splitOn_cut init hcolon]
  rw [hside, readTail_append _ hdot] at htail
  obtain ⟨as, bs, has, hbs, rfl⟩ := readGroups_append.1 htail
  obtain ⟨g, -, rfl⟩ := readGroups_singleton.1 hbs
  have hinit : init ≠ [] := by
    rintro rfl
    obtain ⟨g', hg'⟩ := readGroups_mem has (List.mem_singleton.2 rfl)
    exact (hexGroup_some hg').1 rfl
  obtain ⟨gs', hgs', hiff⟩ := fillGap_cut h
  have hread : readTail (sidePieces init) = some as := by
    rw [sidePieces, if_neg hinit, readTail, has]
  refine ⟨readGroups_chars has, gs', ?_, ?_⟩
  · rw [parseIpv6, splitGap_append init hgapless]
    dsimp only
    rw [hhead, hread]
    exact hgs'
  · have hpos := List.length_pos_iff.2 (List.splitOn_ne_nil ':' init)
    rw [hiff, zeroTail_iff (splitGap_append _ hgapless), splitOn_cut init hcolon, readGroups_zero htail, and_iff_right]
    rw [List.length_append, List.length_singleton]
    omega

end Cut

/-- An IPv6 literal that does not end in an IPv4 address, cut at its last colon: what is left is a literal of the same
address, if the tail is zero, or of another one, or no literal. -/
theorem parseIpv6_cut {s host last : List Char} {gs : List Nat} (h : parseIpv6 s = some gs)
    (hcut : rsplitOnce ':' s = some (host, last)) (hdot : '.' ∉ last) :
    (∀ c ∈ host, c = ':' ∨ (hexDigit c).isSome = true) ∧
      ((∃ gs', parseIpv6 host = some gs' ∧ (gs' = gs ↔ ZeroTail s)) ∨ ¬ ZeroTail s ∧ NoLiteral host) := by
  obtain ⟨rfl, hcolon⟩ := rsplitOnce_eq_some.1 hcut
  cases hgap : splitGap (host ++ ':' :: last) with
  | none =>
    obtain ⟨hchars, hno⟩ := parseIpv6_cut_groups hgap h hcolon hdot
    exact ⟨hchars, Or.inr ⟨by simp [ZeroTail, hgap], hno⟩⟩
  | some sides =>
    obtain ⟨head, tail⟩ := sides
    obtain ⟨heq, hgapless⟩ := splitGap_eq_some.1 hgap
    rw [parseIpv6, hgap] at h
    dsimp only at h
    split at h
    · rename_i hs ts hhead htail
      have hheadchars := readGroups_side_chars hhead
      cases hcut' : rsplitOnce ':' tail with
      | none =>
        have htailcolon := rsplitOnce_eq_none.1 hcut'
        have hcut₂ : rsplitOnce ':' (host ++ ':' :: last) = some (head ++ [':'], tail) := by
          rw [heq, ← rsplitOnce_append (head ++ [':']) htailcolon, List.append_assoc]
          rfl
        obtain ⟨rfl, rfl⟩ := Prod.mk.inj (Option.some.inj (hcut.symm.trans hcut₂))
        refine ⟨fun c hc => ?_, Or.inr ⟨?_, noLiteral_trailing hgapless⟩⟩
        · rcases List.mem_append.1 hc with hc | hc
          · exact hheadchars c hc
          · exact Or.inl (List.mem_singleton.1 hc)
        · rw [zeroTail_iff hgap, List.splitOn_eq_singleton htailcolon]
          simp
      | some cut =>
        obtain ⟨init, last'⟩ := cut
        obtain ⟨rfl, hcolon'⟩ := rsplitOnce_eq_some.1 hcut'
        have hcut₂ : rsplitOnce ':' (host ++ ':' :: last) = some (head ++ ':' :: ':' :: init, last') := by
          rw [heq, ← rsplitOnce_append (head ++ ':' :: ':' :: init) hcolon', List.append_assoc]
          rfl
        obtain ⟨rfl, rfl⟩ := Prod.mk.inj (Option.some.inj (hcut.symm.trans hcut₂))
        obtain ⟨hchars, hleft⟩ := parseIpv6_cut_tail hgapless hhead htail h hcolon hdot
        rw [heq]
        exact ⟨forall_mem_gap hheadchars (Or.inl rfl) hchars, Or.inl hleft⟩
    · cases h

/-! ### Different addresses have different texts -/

theorem digitChar_inj : ∀ d < 16, ∀ e < 16, Nat.digitChar d = Nat.digitChar e → d = e := by decide

theorem toDigits_injective : Function.Injective (Nat.toDigits 16) := by
  intro n
  induction n using Nat.strong_induction_on with
  | _ n ih =>
    intro m h
    rw [Nat.toDigits_eq_if (by decide), Nat.toDigits_eq_if (n := m) (by decide)] at h
    have hne : ∀ k, Nat.toDigits 16 k ≠ [] := fun k => Nat.toDigits_ne_nil
    split at h
    · split at h
      · exact digitChar_inj n (by assumption) m (by assumption) (List.singleton_inj.1 h)
      · exact absurd (List.append_eq_singleton_iff.1 h.symm) (by simp [hne])
    · split at h
      · exact absurd (List.append_eq_singleton_iff.1 h) (by simp [hne])
      · obtain ⟨hdiv, hmod⟩ := List.append_inj' h rfl
        have hdiv := ih (n / 16) (by omega) hdiv
        have hmod := digitChar_inj _ (Nat.mod_lt _ (by decide)) _ (Nat.mod_lt _ (by decide)) (List.singleton_inj.1 hmod)
        omega

theorem colon_notMem_toDigits (n : Nat) : ':' ∉ Nat.toDigits 16 n := by
  have hdigit : ∀ d < 16, ':' ≠ Nat.digitChar d := by decide
  induction n using Nat.strong_induction_on with
  | _ n ih =>
    rw [Nat.toDigits_eq_if (by decide)]
    split
    · rename_i hn
      simp [hdigit n hn]
    · have hlast := hdigit (n % 16) (Nat.mod_lt _ (by decide))
      simpa [hlast] using ih (n / 16) (by omega)

theorem SockAddr.text_v6_inj {gs gs' : List Nat} {port : Nat} (hgs : gs ≠ []) (hgs' : gs' ≠ [])
    (h : SockAddr.text ⟨.v6 gs, port, 0⟩ = SockAddr.text ⟨.v6 gs', port, 0⟩) : gs = gs' := by
  have htext : ∀ gs, SockAddr.text ⟨.v6 gs, port, 0⟩ =
      String.ofList ('[' :: [':'].intercalate (gs.map (Nat.toDigits 16)) ++ ']' :: ':' :: Nat.toDigits 10 port) :=
    fun gs => by simp [SockAddr.text]
  rw [htext, htext] at h
  have hinter := List.append_cancel_right (List.cons_inj_right _ |>.1 (String.ofList_injective h))
  have hsplit : ∀ gs : List Nat, gs ≠ [] →
      ([':'].intercalate (gs.map (Nat.toDigits 16))).splitOn ':' = gs.map (Nat.toDigits 16) := by
    intro gs hne
    refine List.splitOn_intercalate ':' (fun l hl => ?_) (by simpa using hne)
    obtain ⟨g, -, rfl⟩ := List.mem_map.1 hl
    exact colon_notMem_toDigits g
  have hmap := congrArg (List.splitOn ':') hinter
  rw [hsplit gs hgs, hsplit gs' hgs'] at hmap
  exact List.map_injective_iff.2 toDigits_injective hmap

end Lib
