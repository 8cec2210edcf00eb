import Qdrop.Connection.Pack
import Qdrop.Pairing.Trust

/-!
# An honest pairing (`qdrop-core/src/pairing.rs`)

An offerer and a requester run `exchange` with the same PIN on a reliable stream: it holds what one side writes until
the other reads it, in order and unchanged, and nothing times out.  Every such run ends, and both sides return
(`honest_pairing`).  `write_chunk` sends up to 65535 bytes and `read_chunk` accepts up to 4096, so the two return `Ok`
with each other's identity exactly when both identity payloads fit the reader; the name in the configuration is not
bounded, and a long one makes the pairing fail (`long_name_fails`).
-/

namespace Qdrop

open Lib

/-! ### The identity payload -/

/-- `rmp_serde::to_vec_named`; the key is a `Vec<u8>`, and so an array of integers. -/
def PairPayload.pack (p : PairPayload) : Bytes :=
  Msgpack.map [("device_id", Msgpack.str p.deviceId), ("device_name", Msgpack.str p.deviceName),
    ("public_key", Msgpack.array (p.publicKey.map fun b => Msgpack.uint b.toNat))]

/-- The length of a side's payload. -/
def LocalInfo.packLen (info : LocalInfo) : Nat :=
  37 + strLen info.deviceId + strLen info.deviceName +
    (info.publicKey.toList.map fun b => Msgpack.uintSize b.toNat).sum

theorem length_pack_payloadOf (info : LocalInfo) : (PairCall.payloadOf info).pack.length = info.packLen := by
  have h₁ : strLen "device_id" = 10 := rfl
  have h₂ : strLen "device_name" = 12 := rfl
  have h₃ : strLen "public_key" = 11 := rfl
  have hkey : info.publicKey.toList.map (List.length ∘ fun b => Msgpack.uint b.toNat) =
      info.publicKey.toList.map fun b => Msgpack.uintSize b.toNat :=
    List.map_congr_left fun b _ => Msgpack.length_uint _
  simp [PairPayload.pack, PairCall.payloadOf, LocalInfo.packLen, strSize_utf8, Msgpack.seqHeaderSize, h₁, h₂, h₃, hkey]
  omega

/-- What the other side learns. -/
def LocalInfo.paired (info : LocalInfo) : Paired := ⟨info.deviceId, info.deviceName, info.publicKey⟩

/-! ### Chunks -/

theorem beU16_inj {m n : Nat} (hm : m < 2 ^ 16) (hn : n < 2 ^ 16) (h : beU16 m = beU16 n) : m = n := by
  simp only [beU16, List.cons.injEq, and_true] at h
  have hhigh := congrArg UInt8.toNat h.1
  have hlow := congrArg UInt8.toNat h.2
  simp only [UInt8.toNat_ofNat'] at hhigh hlow
  omega

/-- The length that `read_chunk` reads is the one that `write_chunk` wrote. -/
theorem beU16_foldl (x y : UInt8) :
    [x, y].foldl (fun n b => n * 256 + b.toNat) 0 < 2 ^ 16 ∧
      beU16 ([x, y].foldl (fun n b => n * 256 + b.toNat) 0) = [x, y] := by
  have hx := x.toNat_lt
  have hy := y.toNat_lt
  simp only [List.foldl_cons, List.foldl_nil, Nat.zero_mul, Nat.zero_add]
  refine ⟨by omega, ?_⟩
  have hhigh : (x.toNat * 256 + y.toNat) / 256 = x.toNat := by omega
  have hlow : UInt8.ofNat (x.toNat * 256 + y.toNat) = y := by
    rw [← UInt8.toNat_inj, UInt8.toNat_ofNat']
    omega
  rw [beU16, hhigh, hlow, UInt8.ofNat_toNat]

@[simp] theorem length_beU16 (n : Nat) : (beU16 n).length = 2 := rfl

/-- A chunk tells where it ends. -/
theorem chunk_inj {a b x y : Bytes} (ha : a.length < 2 ^ 16) (hb : b.length < 2 ^ 16)
    (h : beU16 a.length ++ a ++ x = beU16 b.length ++ b ++ y) : a = b ∧ x = y := by
  rw [List.append_assoc, List.append_assoc] at h
  obtain ⟨hlen, hrest⟩ := List.append_inj h rfl
  exact List.append_inj hrest (beU16_inj ha hb hlen)

/-- The reader has taken its bytes from `input`, and `rest` is what is left of it. -/
def ChunkReader.Reads (input rest : Bytes) : ChunkReader → Prop
  | .header got => got.length < 2 ∧ got ++ rest = input
  | .body len got => got.length < len ∧ len ≤ maxPairFrame ∧ beU16 len ++ got ++ rest = input

def ChunkStep.Reads (input rest : Bytes) : ChunkStep → Prop
  | .more r => r.Reads input rest
  | .done data => 0 < data.length ∧ data.length ≤ maxPairFrame ∧ beU16 data.length ++ data ++ rest = input
  | .bad len => len < 2 ^ 16 ∧ (len = 0 ∨ maxPairFrame < len) ∧ beU16 len ++ rest = input

section Chunks

variable {input rest data more : Bytes} {r : ChunkReader}

theorem ChunkReader.Reads.feed {b : UInt8} (h : r.Reads input (b :: rest)) : (r.feed b).Reads input rest := by
  cases r with
  | header got =>
    obtain ⟨hlen, hinput⟩ := h
    rw [List.append_cons] at hinput
    unfold ChunkReader.feed
    dsimp only
    split
    · rename_i hshort
      exact ⟨by rw [List.length_append, List.length_singleton]; exact hshort, hinput⟩
    · obtain ⟨x, rfl⟩ : ∃ x, got = [x] := List.length_eq_one_iff.1 (by omega)
      obtain ⟨hlt, hbytes⟩ := beU16_foldl x b
      rw [List.singleton_append] at hinput ⊢
      rw [← hbytes] at hinput
      split
      · rename_i hbad
        exact ⟨hlt, hbad, hinput⟩
      · rename_i hgood
        refine ⟨?_, ?_, by rwa [List.append_nil]⟩
        · rw [List.length_nil]
          omega
        · omega
  | body len got =>
    obtain ⟨hlen, hmax, hinput⟩ := h
    have hinput : beU16 len ++ (got ++ [b]) ++ rest = input := by
      rw [← hinput, List.append_assoc, List.append_assoc, List.append_assoc, List.singleton_append]
    have hgot : (got ++ [b]).length = got.length + 1 := by rw [List.length_append, List.length_singleton]
    unfold ChunkReader.feed
    dsimp only
    split
    · rename_i hshort
      exact ⟨by rw [hgot]; exact hshort, hmax, hinput⟩
    · rename_i hlast
      obtain rfl : len = (got ++ [b]).length := by omega
      exact ⟨by omega, hmax, hinput⟩

/-- A reader within a chunk has bytes of it before it. -/
theorem ChunkReader.Reads.length_lt (h : r.Reads (beU16 data.length ++ data ++ more) rest)
    (hdata : data.length < 2 ^ 16) (hne : data ≠ []) : more.length < rest.length := by
  have hpos : 0 < data.length := List.length_pos_iff.2 hne
  cases r with
  | header got =>
    obtain ⟨hlen, hinput⟩ := h
    have hlength := congrArg List.length hinput
    simp only [List.length_append, length_beU16] at hlength
    omega
  | body len got =>
    obtain ⟨hlen, hmax, hinput⟩ := h
    have hmax' : len < 2 ^ 16 := lt_of_le_of_lt hmax (by decide)
    have hsame : beU16 len ++ (got ++ rest) = beU16 data.length ++ (data ++ more) := by
      rw [← List.append_assoc, hinput, List.append_assoc]
    obtain ⟨hhead, htail⟩ := List.append_inj hsame rfl
    have hlength := congrArg List.length htail
    rw [List.length_append, List.length_append, ← beU16_inj hmax' hdata hhead] at hlength
    omega

/-- `read_chunk` on the bytes that arrive. -/
def ChunkReader.readAll (r : ChunkReader) : Bytes → ChunkStep
  | [] => .more r
  | b :: bytes =>
    match r.feed b with
    | .more r' => r'.readAll bytes
    | step => step

theorem ChunkReader.Reads.readAll (h : r.Reads input rest) : ∃ rest', (r.readAll rest).Reads input rest' ∧
    ∀ r', r.readAll rest = .more r' → rest' = [] := by
  induction rest generalizing r with
  | nil => exact ⟨[], h, fun _ _ => rfl⟩
  | cons b rest ih =>
    have hfeed := h.feed
    unfold ChunkReader.readAll
    split
    · rename_i r' hr'
      rw [hr'] at hfeed
      exact ih hfeed
    · rename_i hnot
      exact ⟨rest, hfeed, fun r' hr' => absurd hr' (hnot r')⟩

/-- `read_chunk` accepts what `write_chunk` wrote exactly when it is not empty and not longer than 4096 bytes. -/
theorem readAll_chunkBytes {bytes : Bytes} (h : chunkBytes data = some bytes) :
    (ChunkReader.header []).readAll bytes = .done data ↔ 0 < data.length ∧ data.length ≤ maxPairFrame := by
  unfold chunkBytes at h
  split at h
  · rename_i hlt
    cases h
    have hstart : (ChunkReader.header []).Reads (beU16 data.length ++ data) (beU16 data.length ++ data) :=
      ⟨by decide, rfl⟩
    obtain ⟨rest', hreads, hmore⟩ := hstart.readAll
    constructor
    · intro hdone
      rw [hdone] at hreads
      exact ⟨hreads.1, hreads.2.1⟩
    · rintro ⟨hpos, hmax⟩
      cases hstep : (ChunkReader.header []).readAll (beU16 data.length ++ data) with
      | more r' =>
        rw [hstep] at hreads
        obtain rfl := hmore r' hstep
        rw [← List.append_nil (beU16 data.length ++ data)] at hreads
        have hlt' := ChunkReader.Reads.length_lt hreads hlt (List.length_pos_iff.1 hpos)
        exact absurd hlt' (lt_irrefl _)
      | done data' =>
        rw [hstep] at hreads
        obtain ⟨-, hmax', hinput⟩ := hreads
        rw [← List.append_nil (beU16 data.length ++ data)] at hinput
        rw [(chunk_inj (lt_of_le_of_lt hmax' (by decide)) hlt hinput).1]
      | bad len =>
        rw [hstep] at hreads
        obtain ⟨hlen, hbad, hinput⟩ := hreads
        have hsame := beU16_inj hlen hlt (List.append_inj hinput rfl).1
        omega
  · cases h

end Chunks

/-! ### The two sides and their stream -/

/-- What the two sides run `exchange` with. -/
structure HonestPairing (P : PairCrypto) where
  pin : String
  info : PairRole → LocalInfo
  rand : PairRole → P.Rand

@[simp] theorem PairRole.other_other (r : PairRole) : r.other.other = r := by
  cases r <;> rfl

theorem PairRole.other_ne (r : PairRole) : r.other ≠ r := by
  cases r <;> decide

def PairCall.hasReturned (c : PairCall) : Bool :=
  match c.phase with
  | .returned _ => true
  | _ => false

/-- The two calls, and how much of what the other side has written each of them has read. -/
structure HonestPair where
  calls : PairRole → PairCall
  read : PairRole → Nat

def HonestPair.start : HonestPair := ⟨fun _ => PairCall.start, fun _ => 0⟩

/-- The next byte for a side. -/
def HonestPair.next (s : HonestPair) (r : PairRole) : Option UInt8 := (s.calls r.other).written[s.read r]?

inductive HonestEvent where
  | begin (r : PairRole)
  /-- A side reads its next byte; a write it leads to fails only when the other side has dropped the stream. -/
  | deliver (r : PairRole) (writeErr : Option String)
  /-- The other side has dropped the stream, and all it wrote is read. -/
  | ended (r : PairRole)

variable {P : PairCrypto}

namespace HonestPairing

def setup (H : HonestPairing P) (r : PairRole) : PairSetup P := duo H.pin H.info H.rand r

def step (H : HonestPairing P) (s : HonestPair) : HonestEvent → Option HonestPair
  | .begin r =>
    ((s.calls r).begin (H.setup r) none).map fun c => { s with calls := Function.update s.calls r c }
  | .deliver r writeErr =>
    if writeErr = none ∨ (s.calls r.other).hasReturned = true then
      (s.next r).bind fun b => ((s.calls r).feed (H.setup r) b writeErr).map fun c =>
        ⟨Function.update s.calls r c, Function.update s.read r (s.read r + 1)⟩
    else none
  | .ended r =>
    if (s.calls r.other).hasReturned = true ∧ s.next r = none then
      ((s.calls r).readFails none).map fun c => { s with calls := Function.update s.calls r c }
    else none

/-- The payload of a side. -/
def identity (H : HonestPairing P) (r : PairRole) : Bytes := (PairCall.payloadOf (H.info r)).pack

/-- The SPAKE2 message of a side. -/
def spake (H : HonestPairing P) (r : PairRole) : Bytes := (PairCall.spakeStart (H.setup r)).2

/-- What `spake2` and `rmp_serde` do in this pairing: both sides derive the same key, from messages of 33 bytes, and
msgpack reads back the payloads it writes. -/
structure Correct (H : HonestPairing P) : Prop where
  key : ∃ key, ∀ r, P.finish (PairCall.spakeStart (H.setup r)).1 (H.spake r.other) = some key
  length_spake : ∀ r, (H.spake r).length = 33
  packs : ∀ r, P.toVecNamed (PairCall.payloadOf (H.info r)) = .ok (H.identity r)
  parses : ∀ r, P.fromSlice (H.identity r) = .ok (PairCall.payloadOf (H.info r))

/-! What a side writes, after its SPAKE2 chunk and as a whole. -/

section Stream

variable (H : HonestPairing P) (key : Bytes)

/-- The tag over the payload of a side. -/
def tag (r : PairRole) : Bytes :=
  (P.hmacSha256 (derive P.sha256 key r.sendLabel).toList (H.identity r)).toList

def hello (r : PairRole) : Bytes := beU16 (H.spake r).length ++ H.spake r

def tagged (r : PairRole) : Bytes := beU16 (H.identity r).length ++ H.identity r ++ H.tag key r

/-- What follows the SPAKE2 chunk, if `write_chunk` takes the payload. -/
def rest (r : PairRole) : Bytes := if (H.identity r).length < 2 ^ 16 then H.tagged key r ++ [1] else []

def stream (r : PairRole) : Bytes := H.hello r ++ H.rest key r

end Stream

/-- `write_chunk` takes the payload of a side. -/
def Sends (H : HonestPairing P) (r : PairRole) : Prop := (H.identity r).length < 2 ^ 16

/-- `read_chunk` takes it. -/
def Fits (H : HonestPairing P) (r : PairRole) : Prop := (H.identity r).length ≤ maxPairFrame

variable {H : HonestPairing P} {key : Bytes} {r : PairRole}

theorem length_identity (H : HonestPairing P) (r : PairRole) : (H.identity r).length = (H.info r).packLen :=
  length_pack_payloadOf _

theorem identity_ne_nil : H.identity r ≠ [] := by
  refine List.length_pos_iff.1 ?_
  rw [length_identity, LocalInfo.packLen]
  omega

theorem Fits.sends (h : H.Fits r) : H.Sends r := lt_of_le_of_lt h (by decide)

@[simp] theorem length_tag : (H.tag key r).length = 32 := Vector.length_toList

theorem rest_of_sends (h : H.Sends r) : H.rest key r = H.tagged key r ++ [1] := if_pos h

/-- The rest of the stream as a reader of the payload sees it. -/
theorem rest_chunk (h : H.Sends r) :
    H.rest key r = beU16 (H.identity r).length ++ H.identity r ++ (H.tag key r ++ [1]) := by
  rw [rest_of_sends h, tagged, List.append_assoc]

theorem stream_of_sends (h : H.Sends r) : H.stream key r = H.hello r ++ H.tagged key r ++ [1] := by
  rw [stream, rest_of_sends h, List.append_assoc]

theorem sends_of_rest_ne_nil (h : H.rest key r ≠ []) : H.Sends r := by
  by_contra hn
  exact h (if_neg hn)

/-! ### One side -/

/-- Where a call stands when `left` is what the other side has yet to be read of. -/
def Stage (H : HonestPairing P) (key : Bytes) (r : PairRole) (left : Bytes) (c : PairCall) : Prop :=
  match c.phase with
  | .starting => c.written = [] ∧ left = H.stream key r.other
  | .spake rd => c.written = H.hello r ∧ rd.Reads (H.stream key r.other) left
  | .payload rd =>
    c.key = some key ∧ H.Sends r ∧ c.written = H.hello r ++ H.tagged key r ∧ rd.Reads (H.rest key r.other) left
  | .tag theirs got =>
    c.key = some key ∧ H.Sends r ∧ c.written = H.hello r ++ H.tagged key r ∧ theirs = H.identity r.other ∧
      H.Fits r.other ∧ got.length < 32 ∧ got ++ left = H.tag key r.other ++ [1]
  | .confirm theirs =>
    H.Sends r ∧ c.written = H.stream key r ∧ theirs = H.identity r.other ∧ H.Fits r.other ∧ left = [1]
  | .returned (.ok paired) =>
    H.Sends r ∧ c.written = H.stream key r ∧ paired = (H.info r.other).paired ∧ H.Fits r.other ∧ left = []
  | .returned (.error _) => ¬ (H.Fits r ∧ H.Fits r.other) ∧ c.written <+: H.stream key r

/-- What a side has written is the beginning of its stream. -/
theorem Stage.written_stream {left : Bytes} {c : PairCall} (h : Stage H key r left c) :
    c.written <+: H.stream key r := by
  unfold Stage at h
  split at h
  · rw [h.1]
    exact List.nil_prefix
  · rw [h.1]
    exact List.prefix_append _ _
  · rw [h.2.2.1, stream_of_sends h.2.1]
    exact List.prefix_append _ _
  · rw [h.2.2.1, stream_of_sends h.2.1]
    exact List.prefix_append _ _
  · exact h.2.1 ▸ List.prefix_refl _
  · exact h.2.1 ▸ List.prefix_refl _
  · exact h.2

section Call

variable {left : Bytes} {c c' : PairCall} {writeErr : Option String}

theorem stage_begin (hc : H.Correct) (h : Stage H key r left c) (hs : c.begin (H.setup r) none = some c') :
    Stage H key r left c' := by
  have hchunk : chunkBytes (PairCall.spakeStart (H.setup r)).2 = some (H.hello r) :=
    if_pos (by rw [show (PairCall.spakeStart (H.setup r)).2.length = 33 from hc.length_spake r]; decide)
  unfold PairCall.begin at hs
  split at hs
  · rename_i hp
    simp only [Stage, hp] at h
    rw [hchunk] at hs
    cases hs
    refine ⟨?_, by decide, h.2⟩
    rw [h.1, List.nil_append]
  · cases hs

/-- A write fails only when the pairing fails anyway, or when there is nothing more to write. -/
def MayFail (H : HonestPairing P) (key : Bytes) (r : PairRole) (c : PairCall) (writeErr : Option String) : Prop :=
  ∀ err, writeErr = some err → ¬ (H.Fits r ∧ H.Fits r.other) ∨ c.written = H.stream key r

theorem stage_onSpake (hc : H.Correct)
    (hkey : P.finish (PairCall.spakeStart (H.setup r)).1 (H.spake r.other) = some key)
    (hwritten : c.written = H.hello r) (hw : MayFail H key r c writeErr) :
    Stage H key r (H.rest key r.other) (c.onSpake (H.setup r) (H.spake r.other) writeErr) := by
  have hpre : c.written <+: H.stream key r := by
    rw [hwritten]
    exact List.prefix_append _ _
  have hpacks : P.toVecNamed (PairCall.payloadOf (H.setup r).info) = .ok (H.identity r) := hc.packs r
  unfold PairCall.onSpake
  rw [hkey]
  dsimp only
  rw [hpacks]
  dsimp only
  by_cases hsends : H.Sends r
  · have hchunk : chunkBytes (H.identity r) = some (beU16 (H.identity r).length ++ H.identity r) := if_pos hsends
    rw [hchunk]
    cases writeErr with
    | some err =>
      refine ⟨?_, hpre⟩
      rcases hw err rfl with hno | hall
      · exact hno
      · rw [hwritten, stream_of_sends hsends, List.append_assoc] at hall
        have hlength := congrArg List.length hall
        simp only [List.length_append, List.length_singleton] at hlength
        omega
    | none =>
      refine ⟨rfl, hsends, ?_, by decide, rfl⟩
      dsimp only
      rw [hwritten, List.append_assoc, tagged]
      rfl
  · have hchunk : chunkBytes (H.identity r) = none := if_neg hsends
    rw [hchunk]
    exact ⟨fun hfits => hsends hfits.1.sends, hpre⟩

theorem toDigest_toList (d : Digest) : toDigest d.toList = d := by
  refine Vector.ext fun i hi => ?_
  simp [toDigest]

theorem stage_onTag (hkey : c.key = some key) (hsends : H.Sends r)
    (hwritten : c.written = H.hello r ++ H.tagged key r) (hfits : H.Fits r.other) (hw : MayFail H key r c writeErr) :
    Stage H key r [1] (c.onTag (H.setup r) (H.identity r.other) (H.tag key r.other) writeErr) := by
  have hlabel : (H.setup r).role.recvLabel = r.other.sendLabel := by cases r <;> rfl
  have hver : c.verifies (H.setup r) (H.identity r.other) (H.tag key r.other) = true := by
    unfold PairCall.verifies
    rw [hkey]
    dsimp only
    rw [ctEq_iff, tag, toDigest_toList, hlabel]
  have hstream : H.stream key r = H.hello r ++ H.tagged key r ++ [1] := stream_of_sends hsends
  unfold PairCall.onTag
  rw [if_pos hver]
  cases writeErr with
  | some err =>
    refine ⟨?_, ?_⟩
    · rcases hw err rfl with hno | hall
      · exact hno
      · rw [hwritten, hstream] at hall
        have hlength := congrArg List.length hall
        simp only [List.length_append, List.length_singleton] at hlength
        omega
    · show c.written <+: H.stream key r
      rw [hwritten, hstream]
      exact List.prefix_append _ _
  | none =>
    refine ⟨hsends, ?_, rfl, hfits, rfl⟩
    dsimp only
    rw [hwritten, hstream]

theorem parse_identity (hc : H.Correct) : PairCall.parse P (H.identity r) = .ok (H.info r).paired := by
  unfold PairCall.parse
  rw [hc.parses r]
  dsimp only
  rw [dif_pos (by simp [PairCall.payloadOf])]
  simp [PairCall.payloadOf, LocalInfo.paired, Vector.toList]

/-- A reader that has read something reads a stream that is there. -/
theorem ne_nil_of_reads {input : Bytes} {b : UInt8} {rd : ChunkReader} (h : rd.Reads input (b :: left)) :
    input ≠ [] := by
  rintro rfl
  cases rd with
  | header got => simp [ChunkReader.Reads] at h
  | body len got => simp [ChunkReader.Reads] at h

private theorem stage_spake {b : UInt8} {rd : ChunkReader} (hc : H.Correct)
    (hkey : P.finish (PairCall.spakeStart (H.setup r)).1 (H.spake r.other) = some key)
    (hp : c.phase = .spake rd) (h : Stage H key r (b :: left) c) (hw : MayFail H key r c writeErr)
    (hs : c.feed (H.setup r) b writeErr = some c') : Stage H key r left c' := by
  simp only [Stage, hp] at h
  obtain ⟨hwritten, hreads⟩ := h
  have hstep := hreads.feed
  have hshort : (H.spake r.other).length < 2 ^ 16 := by rw [hc.length_spake]; decide
  unfold PairCall.feed at hs
  rw [hp] at hs
  dsimp only at hs
  cases hfeed : rd.feed b with
  | more rd' =>
    rw [hfeed] at hs hstep
    cases hs
    exact ⟨hwritten, hstep⟩
  | bad len =>
    rw [hfeed] at hstep
    obtain ⟨hlen, hbad, hinput⟩ := hstep
    rw [stream, hello, List.append_assoc] at hinput
    have hsame := beU16_inj hlen hshort (List.append_inj hinput rfl).1
    rw [hc.length_spake] at hsame
    rw [hsame] at hbad
    exact absurd hbad (by decide)
  | done theirs =>
    rw [hfeed] at hs hstep
    obtain ⟨-, hmax, hinput⟩ := hstep
    obtain ⟨rfl, rfl⟩ := chunk_inj (lt_of_le_of_lt hmax (by decide)) hshort hinput
    cases hs
    exact stage_onSpake hc hkey hwritten hw

private theorem stage_payload {b : UInt8} {rd : ChunkReader} (hp : c.phase = .payload rd)
    (h : Stage H key r (b :: left) c) (hs : c.feed (H.setup r) b writeErr = some c') : Stage H key r left c' := by
  have hpre := h.written_stream
  simp only [Stage, hp] at h
  obtain ⟨hkey, hsends, hwritten, hreads⟩ := h
  have hsent : H.Sends r.other := sends_of_rest_ne_nil (ne_nil_of_reads hreads)
  have hstep := hreads.feed
  rw [rest_chunk hsent] at hstep
  unfold PairCall.feed at hs
  rw [hp] at hs
  dsimp only at hs
  cases hfeed : rd.feed b with
  | more rd' =>
    rw [hfeed] at hs hstep
    cases hs
    exact ⟨hkey, hsends, hwritten, by rw [rest_chunk hsent]; exact hstep⟩
  | bad len =>
    -- the payload of the other side is too long for us
    rw [hfeed] at hs hstep
    cases hs
    obtain ⟨hlen, hbad, hinput⟩ := hstep
    rw [List.append_assoc] at hinput
    have hsame := beU16_inj hlen hsent (List.append_inj hinput rfl).1
    refine ⟨fun hfits => ?_, hpre⟩
    have hpos := List.length_pos_iff.2 (identity_ne_nil (H := H) (r := r.other))
    have hle : (H.identity r.other).length ≤ maxPairFrame := hfits.2
    omega
  | done theirs =>
    rw [hfeed] at hs hstep
    cases hs
    obtain ⟨-, hmax, hinput⟩ := hstep
    obtain ⟨rfl, rfl⟩ := chunk_inj (lt_of_le_of_lt hmax (by decide)) hsent hinput
    exact ⟨hkey, hsends, hwritten, rfl, hmax, by decide, rfl⟩

private theorem stage_tag {b : UInt8} {theirs got : Bytes} (hp : c.phase = .tag theirs got)
    (h : Stage H key r (b :: left) c) (hw : MayFail H key r c writeErr)
    (hs : c.feed (H.setup r) b writeErr = some c') : Stage H key r left c' := by
  simp only [Stage, hp] at h
  obtain ⟨hkey, hsends, hwritten, rfl, hfits, hlen, htag⟩ := h
  rw [List.append_cons] at htag
  have hgot : (got ++ [b]).length = got.length + 1 := by rw [List.length_append, List.length_singleton]
  unfold PairCall.feed at hs
  rw [hp] at hs
  dsimp only at hs
  split at hs
  · rename_i hshort
    cases hs
    exact ⟨hkey, hsends, hwritten, rfl, hfits, by rw [hgot]; exact hshort, htag⟩
  · rename_i hfull
    cases hs
    obtain ⟨hall, rfl⟩ := List.append_inj htag (by rw [hgot, length_tag]; omega)
    rw [hall]
    exact stage_onTag hkey hsends hwritten hfits hw

/-- One more byte of the other side's stream. -/
theorem stage_feed {b : UInt8} (hc : H.Correct)
    (hkey : P.finish (PairCall.spakeStart (H.setup r)).1 (H.spake r.other) = some key)
    (h : Stage H key r (b :: left) c) (hw : MayFail H key r c writeErr)
    (hs : c.feed (H.setup r) b writeErr = some c') : Stage H key r left c' := by
  cases hp : c.phase with
  | starting => simp [PairCall.feed, hp] at hs
  | spake rd => exact stage_spake hc hkey hp h hw hs
  | payload rd => exact stage_payload hp h hs
  | tag theirs got => exact stage_tag hp h hw hs
  | confirm theirs =>
    simp only [Stage, hp] at h
    obtain ⟨hsends, hwritten, rfl, hfits, hleft⟩ := h
    obtain ⟨rfl, rfl⟩ := List.cons_eq_cons.1 hleft
    simp only [PairCall.feed, hp, PairCall.onAck, if_pos, Option.some.injEq] at hs
    rw [parse_identity hc] at hs
    subst hs
    exact ⟨hsends, hwritten, rfl, hfits, rfl⟩
  | returned result => simp [PairCall.feed, hp] at hs

/-! What a call still has to read, and what it has written, by how far it is. -/

end Call

end HonestPairing

/-- The writes a call has made: none, the SPAKE2 chunk, the payload with its tag, the confirmation. -/
def PairPhase.level : PairPhase → Nat
  | .starting => 0
  | .spake _ => 1
  | .payload _ | .tag _ _ => 2
  | .confirm _ => 3
  | .returned _ => 4

/-- A call that waits for bytes. -/
def PairPhase.reading : PairPhase → Bool
  | .spake _ | .payload _ | .tag _ _ | .confirm _ => true
  | .starting | .returned _ => false

theorem PairPhase.level_pos {p : PairPhase} (h : p.reading = true) : 1 ≤ p.level := by
  cases p with
  | starting => cases h
  | returned result => cases h
  | spake rd => exact le_refl 1
  | payload rd => exact Nat.le_succ 1
  | tag theirs got => exact Nat.le_succ 1
  | confirm theirs => exact Nat.le_add_left 1 2

namespace HonestPairing

variable {H : HonestPairing P} {key : Bytes} {r : PairRole} {left : Bytes} {c c' : PairCall}

/-- How much of a side's stream is unwritten at a level. -/
def unwritten (H : HonestPairing P) (key : Bytes) (r : PairRole) : Nat → Nat
  | 0 => (H.stream key r).length
  | 1 => (H.rest key r).length
  | 2 => 1
  | _ => 0

theorem Stage.length_stream (h : Stage H key r left c) (hread : c.phase.reading = true) :
    (H.stream key r).length = c.written.length + H.unwritten key r c.phase.level := by
  cases hp : c.phase with
  | starting => rw [hp] at hread; cases hread
  | returned result => rw [hp] at hread; cases hread
  | spake rd =>
    simp only [Stage, hp] at h
    rw [h.1, stream, List.length_append]
    rfl
  | payload rd =>
    simp only [Stage, hp] at h
    rw [h.2.2.1, stream_of_sends h.2.1, List.length_append]
    rfl
  | tag theirs got =>
    simp only [Stage, hp] at h
    rw [h.2.2.1, stream_of_sends h.2.1, List.length_append]
    rfl
  | confirm theirs =>
    simp only [Stage, hp] at h
    rw [h.2.1]
    rfl

/-- A call has bytes of its level before it; from the payload on, if the other side sends one. -/
theorem Stage.unwritten_lt (hc : H.Correct) (h : Stage H key r left c) (hread : c.phase.reading = true)
    (hsent : c.phase.level = 1 ∨ H.Sends r.other) : H.unwritten key r.other c.phase.level < left.length := by
  cases hp : c.phase with
  | starting => rw [hp] at hread; cases hread
  | returned result => rw [hp] at hread; cases hread
  | spake rd =>
    simp only [Stage, hp] at h
    have hlen := hc.length_spake r.other
    exact ChunkReader.Reads.length_lt h.2 (by rw [hlen]; decide) (List.length_pos_iff.1 (by rw [hlen]; decide))
  | payload rd =>
    have hsent : H.Sends r.other := by
      rcases hsent with h1 | hsent
      · rw [hp] at h1; cases h1
      · exact hsent
    simp only [Stage, hp] at h
    have hreads := h.2.2.2
    rw [rest_chunk hsent] at hreads
    have hlt := ChunkReader.Reads.length_lt hreads hsent identity_ne_nil
    rw [List.length_append, length_tag, List.length_singleton] at hlt
    show 1 < left.length
    omega
  | tag theirs got =>
    simp only [Stage, hp] at h
    obtain ⟨-, -, -, -, -, hlen, htag⟩ := h
    have hlength := congrArg List.length htag
    rw [List.length_append, List.length_append, length_tag, List.length_singleton] at hlength
    show 1 < left.length
    omega
  | confirm theirs =>
    simp only [Stage, hp] at h
    rw [h.2.2.2.2]
    exact Nat.zero_lt_one

theorem unwritten_anti {m n : Nat} (hsent : 2 ≤ n → H.Sends r) (hm : 1 ≤ m) (hmn : m ≤ n) :
    H.unwritten key r n ≤ H.unwritten key r m := by
  rcases Nat.lt_or_ge 2 n with hn | hn
  · obtain ⟨k, rfl⟩ : ∃ k, n = k + 3 := ⟨n - 3, by omega⟩
    exact Nat.zero_le _
  · obtain ⟨rfl, rfl⟩ | ⟨rfl, rfl⟩ | ⟨rfl, rfl⟩ : m = 1 ∧ n = 1 ∨ m = 1 ∧ n = 2 ∨ m = 2 ∧ n = 2 := by omega
    · exact le_refl _
    · show 1 ≤ (H.rest key r).length
      rw [rest_of_sends (hsent (le_refl _)), List.length_append]
      exact Nat.le_add_left _ _
    · exact le_refl _

theorem Stage.sends (h : Stage H key r left c) (hread : c.phase.reading = true) (hlevel : 2 ≤ c.phase.level) :
    H.Sends r := by
  cases hp : c.phase with
  | starting => rw [hp] at hread; cases hread
  | returned result => rw [hp] at hread; cases hread
  | spake rd => rw [hp, PairPhase.level] at hlevel; omega
  | payload rd =>
    simp only [Stage, hp] at h
    exact h.2.1
  | tag theirs got =>
    simp only [Stage, hp] at h
    exact h.2.1
  | confirm theirs =>
    simp only [Stage, hp] at h
    exact h.1

theorem readFails_none (hs : c.readFails none = some c') :
    c.phase.reading = true ∧ c' = c.finish (.error .peerAborted) := by
  unfold PairCall.readFails at hs
  split at hs
  · cases hs
  · cases hs
  all_goals
    rename_i hp
    rw [hp]
    exact ⟨rfl, (Option.some.inj hs).symm⟩

end HonestPairing

/-! What a call has written stays written. -/

section Written

variable {setup : PairSetup P} {c c' : PairCall} {b : UInt8} {writeErr : Option String}

theorem written_begin (hs : c.begin setup writeErr = some c') : c.written <+: c'.written := by
  unfold PairCall.begin at hs
  split at hs
  · split at hs
    · cases hs
      exact List.prefix_refl _
    · cases hs
      exact List.prefix_refl _
    · cases hs
      exact List.prefix_append _ _
  · cases hs

theorem written_onSpake (theirs : Bytes) : c.written <+: (c.onSpake setup theirs writeErr).written := by
  unfold PairCall.onSpake
  split
  · exact List.prefix_refl _
  · dsimp only
    split
    · exact List.prefix_refl _
    · split
      · exact List.prefix_refl _
      · exact List.prefix_refl _
      · dsimp only
        rw [List.append_assoc]
        exact List.prefix_append _ _

theorem written_onTag (theirs tag : Bytes) : c.written <+: (c.onTag setup theirs tag writeErr).written := by
  unfold PairCall.onTag
  split
  · split
    · exact List.prefix_refl _
    · exact List.prefix_append _ _
  · split
    · exact List.prefix_refl _
    · exact List.prefix_append _ _

theorem written_feed (hs : c.feed setup b writeErr = some c') : c.written <+: c'.written := by
  unfold PairCall.feed at hs
  split at hs
  · cases hs
  · cases hs
  · split at hs
    · cases hs
      exact List.prefix_refl _
    · cases hs
      exact List.prefix_refl _
    · cases hs
      exact written_onSpake _
  · split at hs
    · cases hs
      exact List.prefix_refl _
    · cases hs
      exact List.prefix_refl _
    · cases hs
      exact List.prefix_refl _
  · split at hs
    · cases hs
      exact List.prefix_refl _
    · cases hs
      exact written_onTag _ _
  · cases hs
    unfold PairCall.onAck
    split <;> exact List.prefix_refl _

end Written

/-! ### Both sides -/

namespace HonestPairing

variable {H : HonestPairing P} {key : Bytes} {r : PairRole} {s s' : HonestPair}

/-- Each call stands where the bytes it has read take it. -/
structure Synced (H : HonestPairing P) (key : Bytes) (s : HonestPair) : Prop where
  stage : ∀ r, Stage H key r ((H.stream key r.other).drop (s.read r)) (s.calls r)
  read_le : ∀ r, s.read r ≤ (s.calls r.other).written.length

theorem synced_start : Synced H key .start where
  stage _ := ⟨rfl, rfl⟩
  read_le _ := Nat.zero_le _

theorem Synced.update (h : Synced H key s) {c' : PairCall} {n : Nat}
    (hstage : Stage H key r ((H.stream key r.other).drop n) c') (hwritten : (s.calls r).written <+: c'.written)
    (hn : n ≤ (s.calls r.other).written.length) :
    Synced H key ⟨Function.update s.calls r c', Function.update s.read r n⟩ := by
  constructor
  · intro q
    dsimp only
    by_cases hq : q = r
    · subst hq
      rw [Function.update_self, Function.update_self]
      exact hstage
    · rw [Function.update_of_ne hq, Function.update_of_ne hq]
      exact h.stage q
  · intro q
    dsimp only
    by_cases hq : q = r
    · subst hq
      rw [Function.update_self, Function.update_of_ne q.other_ne]
      exact hn
    · obtain rfl : q.other = r := by cases q <;> cases r <;> first | rfl | exact absurd rfl hq
      rw [Function.update_of_ne hq, Function.update_self]
      exact (h.read_le q).trans hwritten.length_le

/-- The bytes that a side reads next are what is left of the stream. -/
theorem Synced.next (h : Synced H key s) {b : UInt8} (hb : s.next r = some b) :
    (H.stream key r.other).drop (s.read r) = b :: (H.stream key r.other).drop (s.read r + 1) := by
  have hpre : (s.calls r.other).written <+: H.stream key r.other := (h.stage r.other).written_stream
  obtain ⟨hlt, rfl⟩ := List.getElem?_eq_some_iff.1 hb
  rw [List.drop_eq_getElem_cons (lt_of_lt_of_le hlt hpre.length_le), hpre.getElem hlt]

/-- A side that is gone has failed, or has read and written everything. -/
theorem Synced.gone (h : Synced H key s) (hret : (s.calls r.other).hasReturned = true) :
    ¬ (H.Fits r ∧ H.Fits r.other) ∨
      (s.calls r).written = H.stream key r ∧ (s.calls r.other).written = H.stream key r.other ∧ H.Sends r.other := by
  have hstage := h.stage r.other
  rw [PairRole.other_other] at hstage
  unfold PairCall.hasReturned at hret
  split at hret
  · rename_i result hp
    simp only [Stage, hp, PairRole.other_other] at hstage
    cases result with
    | error err =>
      left
      rintro ⟨hr, ho⟩
      exact hstage.1 ⟨ho, hr⟩
    | ok paired =>
      obtain ⟨hsends, hwritten, -, -, hleft⟩ := hstage
      refine Or.inr ⟨?_, hwritten, hsends⟩
      have hread := h.read_le r.other
      rw [PairRole.other_other] at hread
      have hpre : (s.calls r).written <+: H.stream key r := (h.stage r).written_stream
      exact hpre.eq_of_length_le ((List.drop_eq_nil_iff.1 hleft).trans hread)
  · cases hret

/-- A call begins, reads a byte, or finds the other side gone. -/
theorem step_cases {e : HonestEvent} (hs : H.step s e = some s') :
    (∃ r c', (s.calls r).begin (H.setup r) none = some c' ∧
      s' = ⟨Function.update s.calls r c', Function.update s.read r (s.read r)⟩) ∨
    (∃ r writeErr b c', (writeErr = none ∨ (s.calls r.other).hasReturned = true) ∧ s.next r = some b ∧
      (s.calls r).feed (H.setup r) b writeErr = some c' ∧
      s' = ⟨Function.update s.calls r c', Function.update s.read r (s.read r + 1)⟩) ∨
    ∃ r, (s.calls r.other).hasReturned = true ∧ s.next r = none ∧ (s.calls r).phase.reading = true ∧
      s' = ⟨Function.update s.calls r ((s.calls r).finish (.error .peerAborted)),
        Function.update s.read r (s.read r)⟩ := by
  cases e with
  | begin r =>
    obtain ⟨c', hc', rfl⟩ := Option.map_eq_some_iff.1 hs
    exact Or.inl ⟨r, c', hc', by rw [Function.update_eq_self]⟩
  | deliver r writeErr =>
    unfold step at hs
    dsimp only at hs
    split at hs
    · rename_i hmay
      obtain ⟨b, hb, hs⟩ := Option.bind_eq_some_iff.1 hs
      obtain ⟨c', hc', rfl⟩ := Option.map_eq_some_iff.1 hs
      exact Or.inr (Or.inl ⟨r, writeErr, b, c', hmay, hb, hc', rfl⟩)
    · cases hs
  | ended r =>
    unfold step at hs
    dsimp only at hs
    split at hs
    · rename_i hend
      obtain ⟨c', hc', rfl⟩ := Option.map_eq_some_iff.1 hs
      obtain ⟨hread, rfl⟩ := readFails_none hc'
      exact Or.inr (Or.inr ⟨r, hend.1, hend.2, hread, by rw [Function.update_eq_self]⟩)
    · cases hs

theorem synced_step (hc : H.Correct)
    (hkey : ∀ r, P.finish (PairCall.spakeStart (H.setup r)).1 (H.spake r.other) = some key) (h : Synced H key s)
    {e : HonestEvent} (hs : H.step s e = some s') : Synced H key s' := by
  rcases step_cases hs with ⟨r, c', hc', rfl⟩ | ⟨r, writeErr, b, c', hmay, hb, hc', rfl⟩ | ⟨r, hret, hend, hread, rfl⟩
  · exact h.update (stage_begin hc (h.stage r) hc') (written_begin hc') (h.read_le r)
  · have hw : MayFail H key r (s.calls r) writeErr := by
      rintro err rfl
      rcases hmay with hnone | hret
      · cases hnone
      · rcases h.gone hret with hno | ⟨hall, -, -⟩
        · exact Or.inl hno
        · exact Or.inr hall
    have hstage := h.stage r
    rw [h.next hb] at hstage
    obtain ⟨hlt, -⟩ := List.getElem?_eq_some_iff.1 hb
    exact h.update (stage_feed hc (hkey r) hstage hw hc') (written_feed hc') hlt
  · have hno : ¬ (H.Fits r ∧ H.Fits r.other) := by
      rcases h.gone hret with hno | ⟨-, hwritten, hsends⟩
      · exact hno
      · -- the whole stream is there, and it takes us to the end
        have hall : (s.calls r.other).written.length ≤ s.read r := List.getElem?_eq_none_iff.1 hend
        have hstage := h.stage r
        rw [hwritten] at hall
        rw [List.drop_eq_nil_of_le hall] at hstage
        exact absurd (hstage.unwritten_lt hc hread (Or.inr hsends)) (Nat.not_lt_zero _)
    have hstage : Stage H key r ((H.stream key r.other).drop (s.read r))
        ((s.calls r).finish (.error .peerAborted)) := ⟨hno, (h.stage r).written_stream⟩
    exact h.update hstage (List.prefix_refl _) (h.read_le r)

/-! Some call can always go on, and not forever. -/

theorem exists_begin (setup : PairSetup P) {c : PairCall} (hp : c.phase = .starting) :
    ∃ c', c.begin setup none = some c' := by
  unfold PairCall.begin
  rw [hp]
  dsimp only
  split <;> exact ⟨_, rfl⟩

theorem exists_readFails {c : PairCall} (hread : c.phase.reading = true) : ∃ c', c.readFails none = some c' := by
  unfold PairCall.readFails
  split
  · rename_i hp
    rw [hp] at hread
    cases hread
  · rename_i hp
    rw [hp] at hread
    cases hread
  all_goals exact ⟨_, rfl⟩

theorem exists_feed (setup : PairSetup P) {c : PairCall} (hread : c.phase.reading = true) (b : UInt8) :
    ∃ c', c.feed setup b none = some c' := by
  unfold PairCall.feed
  split
  · rename_i hp
    rw [hp] at hread
    cases hread
  · rename_i hp
    rw [hp] at hread
    cases hread
  · split <;> exact ⟨_, rfl⟩
  · split <;> exact ⟨_, rfl⟩
  · split <;> exact ⟨_, rfl⟩
  · exact ⟨_, rfl⟩

/-- Of two sides that wait for bytes, the one that is behind has some. -/
theorem Synced.next_of_le (hc : H.Correct) (h : Synced H key s) (hr : (s.calls r).phase.reading = true)
    (ho : (s.calls r.other).phase.reading = true) (hle : (s.calls r).phase.level ≤ (s.calls r.other).phase.level) :
    ∃ b, s.next r = some b := by
  have hstage := h.stage r
  have hother := h.stage r.other
  have hsent : 2 ≤ (s.calls r.other).phase.level → H.Sends r.other := fun h2 => hother.sends ho h2
  have hpos : 1 ≤ (s.calls r).phase.level := PairPhase.level_pos hr
  have hlevel : (s.calls r).phase.level = 1 ∨ H.Sends r.other := by
    rcases Nat.lt_or_ge 1 (s.calls r).phase.level with h2 | h1
    · exact Or.inr (hsent (h2.trans_le hle))
    · exact Or.inl (le_antisymm h1 hpos)
  have hlt := hstage.unwritten_lt hc hr hlevel
  have hanti : H.unwritten key r.other (s.calls r.other).phase.level ≤
      H.unwritten key r.other (s.calls r).phase.level := unwritten_anti hsent hpos hle
  have hlen := hother.length_stream ho
  rw [List.length_drop] at hlt
  have hread : s.read r < (s.calls r.other).written.length := by omega
  exact ⟨_, List.getElem?_eq_getElem hread⟩

/-- A state in which no event is enabled has both calls returned. -/
theorem Synced.returned_of_stuck (hc : H.Correct) (h : Synced H key s) (hstuck : Stuck H.step s) (r : PairRole) :
    (s.calls r).hasReturned = true := by
  have hdeliver : ∀ q b, (s.calls q).phase.reading = true → s.next q ≠ some b := by
    intro q b hq hb
    obtain ⟨c', hc'⟩ := exists_feed (H.setup q) hq b
    have hnone := hstuck (.deliver q none)
    simp [step, hb, hc'] at hnone
  have hphase : ∀ q, (s.calls q).phase.reading = true ∨ (s.calls q).hasReturned = true := by
    intro q
    cases hp : (s.calls q).phase with
    | starting =>
      obtain ⟨c', hc'⟩ := exists_begin (H.setup q) hp
      have hnone := hstuck (.begin q)
      simp [step, hc'] at hnone
    | returned result =>
      right
      rw [PairCall.hasReturned, hp]
    | spake | payload | tag | confirm => exact Or.inl rfl
  rcases hphase r with hr | hr
  · exfalso
    rcases hphase r.other with ho | ho
    · rcases Nat.le_total (s.calls r).phase.level (s.calls r.other).phase.level with hle | hle
      · obtain ⟨b, hb⟩ := h.next_of_le hc hr ho hle
        exact hdeliver r b hr hb
      · obtain ⟨b, hb⟩ := h.next_of_le hc ho (by rwa [PairRole.other_other]) (by rwa [PairRole.other_other])
        exact hdeliver r.other b ho hb
    · cases hb : s.next r with
      | some b => exact hdeliver r b hr hb
      | none =>
        obtain ⟨c', hc'⟩ := exists_readFails hr
        have hnone := hstuck (.ended r)
        simp [step, ho, hb, hc'] at hnone
  · exact hr

/-- How far a call is between not begun and returned. -/
def marks (c : PairCall) : Nat :=
  match c.phase with
  | .starting => 0
  | .returned _ => 2
  | _ => 1

theorem marks_le (c : PairCall) : marks c ≤ 2 := by
  unfold marks
  split <;> decide

theorem one_le_marks {c : PairCall} (h : c.phase ≠ .starting) : 1 ≤ marks c := by
  unfold marks
  split
  · exact absurd ‹_› h
  · exact Nat.le_succ 1
  · exact le_refl 1

theorem marks_begin {setup : PairSetup P} {c c' : PairCall} (hs : c.begin setup none = some c') :
    marks c < marks c' := by
  unfold PairCall.begin at hs
  split at hs
  · rename_i hp
    have hc : marks c = 0 := by rw [marks, hp]
    rw [hc]
    apply one_le_marks
    split at hs <;> (cases hs; exact (fun h => by cases h))
  · cases hs

theorem marks_reading {c : PairCall} (hread : c.phase.reading = true) : marks c = 1 := by
  cases hp : c.phase with
  | starting => rw [hp] at hread; cases hread
  | returned result => rw [hp] at hread; cases hread
  | spake | payload | tag | confirm => rw [marks, hp]

theorem onSpake_ne_starting {setup : PairSetup P} (c : PairCall) (theirs : Bytes) (writeErr : Option String) :
    (c.onSpake setup theirs writeErr).phase ≠ .starting := by
  unfold PairCall.onSpake
  split
  · exact fun h => by cases h
  · dsimp only
    split
    · exact fun h => by cases h
    · split <;> exact fun h => by cases h

theorem onTag_ne_starting {setup : PairSetup P} (c : PairCall) (theirs tag : Bytes) (writeErr : Option String) :
    (c.onTag setup theirs tag writeErr).phase ≠ .starting := by
  unfold PairCall.onTag
  split
  · split <;> exact fun h => by cases h
  · split <;> exact fun h => by cases h

theorem marks_feed {setup : PairSetup P} {c c' : PairCall} {b : UInt8} {writeErr : Option String}
    (hs : c.feed setup b writeErr = some c') : marks c ≤ marks c' := by
  have hle : c.phase.reading = true ∧ c'.phase ≠ .starting := by
    unfold PairCall.feed at hs
    split at hs
    · cases hs
    · cases hs
    · rename_i hp
      refine ⟨by rw [hp]; rfl, ?_⟩
      split at hs
      · cases hs
        exact fun h => by cases h
      · cases hs
        exact fun h => by cases h
      · cases hs
        exact onSpake_ne_starting _ _ _
    · rename_i hp
      refine ⟨by rw [hp]; rfl, ?_⟩
      split at hs <;> (cases hs; exact fun h => by cases h)
    · rename_i hp
      refine ⟨by rw [hp]; rfl, ?_⟩
      split at hs
      · cases hs
        exact fun h => by cases h
      · cases hs
        exact onTag_ne_starting _ _ _ _
    · rename_i hp
      refine ⟨by rw [hp]; rfl, ?_⟩
      cases hs
      unfold PairCall.onAck
      split <;> exact fun h => by cases h
  rw [marks_reading hle.1]
  exact one_le_marks hle.2

/-- What has been read and how far the calls are. -/
def weight (s : HonestPair) : Nat :=
  s.read .offerer + s.read .requester + marks (s.calls .offerer) + marks (s.calls .requester)

theorem weight_update (s : HonestPair) (r : PairRole) (c : PairCall) (n : Nat) :
    weight ⟨Function.update s.calls r c, Function.update s.read r n⟩ + s.read r + marks (s.calls r) =
      weight s + n + marks c := by
  cases r with
  | offerer =>
    simp [weight]
    omega
  | requester =>
    simp [weight]
    omega

theorem weight_step {e : HonestEvent} (hs : H.step s e = some s') : weight s < weight s' := by
  rcases step_cases hs with ⟨r, c', hc', rfl⟩ | ⟨r, writeErr, b, c', -, -, hc', rfl⟩ | ⟨r, -, -, hread, rfl⟩
  · have hw := weight_update s r c' (s.read r)
    have hm := marks_begin hc'
    omega
  · have hw := weight_update s r c' (s.read r + 1)
    have hm := marks_feed hc'
    omega
  · have hw := weight_update s r ((s.calls r).finish (.error .peerAborted)) (s.read r)
    have hm := marks_reading hread
    have hret : marks ((s.calls r).finish (.error .peerAborted)) = 2 := rfl
    omega

theorem Synced.weight_le (h : Synced H key s) :
    weight s ≤ (H.stream key .offerer).length + (H.stream key .requester).length + 4 := by
  have hread : ∀ r : PairRole, s.read r ≤ (H.stream key r.other).length := fun r =>
    (h.read_le r).trans (h.stage r.other).written_stream.length_le
  have hA := hread .offerer
  have hB := hread .requester
  have hmA := marks_le (s.calls .offerer)
  have hmB := marks_le (s.calls .requester)
  simp only [PairRole.other] at hA hB
  unfold weight
  omega

/-- What both sides have returned tells whether both payloads fit. -/
theorem Synced.ok_iff (h : Synced H key s) (hret : ∀ r, (s.calls r).hasReturned = true) :
    (∀ r, (s.calls r).phase = .returned (.ok (H.info r.other).paired)) ↔ ∀ r, H.Fits r := by
  constructor
  · intro hok r
    have hstage := h.stage r.other
    simp only [Stage, hok, PairRole.other_other] at hstage
    exact hstage.2.2.2.1
  · intro hfits r
    have hstage := h.stage r
    have hr := hret r
    unfold PairCall.hasReturned at hr
    split at hr
    · rename_i result hp
      simp only [Stage, hp] at hstage
      cases result with
      | error err => exact absurd ⟨hfits r, hfits r.other⟩ hstage.1
      | ok paired =>
        obtain ⟨-, -, rfl, -, -⟩ := hstage
        exact hp
    · cases hr

section Runs

variable {es : List HonestEvent}

theorem synced_of_run (hc : H.Correct) :
    ∃ key, ∀ es s, Run H.step Always .start es s → Synced H key s := by
  obtain ⟨key, hkey⟩ := hc.key
  exact ⟨key, fun es s hr => hr.invariant synced_start fun _ _ _ h _ hs => synced_step hc hkey h hs⟩

theorem run_bounded (hc : H.Correct) : ∃ n, ∀ es s, Run H.step Always .start es s → es.length ≤ n := by
  obtain ⟨key, hsynced⟩ := synced_of_run hc
  refine ⟨(H.stream key .offerer).length + (H.stream key .requester).length + 4, fun es s hr => ?_⟩
  have hlen := hr.length_add_weight_le weight fun _ _ _ hs => weight_step hs
  have hle := (hsynced es s hr).weight_le
  omega

theorem ok_iff_fits (hc : H.Correct) (hr : Run H.step Always .start es s) (hstuck : Stuck H.step s) :
    (∀ r, (s.calls r).hasReturned = true) ∧
      ((∀ r, (s.calls r).phase = .returned (.ok (H.info r.other).paired)) ↔
        ∀ r, (H.info r).packLen ≤ maxPairFrame) := by
  obtain ⟨key, hsynced⟩ := synced_of_run hc
  have h := hsynced es s hr
  have hret := h.returned_of_stuck hc hstuck
  refine ⟨hret, (h.ok_iff hret).trans (forall_congr' fun r => ?_)⟩
  rw [Fits, length_identity]

end Runs

end HonestPairing

/-- `read_chunk` accepts a chunk that `write_chunk` wrote exactly when it holds between 1 and 4096 bytes.  Whatever the
PIN and the identities, a pairing of two honest sides ends, after a bounded number of steps and with both sides
returned; both return `Ok` with the identity of the other exactly when both identity payloads have at most 4096
bytes. -/
theorem honest_pairing (P : PairCrypto) (H : HonestPairing P) (hc : H.Correct) :
    (∀ data bytes, chunkBytes data = some bytes →
      ((ChunkReader.header []).readAll bytes = .done data ↔ 0 < data.length ∧ data.length ≤ maxPairFrame)) ∧
    (∃ n, ∀ es s, Run H.step Always .start es s → es.length ≤ n) ∧
    ∀ es s, Run H.step Always .start es s → Stuck H.step s →
      (∀ r, (s.calls r).hasReturned = true) ∧
        ((∀ r, (s.calls r).phase = .returned (.ok (H.info r.other).paired)) ↔
          ∀ r, (H.info r).packLen ≤ maxPairFrame) :=
  ⟨fun _ _ h => readAll_chunkBytes h, HonestPairing.run_bounded hc, fun _ _ hr hstuck =>
    HonestPairing.ok_iff_fits hc hr hstuck⟩

/-! ### A recorded exchange, and one with a long name -/

section Recorded

private def pairAB : HonestPairing recorded := ⟨"424242", infoOf, fun _ => ()⟩

private theorem pack_infoOf (r : PairRole) : (PairCall.payloadOf (infoOf r)).pack = packed r := by
  cases r <;> decide +kernel

theorem pairAB_correct : pairAB.Correct where
  key := ⟨sharedKey, fun r => by cases r <;> decide +kernel⟩
  length_spake r := by cases r <;> rfl
  packs r := by
    rw [HonestPairing.identity, show pairAB.info = infoOf from rfl, pack_infoOf]
    cases r <;> decide +kernel
  parses r := by
    rw [HonestPairing.identity, show pairAB.info = infoOf from rfl, pack_infoOf]
    cases r <;> decide +kernel

theorem honest_pairing_recorded :
    ∃ es s, Run pairAB.step Always .start es s ∧ ∀ r, (s.calls r).phase = .returned (.ok (infoOf r.other).paired) := by
  obtain ⟨-, ⟨n, hn⟩, hall⟩ := honest_pairing recorded pairAB pairAB_correct
  obtain ⟨es, s, hr, hstuck⟩ := exists_stuck hn
  refine ⟨es, s, hr, (hall es s hr hstuck).2.2 fun r => ?_⟩
  cases r <;> decide +kernel

/-- The requester's configuration names it with 5000 letters. -/
private def longInfo : PairRole → LocalInfo
  | .offerer => infoOf .offerer
  | .requester => ⟨"b", longText 5000, toDigest [98]⟩

/-- The crates on the inputs of this exchange. -/
private def recordedLong : PairCrypto where
  Rand := recorded.Rand
  State := recorded.State
  startA := recorded.startA
  startB := recorded.startB
  finish := recorded.finish
  sha256 := recorded.sha256
  hmacSha256 key data :=
    if key = (subkeyOf .b2a).toList ∧ data = (PairCall.payloadOf (longInfo .requester)).pack then toDigest
      [147, 53, 104, 191, 254, 105, 36, 81, 215, 166, 181, 133, 226, 75, 179, 81, 123, 142, 200, 43, 232, 118, 65,
        114, 91, 2, 127, 88, 70, 127, 151, 206]
    else recorded.hmacSha256 key data
  toVecNamed p := .ok p.pack
  fromSlice bytes :=
    if bytes = (PairCall.payloadOf (longInfo .offerer)).pack then .ok (PairCall.payloadOf (longInfo .offerer))
    else .ok (PairCall.payloadOf (longInfo .requester))

private def pairLong : HonestPairing recordedLong := ⟨"424242", longInfo, fun _ => ()⟩

private theorem packLen_offerer : (longInfo .offerer).packLen = 77 := by decide +kernel

private theorem lt_packLen {info : LocalInfo} (h : info.deviceName.utf8ByteSize = 5000) :
    maxPairFrame < info.packLen := by
  have hname : strLen info.deviceName = 5003 := by rw [strLen, h]; decide
  have hmax : maxPairFrame = 4096 := rfl
  rw [LocalInfo.packLen, hname, hmax]
  omega

private theorem lt_packLen_requester : maxPairFrame < (longInfo .requester).packLen :=
  lt_packLen (utf8ByteSize_longText 5000)

private theorem fromSlice_recordedLong (bytes : Bytes) :
    recordedLong.fromSlice bytes =
      if bytes = (PairCall.payloadOf (longInfo .offerer)).pack then .ok (PairCall.payloadOf (longInfo .offerer))
      else .ok (PairCall.payloadOf (longInfo .requester)) := rfl

private theorem pairLong_correct : pairLong.Correct where
  key := ⟨sharedKey, fun r => by cases r <;> decide +kernel⟩
  length_spake r := by cases r <;> rfl
  packs _ := rfl
  parses r := by
    rw [HonestPairing.identity, show pairLong.info = longInfo from rfl, fromSlice_recordedLong]
    cases r with
    | offerer => rw [if_pos rfl]
    | requester =>
      refine if_neg fun h => ?_
      have hlength : (longInfo .requester).packLen = (longInfo .offerer).packLen := by
        rw [← length_pack_payloadOf, ← length_pack_payloadOf, h]
      have hlt := lt_packLen_requester
      rw [hlength, packLen_offerer] at hlt
      exact absurd hlt (by decide)

/-- A side whose name has 5000 letters does not pair. -/
theorem long_name_fails :
    ¬ ∀ (P : PairCrypto) (H : HonestPairing P), H.Correct → ∀ es s, Run H.step Always .start es s →
      Stuck H.step s → ∀ r, (s.calls r).phase = .returned (.ok (H.info r.other).paired) := by
  intro h
  obtain ⟨n, hn⟩ := HonestPairing.run_bounded pairLong_correct
  obtain ⟨es, s, hr, hstuck⟩ := exists_stuck hn
  have hfits := (HonestPairing.ok_iff_fits pairLong_correct hr hstuck).2.1
    (h recordedLong pairLong pairLong_correct es s hr hstuck) .requester
  exact absurd lt_packLen_requester (not_lt_of_ge hfits)

end Recorded

end Qdrop
