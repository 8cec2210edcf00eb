import Mathlib.Algebra.Order.BigOperators.Group.List
import Qdrop.Connection.Frame
import Qdrop.Lib.Msgpack

/-!
# The body of a message (`qdrop-core/src/proto.rs`)

`rmp_serde::to_vec_named` on `Message`: a map with the variant name under `t` and the fields under their own names.
The lemmas `length_pack_*` give the length of a body in the lengths of the strings and buffers it holds.
-/

namespace Qdrop

open Lib

def Caps.pack (c : Caps) : Bytes :=
  Msgpack.map [("clipboard_text", Msgpack.bool c.clipboardText), ("clipboard_images", Msgpack.bool c.clipboardImages),
    ("file_send", Msgpack.bool c.fileSend), ("open_url", Msgpack.bool c.openUrl), ("auth", Msgpack.bool c.auth)]

def DeviceInfo.pack (info : DeviceInfo) : Bytes :=
  Msgpack.map [("hostname", Msgpack.str info.hostname), ("macs", Msgpack.array (info.macs.map Msgpack.str)),
    ("os", Msgpack.str info.os)]

def ClipEntry.pack (e : ClipEntry) : Bytes :=
  Msgpack.map [("mime", Msgpack.str e.mime), ("data", Msgpack.bin e.data)]

/-- A unit variant is its name. -/
def BlobPurpose.pack : BlobPurpose → Bytes
  | .file => Msgpack.str "file"
  | .clipboardImage => Msgpack.str "clipboard_image"

/-- `rmp_serde::to_vec_named`. -/
def Message.pack : Message → Bytes
  | .hello h =>
    Msgpack.map [("t", Msgpack.str "hello"), ("protocol_version", Msgpack.uint h.protocolVersion),
      ("device_id", Msgpack.str h.deviceId), ("device_name", Msgpack.str h.deviceName), ("caps", h.caps.pack)]
  | .ping seq => Msgpack.map [("t", Msgpack.str "ping"), ("seq", Msgpack.uint seq)]
  | .pong seq => Msgpack.map [("t", Msgpack.str "pong"), ("seq", Msgpack.uint seq)]
  | .clipboard seq originId entries =>
    Msgpack.map [("t", Msgpack.str "clipboard"), ("seq", Msgpack.uint seq), ("origin_id", Msgpack.str originId),
      ("entries", Msgpack.array (entries.map ClipEntry.pack))]
  | .blobStart id name size purpose =>
    Msgpack.map [("t", Msgpack.str "blob_start"), ("id", Msgpack.uint id), ("name", Msgpack.str name),
      ("size", Msgpack.uint size), ("purpose", purpose.pack)]
  | .blobChunk id data =>
    Msgpack.map [("t", Msgpack.str "blob_chunk"), ("id", Msgpack.uint id), ("data", Msgpack.bin data)]
  | .blobEnd id sha256 =>
    Msgpack.map [("t", Msgpack.str "blob_end"), ("id", Msgpack.uint id),
      ("sha256", Msgpack.array (sha256.toList.map fun b => Msgpack.uint b.toNat))]
  | .blobAck id ok detail =>
    Msgpack.map [("t", Msgpack.str "blob_ack"), ("id", Msgpack.uint id), ("ok", Msgpack.bool ok),
      ("detail", Msgpack.str detail)]
  | .openUrl url => Msgpack.map [("t", Msgpack.str "open_url"), ("url", Msgpack.str url)]
  | .authRequest mutualAuth info =>
    Msgpack.map [("t", Msgpack.str "auth_request"), ("mutual", Msgpack.bool mutualAuth), ("info", info.pack)]
  | .authReply ok info =>
    Msgpack.map [("t", Msgpack.str "auth_reply"), ("ok", Msgpack.bool ok), ("info", info.pack)]

/-! ### The length of a body -/

theorem length_asBytes (t : String) : (asBytes t).length = t.utf8ByteSize := by
  simp [asBytes]

/-- A text of `n` bytes. -/
def longText (n : Nat) : String := String.ofList (List.replicate n 'x')

theorem utf8ByteSize_longText (n : Nat) : (longText n).utf8ByteSize = n := by
  unfold longText
  induction n with
  | zero => rfl
  | succ n ih =>
    rw [List.replicate_succ', String.ofList_append, String.utf8ByteSize_append, ih]
    rfl

/-- The bytes of a string with its header. -/
def strLen (s : String) : Nat := Msgpack.strSize s.utf8ByteSize

theorem strSize_utf8 (s : String) : Msgpack.strSize (Msgpack.utf8 s).length = strLen s :=
  congrArg _ (length_asBytes s)

/-- The bytes of a device's facts. -/
def DeviceInfo.packLen (info : DeviceInfo) : Nat :=
  18 + strLen info.hostname + Msgpack.seqHeaderSize info.macs.length + (info.macs.map strLen).sum + strLen info.os

theorem DeviceInfo.length_pack (info : DeviceInfo) : info.pack.length = info.packLen := by
  have h₁ : strLen "hostname" = 9 := rfl
  have h₂ : strLen "macs" = 5 := rfl
  have h₃ : strLen "os" = 3 := rfl
  have hmacs : (info.macs.map (List.length ∘ Msgpack.str)) = info.macs.map strLen :=
    List.map_congr_left fun m _ => by rw [Function.comp_apply, Msgpack.length_str, strSize_utf8]
  simp [DeviceInfo.pack, DeviceInfo.packLen, strSize_utf8, Msgpack.seqHeaderSize, h₁, h₂, h₃, hmacs]
  omega

theorem ClipEntry.length_pack_text (t : String) :
    (ClipEntry.text t).pack.length = 36 + Msgpack.binSize t.utf8ByteSize := by
  have h₁ : strLen "mime" = 5 := rfl
  have h₂ : strLen "data" = 5 := rfl
  have h₃ : strLen mimeText = 25 := rfl
  simp [ClipEntry.pack, ClipEntry.text, strSize_utf8, Msgpack.seqHeaderSize, h₁, h₂, h₃, length_asBytes]
  omega

theorem ClipEntry.length_pack_png (png : Bytes) :
    (ClipEntry.png png).pack.length = 21 + Msgpack.binSize png.length := by
  have h₁ : strLen "mime" = 5 := rfl
  have h₂ : strLen "data" = 5 := rfl
  have h₃ : strLen mimePng = 10 := rfl
  simp [ClipEntry.pack, ClipEntry.png, strSize_utf8, Msgpack.seqHeaderSize, h₁, h₂, h₃]
  omega

namespace Message

theorem length_pack_clipboard (seq : Nat) (originId : DeviceId) (e : ClipEntry) :
    (clipboard seq originId [e]).pack.length = 36 + Msgpack.uintSize seq + strLen originId + e.pack.length := by
  have h₁ : strLen "t" = 2 := rfl
  have h₂ : strLen "clipboard" = 10 := rfl
  have h₃ : strLen "seq" = 4 := rfl
  have h₄ : strLen "origin_id" = 10 := rfl
  have h₅ : strLen "entries" = 8 := rfl
  simp [pack, strSize_utf8, Msgpack.seqHeaderSize, h₁, h₂, h₃, h₄, h₅]
  omega

theorem length_pack_blobStart (id : Nat) (name : String) (size : Nat) (purpose : BlobPurpose) :
    (blobStart id name size purpose).pack.length =
      35 + Msgpack.uintSize id + strLen name + Msgpack.uintSize size + purpose.pack.length := by
  have h₁ : strLen "t" = 2 := rfl
  have h₂ : strLen "blob_start" = 11 := rfl
  have h₃ : strLen "id" = 3 := rfl
  have h₄ : strLen "name" = 5 := rfl
  have h₅ : strLen "size" = 5 := rfl
  have h₆ : strLen "purpose" = 8 := rfl
  simp [pack, strSize_utf8, Msgpack.seqHeaderSize, h₁, h₂, h₃, h₄, h₅, h₆]
  omega

theorem length_pack_blobChunk (id : Nat) (data : Bytes) :
    (blobChunk id data).pack.length = 22 + Msgpack.uintSize id + Msgpack.binSize data.length := by
  have h₁ : strLen "t" = 2 := rfl
  have h₂ : strLen "blob_chunk" = 11 := rfl
  have h₃ : strLen "id" = 3 := rfl
  have h₄ : strLen "data" = 5 := rfl
  simp [pack, strSize_utf8, Msgpack.seqHeaderSize, h₁, h₂, h₃, h₄]
  omega

/-- Each byte of a digest is written in one byte or two. -/
theorem length_pack_blobEnd (id : Nat) (sha : Digest) : (blobEnd id sha).pack.length ≤ 100 := by
  have h₁ : strLen "t" = 2 := rfl
  have h₂ : strLen "blob_end" = 9 := rfl
  have h₃ : strLen "id" = 3 := rfl
  have h₄ : strLen "sha256" = 7 := rfl
  have hid := Msgpack.uintSize_le id
  have hsha : (sha.toList.map (List.length ∘ fun b => Msgpack.uint b.toNat)).sum ≤ 32 * 2 := by
    refine (List.sum_le_card_nsmul _ 2 ?_).trans (by simp)
    simp only [List.mem_map, Function.comp_apply, Msgpack.length_uint]
    rintro n ⟨b, -, rfl⟩
    have hb := b.toNat_lt
    unfold Msgpack.uintSize
    rw [if_pos hb]
    split <;> omega
  simp [pack, strSize_utf8, Msgpack.seqHeaderSize, h₁, h₂, h₃, h₄]
  omega

theorem length_pack_blobAck (id : Nat) (ok : Bool) (detail : String) :
    (blobAck id ok detail).pack.length = 26 + Msgpack.uintSize id + strLen detail := by
  have h₁ : strLen "t" = 2 := rfl
  have h₂ : strLen "blob_ack" = 9 := rfl
  have h₃ : strLen "id" = 3 := rfl
  have h₄ : strLen "ok" = 3 := rfl
  have h₅ : strLen "detail" = 7 := rfl
  simp [pack, strSize_utf8, Msgpack.seqHeaderSize, h₁, h₂, h₃, h₄, h₅]
  omega

theorem length_pack_openUrl (url : String) : (openUrl url).pack.length = 16 + strLen url := by
  have h₁ : strLen "t" = 2 := rfl
  have h₂ : strLen "open_url" = 9 := rfl
  have h₃ : strLen "url" = 4 := rfl
  simp [pack, strSize_utf8, Msgpack.seqHeaderSize, h₁, h₂, h₃]
  omega

theorem length_pack_authRequest (mutualAuth : Bool) (info : DeviceInfo) :
    (authRequest mutualAuth info).pack.length = 29 + info.packLen := by
  have h₁ : strLen "t" = 2 := rfl
  have h₂ : strLen "auth_request" = 13 := rfl
  have h₃ : strLen "mutual" = 7 := rfl
  have h₄ : strLen "info" = 5 := rfl
  simp [pack, strSize_utf8, Msgpack.seqHeaderSize, h₁, h₂, h₃, h₄, DeviceInfo.length_pack]
  omega

theorem length_pack_authReply (ok : Bool) (info : DeviceInfo) :
    (authReply ok info).pack.length = 23 + info.packLen := by
  have h₁ : strLen "t" = 2 := rfl
  have h₂ : strLen "auth_reply" = 11 := rfl
  have h₃ : strLen "ok" = 3 := rfl
  have h₄ : strLen "info" = 5 := rfl
  simp [pack, strSize_utf8, Msgpack.seqHeaderSize, h₁, h₂, h₃, h₄, DeviceInfo.length_pack]
  omega

end Message

/-! ### What the codec writes -/

/-- The codec writes what `rmp_serde` writes. -/
def Codec.Packs (codec : Codec) : Prop := ∀ msg, codec.encode msg = some msg.pack

/-- A `Pong` is a short frame. -/
theorem Codec.Packs.pong {codec : Codec} (h : codec.Packs) (seq : Nat) :
    (writeMessage codec (.pong seq)).isSome = true := by
  have hlen : (Message.pong seq).pack.length ≤ 23 := by
    have hu := Msgpack.uintSize_le seq
    have h₁ : strLen "t" = 2 := rfl
    have h₂ : strLen "pong" = 5 := rfl
    have h₃ : strLen "seq" = 4 := rfl
    simp [Message.pack, strSize_utf8, Msgpack.seqHeaderSize, h₁, h₂, h₃]
    omega
  unfold writeMessage
  rw [h]
  dsimp only
  rw [if_pos (by omega)]
  rfl

example : (Message.openUrl "").pack = urlBody := by decide +kernel

end Qdrop
