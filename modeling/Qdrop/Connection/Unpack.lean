import Qdrop.Connection.Pack
import Qdrop.Connection.Stream
import Qdrop.Lib.MsgpackValue

/-!
# Bodies are read back (`qdrop-core/src/proto.rs`)

A message as a MessagePack value and back: `Message.ofValue` looks the fields up by their names, takes the defaults of
`proto.rs` for those that are missing, and does not look at others.  The body of every message is read back
(`unpack_pack`), so the bytes that are written for some messages determine them (`stream_determines`).
-/

namespace Qdrop

open Lib
open Lib.Msgpack (Value)

/-! ### Messages as values -/

def Caps.value (c : Caps) : Value :=
  .map [("clipboard_text", .bool c.clipboardText), ("clipboard_images", .bool c.clipboardImages),
    ("file_send", .bool c.fileSend), ("open_url", .bool c.openUrl), ("auth", .bool c.auth)]

def DeviceInfo.value (info : DeviceInfo) : Value :=
  .map [("hostname", .str info.hostname), ("macs", .array (info.macs.map .str)), ("os", .str info.os)]

def ClipEntry.value (e : ClipEntry) : Value := .map [("mime", .str e.mime), ("data", .bin e.data)]

def BlobPurpose.value : BlobPurpose → Value
  | .file => .str "file"
  | .clipboardImage => .str "clipboard_image"

def Message.value : Message → Value
  | .hello h =>
    .map [("t", .str "hello"), ("protocol_version", .uint h.protocolVersion), ("device_id", .str h.deviceId),
      ("device_name", .str h.deviceName), ("caps", h.caps.value)]
  | .ping seq => .map [("t", .str "ping"), ("seq", .uint seq)]
  | .pong seq => .map [("t", .str "pong"), ("seq", .uint seq)]
  | .clipboard seq originId entries =>
    .map [("t", .str "clipboard"), ("seq", .uint seq), ("origin_id", .str originId),
      ("entries", .array (entries.map ClipEntry.value))]
  | .blobStart id name size purpose =>
    .map [("t", .str "blob_start"), ("id", .uint id), ("name", .str name), ("size", .uint size),
      ("purpose", purpose.value)]
  | .blobChunk id data => .map [("t", .str "blob_chunk"), ("id", .uint id), ("data", .bin data)]
  | .blobEnd id sha256 =>
    .map [("t", .str "blob_end"), ("id", .uint id), ("sha256", .array (sha256.toList.map fun b => .uint b.toNat))]
  | .blobAck id ok detail =>
    .map [("t", .str "blob_ack"), ("id", .uint id), ("ok", .bool ok), ("detail", .str detail)]
  | .openUrl url => .map [("t", .str "open_url"), ("url", .str url)]
  | .authRequest mutualAuth info =>
    .map [("t", .str "auth_request"), ("mutual", .bool mutualAuth), ("info", info.value)]
  | .authReply ok info => .map [("t", .str "auth_reply"), ("ok", .bool ok), ("info", info.value)]

theorem Caps.pack_eq (c : Caps) : c.pack = c.value.write := rfl

theorem DeviceInfo.pack_eq (info : DeviceInfo) : info.pack = info.value.write := by
  simp only [DeviceInfo.pack, DeviceInfo.value, Value.write, Value.writeFields, Value.writeItems_map]

theorem ClipEntry.pack_eq (e : ClipEntry) : e.pack = e.value.write := rfl

theorem BlobPurpose.pack_eq (p : BlobPurpose) : p.pack = p.value.write := by cases p <;> rfl

/-- The body of a message is the writing of its value. -/
theorem Message.pack_eq (msg : Message) : msg.pack = msg.value.write := by
  cases msg with
  | hello | ping | pong | blobChunk | blobAck | openUrl => rfl
  | clipboard seq originId entries =>
    simp only [Message.pack, Message.value, Value.write, Value.writeFields, Value.writeItems_map, ← ClipEntry.pack_eq]
  | blobStart id name size purpose =>
    simp only [Message.pack, Message.value, Value.write, Value.writeFields, ← BlobPurpose.pack_eq]
  | blobEnd id sha256 =>
    simp only [Message.pack, Message.value, Value.write, Value.writeFields, Value.writeItems_map]
  | authRequest mutualAuth info | authReply ok info =>
    simp only [Message.pack, Message.value, Value.write, Value.writeFields, ← DeviceInfo.pack_eq]

/-! ### Values as messages -/

/-- Every capability is `#[serde(default)]`. -/
def Caps.ofValue (v : Value) : Option Caps := do
  let cap (name : String) : Option Bool := v.fieldOr name Value.asBool false
  some ⟨← cap "clipboard_text", ← cap "clipboard_images", ← cap "file_send", ← cap "open_url", ← cap "auth"⟩

def DeviceInfo.ofValue (v : Value) : Option DeviceInfo := do
  some ⟨← (← v.field "hostname").asStr, ← (← v.field "macs").asArray Value.asStr, ← (← v.field "os").asStr⟩

def ClipEntry.ofValue (v : Value) : Option ClipEntry := do
  some ⟨← (← v.field "mime").asStr, ← (← v.field "data").asBin⟩

def BlobPurpose.ofValue (v : Value) : Option BlobPurpose := do
  match ← v.asStr with
  | "file" => some .file
  | "clipboard_image" => some .clipboardImage
  | _ => none

/-- A `[u8; 32]` from the items of an array. -/
def digestOfValue (v : Value) : Option Digest := do
  let bytes ← v.asArray (Value.asUint 8)
  if h : (bytes.map UInt8.ofNat).toArray.size = 32 then some ⟨(bytes.map UInt8.ofNat).toArray, h⟩ else none

def Message.ofValue (v : Value) : Option Message := do
  let uint (name : String) (bits : Nat) : Option Nat := do (← v.field name).asUint bits
  let str (name : String) : Option String := do (← v.field name).asStr
  let bool (name : String) : Option Bool := do (← v.field name).asBool
  match ← str "t" with
  | "hello" =>
    some (.hello ⟨← uint "protocol_version" 32, ← str "device_id", ← str "device_name",
      ← Caps.ofValue (← v.field "caps")⟩)
  | "ping" => some (.ping (← uint "seq" 64))
  | "pong" => some (.pong (← uint "seq" 64))
  | "clipboard" =>
    some (.clipboard (← uint "seq" 64) (← str "origin_id") (← (← v.field "entries").asArray ClipEntry.ofValue))
  | "blob_start" =>
    some (.blobStart (← uint "id" 64) (← str "name") (← uint "size" 64)
      (← v.fieldOr "purpose" BlobPurpose.ofValue .file))
  | "blob_chunk" => some (.blobChunk (← uint "id" 64) (← (← v.field "data").asBin))
  | "blob_end" => some (.blobEnd (← uint "id" 64) (← digestOfValue (← v.field "sha256")))
  | "blob_ack" => some (.blobAck (← uint "id" 64) (← bool "ok") (← str "detail"))
  | "open_url" => some (.openUrl (← str "url"))
  | "auth_request" => some (.authRequest (← bool "mutual") (← DeviceInfo.ofValue (← v.field "info")))
  | "auth_reply" => some (.authReply (← bool "ok") (← DeviceInfo.ofValue (← v.field "info")))
  | _ => none

/-- The numbers of a message are those of its fields' types. -/
def Message.InRange : Message → Prop
  | .hello h => h.protocolVersion < 2 ^ 32
  | .ping seq | .pong seq | .clipboard seq _ _ => seq < 2 ^ 64
  | .blobStart id _ size _ => id < 2 ^ 64 ∧ size < 2 ^ 64
  | .blobChunk id _ | .blobEnd id _ | .blobAck id _ _ => id < 2 ^ 64
  | .openUrl _ | .authRequest _ _ | .authReply _ _ => True

instance (msg : Message) : Decidable msg.InRange := by
  cases msg <;> unfold Message.InRange <;> infer_instance

/-! ### Round trip -/

theorem Caps.ofValue_value (c : Caps) : Caps.ofValue c.value = some c := rfl

theorem DeviceInfo.ofValue_value (info : DeviceInfo) : DeviceInfo.ofValue info.value = some info := by
  have hmacs : Value.asArray Value.asStr (.array (info.macs.map .str)) = some info.macs :=
    Value.asArray_map fun _ _ => rfl
  simp [DeviceInfo.ofValue, DeviceInfo.value, Value.field, List.lookup_cons, Value.asStr, hmacs]

theorem ClipEntry.ofValue_value (e : ClipEntry) : ClipEntry.ofValue e.value = some e := rfl

theorem BlobPurpose.ofValue_value (p : BlobPurpose) : BlobPurpose.ofValue p.value = some p := by cases p <;> rfl

theorem digestOfValue_value (sha : Digest) :
    digestOfValue (.array (sha.toList.map fun b => .uint b.toNat)) = some sha := by
  have hitems : Value.asArray (Value.asUint 8) (.array ((sha.toList.map UInt8.toNat).map .uint)) =
      some (sha.toList.map UInt8.toNat) := by
    refine Value.asArray_map fun n hn => Value.asUint_uint ?_
    obtain ⟨b, -, rfl⟩ := List.mem_map.1 hn
    exact b.toNat_lt
  rw [List.map_map] at hitems
  have hback : (sha.toList.map UInt8.toNat).map UInt8.ofNat = sha.toList := by
    rw [List.map_map]
    exact (List.map_congr_left fun b _ => UInt8.ofNat_toNat).trans (List.map_id _)
  have harray : sha.toList.toArray = sha.toArray := rfl
  unfold digestOfValue
  rw [show (fun b : UInt8 => Value.uint b.toNat) = Value.uint ∘ UInt8.toNat from rfl, hitems]
  simp [hback, harray]

/-- A message is looked up in its value. -/
theorem Message.ofValue_value (msg : Message) (h : msg.InRange) : Message.ofValue msg.value = some msg := by
  cases msg with
  | hello hello =>
    simp [ofValue, value, Value.field, List.lookup_cons, Value.asStr, Value.asUint_uint h, Caps.ofValue_value]
  | ping seq | pong seq => simp [ofValue, value, Value.field, List.lookup_cons, Value.asStr, Value.asUint_uint h]
  | clipboard seq originId entries =>
    have hentries : Value.asArray ClipEntry.ofValue (.array (entries.map ClipEntry.value)) = some entries :=
      Value.asArray_map fun e _ => e.ofValue_value
    simp [ofValue, value, Value.field, List.lookup_cons, Value.asStr, Value.asUint_uint h, hentries]
  | blobStart id name size purpose =>
    simp [ofValue, value, Value.field, Value.fieldOr, List.lookup_cons, Value.asStr, Value.asUint_uint h.1,
      Value.asUint_uint h.2, BlobPurpose.ofValue_value]
  | blobChunk id data =>
    simp [ofValue, value, Value.field, List.lookup_cons, Value.asStr, Value.asBin, Value.asUint_uint h]
  | blobEnd id sha =>
    simp [ofValue, value, Value.field, List.lookup_cons, Value.asStr, Value.asUint_uint h, digestOfValue_value]
  | blobAck id ok detail =>
    simp [ofValue, value, Value.field, List.lookup_cons, Value.asStr, Value.asBool, Value.asUint_uint h]
  | openUrl url => simp [ofValue, value, Value.field, List.lookup_cons, Value.asStr]
  | authRequest mutualAuth info | authReply ok info =>
    simp [ofValue, value, Value.field, List.lookup_cons, Value.asStr, Value.asBool, DeviceInfo.ofValue_value]

theorem Message.fits_value (msg : Message) (h : msg.InRange) : msg.value.Fits := by
  have hinfo : ∀ info : DeviceInfo, info.value.Fits := fun info =>
    ⟨trivial, Value.fitItems_map fun _ _ => trivial, trivial, trivial⟩
  cases msg with
  | hello hello =>
    have hv : hello.protocolVersion < 2 ^ 32 := h
    exact ⟨trivial, by show _ < 2 ^ 64; omega, trivial, trivial, ⟨trivial, trivial, trivial, trivial, trivial, trivial⟩,
      trivial⟩
  | ping seq | pong seq => exact ⟨trivial, h, trivial⟩
  | clipboard seq originId entries =>
    exact ⟨trivial, h, trivial, Value.fitItems_map fun _ _ => ⟨trivial, trivial, trivial⟩, trivial⟩
  | blobStart id name size purpose => exact ⟨trivial, h.1, trivial, h.2, by cases purpose <;> exact trivial, trivial⟩
  | blobChunk id data => exact ⟨trivial, h, trivial, trivial⟩
  | blobEnd id sha =>
    refine ⟨trivial, h, Value.fitItems_map fun b _ => ?_, trivial⟩
    have hb := b.toNat_lt
    show b.toNat < 2 ^ 64
    omega
  | blobAck id ok detail => exact ⟨trivial, h, trivial, trivial, trivial⟩
  | openUrl url => exact ⟨trivial, trivial, trivial⟩
  | authRequest mutualAuth info | authReply ok info => exact ⟨trivial, trivial, hinfo info, trivial⟩

/-- The message at the head of a stream of values. -/
def Message.unpack (bytes : Bytes) : Option Message := (Value.parse bytes).bind fun r => Message.ofValue r.1

/-- The body of a message is read back. -/
theorem unpack_pack (msg : Message) (h : msg.InRange) (hlen : msg.pack.length < 2 ^ 32) :
    Message.unpack msg.pack = some msg := by
  rw [Message.pack_eq] at hlen
  have hparse := Value.parse_write msg.value (msg.fits_value h) hlen []
  rw [List.append_nil] at hparse
  rw [Message.unpack, Message.pack_eq, hparse]
  exact msg.ofValue_value h

/-- Different messages have different bodies. -/
theorem Message.pack_inj {msg msg' : Message} (h : msg.InRange) (h' : msg'.InRange)
    (hlen : msg.pack.length < 2 ^ 32) (heq : msg.pack = msg'.pack) : msg = msg' := by
  have hread := unpack_pack msg h hlen
  rw [heq, unpack_pack msg' h' (heq ▸ hlen)] at hread
  exact (Option.some.inj hread).symm

/-- MessagePack as a codec. -/
def msgpack : Codec where
  encode msg := if msg.InRange ∧ msg.pack.length < 2 ^ 32 then some msg.pack else none
  decode body :=
    match Message.unpack body with
    | some msg => .ok msg
    | none => .error "malformed"

theorem msgpack_roundTrips : msgpack.RoundTrips := by
  intro msg body h
  simp only [msgpack] at h ⊢
  split at h
  · rename_i hmsg
    cases h
    rw [unpack_pack msg hmsg.1 hmsg.2]
  · cases h

/-! ### A stream determines its messages -/

/-- A frame is determined, also with other frames behind it. -/
theorem wireFrame_append_inj {a b r r' : Bytes} (ha : a.length < 2 ^ 32) (hb : b.length < 2 ^ 32)
    (h : wireFrame a ++ r = wireFrame b ++ r') : a = b ∧ r = r' := by
  rw [wireFrame, wireFrame, List.append_assoc, List.append_assoc] at h
  obtain ⟨hhead, htail⟩ := List.append_inj h rfl
  have hlen : a.length = b.length := by
    rw [← fromBeBytes_toBeBytes ha, ← fromBeBytes_toBeBytes hb, hhead]
  exact List.append_inj htail hlen

/-- What `write_message` writes of a packed message. -/
theorem writeMessage_pack {codec : Codec} (hc : codec.Packs) {msg : Message} {bytes : Bytes}
    (h : writeMessage codec msg = some bytes) : bytes = wireFrame msg.pack ∧ msg.pack.length < 2 ^ 32 := by
  unfold writeMessage at h
  rw [hc msg] at h
  dsimp only at h
  split at h
  · rename_i hlen
    cases h
    exact ⟨rfl, hlen⟩
  · cases h

/-- When the bytes of some messages begin the bytes of others, the messages begin the others; equal bytes are those
of equal messages. -/
theorem stream_determines (codec : Codec) (hc : codec.Packs) (msgs msgs' : List Message)
    (hin : ∀ msg ∈ msgs, msg.InRange) (hin' : ∀ msg ∈ msgs', msg.InRange) (stream stream' : Bytes)
    (hw : writeMessages codec msgs = some stream) (hw' : writeMessages codec msgs' = some stream')
    (hpre : stream <+: stream') : msgs <+: msgs' := by
  induction msgs generalizing msgs' stream stream' with
  | nil => exact List.nil_prefix
  | cons msg msgs ih =>
    obtain ⟨bytes, hbytes, hrest⟩ := Option.bind_eq_some_iff.1 hw
    obtain ⟨later, hlater, rfl⟩ := Option.map_eq_some_iff.1 hrest
    obtain ⟨rfl, hlen⟩ := writeMessage_pack hc hbytes
    cases msgs' with
    | nil =>
      cases hw'
      have hnil := List.prefix_nil.1 hpre
      exact absurd (congrArg List.length hnil) (by simp)
    | cons msg' msgs' =>
      obtain ⟨bytes', hbytes', hrest'⟩ := Option.bind_eq_some_iff.1 hw'
      obtain ⟨later', hlater', rfl⟩ := Option.map_eq_some_iff.1 hrest'
      obtain ⟨rfl, hlen'⟩ := writeMessage_pack hc hbytes'
      obtain ⟨t, ht⟩ := hpre
      rw [List.append_assoc] at ht
      obtain ⟨hbody, htail⟩ := wireFrame_append_inj hlen hlen' ht
      have hmsg : msg = msg' :=
        Message.pack_inj (hin msg (List.mem_cons_self ..)) (hin' msg' (List.mem_cons_self ..)) hlen hbody
      subst hmsg
      refine List.cons_prefix_cons.2 ⟨rfl, ?_⟩
      exact ih msgs' (fun m hm => hin m (List.mem_cons_of_mem _ hm)) (fun m hm => hin' m (List.mem_cons_of_mem _ hm))
        later later' hlater hlater' ⟨t, htail⟩

/-- `rmp_serde` on messages in range. -/
private def packing : Codec := ⟨fun msg => some msg.pack, msgpack.decode⟩

/-- A `Ping` begins the stream of a `Ping` and an `Auth` request. -/
theorem stream_determines_ping : [Message.ping 300] <+: [.ping 300, .authRequest true ⟨"h", ["02:00"], "linux"⟩] :=
  stream_determines packing (fun _ => rfl) _ _ (by decide) (by decide)
    (wireFrame (Message.ping 300).pack)
    (wireFrame (Message.ping 300).pack ++ wireFrame (Message.authRequest true ⟨"h", ["02:00"], "linux"⟩).pack)
    rfl rfl (List.prefix_append _ _)

end Qdrop
