import Mathlib.Data.List.DropRight

/-!
# The wire vocabulary (`qdrop-core/src/proto.rs`)

Device ids, capabilities, the frames two daemons exchange, and the sanitisation of an incoming file name.
Rust's `String` is `String`, a byte buffer is `List UInt8`, and a `[u8; 32]` (digest or public key) is
`Vector UInt8 32`.  Path components follow the Unix rules of `std::path`.
-/

namespace Qdrop

abbrev DeviceId := String

abbrev Bytes := List UInt8

/-- A `[u8; 32]`: a SHA-256 digest. -/
abbrev Digest := Vector UInt8 32

/-- A `[u8; 32]`: an Ed25519 public key. -/
abbrev Key := Vector UInt8 32

/-- A path as the raw string `PathBuf` keeps. -/
abbrev PathBuf := String

def protocolVersion : Nat := 1

/-- Blob chunk size on the wire. -/
def blobChunk : Nat := 64 * 1024

/-- Constant-time equality for fixed-size byte arrays. -/
def ctEq (a b : Digest) : Bool :=
  (List.finRange 32).foldl (fun diff i => diff ||| (a.get i ^^^ b.get i)) (0 : UInt8) == 0

private theorem foldl_or_eq_zero {α : Type} (f : α → UInt8) (l : List α) (d : UInt8) :
    l.foldl (fun d i => d ||| f i) d = 0 ↔ d = 0 ∧ ∀ i ∈ l, f i = 0 := by
  induction l generalizing d with
  | nil => simp
  | cons a l ih =>
    rw [List.foldl_cons, ih, UInt8.or_eq_zero_iff]
    simp [and_assoc]

theorem ctEq_iff {a b : Digest} : ctEq a b = true ↔ a = b := by
  unfold ctEq
  rw [beq_iff_eq, foldl_or_eq_zero]
  constructor
  · rintro ⟨-, h⟩
    refine Vector.ext fun i hi => ?_
    exact UInt8.xor_eq_zero_iff.1 (h ⟨i, hi⟩ (List.mem_finRange _))
  · rintro rfl
    exact ⟨rfl, fun i _ => UInt8.xor_self⟩

structure Caps where
  clipboardText : Bool
  clipboardImages : Bool
  fileSend : Bool
  openUrl : Bool
  auth : Bool
deriving DecidableEq, Repr

/-- Everything this build knows how to do. -/
def Caps.all : Caps := ⟨true, true, true, true, true⟩

/-- The capabilities both sides share. -/
def Caps.intersect (a b : Caps) : Caps where
  clipboardText := a.clipboardText && b.clipboardText
  clipboardImages := a.clipboardImages && b.clipboardImages
  fileSend := a.fileSend && b.fileSend
  openUrl := a.openUrl && b.openUrl
  auth := a.auth && b.auth

/-- Identifying facts a device shares during the authorization exchange. -/
structure DeviceInfo where
  hostname : String
  macs : List String
  os : String
deriving DecidableEq, Repr

/-- First frame each side sends. -/
structure Hello where
  protocolVersion : Nat
  deviceId : DeviceId
  deviceName : String
  caps : Caps
deriving DecidableEq, Repr

inductive BlobPurpose where
  | file
  | clipboardImage
deriving DecidableEq, Repr

/-- MIME type for the plain-text clipboard entry. -/
def mimeText : String := "text/plain;charset=utf-8"

/-- MIME type for clipboard images. -/
def mimePng : String := "image/png"

/-- Clipboard images at or below this size are sent inline. -/
def clipImageInlineMax : Nat := 256 * 1024

/-- `str::as_bytes`. -/
def asBytes (t : String) : Bytes := t.toUTF8.data.toList

/-- `std::str::from_utf8`. -/
def fromUtf8 (data : Bytes) : Option String := String.fromUTF8? ⟨data.toArray⟩

/-- One typed payload in a clipboard update. -/
structure ClipEntry where
  mime : String
  data : Bytes
deriving DecidableEq, Repr

namespace ClipEntry

def text (s : String) : ClipEntry := ⟨mimeText, asBytes s⟩

/-- A PNG image entry. -/
def png (bytes : Bytes) : ClipEntry := ⟨mimePng, bytes⟩

/-- The entry's text, if it is a text MIME type and valid UTF-8. -/
def asText (e : ClipEntry) : Option String := if e.mime.startsWith "text/" then fromUtf8 e.data else none

/-- The entry's bytes, if it is an image. -/
def asImage (e : ClipEntry) : Option Bytes := if e.mime.startsWith "image/" then some e.data else none

end ClipEntry

/-- Every frame on the wire. -/
inductive Message where
  | hello (h : Hello)
  | ping (seq : Nat)
  | pong (seq : Nat)
  | clipboard (seq : Nat) (originId : DeviceId) (entries : List ClipEntry)
  | blobStart (id : Nat) (name : String) (size : Nat) (purpose : BlobPurpose)
  | blobChunk (id : Nat) (data : Bytes)
  | blobEnd (id : Nat) (sha256 : Digest)
  | blobAck (id : Nat) (ok : Bool) (detail : String)
  | openUrl (url : String)
  | authRequest (mutualAuth : Bool) (info : DeviceInfo)
  | authReply (ok : Bool) (info : DeviceInfo)
deriving DecidableEq, Repr

/-! ### Clipboard entries -/

theorem fromUtf8_asBytes (t : String) : fromUtf8 (asBytes t) = some t := by
  have h : (⟨(asBytes t).toArray⟩ : ByteArray) = t.toByteArray := by simp [asBytes]
  unfold fromUtf8
  rw [h, String.fromUTF8?, dif_pos t.isValidUTF8]
  rfl

@[simp] theorem ClipEntry.asText_text (t : String) : (ClipEntry.text t).asText = some t := by
  have hm : mimeText.startsWith "text/" = true := by decide +kernel
  simp [asText, text, hm, fromUtf8_asBytes]

/-! ### Path components and blob names -/

/-- `char::is_whitespace`: the Unicode property `White_Space`. -/
def isWhitespace (c : Char) : Bool :=
  let n := c.toNat
  (9 ≤ n && n ≤ 13) || n == 0x20 || n == 0x85 || n == 0xA0 || n == 0x1680 || (0x2000 ≤ n && n ≤ 0x200A) ||
    n == 0x2028 || n == 0x2029 || n == 0x202F || n == 0x205F || n == 0x3000

/-- `str::trim`. -/
def trim (s : List Char) : List Char := (s.dropWhile isWhitespace).rdropWhile isWhitespace

theorem trim_eq_self {s : List Char} (h : ∀ c, s.head? = some c ∨ s.getLast? = some c → isWhitespace c = false) :
    trim s = s := by
  unfold trim
  cases s with
  | nil => rfl
  | cons c s =>
    have hdrop : (c :: s).dropWhile isWhitespace = c :: s := by
      rw [List.dropWhile_cons, if_neg (by simp [h c (Or.inl rfl)])]
    rw [hdrop, List.rdropWhile_eq_self_iff]
    intro hne
    rw [h _ (Or.inr (List.getLast?_eq_getLast_of_ne_nil hne))]
    simp

/-- `std::path::Component` on Unix. -/
inductive Component where
  | rootDir
  | curDir
  | parentDir
  | normal (s : List Char)
deriving DecidableEq, Repr

/-- The pieces between the slashes. -/
def slashPieces : List Char → List (List Char)
  | [] => [[]]
  | c :: cs =>
    if c = '/' then [] :: slashPieces cs
    else match slashPieces cs with
      | [] => [[c]]
      | piece :: rest => (c :: piece) :: rest

/-- One piece between slashes: empty pieces and `.` disappear. -/
def parseComponent (piece : List Char) : Option Component :=
  if piece = [] ∨ piece = ['.'] then none
  else if piece = ['.', '.'] then some .parentDir
  else some (.normal piece)

/-- `Path::components`: a leading slash is the root and a leading `.` of a relative path is kept. -/
def components (p : List Char) : List Component :=
  let body := (slashPieces p).filterMap parseComponent
  match slashPieces p with
  | [] :: _ :: _ => .rootDir :: body
  | ['.'] :: _ => .curDir :: body
  | _ => body

/-- The checks of `safe_blob_name` on a name that is already trimmed. -/
def safeTrimmed (name : List Char) : Option (List Char) :=
  if name = [] ∨ name = ['.'] ∨ name = ['.', '.'] then none
  else match components name with
    | [.normal s] => if s = ['.', '.'] ∨ '/' ∈ s ∨ '\\' ∈ s then none else some s
    | _ => none

/-- Validate an incoming blob filename: the safe basename, or `none` if it tries to escape the directory. -/
def safeBlobName (name : String) : Option String :=
  (safeTrimmed (trim name.toList)).map String.ofList

/-- A file name that stays inside the directory it is joined to. -/
def Bare (s : String) : Prop := s ≠ "" ∧ s ≠ "." ∧ s ≠ ".." ∧ '/' ∉ s.toList

instance (s : String) : Decidable (Bare s) :=
  inferInstanceAs (Decidable (s ≠ "" ∧ s ≠ "." ∧ s ≠ ".." ∧ '/' ∉ s.toList))

private theorem parseComponent_normal {piece s : List Char} (h : parseComponent piece = some (.normal s)) :
    s ≠ [] ∧ s ≠ ['.'] ∧ s ≠ ['.', '.'] := by
  unfold parseComponent at h
  split at h
  · cases h
  · rename_i hne
    split at h
    · cases h
    · rename_i hdd
      simp only [Option.some.injEq, Component.normal.injEq] at h
      subst h
      exact ⟨fun e => hne (Or.inl e), fun e => hne (Or.inr e), hdd⟩

/-- A single normal component is a piece between slashes that is neither empty nor a dot name. -/
private theorem components_normal {p s : List Char} (h : components p = [.normal s]) :
    s ≠ [] ∧ s ≠ ['.'] ∧ s ≠ ['.', '.'] := by
  unfold components at h
  have hmem : Component.normal s ∈ (slashPieces p).filterMap parseComponent := by
    split at h
    · cases h
    · cases h
    · have hbody : (slashPieces p).filterMap parseComponent = [.normal s] := h
      rw [hbody]
      exact List.mem_singleton_self _
  obtain ⟨piece, _, hp⟩ := List.mem_filterMap.1 hmem
  exact parseComponent_normal hp

private theorem safeTrimmed_spec {name s : List Char} (h : safeTrimmed name = some s) :
    s ≠ [] ∧ s ≠ ['.'] ∧ s ≠ ['.', '.'] ∧ '/' ∉ s := by
  unfold safeTrimmed at h
  split at h
  · cases h
  · split at h
    · rename_i s' hc
      obtain ⟨h1, h2, h3⟩ := components_normal hc
      split at h
      · cases h
      · rename_i hs
        cases h
        exact ⟨h1, h2, h3, fun hm => hs (Or.inr (Or.inl hm))⟩
    · cases h

/-- What `safeBlobName` accepts is a bare file name. -/
theorem safeBlobName_bare {name s : String} (h : safeBlobName name = some s) : Bare s := by
  obtain ⟨l, hl, rfl⟩ := Option.map_eq_some_iff.1 h
  obtain ⟨h1, h2, h3, h4⟩ := safeTrimmed_spec hl
  refine ⟨?_, ?_, ?_, by simpa using h4⟩
  · intro e; exact h1 (by simpa using congrArg String.toList e)
  · intro e; exact h2 (by simpa using congrArg String.toList e)
  · intro e; exact h3 (by simpa using congrArg String.toList e)

example : safeBlobName "  a b.txt " = some "a b.txt" := by decide

example : ["../../etc/passwd", "/etc/passwd", "a/b.txt", "..", ".", "", "foo/../bar", "..\\windows"].all
    (fun bad => safeBlobName bad == none) = true := by decide

end Qdrop
