import Qdrop.Lib.Msgpack

/-!
# Reading MessagePack

`Value` is a tree of the kinds of values that are written here, with the names of the fields as keys of a map, and
`Value.read` is the reader of the format.  `Value.read_write`: what was written is read back, and the stream behind it
is left.
-/

namespace Lib.Msgpack

/-! ### Markers -/

/-- A number from its bytes, the most significant one first. -/
def ofBigEndian (bytes : List UInt8) : Nat := bytes.foldl (fun n b => n * 256 + b.toNat) 0

private theorem ofBigEndian_snoc (bytes : List UInt8) (b : UInt8) :
    ofBigEndian (bytes ++ [b]) = ofBigEndian bytes * 256 + b.toNat := by
  rw [ofBigEndian, List.foldl_append]
  rfl

private theorem bigEndian_snoc (k n : Nat) : bigEndian (k + 1) n = bigEndian k (n / 256) ++ [UInt8.ofNat n] := by
  induction k with
  | zero => simp [bigEndian]
  | succ k ih =>
    rw [bigEndian, ih, bigEndian, List.cons_append]
    congr 2
    rw [Nat.div_div_eq_div_mul, Nat.pow_succ, Nat.mul_comm]

theorem ofBigEndian_bigEndian {k n : Nat} (h : n < 256 ^ k) : ofBigEndian (bigEndian k n) = n := by
  induction k generalizing n with
  | zero =>
    obtain rfl : n = 0 := by simpa using h
    rfl
  | succ k ih =>
    have hdiv : n / 256 < 256 ^ k := by
      rw [Nat.div_lt_iff_lt_mul (by decide), ← Nat.pow_succ]
      exact h
    rw [bigEndian_snoc, ofBigEndian_snoc, ih hdiv, UInt8.toNat_ofNat']
    omega

/-- The next `n` bytes. -/
def takeBytes (n : Nat) (bytes : List UInt8) : Option (List UInt8 × List UInt8) :=
  if n ≤ bytes.length then some (bytes.take n, bytes.drop n) else none

theorem takeBytes_append {n : Nat} {got : List UInt8} (hn : got.length = n) (rest : List UInt8) :
    takeBytes n (got ++ rest) = some (got, rest) := by
  subst hn
  unfold takeBytes
  rw [if_pos (by simp), List.take_left, List.drop_left]

/-- A number of `k` bytes. -/
def word (k : Nat) (bytes : List UInt8) : Option (Nat × List UInt8) :=
  (takeBytes k bytes).map fun w => (ofBigEndian w.1, w.2)

theorem word_bigEndian {k n : Nat} (h : n < 256 ^ k) (rest : List UInt8) :
    word k (bigEndian k n ++ rest) = some (n, rest) := by
  rw [word, takeBytes_append (length_bigEndian k n), Option.map_some, ofBigEndian_bigEndian h]

/-- What a marker announces. -/
inductive Header where
  | bool (b : Bool)
  | uint (n : Nat)
  | str (len : Nat)
  | bin (len : Nat)
  | array (len : Nat)
  | map (len : Nat)
deriving DecidableEq, Repr

/-- What the marker `m` announces, with the number that belongs to it. -/
def marker (m : Nat) (rest : List UInt8) : Option (Header × List UInt8) :=
  if m < 0x80 then some (.uint m, rest)
  else if m < 0x90 then some (.map (m - 0x80), rest)
  else if m < 0xa0 then some (.array (m - 0x90), rest)
  else if m < 0xc0 then some (.str (m - 0xa0), rest)
  else match m with
    | 0xc2 => some (.bool false, rest)
    | 0xc3 => some (.bool true, rest)
    | 0xc4 => (word 1 rest).map fun w => (.bin w.1, w.2)
    | 0xc5 => (word 2 rest).map fun w => (.bin w.1, w.2)
    | 0xc6 => (word 4 rest).map fun w => (.bin w.1, w.2)
    | 0xcc => (word 1 rest).map fun w => (.uint w.1, w.2)
    | 0xcd => (word 2 rest).map fun w => (.uint w.1, w.2)
    | 0xce => (word 4 rest).map fun w => (.uint w.1, w.2)
    | 0xcf => (word 8 rest).map fun w => (.uint w.1, w.2)
    | 0xd9 => (word 1 rest).map fun w => (.str w.1, w.2)
    | 0xda => (word 2 rest).map fun w => (.str w.1, w.2)
    | 0xdb => (word 4 rest).map fun w => (.str w.1, w.2)
    | 0xdc => (word 2 rest).map fun w => (.array w.1, w.2)
    | 0xdd => (word 4 rest).map fun w => (.array w.1, w.2)
    | 0xde => (word 2 rest).map fun w => (.map w.1, w.2)
    | 0xdf => (word 4 rest).map fun w => (.map w.1, w.2)
    | _ => none

/-- The marker at the head of the stream. -/
def header : List UInt8 → Option (Header × List UInt8)
  | [] => none
  | b :: rest => marker b.toNat rest

/-- A marker with a number of `k` bytes. -/
private theorem header_word {b : UInt8} {k n : Nat} {f : Nat → Header} (rest : List UInt8)
    (hb : ∀ r, header (b :: r) = (word k r).map fun w => (f w.1, w.2)) (hn : n < 256 ^ k) :
    header (b :: bigEndian k n ++ rest) = some (f n, rest) := by
  rw [List.cons_append, hb, word_bigEndian hn]
  rfl

theorem header_bool (b : Bool) (rest : List UInt8) : header (bool b ++ rest) = some (.bool b, rest) := by
  cases b <;> rfl

/-- A marker that holds its number. -/
private theorem header_fix {m : Nat} (h : m < 256) (rest : List UInt8) :
    header (UInt8.ofNat m :: rest) = marker m rest := by
  have hm : (UInt8.ofNat m).toNat = m := by
    rw [UInt8.toNat_ofNat']
    omega
  rw [header, hm]

theorem header_uint {n : Nat} (h : n < 2 ^ 64) (rest : List UInt8) :
    header (uint n ++ rest) = some (.uint n, rest) := by
  unfold uint
  split
  · rename_i hn
    rw [List.cons_append, header_fix (by omega)]
    unfold marker
    rw [if_pos hn]
    rfl
  · split
    · exact header_word rest (fun _ => rfl) (by omega)
    · split
      · exact header_word rest (fun _ => rfl) (by omega)
      · split
        · exact header_word rest (fun _ => rfl) (by omega)
        · exact header_word rest (fun _ => rfl) (by omega)

theorem header_strHeader {len : Nat} (h : len < 2 ^ 32) (rest : List UInt8) :
    header (strHeader len ++ rest) = some (.str len, rest) := by
  unfold strHeader
  split
  · rename_i hlen
    rw [List.cons_append, header_fix (by omega)]
    unfold marker
    rw [if_neg (by omega), if_neg (by omega), if_neg (by omega), if_pos (by omega), Nat.add_sub_cancel_left]
    rfl
  · split
    · exact header_word rest (fun _ => rfl) (by omega)
    · split
      · exact header_word rest (fun _ => rfl) (by omega)
      · exact header_word rest (fun _ => rfl) (by omega)

theorem header_binHeader {len : Nat} (h : len < 2 ^ 32) (rest : List UInt8) :
    header (binHeader len ++ rest) = some (.bin len, rest) := by
  unfold binHeader
  split
  · exact header_word rest (fun _ => rfl) (by omega)
  · split
    · exact header_word rest (fun _ => rfl) (by omega)
    · exact header_word rest (fun _ => rfl) (by omega)

theorem header_arrayHeader {len : Nat} (h : len < 2 ^ 32) (rest : List UInt8) :
    header (seqHeader 0x90 0xdc 0xdd len ++ rest) = some (.array len, rest) := by
  unfold seqHeader
  split
  · rename_i hlen
    rw [List.cons_append, header_fix (by omega)]
    unfold marker
    rw [if_neg (by omega), if_neg (by omega), if_pos (by omega), Nat.add_sub_cancel_left]
    rfl
  · split
    · exact header_word rest (fun _ => rfl) (by omega)
    · exact header_word rest (fun _ => rfl) (by omega)

theorem header_mapHeader {len : Nat} (h : len < 2 ^ 32) (rest : List UInt8) :
    header (seqHeader 0x80 0xde 0xdf len ++ rest) = some (.map len, rest) := by
  unfold seqHeader
  split
  · rename_i hlen
    rw [List.cons_append, header_fix (by omega)]
    unfold marker
    rw [if_neg (by omega), if_pos (by omega), Nat.add_sub_cancel_left]
    rfl
  · split
    · exact header_word rest (fun _ => rfl) (by omega)
    · exact header_word rest (fun _ => rfl) (by omega)

/-! ### Values -/

inductive Value where
  | bool (b : Bool)
  | uint (n : Nat)
  | str (s : String)
  | bin (data : List UInt8)
  | array (items : List Value)
  | map (fields : List (String × Value))

namespace Value

mutual

/-- The bytes of a value. -/
def write : Value → List UInt8
  | .bool b => Msgpack.bool b
  | .uint n => Msgpack.uint n
  | .str s => Msgpack.str s
  | .bin data => Msgpack.bin data
  | .array items => Msgpack.array (writeItems items)
  | .map fields => Msgpack.map (writeFields fields)

def writeItems : List Value → List (List UInt8)
  | [] => []
  | v :: vs => v.write :: writeItems vs

def writeFields : List (String × Value) → List (String × List UInt8)
  | [] => []
  | (name, v) :: fs => (name, v.write) :: writeFields fs

end

mutual

/-- The numbers fit into 64 bits. -/
def Fits : Value → Prop
  | .uint n => n < 2 ^ 64
  | .array items => FitItems items
  | .map fields => FitFields fields
  | .bool _ | .str _ | .bin _ => True

def FitItems : List Value → Prop
  | [] => True
  | v :: vs => v.Fits ∧ FitItems vs

def FitFields : List (String × Value) → Prop
  | [] => True
  | (_, v) :: fs => v.Fits ∧ FitFields fs

end

/-- `std::str::from_utf8`. -/
def text (bytes : List UInt8) : Option String := String.fromUTF8? ⟨bytes.toArray⟩

theorem text_utf8 (s : String) : text (utf8 s) = some s := by
  have h : (⟨(utf8 s).toArray⟩ : ByteArray) = s.toByteArray := by simp [utf8]
  unfold text
  rw [h, String.fromUTF8?, dif_pos s.isValidUTF8]
  rfl

/-- A reader, `n` times. -/
def times {α : Type} (read : List UInt8 → Option (α × List UInt8)) : Nat → List UInt8 → Option (List α × List UInt8)
  | 0, bytes => some ([], bytes)
  | n + 1, bytes =>
    match read bytes with
    | none => none
    | some (a, rest) => (times read n rest).map fun r => (a :: r.1, r.2)

/-- A string of `len` bytes. -/
def readText (len : Nat) (bytes : List UInt8) : Option (String × List UInt8) :=
  match takeBytes len bytes with
  | none => none
  | some (raw, rest) => (text raw).map fun s => (s, rest)

/-- The name of a field and its value. -/
def readField (read : List UInt8 → Option (Value × List UInt8)) (bytes : List UInt8) :
    Option ((String × Value) × List UInt8) :=
  match header bytes with
  | some (.str len, rest) =>
    match readText len rest with
    | none => none
    | some (name, rest) => (read rest).map fun r => ((name, r.1), r.2)
  | _ => none

/-- The value at the head of a stream, nested at most `fuel` deep. -/
def read : Nat → List UInt8 → Option (Value × List UInt8)
  | 0, _ => none
  | fuel + 1, bytes =>
    match header bytes with
    | none => none
    | some (.bool b, rest) => some (.bool b, rest)
    | some (.uint n, rest) => some (.uint n, rest)
    | some (.str len, rest) => (readText len rest).map fun r => (.str r.1, r.2)
    | some (.bin len, rest) => (takeBytes len rest).map fun r => (.bin r.1, r.2)
    | some (.array len, rest) => (times (read fuel) len rest).map fun r => (.array r.1, r.2)
    | some (.map len, rest) => (times (readField (read fuel)) len rest).map fun r => (.map r.1, r.2)

/-- The value at the head of a stream. -/
def parse (bytes : List UInt8) : Option (Value × List UInt8) := read (bytes.length + 1) bytes

/-! ### Looking into a value -/

/-- The first field with this name. -/
def field (v : Value) (name : String) : Option Value :=
  match v with
  | .map fields => fields.lookup name
  | _ => none

def asBool : Value → Option Bool
  | .bool b => some b
  | _ => none

/-- An unsigned integer of `bits` bits. -/
def asUint (bits : Nat) : Value → Option Nat
  | .uint n => if n < 2 ^ bits then some n else none
  | _ => none

def asStr : Value → Option String
  | .str s => some s
  | _ => none

def asBin : Value → Option (List UInt8)
  | .bin data => some data
  | _ => none

/-- A field that may be missing. -/
def fieldOr {α : Type} (v : Value) (name : String) (f : Value → Option α) (default : α) : Option α :=
  match v.field name with
  | some w => f w
  | none => some default

/-- The items of an array, each read by `f`. -/
def asArray {α : Type} (f : Value → Option α) : Value → Option (List α)
  | .array items => items.mapM f
  | _ => none

theorem asUint_uint {bits n : Nat} (h : n < 2 ^ bits) : asUint bits (.uint n) = some n := by
  rw [asUint, if_pos h]

theorem asArray_map {α : Type} {f : Value → Option α} {g : α → Value} {xs : List α}
    (h : ∀ x ∈ xs, f (g x) = some x) : asArray f (.array (xs.map g)) = some xs := by
  rw [asArray]
  induction xs with
  | nil => rfl
  | cons x xs ih =>
    rw [List.map_cons, List.mapM_cons, h x (List.mem_cons_self ..),
      ih fun y hy => h y (List.mem_cons_of_mem _ hy)]
    rfl

/-! ### What was written is read back -/

theorem writeItems_map {α : Type} (f : α → Value) (xs : List α) :
    writeItems (xs.map f) = xs.map fun x => (f x).write := by
  induction xs with
  | nil => rfl
  | cons x xs ih => rw [List.map_cons, writeItems, ih, List.map_cons]

theorem fitItems_map {α : Type} {f : α → Value} {xs : List α} (h : ∀ x ∈ xs, (f x).Fits) :
    FitItems (xs.map f) := by
  induction xs with
  | nil => exact trivial
  | cons x xs ih =>
    exact ⟨h x (List.mem_cons_self ..), ih fun y hy => h y (List.mem_cons_of_mem _ hy)⟩

theorem length_writeItems (items : List Value) : (writeItems items).length = items.length := by
  induction items with
  | nil => rfl
  | cons v vs ih => rw [writeItems, List.length_cons, ih, List.length_cons]

theorem length_writeFields (fields : List (String × Value)) : (writeFields fields).length = fields.length := by
  induction fields with
  | nil => rfl
  | cons f fs ih => rw [writeFields, List.length_cons, ih, List.length_cons]

theorem readText_utf8 (s : String) (rest : List UInt8) :
    readText (utf8 s).length (utf8 s ++ rest) = some (s, rest) := by
  unfold readText
  rw [takeBytes_append rfl]
  dsimp only
  rw [text_utf8]
  rfl

theorem readField_write {read : List UInt8 → Option (Value × List UInt8)} {name : String} {v : Value}
    {rest : List UInt8} (hname : (utf8 name).length < 2 ^ 32) (hv : read (v.write ++ rest) = some (v, rest)) :
    readField read (Msgpack.str name ++ v.write ++ rest) = some ((name, v), rest) := by
  unfold readField
  rw [Msgpack.str, List.append_assoc, List.append_assoc, header_strHeader hname]
  dsimp only
  rw [readText_utf8]
  dsimp only
  rw [hv]
  rfl

/-- The bytes of a sequence are more than those of its items. -/
private theorem length_lt_seq (fix len : Nat) (short long : UInt8) (bytes : List UInt8) :
    bytes.length < (seqHeader fix short long len ++ bytes).length := by
  have hpos : 0 < seqHeaderSize len := by
    unfold seqHeaderSize
    split
    · omega
    · split <;> omega
  rw [List.length_append, length_seqHeader]
  omega

theorem write_ne_nil (v : Value) : v.write ≠ [] := by
  intro h
  have hlen := congrArg List.length h
  cases v with
  | bool b => cases hlen
  | uint n =>
    rw [write, length_uint] at hlen
    unfold uintSize at hlen
    grind
  | str s =>
    rw [write, length_str] at hlen
    unfold strSize at hlen
    grind
  | bin data =>
    rw [write, length_bin] at hlen
    unfold binSize at hlen
    grind
  | array items =>
    rw [write, Msgpack.array] at hlen
    have := length_lt_seq 0x90 (writeItems items).length 0xdc 0xdd (writeItems items).flatten
    rw [hlen] at this
    cases this
  | map fields =>
    rw [write, Msgpack.map] at hlen
    have := length_lt_seq 0x80 (writeFields fields).length 0xde 0xdf
      ((writeFields fields).flatMap fun f => Msgpack.str f.1 ++ f.2)
    rw [hlen] at this
    cases this

theorem length_items_le (items : List Value) : items.length ≤ (writeItems items).flatten.length := by
  induction items with
  | nil => exact Nat.le_refl _
  | cons v vs ih =>
    have hpos := List.length_pos_iff.2 (write_ne_nil v)
    rw [writeItems, List.flatten_cons, List.length_append, List.length_cons]
    omega

theorem length_fields_le (fields : List (String × Value)) :
    fields.length ≤ ((writeFields fields).flatMap fun f => Msgpack.str f.1 ++ f.2).length := by
  induction fields with
  | nil => exact Nat.le_refl _
  | cons f fs ih =>
    have hpos := List.length_pos_iff.2 (write_ne_nil f.2)
    rw [writeFields, List.flatMap_cons, List.length_append, List.length_append, List.length_cons]
    dsimp only
    omega

mutual

/-- A value is read back, and the stream behind it is left. -/
theorem read_write (v : Value) (hv : v.Fits) (hlen : v.write.length < 2 ^ 32) {fuel : Nat}
    (hfuel : v.write.length < fuel) (rest : List UInt8) : read fuel (v.write ++ rest) = some (v, rest) := by
  obtain ⟨fuel, rfl⟩ : ∃ k, fuel = k + 1 := ⟨fuel - 1, by omega⟩
  cases v with
  | bool b =>
    rw [read, write, header_bool]
  | uint n =>
    rw [Fits] at hv
    rw [read, write, header_uint hv]
  | str s =>
    rw [write] at hlen ⊢
    have hs : (utf8 s).length < 2 ^ 32 := by
      rw [Msgpack.str, List.length_append] at hlen
      omega
    rw [read, Msgpack.str, List.append_assoc, header_strHeader hs]
    dsimp only
    rw [readText_utf8]
    rfl
  | bin data =>
    rw [write] at hlen ⊢
    have hs : data.length < 2 ^ 32 := by
      rw [Msgpack.bin, List.length_append] at hlen
      omega
    rw [read, Msgpack.bin, List.append_assoc, header_binHeader hs]
    dsimp only
    rw [takeBytes_append rfl]
    rfl
  | array items =>
    rw [write, Msgpack.array] at hlen hfuel ⊢
    rw [Fits] at hv
    have hbytes := length_lt_seq 0x90 (writeItems items).length 0xdc 0xdd (writeItems items).flatten
    have hroom : (writeItems items).flatten.length < fuel := by omega
    have hread := readItems_write items hv (by omega) hroom rest
    have hcount : items.length ≤ (writeItems items).flatten.length := length_items_le items
    rw [read, List.append_assoc, length_writeItems, header_arrayHeader (by omega)]
    dsimp only
    rw [hread]
    rfl
  | map fields =>
    rw [write, Msgpack.map] at hlen hfuel ⊢
    rw [Fits] at hv
    have hbytes := length_lt_seq 0x80 (writeFields fields).length 0xde 0xdf
      ((writeFields fields).flatMap fun f => Msgpack.str f.1 ++ f.2)
    have hroom : ((writeFields fields).flatMap fun f => Msgpack.str f.1 ++ f.2).length < fuel := by omega
    have hread := readFields_write fields hv (by omega) hroom rest
    have hcount := length_fields_le fields
    rw [read, List.append_assoc, length_writeFields, header_mapHeader (by omega)]
    dsimp only
    rw [hread]
    rfl

theorem readItems_write (items : List Value) (hv : FitItems items) (hlen : (writeItems items).flatten.length < 2 ^ 32)
    {fuel : Nat} (hfuel : (writeItems items).flatten.length < fuel) (rest : List UInt8) :
    times (read fuel) items.length ((writeItems items).flatten ++ rest) = some (items, rest) := by
  cases items with
  | nil => rfl
  | cons v vs =>
    rw [writeItems, List.flatten_cons] at hlen hfuel ⊢
    rw [List.length_append] at hlen hfuel
    rw [List.append_assoc, List.length_cons, times, read_write v hv.1 (by omega) (by omega)]
    dsimp only
    rw [readItems_write vs hv.2 (by omega) (by omega)]
    rfl

theorem readFields_write (fields : List (String × Value)) (hv : FitFields fields)
    (hlen : ((writeFields fields).flatMap fun f => Msgpack.str f.1 ++ f.2).length < 2 ^ 32) {fuel : Nat}
    (hfuel : ((writeFields fields).flatMap fun f => Msgpack.str f.1 ++ f.2).length < fuel) (rest : List UInt8) :
    times (readField (read fuel)) fields.length
      (((writeFields fields).flatMap fun f => Msgpack.str f.1 ++ f.2) ++ rest) = some (fields, rest) := by
  cases fields with
  | nil => rfl
  | cons f fs =>
    obtain ⟨name, v⟩ := f
    rw [writeFields, List.flatMap_cons] at hlen hfuel ⊢
    rw [List.length_append, List.length_append] at hlen hfuel
    dsimp only at hlen hfuel
    have hname : (utf8 name).length < 2 ^ 32 := by
      have hstr : (Msgpack.str name).length = (strHeader (utf8 name).length).length + (utf8 name).length := by
        rw [Msgpack.str, List.length_append]
      omega
    rw [List.append_assoc, List.length_cons, times, readField_write hname (read_write v hv.1 (by omega) (by omega) _)]
    dsimp only
    rw [readFields_write fs hv.2 (by omega) (by omega)]
    rfl

end

theorem parse_write (v : Value) (hv : v.Fits) (hlen : v.write.length < 2 ^ 32) (rest : List UInt8) :
    parse (v.write ++ rest) = some (v, rest) := by
  refine read_write v hv hlen ?_ rest
  rw [List.length_append]
  omega

end Value

end Lib.Msgpack
